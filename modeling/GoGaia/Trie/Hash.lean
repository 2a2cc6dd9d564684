import GoGaia.Trie.Get

/-!
# Hashing keeps a trie canonical

`Hash` (`trie/trie.go:462`) hashes the trie without a database and keeps in place of each node
the node `hash` returns beside its collapsed form (`kept`): the children replaced by their kept
forms, and the hash of a node whose encoding has 32 bytes or more cached in its flags. A node
with a cached hash is kept as it is. The root is hashed with `force`, so its hash is cached
whatever its size.

The kept node stands for the same contents and takes the node's place below its parent
(`Canon.kept`): its children do, so its collapsed form encodes the same, and the hash it caches
is the one its parent stores. At the root, the forced hash is the hash of the collapsed root
(`hash_stands`).
-/

namespace GoGaia.Patricia

section
variable (keccak : List UInt8 → List UInt8)

/-- The node `hash` keeps in place of `n` when only hashing, below the root. -/
def kept (n : Node) : Node := ((hashMode keccak).hash n none false).1.2

/-- The node `hashChildren` keeps when only hashing: the children replaced by their kept forms. -/
def keptChildren (n : Node) : Node :=
  (Hasher.hashChildren (fun i db => (hashMode keccak).hash (n.child i) db false) n none).1.2

theorem keptChildren_short (k : List UInt8) (v : Node) (f : NodeFlag) :
    keptChildren keccak (.short k v f) = .short k (if v.isValue then v else kept keccak v) f := by
  rw [keptChildren, hashChildren_none_short _ (hash_child_none_db keccak _)]
  rfl

theorem keptChildren_full (cs : Fin 17 → Node) (f : NodeFlag) :
    keptChildren keccak (.full cs f) =
      .full (fun i => if i.val < 16 ∧ (cs i).isNil = false then kept keccak (cs i) else cs i) f := by
  rw [keptChildren, hashChildren_none_full _ (hash_child_none_db keccak _)]
  rfl

/-- A node with a cached hash is its hash, and is kept as it is. -/
theorem hash_of_cache {n : Node} {hh : List UInt8} (hc : n.cache.1 = some hh) (force : Bool) :
    (hashMode keccak).hash n none force = ((.hash hh, n), none) := by
  rw [hash_eq_hashWith, hashWith_none _ _ (hash_child_none_db keccak n)]
  have : n.cache = (some hh, n.cache.2) := Prod.ext hc rfl
  unfold Hasher.fromCache
  rw [this]
  rfl

/-- A node without a cached hash is hashed: its collapsed form is stored, and the node with its
children kept caches the hash `store` returns. -/
theorem hash_of_no_cache {n : Node} (hc : n.cache.1 = none) (force : Bool) :
    (hashMode keccak).hash n none force =
      ((((hashMode keccak).store (collapse keccak n) none force).1,
        (keptChildren keccak n).setCache
          ((hashMode keccak).store (collapse keccak n) none force).1.hashOf? false), none) := by
  rw [hash_eq_hashWith, hashWith_none _ _ (hash_child_none_db keccak n)]
  have : n.cache = (none, n.cache.2) := Prod.ext hc rfl
  unfold Hasher.fromCache
  rw [this]
  rfl

theorem kept_of_cache {n : Node} {hh : List UInt8} (hc : n.cache.1 = some hh) :
    kept keccak n = n := by
  rw [kept, hash_of_cache keccak hc]

theorem kept_of_no_cache {n : Node} (hc : n.cache.1 = none) (hh : n.hashOf? = none) :
    kept keccak n =
      (keptChildren keccak n).setCache (storedRef keccak (collapse keccak n)).hashOf? false := by
  have hc' : (collapse keccak n).cache.1 = none := by rw [cache_collapse]; exact hc
  have hh' : (collapse keccak n).hashOf? = none := by rw [hashOf_collapse]; exact hh
  rw [kept, hash_of_no_cache keccak hc, store_of_no_cache _ hc' hh']
  rfl

@[simp] theorem kept_hash (hh : List UInt8) : kept keccak (.hash hh) = .hash hh := rfl

/-- The forced `store` of the root: the hash of its encoding. -/
theorem store_force {c : Node} (hc : c.cache.1 = none) (hn : c.isNil = false)
    (hh : c.hashOf? = none) :
    ((hashMode keccak).store c none true).1 = .hash (keccak (encodeNode c)) := by
  cases c with
  | nil => cases hn
  | hash => cases hh
  | short k v f =>
    simp only [Node.cache] at hc
    simp [Hasher.store, hashMode, Node.cache, hc]
  | full cs f =>
    simp only [Node.cache] at hc
    simp [Hasher.store, hashMode, Node.cache, hc]
  | value v => simp [Hasher.store, hashMode, Node.cache]

/-- The collapsed form of a short node does not depend on its flags. -/
theorem toItem_collapse_short_flags (k : List UInt8) (v : Node) (f f' : NodeFlag) :
    (collapse keccak (.short k v f')).toItem = (collapse keccak (.short k v f)).toItem := by
  rw [collapse_short, collapse_short]
  rfl

/-- What `storedRef` hashes is at least 32 bytes long, and the hash is that of its encoding. -/
theorem hashOf_storedRef {c : Node} (hc : c.hashOf? = none) {hh : List UInt8}
    (h : (storedRef keccak c).hashOf? = some hh) :
    hh = keccak (encodeNode c) ∧ 32 ≤ (encodeNode c).length := by
  unfold storedRef at h
  split at h
  · rw [hc] at h
    cases h
  · next hlen =>
    cases h
    exact ⟨rfl, by omega⟩

end

section
variable {keccak : List UInt8 → List UInt8} {db : MemDatabase}

/-- A node with nothing cached that takes a hash `storedRef` makes of its collapsed form, with a
collapsed form that encodes the same, has the same reference. -/
theorem toItem_ref_setCache {n n' : Node} (hn : n.cache.1 = none) (hnh : n.hashOf? = none)
    (hnh' : n'.hashOf? = none)
    (hcache : n'.cache.1 = (storedRef keccak (collapse keccak n)).hashOf?)
    (hcol : (collapse keccak n').toItem = (collapse keccak n).toItem) :
    (ref keccak n').toItem = (ref keccak n).toItem := by
  rw [ref_of_no_cache keccak hn hnh]
  cases hc' : n'.cache.1 with
  | some hh =>
    obtain ⟨rfl, hlen⟩ := hashOf_storedRef keccak (by rw [hashOf_collapse]; exact hnh)
      (hcache.symm.trans hc')
    rw [ref_of_cache keccak hc', storedRef, if_neg (by omega)]
  | none =>
    rw [ref_of_no_cache keccak hc' hnh']
    exact toItem_storedRef_congr hcol

/-- A hash that a node with nothing cached may cache: the hash of its collapsed encoding, of 32
bytes or more below the root. -/
def HashFits (keccak : List UInt8 → List UInt8) (b : Bool) (n : Node)
    (H : Option (List UInt8)) : Prop :=
  ∀ hh, H = some hh → hh = keccak (encodeNode (collapse keccak n)) ∧
    (b = false → 32 ≤ (encodeNode (collapse keccak n)).length)

/-- Below the root, `hash` caches the hash `storedRef` makes of the collapsed form. -/
theorem hashFits_storedRef {b : Bool} {n : Node} (hn : n.hashOf? = none) :
    HashFits keccak b n (storedRef keccak (collapse keccak n)).hashOf? := by
  intro hh h
  have hcn : (collapse keccak n).hashOf? = none := by rw [hashOf_collapse]; exact hn
  obtain ⟨h₁, h₂⟩ := hashOf_storedRef keccak hcn h
  exact ⟨h₁, fun _ => h₂⟩

/-- At the root, `hash` caches the hash of the collapsed form, forced whatever its size. -/
theorem hashFits_force (n : Node) :
    HashFits keccak true n (some (keccak (encodeNode (collapse keccak n)))) :=
  fun _ h => ⟨(Option.some.inj h).symm, (absurd · Bool.false_ne_true.symm)⟩

/-- The flags' promises hold of a node whose collapsed form encodes the same, with nothing cached
before and, now, a hash that fits. -/
theorem FlagsOk.setCache {b : Bool} {n n' : Node} {f f' : NodeFlag}
    (hf : FlagsOk keccak db b n f) (hfh : f.hash = none)
    (hcol : (collapse keccak n').toItem = (collapse keccak n).toItem)
    (hH : HashFits keccak b n f'.hash) (hd : f'.dirty = f.dirty)
    (hclean : f.dirty = false → ∀ i, (n'.child i).Clean) :
    FlagsOk keccak db b n' f' := by
  have henc : encodeNode (collapse keccak n') = encodeNode (collapse keccak n) := by
    rw [encodeNode_eq, encodeNode_eq, hcol]
  refine ⟨fun hh h => ?_, fun hh h hb => ?_, fun hd' hh h => ?_, fun hd' _ => ?_,
    fun hd' => hclean (hd ▸ hd')⟩
  · rw [henc]
    exact (hH hh h).1
  · rw [henc]
    exact (hH hh h).2 hb
  · -- a clean node with nothing cached is embedded below the root: it is not hashed
    obtain ⟨hb, hlen⟩ := hf.embedded (hd ▸ hd') hfh
    have := (hH hh h).2 hb
    omega
  · rw [henc]
    exact hf.embedded (hd ▸ hd') hfh

/-- A node that is neither nil nor a value node takes its own place. -/
theorem RefSame.refl {n : Node} (hn : n.isNil = false) (hv : n.isValue = false) :
    RefSame keccak n n :=
  ⟨hn, hn, hv, hv, rfl, id⟩

/-- A canonical node is not a value node. -/
theorem Canon.isValue_eq_false {b : Bool} {n : Node} {m : Contents} (hc : Canon keccak db b n m) :
    n.isValue = false := by
  cases hc <;> rfl

theorem setCache_keptChildren_short (k : List UInt8) (v : Node) (f : NodeFlag)
    (H : Option (List UInt8)) :
    (keptChildren keccak (.short k v f)).setCache H false =
      .short k (if v.isValue then v else kept keccak v) { f with hash := H } := by
  rw [keptChildren_short]
  simp [Node.setCache]

theorem setCache_keptChildren_full (cs : Fin 17 → Node) (f : NodeFlag) (H : Option (List UInt8)) :
    (keptChildren keccak (.full cs f)).setCache H false =
      .full (fun i => if i.val < 16 ∧ (cs i).isNil = false then kept keccak (cs i) else cs i)
        { f with hash := H } := by
  rw [keptChildren_full]
  simp [Node.setCache]

/-- The children of a full node, replaced below the nibbles by their kept forms: each slot takes
its child's place. -/
theorem slotSame_kept {cs : Fin 17 → Node}
    (h : ∀ i : Fin 17, i.val < 16 → (cs i).isNil = false →
      RefSame keccak (cs i) (kept keccak (cs i))) (j : Fin 17) :
    SlotSame keccak j (cs j)
      ((fun i => if i.val < 16 ∧ (cs i).isNil = false then kept keccak (cs i) else cs i) j) := by
  by_cases hj : j.val < 16 ∧ (cs j).isNil = false
  · simp only [hj, and_self, if_true]
    exact .inr ⟨hj.1, h j hj.1 hj.2⟩
  · simp only [hj, if_false]
    exact .inl rfl

variable (keccak db) in
/-- What hashing does to `n` standing for `m`, below the root: the kept node stands for `m`, and
takes `n`'s place unless `n` is nil. -/
def KeptOk (b : Bool) (n : Node) (m : Contents) : Prop :=
  Canon keccak db b (kept keccak n) m ∧ (n.isNil = false → RefSame keccak n (kept keccak n))

variable (keccak db) in
/-- What hashing makes of a short or full node `n` with nothing cached standing for `m`, with a
hash `H` that fits cached: a node for `m` whose collapsed form encodes the same. -/
def CacheOk (b : Bool) (n : Node) (m : Contents) : Prop :=
  ∀ H, HashFits keccak b n H →
    Canon keccak db b ((keptChildren keccak n).setCache H false) m ∧
      (collapse keccak ((keptChildren keccak n).setCache H false)).toItem =
        (collapse keccak n).toItem

theorem cacheOk_leaf {b : Bool} {ns : List UInt8} (hns : Nibbles ns) {w : List UInt8}
    (hw : w ≠ []) {f : NodeFlag} (hf : FlagsOk keccak db b (.short (ns ++ [16]) (.value w) f) f)
    (hfh : f.hash = none) :
    CacheOk keccak db b (.short (ns ++ [16]) (.value w) f) (leafMap (ns ++ [16]) w) := by
  intro H hH
  rw [setCache_keptChildren_short]
  simp only [Node.isValue, if_true]
  have hcol := toItem_collapse_short_flags keccak (ns ++ [16]) (.value w) f { f with hash := H }
  exact ⟨.leaf b ns hns w hw _ (hf.setCache hfh hcol hH rfl fun _ _ => trivial), hcol⟩

theorem cacheOk_ext {b : Bool} {ns : List UInt8} (hns : Nibbles ns) (hne : ns ≠ [])
    {c : Node} {mc : Contents} (hc : Canon keccak db false c mc) (hbr : Branching mc)
    (ih : KeptOk keccak db false c mc) {f : NodeFlag}
    (hf : FlagsOk keccak db b (.short ns c f) f) (hfh : f.hash = none) :
    CacheOk keccak db b (.short ns c f) (extMap ns mc) := by
  intro H hH
  obtain ⟨k, -, v, -, hk, -⟩ := id hbr
  have hr : RefSame keccak c (kept keccak c) := ih.2 (hc.isNil_eq_false hk)
  rw [setCache_keptChildren_short, hc.isValue_eq_false]
  simp only [Bool.false_eq_true, if_false]
  have hcol := toItem_collapse_short ns hr f { f with hash := H }
  exact ⟨.ext b ns hns hne _ mc ih.1 hbr _
    (hf.setCache hfh hcol hH rfl fun hd _ => hr.clean (hf.clean_children hd 0)), hcol⟩

theorem cacheOk_full {b : Bool} {cs : Fin 17 → Node} {ms : Fin 16 → Contents}
    (hcs : ∀ i : Fin 16, Canon keccak db false (cs i.castSucc) (ms i))
    (ih : ∀ i : Fin 16, KeptOk keccak db false (cs i.castSucc) (ms i))
    {v16 : Option (List UInt8)} (h16 : cs 16 = v16.elim .nil .value) (hv16 : v16 ≠ some [])
    (hcount : 2 ≤ Node.nonNilCount cs) {f : NodeFlag} (hf : FlagsOk keccak db b (.full cs f) f)
    (hfh : f.hash = none) :
    CacheOk keccak db b (.full cs f) (fullMap ms v16) := by
  intro H hH
  rw [setCache_keptChildren_full]
  set cs' : Fin 17 → Node :=
    fun i => if i.val < 16 ∧ (cs i).isNil = false then kept keccak (cs i) else cs i with hcs'
  -- every child below a nibble takes its child's place, by the induction hypothesis
  have hsame : ∀ j, SlotSame keccak j (cs j) (cs' j) := slotSame_kept fun i hi hn =>
    (ih ⟨i.val, hi⟩).2 hn
  have hcanon : ∀ i : Fin 16, Canon keccak db false (cs' i.castSucc) (ms i) := by
    intro i
    cases hn : (cs i.castSucc).isNil with
    | false =>
      simp only [hcs', Fin.val_castSucc, i.isLt, hn, and_self, if_true]
      exact (ih i).1
    | true =>
      simp only [hcs', hn, Bool.true_eq_false, and_false, if_false]
      exact hcs i
  have h16' : cs' 16 = v16.elim .nil .value := by
    simp only [hcs', show ¬ ((16 : Fin 17).val < 16) by decide, false_and, if_false]
    exact h16
  have hcol := toItem_collapse_full_congr hsame f { f with hash := H }
  have hf' : FlagsOk keccak db b (.full cs' { f with hash := H }) { f with hash := H } :=
    hf.setCache hfh hcol hH rfl fun hd j => (hsame j).clean (hf.clean_children hd j)
  exact ⟨.full b cs' ms hcanon v16 h16' hv16
    ((nonNilCount_congr fun j => (hsame j).isNil).symm ▸ hcount) _ hf', hcol⟩

/-- A node with a cached hash is kept as it is. -/
theorem keptOk_of_cache {b : Bool} {n : Node} {m : Contents} (hc : Canon keccak db b n m)
    {hh : List UInt8} (hcache : n.cache.1 = some hh) : KeptOk keccak db b n m := by
  rw [KeptOk, kept_of_cache keccak hcache]
  exact ⟨hc, fun hn => RefSame.refl hn hc.isValue_eq_false⟩

theorem keptOk_of_cacheOk_short {b : Bool} {k : List UInt8} {c : Node} {f : NodeFlag}
    {m : Contents} (hfh : f.hash = none) (h : CacheOk keccak db b (.short k c f) m) :
    KeptOk keccak db b (.short k c f) m := by
  obtain ⟨hc, hcol⟩ := h _ (hashFits_storedRef rfl)
  rw [KeptOk, kept_of_no_cache keccak (show (Node.short k c f).cache.1 = none from hfh) rfl]
  rw [setCache_keptChildren_short] at hc hcol ⊢
  exact ⟨hc, fun _ => ⟨rfl, rfl, rfl, rfl, toItem_ref_setCache hfh rfl rfl rfl hcol, id⟩⟩

theorem keptOk_of_cacheOk_full {b : Bool} {cs : Fin 17 → Node} {f : NodeFlag} {m : Contents}
    (hfh : f.hash = none) (h : CacheOk keccak db b (.full cs f) m) :
    KeptOk keccak db b (.full cs f) m := by
  obtain ⟨hc, hcol⟩ := h _ (hashFits_storedRef rfl)
  rw [KeptOk, kept_of_no_cache keccak (show (Node.full cs f).cache.1 = none from hfh) rfl]
  rw [setCache_keptChildren_full] at hc hcol ⊢
  exact ⟨hc, fun _ => ⟨rfl, rfl, rfl, rfl, toItem_ref_setCache hfh rfl rfl rfl hcol, id⟩⟩

/-- Hashing a canonical node without a database keeps a canonical node for the same contents,
which takes its place. -/
theorem Canon.kept {b : Bool} {n : Node} {m : Contents} (hc : Canon keccak db b n m) :
    KeptOk keccak db b n m := by
  induction hc with
  | nil b => exact ⟨.nil b, (absurd · Bool.false_ne_true.symm)⟩
  | leaf b ns hns w hw f hf =>
    cases hfh : f.hash with
    | some hh => exact keptOk_of_cache (.leaf b ns hns w hw f hf) hfh
    | none => exact keptOk_of_cacheOk_short hfh (cacheOk_leaf hns hw hf hfh)
  | ext b ns hns hne c mc hc hbr f hf ih =>
    cases hfh : f.hash with
    | some hh => exact keptOk_of_cache (.ext b ns hns hne c mc hc hbr f hf) hfh
    | none => exact keptOk_of_cacheOk_short hfh (cacheOk_ext hns hne hc hbr ih hf hfh)
  | full b cs ms hcs v16 h16 hv16 hcount f hf ih =>
    cases hfh : f.hash with
    | some hh => exact keptOk_of_cache (.full b cs ms hcs v16 h16 hv16 hcount f hf) hfh
    | none => exact keptOk_of_cacheOk_full hfh (cacheOk_full hcs ih h16 hv16 hcount hf hfh)
  | hash b hh blob hget hsize m dec hdec hcd ih =>
    rw [KeptOk, kept_hash]
    exact ⟨.hash b hh blob hget hsize m dec hdec hcd, fun _ => RefSame.refl rfl rfl⟩

/-- The root `hash` keeps when hashing with `force`: canonical for the same contents. -/
theorem Canon.keptRoot {n : Node} {m : Contents} (hc : Canon keccak db true n m) :
    Canon keccak db true ((hashMode keccak).hash n none true).1.2 m := by
  -- a root without a cached hash caches the hash of its collapsed form
  have hforce : ∀ {n : Node}, n.cache.1 = none → n.isNil = false → n.hashOf? = none →
      ((hashMode keccak).hash n none true).1.2 =
        (keptChildren keccak n).setCache (some (keccak (encodeNode (collapse keccak n)))) false := by
    intro n hnc hn hnh
    rw [hash_of_no_cache keccak hnc, store_force keccak (by rw [cache_collapse]; exact hnc)
      (by rw [isNil_collapse]; exact hn) (by rw [hashOf_collapse]; exact hnh)]
    rfl
  cases hc with
  | nil => exact .nil true
  | leaf _ ns hns w hw f hf =>
    cases hfh : f.hash with
    | some hh =>
      rw [hash_of_cache keccak (show (Node.short _ _ f).cache.1 = some hh from hfh)]
      exact .leaf true ns hns w hw f hf
    | none =>
      rw [hforce (show (Node.short _ _ f).cache.1 = none from hfh) rfl rfl]
      exact (cacheOk_leaf hns hw hf hfh _ (hashFits_force _)).1
  | ext _ ns hns hne c mc hc hbr f hf =>
    cases hfh : f.hash with
    | some hh =>
      rw [hash_of_cache keccak (show (Node.short _ _ f).cache.1 = some hh from hfh)]
      exact .ext true ns hns hne c mc hc hbr f hf
    | none =>
      rw [hforce (show (Node.short _ _ f).cache.1 = none from hfh) rfl rfl]
      exact (cacheOk_ext hns hne hc hbr hc.kept hf hfh _ (hashFits_force _)).1
  | full _ cs ms hcs v16 h16 hv16 hcount f hf =>
    cases hfh : f.hash with
    | some hh =>
      rw [hash_of_cache keccak (show (Node.full cs f).cache.1 = some hh from hfh)]
      exact .full true cs ms hcs v16 h16 hv16 hcount f hf
    | none =>
      rw [hforce (show (Node.full cs f).cache.1 = none from hfh) rfl rfl]
      exact (cacheOk_full hcs (fun i => (hcs i).kept) h16 hv16 hcount hf hfh _
        (hashFits_force _)).1
  | hash _ hh blob hget hsize m dec hdec hcd => exact .hash true hh blob hget hsize m dec hdec hcd

end

namespace Trie

variable {keccak : List UInt8 → List UInt8}

/-- The root `Hash` keeps: what `hash` keeps with `force`. -/
theorem hashRoot_none_root (t : Trie) :
    (t.hashRoot keccak none).1.2 = ((hashMode keccak).hash t.root none true).1.2 := by
  unfold hashRoot
  split
  · next h => rw [h]; rfl
  · rw [hash_none_keccak]

/-- `Hash` keeps a trie that stands for its contents standing for them, with the same database
and generation. -/
theorem hash_stands {t : Trie} {m : Contents} (hc : t.Stands keccak m) :
    (t.Hash keccak).2.Stands keccak m ∧ (t.Hash keccak).2.db = t.db ∧
      (t.Hash keccak).2.cachegen = t.cachegen := by
  have hroot : (t.Hash keccak).2 = { t with root := (t.hashRoot keccak none).1.2 } := rfl
  rw [hroot, hashRoot_none_root]
  exact ⟨hc.keptRoot, rfl, rfl⟩

end Trie

end GoGaia.Patricia
