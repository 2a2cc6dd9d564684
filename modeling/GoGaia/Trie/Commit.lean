import GoGaia.Trie.Decoded

/-!
# Committing keeps a trie canonical

`Commit` (`trie/trie.go:474`) runs `hasher.hash` in commit mode (`trie/hasher.go:54`): with a
database, every node hashed again is written under its hash and marked clean, and a clean node
with a cached hash is kept as it is, or unloaded to its hash node when it is old enough
(`canUnload`). The database is threaded through the children of a full node in order
(`hashChildren`).

What committing a node standing for `m` does (`Committed`): it returns the same reference as
hashing does (so `Commit`'s root hash is `Hash`'s), writes only values under their Keccak-256
hashes (`KeyedExtends`), and keeps a clean node that stands for `m` over every later database
without conflicting writes and takes the node's place below its parent. The cases follow
`fromCache`: an unloaded node's hash node reads back (`Canon.hash_of_stored`), a clean node is kept,
and any other node is hashed again (`committed_of_rehash`), with its children committed first by
the induction hypothesis; for a full node through the loop `hashFullChildren_some`, which carries
the children's promises over the writes of the siblings after them.

At the trie: `Commit` keeps the trie standing for its contents over the database it wrote
(`commit_stands`), and `New` with the returned root re-opens a trie standing for them
(`new_commit_stands`).
-/

namespace GoGaia.Patricia

/-! ## Writes keyed by their hash -/

/-- `d'` holds the writes of `d` and newer ones, each storing a value under its Keccak-256 hash. -/
def KeyedExtends (keccak : List UInt8 → List UInt8) (d d' : MemDatabase) : Prop :=
  ∃ new, d'.puts = new ++ d.puts ∧ ∀ p ∈ new, p.1 = keccak p.2

namespace KeyedExtends

variable {keccak : List UInt8 → List UInt8} {d₁ d₂ d₃ : MemDatabase}

theorem refl (d : MemDatabase) : KeyedExtends keccak d d :=
  ⟨[], rfl, fun _ h => absurd h List.not_mem_nil⟩

theorem trans (h₁ : KeyedExtends keccak d₁ d₂) (h₂ : KeyedExtends keccak d₂ d₃) :
    KeyedExtends keccak d₁ d₃ := by
  obtain ⟨n₁, e₁, k₁⟩ := h₁
  obtain ⟨n₂, e₂, k₂⟩ := h₂
  refine ⟨n₂ ++ n₁, by rw [e₂, e₁, List.append_assoc], fun p hp => ?_⟩
  rcases List.mem_append.mp hp with hp | hp
  · exact k₂ p hp
  · exact k₁ p hp

theorem toExtends (h : KeyedExtends keccak d₁ d₂) : Extends d₁ d₂ := by
  obtain ⟨new, e, -⟩ := h
  exact ⟨new, e⟩

theorem keyed (h : KeyedExtends keccak d₁ d₂) (hk : Keyed keccak d₁) : Keyed keccak d₂ := by
  obtain ⟨new, e, hnew⟩ := h
  intro p hp
  rw [e] at hp
  rcases List.mem_append.mp hp with hp | hp
  · exact hnew p hp
  · exact hk p hp

theorem put {hh v : List UInt8} (hv : hh = keccak v) (d : MemDatabase) :
    KeyedExtends keccak d (d.put hh v) :=
  ⟨[(hh, v)], rfl, by simpa using hv⟩

end KeyedExtends

/-- A database without conflicting writes reads every value written under its key. -/
theorem Functional.get_of_mem {d : MemDatabase} (hf : Functional d) {k v : List UInt8}
    (h : (k, v) ∈ d.puts) : d.get k = some v := by
  obtain ⟨v', hv'⟩ := MemDatabase.get_isSome_of_mem h
  have he : v' = v := hf _ (MemDatabase.mem_of_get hv') _ h rfl
  rw [hv', he]

/-! ## `store` and `fromCache` in commit mode -/

section
variable (h : Hasher)

/-- In commit mode `store` returns what it returns when only hashing, and writes the collapsed
node under the hash it returns, if it returns one. -/
theorem store_some {c : Node} (hh : c.hashOf? = none) (d : MemDatabase) (force : Bool) :
    h.store c (some d) force =
      (((hashMode h.keccak).store c none force).1,
        some (((hashMode h.keccak).store c none force).1.hashOf?.elim d
          fun H => d.put H (encodeNode c))) := by
  cases c with
  | nil => rfl
  | hash => cases hh
  | short | full | value =>
    simp only [Hasher.store, hashMode]
    split <;> rfl

/-- `hash` answered by the cache, which leaves the database as it is. -/
theorem hash_of_fromCache {n : Node} {r : Node × Node} (hfc : h.fromCache n true = some r)
    (d : MemDatabase) (force : Bool) : h.hash n (some d) force = (r, some d) := by
  rw [hash_eq_hashWith]
  unfold Hasher.hashWith
  rw [Option.isSome_some, hfc]

/-- `hash` of a node the cache does not answer for, in commit mode: its children hashed, its
collapsed form stored, and the hash `store` returns cached in the node with its children kept,
marked clean. -/
theorem hash_of_rehash {n col n₁ : Node} {d d₁ : MemDatabase} (hfc : h.fromCache n true = none)
    (hch : Hasher.hashChildren (fun i db => h.hash (n.child i) db false) n (some d) =
      ((col, n₁), some d₁)) (hcol : col.hashOf? = none) (force : Bool) :
    h.hash n (some d) force =
      ((((hashMode h.keccak).store col none force).1,
          n₁.setCache ((hashMode h.keccak).store col none force).1.hashOf? true),
        some (((hashMode h.keccak).store col none force).1.hashOf?.elim d₁
          fun H => d₁.put H (encodeNode col))) := by
  rw [hash_eq_hashWith]
  unfold Hasher.hashWith
  rw [Option.isSome_some, hfc]
  simp only
  rw [hch]
  simp only
  rw [store_some h hcol]
  rfl

/-- What the cache answers in commit mode: a node with a cached hash, unloaded to its hash node
when it can be, and kept as it is when it is clean. -/
theorem fromCache_commit {n : Node} {r : Node × Node} (hfc : h.fromCache n true = some r) :
    ∃ H, n.cache.1 = some H ∧
      ((n.canUnload h.cachegen h.cachelimit = true ∧ r = (.hash H, .hash H)) ∨
        (n.cache.2 = false ∧ r = (.hash H, n))) := by
  unfold Hasher.fromCache at hfc
  split at hfc
  · next H dirty hcache =>
    refine ⟨H, by rw [hcache], ?_⟩
    simp only [Bool.not_true, Bool.false_eq_true, if_false] at hfc
    split at hfc
    · next hun => exact .inl ⟨hun, (Option.some.inj hfc).symm⟩
    · split at hfc
      · next hd => exact .inr ⟨by rw [hcache]; simpa using hd, (Option.some.inj hfc).symm⟩
      · cases hfc
  · cases hfc

end

/-- A node whose cache says clean is clean. -/
theorem clean_of_cache {n : Node} (h : n.cache.2 = false) : n.Clean := by
  cases n with
  | short _ _ f => exact h
  | full _ f => exact h
  | nil | hash | value => trivial

/-- Only clean nodes can be unloaded. -/
theorem cache_clean_of_canUnload {n : Node} {g l : UInt16} (h : n.canUnload g l = true) :
    n.cache.2 = false := by
  cases n with
  | short _ _ f | full _ f =>
    simp only [Node.canUnload, NodeFlag.canUnload, Bool.and_eq_true, Bool.not_eq_true'] at h
    exact h.1
  | nil | hash | value => cases h

/-! ## Commit mode only adds writes -/

section
variable (h : Hasher)
  {hashChild : Fin 17 → Option MemDatabase → (Node × Node) × Option MemDatabase}
  (hhc : ∀ i d, ∃ d', (hashChild i (some d)).2 = some d' ∧ Extends d d')
include hhc

theorem hashFullChildren_extends (cs : Fin 17 → Node) :
    ∀ (is : List (Fin 17)) (collapsed cached : Fin 17 → Node) (d : MemDatabase),
      ∃ d', (Hasher.hashFullChildren hashChild cs is collapsed cached (some d)).2 = some d' ∧
        Extends d d'
  | [], _, _, d => ⟨d, rfl, .refl d⟩
  | j :: is, collapsed, cached, d => by
    rw [Hasher.hashFullChildren]
    split
    · exact hashFullChildren_extends cs is _ cached d
    · obtain ⟨d₁, hd₁, hx₁⟩ := hhc j d
      rcases hc : hashChild j (some d) with ⟨⟨c₁, c₂⟩, db⟩
      rw [hc] at hd₁
      obtain rfl : db = some d₁ := hd₁
      obtain ⟨d', hd', hx'⟩ := hashFullChildren_extends cs is (Function.update collapsed j c₁)
        (Function.update cached j c₂) d₁
      exact ⟨d', hd', hx₁.trans hx'⟩

theorem hashChildren_extends (n : Node) (d : MemDatabase) :
    ∃ d', (Hasher.hashChildren hashChild n (some d)).2 = some d' ∧ Extends d d' := by
  cases n with
  | short key val flags =>
    cases hv : val.isValue with
    | true =>
      refine ⟨d, ?_, .refl d⟩
      simp only [Hasher.hashChildren, hv, if_true]
    | false =>
      obtain ⟨d₁, hd₁, hx₁⟩ := hhc 0 d
      refine ⟨d₁, ?_, hx₁⟩
      simp only [Hasher.hashChildren, hv, Bool.false_eq_true, if_false]
      exact hd₁
  | full cs flags => exact hashFullChildren_extends hhc cs Hasher.nibbleIndices cs cs d
  | nil | hash | value => exact ⟨d, rfl, .refl d⟩

omit hhc in
theorem store_extends (c : Node) (d : MemDatabase) (force : Bool) :
    ∃ d', (h.store c (some d) force).2 = some d' ∧ Extends d d' := by
  unfold Hasher.store
  split
  · exact ⟨d, rfl, .refl d⟩
  · exact ⟨d, rfl, .refl d⟩
  · dsimp only
    split
    · exact ⟨d, rfl, .refl d⟩
    · exact ⟨_, rfl, .put d _ _⟩

theorem hashWith_extends (n : Node) (d : MemDatabase) (force : Bool) :
    ∃ d', (h.hashWith hashChild n (some d) force).2 = some d' ∧ Extends d d' := by
  unfold Hasher.hashWith
  cases h.fromCache n (some d).isSome with
  | some r => exact ⟨d, rfl, .refl d⟩
  | none =>
    obtain ⟨d₁, hd₁, hx₁⟩ := hashChildren_extends hhc n d
    obtain ⟨d', hd', hx'⟩ := store_extends h (Hasher.hashChildren hashChild n (some d)).1.1 d₁ force
    refine ⟨d', ?_, hx₁.trans hx'⟩
    show (h.store _ (Hasher.hashChildren hashChild n (some d)).2 force).2 = some d'
    rw [hd₁]
    exact hd'

omit hhc in
/-- In commit mode `hash` only adds writes to the database, whatever the node: it never removes
or replaces one. By induction on the node, through `hashWith`. -/
theorem hash_extends (n : Node) :
    ∀ (d : MemDatabase) (force : Bool), ∃ d', (h.hash n (some d) force).2 = some d' ∧ Extends d d' := by
  induction n with
  | short key val flags ih =>
    intro d force
    rw [hash_eq_hashWith]
    exact hashWith_extends h (fun _ d => ih d false) _ d force
  | full cs flags ih =>
    intro d force
    rw [hash_eq_hashWith]
    exact hashWith_extends h (fun i d => ih i d false) _ d force
  | nil | hash | value =>
    intro d force
    rw [hash_eq_hashWith]
    exact hashWith_extends h (fun _ d => ⟨d, rfl, .refl d⟩) _ d force

end

/-! ## What `store` returns for a canonical node -/

section
variable {keccak : List UInt8 → List UInt8}

/-- `store` of a collapsed node with a cached hash that is forced or large enough: the cached
hash. -/
theorem store_of_cache {c : Node} {H : List UInt8} (hc : c.cache.1 = some H) {force : Bool}
    (hlen : force = false → 32 ≤ (encodeNode c).length) :
    ((hashMode keccak).store c none force).1 = .hash H := by
  cases c with
  | short | full =>
    simp only [Node.cache] at hc
    simp only [Hasher.store, Node.cache, hc]
    split
    · next hlt =>
      have := hlen (by simpa using hlt.2)
      omega
    · rfl
  | nil | hash | value => cases hc

/-- `store` returns no hash only for a node it keeps embedded: shorter than 32 bytes, and not
forced. -/
theorem store_hashOf_none {c : Node} (hn : c.isNil = false) (hh : c.hashOf? = none) {force : Bool}
    (h : ((hashMode keccak).store c none force).1.hashOf? = none) :
    (encodeNode c).length < 32 ∧ force = false := by
  cases c with
  | nil => cases hn
  | hash => cases hh
  | short | full | value =>
    simp only [Hasher.store] at h
    split at h
    · next hlt => exact ⟨hlt.1, by simpa using hlt.2⟩
    · cases h

variable {db : MemDatabase} {b : Bool} {n : Node} {f : NodeFlag}

/-- What `hash` returns for a canonical short or full node when only hashing: what `store` makes
of its collapsed form, since a cached hash is the hash of 32 bytes or more below the root. -/
theorem hash_fst_eq_store (hnf : n.cache = (f.hash, f.dirty)) (hf : FlagsOk keccak db b n f) :
    ((hashMode keccak).hash n none b).1.1 = ((hashMode keccak).store (collapse keccak n) none b).1 := by
  cases hc : f.hash with
  | none => rw [hash_of_no_cache keccak (by rw [hnf, hc])]
  | some H =>
    have hcache : n.cache.1 = some H := by rw [hnf, hc]
    rw [hash_of_cache keccak hcache, store_of_cache (by rw [cache_collapse]; exact hcache)]
    exact hf.hash_size H hc

/-- The hash `store` returns for the collapsed form of a canonical short or full node fits it. -/
theorem hashFits_store (hnf : n.cache = (f.hash, f.dirty)) (hnn : n.isNil = false)
    (hnh : n.hashOf? = none) (hf : FlagsOk keccak db b n f) :
    HashFits keccak b n ((hashMode keccak).store (collapse keccak n) none b).1.hashOf? := by
  have hcn : (collapse keccak n).hashOf? = none := by rw [hashOf_collapse]; exact hnh
  cases hc : f.hash with
  | some H =>
    rw [store_of_cache (by rw [cache_collapse, hnf, hc]) (hf.hash_size H hc)]
    rintro hh ⟨⟩
    exact ⟨hf.hash_eq H hc, hf.hash_size H hc⟩
  | none =>
    have hcc : (collapse keccak n).cache.1 = none := by rw [cache_collapse, hnf, hc]
    cases b with
    | false =>
      rw [store_of_no_cache _ hcc hcn]
      exact hashFits_storedRef hnh
    | true =>
      rw [store_force keccak hcc (by rw [isNil_collapse]; exact hnn) hcn]
      exact hashFits_force n

/-- The store's write is keyed by its hash. -/
theorem keyedExtends_store (hnf : n.cache = (f.hash, f.dirty)) (hnn : n.isNil = false)
    (hnh : n.hashOf? = none) (hf : FlagsOk keccak db b n f) (d : MemDatabase) :
    KeyedExtends keccak d
      (((hashMode keccak).store (collapse keccak n) none b).1.hashOf?.elim d
        fun H => d.put H (encodeNode (collapse keccak n))) := by
  have hfits := hashFits_store hnf hnn hnh hf
  cases hS : ((hashMode keccak).store (collapse keccak n) none b).1.hashOf? with
  | none => exact .refl d
  | some hh => exact .put (hfits hh hS).1 d

variable (keccak) in
/-- What a node hashed again in commit mode may cache over database `db`: a hash that fits,
under which `db` holds the collapsed encoding, or none for a node embedded below the root. -/
def StoredFits (db : MemDatabase) (b : Bool) (n : Node) (S : Option (List UInt8)) : Prop :=
  HashFits keccak b n S ∧ (∀ hh, S = some hh → db.get hh = some (encodeNode (collapse keccak n))) ∧
    (S = none → b = false ∧ (encodeNode (collapse keccak n)).length < 32)

/-- The hash `store` returns in commit mode fits and is stored, over every database that holds its
write and has no conflicting writes. -/
theorem storedFits_store (hnf : n.cache = (f.hash, f.dirty)) (hnn : n.isNil = false)
    (hnh : n.hashOf? = none) (hf : FlagsOk keccak db b n f) {d₁ dF : MemDatabase}
    (hx : Extends (((hashMode keccak).store (collapse keccak n) none b).1.hashOf?.elim d₁
      fun H => d₁.put H (encodeNode (collapse keccak n))) dF) (hF : Functional dF) :
    StoredFits keccak dF b n ((hashMode keccak).store (collapse keccak n) none b).1.hashOf? := by
  refine ⟨hashFits_store hnf hnn hnh hf, fun hh hS => ?_, fun hS => ?_⟩
  · rw [hS] at hx
    exact hF.get_of_mem (hx.subset (by simp [MemDatabase.put]))
  · obtain ⟨hlen, hb⟩ := store_hashOf_none (by rw [isNil_collapse]; exact hnn)
      (by rw [hashOf_collapse]; exact hnh) hS
    exact ⟨hb, hlen⟩

/-- The flags' promises hold of a clean node whose collapsed form encodes as `n`'s, with a hash
that fits and is stored. -/
theorem flagsOk_of_storedFits {n' : Node} {f' : NodeFlag} (hS : StoredFits keccak db b n f'.hash)
    (hcol : (collapse keccak n').toItem = (collapse keccak n).toItem)
    (hclean : ∀ i, (n'.child i).Clean) : FlagsOk keccak db b n' f' := by
  have henc : encodeNode (collapse keccak n') = encodeNode (collapse keccak n) := by
    rw [encodeNode_eq, encodeNode_eq, hcol]
  obtain ⟨hH, hstored, hemb⟩ := hS
  refine ⟨fun hh h => ?_, fun hh h hb => ?_, fun _ hh h => ?_, fun _ h => ?_, fun _ => hclean⟩
  · rw [henc]
    exact (hH hh h).1
  · rw [henc]
    exact (hH hh h).2 hb
  · rw [henc]
    exact hstored hh h
  · rw [henc]
    exact hemb h

/-- A node hashed again below the root, with a collapsed form that encodes the same and the hash
`store` returned cached, has the node's reference. -/
theorem toItem_ref_rehash {n' : Node} (hnf : n.cache = (f.hash, f.dirty)) (hnh : n.hashOf? = none)
    (hf : FlagsOk keccak db false n f) (hnh' : n'.hashOf? = none)
    (hcache : n'.cache.1 = ((hashMode keccak).store (collapse keccak n) none false).1.hashOf?)
    (hcol : (collapse keccak n').toItem = (collapse keccak n).toItem) :
    (ref keccak n').toItem = (ref keccak n).toItem := by
  cases hc : f.hash with
  | some H =>
    have hcache₀ : n.cache.1 = some H := by rw [hnf, hc]
    rw [store_of_cache (by rw [cache_collapse]; exact hcache₀) (hf.hash_size H hc)] at hcache
    rw [ref_of_cache keccak hcache₀, ref_of_cache keccak hcache]
  | none =>
    have hcache₀ : n.cache.1 = none := by rw [hnf, hc]
    rw [store_of_no_cache _ (by rw [cache_collapse]; exact hcache₀)
      (by rw [hashOf_collapse]; exact hnh)] at hcache
    exact toItem_ref_setCache hcache₀ hnh hnh' hcache hcol

end

/-! ## The loop over a full node's children -/

section
variable {keccak : List UInt8 → List UInt8} {db₀ : MemDatabase}
  (hashChild : Fin 17 → Option MemDatabase → (Node × Node) × Option MemDatabase)
  (cs R : Fin 17 → Node)

/-- The collapsed children after one more step of the loop, at child `j`. -/
theorem update_collapsed (j : Fin 17) (is : List (Fin 17)) (collapsed : Fin 17 → Node) :
    (fun i => if i ∈ is then (if (cs i).isNil then .value [] else R i)
        else Function.update collapsed j (if (cs j).isNil then .value [] else R j) i) =
      fun i => if i ∈ j :: is then (if (cs i).isNil then .value [] else R i) else collapsed i := by
  funext i
  by_cases hi : i = j
  · subst hi
    by_cases hm : i ∈ is <;> simp [hm]
  · simp [hi]

/-- The loop of `hashChildren` in commit mode over the children `is`, each non-nil child hashed
into the database the one before left, returning `R i` and keeping a node that satisfies
`G i` over what it wrote: the collapsed children are the `R i`, the database grows by keyed
writes, the children outside `is` or nil are kept as they are, and each hashed child satisfies
`G i` over the final database, since later writes keep it (`hG`). By recursion on `is`. -/
theorem hashFullChildren_some (G : Fin 17 → Node → MemDatabase → Prop)
    (hG : ∀ {i c d d'}, G i c d → Extends d d' → G i c d') :
    ∀ (is : List (Fin 17)), (∀ i ∈ is, (cs i).isNil = false → ∀ d, Extends db₀ d →
      ∃ c d', hashChild i (some d) = ((R i, c), some d') ∧ KeyedExtends keccak d d' ∧ G i c d') →
    ∀ (collapsed cached : Fin 17 → Node) (d : MemDatabase), Extends db₀ d →
      ∃ cached' d', Hasher.hashFullChildren hashChild cs is collapsed cached (some d) =
          ((fun i => if i ∈ is then (if (cs i).isNil then .value [] else R i) else collapsed i,
            cached'), some d') ∧
        KeyedExtends keccak d d' ∧ (∀ i, ¬ (i ∈ is ∧ (cs i).isNil = false) → cached' i = cached i) ∧
        ∀ i ∈ is, (cs i).isNil = false → G i (cached' i) d'
  | [], _, collapsed, cached, d, _ =>
    ⟨cached, d, by simp [Hasher.hashFullChildren], .refl d, fun _ _ => rfl,
      fun _ hi => absurd hi List.not_mem_nil⟩
  | j :: is, hchild, collapsed, cached, d, hd => by
    have hrest := fun i hi => hchild i (List.mem_cons_of_mem j hi)
    have hout : ∀ i, ¬ (i ∈ j :: is ∧ (cs i).isNil = false) → ¬ (i ∈ is ∧ (cs i).isNil = false) :=
      fun i hi h => hi ⟨List.mem_cons_of_mem j h.1, h.2⟩
    rw [Hasher.hashFullChildren]
    split
    · -- a nil child: an empty value node in the collapsed node, the database untouched
      next hj =>
      obtain ⟨cached', d', heq, hkd, hframe, hgood⟩ :=
        hashFullChildren_some G hG is hrest (Function.update collapsed j (.value [])) cached d hd
      refine ⟨cached', d', ?_, hkd, fun i hi => hframe i (hout i hi), fun i hi hn => ?_⟩
      · rw [heq, ← update_collapsed cs R j is collapsed, if_pos hj]
      · rcases List.mem_cons.mp hi with rfl | hi
        · rw [hj] at hn
          cases hn
        · exact hgood i hi hn
    · -- a child hashed into the database, before the children after it
      next hj =>
      have hj : (cs j).isNil = false := by simpa using hj
      obtain ⟨c, d₁, hc, hkd₁, hg₁⟩ := hchild j List.mem_cons_self hj d hd
      rw [hc]
      obtain ⟨cached', d', heq, hkd, hframe, hgood⟩ :=
        hashFullChildren_some G hG is hrest (Function.update collapsed j (R j))
          (Function.update cached j c) d₁ (hd.trans hkd₁.toExtends)
      refine ⟨cached', d', ?_, hkd₁.trans hkd, fun i hi => ?_, fun i hi hn => ?_⟩
      · simp only
        rw [heq, ← update_collapsed cs R j is collapsed, hj]
        rfl
      · have hij : i ≠ j := fun e => hi ⟨e ▸ List.mem_cons_self, e ▸ hj⟩
        rw [hframe i (hout i hi), Function.update_of_ne hij]
      · by_cases his : i ∈ is
        · exact hgood i his hn
        · obtain rfl : i = j := by simpa [his] using hi
          rw [hframe i fun h => his h.1, Function.update_self]
          exact hG hg₁ hkd.toExtends

end

/-- A canonical node over `db₀` stays canonical over every database that extends one extending
`db₀`, when no two writes there conflict. -/
theorem Canon.extend {keccak : List UInt8 → List UInt8} {db₀ d : MemDatabase} {b : Bool} {n : Node}
    {m : Contents} (hc : Canon keccak db₀ b n m) (hd : Extends db₀ d) :
    ∀ dF, Extends d dF → Functional dF → Canon keccak dF b n m :=
  fun _ hx hF => hc.mono ((hd.trans hx).agrees hF)

/-! ## What committing a node does -/

section
variable (h : Hasher) (db₀ : MemDatabase)

/-- What committing `n`, standing for `m`, with force `b` into `d` did, keeping `n'` and leaving
`d'`: it returned the reference hashing returns, wrote values under their hashes only, and kept a
clean node that caches the hash it returned, takes `n`'s place below the root, and stands for `m`
over every later database without conflicting writes. -/
structure Committed (b : Bool) (n : Node) (m : Contents) (d : MemDatabase) (n' : Node)
    (d' : MemDatabase) : Prop where
  hash_eq : h.hash n (some d) b = ((((hashMode h.keccak).hash n none b).1.1, n'), some d')
  keyed : KeyedExtends h.keccak d d'
  clean : n'.Clean
  cache : n'.cache.1 = ((hashMode h.keccak).hash n none b).1.1.hashOf? ∨
    n' = ((hashMode h.keccak).hash n none b).1.1
  same : b = false → n.isNil = false → RefSame h.keccak n n'
  canon : ∀ dF, Extends d' dF → Functional dF → Canon h.keccak dF b n' m

/-- What committing `n`, standing for bounded contents `m` over `db₀`, does to every database
that extends `db₀`. -/
def CommitOk (b : Bool) (n : Node) (m : Contents) : Prop :=
  Bounded m → ∀ d, Extends db₀ d → ∃ n' d', Committed h b n m d n' d'

end

section
variable {h : Hasher} {db₀ : MemDatabase}

theorem committed_nil (b : Bool) (d : MemDatabase) : Committed h b .nil emptyMap d .nil d :=
  ⟨rfl, .refl d, trivial, .inr rfl, fun _ hn => absurd hn Bool.false_ne_true.symm,
    fun _ _ _ => .nil b⟩

/-- A hash node is kept as it is, and reads back over every later database. -/
theorem committed_hash {b : Bool} {hh : List UInt8} {m : Contents}
    (hc : Canon h.keccak db₀ b (.hash hh) m) {d : MemDatabase} (hd : Extends db₀ d) :
    Committed h b (.hash hh) m d (.hash hh) d :=
  ⟨rfl, .refl d, trivial, .inr rfl, fun _ _ => RefSame.refl rfl rfl, hc.extend hd⟩

/-- A short or full node the cache does not answer for is hashed again in commit mode: with its
children committed into `n₁` over `d₁`, the collapsed node is stored and the hash `store`
returned cached in `n₁`, marked clean. The caller gives what `n₁` is, for any cached hash: a
short or full node with the children's promises, standing for `m` under flags that keep theirs. -/
theorem committed_of_rehash {b : Bool} {n n₁ : Node} {m : Contents} {f : NodeFlag}
    {d d₁ : MemDatabase} (hnf : n.cache = (f.hash, f.dirty)) (hnn : n.isNil = false)
    (hnh : n.hashOf? = none) (hnv : n.isValue = false) (hf : FlagsOk h.keccak db₀ b n f)
    (hfc : h.fromCache n true = none)
    (hch : Hasher.hashChildren (fun i db => h.hash (n.child i) db false) n (some d) =
      ((collapse h.keccak n, n₁), some d₁))
    (hd₁ : KeyedExtends h.keccak d d₁)
    (hshape : ∀ S, (n₁.setCache S true).cache = (S, false) ∧ (n₁.setCache S true).hashOf? = none ∧
      (n₁.setCache S true).isNil = false ∧ (n₁.setCache S true).isValue = false)
    (hcol : ∀ S, (collapse h.keccak (n₁.setCache S true)).toItem = (collapse h.keccak n).toItem)
    (hclean : ∀ S i, ((n₁.setCache S true).child i).Clean)
    (hcanon : ∀ dF, Extends d₁ dF → Functional dF → ∀ S,
      FlagsOk h.keccak dF b (n₁.setCache S true) ⟨S, f.gen, false⟩ →
        Canon h.keccak dF b (n₁.setCache S true) m) :
    ∃ n' d', Committed h b n m d n' d' := by
  have hcoln : (collapse h.keccak n).hashOf? = none := by rw [hashOf_collapse]; exact hnh
  have hfst := hash_fst_eq_store hnf hf
  have hkd := keyedExtends_store hnf hnn hnh hf d₁
  obtain ⟨hc₁, hh₁, hn₁, hv₁⟩ :=
    hshape ((hashMode h.keccak).store (collapse h.keccak n) none b).1.hashOf?
  refine ⟨_, _, ⟨?_, hd₁.trans hkd, clean_of_cache (by rw [hc₁]), .inl (by rw [hc₁, hfst]),
    fun hb hn => ?_, fun dF hx hF => ?_⟩⟩
  · rw [hash_of_rehash h hfc hch hcoln, hfst]
  · subst hb
    exact ⟨hnn, hn₁, hnv, hv₁, toItem_ref_rehash hnf hnh hf hh₁ (by rw [hc₁]) (hcol _),
      fun _ => clean_of_cache (by rw [hc₁])⟩
  · exact hcanon dF (hkd.toExtends.trans hx) hF _
      (flagsOk_of_storedFits (storedFits_store hnf hnn hnh hf hx hF) (hcol _) (hclean _))

variable (hk : ∀ x, (h.keccak x).length = 32) (hkeyed : Keyed h.keccak db₀)
include hk hkeyed

/-- A node the cache answers for in commit mode: unloaded to its hash node, which reads back
since the node is clean and stored, or kept as it is when clean. -/
theorem committed_of_fromCache {b : Bool} {n : Node} {m : Contents}
    (hc : Canon h.keccak db₀ b n m) (hm : Bounded m) {d : MemDatabase} (hd : Extends db₀ d)
    {r : Node × Node} (hfc : h.fromCache n true = some r) : ∃ n' d', Committed h b n m d n' d' := by
  obtain ⟨H, hcache, ⟨hun, rfl⟩ | ⟨hdirty, rfl⟩⟩ := fromCache_commit h hfc
  · -- unloaded to its hash node
    have hhash := hc.hash_of_stored hk hkeyed hm (clean_of_cache (cache_clean_of_canUnload hun))
      hcache
    refine ⟨.hash H, d, ⟨?_, .refl d, trivial, .inr ?_, fun _ hn => ?_, hhash.extend hd⟩⟩
    · rw [hash_of_fromCache h hfc, hash_of_cache h.keccak hcache]
    · rw [hash_of_cache h.keccak hcache]
    · exact ⟨hn, rfl, hc.isValue_eq_false, rfl, by rw [ref_hash, ref_of_cache h.keccak hcache],
        fun _ => trivial⟩
  · -- clean: kept as it is
    refine ⟨n, d, ⟨?_, .refl d, clean_of_cache hdirty, .inl ?_,
      fun _ hn => RefSame.refl hn hc.isValue_eq_false, hc.extend hd⟩⟩
    · rw [hash_of_fromCache h hfc, hash_of_cache h.keccak hcache]
    · rw [hash_of_cache h.keccak hcache, hcache]
      rfl

omit hk hkeyed in
theorem committed_leaf {b : Bool} {ns : List UInt8} (hns : Nibbles ns) {w : List UInt8}
    (hw : w ≠ []) {f : NodeFlag} (hf : FlagsOk h.keccak db₀ b (.short (ns ++ [16]) (.value w) f) f)
    {d : MemDatabase} (hfc : h.fromCache (.short (ns ++ [16]) (.value w) f) true = none) :
    ∃ n' d', Committed h b (.short (ns ++ [16]) (.value w) f) (leafMap (ns ++ [16]) w) d n' d' :=
  committed_of_rehash rfl rfl rfl rfl hf hfc rfl (.refl d) (fun _ => ⟨rfl, rfl, rfl, rfl⟩)
    (fun _ => toItem_collapse_short_flags h.keccak _ _ f _) (fun _ _ => trivial)
    (fun _ _ _ _ hfl => .leaf b ns hns w hw _ hfl)

omit hk hkeyed in
/-- An extension hashed again: its child is committed first, by the induction hypothesis. -/
theorem committed_ext {b : Bool} {ns : List UInt8} (hns : Nibbles ns) (hne : ns ≠ [])
    {c : Node} {mc : Contents} (hc : Canon h.keccak db₀ false c mc) (hbr : Branching mc)
    (ih : CommitOk h db₀ false c mc) {f : NodeFlag} (hf : FlagsOk h.keccak db₀ b (.short ns c f) f)
    (hm : Bounded (extMap ns mc)) {d : MemDatabase} (hd : Extends db₀ d)
    (hfc : h.fromCache (.short ns c f) true = none) :
    ∃ n' d', Committed h b (.short ns c f) (extMap ns mc) d n' d' := by
  have hcn : c.isNil = false := by
    obtain ⟨k, -, v, -, hk', -⟩ := hbr
    exact hc.isNil_eq_false hk'
  have hcv := hc.isValue_eq_false
  obtain ⟨c', d₁, hcom⟩ := ih (drop_extMap ns mc ▸ hm.drop ns) d hd
  have hr : RefSame h.keccak c c' := hcom.same rfl hcn
  have hch : Hasher.hashChildren (fun i db => h.hash ((Node.short ns c f).child i) db false)
      (.short ns c f) (some d) = ((collapse h.keccak (.short ns c f), .short ns c' f), some d₁) := by
    rw [collapse_short, hcv]
    simp only [Hasher.hashChildren, Node.child, hcv, hcom.hash_eq]
    rfl
  exact committed_of_rehash rfl rfl rfl rfl hf hfc hch hcom.keyed (fun _ => ⟨rfl, rfl, rfl, rfl⟩)
    (fun _ => toItem_collapse_short ns hr f _) (fun _ _ => hcom.clean)
    (fun dF hx hF _ hfl => .ext b ns hns hne c' mc (hcom.canon dF hx hF) hbr _ hfl)

omit hk hkeyed in
/-- A child of a canonical full node that is nil, or its value slot, is clean. -/
theorem clean_of_not_nibble {cs : Fin 17 → Node} {v16 : Option (List UInt8)}
    (h16 : cs 16 = v16.elim .nil .value) {j : Fin 17}
    (hj : ¬ (j ∈ Hasher.nibbleIndices ∧ (cs j).isNil = false)) : (cs j).Clean := by
  cases hcj : cs j with
  | nil | hash | value => trivial
  | short | full =>
    -- such a child is below a nibble, so `hj` says it is nil
    refine absurd ⟨(mem_nibbleIndices j).mpr ?_, by rw [hcj]; rfl⟩ hj
    by_contra hlt
    obtain rfl : j = 16 := Fin.ext (by omega)
    rw [h16] at hcj
    cases v16 <;> cases hcj

omit hk hkeyed in
/-- A full node hashed again: its children below the nibbles are committed in order, each into
the database the one before left, by the induction hypotheses. -/
theorem committed_full {b : Bool} {cs : Fin 17 → Node} {ms : Fin 16 → Contents}
    (hcs : ∀ i : Fin 16, Canon h.keccak db₀ false (cs i.castSucc) (ms i))
    (ih : ∀ i : Fin 16, CommitOk h db₀ false (cs i.castSucc) (ms i))
    {v16 : Option (List UInt8)} (h16 : cs 16 = v16.elim .nil .value) (hv16 : v16 ≠ some [])
    (hcount : 2 ≤ Node.nonNilCount cs) {f : NodeFlag} (hf : FlagsOk h.keccak db₀ b (.full cs f) f)
    (hm : Bounded (fullMap ms v16)) {d : MemDatabase} (hd : Extends db₀ d)
    (hfc : h.fromCache (.full cs f) true = none) :
    ∃ n' d', Committed h b (.full cs f) (fullMap ms v16) d n' d' := by
  -- what committing the child at a nibble promises, which later writes keep
  let G : Fin 17 → Node → MemDatabase → Prop := fun i c d' => ∀ j : Fin 16, j.castSucc = i →
    c.Clean ∧ RefSame h.keccak (cs i) c ∧
      ∀ dF, Extends d' dF → Functional dF → Canon h.keccak dF false c (ms j)
  have hG : ∀ {i c d d'}, G i c d → Extends d d' → G i c d' := fun hg hx j hj =>
    ⟨(hg j hj).1, (hg j hj).2.1, fun dF hx' hF => (hg j hj).2.2 dF (hx.trans hx') hF⟩
  have hchild : ∀ i ∈ Hasher.nibbleIndices, (cs i).isNil = false → ∀ d, Extends db₀ d →
      ∃ c d', h.hash (cs i) (some d) false = ((ref h.keccak (cs i), c), some d') ∧
        KeyedExtends h.keccak d d' ∧ G i c d' := by
    intro i hi hn d hd
    obtain ⟨j, -, rfl⟩ := List.mem_map.mp hi
    obtain ⟨c, d', hcom⟩ := ih j (drop_fullMap_child ms v16 j ▸ hm.drop _) d hd
    refine ⟨c, d', hcom.hash_eq, hcom.keyed, fun j' hj' => ?_⟩
    obtain rfl : j' = j := Fin.castSucc_injective _ hj'
    exact ⟨hcom.clean, hcom.same rfl hn, hcom.canon⟩
  obtain ⟨cached', d₁, hloop, hd₁, hframe, hgood⟩ :=
    hashFullChildren_some (fun i db => h.hash (cs i) db false) cs (fun i => ref h.keccak (cs i)) G
      hG Hasher.nibbleIndices hchild cs cs d hd
  have hch : Hasher.hashChildren (fun i db => h.hash ((Node.full cs f).child i) db false)
      (.full cs f) (some d) = ((collapse h.keccak (.full cs f), .full cached' f), some d₁) := by
    rw [collapse_full]
    exact hashChildren_full_of_loop f hloop
  -- each child takes the old one's place: committed below a nibble, kept otherwise
  have hsame : ∀ j, SlotSame h.keccak j (cs j) (cached' j) := by
    intro j
    by_cases hj : j ∈ Hasher.nibbleIndices ∧ (cs j).isNil = false
    · obtain ⟨j', -, rfl⟩ := List.mem_map.mp hj.1
      exact .inr ⟨j'.isLt, (hgood _ hj.1 hj.2 j' rfl).2.1⟩
    · exact .inl (hframe j hj)
  have hclean : ∀ j, (cached' j).Clean := by
    intro j
    by_cases hj : j ∈ Hasher.nibbleIndices ∧ (cs j).isNil = false
    · obtain ⟨j', -, rfl⟩ := List.mem_map.mp hj.1
      exact (hgood _ hj.1 hj.2 j' rfl).1
    · rw [hframe j hj]
      exact clean_of_not_nibble h16 hj
  have hcanon : ∀ dF, Extends d₁ dF → Functional dF → ∀ i : Fin 16,
      Canon h.keccak dF false (cached' i.castSucc) (ms i) := by
    intro dF hx hF i
    have hi : i.castSucc ∈ Hasher.nibbleIndices := (mem_nibbleIndices _).mpr i.isLt
    cases hn : (cs i.castSucc).isNil with
    | false => exact (hgood _ hi hn i rfl).2.2 dF hx hF
    | true =>
      rw [hframe _ fun h => absurd h.2 (by rw [hn]; exact Bool.false_ne_true.symm)]
      exact (hcs i).extend hd dF (hd₁.toExtends.trans hx) hF
  have h16' : cached' 16 = v16.elim .nil .value := by
    rw [hframe 16 fun h => absurd ((mem_nibbleIndices 16).mp h.1) (by decide)]
    exact h16
  exact committed_of_rehash rfl rfl rfl rfl hf hfc hch hd₁ (fun _ => ⟨rfl, rfl, rfl, rfl⟩)
    (fun _ => toItem_collapse_full_congr hsame f _) (fun _ => hclean)
    (fun dF hx hF _ hfl => .full b cached' ms (hcanon dF hx hF) v16 h16' hv16
      ((nonNilCount_congr fun j => (hsame j).isNil).symm ▸ hcount) _ hfl)

/-- Committing a canonical node with bounded contents, over a database keyed by Keccak-256: by
induction on the node, one case per kind, and for short and full nodes one per answer of the
cache. -/
theorem Canon.commit {b : Bool} {n : Node} {m : Contents} (hc : Canon h.keccak db₀ b n m) :
    CommitOk h db₀ b n m := by
  induction hc with
  | nil b => exact fun _ d _ => ⟨.nil, d, committed_nil b d⟩
  | leaf b ns hns w hw f hf =>
    intro hm d hd
    cases hfc : h.fromCache (.short (ns ++ [16]) (.value w) f) true with
    | some r => exact committed_of_fromCache hk hkeyed (.leaf b ns hns w hw f hf) hm hd hfc
    | none => exact committed_leaf hns hw hf hfc
  | ext b ns hns hne c mc hc hbr f hf ih =>
    intro hm d hd
    cases hfc : h.fromCache (.short ns c f) true with
    | some r => exact committed_of_fromCache hk hkeyed (.ext b ns hns hne c mc hc hbr f hf) hm hd hfc
    | none => exact committed_ext hns hne hc hbr ih hf hm hd hfc
  | full b cs ms hcs v16 h16 hv16 hcount f hf ih =>
    intro hm d hd
    cases hfc : h.fromCache (.full cs f) true with
    | some r =>
      exact committed_of_fromCache hk hkeyed (.full b cs ms hcs v16 h16 hv16 hcount f hf) hm hd hfc
    | none => exact committed_full hcs ih h16 hv16 hcount hf hm hd hfc
  | hash b hh blob hget hsize m dec hdec hcd =>
    exact fun _ d hd => ⟨.hash hh, d, committed_hash (.hash b hh blob hget hsize m dec hdec hcd) hd⟩

end

/-! ## The root -/

section
variable {keccak : List UInt8 → List UInt8} {db : MemDatabase}

/-- A root hash of 32 bytes is its own `common.BytesToHash`. -/
theorem bytesToHash_of_length {H : List UInt8} (hl : H.length = 32) : bytesToHash H = H := by
  simp [bytesToHash, hl]

/-- A short or full node hashed with force is a hash node of 32 bytes: its cached hash, or the hash
of its collapsed encoding. -/
theorem hash_force_of_flags (hk : ∀ x, (keccak x).length = 32) {n : Node} {f : NodeFlag}
    (hnf : n.cache = (f.hash, f.dirty)) (hnn : n.isNil = false) (hnh : n.hashOf? = none)
    (hf : FlagsOk keccak db true n f) :
    ∃ H, ((hashMode keccak).hash n none true).1.1 = .hash H ∧ H.length = 32 := by
  rw [hash_fst_eq_store hnf hf]
  cases hfh : f.hash with
  | some H =>
    rw [store_of_cache (by rw [cache_collapse, hnf, hfh]) (absurd · Bool.false_ne_true.symm)]
    exact ⟨H, rfl, hf.hash_length hk H hfh⟩
  | none =>
    rw [store_force keccak (by rw [cache_collapse, hnf, hfh]) (by rw [isNil_collapse]; exact hnn)
      (by rw [hashOf_collapse]; exact hnh)]
    exact ⟨_, rfl, hk _⟩

/-- A canonical root other than nil, hashed with force, is a hash node of 32 bytes: for a short or
full node by `hash_force_of_flags`, and a hash node is its own hash, read from the database. -/
theorem Canon.hash_root (hk : ∀ x, (keccak x).length = 32) (hkeyed : Keyed keccak db) {n : Node}
    {m : Contents} (hc : Canon keccak db true n m) (hn : n ≠ .nil) :
    ∃ H, ((hashMode keccak).hash n none true).1.1 = .hash H ∧ H.length = 32 := by
  cases hc with
  | nil => exact absurd rfl hn
  | leaf _ _ _ _ _ f hf => exact hash_force_of_flags hk rfl rfl rfl hf
  | ext _ _ _ _ _ _ _ _ f hf => exact hash_force_of_flags hk rfl rfl rfl hf
  | full _ _ _ _ _ _ _ _ f hf => exact hash_force_of_flags hk rfl rfl rfl hf
  | hash _ hh _ hget => exact ⟨hh, rfl, hkeyed.length_of_get hk hget⟩

variable (keccak) in
/-- A root hash opens a trie standing for `m` from `db`: the empty root of the empty trie, or a
hash whose hash node reads back. -/
def Reopens (db : MemDatabase) (H : List UInt8) (m : Contents) : Prop :=
  (H = emptyRoot ∧ m = emptyMap) ∨ Canon keccak db true (.hash H) m

/-- `New` with a root hash that reopens, and is not the zero hash or the empty root unless the
trie is empty, gives a trie over the same database standing for the same contents. -/
theorem new_of_reopens {H : List UInt8} {m : Contents} (hr : Reopens keccak db H m)
    (hkeys : ∀ p ∈ db.puts, p.1 ≠ zeroHash ∧ p.1 ≠ emptyRoot) :
    ∃ t, New H (some db) = .ok t ∧ t.db = some db ∧ t.Stands keccak m := by
  rcases hr with ⟨rfl, rfl⟩ | hc
  · -- the empty root opens the empty trie
    exact ⟨⟨.nil, some db, emptyRoot, 0, 0⟩, by simp [New], rfl, .nil true⟩
  · cases hc with
    | hash _ _ blob hget _ _ dec hdec hcd =>
      obtain ⟨hz, he⟩ := hkeys _ (MemDatabase.mem_of_get hget)
      have hres := Trie.resolveHash_eq (⟨.nil, some db, H, 0, 0⟩ : Trie) rfl hget hdec []
      refine ⟨⟨dec 0, some db, H, 0, 0⟩, ?_, rfl, hcd 0⟩
      simp only [New, ne_eq, hz, he, not_false_eq_true, and_self, if_true, hres]

end

namespace Trie

variable {keccak : List UInt8 → List UInt8}

/-- A trie over a database stands for its contents through a root canonical over that database. -/
theorem Stands.canon {t : Trie} {m : Contents} (hc : t.Stands keccak m) {d : MemDatabase}
    (hdb : t.db = some d) : Canon keccak d true t.root m := by
  rw [Stands, hdb] at hc
  exact hc

theorem hashRoot_of_ne_nil {t : Trie} (hn : t.root ≠ .nil) (db : Option MemDatabase) :
    t.hashRoot keccak db = (Hasher.mk keccak t.cachegen t.cachelimit).hash t.root db true := by
  unfold hashRoot
  split
  · next h => exact absurd h hn
  · rfl

/-- `hashRoot` in commit mode on a root standing for bounded contents, over a database keyed by
Keccak-256: the root hashing returns, keyed writes only, and, when no two writes collide, a root
standing for the contents over the database written, whose hash reopens them. -/
theorem hashRoot_commit (hk : ∀ x, (keccak x).length = 32) {db₀ : MemDatabase}
    (hkeyed : Keyed keccak db₀) {t : Trie} {m : Contents} (hc : Canon keccak db₀ true t.root m)
    (hm : Bounded m) :
    ∃ n' d', t.hashRoot keccak (some db₀) = (((t.hashRoot keccak none).1.1, n'), some d') ∧
      KeyedExtends keccak db₀ d' ∧ (Functional d' → Canon keccak d' true n' m ∧
        Reopens keccak d' (bytesToHash ((t.hashRoot keccak none).1.1.hashOf?.getD [])) m) := by
  by_cases hn : t.root = .nil
  · -- the empty trie: the empty root, and nothing written
    have hnil : ∀ db, t.hashRoot keccak db = ((.hash emptyRoot, .nil), db) := by
      intro db
      rw [hashRoot, hn]
    rw [hn] at hc
    obtain rfl := hc.nil_contents
    refine ⟨.nil, db₀, by rw [hnil, hnil], .refl db₀, fun _ => ⟨.nil true, .inl ⟨?_, rfl⟩⟩⟩
    rw [hnil]
    rfl
  · let h : Hasher := ⟨keccak, t.cachegen, t.cachelimit⟩
    have hk' : ∀ x, (h.keccak x).length = 32 := hk
    obtain ⟨n', d', hcom⟩ := hc.commit hk' hkeyed hm db₀ (.refl db₀)
    obtain ⟨H, hH, hl⟩ := hc.hash_root hk hkeyed hn
    have hnone : (t.hashRoot keccak none).1.1 = .hash H := by
      rw [hashRoot_of_ne_nil hn, hash_none_keccak]
      exact hH
    refine ⟨n', d', ?_, hcom.keyed, fun hF => ⟨hcom.canon d' (.refl d') hF, .inr ?_⟩⟩
    · rw [hashRoot_of_ne_nil hn, hashRoot_of_ne_nil hn, hash_none_keccak]
      exact hcom.hash_eq
    · -- the root was stored, or unloaded to its hash node
      rw [hnone]
      show Canon keccak d' true (.hash (bytesToHash H)) m
      rw [bytesToHash_of_length hl]
      have hcn := hcom.canon d' (.refl d') hF
      rcases hcom.cache with hcache | hsame
      · rw [hH] at hcache
        exact hcn.hash_of_stored hk' ((hcom.keyed.keyed hkeyed)) hm hcom.clean hcache
      · rw [hsame, hH] at hcn
        exact hcn

/-- `Commit` over the trie's database, from what `hashRoot` does in commit mode. -/
theorem commit_of_hashRoot {t : Trie} {db₀ : MemDatabase} (hdb : t.db = some db₀) {n' : Node}
    {d' : MemDatabase}
    (hroot : t.hashRoot keccak (some db₀) = (((t.hashRoot keccak none).1.1, n'), some d')) :
    t.Commit keccak =
      .ok ((t.Hash keccak).1, { t with root := n', cachegen := t.cachegen + 1, db := some d' }) := by
  simp only [Commit, hdb, CommitTo, hroot]
  rfl

/-- `Commit` over a trie's database succeeds and only adds writes to it. -/
theorem commit_extends {t : Trie} {d : MemDatabase} (hdb : t.db = some d) :
    ∃ root t' d', t.Commit keccak = .ok (root, t') ∧ t'.db = some d' ∧ Extends d d' := by
  have hroot : ∃ d', (t.hashRoot keccak (some d)).2 = some d' ∧ Extends d d' := by
    unfold hashRoot
    split
    · exact ⟨d, rfl, .refl d⟩
    · exact hash_extends _ _ d true
  obtain ⟨d', hd', hx⟩ := hroot
  refine ⟨_, _, d', by simp only [Commit, hdb]; rfl, ?_, hx⟩
  show some (((t.hashRoot keccak (some d)).2).getD d) = some d'
  rw [hd']
  rfl

end Trie

section
variable {keccak : List UInt8 → List UInt8}

/-- `Commit` on a trie standing for bounded contents, over a database keyed by Keccak-256 of 32
bytes, returns the root hash `Hash` returns, writes values under their hashes only, and leaves a
trie in the next cache generation that stands for the same contents over the database it wrote,
when no two values written there have one hash. -/
theorem commit_stands (hk : ∀ x, (keccak x).length = 32) {t : Trie} {db₀ : MemDatabase}
    (hdb : t.db = some db₀) (hkeyed : Keyed keccak db₀) {m : Contents} (hc : t.Stands keccak m)
    (hm : Bounded m) :
    ∃ t' d', t.Commit keccak = .ok ((t.Hash keccak).1, t') ∧ t'.db = some d' ∧
      t'.cachegen = t.cachegen + 1 ∧ KeyedExtends keccak db₀ d' ∧
      (CollisionFree keccak d' → t'.Stands keccak m) := by
  obtain ⟨n', d', hroot, hkd, hcanon⟩ := Trie.hashRoot_commit hk hkeyed (hc.canon hdb) hm
  exact ⟨_, d', Trie.commit_of_hashRoot hdb hroot, rfl, rfl, hkd,
    fun hcf => (hcanon ((hkd.keyed hkeyed).functional hcf)).1⟩

/-- A trie of one dirty leaf over an empty database, committed with a hash function of 32
bytes. -/
theorem commit_stands_leaf :
    ∃ t' d', (⟨.short [1, 16] (.value [5]) ⟨none, 0, true⟩, some .empty, zeroHash, 0, 0⟩ : Trie).Commit
        (fun _ => List.replicate 32 7) =
        .ok (((⟨.short [1, 16] (.value [5]) ⟨none, 0, true⟩, some .empty, zeroHash, 0, 0⟩ : Trie).Hash
          (fun _ => List.replicate 32 7)).1, t') ∧ t'.db = some d' ∧ t'.cachegen = 1 ∧
      KeyedExtends (fun _ => List.replicate 32 7) .empty d' ∧
      (CollisionFree (fun _ => List.replicate 32 7) d' →
        t'.Stands (fun _ => List.replicate 32 7) (leafMap [1, 16] [5])) :=
  commit_stands (fun _ => List.length_replicate) rfl (fun _ h => absurd h List.not_mem_nil)
    (.leaf true [1] (by simp) [5] (by simp) _ (flagsOk_of_dirty rfl rfl))
    (bounded_leafMap (by decide) (by decide))

/-- Committing a trie standing for bounded contents over a database keyed by Keccak-256 of 32
bytes, and opening the root hash it returns with `New` over the database written, gives a trie
over that database standing for the same contents, when no two values written there have one
hash and none is written under the zero hash or the empty root. -/
theorem new_commit_stands (hk : ∀ x, (keccak x).length = 32) {t : Trie} {db₀ : MemDatabase}
    (hdb : t.db = some db₀) (hkeyed : Keyed keccak db₀) {m : Contents} (hc : t.Stands keccak m)
    (hm : Bounded m) :
    ∃ root t' d', t.Commit keccak = .ok (root, t') ∧ t'.db = some d' ∧
      (CollisionFree keccak d' → (∀ p ∈ d'.puts, p.1 ≠ zeroHash ∧ p.1 ≠ emptyRoot) →
        ∃ t'', New root (some d') = .ok t'' ∧ t''.db = some d' ∧ t''.Stands keccak m) := by
  obtain ⟨n', d', hroot, hkd, hcanon⟩ := Trie.hashRoot_commit hk hkeyed (hc.canon hdb) hm
  exact ⟨_, _, d', Trie.commit_of_hashRoot hdb hroot, rfl,
    fun hcf hkeys => new_of_reopens (hcanon ((hkd.keyed hkeyed).functional hcf)).2 hkeys⟩

/-- The trie of one dirty leaf, committed and opened again. -/
theorem new_commit_stands_leaf :
    ∃ root t' d', (⟨.short [1, 16] (.value [5]) ⟨none, 0, true⟩, some .empty, zeroHash, 0, 0⟩ :
        Trie).Commit (fun _ => List.replicate 32 7) = .ok (root, t') ∧ t'.db = some d' ∧
      (CollisionFree (fun _ => List.replicate 32 7) d' →
        (∀ p ∈ d'.puts, p.1 ≠ zeroHash ∧ p.1 ≠ emptyRoot) →
        ∃ t'', New root (some d') = .ok t'' ∧ t''.db = some d' ∧
          t''.Stands (fun _ => List.replicate 32 7) (leafMap [1, 16] [5])) :=
  new_commit_stands (fun _ => List.length_replicate) rfl (fun _ h => absurd h List.not_mem_nil)
    (.leaf true [1] (by simp) [5] (by simp) _ (flagsOk_of_dirty rfl rfl))
    (bounded_leafMap (by decide) (by decide))

end

end GoGaia.Patricia
