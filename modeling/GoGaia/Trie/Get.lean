import GoGaia.Trie.Runs

/-!
# Reads keep a trie canonical

`TryGet` (`trie/trie.go:145`) on a trie whose root is canonical for contents `m` succeeds and
returns what `m` holds at the HEX form of the key (`tryGet_canon`). The walk resolves the hash
nodes on its way and puts the resolved nodes in place, with the nodes above them copied into the
current generation; the root stays canonical for `m`.

A node that takes another's place below a parent must leave what the parent encodes and promises
as it was (`RefSame`): the same reference, and clean if the old node was. A resolved node is
referenced by the hash it was decoded under, which is the hash node's; a copy above it has the
cached hash of the original and, its child's reference being the same, the same collapsed
encoding (`toItem_collapse_short`, `toItem_collapse_full_congr`). The flags' promises carry over to
a node whose collapsed form encodes the same (`FlagsOk.congr`).

The proof follows `Canon`, one lemma for each of its constructors (`getOk_leaf`, `getOk_ext`,
`getOk_full`, `getOk_hash`), as for `insert`.
-/

namespace GoGaia.Patricia

/-! ## Nodes that take another's place -/

/-- `n'` can take the place of the short, full or hash node `n` below a parent: it is none of nil
and value nodes either, it has the same reference, and it is clean if `n` is. -/
structure RefSame (keccak : List UInt8 → List UInt8) (n n' : Node) : Prop where
  isNil_left : n.isNil = false
  isNil_right : n'.isNil = false
  isValue_left : n.isValue = false
  isValue_right : n'.isValue = false
  ref_eq : (ref keccak n').toItem = (ref keccak n).toItem
  clean : n.Clean → n'.Clean

section
variable {keccak : List UInt8 → List UInt8} {db : MemDatabase}

theorem RefSame.trans {a b c : Node} (h₁ : RefSame keccak a b) (h₂ : RefSame keccak b c) :
    RefSame keccak a c :=
  ⟨h₁.isNil_left, h₂.isNil_right, h₁.isValue_left, h₂.isValue_right, h₂.ref_eq.trans h₁.ref_eq,
    fun h => h₂.clean (h₁.clean h)⟩

/-- What `store` makes of a collapsed node depends on its encoding only. -/
theorem toItem_storedRef_congr {c c' : Node} (h : c'.toItem = c.toItem) :
    (storedRef keccak c').toItem = (storedRef keccak c).toItem := by
  unfold storedRef
  rw [encodeNode_eq, encodeNode_eq, h]
  split
  · exact h
  · rfl

/-- The reference of a node other than a hash node depends on its cached hash and on the encoding
of its collapsed form only. -/
theorem toItem_ref_congr {n n' : Node} (hn : n.hashOf? = none) (hn' : n'.hashOf? = none)
    (hcache : n'.cache.1 = n.cache.1)
    (hcol : (collapse keccak n').toItem = (collapse keccak n).toItem) :
    (ref keccak n').toItem = (ref keccak n).toItem := by
  cases hc : n.cache.1 with
  | some hh => rw [ref_of_cache keccak hc, ref_of_cache keccak (hcache.trans hc)]
  | none =>
    rw [ref_of_no_cache keccak hc hn, ref_of_no_cache keccak (hcache.trans hc) hn']
    exact toItem_storedRef_congr hcol

/-- A short node's child replaced by one that takes its place: the collapsed form encodes the
same. -/
theorem toItem_collapse_short (k : List UInt8) {c c' : Node} (h : RefSame keccak c c')
    (f f' : NodeFlag) :
    (collapse keccak (.short k c' f')).toItem = (collapse keccak (.short k c f)).toItem := by
  rw [collapse_short, collapse_short, h.isValue_left, h.isValue_right]
  simp only [Bool.false_eq_true, if_false, emptyIfNil, isNil_ref, h.isNil_left, h.isNil_right,
    Node.toItem, h.ref_eq]

/-- Child `i` of a full node replaced: by itself, or below a nibble by a node that takes its
place. -/
def SlotSame (keccak : List UInt8 → List UInt8) (i : Fin 17) (c c' : Node) : Prop :=
  c' = c ∨ (i.val < 16 ∧ RefSame keccak c c')

theorem SlotSame.isNil {i : Fin 17} {c c' : Node} (h : SlotSame keccak i c c') :
    c'.isNil = c.isNil := by
  rcases h with rfl | ⟨-, h⟩
  · rfl
  · rw [h.isNil_left, h.isNil_right]

theorem SlotSame.clean {i : Fin 17} {c c' : Node} (h : SlotSame keccak i c c') :
    c.Clean → c'.Clean := by
  rcases h with rfl | ⟨-, h⟩
  · exact id
  · exact h.clean

/-- One child below a nibble replaced by a node that takes its place. -/
theorem slotSame_update {cs : Fin 17 → Node} {i : Fin 17} (hi : i.val < 16) {c' : Node}
    (h : RefSame keccak (cs i) c') (j : Fin 17) :
    SlotSame keccak j (cs j) (Function.update cs i c' j) := by
  by_cases hj : j = i
  · subst hj
    rw [Function.update_self]
    exact .inr ⟨hi, h⟩
  · rw [Function.update_of_ne hj]
    exact .inl rfl

/-- A full node's children replaced, each by itself or by a node that takes its place: the
collapsed form encodes the same. -/
theorem toItem_collapse_full_congr {cs cs' : Fin 17 → Node}
    (h : ∀ j, SlotSame keccak j (cs j) (cs' j)) (f f' : NodeFlag) :
    (collapse keccak (.full cs' f')).toItem = (collapse keccak (.full cs f)).toItem := by
  rw [collapse_full, collapse_full]
  simp only [Node.toItem]
  refine congrArg Rlp.Item.list (List.map_congr_left fun j _ => ?_)
  rcases h j with e | ⟨hj, hr⟩
  · rw [e]
  · simp only [hj, if_true, hr.isNil_left, hr.isNil_right, Bool.false_eq_true, if_false,
      hr.ref_eq]

/-- The count of non-nil children is kept when the children keep being nil or not. -/
theorem nonNilCount_congr {cs cs' : Fin 17 → Node} (h : ∀ j, (cs' j).isNil = (cs j).isNil) :
    Node.nonNilCount cs' = Node.nonNilCount cs := by
  unfold Node.nonNilCount
  congr 1
  exact List.filter_congr fun j _ => by rw [h j]

/-- A copy of a short node in another generation, with a child that takes the old one's place,
takes the node's place. -/
theorem refSame_short (k : List UInt8) {c c' : Node} (h : RefSame keccak c c') (f : NodeFlag)
    (g : UInt16) : RefSame keccak (.short k c f) (.short k c' { f with gen := g }) :=
  ⟨rfl, rfl, rfl, rfl, toItem_ref_congr rfl rfl rfl (toItem_collapse_short k h f _), id⟩

/-- A copy of a full node in another generation, with children that take the old ones' places,
takes the node's place. -/
theorem refSame_full {cs cs' : Fin 17 → Node} (h : ∀ j, SlotSame keccak j (cs j) (cs' j))
    (f : NodeFlag) (g : UInt16) :
    RefSame keccak (.full cs f) (.full cs' { f with gen := g }) :=
  ⟨rfl, rfl, rfl, rfl, toItem_ref_congr rfl rfl rfl (toItem_collapse_full_congr h f _), id⟩

/-- The flags' promises hold of a node whose collapsed form encodes the same, with the same cached
hash and dirty flag, and clean children where they must be. -/
theorem FlagsOk.congr {b : Bool} {n n' : Node} {f f' : NodeFlag} (hf : FlagsOk keccak db b n f)
    (hcol : (collapse keccak n').toItem = (collapse keccak n).toItem) (hh : f'.hash = f.hash)
    (hd : f'.dirty = f.dirty) (hclean : f.dirty = false → ∀ i, (n'.child i).Clean) :
    FlagsOk keccak db b n' f' := by
  have henc : encodeNode (collapse keccak n') = encodeNode (collapse keccak n) := by
    rw [encodeNode_eq, encodeNode_eq, hcol]
  refine ⟨fun hh' h => ?_, fun hh' h hb => ?_, fun hd' hh' h => ?_, fun hd' h => ?_,
    fun hd' => hclean (hd ▸ hd')⟩
  · rw [henc]
    exact hf.hash_eq hh' (hh ▸ h)
  · rw [henc]
    exact hf.hash_size hh' (hh ▸ h) hb
  · rw [henc]
    exact hf.stored (hd ▸ hd') hh' (hh ▸ h)
  · rw [henc]
    exact hf.embedded (hd ▸ hd') (hh ▸ h)

/-- A node `decodeNode` returns is clean, with the hash it was decoded under cached. -/
theorem decodeNode_cache {fuel : Nat} {h : Option (List UInt8)} {buf : List UInt8}
    {gen : UInt16} {n : Node} (hd : decodeNode fuel h buf gen = .ok n) : n.cache = (h, false) := by
  rcases decodeNode_flags hd with ⟨k, v, rfl⟩ | ⟨cs, rfl⟩ <;> rfl

/-- A node decoded under a hash takes the hash node's place. -/
theorem refSame_resolved {hh : List UInt8} {n : Node} (hc : n.cache = (some hh, false)) :
    RefSame keccak (.hash hh) n := by
  have hshape : (∃ k v f, n = .short k v f) ∨ ∃ cs f, n = .full cs f := by
    cases n with
    | short k v f => exact .inl ⟨k, v, f, rfl⟩
    | full cs f => exact .inr ⟨cs, f, rfl⟩
    | _ => cases hc
  have hclean : n.Clean := by
    rcases hshape with ⟨k, v, f, rfl⟩ | ⟨cs, f, rfl⟩ <;> exact congrArg Prod.snd hc
  refine ⟨rfl, ?_, rfl, ?_, by rw [ref_of_cache keccak (congrArg Prod.fst hc), ref_hash],
    fun _ => hclean⟩ <;> rcases hshape with ⟨k, v, f, rfl⟩ | ⟨cs, f, rfl⟩ <;> rfl

end

/-! ## The walk -/

namespace Trie

variable {keccak : List UInt8 → List UInt8} {db : MemDatabase} (t : Trie)

variable (keccak db) in
/-- What `tryGet` does on `n` standing for `m`, at a position of a key where the rest of the key
is a key: with enough fuel it returns what `m` holds at the rest, and a canonical node for `m`
that is `n` when nothing was resolved and can take `n`'s place otherwise. -/
def GetOk (b : Bool) (n : Node) (m : Contents) : Prop :=
  ∀ {fuel : Nat} {key : List UInt8} {pos : Nat}, IsKey (key.drop pos) →
    n.walkCost (key.drop pos) ≤ fuel →
    ∃ n' did, t.tryGet fuel n key pos = .ok (m (key.drop pos), n', did) ∧
      Canon keccak db b n' m ∧ (did = false → n' = n) ∧ (did = true → RefSame keccak n n')

theorem getOk_nil (b : Bool) : GetOk keccak db t b .nil emptyMap := by
  intro fuel key pos hk hfuel
  obtain ⟨fuel, rfl⟩ : ∃ f, fuel = f + 1 :=
    ⟨fuel - 1, by simp [Node.walkCost, Node.hashOf?] at hfuel; omega⟩
  exact ⟨.nil, false, rfl, .nil b, fun _ => rfl, (absurd · Bool.false_ne_true)⟩

/-- The walk at a short node: the key goes on below it when the node's key starts the rest. -/
theorem tryGet_short_match (fuel : Nat) {nkey val : List UInt8} {c : Node} {f : NodeFlag}
    {key : List UInt8} {pos : Nat} (hp : key.drop pos = nkey ++ val) :
    t.tryGet (fuel + 1) (.short nkey c f) key pos =
      match t.tryGet fuel c key (pos + nkey.length) with
      | .error err => .error err
      | .ok (value, newnode, didResolve) =>
        if didResolve then .ok (value, .short nkey newnode { f with gen := t.cachegen }, true)
        else .ok (value, .short nkey c f, false) := by
  have hlen : ¬ key.length - pos < nkey.length := by
    have := congrArg List.length hp
    simp only [List.length_drop, List.length_append] at this
    omega
  have htake : ¬ nkey ≠ (key.drop pos).take nkey.length := by simp [hp]
  simp only [tryGet, hlen, htake, or_self, if_false]
  all_goals rfl

/-- The walk at a short node whose key does not start the rest: nothing is found. -/
theorem tryGet_short_mismatch (fuel : Nat) {nkey : List UInt8} {c : Node} {f : NodeFlag}
    {key : List UInt8} {pos : Nat} (hp : ¬ nkey <+: key.drop pos) :
    t.tryGet (fuel + 1) (.short nkey c f) key pos = .ok (none, .short nkey c f, false) := by
  have hcond : key.length - pos < nkey.length ∨ nkey ≠ (key.drop pos).take nkey.length := by
    by_contra h
    simp only [not_or, not_lt, ne_eq, not_not] at h
    exact hp (List.prefix_iff_eq_take.mpr h.2)
  simp only [tryGet, hcond, if_true]

/-- The walk at a full node: the key goes on below the child at its byte. -/
theorem tryGet_full_of_index (fuel : Nat) {cs : Fin 17 → Node} {f : NodeFlag} {key : List UInt8}
    {pos : Nat} {i : Fin 17} (hi : key[pos]?.bind childIndex = some i) :
    t.tryGet (fuel + 1) (.full cs f) key pos =
      match t.tryGet fuel (cs i) key (pos + 1) with
      | .error err => .error err
      | .ok (value, newnode, didResolve) =>
        if didResolve then
          .ok (value, .full (Function.update cs i newnode) { f with gen := t.cachegen }, true)
        else .ok (value, .full cs f, false) := by
  simp only [tryGet, hi]
  all_goals rfl

/-- A leaf: its value when the rest is the leaf's key, nothing otherwise. -/
theorem getOk_leaf {b : Bool} {nkey w : List UInt8} (hnk : IsKey nkey) (hw : w ≠ [])
    {f : NodeFlag} (hf : FlagsOk keccak db b (.short nkey (.value w) f) f) :
    GetOk keccak db t b (.short nkey (.value w) f) (leafMap nkey w) := by
  have hc : Canon keccak db b (.short nkey (.value w) f) (leafMap nkey w) := by
    obtain ⟨ns, hns, rfl⟩ := hnk
    exact .leaf b ns hns w hw f hf
  intro fuel key pos hk hfuel
  have hfuel' : 2 * (key.drop pos).length + 1 ≤ fuel := by
    simpa [Node.walkCost, Node.hashOf?] using hfuel
  obtain ⟨fuel, rfl⟩ : ∃ f, fuel = f + 1 := ⟨fuel - 1, by omega⟩
  refine ⟨_, false, ?_, hc, fun _ => rfl, (absurd · Bool.false_ne_true)⟩
  by_cases hp : nkey <+: key.drop pos
  · -- the rest is the leaf's key, and the walk ends at the value
    have hkey : key.drop pos = nkey := (hnk.eq_of_prefix hk hp).symm
    have : 0 < nkey.length := List.length_pos_of_ne_nil hnk.ne_nil
    obtain ⟨fuel, rfl⟩ : ∃ f, fuel = f + 1 := ⟨fuel - 1, by rw [hkey] at hfuel'; omega⟩
    rw [tryGet_short_match t _ (show key.drop pos = nkey ++ [] by simp [hkey]), hkey,
      leafMap_self]
    simp [tryGet]
  · rw [tryGet_short_mismatch t _ hp,
      leafMap_of_ne w (fun h : key.drop pos = nkey => hp (h ▸ List.prefix_refl nkey))]

/-- An extension: a key through its key goes on into the child, and the extension is copied
above a child that resolved something; any other key finds nothing. -/
theorem getOk_ext {b : Bool} {nkey : List UInt8} (hnk : Nibbles nkey) (hne : nkey ≠ [])
    {c : Node} {mc : Contents} (hc : Canon keccak db false c mc) (hbr : Branching mc)
    (ih : GetOk keccak db t false c mc) {f : NodeFlag}
    (hf : FlagsOk keccak db b (.short nkey c f) f) :
    GetOk keccak db t b (.short nkey c f) (extMap nkey mc) := by
  intro fuel key pos hk hfuel
  have hfuel' : 2 * (key.drop pos).length + 1 ≤ fuel := by
    simpa [Node.walkCost, Node.hashOf?] using hfuel
  obtain ⟨fuel, rfl⟩ : ∃ f, fuel = f + 1 := ⟨fuel - 1, by omega⟩
  by_cases hp : nkey <+: key.drop pos
  · obtain ⟨key', hkey⟩ := hp
    have hk' : IsKey key' := (hkey ▸ hk).of_append hnk
    have hdrop : key.drop (pos + nkey.length) = key' := by
      rw [← List.drop_drop, ← hkey, List.drop_left]
    have hlen : c.walkCost (key.drop (pos + nkey.length)) ≤ fuel := by
      have : 1 ≤ nkey.length := List.length_pos_of_ne_nil hne
      rw [hdrop]
      rw [← hkey, List.length_append] at hfuel'
      unfold Node.walkCost
      split <;> omega
    obtain ⟨n', did, hrec, hn', hsame, href⟩ := ih (hdrop ▸ hk') hlen
    rw [tryGet_short_match t fuel hkey.symm, hrec, hdrop, ← hkey, extMap_append]
    cases did with
    | false =>
      obtain rfl := hsame rfl
      exact ⟨_, false, rfl, .ext b nkey hnk hne _ mc hc hbr f hf, fun _ => rfl,
        (absurd · Bool.false_ne_true)⟩
    | true =>
      have hr := href rfl
      -- the copy keeps the flags' promises: same hash, same encoding, a clean child stays clean
      have hf' : FlagsOk keccak db b (.short nkey n' { f with gen := t.cachegen })
          { f with gen := t.cachegen } :=
        hf.congr (toItem_collapse_short nkey hr f _) rfl rfl
          (fun hd _ => hr.clean (hf.clean_children hd 0))
      exact ⟨_, true, rfl, .ext b nkey hnk hne n' mc hn' hbr _ hf',
        (absurd · Bool.false_ne_true.symm), fun _ => refSame_short nkey hr f _⟩
  · have hnone : extMap nkey mc (key.drop pos) = none := by
      simp only [extMap]
      exact if_neg fun ht => hp (List.prefix_iff_eq_take.mpr ht.symm)
    rw [tryGet_short_mismatch t _ hp, hnone]
    exact ⟨_, false, rfl, .ext b nkey hnk hne c mc hc hbr f hf, fun _ => rfl,
      (absurd · Bool.false_ne_true)⟩

/-- A full node: the key goes on into the child at its first byte, and the node is copied above a
child that resolved something; the value slot at the terminator resolves nothing. -/
theorem getOk_full {b : Bool} {cs : Fin 17 → Node} {ms : Fin 16 → Contents}
    (hcs : ∀ i : Fin 16, Canon keccak db false (cs i.castSucc) (ms i))
    (ih : ∀ i : Fin 16, GetOk keccak db t false (cs i.castSucc) (ms i))
    {v16 : Option (List UInt8)} (h16 : cs 16 = v16.elim .nil .value) (hv16 : v16 ≠ some [])
    (hcount : 2 ≤ Node.nonNilCount cs) {f : NodeFlag} (hf : FlagsOk keccak db b (.full cs f) f) :
    GetOk keccak db t b (.full cs f) (fullMap ms v16) := by
  have hc := Canon.full b cs ms hcs v16 h16 hv16 hcount f hf
  intro fuel key pos hk hfuel
  have hfuel' : 2 * (key.drop pos).length + 1 ≤ fuel := by
    simpa [Node.walkCost, Node.hashOf?] using hfuel
  obtain ⟨fuel, rfl⟩ : ∃ f, fuel = f + 1 := ⟨fuel - 1, by omega⟩
  obtain ⟨x, rest, hkey⟩ := List.exists_cons_of_ne_nil hk.ne_nil
  rw [hkey] at hk hfuel' ⊢
  have hx := hk.head_le
  obtain ⟨i, hi, hival⟩ : ∃ i : Fin 17, childIndex x = some i ∧ i.val = x.toNat :=
    ⟨_, childIndex_of_lt hx, rfl⟩
  have hix : nibble i = x := nibble_of_childIndex hi
  have hat : key[pos]?.bind childIndex = some i := by
    have hhead : (key.drop pos)[0]? = some x := by rw [hkey]; rfl
    rw [List.getElem?_drop, Nat.add_zero] at hhead
    rw [hhead, Option.bind_some]
    exact hi
  have hnext : key.drop (pos + 1) = rest := by
    rw [← List.drop_drop, hkey, List.drop_succ_cons, List.drop_zero]
  -- the walk in the slot: a child below a nibble, or the value slot at the terminator
  obtain ⟨n', did, hrec, hs, hsame, href⟩ : ∃ n' did,
      t.tryGet fuel (cs i) key (pos + 1) = .ok (fullMap ms v16 (x :: rest), n', did) ∧
      SlotOk keccak db i n' ((fullMap ms v16).drop [x]) ∧ (did = false → n' = cs i) ∧
      (did = true → RefSame keccak (cs i) n' ∧ i.val < 16) := by
    rcases hk.cons_cases with ⟨rfl, rfl⟩ | ⟨hx16, hr⟩
    · obtain ⟨fuel, rfl⟩ : ∃ f, fuel = f + 1 := ⟨fuel - 1, by simp at hfuel'; omega⟩
      have hi16 : i = 16 := Fin.ext hival
      subst hi16
      refine ⟨cs 16, false, ?_, hix ▸ hc.slots.1 16, fun _ => rfl, (absurd · Bool.false_ne_true)⟩
      rw [h16, fullMap_slot]
      cases v16 <;> rfl
    · have hlt : i.val < 16 := hival ▸ UInt8.lt_iff_toNat_lt.mp hx16
      have hij : i = (⟨i.val, hlt⟩ : Fin 16).castSucc := Fin.ext rfl
      have hlen : (cs i).walkCost (key.drop (pos + 1)) ≤ fuel := by
        rw [hnext]
        simp only [List.length_cons] at hfuel'
        unfold Node.walkCost
        split <;> omega
      rw [hij] at hlen ⊢
      obtain ⟨n', did, hrec, hn', hsame, href⟩ := ih _ (hnext ▸ hr) hlen
      have hchild := fullMap_child ms v16 ⟨i.val, hlt⟩ rest
      rw [← hij, hix] at hchild
      refine ⟨n', did, by rw [hrec, hnext, hchild], ?_, hsame, fun h => ⟨href h, hlt⟩⟩
      rw [← hij, ← hix, slotOk_of_lt hlt, hij, drop_fullMap_child]
      exact hn'
  rw [tryGet_full_of_index t fuel hat, hrec]
  cases did with
  | false =>
    obtain rfl := hsame rfl
    exact ⟨_, false, rfl, hc, fun _ => rfl, (absurd · Bool.false_ne_true)⟩
  | true =>
    obtain ⟨hr, hi16⟩ := href rfl
    have hsame := slotSame_update hi16 hr
    have hslots : ∀ j, SlotOk keccak db j (Function.update cs i n' j)
        ((fullMap ms v16).drop [nibble j]) := by
      intro j
      by_cases hj : j = i
      · subst hj
        rw [Function.update_self, hix]
        exact hs
      · rw [Function.update_of_ne hj]
        exact hc.slots.1 j
    have hcount' : 2 ≤ Node.nonNilCount (Function.update cs i n') := by
      rw [nonNilCount_congr fun j => (hsame j).isNil]
      exact hcount
    -- the copy keeps the flags' promises: same hash, same encoding, clean children stay clean
    have hf' : FlagsOk keccak db b (.full (Function.update cs i n') { f with gen := t.cachegen })
        { f with gen := t.cachegen } := by
      exact hf.congr (toItem_collapse_full_congr hsame f _) rfl rfl
        fun hd j => (hsame j).clean (hf.clean_children hd j)
    exact ⟨_, true, rfl, Canon.full_of_slots hc.keysValid hslots hcount' hf',
      (absurd · Bool.false_ne_true.symm), fun _ => refSame_full hsame f _⟩

/-- A hash node: `tryGet` resolves it and walks the node it stands for, which takes its place. -/
theorem getOk_hash {b : Bool} {hh : List UInt8} {m : Contents} {n : Node}
    (hres : ∀ pfx, t.resolveHash hh pfx = .ok n) (hn : n.hashOf? = none)
    (hcache : n.cache = (some hh, false)) (ih : GetOk keccak db t b n m) :
    GetOk keccak db t b (.hash hh) m := by
  intro fuel key pos hk hfuel
  have hfuel' : 2 * (key.drop pos).length + 2 ≤ fuel := by
    simpa [Node.walkCost, Node.hashOf?] using hfuel
  obtain ⟨fuel, rfl⟩ : ∃ f, fuel = f + 1 := ⟨fuel - 1, by omega⟩
  have hlen : n.walkCost (key.drop pos) ≤ fuel := by
    simp only [Node.walkCost, hn, Option.isSome_none, Bool.false_eq_true, ↓reduceIte]
    omega
  obtain ⟨n', did, hrec, hn', hsame, href⟩ := ih hk hlen
  -- the resolved node takes the hash node's place, and the walk's result takes its place
  have hr : RefSame keccak (.hash hh) n' := by
    cases did with
    | false => exact hsame rfl ▸ refSame_resolved hcache
    | true => exact (refSame_resolved hcache).trans (href rfl)
  exact ⟨n', true, by simp only [tryGet, hres, hrec], hn', (absurd · Bool.false_ne_true.symm),
    fun _ => hr⟩

/-- `tryGet` on a canonical node succeeds at every key with enough fuel, with what the contents
hold at the key and a canonical node for the same contents. -/
theorem get_canon (hdb : t.db.getD .empty = db) {b : Bool} {n : Node} {m : Contents}
    (hc : Canon keccak db b n m) : GetOk keccak db t b n m := by
  induction hc with
  | nil b => exact getOk_nil t b
  | leaf b ns hns w hw f hf => exact getOk_leaf t ⟨ns, hns, rfl⟩ hw hf
  | ext b ns hns hne c mc hc hbr f hf ih => exact getOk_ext t hns hne hc hbr ih hf
  | full b cs ms hcs v16 h16 hv16 hcount f hf ih => exact getOk_full t hcs ih h16 hv16 hcount hf
  | hash b hh blob hget hsize m dec hdec hcd ih =>
    exact getOk_hash t (resolveHash_eq t hdb hget hdec) (decodeNode_hashOf (hdec _))
      (decodeNode_cache (hdec _)) (ih _)

end Trie

/-- `TryGet` on a trie standing for `m` returns what `m` holds at the key's HEX form, and leaves a
trie with the same database and generation that stands for `m`. -/
theorem tryGet_canon {keccak : List UInt8 → List UInt8} {t : Trie} {m : Contents}
    (hc : t.Stands keccak m) (key : List UInt8) :
    ∃ t', t.TryGet key = (.ok (m (keybytesToHex key)), t') ∧ t'.db = t.db ∧
      t'.cachegen = t.cachegen ∧ t'.Stands keccak m := by
  obtain ⟨n', did, hrec, hn', hsame, -⟩ :=
    @Trie.get_canon keccak _ t rfl _ _ _ hc (maxDepth (keybytesToHex key)) (keybytesToHex key) 0
      (isKey_keybytesToHex key) (t.root.walkCost_le _)
  cases did with
  | false =>
    obtain rfl := hsame rfl
    exact ⟨t, by simp only [Trie.TryGet, hrec, List.drop_zero]; rfl, rfl, rfl, hc⟩
  | true =>
    exact ⟨{ t with root := n' }, by simp only [Trie.TryGet, hrec, List.drop_zero]; rfl, rfl, rfl,
      hn'⟩

end GoGaia.Patricia
