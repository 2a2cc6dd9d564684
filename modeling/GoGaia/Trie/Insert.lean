import GoGaia.Trie.Trie
import GoGaia.Trie.Canon

/-!
# Insertion keeps a trie canonical

`insert` (`trie/trie.go:233`) on a canonical node (`Canon`) and a key succeeds, never taking one of
its panics or running out of fuel, and returns a canonical node for the contents with the key
updated (`insert_canon`). It reports a change unless the key already held the value.

The proof follows `Canon`, one lemma for each of its constructors. The hard case is a short node
whose key the inserted key leaves: `insert` makes a full node with two children under the common
prefix, the short node's rest at its next nibble and a leaf for the key's rest at the key's
(`canon_split`); a slot is canonical for the part of the contents below its nibble (`SlotOk`). A
hash node is resolved from the database, where `Canon` holds the node it stands for
(`resolveHash_of_canon`).

The walk along a key of length `l` makes at most `2 * l + 2` calls (`Node.walkCost`): two for each
nibble, a hash node and the node it resolves to, and one for the end of the key.
-/

namespace GoGaia.Patricia

/-- The calls a walk along `key` from `n` makes at most: two for each byte of the key, one for its
end, and one more when `n` is a hash node, which resolves to a short or a full node. -/
def Node.walkCost (n : Node) (key : List UInt8) : Nat :=
  2 * key.length + if n.hashOf?.isSome then 2 else 1

theorem Node.walkCost_le (n : Node) (key : List UInt8) :
    n.walkCost key ≤ maxDepth key := by
  unfold walkCost maxDepth
  split <;> omega

/-! ## Keys and slots -/

theorem childIndex_of_lt {x : UInt8} (hx : x.toNat < 17) : childIndex x = some ⟨x.toNat, hx⟩ := by
  simp [childIndex, hx]

theorem nibble_of_childIndex {x : UInt8} {i : Fin 17} (h : childIndex x = some i) :
    nibble i = x := by
  unfold childIndex at h
  split at h
  · cases h
    simp [nibble]
  · cases h

/-- Where a key leaves another key: their common prefix, and a byte of each after it. -/
theorem exists_split {key nkey : List UInt8} (hn : prefixLen key nkey < nkey.length)
    (hk : prefixLen key nkey < key.length) :
    ∃ p x₁ x₂ r₁ r₂, nkey = p ++ x₁ :: r₁ ∧ key = p ++ x₂ :: r₂ ∧ x₁ ≠ x₂ ∧
      p.length = prefixLen key nkey := by
  set ml := prefixLen key nkey
  refine ⟨key.take ml, nkey[ml], key[ml], nkey.drop (ml + 1), key.drop (ml + 1), ?_, ?_,
    fun h => getElem_prefixLen_ne key nkey hk hn h.symm, by simp; omega⟩
  · rw [take_prefixLen, ← List.drop_eq_getElem_cons hn, List.take_append_drop]
  · rw [← List.drop_eq_getElem_cons hk, List.take_append_drop]

section
variable {keccak : List UInt8 → List UInt8} {db : MemDatabase}

/-- What `insert` makes of the rest `r` of a key after its byte `x` in an empty slot: the value
itself below the terminator, a leaf below a nibble. -/
theorem slotOk_value {x : UInt8} {r : List UInt8} (hk : IsKey (x :: r)) {i : Fin 17}
    (hi : nibble i = x) {v : List UInt8} (hv : v ≠ []) {f : NodeFlag} (hh : f.hash = none)
    (hd : f.dirty = true) :
    SlotOk keccak db i (if r = [] then .value v else .short r (.value v) f) (leafMap r v) := by
  rcases hk.cons_cases with ⟨rfl, rfl⟩ | ⟨hx, hr⟩
  · have : i = 16 := Fin.ext (by simpa using congrArg UInt8.toNat hi)
    subst this
    exact slotOk_sixteen.mpr ⟨by simp [leafMap], by simpa [leafMap] using hv⟩
  · have hi16 : i.val < 16 := by
      have := congrArg UInt8.toNat hi
      rw [toNat_nibble] at this
      exact this ▸ UInt8.lt_iff_toNat_lt.mp hx
    rw [slotOk_of_lt hi16, if_neg hr.ne_nil]
    obtain ⟨ns, hns, rfl⟩ := hr
    exact .leaf false ns hns v hv f (flagsOk_of_dirty hh hd)

/-- What `insert` makes of the rest `r` of an extension's key after its nibble `x`: the child
itself when nothing is left, a shorter extension otherwise. -/
theorem slotOk_ext {x : UInt8} (hx : x < 16) {r : List UInt8} (hr : Nibbles r) {i : Fin 17}
    (hi : nibble i = x) {c : Node} {mc : Contents} (hc : Canon keccak db false c mc)
    (hbr : Branching mc) {f : NodeFlag} (hh : f.hash = none) (hd : f.dirty = true) :
    SlotOk keccak db i (if r = [] then c else .short r c f) (extMap r mc) := by
  have hi16 : i.val < 16 := by
    have := congrArg UInt8.toNat hi
    rw [toNat_nibble] at this
    exact this ▸ UInt8.lt_iff_toNat_lt.mp hx
  rw [slotOk_of_lt hi16]
  by_cases hr0 : r = []
  · subst hr0
    simpa using hc
  · rw [if_neg hr0]
    exact .ext false r hr hr0 c mc hc hbr f (flagsOk_of_dirty hh hd)

/-- A full node with two children at distinct slots, for contents with nothing below the other
nibbles. -/
theorem canon_pair {b : Bool} {i₁ i₂ : Fin 17} (hne : i₁ ≠ i₂) {c₁ c₂ : Node} {M : Contents}
    (hM : KeysValid M) (h₁ : SlotOk keccak db i₁ c₁ (M.drop [nibble i₁]))
    (h₂ : SlotOk keccak db i₂ c₂ (M.drop [nibble i₂]))
    (hrest : ∀ j, j ≠ i₁ → j ≠ i₂ → M.drop [nibble j] = emptyMap)
    (hn₁ : c₁.isNil = false) (hn₂ : c₂.isNil = false) {f : NodeFlag} (hh : f.hash = none)
    (hd : f.dirty = true) :
    Canon keccak db b
      (.full (Function.update (Function.update (fun _ => .nil) i₁ c₁) i₂ c₂) f) M := by
  refine Canon.full_of_slots hM (fun j => ?_) ?_ (flagsOk_of_dirty hh hd)
  · by_cases hj₂ : j = i₂
    · subst hj₂
      simpa using h₂
    · by_cases hj₁ : j = i₁
      · subst hj₁
        simpa [Function.update_of_ne hj₂] using h₁
      · rw [Function.update_of_ne hj₂, Function.update_of_ne hj₁, hrest j hj₁ hj₂]
        exact slotOk_nil j
  · exact two_le_nonNilCount hne (by simpa [Function.update_of_ne hne] using hn₁) (by simpa using hn₂)

/-- The node `insert` makes where the key `p ++ x₂ :: r₂` leaves a short node whose contents are
those of `m₁` behind `p ++ [x₁]`: a full node with the node's rest at `x₁` and a leaf for the key's
rest at `x₂`, under an extension for `p` unless it is empty. -/
theorem canon_split {b : Bool} {p r₂ : List UInt8} {x₁ x₂ : UInt8} (hx : x₁ ≠ x₂)
    (hkey : IsKey (p ++ x₂ :: r₂)) {v : List UInt8} (hv : v ≠ []) {i₁ i₂ : Fin 17}
    (hi₁ : nibble i₁ = x₁) (hi₂ : nibble i₂ = x₂) {m₁ : Contents}
    (hm₁ : KeysValid (extMap (p ++ [x₁]) m₁)) {k₁ w₁ : List UInt8} (hk₁ : m₁ k₁ = some w₁)
    {c₁ : Node} (hc₁ : SlotOk keccak db i₁ c₁ m₁) (hn₁ : c₁.isNil = false) {f : NodeFlag}
    (hh : f.hash = none) (hd : f.dirty = true) :
    Canon keccak db b
      (if p.length = 0 then
        .full (Function.update (Function.update (fun _ => .nil) i₁ c₁) i₂
          (if r₂ = [] then .value v else .short r₂ (.value v) f)) f
      else .short p (.full (Function.update (Function.update (fun _ => .nil) i₁ c₁) i₂
          (if r₂ = [] then .value v else .short r₂ (.value v) f)) f) f)
      (Function.update (extMap (p ++ [x₁]) m₁) (p ++ x₂ :: r₂) (some v)) := by
  have hp : Nibbles p := hkey.nibbles_of_append
  -- the contents below the common prefix, as the full node holds them
  set M : Contents := Function.update (extMap [x₁] m₁) (x₂ :: r₂) (some v) with hM
  have hMp : Function.update (extMap (p ++ [x₁]) m₁) (p ++ x₂ :: r₂) (some v) = extMap p M := by
    rw [hM, extMap_update, extMap_extMap]
  have hM₁ : M.drop [x₁] = m₁ := by
    rw [hM, drop_update_cons, if_neg hx, drop_extMap]
  have hhead : ∀ k w, extMap [x₁] m₁ k = some w → [x₁] <+: k := fun _ _ h => prefix_of_extMap h
  have hM₂ : M.drop [x₂] = leafMap r₂ v := by
    rw [hM, drop_update_cons, if_pos rfl, drop_eq_empty_of_head hhead (Ne.symm hx),
      update_emptyMap]
  have hMvalid : KeysValid M := by
    have := (hm₁.update hkey (some v)).drop_nibbles hp
    rwa [hMp, drop_extMap] at this
  have hne : i₁ ≠ i₂ := fun h => hx (by rw [← hi₁, ← hi₂, h])
  have hbranch := fun b' => @canon_pair keccak db b' _ _ hne _ _ _ hMvalid
    (hi₁ ▸ hM₁ ▸ hc₁) (hi₂ ▸ hM₂ ▸ slotOk_value (hkey.of_append hp) hi₂ hv hh hd)
    (fun j hj₁ hj₂ => by
      have hj : nibble j ≠ x₂ := fun h => hj₂ (nibble_injective (h.trans hi₂.symm))
      have hj' : nibble j ≠ x₁ := fun h => hj₁ (nibble_injective (h.trans hi₁.symm))
      rw [hM, drop_update_cons, if_neg hj, drop_eq_empty_of_head hhead hj'])
    hn₁ (by by_cases hr : r₂ = [] <;> simp [hr, Node.isNil]) _ hh hd
  rw [hMp]
  split
  · next h0 =>
    rw [List.length_eq_zero_iff.mp h0, extMap_nil]
    exact hbranch b
  · next h0 =>
    have hbr : Branching M := ⟨x₁ :: k₁, x₂ :: r₂, w₁, v,
      by rw [← hM₁] at hk₁; exact hk₁, by simp [hM], by simpa using hx⟩
    exact .ext b p hp (fun h => h0 (by simp [h])) _ M (hbranch false) hbr f (flagsOk_of_dirty hh hd)

/-- The children of a full node with child `i` replaced stand for the contents updated below `i`'s
nibble. -/
theorem Canon.slots_update {b : Bool} {cs : Fin 17 → Node} {f : NodeFlag} {m : Contents}
    (hc : Canon keccak db b (.full cs f) m) {x : UInt8} {rest : List UInt8} {i : Fin 17}
    (hi : nibble i = x) {nn : Node} {o : Option (List UInt8)}
    (hs : SlotOk keccak db i nn (Function.update (m.drop [x]) rest o)) (j : Fin 17) :
    SlotOk keccak db j (Function.update cs i nn j)
      (Contents.drop (Function.update m (x :: rest) o) [nibble j]) := by
  rw [drop_update_cons]
  by_cases hj : j = i
  · subst hj
    rw [Function.update_self, if_pos hi]
    exact hs
  · have hjx : nibble j ≠ x := fun h => hj (nibble_injective (h.trans hi.symm))
    rw [Function.update_of_ne hj, if_neg hjx]
    exact hc.slots.1 j

/-- A full node with one child replaced, for the contents updated below that child's nibble. -/
theorem Canon.full_update {b : Bool} {cs : Fin 17 → Node} {f : NodeFlag} {m : Contents}
    (hc : Canon keccak db b (.full cs f) m) {x : UInt8} {rest : List UInt8}
    (hk : IsKey (x :: rest)) {i : Fin 17} (hi : nibble i = x) {nn : Node}
    {o : Option (List UInt8)} (hs : SlotOk keccak db i nn (Function.update (m.drop [x]) rest o))
    (hcount : 2 ≤ Node.nonNilCount (Function.update cs i nn)) {f' : NodeFlag}
    (hh : f'.hash = none) (hd : f'.dirty = true) :
    Canon keccak db b (.full (Function.update cs i nn) f') (Function.update m (x :: rest) o) :=
  Canon.full_of_slots (hc.keysValid.update hk o) (hc.slots_update hi hs) hcount
    (flagsOk_of_dirty hh hd)

/-- A leaf's contents have valid keys. -/
theorem keysValid_leafMap {k : List UInt8} (hk : IsKey k) (v : List UInt8) :
    KeysValid (leafMap k v) := by
  intro k' w h
  by_cases he : k' = k
  · exact he ▸ hk
  · simp [leafMap, he] at h

end

/-! ## Insertion -/

namespace Trie

variable {keccak : List UInt8 → List UInt8} {db : MemDatabase} (t : Trie)

/-- `resolveHash` of a hash node stored in the trie's database decodes the stored node. -/
theorem resolveHash_eq (hdb : t.db.getD .empty = db) {hh blob : List UInt8}
    (hget : db.get hh = some blob) {dec : UInt16 → Node}
    (hdec : ∀ gen, decodeNode blob.length (some hh) blob gen = .ok (dec gen)) (pfx : List UInt8) :
    t.resolveHash hh pfx = .ok (dec t.cachegen) := by
  cases htdb : t.db with
  | none =>
    rw [htdb] at hdb
    subst hdb
    simp [MemDatabase.empty, MemDatabase.get] at hget
  | some d =>
    rw [htdb, Option.getD_some] at hdb
    subst hdb
    simp [resolveHash, htdb, hget, hdec]

/-- `resolveHash` finds the node a canonical hash node stands for. -/
theorem resolveHash_of_canon (hdb : t.db.getD .empty = db) {b : Bool} {hh : List UInt8}
    {m : Contents} (hc : Canon keccak db b (.hash hh) m) :
    ∃ n, (∀ pfx, t.resolveHash hh pfx = .ok n) ∧ Canon keccak db b n m ∧ n.hashOf? = none := by
  cases hc with
  | hash _ _ blob hget _ _ dec hdec hcd =>
    exact ⟨dec t.cachegen, resolveHash_eq t hdb hget hdec, hcd _, decodeNode_hashOf (hdec _)⟩

theorem insert_nil (fuel : Nat) (pfx key : List UInt8) (value : Node) :
    t.insert (fuel + 1) .nil pfx key value =
      .ok (true, if key = [] then value else .short key value t.newFlag) := by
  by_cases hk : key = []
  · subst hk
    simp [insert]
  · simp [insert, hk]

theorem insert_value_end (fuel : Nat) (pfx w v : List UInt8) :
    t.insert (fuel + 1) (.value w) pfx [] (.value v) = .ok (w != v, .value v) := by
  simp [insert]

variable (keccak db) in
/-- What `insert` does on `n` standing for `m`: at every key with enough fuel it succeeds with a
node for `m` updated at the key, and it reports no change only when the key held the value. -/
def InsertOk (b : Bool) (n : Node) (m : Contents) : Prop :=
  ∀ {fuel : Nat} {pfx key v : List UInt8}, IsKey key → v ≠ [] → n.walkCost key ≤ fuel →
    ∃ dirty n', t.insert fuel n pfx key (.value v) = .ok (dirty, n') ∧
      Canon keccak db b n' (Function.update m key (some v)) ∧ (dirty = false → m key = some v)

theorem insertOk_nil (b : Bool) : InsertOk keccak db t b .nil emptyMap := by
  intro fuel pfx key v hk hv hfuel
  obtain ⟨fuel, rfl⟩ : ∃ f, fuel = f + 1 :=
    ⟨fuel - 1, by simp [Node.walkCost, Node.hashOf?] at hfuel; omega⟩
  refine ⟨true, _, by rw [insert_nil, if_neg hk.ne_nil], ?_, by simp⟩
  obtain ⟨ns, hns, rfl⟩ := hk
  rw [update_emptyMap]
  exact .leaf b ns hns v hv _ (flagsOk_of_dirty rfl rfl)

/-- A leaf: its value is replaced at its own key, and any other key branches off it. -/
theorem insertOk_leaf {b : Bool} {nkey w : List UInt8} (hnk : IsKey nkey) (hw : w ≠ [])
    {f : NodeFlag} (hf : FlagsOk keccak db b (.short nkey (.value w) f) f) :
    InsertOk keccak db t b (.short nkey (.value w) f) (leafMap nkey w) := by
  intro fuel pfx key v hk hv hfuel
  have hfuel' : 2 * key.length + 1 ≤ fuel := by simpa [Node.walkCost, Node.hashOf?] using hfuel
  obtain ⟨fuel, rfl⟩ : ∃ f, fuel = f + 1 := ⟨fuel - 1, by omega⟩
  have hkne : key.length ≠ 0 := by simpa using hk.ne_nil
  by_cases hml : prefixLen key nkey = nkey.length
  · -- the key is the leaf's own key: the value is replaced
    have hkey : key = nkey :=
      (hnk.eq_of_prefix hk ((prefixLen_eq_length_iff _ _).mp hml)).symm
    subst hkey
    obtain ⟨fuel, rfl⟩ : ∃ f, fuel = f + 1 := ⟨fuel - 1, by have := hk.ne_nil; simp at hfuel'; omega⟩
    simp only [insert, hkne, if_false, hml, if_true, List.take_length, List.drop_length]
    cases hwv : (w != v) with
    | false =>
      have hwv' : w = v := by simpa using hwv
      subst hwv'
      refine ⟨false, _, rfl, ?_, fun _ => leafMap_self _ _⟩
      rw [update_same_of_eq _ (leafMap_self _ _)]
      obtain ⟨ns, hns, rfl⟩ := hnk
      exact .leaf b ns hns w hw f hf
    | true =>
      refine ⟨true, _, rfl, ?_, fun h => by cases h⟩
      rw [update_leafMap_self, update_emptyMap]
      obtain ⟨ns, hns, rfl⟩ := hnk
      exact .leaf b ns hns v hv _ (flagsOk_of_dirty rfl rfl)
  · -- the key leaves the leaf's key: a branch
    have hlt : prefixLen key nkey < nkey.length := lt_of_le_of_ne (prefixLen_le_right _ _) hml
    have hlt' : prefixLen key nkey < key.length := by
      refine lt_of_le_of_ne (prefixLen_le_left _ _) fun he => hml ?_
      have hpre : key <+: nkey := (prefixLen_eq_length_iff nkey key).mp (by rwa [prefixLen_comm] at he)
      rw [hk.eq_of_prefix hnk hpre] at he ⊢
      exact he
    obtain ⟨p, x₁, x₂, r₁, r₂, rfl, rfl, hx, hpl⟩ := exists_split hlt hlt'
    have hp := hk.nibbles_of_append
    have hk₁ : IsKey (x₁ :: r₁) := hnk.of_append hp
    have hk₂ : IsKey (x₂ :: r₂) := hk.of_append hp
    have hi₁ := childIndex_of_lt hk₁.head_le
    have hi₂ := childIndex_of_lt hk₂.head_le
    have hne : p.length ≠ (p ++ x₁ :: r₁).length := by simp
    simp only [insert, hkne, if_false, ← hpl, hne, List.getElem?_append_right le_rfl,
      Nat.sub_self, List.getElem?_cons_zero, Option.bind_some, hi₁, hi₂]
    obtain ⟨fuel, rfl⟩ : ∃ f, fuel = f + 1 := ⟨fuel - 1, by simp at hfuel'; omega⟩
    have hd₁ : (p ++ x₁ :: r₁).drop (p.length + 1) = r₁ := by simp
    have hd₂ : (p ++ x₂ :: r₂).drop (p.length + 1) = r₂ := by simp
    have ht : (p ++ x₂ :: r₂).take p.length = p := by simp
    simp only [insert_nil, hd₁, hd₂, ht]
    refine ⟨true, _, (apply_ite (fun n => (.ok (true, n) : Except TrieError (Bool × Node))) _ _ _).symm,
      ?_, fun h => by cases h⟩
    have hm : leafMap (p ++ x₁ :: r₁) w = extMap (p ++ [x₁]) (leafMap r₁ w) := by
      rw [extMap_leafMap, List.append_assoc, List.singleton_append]
    rw [hm]
    exact canon_split hx hk hv (nibble_of_childIndex hi₁) (nibble_of_childIndex hi₂)
      (hm ▸ keysValid_leafMap hnk w) (leafMap_self r₁ w)
      (slotOk_value hk₁ (nibble_of_childIndex hi₁) hw rfl rfl)
      (by by_cases hr : r₁ = [] <;> simp [hr, Node.isNil]) rfl rfl

/-- An extension: a key through its whole key goes on into its child, any other branches off
it. -/
theorem insertOk_ext {b : Bool} {nkey : List UInt8} (hnk : Nibbles nkey) (hne : nkey ≠ [])
    {c : Node} {mc : Contents} (hc : Canon keccak db false c mc) (hbr : Branching mc)
    (ih : InsertOk keccak db t false c mc) {f : NodeFlag}
    (hf : FlagsOk keccak db b (.short nkey c f) f) :
    InsertOk keccak db t b (.short nkey c f) (extMap nkey mc) := by
  intro fuel pfx key v hk hv hfuel
  have hfuel' : 2 * key.length + 1 ≤ fuel := by simpa [Node.walkCost, Node.hashOf?] using hfuel
  obtain ⟨fuel, rfl⟩ : ∃ f, fuel = f + 1 := ⟨fuel - 1, by omega⟩
  have hkne : key.length ≠ 0 := by simpa using hk.ne_nil
  by_cases hml : prefixLen key nkey = nkey.length
  · -- the key runs through the extension's key into its child
    obtain ⟨key', rfl⟩ := (prefixLen_eq_length_iff _ _).mp hml
    have hk' : IsKey key' := hk.of_append hnk
    have hlen : c.walkCost key' ≤ fuel := by
      have : 1 ≤ nkey.length := List.length_pos_of_ne_nil hne
      simp only [List.length_append] at hfuel'
      unfold Node.walkCost
      split <;> omega
    obtain ⟨dirty, nn, hrec, hnn, hsame⟩ := @ih fuel (pfx ++ nkey) key' v hk' hv hlen
    simp only [insert, hkne, if_false, hml, if_true, List.take_left, List.drop_left, hrec]
    cases dirty with
    | false =>
      have hm : extMap nkey mc (nkey ++ key') = some v := by rw [extMap_append]; exact hsame rfl
      refine ⟨false, _, rfl, ?_, fun _ => hm⟩
      rw [update_same_of_eq _ hm]
      exact .ext b nkey hnk hne c mc hc hbr f hf
    | true =>
      refine ⟨true, _, rfl, ?_, fun h => by cases h⟩
      rw [← extMap_update]
      exact .ext b nkey hnk hne nn _ hnn (hbr.update key' v) _ (flagsOk_of_dirty rfl rfl)
  · -- the key leaves the extension's key: a branch
    have hlt : prefixLen key nkey < nkey.length := lt_of_le_of_ne (prefixLen_le_right _ _) hml
    have hlt' : prefixLen key nkey < key.length := by
      -- a key, which ends in the terminator, is no prefix of nibbles
      refine lt_of_le_of_ne (prefixLen_le_left _ _) fun he => hk.not_prefix_nibbles hnk ?_
      exact (prefixLen_eq_length_iff nkey key).mp (by rwa [prefixLen_comm] at he)
    obtain ⟨p, x₁, x₂, r₁, r₂, rfl, rfl, hx, hpl⟩ := exists_split hlt hlt'
    have hp := hk.nibbles_of_append
    have hx₁ : x₁ < 16 := hnk x₁ (by simp)
    have hr₁ : Nibbles r₁ := fun y hy => hnk y (by simp [hy])
    have hk₂ : IsKey (x₂ :: r₂) := hk.of_append hp
    have hi₁ := childIndex_of_lt (x := x₁) (by have := UInt8.lt_iff_toNat_lt.mp hx₁; simp at this; omega)
    have hi₂ := childIndex_of_lt hk₂.head_le
    have hne' : p.length ≠ (p ++ x₁ :: r₁).length := by simp
    simp only [insert, hkne, if_false, ← hpl, hne', List.getElem?_append_right le_rfl,
      Nat.sub_self, List.getElem?_cons_zero, Option.bind_some, hi₁, hi₂]
    obtain ⟨fuel, rfl⟩ : ∃ f, fuel = f + 1 := ⟨fuel - 1, by simp at hfuel'; omega⟩
    have hd₁ : (p ++ x₁ :: r₁).drop (p.length + 1) = r₁ := by simp
    have hd₂ : (p ++ x₂ :: r₂).drop (p.length + 1) = r₂ := by simp
    have ht : (p ++ x₂ :: r₂).take p.length = p := by simp
    simp only [insert_nil, hd₁, hd₂, ht]
    refine ⟨true, _, (apply_ite (fun n => (.ok (true, n) : Except TrieError (Bool × Node))) _ _ _).symm,
      ?_, fun h => by cases h⟩
    have hm : extMap (p ++ x₁ :: r₁) mc = extMap (p ++ [x₁]) (extMap r₁ mc) := by
      rw [extMap_extMap, List.append_assoc, List.singleton_append]
    obtain ⟨k₁, -, w₁, -, hk₁, -, -⟩ := id hbr
    rw [hm]
    exact canon_split hx hk hv (nibble_of_childIndex hi₁) (nibble_of_childIndex hi₂)
      (hm ▸ (Canon.ext b _ hnk hne c mc hc hbr f hf).keysValid) ((extMap_append r₁ mc k₁).trans hk₁)
      (slotOk_ext hx₁ hr₁ (nibble_of_childIndex hi₁) hc hbr rfl rfl)
      (by
        by_cases hr : r₁ = []
        · rw [if_pos hr]
          exact hc.isNil_eq_false hk₁
        · rw [if_neg hr]
          rfl) rfl rfl

/-- A full node: the key goes on into the child at its first byte, or into the value slot at the
terminator. -/
theorem insertOk_full {b : Bool} {cs : Fin 17 → Node} {ms : Fin 16 → Contents}
    (hcs : ∀ i : Fin 16, Canon keccak db false (cs i.castSucc) (ms i))
    (ih : ∀ i : Fin 16, InsertOk keccak db t false (cs i.castSucc) (ms i))
    {v16 : Option (List UInt8)} (h16 : cs 16 = v16.elim .nil .value) (hv16 : v16 ≠ some [])
    (hcount : 2 ≤ Node.nonNilCount cs) {f : NodeFlag} (hf : FlagsOk keccak db b (.full cs f) f) :
    InsertOk keccak db t b (.full cs f) (fullMap ms v16) := by
  have hc := Canon.full b cs ms hcs v16 h16 hv16 hcount f hf
  intro fuel pfx key v hk hv hfuel
  have hfuel' : 2 * key.length + 1 ≤ fuel := by simpa [Node.walkCost, Node.hashOf?] using hfuel
  obtain ⟨fuel, rfl⟩ : ∃ f, fuel = f + 1 := ⟨fuel - 1, by omega⟩
  obtain ⟨x, rest, rfl⟩ := List.exists_cons_of_ne_nil hk.ne_nil
  have hi := childIndex_of_lt hk.head_le
  have hix : nibble ⟨x.toNat, hk.head_le⟩ = x := nibble_of_childIndex hi
  simp only [insert, List.length_cons, Nat.add_one_ne_zero, if_false, List.getElem?_cons_zero,
    Option.bind_some, hi, List.take_succ_cons, List.take_zero, List.drop_succ_cons, List.drop_zero]
  -- the insertion into the slot: a child below a nibble, or the value slot at the terminator
  obtain ⟨dirty, nn, hrec, hs, hsame, hnn⟩ : ∃ dirty nn,
      t.insert fuel (cs ⟨x.toNat, hk.head_le⟩) (pfx ++ [x]) rest (.value v) = .ok (dirty, nn) ∧
      SlotOk keccak db ⟨x.toNat, hk.head_le⟩ nn
        (Function.update ((fullMap ms v16).drop [x]) rest (some v)) ∧
      (dirty = false → fullMap ms v16 (x :: rest) = some v) ∧ nn.isNil = false := by
    rcases hk.cons_cases with ⟨rfl, rfl⟩ | ⟨hx, hr⟩
    · obtain ⟨fuel, rfl⟩ : ∃ f, fuel = f + 1 := ⟨fuel - 1, by simp at hfuel'; omega⟩
      have hslot : SlotOk keccak db ⟨(16 : UInt8).toNat, hk.head_le⟩ (.value v)
          (Function.update ((fullMap ms v16).drop [16]) [] (some v)) :=
        slotOk_sixteen.mpr ⟨by simp, by simpa using hv⟩
      have hcs16 : cs ⟨(16 : UInt8).toNat, hk.head_le⟩ = v16.elim .nil .value := h16
      rw [hcs16]
      cases v16 with
      | none =>
        refine ⟨true, _, by rw [Option.elim_none, insert_nil, if_pos rfl], hslot, ?_, rfl⟩
        intro h
        cases h
      | some w =>
        refine ⟨w != v, _, insert_value_end t fuel _ w v, hslot, fun h => ?_, rfl⟩
        rw [fullMap_slot, show w = v by simpa using h]
    · have hlt : x.toNat < 16 := by simpa using UInt8.lt_iff_toNat_lt.mp hx
      have hj : (⟨x.toNat, hk.head_le⟩ : Fin 17) = (⟨x.toNat, hlt⟩ : Fin 16).castSucc := rfl
      have hlen : (cs (⟨x.toNat, hlt⟩ : Fin 16).castSucc).walkCost rest ≤ fuel := by
        simp only [List.length_cons] at hfuel'
        unfold Node.walkCost
        split <;> omega
      obtain ⟨dirty, nn, hrec, hnn, hsame⟩ := @ih ⟨x.toNat, hlt⟩ fuel (pfx ++ [x]) rest v hr hv hlen
      have hix' : nibble (Fin.castSucc (⟨x.toNat, hlt⟩ : Fin 16)) = x := hix
      have hdrop : (fullMap ms v16).drop [x] = ms ⟨x.toNat, hlt⟩ := by
        have := drop_fullMap_child ms v16 ⟨x.toNat, hlt⟩
        rwa [hix'] at this
      refine ⟨dirty, nn, hrec, ?_, fun h => ?_, hnn.isNil_eq_false (Function.update_self ..)⟩
      · rw [hdrop, slotOk_of_lt hlt]
        exact hnn
      · have := fullMap_child ms v16 ⟨x.toNat, hlt⟩ rest
        rw [hix'] at this
        rw [this]
        exact hsame h
  rw [hrec]
  cases dirty with
  | false =>
    refine ⟨false, _, rfl, ?_, hsame⟩
    rw [update_same_of_eq _ (hsame rfl)]
    exact hc
  | true =>
    refine ⟨true, _, rfl, hc.full_update hk hix hs ?_ rfl rfl, fun h => by cases h⟩
    obtain ⟨j, hji, hj⟩ := exists_nonNil_ne hcount ⟨x.toNat, hk.head_le⟩
    exact two_le_nonNilCount (Ne.symm hji) (by simpa using hnn)
      (by rwa [Function.update_of_ne hji])

/-- A hash node: `insert` resolves it and inserts into the node it stands for. -/
theorem insertOk_hash {b : Bool} {hh : List UInt8} {m : Contents} {n : Node}
    (hres : ∀ pfx, t.resolveHash hh pfx = .ok n) (hn : n.hashOf? = none)
    (hcn : Canon keccak db b n m) (ih : InsertOk keccak db t b n m) :
    InsertOk keccak db t b (.hash hh) m := by
  intro fuel pfx key v hk hv hfuel
  have hfuel' : 2 * key.length + 2 ≤ fuel := by simpa [Node.walkCost, Node.hashOf?] using hfuel
  obtain ⟨fuel, rfl⟩ : ∃ f, fuel = f + 1 := ⟨fuel - 1, by omega⟩
  have hlen : n.walkCost key ≤ fuel := by
    simp only [Node.walkCost, hn, Option.isSome_none]
    simp
    omega
  obtain ⟨dirty, nn, hrec, hnn, hsame⟩ := @ih fuel pfx key v hk hv hlen
  have hkne : key.length ≠ 0 := by simpa using hk.ne_nil
  simp only [insert, hkne, if_false, hres, hrec]
  cases dirty with
  | false =>
    refine ⟨false, n, rfl, ?_, hsame⟩
    rw [update_same_of_eq _ (hsame rfl)]
    exact hcn
  | true => exact ⟨true, nn, rfl, hnn, fun h => by cases h⟩

/-- `insert` on a canonical node succeeds at every key with enough fuel, with a canonical node for
the contents updated at the key. -/
theorem insert_canon (hdb : t.db.getD .empty = db) {b : Bool} {n : Node} {m : Contents}
    (hc : Canon keccak db b n m) : InsertOk keccak db t b n m := by
  induction hc with
  | nil b => exact insertOk_nil t b
  | leaf b ns hns w hw f hf => exact insertOk_leaf t ⟨ns, hns, rfl⟩ hw hf
  | ext b ns hns hne c mc hc hbr f hf ih => exact insertOk_ext t hns hne hc hbr ih hf
  | full b cs ms hcs v16 h16 hv16 hcount f hf ih => exact insertOk_full t hcs ih h16 hv16 hcount hf
  | hash b hh blob hget hsize m dec hdec hcd ih =>
    exact insertOk_hash t (resolveHash_eq t hdb hget hdec) (decodeNode_hashOf (hdec _)) (hcd _)
      (ih _)

end Trie

end GoGaia.Patricia
