import GoGaia.Trie.Insert

/-!
# Deletion keeps a trie canonical

`delete` (`trie/trie.go:343`) on a canonical node and a key succeeds and returns a canonical node
for the contents with the key removed (`delete_canon`); it reports a change exactly when the key
was there, and a changed node is never a hash node. On the way up it restores the shape three ways:
an extension whose child became a short node takes over the child's key (`canon_merge`), a full
node left with one child becomes a short node over it (`reduceFull_canon`), and a leaf or an
extension matched by the whole key goes. Go's comments say that the child of an extension "can
never be nil here" and that a full node "can never be reduced to nil": on canonical nodes both
hold, since the contents of an extension's child branch (`Branching.update_none`) and a full node
keeps a child besides the one the key goes into.

The scan at the end of the full-node case, `remainingPos`, finds the index of the only child left,
`-1` for none and `-2` for several (`remainingPos_eq`).
-/

namespace GoGaia.Patricia

/-! ## The scan for the child left -/

/-- The scan of `remainingPos` from `init` over the indices `l`: `init` when no child there is
non-nil, the index of one non-nil child when `init` is `-1`, and `-2` otherwise. -/
theorem foldl_remainingPos (cs : Fin 17 → Node) : ∀ (l : List (Fin 17)) (init : Int),
    l.foldl (fun pos i => if (cs i).isNil then pos else if pos = -1 then (i.val : Int) else -2)
        init =
      match l.filter (fun i => !(cs i).isNil) with
      | [] => init
      | [i] => if init = -1 then (i.val : Int) else -2
      | _ :: _ :: _ => -2
  | [], _ => rfl
  | i :: l, init => by
    rw [List.foldl_cons, foldl_remainingPos cs l]
    by_cases hi : (cs i).isNil
    · simp only [hi, if_true, List.filter_cons, Bool.not_true, Bool.false_eq_true, if_false]
    · rw [List.filter_cons_of_pos (by simpa using hi)]
      simp only [hi, Bool.false_eq_true, if_false]
      -- after a non-nil child the scan holds an index or -2, never -1
      have hstep : (if init = -1 then (i.val : Int) else -2) ≠ -1 := by split <;> omega
      rcases l.filter (fun i => !(cs i).isNil) with _ | ⟨j, _ | ⟨k, l'⟩⟩
      · rfl
      · exact if_neg hstep
      · rfl

theorem remainingPos_eq (cs : Fin 17 → Node) :
    remainingPos cs =
      match (List.finRange 17).filter (fun i => !(cs i).isNil) with
      | [] => -1
      | [i] => (i.val : Int)
      | _ :: _ :: _ => -2 := by
  unfold remainingPos
  rw [foldl_remainingPos]
  split <;> simp

/-- The bound under which the scan's result indexes the children. -/
theorem remainingPos_toNat_lt {cs : Fin 17 → Node}
    (h : 0 ≤ remainingPos cs ∧ remainingPos cs < 17) : (remainingPos cs).toNat < 17 := by
  omega

theorem mem_filter_nonNil {cs : Fin 17 → Node} {i : Fin 17} :
    i ∈ (List.finRange 17).filter (fun i => !(cs i).isNil) ↔ (cs i).isNil = false := by
  simp

theorem Node.eq_nil_of_isNil {n : Node} (h : n.isNil = true) : n = .nil := by
  cases n <;> simp_all [Node.isNil]

/-! ## Contents after a deletion -/

/-- Contents that branch keep a key after one is removed. -/
theorem Branching.update_none {m : Contents} (hb : Branching m) (k : List UInt8) :
    ∃ k' v, Function.update m k none k' = some v := by
  obtain ⟨k₁, k₂, v₁, v₂, h₁, h₂, hne⟩ := hb
  by_cases hk : k₁ = k
  · have hk₂ : k₂ ≠ k := fun h => hne (by rw [hk, h])
    exact ⟨k₂, v₂, by rw [Function.update_of_ne hk₂, h₂]⟩
  · exact ⟨k₁, v₁, by rw [Function.update_of_ne hk, h₁]⟩

section
variable {keccak : List UInt8 → List UInt8} {db : MemDatabase}

/-- A short node over a canonical short node, merged into one with the two keys. -/
theorem canon_merge {b : Bool} {nkey : List UInt8} (hnk : Nibbles nkey) (hne : nkey ≠ [])
    {ckey : List UInt8} {cval : Node} {cf : NodeFlag} {mc : Contents}
    (hc : Canon keccak db false (.short ckey cval cf) mc) {f : NodeFlag} (hh : f.hash = none)
    (hd : f.dirty = true) :
    Canon keccak db b (.short (nkey ++ ckey) cval f) (extMap nkey mc) := by
  rcases hc.short_cases with
    ⟨ns, w, hns, rfl, rfl, hw, rfl⟩ | ⟨hck, hcne, mcc, hcc, hbr, rfl⟩
  · rw [extMap_leafMap, ← List.append_assoc]
    exact .leaf b (nkey ++ ns) (nibbles_append.mpr ⟨hnk, hns⟩) w hw f (flagsOk_of_dirty hh hd)
  · rw [extMap_extMap]
    exact .ext b (nkey ++ ckey) (nibbles_append.mpr ⟨hnk, hck⟩) (by simp [hne]) cval mcc hcc hbr
      f (flagsOk_of_dirty hh hd)

end

/-! ## Deletion -/

namespace Trie

variable {keccak : List UInt8 → List UInt8} {db : MemDatabase} (t : Trie)

/-- The end of `delete`'s full-node case (`trie/trie.go:383`): the node with its new children,
reduced to a short node over the child that is left when there is only one. -/
def reduceFull (cs : Fin 17 → Node) (pfx : List UInt8) : Except TrieError (Bool × Node) :=
  let pos := remainingPos cs
  if h : 0 ≤ pos ∧ pos < 17 then
    let p : Fin 17 := ⟨pos.toNat, remainingPos_toNat_lt h⟩
    if p.val ≠ 16 then
      match t.resolve (cs p) pfx with
      | .error err => .error err
      | .ok (.short ckey cval _) => .ok (true, .short (UInt8.ofNat p.val :: ckey) cval t.newFlag)
      | .ok _ => .ok (true, .short [UInt8.ofNat p.val] (cs p) t.newFlag)
    else .ok (true, .short [UInt8.ofNat p.val] (cs p) t.newFlag)
  else .ok (true, .full cs t.newFlag)

theorem delete_full (fuel : Nat) (cs : Fin 17 → Node) (f : NodeFlag) (pfx key : List UInt8) :
    t.delete (fuel + 1) (.full cs f) pfx key =
      match key[0]?.bind childIndex with
      | none => .error .indexOutOfRange
      | some i =>
        match t.delete fuel (cs i) (pfx ++ key.take 1) (key.drop 1) with
        | .error err => .error err
        | .ok (dirty, nn) =>
          if !dirty then .ok (false, .full cs f) else t.reduceFull (Function.update cs i nn) pfx :=
  rfl

/-- `resolve` of a canonical node: the node a hash node stands for, any other node itself. -/
theorem resolve_of_canon (hdb : t.db.getD .empty = db) {b : Bool} {c : Node} {P : Contents}
    (hc : Canon keccak db b c P) (pfx : List UInt8) :
    ∃ r, t.resolve c pfx = .ok r ∧ Canon keccak db b r P ∧ r.hashOf? = none := by
  cases c with
  | hash hh =>
    obtain ⟨r, hres, hr, hn⟩ := resolveHash_of_canon t hdb hc
    exact ⟨r, hres pfx, hr, hn⟩
  | nil | full | short | value => exact ⟨_, rfl, hc, rfl⟩

/-- The reduction at the end of `delete`'s full-node case, after the child at the key's first
byte lost the key: a full node while two children are left, otherwise a short node over the one
child left, merged with it when it is a short node. -/
theorem reduceFull_canon (hdb : t.db.getD .empty = db) {b : Bool} {cs : Fin 17 → Node}
    {f : NodeFlag} {m : Contents} (hc : Canon keccak db b (.full cs f) m) {x : UInt8}
    {rest : List UInt8} (hk : IsKey (x :: rest)) {i : Fin 17} (hi : nibble i = x) {nn : Node}
    (hs : SlotOk keccak db i nn (Function.update (m.drop [x]) rest none)) (pfx : List UInt8) :
    ∃ n', t.reduceFull (Function.update cs i nn) pfx = .ok (true, n') ∧
      Canon keccak db b n' (Function.update m (x :: rest) none) ∧ n'.hashOf? = none := by
  set cs' := Function.update cs i nn with hcs'
  set M' : Contents := Function.update m (x :: rest) none with hM'
  have hvalid : KeysValid M' := hc.keysValid.update hk none
  have hslots : ∀ j, SlotOk keccak db j (cs' j) (M'.drop [nibble j]) := hc.slots_update hi hs
  -- a child besides the one the key went into is still there
  obtain ⟨j, hji, hj⟩ := exists_nonNil_ne hc.slots.2 i
  have hj' : (cs' j).isNil = false := by rw [hcs', Function.update_of_ne hji]; exact hj
  rcases hF : (List.finRange 17).filter (fun i => !(cs' i).isNil) with _ | ⟨p, _ | ⟨q, l⟩⟩
  · have := mem_filter_nonNil.mpr hj'
    rw [hF] at this
    cases this
  · -- one child is left, at `p`: the contents are those of that child behind its nibble
    have hpos : remainingPos cs' = (p.val : Int) := by rw [remainingPos_eq, hF]
    have honly : ∀ q, q ≠ p → (cs' q).isNil = true := by
      intro q hq
      by_contra hqn
      have := mem_filter_nonNil.mpr (Bool.of_not_eq_true hqn)
      rw [hF, List.mem_singleton] at this
      exact hq this
    have hempty : ∀ q, q ≠ p → M'.drop [nibble q] = emptyMap := by
      intro q hq
      have hnil : cs' q = .nil := Node.eq_nil_of_isNil (honly q hq)
      exact (hnil ▸ hslots q).drop_eq_empty hvalid
    have hM'p : M' = extMap [nibble p] (M'.drop [nibble p]) := eq_extMap_of_slots hvalid hempty
    have hcsp : (cs' p).isNil = false := mem_filter_nonNil.mp (by rw [hF]; simp)
    unfold reduceFull
    simp only [hpos, dif_pos (show 0 ≤ (p.val : Int) ∧ (p.val : Int) < 17 by omega),
      Int.toNat_natCast]
    by_cases h16 : p.val = 16
    · -- the value slot: a leaf with the terminator as its key
      have hp16 : p = 16 := Fin.ext h16
      subst hp16
      obtain ⟨h16c, -⟩ := slotOk_sixteen.mp (hslots 16)
      cases hv : Contents.drop M' [nibble 16] [] with
      | none => rw [hv] at h16c; rw [h16c] at hcsp; cases hcsp
      | some w =>
        rw [hv] at h16c
        have hw : w ≠ [] := fun h => (slotOk_sixteen.mp (hslots 16)).2 (by rw [hv, h])
        refine ⟨_, by rw [if_neg (by simp)], ?_, rfl⟩
        have hleaf : M'.drop [nibble 16] = leafMap [] w := by
          refine (leafMap_eq _ hv fun k hk => ?_).symm
          cases hk' : Contents.drop M' [nibble 16] k with
          | none => rfl
          | some u =>
            have := (hvalid _ u hk').eq_term
            exact absurd this hk
        rw [hM'p, hleaf, extMap_leafMap, h16c]
        exact .leaf b [] (by simp) w hw _ (flagsOk_of_dirty rfl rfl)
    · have hp16 : p.val < 16 := by omega
      have hcp : Canon keccak db false (cs' p) (M'.drop [nibble p]) :=
        (slotOk_of_lt hp16).mp (hslots p)
      obtain ⟨r, hres, hr, hrn⟩ := resolve_of_canon t hdb hcp pfx
      have hnib : Nibbles [nibble p] := by
        simp only [nibbles_cons, nibbles_nil, and_true]
        exact UInt8.lt_iff_toNat_lt.mpr (by simpa using hp16)
      rw [if_pos h16, hres]
      rw [hM'p]
      cases r with
      | short ckey cval cf =>
        refine ⟨_, rfl, ?_, rfl⟩
        exact canon_merge hnib (by simp) hr rfl rfl
      | nil =>
        obtain ⟨k, v, hk⟩ := hcp.nonempty hcsp
        exact absurd hk (by rw [hr.nil_contents]; simp [emptyMap])
      | full cs'' cf =>
        refine ⟨_, rfl, .ext b [nibble p] hnib (by simp) (cs' p) _ hcp hr.full_branching _
          (flagsOk_of_dirty rfl rfl), rfl⟩
      | hash hh => simp [Node.hashOf?] at hrn
      | value w => cases hr
  · -- two or more children are left: a full node
    have hpos : remainingPos cs' = -2 := by rw [remainingPos_eq, hF]
    have hcount : 2 ≤ Node.nonNilCount cs' := by
      unfold Node.nonNilCount
      rw [hF]
      simp
    unfold reduceFull
    simp only [hpos, dif_neg (show ¬ (0 ≤ (-2 : Int) ∧ (-2 : Int) < 17) by omega)]
    exact ⟨_, rfl, Canon.full_of_slots hvalid hslots hcount (flagsOk_of_dirty rfl rfl), rfl⟩

variable (keccak db) in
/-- What `delete` does on `n` standing for `m`: at every key with enough fuel it succeeds with a
node for `m` with the key removed; it reports a change only when the key was there, and a changed
node is never a hash node. -/
def DeleteOk (b : Bool) (n : Node) (m : Contents) : Prop :=
  ∀ {fuel : Nat} {pfx key : List UInt8}, IsKey key → n.walkCost key ≤ fuel →
    ∃ dirty n', t.delete fuel n pfx key = .ok (dirty, n') ∧
      Canon keccak db b n' (Function.update m key none) ∧ (dirty = false → m key = none) ∧
      (dirty = true → n'.hashOf? = none)

theorem deleteOk_nil (b : Bool) : DeleteOk keccak db t b .nil emptyMap := by
  intro fuel pfx key hk hfuel
  obtain ⟨fuel, rfl⟩ : ∃ f, fuel = f + 1 :=
    ⟨fuel - 1, by simp [Node.walkCost, Node.hashOf?] at hfuel; omega⟩
  refine ⟨false, .nil, rfl, ?_, fun _ => rfl, (absurd · Bool.false_ne_true)⟩
  rw [update_emptyMap_none]
  exact .nil b

/-- A leaf goes when the key is its own, and stays otherwise. -/
theorem deleteOk_leaf {b : Bool} {nkey w : List UInt8} (hnk : IsKey nkey) (hw : w ≠ [])
    {f : NodeFlag} (hf : FlagsOk keccak db b (.short nkey (.value w) f) f) :
    DeleteOk keccak db t b (.short nkey (.value w) f) (leafMap nkey w) := by
  intro fuel pfx key hk hfuel
  obtain ⟨fuel, rfl⟩ : ∃ f, fuel = f + 1 :=
    ⟨fuel - 1, by simp [Node.walkCost, Node.hashOf?] at hfuel; omega⟩
  by_cases hml : prefixLen key nkey < nkey.length
  · -- the key leaves the leaf's key
    have hne : key ≠ nkey := by
      rintro rfl
      rw [prefixLen_comm, (prefixLen_eq_length_iff _ _).mpr (List.prefix_refl _)] at hml
      exact lt_irrefl _ hml
    refine ⟨false, .short nkey (.value w) f, by simp [delete, hml], ?_,
      fun _ => leafMap_of_ne w hne,
      (absurd · Bool.false_ne_true)⟩
    rw [update_same_of_eq _ (leafMap_of_ne w hne)]
    obtain ⟨ns, hns, rfl⟩ := hnk
    exact .leaf b ns hns w hw f hf
  · have hml' : prefixLen key nkey = nkey.length :=
      le_antisymm (prefixLen_le_right _ _) (not_lt.mp hml)
    have hkey : key = nkey := (hnk.eq_of_prefix hk ((prefixLen_eq_length_iff _ _).mp hml')).symm
    subst hkey
    refine ⟨true, .nil, by simp [delete, hml'], ?_, (absurd · Bool.false_ne_true.symm),
      fun _ => rfl⟩
    rw [update_leafMap_self, update_emptyMap_none]
    exact .nil b

/-- An extension: a key through its key goes on into the child, and the extension takes over the
key of a short node the child becomes; any other key leaves it as it is. -/
theorem deleteOk_ext {b : Bool} {nkey : List UInt8} (hnk : Nibbles nkey) (hne : nkey ≠ [])
    {c : Node} {mc : Contents} (hc : Canon keccak db false c mc) (hbr : Branching mc)
    (ih : DeleteOk keccak db t false c mc) {f : NodeFlag}
    (hf : FlagsOk keccak db b (.short nkey c f) f) :
    DeleteOk keccak db t b (.short nkey c f) (extMap nkey mc) := by
  intro fuel pfx key hk hfuel
  have hfuel' : 2 * key.length + 1 ≤ fuel := by simpa [Node.walkCost, Node.hashOf?] using hfuel
  obtain ⟨fuel, rfl⟩ : ∃ f, fuel = f + 1 := ⟨fuel - 1, by omega⟩
  by_cases hml : prefixLen key nkey < nkey.length
  · -- the key leaves the extension's key: none of its keys
    have hnone : extMap nkey mc key = none := by
      simp only [extMap]
      refine if_neg fun ht => ?_
      rw [(prefixLen_eq_length_iff key nkey).mpr (List.prefix_iff_eq_take.mpr ht.symm)] at hml
      exact lt_irrefl _ hml
    refine ⟨false, .short nkey c f, by simp [delete, hml], ?_, fun _ => hnone,
      (absurd · Bool.false_ne_true)⟩
    rw [update_same_of_eq _ hnone]
    exact .ext b nkey hnk hne c mc hc hbr f hf
  · have hml' : prefixLen key nkey = nkey.length :=
      le_antisymm (prefixLen_le_right _ _) (not_lt.mp hml)
    obtain ⟨key', rfl⟩ := (prefixLen_eq_length_iff _ _).mp hml'
    have hk' : IsKey key' := hk.of_append hnk
    have hlong : nkey.length ≠ (nkey ++ key').length := by simp [hk'.ne_nil]
    have hlen : c.walkCost key' ≤ fuel := by
      have : 1 ≤ nkey.length := List.length_pos_of_ne_nil hne
      simp only [List.length_append] at hfuel'
      unfold Node.walkCost
      split <;> omega
    obtain ⟨dirty, child, hrec, hch, hsame, hhash⟩ := @ih fuel (pfx ++ nkey) key' hk' hlen
    simp only [delete, hml', lt_self_iff_false, if_false, hlong, List.take_left, List.drop_left,
      hrec]
    have hupd : Function.update (extMap nkey mc) (nkey ++ key') none =
        extMap nkey (Function.update mc key' none) := (extMap_update nkey mc key' none).symm
    cases dirty with
    | false =>
      have hm : extMap nkey mc (nkey ++ key') = none := by rw [extMap_append]; exact hsame rfl
      refine ⟨false, _, rfl, ?_, fun _ => hm, (absurd · Bool.false_ne_true)⟩
      rw [update_same_of_eq _ hm]
      exact .ext b nkey hnk hne c mc hc hbr f hf
    | true =>
      rw [hupd]
      -- the child is a short node (merged), or a full node; a nil child would hold no key
      cases child with
      | short ckey cval cf =>
        exact ⟨true, _, rfl, canon_merge hnk hne hch rfl rfl, (absurd · Bool.false_ne_true.symm),
          fun _ => rfl⟩
      | full cs cf =>
        exact ⟨true, _, rfl, .ext b nkey hnk hne _ _ hch hch.full_branching _
          (flagsOk_of_dirty rfl rfl), (absurd · Bool.false_ne_true.symm), fun _ => rfl⟩
      | nil =>
        obtain ⟨k, v, hk⟩ := hbr.update_none key'
        rw [hch.nil_contents] at hk
        cases hk
      | hash hh => simp [Node.hashOf?] at hhash
      | value w => cases hch

/-- A full node: the key goes on into the child at its first byte, or into the value slot at the
terminator, and the node is reduced if one child is left. -/
theorem deleteOk_full (hdb : t.db.getD .empty = db) {b : Bool} {cs : Fin 17 → Node}
    {ms : Fin 16 → Contents} (hcs : ∀ i : Fin 16, Canon keccak db false (cs i.castSucc) (ms i))
    (ih : ∀ i : Fin 16, DeleteOk keccak db t false (cs i.castSucc) (ms i))
    {v16 : Option (List UInt8)} (h16 : cs 16 = v16.elim .nil .value) (hv16 : v16 ≠ some [])
    (hcount : 2 ≤ Node.nonNilCount cs) {f : NodeFlag} (hf : FlagsOk keccak db b (.full cs f) f) :
    DeleteOk keccak db t b (.full cs f) (fullMap ms v16) := by
  have hc := Canon.full b cs ms hcs v16 h16 hv16 hcount f hf
  intro fuel pfx key hk hfuel
  have hfuel' : 2 * key.length + 1 ≤ fuel := by simpa [Node.walkCost, Node.hashOf?] using hfuel
  obtain ⟨fuel, rfl⟩ : ∃ f, fuel = f + 1 := ⟨fuel - 1, by omega⟩
  obtain ⟨x, rest, rfl⟩ := List.exists_cons_of_ne_nil hk.ne_nil
  have hi := childIndex_of_lt hk.head_le
  have hix : nibble ⟨x.toNat, hk.head_le⟩ = x := nibble_of_childIndex hi
  rw [delete_full]
  simp only [List.getElem?_cons_zero, Option.bind_some, hi, List.take_succ_cons, List.take_zero,
    List.drop_succ_cons, List.drop_zero]
  -- the deletion in the slot: a child below a nibble, or the value slot at the terminator
  obtain ⟨dirty, nn, hrec, hs, hsame⟩ : ∃ dirty nn,
      t.delete fuel (cs ⟨x.toNat, hk.head_le⟩) (pfx ++ [x]) rest = .ok (dirty, nn) ∧
      SlotOk keccak db ⟨x.toNat, hk.head_le⟩ nn
        (Function.update ((fullMap ms v16).drop [x]) rest none) ∧
      (dirty = false → fullMap ms v16 (x :: rest) = none) := by
    rcases hk.cons_cases with ⟨rfl, rfl⟩ | ⟨hx, hr⟩
    · obtain ⟨fuel, rfl⟩ : ∃ f, fuel = f + 1 := ⟨fuel - 1, by simp at hfuel'; omega⟩
      have hslot : SlotOk keccak db ⟨(16 : UInt8).toNat, hk.head_le⟩ .nil
          (Function.update ((fullMap ms v16).drop [16]) [] none) :=
        slotOk_sixteen.mpr ⟨by simp, by simp⟩
      have hcs16 : cs ⟨(16 : UInt8).toNat, hk.head_le⟩ = v16.elim .nil .value := h16
      rw [hcs16]
      cases v16 with
      | none => exact ⟨false, .nil, rfl, hslot, fun _ => fullMap_slot ms none⟩
      | some w => exact ⟨true, .nil, rfl, hslot, (absurd · Bool.false_ne_true.symm)⟩
    · have hlt : x.toNat < 16 := by simpa using UInt8.lt_iff_toNat_lt.mp hx
      have hlen : (cs (⟨x.toNat, hlt⟩ : Fin 16).castSucc).walkCost rest ≤ fuel := by
        simp only [List.length_cons] at hfuel'
        unfold Node.walkCost
        split <;> omega
      obtain ⟨dirty, nn, hrec, hnn, hsame, -⟩ :=
        @ih ⟨x.toNat, hlt⟩ fuel (pfx ++ [x]) rest hr hlen
      have hix' : nibble (Fin.castSucc (⟨x.toNat, hlt⟩ : Fin 16)) = x := hix
      have hdrop : (fullMap ms v16).drop [x] = ms ⟨x.toNat, hlt⟩ := by
        have := drop_fullMap_child ms v16 ⟨x.toNat, hlt⟩
        rwa [hix'] at this
      refine ⟨dirty, nn, hrec, ?_, fun h => ?_⟩
      · rw [hdrop, slotOk_of_lt hlt]
        exact hnn
      · have := fullMap_child ms v16 ⟨x.toNat, hlt⟩ rest
        rw [hix'] at this
        rw [this]
        exact hsame h
  rw [hrec]
  cases dirty with
  | false =>
    refine ⟨false, _, rfl, ?_, hsame, (absurd · Bool.false_ne_true)⟩
    rw [update_same_of_eq _ (hsame rfl)]
    exact hc
  | true =>
    obtain ⟨n', hred, hn', hhash⟩ := reduceFull_canon t hdb hc hk hix hs pfx
    exact ⟨true, n', hred, hn', (absurd · Bool.false_ne_true.symm), fun _ => hhash⟩

/-- A hash node: `delete` resolves it and deletes from the node it stands for. -/
theorem deleteOk_hash {b : Bool} {hh : List UInt8} {m : Contents} {n : Node}
    (hres : ∀ pfx, t.resolveHash hh pfx = .ok n) (hn : n.hashOf? = none)
    (hcn : Canon keccak db b n m) (ih : DeleteOk keccak db t b n m) :
    DeleteOk keccak db t b (.hash hh) m := by
  intro fuel pfx key hk hfuel
  have hfuel' : 2 * key.length + 2 ≤ fuel := by simpa [Node.walkCost, Node.hashOf?] using hfuel
  obtain ⟨fuel, rfl⟩ : ∃ f, fuel = f + 1 := ⟨fuel - 1, by omega⟩
  have hlen : n.walkCost key ≤ fuel := by
    simp only [Node.walkCost, hn, Option.isSome_none]
    simp
    omega
  obtain ⟨dirty, nn, hrec, hnn, hsame, hhash⟩ := @ih fuel pfx key hk hlen
  simp only [delete, hres, hrec]
  cases dirty with
  | false =>
    refine ⟨false, n, rfl, ?_, hsame, (absurd · Bool.false_ne_true)⟩
    rw [update_same_of_eq _ (hsame rfl)]
    exact hcn
  | true => exact ⟨true, nn, rfl, hnn, (absurd · Bool.false_ne_true.symm), hhash⟩

/-- `delete` on a canonical node succeeds at every key with enough fuel, with a canonical node for
the contents with the key removed. -/
theorem delete_canon (hdb : t.db.getD .empty = db) {b : Bool} {n : Node} {m : Contents}
    (hc : Canon keccak db b n m) : DeleteOk keccak db t b n m := by
  induction hc with
  | nil b => exact deleteOk_nil t b
  | leaf b ns hns w hw f hf => exact deleteOk_leaf t ⟨ns, hns, rfl⟩ hw hf
  | ext b ns hns hne c mc hc hbr f hf ih => exact deleteOk_ext t hns hne hc hbr ih hf
  | full b cs ms hcs v16 h16 hv16 hcount f hf ih =>
    exact deleteOk_full t hdb hcs ih h16 hv16 hcount hf
  | hash b hh blob hget hsize m dec hdec hcd ih =>
    exact deleteOk_hash t (resolveHash_eq t hdb hget hdec) (decodeNode_hashOf (hdec _)) (hcd _)
      (ih _)

end Trie

end GoGaia.Patricia
