import GoGaia.Trie.Encoding

/-!
# Contents of a trie

The abstract side of the trie: a node stands for a finite map from the rests of HEX keys below it
to non-empty values (`Contents`). A leaf holds one key, an extension the keys that start with its
own key, and a full node the keys that continue with one of sixteen nibbles, and the key that
ends at it in its value slot.

Every map whose keys are HEX keys ending in the terminator (`KeysValid`) is the full-node map of
its parts below each nibble (`fullMap_drop`), and a map whose keys share a prefix is the
extension map of its part below the prefix (`extMap_drop`); with `drop_update` these say how an
insertion or a deletion reaches the child it goes to.
-/

namespace GoGaia.Patricia

/-- The contents of a trie below a node: the value at each rest of a key. -/
abbrev Contents := List UInt8 → Option (List UInt8)

/-- The contents of a leaf. -/
def leafMap (k v : List UInt8) : Contents := fun key => if key = k then some v else none

/-- The contents of an extension with key `ns` over a child with contents `m`. -/
def extMap (ns : List UInt8) (m : Contents) : Contents :=
  fun key => if key.take ns.length = ns then m (key.drop ns.length) else none

/-- The contents of a full node: child `x` holds the keys that continue with nibble `x`, the
value slot the key that ends here. -/
def fullMap (ms : Fin 16 → Contents) (v16 : Option (List UInt8)) : Contents
  | [] => none
  | x :: rest =>
    if h : x.toNat < 16 then ms ⟨x.toNat, h⟩ rest
    else if x = 16 ∧ rest = [] then v16 else none

/-- The empty contents. -/
def emptyMap : Contents := fun _ => none

/-- Contents whose keys do not all start with the same nibble: those of a full node. -/
def Branching (m : Contents) : Prop :=
  ∃ k₁ k₂ v₁ v₂, m k₁ = some v₁ ∧ m k₂ = some v₂ ∧ k₁.head? ≠ k₂.head?

/-- The part of the contents below the prefix `p`. -/
def Contents.drop (m : Contents) (p : List UInt8) : Contents := fun k => m (p ++ k)

/-- Every key of the contents is the rest of a HEX key with the terminator. -/
def KeysValid (m : Contents) : Prop := ∀ k v, m k = some v → IsKey k

/-- The nibble of child `i` of a full node. -/
def nibble (i : Fin 17) : UInt8 := UInt8.ofNat i.val

@[simp] theorem toNat_nibble (i : Fin 17) : (nibble i).toNat = i.val := by
  simp only [nibble, UInt8.toNat_ofNat']
  exact Nat.mod_eq_of_lt (by omega)

theorem nibble_injective : Function.Injective nibble := fun i j h =>
  Fin.ext (by simpa using congrArg UInt8.toNat h)

theorem fullMap_child (ms : Fin 16 → Contents) (v16 : Option (List UInt8)) (i : Fin 16)
    (rest : List UInt8) : fullMap ms v16 (nibble i.castSucc :: rest) = ms i rest := by
  simp [fullMap, i.isLt]

theorem fullMap_slot (ms : Fin 16 → Contents) (v16 : Option (List UInt8)) :
    fullMap ms v16 [16] = v16 := by
  simp [fullMap]

theorem extMap_append (ns : List UInt8) (m : Contents) (k : List UInt8) :
    extMap ns m (ns ++ k) = m k := by
  simp [extMap]

theorem leafMap_self (k v : List UInt8) : leafMap k v k = some v := by simp [leafMap]

theorem nibble_castSucc_ofNat {x : UInt8} (h : x.toNat < 16) :
    nibble (Fin.castSucc ⟨x.toNat, h⟩) = x := by
  simp [nibble]

/-! ## Keys -/

theorem IsKey.ne_nil {k : List UInt8} (h : IsKey k) : k ≠ [] := by
  obtain ⟨ns, -, rfl⟩ := h
  simp

theorem IsKey.cons {x : UInt8} {k : List UInt8} (hx : x < 16) (h : IsKey k) : IsKey (x :: k) := by
  obtain ⟨ns, hns, rfl⟩ := h
  exact ⟨x :: ns, by simp [hx, hns], rfl⟩

theorem IsKey.append {ns k : List UInt8} (hns : Nibbles ns) (h : IsKey k) : IsKey (ns ++ k) := by
  obtain ⟨ms, hms, rfl⟩ := h
  exact ⟨ns ++ ms, by simp [hns, hms], by simp⟩

/-- The rest of a key after a nibble is a key. -/
theorem IsKey.of_cons {x : UInt8} {k : List UInt8} (h : IsKey (x :: k)) (hx : x < 16) : IsKey k := by
  obtain ⟨ns, hns, he⟩ := h
  cases ns with
  | nil =>
    simp only [List.nil_append, List.cons.injEq] at he
    exact absurd (he.1 ▸ hx) (by decide)
  | cons y ns =>
    simp only [List.cons_append, List.cons.injEq] at he
    obtain ⟨-, rfl⟩ := he
    exact ⟨ns, (nibbles_cons.mp hns).2, rfl⟩

/-- The rest of a key after nibbles is a key. -/
theorem IsKey.of_append {ns k : List UInt8} (h : IsKey (ns ++ k)) (hns : Nibbles ns) : IsKey k := by
  induction ns with
  | nil => simpa using h
  | cons x ns ih =>
    simp only [nibbles_cons] at hns
    exact ih (IsKey.of_cons (by simpa using h) hns.1) hns.2

/-- A key is the terminator alone, or a nibble followed by a key. -/
theorem IsKey.cons_cases {x : UInt8} {r : List UInt8} (h : IsKey (x :: r)) :
    (x = 16 ∧ r = []) ∨ (x < 16 ∧ IsKey r) := by
  obtain ⟨ns, hns, he⟩ := h
  cases ns with
  | nil =>
    simp only [List.nil_append, List.cons.injEq] at he
    exact .inl he
  | cons y ns =>
    simp only [List.cons_append, List.cons.injEq] at he
    obtain ⟨rfl, rfl⟩ := he
    exact .inr ⟨(nibbles_cons.mp hns).1, ns, (nibbles_cons.mp hns).2, rfl⟩

/-- What comes before a byte of a key is nibbles. -/
theorem IsKey.nibbles_of_append {p r : List UInt8} {y : UInt8} (h : IsKey (p ++ y :: r)) :
    Nibbles p := by
  obtain ⟨ns, hns, he⟩ := h
  have hlen : p.length ≤ ns.length := by
    have := congrArg List.length he
    simp only [List.length_append, List.length_cons, List.length_nil] at this
    omega
  have hp : p = ns.take p.length := by
    have := congrArg (List.take p.length) he
    rwa [List.take_left, List.take_append_of_le_length hlen] at this
  rw [hp]
  exact fun x hx => hns x (List.mem_of_mem_take hx)

/-- A key that starts with the terminator is the terminator. -/
theorem IsKey.eq_term {k : List UInt8} (h : IsKey (16 :: k)) : k = [] := by
  obtain ⟨ns, hns, he⟩ := h
  cases ns with
  | nil => simpa using he
  | cons y ns =>
    simp only [List.cons_append, List.cons.injEq] at he
    obtain ⟨rfl, -⟩ := he
    exact absurd (nibbles_cons.mp hns).1 (by decide)

/-- The first byte of a key is a nibble or the terminator. -/
theorem IsKey.head_le {x : UInt8} {k : List UInt8} (h : IsKey (x :: k)) : x.toNat < 17 := by
  obtain ⟨ns, hns, he⟩ := h
  cases ns with
  | nil =>
    simp only [List.nil_append, List.cons.injEq] at he
    rw [he.1]
    decide
  | cons y ns =>
    simp only [List.cons_append, List.cons.injEq] at he
    rw [he.1]
    have := UInt8.lt_iff_toNat_lt.mp (nibbles_cons.mp hns).1
    simp at this
    omega

/-- Of two keys, one is a prefix of the other only when they are equal: the terminator ends
both. -/
theorem IsKey.eq_of_prefix {a b : List UInt8} (ha : IsKey a) (hb : IsKey b) (h : a <+: b) :
    a = b := by
  obtain ⟨ns, hns, rfl⟩ := ha
  obtain ⟨ms, hms, rfl⟩ := hb
  obtain ⟨c, hc⟩ := h
  induction ns generalizing ms with
  | nil =>
    cases ms with
    | nil => rfl
    | cons y ms =>
      simp only [List.nil_append, List.cons_append, List.cons.injEq] at hc
      have hy := (nibbles_cons.mp hms).1
      rw [← hc.1] at hy
      exact absurd hy (by decide)
  | cons x ns ih =>
    cases ms with
    | nil =>
      simp only [List.cons_append, List.nil_append, List.cons.injEq] at hc
      have hx := (nibbles_cons.mp hns).1
      rw [hc.1] at hx
      exact absurd hx (by decide)
    | cons y ms =>
      simp only [List.cons_append, List.cons.injEq] at hc
      obtain ⟨rfl, hc⟩ := hc
      simp only [nibbles_cons] at hns hms
      rw [List.cons_append, List.cons_append, ih hns.2 ms hms.2 hc]

/-- A key is not a prefix of nibbles. -/
theorem IsKey.not_prefix_nibbles {k ns : List UInt8} (hk : IsKey k) (hns : Nibbles ns) :
    ¬ k <+: ns := by
  rintro ⟨c, rfl⟩
  obtain ⟨ms, -, rfl⟩ := hk
  exact hns.not_mem_term (by simp)

/-! ## Updates -/

theorem update_emptyMap (k v : List UInt8) :
    Function.update emptyMap k (some v) = leafMap k v := by
  funext key
  by_cases h : key = k <;> simp [Function.update, leafMap, emptyMap, h]

theorem update_leafMap_self (k w : List UInt8) (v : Option (List UInt8)) :
    Function.update (leafMap k w) k v = Function.update emptyMap k v := by
  funext key
  by_cases h : key = k <;> simp [Function.update, leafMap, emptyMap, h]

theorem update_emptyMap_none (k : List UInt8) : Function.update emptyMap k none = emptyMap := by
  funext key
  by_cases h : key = k <;> simp [Function.update, emptyMap, h]

theorem drop_update_append (m : Contents) (p k : List UInt8) (v : Option (List UInt8)) :
    Contents.drop (Function.update m (p ++ k) v) p = Function.update (m.drop p) k v := by
  funext key
  by_cases h : key = k <;> simp [Contents.drop, Function.update, h]

theorem drop_update_of_not_prefix (m : Contents) {p k : List UInt8} (v : Option (List UInt8))
    (h : ¬ p <+: k) : Contents.drop (Function.update m k v) p = m.drop p := by
  funext key
  have : p ++ key ≠ k := fun he => h ⟨key, he⟩
  simp [Contents.drop, Function.update, this]

theorem update_same_of_eq (m : Contents) {k : List UInt8} {v : Option (List UInt8)} (h : m k = v) :
    Function.update m k v = m := by
  rw [← h]
  exact Function.update_eq_self k m

/-! ## Contents as maps of their parts -/

/-- Contents whose keys all start with `ns` are the extension map of their part below `ns`. -/
theorem extMap_drop (m : Contents) (ns : List UInt8)
    (hm : ∀ k v, m k = some v → ns <+: k) : extMap ns (m.drop ns) = m := by
  funext key
  simp only [extMap, Contents.drop]
  split
  · next h =>
    congr 1
    conv_rhs => rw [← List.take_append_drop ns.length key]
    rw [h]
  · next h =>
    cases hk : m key with
    | none => rfl
    | some v =>
      have := List.prefix_iff_eq_take.mp (hm key v hk)
      exact absurd this.symm h

/-- Contents with valid keys are the full-node map of their parts below each nibble and their
value at the terminator. -/
theorem fullMap_drop (m : Contents) (hm : KeysValid m) :
    fullMap (fun j => m.drop [nibble j.castSucc]) (m [16]) = m := by
  funext key
  cases key with
  | nil =>
    cases hk : m [] with
    | none => rfl
    | some v => exact absurd rfl (hm [] v hk).ne_nil
  | cons x rest =>
    simp only [fullMap, Contents.drop]
    split
    · next h => rw [nibble_castSucc_ofNat h]; rfl
    · next h =>
      split
      · next h' => obtain ⟨rfl, rfl⟩ := h'; rfl
      · next h' =>
        cases hk : m (x :: rest) with
        | none => rfl
        | some v =>
          have hkey := hm _ v hk
          have hx := hkey.head_le
          have hx16 : x = 16 := UInt8.toNat_inj.mp (by simp; omega)
          subst hx16
          exact absurd ⟨rfl, hkey.eq_term⟩ h'

/-- The contents of a leaf are the contents with one key. -/
theorem leafMap_eq (m : Contents) {k v : List UInt8} (h₁ : m k = some v)
    (h₂ : ∀ k', k' ≠ k → m k' = none) : leafMap k v = m := by
  funext key
  by_cases h : key = k
  · subst h; simp [leafMap, h₁]
  · simp [leafMap, h, h₂ key h]

/-! ## Branching -/

theorem Branching.update {m : Contents} (hb : Branching m) (k v : List UInt8) :
    Branching (Function.update m k (some v)) := by
  obtain ⟨k₁, k₂, v₁, v₂, h₁, h₂, hne⟩ := hb
  refine ⟨k₁, k₂, if k₁ = k then v else v₁, if k₂ = k then v else v₂, ?_, ?_, hne⟩
  · by_cases h : k₁ = k <;> simp [Function.update, h, h₁]
  · by_cases h : k₂ = k <;> simp [Function.update, h, h₂]

/-! ## Valid keys -/

theorem KeysValid.update {m : Contents} (hm : KeysValid m) {k : List UInt8} (hk : IsKey k)
    (v : Option (List UInt8)) : KeysValid (Function.update m k v) := by
  intro k' v' h
  by_cases he : k' = k
  · exact he ▸ hk
  · rw [Function.update_of_ne he] at h
    exact hm k' v' h

theorem KeysValid.drop_nibbles {m : Contents} (hm : KeysValid m) {ns : List UInt8}
    (hns : Nibbles ns) : KeysValid (m.drop ns) :=
  fun _ v h => (hm _ v h).of_append hns

/-! ## Parts of contents -/

@[simp] theorem drop_nil (m : Contents) : m.drop [] = m := rfl

@[simp] theorem drop_emptyMap (p : List UInt8) : emptyMap.drop p = emptyMap := rfl

theorem drop_extMap (ns : List UInt8) (m : Contents) : (extMap ns m).drop ns = m := by
  funext k
  exact extMap_append ns m k

theorem drop_fullMap_child (ms : Fin 16 → Contents) (v16 : Option (List UInt8)) (i : Fin 16) :
    (fullMap ms v16).drop [nibble i.castSucc] = ms i := by
  funext k
  exact fullMap_child ms v16 i k

theorem prefix_of_extMap {ns : List UInt8} {m : Contents} {k v : List UInt8}
    (h : extMap ns m k = some v) : ns <+: k := by
  unfold extMap at h
  split at h
  · next he => exact List.prefix_iff_eq_take.mpr he.symm
  · cases h

theorem leafMap_of_ne {k k' : List UInt8} (v : List UInt8) (h : k' ≠ k) : leafMap k v k' = none := by
  simp [leafMap, h]

/-- A part of contents whose keys all start with `q` is empty below a prefix that differs from
`q`. -/
theorem drop_eq_empty_of_prefix {m : Contents} {p q : List UInt8}
    (hm : ∀ k v, m k = some v → q <+: k) (hpq : ¬ p <+: q) (hqp : ¬ q <+: p) :
    m.drop p = emptyMap := by
  funext k
  show m (p ++ k) = none
  cases hk : m (p ++ k) with
  | none => rfl
  | some v =>
    exfalso
    have hq := hm _ v hk
    rcases List.prefix_or_prefix_of_prefix hq (List.prefix_append p k) with h | h
    · exact hqp h
    · exact hpq h

/-! ## Extensions -/

@[simp] theorem extMap_nil (m : Contents) : extMap [] m = m := by
  funext key
  simp [extMap]

/-- A key with the prefix's length taken and dropped is the prefix and the rest. -/
theorem eq_append_of_take {p k key : List UInt8} (ht : key.take p.length = p)
    (hd : key.drop p.length = k) : key = p ++ k := by
  rw [← List.take_append_drop p.length key, ht, hd]

theorem extMap_leafMap (p k v : List UInt8) : extMap p (leafMap k v) = leafMap (p ++ k) v := by
  funext key
  by_cases h : key = p ++ k
  · subst h
    simp [extMap, leafMap]
  · simp only [extMap, leafMap, h, if_false]
    split
    · next ht => exact if_neg fun hd => h (eq_append_of_take ht hd)
    · rfl

theorem extMap_extMap (p q : List UInt8) (m : Contents) :
    extMap p (extMap q m) = extMap (p ++ q) m := by
  funext key
  simp only [extMap, List.length_append]
  by_cases h : key.take (p.length + q.length) = p ++ q
  · have hp : key.take p.length = p := by
      have := congrArg (List.take p.length) h
      rwa [List.take_take, Nat.min_eq_left (by omega), List.take_left] at this
    have hq : (key.drop p.length).take q.length = q := by
      have := congrArg (List.drop p.length) h
      rwa [← List.take_drop, List.drop_left] at this
    rw [if_pos hp, if_pos hq, if_pos h, List.drop_drop]
  · rw [if_neg h]
    split
    · next hp =>
      refine if_neg fun hq => h ?_
      rw [← List.take_append_drop p.length (key.take (p.length + q.length)), List.take_take,
        Nat.min_eq_left (by omega), hp, List.drop_take, Nat.add_sub_cancel_left, hq]
    · rfl

/-- Updating below an extension updates the extension's child. -/
theorem extMap_update (p : List UInt8) (m : Contents) (k : List UInt8) (v : Option (List UInt8)) :
    extMap p (Function.update m k v) = Function.update (extMap p m) (p ++ k) v := by
  funext key
  by_cases h : key = p ++ k
  · subst h
    simp [extMap]
  · rw [Function.update_of_ne h]
    simp only [extMap]
    split
    · next ht => exact Function.update_of_ne (fun hd => h (eq_append_of_take ht hd)) _ _
    · rfl

/-- Contents whose keys all start with `x` are empty below any other first byte. -/
theorem drop_eq_empty_of_head {m : Contents} {x y : UInt8} (hm : ∀ k v, m k = some v → [x] <+: k)
    (hxy : y ≠ x) : m.drop [y] = emptyMap :=
  drop_eq_empty_of_prefix hm (by simpa using hxy) (by simpa using Ne.symm hxy)

/-- Updating at `x :: r` changes the part below `x` only. -/
theorem drop_update_cons (m : Contents) (x y : UInt8) (r : List UInt8) (v : Option (List UInt8)) :
    Contents.drop (Function.update m (x :: r) v) [y] =
      if y = x then Function.update (m.drop [x]) r v else m.drop [y] := by
  split
  · next h =>
    subst h
    exact drop_update_append m [y] r v
  · next h => exact drop_update_of_not_prefix m v (show ¬ [y] <+: x :: r by simpa using h)

end GoGaia.Patricia
