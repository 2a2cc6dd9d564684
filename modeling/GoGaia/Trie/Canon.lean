import GoGaia.Trie.Collapse
import GoGaia.Trie.Contents
import GoGaia.Trie.Database

/-!
# Canonical tries and their contents

What a trie is for: a finite map from keys to non-empty values. Below a node, a key is the rest
of a HEX key (`IsKey`), and a node stands for the map of its contents (`Contents`): a leaf for
one key, an extension for the keys that start with its key, a full node for its children's keys
behind their nibbles and the value slot for the end of the key.

`Canon keccak db isRoot n m` says that `n` is in the canonical shape of the Ethereum trie and
stands for `m`, reading hash nodes from `db`: a short node's key is not empty and ends with the
terminator exactly when its child is a value; an extension's child holds keys that branch (so it
is a full node); a full node has at least two non-nil children; values are not empty. It also
says what the caches in the flags promise (`FlagsOk`): a cached hash is the hash of the node's
collapsed encoding, of at least 32 bytes below the root; a clean node with a cached hash is
stored under it; a clean node without one is an embedded node below the root; and the children
of a clean node are clean. `collapse` and `ref` are what `hash` computes when only hashing
(`hashMode`): the collapsed node, and the reference to it a parent stores.
-/

namespace GoGaia.Patricia

namespace Node

/-- Whether a node is clean: hash, value and nil nodes are. -/
def Clean : Node → Prop
  | .short _ _ f | .full _ f => f.dirty = false
  | _ => True

/-- The number of non-nil children of a full node. -/
def nonNilCount (cs : Fin 17 → Node) : Nat := ((List.finRange 17).filter fun i => !(cs i).isNil).length

end Node

section
variable (keccak : List UInt8 → List UInt8) (db : MemDatabase)

/-- What the flags of a full or short node `n` at the root or below promise. -/
structure FlagsOk (isRoot : Bool) (n : Node) (f : NodeFlag) : Prop where
  hash_eq : ∀ hh, f.hash = some hh → hh = keccak (encodeNode (collapse keccak n))
  hash_size : ∀ hh, f.hash = some hh → isRoot = false → 32 ≤ (encodeNode (collapse keccak n)).length
  stored : f.dirty = false → ∀ hh, f.hash = some hh →
    db.get hh = some (encodeNode (collapse keccak n))
  embedded : f.dirty = false → f.hash = none →
    isRoot = false ∧ (encodeNode (collapse keccak n)).length < 32
  clean_children : f.dirty = false → ∀ i, (n.child i).Clean

/-- A canonical node standing for contents `m`, at the root (`isRoot`) or below it, with hash
nodes read from `db`. -/
inductive Canon : Bool → Node → Contents → Prop where
  | nil (isRoot : Bool) : Canon isRoot .nil emptyMap
  | leaf (isRoot : Bool) (ns : List UInt8) (hns : Nibbles ns) (v : List UInt8) (hv : v ≠ [])
      (f : NodeFlag) (hf : FlagsOk keccak db isRoot (.short (ns ++ [16]) (.value v) f) f) :
      Canon isRoot (.short (ns ++ [16]) (.value v) f) (leafMap (ns ++ [16]) v)
  | ext (isRoot : Bool) (ns : List UInt8) (hns : Nibbles ns) (hne : ns ≠ []) (c : Node)
      (mc : Contents) (hc : Canon false c mc) (hbr : Branching mc) (f : NodeFlag)
      (hf : FlagsOk keccak db isRoot (.short ns c f) f) :
      Canon isRoot (.short ns c f) (extMap ns mc)
  | full (isRoot : Bool) (cs : Fin 17 → Node) (ms : Fin 16 → Contents)
      (hcs : ∀ i : Fin 16, Canon false (cs i.castSucc) (ms i)) (v16 : Option (List UInt8))
      (h16 : cs 16 = v16.elim .nil .value) (hv16 : v16 ≠ some [])
      (hcount : 2 ≤ Node.nonNilCount cs) (f : NodeFlag)
      (hf : FlagsOk keccak db isRoot (.full cs f) f) :
      Canon isRoot (.full cs f) (fullMap ms v16)
  | hash (isRoot : Bool) (hh blob : List UInt8) (hget : db.get hh = some blob)
      (hsize : isRoot = false → 32 ≤ blob.length) (m : Contents) (dec : UInt16 → Node)
      (hdec : ∀ gen, decodeNode blob.length (some hh) blob gen = .ok (dec gen))
      (hc : ∀ gen, Canon isRoot (dec gen) m) :
      Canon isRoot (.hash hh) m

end

/-! ## Contents -/

theorem decodeShort_isNil {dec : List UInt8 → Except NodeError Node} {hash : Option (List UInt8)}
    {elems : List UInt8} {gen : UInt16} {n : Node} (hd : decodeShort dec hash elems gen = .ok n) :
    n.isNil = false := by
  unfold decodeShort at hd
  repeat' split at hd
  all_goals (cases hd <;> rfl)

theorem decodeFull_isNil {dec : List UInt8 → Except NodeError Node} {hash : Option (List UInt8)}
    {elems : List UInt8} {gen : UInt16} {n : Node} (hd : decodeFull dec hash elems gen = .ok n) :
    n.isNil = false := by
  unfold decodeFull at hd
  repeat' split at hd
  all_goals (cases hd <;> rfl)

theorem mapError_eq_ok {ε ε' α : Type} {x : Except ε α} {f : ε → ε'} {a : α}
    (h : x.mapError f = .ok a) : x = .ok a := by
  cases x <;> simp_all [Except.mapError]

theorem decodeShort_cases {dec : List UInt8 → Except NodeError Node} {hash : Option (List UInt8)}
    {elems : List UInt8} {gen : UInt16} {n : Node} (hd : decodeShort dec hash elems gen = .ok n) :
    ∃ k v f, n = .short k v f := by
  unfold decodeShort at hd
  repeat' split at hd
  all_goals (cases hd <;> exact ⟨_, _, _, rfl⟩)

theorem decodeFull_cases {dec : List UInt8 → Except NodeError Node} {hash : Option (List UInt8)}
    {elems : List UInt8} {gen : UInt16} {n : Node} (hd : decodeFull dec hash elems gen = .ok n) :
    ∃ cs f, n = .full cs f := by
  unfold decodeFull at hd
  repeat' split at hd
  all_goals (cases hd <;> exact ⟨_, _, rfl⟩)

/-- A node `decodeNode` returns is a short or a full node. -/
theorem decodeNode_isNil {fuel : Nat} {h : Option (List UInt8)} {buf : List UInt8} {gen : UInt16}
    {n : Node} (hd : decodeNode fuel h buf gen = .ok n) : n.isNil = false := by
  match fuel, hd with
  | fuel + 1, hd =>
    simp only [decodeNode] at hd
    split at hd
    · cases hd
    · split at hd
      · cases hd
      · -- the splitter's panic while counting the values
        split at hd
        · cases hd
        · split at hd
          · exact decodeShort_isNil (mapError_eq_ok hd)
          · exact decodeFull_isNil (mapError_eq_ok hd)
          · cases hd

/-- A node `decodeNode` returns is not a hash node. -/
theorem decodeNode_hashOf {fuel : Nat} {h : Option (List UInt8)} {buf : List UInt8}
    {gen : UInt16} {n : Node} (hd : decodeNode fuel h buf gen = .ok n) : n.hashOf? = none := by
  match fuel, hd with
  | fuel + 1, hd =>
    simp only [decodeNode] at hd
    split at hd
    · cases hd
    · split at hd
      · cases hd
      · split at hd
        · cases hd
        · split at hd
          · obtain ⟨_, _, _, rfl⟩ := decodeShort_cases (mapError_eq_ok hd)
            rfl
          · obtain ⟨_, _, rfl⟩ := decodeFull_cases (mapError_eq_ok hd)
            rfl
          · cases hd

/-- A decoded short node carries the hash it was decoded under and the generation, and is
clean. -/
theorem decodeShort_flags {dec : List UInt8 → Except NodeError Node} {hash : Option (List UInt8)}
    {elems : List UInt8} {gen : UInt16} {n : Node} (hd : decodeShort dec hash elems gen = .ok n) :
    ∃ k v, n = .short k v ⟨hash, gen, false⟩ := by
  unfold decodeShort at hd
  repeat' split at hd
  all_goals (cases hd <;> exact ⟨_, _, rfl⟩)

theorem decodeFull_flags {dec : List UInt8 → Except NodeError Node} {hash : Option (List UInt8)}
    {elems : List UInt8} {gen : UInt16} {n : Node} (hd : decodeFull dec hash elems gen = .ok n) :
    ∃ cs, n = .full cs ⟨hash, gen, false⟩ := by
  unfold decodeFull at hd
  repeat' split at hd
  all_goals (cases hd <;> exact ⟨_, rfl⟩)

/-- A node `decodeNode` returns is a short or a full node with the hash it was decoded under, the
generation, and clean flags. -/
theorem decodeNode_flags {fuel : Nat} {h : Option (List UInt8)} {buf : List UInt8}
    {gen : UInt16} {n : Node} (hd : decodeNode fuel h buf gen = .ok n) :
    (∃ k v, n = .short k v ⟨h, gen, false⟩) ∨ ∃ cs, n = .full cs ⟨h, gen, false⟩ := by
  match fuel, hd with
  | fuel + 1, hd =>
    simp only [decodeNode] at hd
    split at hd
    · cases hd
    · split at hd
      · cases hd
      · split at hd
        · cases hd
        · split at hd
          · exact .inl (decodeShort_flags (mapError_eq_ok hd))
          · exact .inr (decodeFull_flags (mapError_eq_ok hd))
          · cases hd

section
variable {keccak : List UInt8 → List UInt8} {db : MemDatabase}

/-- A node other than nil holds a value. -/
theorem Canon.nonempty {b : Bool} {n : Node} {m : Contents} (hc : Canon keccak db b n m) :
    n.isNil = false → ∃ k v, m k = some v := by
  induction hc with
  | nil => simp [Node.isNil]
  | leaf _ ns _ v => exact fun _ => ⟨_, v, leafMap_self _ _⟩
  | ext _ ns _ _ c mc _ hbr =>
    obtain ⟨k, -, v, -, hk, -⟩ := hbr
    exact fun _ => ⟨ns ++ k, v, by rw [extMap_append, hk]⟩
  | full _ cs ms _ v16 h16 _ hcount _ _ ih =>
    intro _
    obtain ⟨i, hi⟩ : ∃ i, (cs i).isNil = false := by
      by_contra hall
      simp only [not_exists, Bool.not_eq_false] at hall
      have : Node.nonNilCount cs = 0 := by simp [Node.nonNilCount, hall]
      omega
    by_cases h16' : i.val < 16
    · let j : Fin 16 := ⟨i.val, h16'⟩
      have hij : i = j.castSucc := Fin.ext rfl
      obtain ⟨k, v, hk⟩ := ih j (by rw [← hij]; exact hi)
      exact ⟨nibble j.castSucc :: k, v, by rw [fullMap_child]; exact hk⟩
    · have : i = 16 := Fin.ext (by omega)
      subst this
      cases v16 with
      | none => simp [h16, Node.isNil] at hi
      | some v => exact ⟨[16], v, fullMap_slot ms _⟩
  | hash _ _ _ _ _ _ dec hdec _ ih => exact fun _ => ih 0 (decodeNode_isNil (hdec 0))

end

/-! ## Children of full nodes -/

theorem two_le_nonNilCount {cs : Fin 17 → Node} {i j : Fin 17} (hij : i ≠ j)
    (hi : (cs i).isNil = false) (hj : (cs j).isNil = false) : 2 ≤ Node.nonNilCount cs := by
  have hsub : [i, j] ⊆ (List.finRange 17).filter fun k => !(cs k).isNil := by
    intro k hk
    simp only [List.mem_cons, List.not_mem_nil, or_false] at hk
    rcases hk with rfl | rfl <;> simp [hi, hj]
  exact (show [i, j].Nodup by simp [hij]).length_le_of_subset hsub

/-- A full node with two non-nil children has one besides any given child. -/
theorem exists_nonNil_ne {cs : Fin 17 → Node} (h : 2 ≤ Node.nonNilCount cs) (i : Fin 17) :
    ∃ j, j ≠ i ∧ (cs j).isNil = false := by
  by_contra hall
  simp only [not_exists, not_and, Bool.not_eq_false] at hall
  have hsub : ((List.finRange 17).filter fun k => !(cs k).isNil) ⊆ [i] := by
    intro k hk
    simp only [List.mem_filter, List.mem_finRange, true_and, Bool.not_eq_eq_eq_not,
      Bool.not_true] at hk
    by_cases hki : k = i
    · simp [hki]
    · simp [hall k hki] at hk
  have := ((List.nodup_finRange 17).filter _).length_le_of_subset hsub
  unfold Node.nonNilCount at h
  simp at this
  omega

/-! ## Building canonical nodes -/

@[simp] theorem nibble_sixteen : nibble 16 = 16 := rfl

section
variable {keccak : List UInt8 → List UInt8} {db : MemDatabase}

/-- Flags without a cached hash that mark the node dirty promise nothing: those of a node the
trie functions have just made. -/
theorem flagsOk_of_dirty {b : Bool} {n : Node} {f : NodeFlag} (hh : f.hash = none)
    (hd : f.dirty = true) : FlagsOk keccak db b n f where
  hash_eq _ h := by simp [hh] at h
  hash_size _ h := by simp [hh] at h
  stored h := by simp [hd] at h
  embedded h := by simp [hd] at h
  clean_children h := by simp [hd] at h

/-- The keys of canonical contents are keys. -/
theorem Canon.keysValid {b : Bool} {n : Node} {m : Contents} (hc : Canon keccak db b n m) :
    KeysValid m := by
  induction hc with
  | nil => intro k v h; simp [emptyMap] at h
  | leaf _ ns hns v =>
    intro k w h
    by_cases hk : k = ns ++ [16]
    · exact hk ▸ ⟨ns, hns, rfl⟩
    · simp [leafMap, hk] at h
  | ext _ ns hns _ c mc _ _ _ _ ih =>
    intro k w h
    obtain ⟨k', rfl⟩ := prefix_of_extMap h
    rw [extMap_append] at h
    exact (ih k' w h).append hns
  | full _ cs ms _ v16 _ _ _ _ _ ih =>
    intro k w h
    cases k with
    | nil => simp [fullMap] at h
    | cons x rest =>
      simp only [fullMap] at h
      split at h
      · next hx =>
        exact (ih ⟨x.toNat, hx⟩ rest w h).cons (UInt8.lt_iff_toNat_lt.mpr (by simpa using hx))
      · split at h
        · next hx =>
          obtain ⟨rfl, rfl⟩ := hx
          exact ⟨[], by simp, rfl⟩
        · cases h
  | hash _ _ _ _ _ _ _ _ _ ih => exact ih 0

/-- A canonical node with a key in its contents is not nil. -/
theorem Canon.isNil_eq_false {b : Bool} {n : Node} {m : Contents} (hc : Canon keccak db b n m)
    {k v : List UInt8} (hk : m k = some v) : n.isNil = false := by
  cases hc <;> first | rfl | simp [emptyMap] at hk

theorem Canon.nil_contents {b : Bool} {m : Contents} (hc : Canon keccak db b .nil m) :
    m = emptyMap := by
  cases hc
  rfl

end

section
variable (keccak : List UInt8 → List UInt8) (db : MemDatabase)

/-- What child `i` of a full node must be for the part `P` of the contents below its nibble: a
canonical node below a nibble; below the terminator, nil or the non-empty value that ends there. -/
def SlotOk (i : Fin 17) (c : Node) (P : Contents) : Prop :=
  if i.val < 16 then Canon keccak db false c P else c = (P []).elim .nil .value ∧ P [] ≠ some []

end

section
variable {keccak : List UInt8 → List UInt8} {db : MemDatabase}

theorem slotOk_nil (i : Fin 17) : SlotOk keccak db i .nil emptyMap := by
  unfold SlotOk
  split
  · exact .nil false
  · exact ⟨rfl, by simp [emptyMap]⟩

theorem slotOk_of_lt {i : Fin 17} (hi : i.val < 16) {c : Node} {P : Contents} :
    SlotOk keccak db i c P ↔ Canon keccak db false c P := by
  rw [SlotOk, if_pos hi]

theorem slotOk_sixteen {c : Node} {P : Contents} :
    SlotOk keccak db 16 c P ↔ c = (P []).elim .nil .value ∧ P [] ≠ some [] := by
  rw [SlotOk, if_neg (by decide)]

/-- A full node is canonical for contents whose part below each nibble its child stands for. -/
theorem Canon.full_of_slots {b : Bool} {cs : Fin 17 → Node} {M : Contents} (hM : KeysValid M)
    (hs : ∀ i, SlotOk keccak db i (cs i) (M.drop [nibble i]))
    (hcount : 2 ≤ Node.nonNilCount cs) {f : NodeFlag} (hf : FlagsOk keccak db b (.full cs f) f) :
    Canon keccak db b (.full cs f) M := by
  have hcs : ∀ j : Fin 16, Canon keccak db false (cs j.castSucc) (M.drop [nibble j.castSucc]) :=
    fun j => (slotOk_of_lt (by simp)).mp (hs j.castSucc)
  have h16 := slotOk_sixteen.mp (hs 16)
  have hc := Canon.full b cs _ hcs (M [16]) h16.1 h16.2 hcount f hf
  rwa [fullMap_drop M hM] at hc

/-- The children of a canonical full node stand for the parts of its contents. -/
theorem Canon.slots {b : Bool} {cs : Fin 17 → Node} {f : NodeFlag} {m : Contents}
    (hc : Canon keccak db b (.full cs f) m) :
    (∀ i, SlotOk keccak db i (cs i) (m.drop [nibble i])) ∧ 2 ≤ Node.nonNilCount cs := by
  cases hc with
  | full _ _ ms hcs v16 h16 hv16 hcount =>
    refine ⟨fun i => ?_, hcount⟩
    by_cases hi : i.val < 16
    · have hij : i = (⟨i.val, hi⟩ : Fin 16).castSucc := Fin.ext rfl
      rw [slotOk_of_lt hi, hij, drop_fullMap_child]
      exact hcs _
    · have : i = 16 := Fin.ext (by omega)
      subst this
      rw [slotOk_sixteen]
      exact ⟨h16, by simpa [Contents.drop, fullMap_slot] using hv16⟩

/-- A slot that is nil stands for no keys. -/
theorem SlotOk.drop_eq_empty {i : Fin 17} {M : Contents}
    (hs : SlotOk keccak db i .nil (M.drop [nibble i])) (hM : KeysValid M) :
    M.drop [nibble i] = emptyMap := by
  by_cases hi : i.val < 16
  · exact ((slotOk_of_lt hi).mp hs).nil_contents
  · have : i = 16 := Fin.ext (by omega)
    subst this
    funext k
    cases hk : Contents.drop M [nibble 16] k with
    | none => rfl
    | some v =>
      exfalso
      have hkey := hM _ v hk
      rw [nibble_sixteen] at hkey
      have hk0 := hkey.eq_term
      subst hk0
      have h16 := (slotOk_sixteen.mp hs).1
      rw [hk] at h16
      cases h16

/-- The two kinds of canonical short node: a leaf, and an extension over contents that branch. -/
theorem Canon.short_cases {b : Bool} {k : List UInt8} {c : Node} {f : NodeFlag} {m : Contents}
    (hc : Canon keccak db b (.short k c f) m) :
    (∃ ns w, Nibbles ns ∧ k = ns ++ [16] ∧ c = .value w ∧ w ≠ [] ∧ m = leafMap k w) ∨
      (Nibbles k ∧ k ≠ [] ∧ ∃ mc, Canon keccak db false c mc ∧ Branching mc ∧ m = extMap k mc) := by
  cases hc with
  | leaf _ ns hns w hw => exact .inl ⟨ns, w, hns, rfl, rfl, hw, rfl⟩
  | ext _ _ hns hne _ mc hc hbr => exact .inr ⟨hns, hne, mc, hc, hbr, rfl⟩

/-- The contents of a canonical full node branch: two of its children hold keys. -/
theorem Canon.full_branching {b : Bool} {cs : Fin 17 → Node} {f : NodeFlag} {m : Contents}
    (hc : Canon keccak db b (.full cs f) m) : Branching m := by
  obtain ⟨hs, hcount⟩ := hc.slots
  have hM := hc.keysValid
  -- a non-nil slot holds a key behind its nibble
  have hkey : ∀ i, (cs i).isNil = false → ∃ k v, m (nibble i :: k) = some v := by
    intro i hi
    by_cases h16 : i.val < 16
    · obtain ⟨k, v, hk⟩ := ((slotOk_of_lt h16).mp (hs i)).nonempty hi
      exact ⟨k, v, hk⟩
    · have : i = 16 := Fin.ext (by omega)
      subst this
      have h := (slotOk_sixteen.mp (hs 16)).1
      cases hv : Contents.drop m [nibble 16] [] with
      | none => rw [hv] at h; rw [h] at hi; cases hi
      | some v => exact ⟨[], v, hv⟩
  obtain ⟨i, hi⟩ : ∃ i, (cs i).isNil = false := by
    obtain ⟨j, -, hj⟩ := exists_nonNil_ne hcount 0
    exact ⟨j, hj⟩
  obtain ⟨j, hji, hj⟩ := exists_nonNil_ne hcount i
  obtain ⟨k₁, v₁, h₁⟩ := hkey i hi
  obtain ⟨k₂, v₂, h₂⟩ := hkey j hj
  exact ⟨_, _, v₁, v₂, h₁, h₂, by simpa using fun h => hji (nibble_injective h).symm⟩

/-- Contents with nothing below the nibbles but one are the extension of their part below it. -/
theorem eq_extMap_of_slots {M : Contents} (hM : KeysValid M) {p : Fin 17}
    (hq : ∀ q, q ≠ p → M.drop [nibble q] = emptyMap) : M = extMap [nibble p] (M.drop [nibble p]) := by
  refine (extMap_drop M [nibble p] fun k v hk => ?_).symm
  obtain ⟨x, r, rfl⟩ := List.exists_cons_of_ne_nil (hM k v hk).ne_nil
  have hx := (hM _ v hk).head_le
  by_cases hxp : (⟨x.toNat, hx⟩ : Fin 17) = p
  · subst hxp
    exact ⟨r, by simp [nibble]⟩
  · have hn : nibble ⟨x.toNat, hx⟩ = x := by simp [nibble]
    have := congrFun (hq _ hxp) r
    simp only [Contents.drop, hn, List.singleton_append, emptyMap] at this
    rw [this] at hk
    cases hk

end


end GoGaia.Patricia
