import GoGaia.Trie.Runs

/-!
# The nodes a trie encodes

Before a node is encoded, hashed and stored, `hashChildren` collapses it (`trie/hasher.go:101`):
the key in compact form, each child replaced by the reference `hash` returns for it, nil children
by empty strings. `decodeNode` reads such an encoding back (`trie/node.go:116`).

The nodes of a trie are those `Reaches` names: the root, the children of a node reached, and the
node stored under a hash node reached, as `resolveHash` decodes it. In a trie whose root stands
for its contents every node reached is canonical, or a value node (`Canon.reaches`), and the
collapsed form of a canonical short or full node is a collapsed node of the codec
(`Canon.collapsed`): the references of its children are hashes of 32 bytes, or collapsed nodes of
fewer than 32 bytes (`Canon.collapsedRef`). Its encoding therefore decodes to the collapsed node
with the keys back in HEX form (`reachable_node_codec_round_trip`).

Two facts of the setting carry the sizes. Keccak-256 makes 32 bytes, and the database is keyed by
the hash of each value it holds (`Keyed`), so a hash node read from it has 32 bytes. And the keys
and values are shorter than `sizeBound` (`Bounded`), the weakest bound under which every header of
an encoding is canonical; Go's slices are far shorter.
-/

namespace GoGaia.Patricia

/-! ## Bounded contents -/

/-- Keys and values shorter than `sizeBound`. -/
def Bounded (m : Contents) : Prop :=
  ∀ k v, m k = some v → k.length < sizeBound ∧ v.length < sizeBound

theorem Bounded.drop {m : Contents} (hm : Bounded m) (p : List UInt8) : Bounded (m.drop p) := by
  intro k v hk
  obtain ⟨hlk, hlv⟩ := hm _ _ hk
  simp only [List.length_append] at hlk
  exact ⟨by omega, hlv⟩

theorem bounded_emptyMap : Bounded emptyMap := by
  intro k v h
  cases h

theorem bounded_leafMap {k v : List UInt8} (hk : k.length < sizeBound) (hv : v.length < sizeBound) :
    Bounded (leafMap k v) := by
  intro k' v' h
  simp only [leafMap] at h
  split at h
  · next he =>
    cases h
    exact ⟨he ▸ hk, hv⟩
  · cases h

/-- An extension's key is shorter than the keys below it. -/
theorem Bounded.ext_key {ns : List UInt8} {mc : Contents} (hm : Bounded (extMap ns mc))
    (hbr : Branching mc) : ns.length < sizeBound := by
  obtain ⟨k, -, v, -, hk, -⟩ := hbr
  have := (hm (ns ++ k) v (by rw [extMap_append]; exact hk)).1
  simp only [List.length_append] at this
  omega

/-! ## Hashes of 32 bytes -/

section
variable {keccak : List UInt8 → List UInt8} {db : MemDatabase}

/-- A hash under which a database keyed by Keccak-256 holds a value has 32 bytes. -/
theorem Keyed.length_of_get (hk : ∀ x, (keccak x).length = 32) (hkeyed : Keyed keccak db)
    {hh blob : List UInt8} (h : db.get hh = some blob) : hh.length = 32 := by
  have e : hh = keccak blob := hkeyed _ (MemDatabase.mem_of_get h)
  rw [e]
  exact hk blob

/-- A hash cached in the flags of a canonical node has 32 bytes. -/
theorem FlagsOk.hash_length (hk : ∀ x, (keccak x).length = 32) {b : Bool} {n : Node}
    {f : NodeFlag} (hf : FlagsOk keccak db b n f) (hh : List UInt8) (h : f.hash = some hh) :
    hh.length = 32 := by
  rw [hf.hash_eq hh h]
  exact hk _

/-- The reference of a node other than a hash node, whose cached hash has 32 bytes and whose
collapsed form is a collapsed node: its cached hash, the hash of its encoding, or the collapsed
node itself when that is shorter than 32 bytes. -/
theorem collapsedRef_ref (hk : ∀ x, (keccak x).length = 32) {n : Node} (hn : n.hashOf? = none)
    (hcache : ∀ hh, n.cache.1 = some hh → hh.length = 32) (hcol : Collapsed (collapse keccak n)) :
    CollapsedRef (ref keccak n) := by
  cases hc : n.cache.1 with
  | some hh =>
    rw [ref_of_cache keccak hc]
    exact .hash hh (hcache hh hc)
  | none =>
    rw [ref_of_no_cache keccak hc hn, storedRef]
    split
    · next hlt => exact .embedded _ hcol hlt
    · exact .hash _ (hk _)

/-! ## Canonical nodes collapse to collapsed nodes -/

/-- The reference of a non-nil canonical child, whose collapsed form is a collapsed node unless
it is a hash node, is a child reference of the codec. -/
theorem Canon.collapsedRef (hk : ∀ x, (keccak x).length = 32) (hkeyed : Keyed keccak db)
    {c : Node} {mc : Contents} (hc : Canon keccak db false c mc) (hn : c.isNil = false)
    (hcol : c.hashOf? = none → Collapsed (collapse keccak c)) : CollapsedRef (ref keccak c) := by
  cases hc with
  | nil => cases hn
  | leaf _ _ _ _ _ f hf => exact collapsedRef_ref hk rfl (hf.hash_length hk) (hcol rfl)
  | ext _ _ _ _ _ _ _ _ f hf => exact collapsedRef_ref hk rfl (hf.hash_length hk) (hcol rfl)
  | full _ _ _ _ _ _ _ _ f hf => exact collapsedRef_ref hk rfl (hf.hash_length hk) (hcol rfl)
  | hash _ hh _ hget _ _ _ _ _ =>
    rw [ref_hash]
    exact .hash hh (hkeyed.length_of_get hk hget)

/-- The value slot of a collapsed full node: an empty string for no value. -/
theorem emptyIfNil_slot (v16 : Option (List UInt8)) :
    emptyIfNil (v16.elim .nil .value) = .value (v16.getD []) := by
  cases v16 <;> rfl

/-- The collapsed form of a canonical short or full node with bounded contents is a collapsed
node. By induction on the canonical node: the children's references come from the induction
hypotheses through `Canon.collapsedRef`, the sizes from the bound on the contents. -/
theorem Canon.collapsed (hk : ∀ x, (keccak x).length = 32) (hkeyed : Keyed keccak db)
    {b : Bool} {n : Node} {m : Contents} (hc : Canon keccak db b n m) :
    Bounded m → n.hashOf? = none → n.isNil = false → Collapsed (collapse keccak n) := by
  induction hc with
  | nil => intro _ _ hn; cases hn
  | leaf _ ns hns v _ f _ =>
    intro hm _ _
    have hb := hm _ _ (leafMap_self (ns ++ [16]) v)
    simp only [List.length_append, List.length_singleton] at hb
    rw [collapse_short]
    exact .leaf ns hns (by omega) v hb.2 f
  | ext _ ns hns _ c mc hc hbr f _ ih =>
    intro hm _ _
    have hcn : c.isNil = false := by
      obtain ⟨k, -, v, -, hk', -⟩ := hbr
      exact hc.isNil_eq_false hk'
    have hcv : c.isValue = false := by cases hc <;> rfl
    have hmc : Bounded mc := drop_extMap ns mc ▸ hm.drop ns
    have hr := hc.collapsedRef hk hkeyed hcn fun hh => ih hmc hh hcn
    rw [collapse_short, hcv, if_neg Bool.false_ne_true, emptyIfNil, isNil_ref, hcn, if_neg
      Bool.false_ne_true]
    exact .ext ns hns (hm.ext_key hbr) _ hr f
  | full _ cs ms hcs v16 h16 _ _ f _ ih =>
    intro hm _ _
    rw [collapse_full]
    refine .full _ (fun i => ?_) (v16.getD []) ?_ ?_ f
    · -- a child reference for each nibble: empty for a nil child
      have hi : (i.castSucc : Fin 17).val < 16 := i.isLt
      simp only [hi, if_true]
      split
      · exact .empty
      · next hn =>
        have hn : (cs i.castSucc).isNil = false := by simpa using hn
        have hmi : Bounded (ms i) := drop_fullMap_child ms v16 i ▸ hm.drop _
        exact (hcs i).collapsedRef hk hkeyed hn fun hh => ih i hmi hh hn
    · cases v16 with
      | none => simp [sizeBound]
      | some w => exact (hm [16] w (fullMap_slot ms (some w))).2
    · simp only [show ¬ ((16 : Fin 17).val < 16) by decide, if_false, h16, emptyIfNil_slot]
  | hash => intro _ hh; cases hh

end

/-! ## The nodes of a trie -/

/-- The nodes reached from `root` over `db`: the root, the children of a node reached, and the
node stored under a hash node reached, decoded as `resolveHash` decodes it (in any generation). -/
inductive Reaches (db : MemDatabase) (root : Node) : Node → Prop where
  | root : Reaches db root root
  | child {n : Node} (i : Fin 17) : Reaches db root n → Reaches db root (n.child i)
  | resolve {hh blob : List UInt8} {gen : UInt16} {n : Node} : Reaches db root (.hash hh) →
      db.get hh = some blob → decodeNode blob.length (some hh) blob gen = .ok n →
      Reaches db root n

section
variable {keccak : List UInt8 → List UInt8} {db : MemDatabase}

/-- The children of a canonical node with bounded contents are value nodes, or canonical with
bounded contents. -/
theorem Canon.child {b : Bool} {n : Node} {m : Contents} (hc : Canon keccak db b n m)
    (hm : Bounded m) (i : Fin 17) :
    (n.child i).isValue = true ∨ ∃ b' m', Canon keccak db b' (n.child i) m' ∧ Bounded m' := by
  cases hc with
  | nil => exact .inr ⟨b, emptyMap, .nil b, bounded_emptyMap⟩
  | leaf => exact .inl rfl
  | ext _ ns _ _ c mc hc _ _ _ => exact .inr ⟨false, mc, hc, drop_extMap ns mc ▸ hm.drop ns⟩
  | full _ cs ms hcs v16 h16 _ _ _ _ =>
    by_cases hi : i.val < 16
    · have hij : i = (⟨i.val, hi⟩ : Fin 16).castSucc := Fin.ext rfl
      rw [hij]
      exact .inr ⟨false, _, hcs _, drop_fullMap_child ms v16 _ ▸ hm.drop _⟩
    · -- the value slot: nil or a value node
      have : i = 16 := Fin.ext (by omega)
      subst this
      show (cs 16).isValue = true ∨ ∃ b' m', Canon keccak db b' (cs 16) m' ∧ Bounded m'
      rw [h16]
      cases v16 with
      | none => exact .inr ⟨false, emptyMap, .nil false, bounded_emptyMap⟩
      | some w => exact .inl rfl
  | hash => exact .inr ⟨false, emptyMap, .nil false, bounded_emptyMap⟩

/-- Every node reached in a canonical trie with bounded contents is a value node, or canonical
with bounded contents. By induction on the reach: a child by `Canon.child`, a resolved node by
the hash case of `Canon`, which holds for the node decoded in every generation. -/
theorem Canon.reaches {b : Bool} {root : Node} {m : Contents} (hc : Canon keccak db b root m)
    (hm : Bounded m) {n : Node} (hr : Reaches db root n) :
    n.isValue = true ∨ ∃ b' m', Canon keccak db b' n m' ∧ Bounded m' := by
  induction hr with
  | root => exact .inr ⟨b, m, hc, hm⟩
  | child i _ ih =>
    rcases ih with hv | ⟨b', m', hc', hm'⟩
    · -- a value node has no children
      rename_i n _
      cases n with
      | value v => exact .inr ⟨false, emptyMap, .nil false, bounded_emptyMap⟩
      | _ => cases hv
    · exact hc'.child hm' i
  | resolve _ hget hdec ih =>
    rcases ih with hv | ⟨b', m', hc', hm'⟩
    · cases hv
    · cases hc' with
      | hash _ _ blob' hget' _ _ dec hdec' hcd =>
        rw [hget] at hget'
        cases hget'
        rw [hdec'] at hdec
        cases hdec
        exact .inr ⟨b', m', hcd _, hm'⟩

end

/-! ## The codec on the nodes of a trie -/

/-- In a trie whose root stands for contents with keys and values shorter than `sizeBound`, over
a database keyed by Keccak-256, every short or full node reached collapses, as `hashChildren`
collapses it, to a collapsed node, and `decodeNode` reads its encoding back as that node with the
keys in HEX form: a value node below a key with the terminator, the child's reference decoded
below one without (an embedded node, a hash node, nil for an empty string), and the value slot of
a full node only when it is not empty. -/
theorem reachable_node_codec_round_trip {keccak : List UInt8 → List UInt8} {t : Trie}
    {m : Contents} (hk : ∀ x, (keccak x).length = 32) (hkeyed : Keyed keccak (t.db.getD .empty))
    (hc : t.Stands keccak m) (hm : Bounded m) {n : Node}
    (hr : Reaches (t.db.getD .empty) t.root n) (hn : n.isNil = false) (hh : n.hashOf? = none)
    (hv : n.isValue = false) (h : Option (List UInt8)) (gen : UInt16) :
    Collapsed (collapse keccak n) ∧
      decodeNode (encodeNode (collapse keccak n)).length h (encodeNode (collapse keccak n)) gen =
        .ok ((collapse keccak n).decoded gen h) := by
  rcases Canon.reaches hc hm hr with hv' | ⟨b', m', hc', hm'⟩
  · rw [hv] at hv'
    cases hv'
  · have hcol := hc'.collapsed hk hkeyed hm' hh hn
    refine ⟨hcol, ?_⟩
    simpa using decodeNode_encodeNode _ hcol le_rfl h [] gen

/-- The root of a trie holding one leaf, with a Keccak that makes 32 zero bytes. -/
theorem reachable_node_codec_round_trip_leaf :
    Collapsed (collapse (fun _ => zeroHash) (.short [1, 16] (.value [5]) ⟨none, 0, true⟩)) ∧
      decodeNode (encodeNode (collapse (fun _ => zeroHash)
          (.short [1, 16] (.value [5]) ⟨none, 0, true⟩))).length none
        (encodeNode (collapse (fun _ => zeroHash) (.short [1, 16] (.value [5]) ⟨none, 0, true⟩)))
        0 =
        .ok ((collapse (fun _ => zeroHash)
          (.short [1, 16] (.value [5]) ⟨none, 0, true⟩)).decoded 0 none) :=
  @reachable_node_codec_round_trip (fun _ => zeroHash)
    ⟨.short [1, 16] (.value [5]) ⟨none, 0, true⟩, none, emptyRoot, 0, 0⟩ (leafMap [1, 16] [5])
    (fun _ => rfl) (fun _ hp => absurd hp List.not_mem_nil)
    (Canon.leaf true [1] (by simp [Nibbles]) [5] (by simp) _ (flagsOk_of_dirty rfl rfl))
    (fun k v h => by
      simp only [leafMap] at h
      split at h
      · next hk =>
        cases h
        subst hk
        simp [sizeBound]
      · cases h)
    _ .root rfl rfl rfl none 0

end GoGaia.Patricia
