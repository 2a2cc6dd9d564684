import GoGaia.Trie.Delete

/-!
# Runs of updates and deletions

`TryUpdate` and `TryDelete` (`trie/trie.go:216`, `trie/trie.go:318`) on a trie whose root is
canonical for its database succeed and keep the root canonical, with the key updated in the
contents (`tryUpdate_canon`, `tryDelete_canon`); over a run of them from any such trie, the empty
one first, every call succeeds (`runOps_canon`).

What the canonical shape says of the nodes themselves, in the words of `trie.go`'s comments, is
`Shaped`: a short node has a key that is not empty, nibbles with at most a terminator at the end,
a value node below exactly when its key ends with the terminator, and no short node below, loaded
or stored; a full node has two children or more. Every canonical node is shaped
(`Canon.shaped`).
-/

namespace GoGaia.Patricia

/-! ## The shape of the nodes -/

/-- A short node, or a hash node whose stored node decodes to a short node. -/
def ResolvesShort (db : MemDatabase) (c : Node) : Prop :=
  (∃ k v f, c = .short k v f) ∨
    ∃ hh blob gen k v f, c = .hash hh ∧ db.get hh = some blob ∧
      decodeNode blob.length (some hh) blob gen = .ok (.short k v f)

/-- The shape `insert` and `delete` keep (`trie.go`'s comments): short nodes with a key that is
not empty, nibbles but for a terminator at the end, a value node below exactly when the key ends
with the terminator and no short node below, loaded or not; full nodes with two non-nil children
or more; and stored nodes of that shape below hash nodes. -/
inductive Shaped (db : MemDatabase) : Node → Prop where
  | nil : Shaped db .nil
  | value (v : List UInt8) : Shaped db (.value v)
  | short {k : List UInt8} {c : Node} {f : NodeFlag} (hk : k ≠ []) (hhex : IsHex k)
      (hval : c.isValue = hasTerm k) (hshort : ¬ ResolvesShort db c) (hc : Shaped db c) :
      Shaped db (.short k c f)
  | full {cs : Fin 17 → Node} {f : NodeFlag} (hcount : 2 ≤ Node.nonNilCount cs)
      (hcs : ∀ i, Shaped db (cs i)) : Shaped db (.full cs f)
  | hash {hh : List UInt8}
      (hres : ∀ blob, db.get hh = some blob → ∀ gen n,
        decodeNode blob.length (some hh) blob gen = .ok n → Shaped db n) :
      Shaped db (.hash hh)

section
variable {keccak : List UInt8 → List UInt8} {db : MemDatabase}

/-- The contents of a short node do not branch: all its keys start with its key. -/
theorem Canon.not_branching_of_short {b : Bool} {k : List UInt8} {c : Node} {f : NodeFlag}
    {m : Contents} (hc : Canon keccak db b (.short k c f) m) : ¬ Branching m := by
  rintro ⟨k₁, k₂, v₁, v₂, h₁, h₂, hne⟩
  rcases hc.short_cases with ⟨ns, w, -, -, -, -, rfl⟩ | ⟨-, hk, mc, -, -, rfl⟩
  · have e₁ : k₁ = k := by by_contra h; simp [leafMap, h] at h₁
    have e₂ : k₂ = k := by by_contra h; simp [leafMap, h] at h₂
    exact hne (by rw [e₁, e₂])
  · obtain ⟨r₁, rfl⟩ := prefix_of_extMap h₁
    obtain ⟨r₂, rfl⟩ := prefix_of_extMap h₂
    obtain ⟨x, ns, rfl⟩ := List.exists_cons_of_ne_nil hk
    exact hne rfl

/-- The child of a canonical extension is no short node, loaded or stored. -/
theorem Canon.not_resolvesShort {c : Node} {mc : Contents} (hc : Canon keccak db false c mc)
    (hbr : Branching mc) : ¬ ResolvesShort db c := by
  rintro (⟨k, v, f, rfl⟩ | ⟨hh, blob, gen, k, v, f, rfl, hget, hdec⟩)
  · exact hc.not_branching_of_short hbr
  · cases hc with
    | hash _ _ blob' hget' _ _ dec hdec' hcd =>
      rw [hget] at hget'
      cases hget'
      have hd : dec gen = .short k v f := by
        rw [hdec' gen] at hdec
        exact Except.ok.inj hdec
      have hs := hcd gen
      rw [hd] at hs
      exact hs.not_branching_of_short hbr

/-- Every canonical node has the shape of `trie.go`'s comments. -/
theorem Canon.shaped {b : Bool} {n : Node} {m : Contents} (hc : Canon keccak db b n m) :
    Shaped db n := by
  induction hc with
  | nil => exact .nil
  | leaf _ ns hns v =>
    exact .short (by simp) ⟨ns, hns, .inr rfl⟩ (by simp [Node.isValue, hasTerm_term])
      (by rintro (⟨_, _, _, h⟩ | ⟨_, _, _, _, _, _, h, _⟩) <;> cases h) (.value v)
  | ext _ ns hns hne c mc hc hbr _ _ ih =>
    have hval : c.isValue = false := by cases hc <;> rfl
    exact .short hne ⟨ns, hns, .inl rfl⟩ (by rw [hval, hasTerm_nibbles hns])
      (hc.not_resolvesShort hbr) ih
  | full _ cs ms _ v16 h16 _ hcount _ _ ih =>
    refine .full hcount fun i => ?_
    by_cases hi : i.val < 16
    · have hij : i = (⟨i.val, hi⟩ : Fin 16).castSucc := Fin.ext rfl
      rw [hij]
      exact ih _
    · have : i = 16 := Fin.ext (by omega)
      subst this
      rw [h16]
      cases v16 with
      | none => exact .nil
      | some v => exact .value v
  | hash _ _ blob hget _ _ dec hdec _ ih =>
    refine .hash fun blob' hget' gen n hn => ?_
    rw [hget] at hget'
    cases hget'
    rw [hdec gen] at hn
    cases hn
    exact ih gen

end

/-! ## Updates and deletions -/

/-- A call on the trie in a run: `Update(key, value)`, which deletes the key when the value is
empty, or `Delete(key)`. -/
inductive Op where
  | update (key value : List UInt8)
  | delete (key : List UInt8)

/-- What a call does to the contents, at the HEX form of its key. -/
def Op.contents : Op → Contents → Contents
  | .update key value, m =>
    Function.update m (keybytesToHex key) (if value = [] then none else some value)
  | .delete key, m => Function.update m (keybytesToHex key) none

namespace Trie

/-- A call on the trie. -/
def apply (t : Trie) : Op → Except TrieError Unit × Trie
  | .update key value => t.TryUpdate key value
  | .delete key => t.TryDelete key

/-- A run of calls, stopping at the first error. -/
def runOps : Trie → List Op → Except TrieError Trie
  | t, [] => .ok t
  | t, op :: ops =>
    match t.apply op with
    | (.ok (), t') => t'.runOps ops
    | (.error err, _) => .error err

variable {keccak : List UInt8 → List UInt8}

/-- The trie's root is canonical for `m` over the trie's database (none is an empty one). -/
def Stands (keccak : List UInt8 → List UInt8) (t : Trie) (m : Contents) : Prop :=
  Canon keccak (t.db.getD .empty) true t.root m

/-- `TryUpdate` on a trie whose root is canonical succeeds, and the new root is canonical for the
contents updated at the key, or with the key removed for an empty value. -/
theorem tryUpdate_canon {t : Trie} {m : Contents} (hc : t.Stands keccak m)
    (key value : List UInt8) :
    ∃ t', t.TryUpdate key value = (.ok (), t') ∧ t'.db = t.db ∧
      t'.Stands keccak ((Op.update key value).contents m) := by
  have hk := isKey_keybytesToHex key
  by_cases hv : value = []
  · have hdel : DeleteOk keccak _ t true t.root m := delete_canon t rfl hc
    obtain ⟨dirty, n', hdel, hn', -⟩ := @hdel _ [] _ hk (Node.walkCost_le t.root (keybytesToHex key))
    refine ⟨{ t with root := n' }, by simp [TryUpdate, hv, hdel], rfl, ?_⟩
    simpa [Op.contents, hv, Stands] using hn'
  · have hins : InsertOk keccak _ t true t.root m := insert_canon t rfl hc
    obtain ⟨dirty, n', hins, hn', -⟩ :=
      @hins _ [] _ value hk hv (Node.walkCost_le t.root (keybytesToHex key))
    refine ⟨{ t with root := n' }, by simp [TryUpdate, hv, hins], rfl, ?_⟩
    simpa [Op.contents, hv, Stands] using hn'

/-- `TryDelete` on a trie whose root is canonical succeeds, and the new root is canonical for the
contents with the key removed. -/
theorem tryDelete_canon {t : Trie} {m : Contents} (hc : t.Stands keccak m) (key : List UInt8) :
    ∃ t', t.TryDelete key = (.ok (), t') ∧ t'.db = t.db ∧
      t'.Stands keccak ((Op.delete key).contents m) := by
  have hdel : DeleteOk keccak _ t true t.root m := delete_canon t rfl hc
  obtain ⟨dirty, n', hdel, hn', -⟩ :=
    @hdel _ [] _ (isKey_keybytesToHex key) (Node.walkCost_le t.root (keybytesToHex key))
  exact ⟨{ t with root := n' }, by simp [TryDelete, hdel], rfl, hn'⟩

theorem apply_canon {t : Trie} {m : Contents} (hc : t.Stands keccak m) (op : Op) :
    ∃ t', t.apply op = (.ok (), t') ∧ t'.db = t.db ∧ t'.Stands keccak (op.contents m) := by
  cases op with
  | update key value => exact tryUpdate_canon hc key value
  | delete key => exact tryDelete_canon hc key

/-- Every run of calls on a trie whose root is canonical succeeds, with a canonical root for the
contents the calls make. -/
theorem runOps_canon : ∀ (ops : List Op) {t : Trie} {m : Contents}, t.Stands keccak m →
    ∃ t', t.runOps ops = .ok t' ∧ t'.db = t.db ∧
      t'.Stands keccak (ops.foldl (fun m op => op.contents m) m)
  | [], t, _, hc => ⟨t, rfl, rfl, hc⟩
  | op :: ops, t, m, hc => by
    obtain ⟨t₁, happ, hdb₁, hc₁⟩ := apply_canon hc op
    obtain ⟨t', hrun, hdb', hc'⟩ := runOps_canon ops hc₁
    exact ⟨t', by simp [runOps, happ, hrun], hdb'.trans hdb₁, hc'⟩

/-- From a trie whose root is canonical for its database, hash nodes resolving to the canonical
nodes stored there and the empty trie among them, every run of updates and deletions at any keys
succeeds, `insert` and `delete` never taking a panic branch, and after it the root has the shape
of `trie.go`'s comments. -/
theorem insert_delete_keep_shape {keccak : List UInt8 → List UInt8} {t : Trie} {m : Contents}
    (hc : t.Stands keccak m) (ops : List Op) :
    ∃ t', t.runOps ops = .ok t' ∧ Shaped (t'.db.getD .empty) t'.root := by
  obtain ⟨t', hrun, -, hc'⟩ := runOps_canon ops hc
  exact ⟨t', hrun, hc'.shaped⟩

/-- The empty trie, with an update, an update below it and a deletion. -/
theorem insert_delete_keep_shape_empty :
    ∃ t', (⟨.nil, none, emptyRoot, 0, 0⟩ : Trie).runOps
        [.update [1] [5], .update [1, 2] [6], .delete [1]] = .ok t' ∧
      Shaped (t'.db.getD .empty) t'.root :=
  @insert_delete_keep_shape id ⟨.nil, none, emptyRoot, 0, 0⟩ emptyMap (Canon.nil true) _

end Trie

end GoGaia.Patricia
