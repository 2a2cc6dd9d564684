import GoGaia.Trie.Commit

/-!
# Random runs of the trie

`runRandTest` (`trie/trie_test.go:409`) is the repository's own test that the trie is a map. From
the empty trie over a new database it runs a list of steps (updates, deletions, reads, commits,
hashes, and resets that commit and open the returned root again with `New`) beside a Go map of
the values written, and it fails at the first read that differs from the map or the first step
that returns an error. The model leaves out the steps that check the iterator
(`opItercheckhash`) and the generations in the flags (`opCheckCacheInvariant`).

Every run passes (`runRandTest_passes`), for keys and values within the codec's size bound
(`Step.Fits`), unless Keccak-256 gives two of the values written to the database one hash, or
writes one under the zero hash or the empty root (`Unambiguous`). Between the steps the trie
stands, over its database, for the contents the map tracks (`RandTestInv`); each step keeps this
(`randTestStep_inv`) by the lemmas of the trie functions it calls. The database only grows
(`runRandTestFrom_extends`, from `hash_extends`), so what is assumed of the last one holds of
every one before it.
-/

namespace GoGaia.Patricia

/-- The operations of `randTestStep`, with their keys and values. -/
inductive Step where
  | update (key value : List UInt8)
  | delete (key : List UInt8)
  | get (key : List UInt8)
  | commit
  | hash
  | reset

namespace Trie

variable (t : Trie)

/-- `Update`: `TryUpdate`, whose error is logged and dropped. -/
def Update (key value : List UInt8) : Trie := (t.TryUpdate key value).2

/-- `Delete`: `TryDelete`, whose error is logged and dropped. -/
def Delete (key : List UInt8) : Trie := (t.TryDelete key).2

/-- `Get`: `TryGet`'s value, `nil` after an error, which is logged. -/
def Get (key : List UInt8) : Option (List UInt8) × Trie :=
  match t.TryGet key with
  | (.ok value, t') => (value, t')
  | (.error _, t') => (none, t')

end Trie

/-- One step of `runRandTest` on the trie and the map of values (Go's `map[string]string`, where
a missing key reads as the empty string): the trie and the map after it, and whether it left no
error. `Commit` changes the trie in place, so a reset whose `New` fails leaves the committed
trie. -/
def randTestStep (keccak : List UInt8 → List UInt8) :
    Trie × (List UInt8 → List UInt8) → Step → (Trie × (List UInt8 → List UInt8)) × Bool
  | (tr, values), .update key value => ((tr.Update key value, Function.update values key value), true)
  | (tr, values), .delete key => ((tr.Delete key, Function.update values key []), true)
  | (tr, values), .get key =>
    let (v, tr') := tr.Get key
    ((tr', values), decide (v.getD [] = values key))
  | (tr, values), .commit =>
    match tr.Commit keccak with
    | .ok (_, tr') => ((tr', values), true)
    | .error _ => ((tr, values), false)
  | (tr, values), .hash => (((tr.Hash keccak).2, values), true)
  | (tr, values), .reset =>
    match tr.Commit keccak with
    | .error _ => ((tr, values), false)
    | .ok (hash, tr') =>
      match New hash tr'.db with
      | .ok newtr => ((newtr, values), true)
      | .error _ => ((tr', values), false)

/-- The steps from a trie and a map: `false` at the first step that leaves an error, with the
trie after it. -/
def runRandTestFrom (keccak : List UInt8 → List UInt8) :
    Trie × (List UInt8 → List UInt8) → List Step → Bool × Trie
  | s, [] => (true, s.1)
  | s, step :: rest =>
    match randTestStep keccak s step with
    | (s', true) => runRandTestFrom keccak s' rest
    | (s', false) => (false, s'.1)

/-- `runRandTest`: the steps from `New(common.Hash{}, db)`, the empty trie over a new database,
and an empty map. The trie the run ends with is returned beside the result, for its database. -/
def runRandTest (keccak : List UInt8 → List UInt8) (rt : List Step) : Bool × Trie :=
  match New zeroHash (some .empty) with
  | .ok tr => runRandTestFrom keccak (tr, fun _ => []) rt
  | .error _ => (false, ⟨.nil, some .empty, zeroHash, 0, 0⟩)

/-- A step whose key and value are within the size bound of the codec, the one bound the trie
needs of its contents to read its nodes back. -/
def Step.Fits : Step → Prop
  | .update key value => (keybytesToHex key).length < sizeBound ∧ value.length < sizeBound
  | _ => True

instance : DecidablePred Step.Fits := fun s =>
  match s with
  | .update _ _ => inferInstanceAs (Decidable (_ ∧ _))
  | .delete _ | .get _ | .commit | .hash | .reset => isTrue trivial

/-- What runs assume of Keccak-256 on the database written: no two values have one hash, and
none is written under the zero hash or the empty root, which `New` opens as the empty trie. -/
def Unambiguous (keccak : List UInt8 → List UInt8) (d : MemDatabase) : Prop :=
  CollisionFree keccak d ∧ ∀ p ∈ d.puts, p.1 ≠ zeroHash ∧ p.1 ≠ emptyRoot

theorem Unambiguous.of_extends {keccak : List UInt8 → List UInt8} {d d' : MemDatabase}
    (h : Extends d d') (hu : Unambiguous keccak d') : Unambiguous keccak d :=
  ⟨hu.1.of_extends h, fun p hp => hu.2 p (h.subset hp)⟩

/-! ## The database only grows -/

section
variable (keccak : List UInt8 → List UInt8)

theorem db_tryUpdate (t : Trie) (key value : List UInt8) : (t.TryUpdate key value).2.db = t.db := by
  unfold Trie.TryUpdate
  dsimp only
  split
  · split <;> rfl
  · split <;> rfl

theorem db_tryDelete (t : Trie) (key : List UInt8) : (t.TryDelete key).2.db = t.db := by
  unfold Trie.TryDelete
  dsimp only
  split <;> rfl

theorem db_tryGet (t : Trie) (key : List UInt8) : (t.TryGet key).2.db = t.db := by
  unfold Trie.TryGet
  dsimp only
  split
  · rfl
  · split <;> rfl

theorem db_get (t : Trie) (key : List UInt8) : (t.Get key).2.db = t.db := by
  have h := db_tryGet t key
  unfold Trie.Get
  split <;> next heq => rw [heq] at h; exact h

/-- `New` opens a trie over the database it is given. -/
theorem db_of_new {root : List UInt8} {db : Option MemDatabase} {t : Trie}
    (h : New root db = .ok t) : t.db = db := by
  unfold New at h
  dsimp only at h
  split at h
  · split at h
    · cases h
    · split at h
      · cases h
      · cases h
        rfl
  · cases h
    rfl

/-- A step of a run only adds writes to the trie's database. -/
theorem randTestStep_extends {s : Trie × (List UInt8 → List UInt8)} {d : MemDatabase}
    (hdb : s.1.db = some d) (st : Step) :
    ∃ d', (randTestStep keccak s st).1.1.db = some d' ∧ Extends d d' := by
  obtain ⟨tr, values⟩ := s
  cases st with
  | update key value => exact ⟨d, (db_tryUpdate tr key value).trans hdb, .refl d⟩
  | delete key => exact ⟨d, (db_tryDelete tr key).trans hdb, .refl d⟩
  | get key => exact ⟨d, (db_get tr key).trans hdb, .refl d⟩
  | hash => exact ⟨d, hdb, .refl d⟩
  | commit =>
    obtain ⟨root, t', d', hcommit, hdb', hx⟩ := @Trie.commit_extends keccak tr d hdb
    exact ⟨d', by simp only [randTestStep, hcommit]; exact hdb', hx⟩
  | reset =>
    obtain ⟨root, t', d', hcommit, hdb', hx⟩ := @Trie.commit_extends keccak tr d hdb
    refine ⟨d', ?_, hx⟩
    simp only [randTestStep, hcommit]
    split
    · next t'' hnew => exact (db_of_new hnew).trans hdb'
    · exact hdb'

/-- A run only adds writes to the trie's database. -/
theorem runRandTestFrom_extends :
    ∀ (rest : List Step) (s : Trie × (List UInt8 → List UInt8)) {d : MemDatabase},
      s.1.db = some d → ∃ dF, (runRandTestFrom keccak s rest).2.db = some dF ∧ Extends d dF
  | [], _, d, hdb => ⟨d, hdb, .refl d⟩
  | st :: rest, s, d, hdb => by
    obtain ⟨d', hd', hx⟩ := randTestStep_extends keccak hdb st
    rw [runRandTestFrom]
    split
    · next s' heq =>
      rw [heq] at hd'
      obtain ⟨dF, hdF, hx'⟩ := runRandTestFrom_extends rest s' hd'
      exact ⟨dF, hdF, hx.trans hx'⟩
    · next s' heq =>
      rw [heq] at hd'
      exact ⟨d', hd', hx⟩

end

/-! ## What holds between the steps -/

/-- Contents updated at a key, with none or a value where both are bounded, stay bounded. -/
theorem Bounded.update {m : Contents} (hm : Bounded m) {k : List UInt8} {o : Option (List UInt8)}
    (ho : ∀ v, o = some v → k.length < sizeBound ∧ v.length < sizeBound) :
    Bounded (Function.update m k o) := by
  intro k' v h
  by_cases hk' : k' = k
  · subst hk'
    rw [Function.update_self] at h
    exact ho v h
  · rw [Function.update_of_ne hk'] at h
    exact hm k' v h

variable (keccak) in
/-- What holds of a run between its steps: the trie, over its database `d` keyed by Keccak-256,
stands for bounded contents `m`, which hold at each key's HEX form the map's value, none for the
empty string. -/
structure RandTestInv (s : Trie × (List UInt8 → List UInt8)) (m : Contents) (d : MemDatabase) :
    Prop where
  db_eq : s.1.db = some d
  keyed : Keyed keccak d
  stands : s.1.Stands keccak m
  bounded : Bounded m
  tracks : ∀ key, m (keybytesToHex key) = if s.2 key = [] then none else some (s.2 key)

/-- The map updated at a key tracks the contents updated at its HEX form. -/
theorem tracks_update {m : Contents} {values : List UInt8 → List UInt8}
    (h : ∀ key, m (keybytesToHex key) = if values key = [] then none else some (values key))
    (key value : List UInt8) (k : List UInt8) :
    (Op.update key value).contents m (keybytesToHex k) =
      if Function.update values key value k = [] then none
      else some (Function.update values key value k) := by
  by_cases hk : k = key
  · subst hk
    simp only [Op.contents, Function.update_self]
  · rw [Op.contents, Function.update_of_ne (fun e => hk (keybytesToHex_inj e)),
      Function.update_of_ne hk]
    exact h k

section
variable {keccak : List UInt8 → List UInt8} {tr : Trie} {values : List UInt8 → List UInt8}
  {m : Contents} {d : MemDatabase}

/-- A step that keeps the map and the contents, leaving a trie that stands for them over the same
database, keeps the invariant. -/
theorem RandTestInv.of_stands {t' : Trie} (hinv : RandTestInv keccak (tr, values) m d)
    (hdb : t'.db = tr.db) (hc : t'.Stands keccak m) : RandTestInv keccak (t', values) m d :=
  ⟨hdb.trans hinv.db_eq, hinv.keyed, hc, hinv.bounded, hinv.tracks⟩

theorem randTestInv_update (hinv : RandTestInv keccak (tr, values) m d) {key value : List UInt8}
    (hfits : (Step.update key value).Fits) :
    (randTestStep keccak (tr, values) (.update key value)).2 = true ∧ ∃ m' d',
      RandTestInv keccak (randTestStep keccak (tr, values) (.update key value)).1 m' d' := by
  obtain ⟨t', hup, hdb, hc⟩ := Trie.tryUpdate_canon hinv.stands key value
  have hstep : randTestStep keccak (tr, values) (.update key value) =
      ((t', Function.update values key value), true) := by
    simp only [randTestStep, Trie.Update, hup]
  rw [hstep]
  refine ⟨rfl, _, d, ⟨hdb.trans hinv.db_eq, hinv.keyed, hc, ?_, tracks_update hinv.tracks key value⟩⟩
  -- the key and the value written have the bounded lengths the step promises
  refine hinv.bounded.update fun v hv => ?_
  split at hv
  · cases hv
  · cases hv
    exact hfits

theorem randTestInv_delete (hinv : RandTestInv keccak (tr, values) m d) (key : List UInt8) :
    (randTestStep keccak (tr, values) (.delete key)).2 = true ∧ ∃ m' d',
      RandTestInv keccak (randTestStep keccak (tr, values) (.delete key)).1 m' d' := by
  obtain ⟨t', hdel, hdb, hc⟩ := Trie.tryDelete_canon hinv.stands key
  have hstep : randTestStep keccak (tr, values) (.delete key) =
      ((t', Function.update values key []), true) := by
    simp only [randTestStep, Trie.Delete, hdel]
  rw [hstep]
  -- a deletion is an update with the empty value, on both sides
  have hm : (Op.delete key).contents m = (Op.update key []).contents m := by simp [Op.contents]
  exact ⟨rfl, _, d, ⟨hdb.trans hinv.db_eq, hinv.keyed, hc,
    hinv.bounded.update fun v hv => absurd hv (by simp),
    fun k => by rw [hm]; exact tracks_update hinv.tracks key [] k⟩⟩

theorem randTestInv_get (hinv : RandTestInv keccak (tr, values) m d) (key : List UInt8) :
    (randTestStep keccak (tr, values) (.get key)).2 = true ∧ ∃ m' d',
      RandTestInv keccak (randTestStep keccak (tr, values) (.get key)).1 m' d' := by
  obtain ⟨t', hget, hdb, -, hc⟩ := tryGet_canon hinv.stands key
  have hstep : randTestStep keccak (tr, values) (.get key) =
      ((t', values), decide ((m (keybytesToHex key)).getD [] = values key)) := by
    simp only [randTestStep, Trie.Get, hget]
  rw [hstep]
  refine ⟨?_, m, d, hinv.of_stands hdb hc⟩
  -- the map's value is what the contents hold, read as the empty string when none
  rw [decide_eq_true_iff, hinv.tracks key]
  split
  · next h => exact h.symm
  · rfl

theorem randTestInv_hash (hinv : RandTestInv keccak (tr, values) m d) :
    (randTestStep keccak (tr, values) .hash).2 = true ∧ ∃ m' d',
      RandTestInv keccak (randTestStep keccak (tr, values) .hash).1 m' d' := by
  obtain ⟨hc, hdb, -⟩ := Trie.hash_stands hinv.stands
  exact ⟨rfl, m, d, hinv.of_stands hdb hc⟩

variable (hk : ∀ x, (keccak x).length = 32)
include hk

/-- What a commit in a run does: `hashRoot`'s commit lemma at the trie's root and database. -/
theorem RandTestInv.hashRoot (hinv : RandTestInv keccak (tr, values) m d) :
    ∃ n' d', tr.hashRoot keccak (some d) = (((tr.hashRoot keccak none).1.1, n'), some d') ∧
      KeyedExtends keccak d d' ∧ (Functional d' → Canon keccak d' true n' m ∧
        Reopens keccak d' (bytesToHash ((tr.hashRoot keccak none).1.1.hashOf?.getD [])) m) := by
  exact Trie.hashRoot_commit hk hinv.keyed (hinv.stands.canon hinv.db_eq) hinv.bounded

theorem randTestInv_commit (hinv : RandTestInv keccak (tr, values) m d)
    (hu : Unambiguous keccak ((randTestStep keccak (tr, values) .commit).1.1.db.getD .empty)) :
    (randTestStep keccak (tr, values) .commit).2 = true ∧ ∃ m' d',
      RandTestInv keccak (randTestStep keccak (tr, values) .commit).1 m' d' := by
  obtain ⟨n', d', hroot, hkd, hcanon⟩ := hinv.hashRoot hk
  have hstep : randTestStep keccak (tr, values) .commit =
      (({ tr with root := n', cachegen := tr.cachegen + 1, db := some d' }, values), true) := by
    simp only [randTestStep, Trie.commit_of_hashRoot hinv.db_eq hroot]
  rw [hstep] at hu ⊢
  have hkeyed' := hkd.keyed hinv.keyed
  exact ⟨rfl, m, d', ⟨rfl, hkeyed', (hcanon (hkeyed'.functional hu.1)).1, hinv.bounded,
    hinv.tracks⟩⟩

/-- A reset: the commit writes the root, and `New` opens the root hash again over the database,
which it does since the writes there are unambiguous. -/
theorem randTestInv_reset (hinv : RandTestInv keccak (tr, values) m d)
    (hu : Unambiguous keccak ((randTestStep keccak (tr, values) .reset).1.1.db.getD .empty)) :
    (randTestStep keccak (tr, values) .reset).2 = true ∧ ∃ m' d',
      RandTestInv keccak (randTestStep keccak (tr, values) .reset).1 m' d' := by
  obtain ⟨n', d', hroot, hkd, hcanon⟩ := hinv.hashRoot hk
  have hcommit := Trie.commit_of_hashRoot hinv.db_eq hroot
  -- after the reset the trie is over the database written, whether `New` succeeds or not
  have hout : (randTestStep keccak (tr, values) .reset).1.1.db = some d' := by
    simp only [randTestStep, hcommit]
    split
    · next t'' hnew => exact db_of_new hnew
    · rfl
  rw [hout] at hu
  have hkeyed' := hkd.keyed hinv.keyed
  obtain ⟨t'', hnew, hdb'', hc''⟩ := new_of_reopens (hcanon (hkeyed'.functional hu.1)).2 hu.2
  have hhash : (tr.Hash keccak).1 = bytesToHash ((tr.hashRoot keccak none).1.1.hashOf?.getD []) := rfl
  rw [← hhash] at hnew
  have hstep : randTestStep keccak (tr, values) .reset = ((t'', values), true) := by
    simp only [randTestStep, hcommit, hnew]
  rw [hstep]
  exact ⟨rfl, m, d', ⟨hdb'', hkeyed', hc'', hinv.bounded, hinv.tracks⟩⟩

/-- Each step of a run from a state where the invariant holds passes and keeps it, for a step
within the size bound, when the writes in the database after it are unambiguous. -/
theorem randTestStep_inv {s : Trie × (List UInt8 → List UInt8)} (hinv : RandTestInv keccak s m d)
    {st : Step} (hfits : st.Fits)
    (hu : Unambiguous keccak ((randTestStep keccak s st).1.1.db.getD .empty)) :
    (randTestStep keccak s st).2 = true ∧ ∃ m' d', RandTestInv keccak (randTestStep keccak s st).1 m' d' := by
  obtain ⟨tr, values⟩ := s
  cases st with
  | update key value => exact randTestInv_update hinv hfits
  | delete key => exact randTestInv_delete hinv key
  | get key => exact randTestInv_get hinv key
  | commit => exact randTestInv_commit hk hinv hu
  | hash => exact randTestInv_hash hinv
  | reset => exact randTestInv_reset hk hinv hu

end

/-! ## Whole runs -/

section
variable {keccak : List UInt8 → List UInt8} (hk : ∀ x, (keccak x).length = 32)
include hk

/-- A run from a state where the invariant holds passes, for steps within the size bound, when the
writes in the database it ends with are unambiguous. By induction on the steps: the database
after each step is part of the last one, so its writes are unambiguous too. -/
theorem runRandTestFrom_passes : ∀ (rest : List Step) (s : Trie × (List UInt8 → List UInt8))
    (m : Contents) (d : MemDatabase), RandTestInv keccak s m d → (∀ st ∈ rest, st.Fits) →
    Unambiguous keccak ((runRandTestFrom keccak s rest).2.db.getD .empty) →
    (runRandTestFrom keccak s rest).1 = true
  | [], _, _, _, _, _, _ => rfl
  | st :: rest, s, m, d, hinv, hfits, hu => by
    obtain ⟨d', hd', -⟩ := randTestStep_extends keccak hinv.db_eq st
    rcases hs : randTestStep keccak s st with ⟨s', ok⟩
    rw [hs] at hd'
    -- the database the run ends with holds the one after this step, whether it passes or not
    have hlast : ∃ dF, (runRandTestFrom keccak s (st :: rest)).2.db = some dF ∧ Extends d' dF := by
      rw [runRandTestFrom, hs]
      cases ok with
      | true => exact runRandTestFrom_extends keccak rest s' hd'
      | false => exact ⟨d', hd', .refl d'⟩
    obtain ⟨dF, hdF, hx⟩ := hlast
    have hu' : Unambiguous keccak ((randTestStep keccak s st).1.1.db.getD .empty) := by
      rw [hs]
      show Unambiguous keccak (s'.1.db.getD .empty)
      rw [hd']
      rw [hdF] at hu
      exact hu.of_extends hx
    obtain ⟨hok, m', d'', hinv'⟩ := randTestStep_inv hk hinv (hfits st List.mem_cons_self) hu'
    rw [hs] at hok hinv'
    cases hok
    have hrun : runRandTestFrom keccak s (st :: rest) = runRandTestFrom keccak s' rest := by
      rw [runRandTestFrom, hs]
    rw [hrun] at hu ⊢
    exact runRandTestFrom_passes rest s' m' d'' hinv' (fun st h => hfits st (List.mem_cons_of_mem _ h))
      hu

/-- `runRandTest` passes: from the empty trie over a new database, for every list of updates,
deletions, reads, commits, hashes and resets with keys and values within the size bound of the
codec, every read returns the value the map holds and no step returns an error, unless
Keccak-256 gives two values written to the database one hash, or writes one under the zero hash
or the empty root. -/
theorem runRandTest_passes (rt : List Step) (hfits : ∀ st ∈ rt, st.Fits)
    (hu : Unambiguous keccak ((runRandTest keccak rt).2.db.getD .empty)) :
    (runRandTest keccak rt).1 = true := by
  have hnew : New zeroHash (some .empty) = .ok ⟨.nil, some .empty, zeroHash, 0, 0⟩ := by
    simp [New]
  have hrun : runRandTest keccak rt =
      runRandTestFrom keccak (⟨.nil, some .empty, zeroHash, 0, 0⟩, fun _ => []) rt := by
    rw [runRandTest, hnew]
  rw [hrun] at hu ⊢
  exact runRandTestFrom_passes hk rt _ emptyMap .empty
    ⟨rfl, fun _ h => absurd h List.not_mem_nil, .nil true, bounded_emptyMap, fun _ => by simp [emptyMap]⟩
    hfits hu

end

/-- A run that writes two keys below one extension, reads one, commits, reads the other, resets,
reads, hashes, deletes a key and reads it, with a hash of 32 bytes that keeps the first 32 bytes
of what it hashes. -/
theorem runRandTest_passes_two_keys :
    (∀ st ∈ [Step.update [1, 2] [5], .update [1, 3] [6], .get [1, 2], .commit, .get [1, 3], .reset,
        .get [1, 2], .hash, .delete [1, 2], .get [1, 2]], st.Fits) ∧
      Unambiguous (fun x => (x ++ List.replicate 32 0).take 32)
        ((runRandTest (fun x => (x ++ List.replicate 32 0).take 32)
          [.update [1, 2] [5], .update [1, 3] [6], .get [1, 2], .commit, .get [1, 3], .reset,
            .get [1, 2], .hash, .delete [1, 2], .get [1, 2]]).2.db.getD .empty) ∧
      (runRandTest (fun x => (x ++ List.replicate 32 0).take 32)
        [.update [1, 2] [5], .update [1, 3] [6], .get [1, 2], .commit, .get [1, 3], .reset,
          .get [1, 2], .hash, .delete [1, 2], .get [1, 2]]).1 = true :=
  have hfits : ∀ st ∈ [Step.update [1, 2] [5], .update [1, 3] [6], .get [1, 2], .commit,
      .get [1, 3], .reset, .get [1, 2], .hash, .delete [1, 2], .get [1, 2]], st.Fits := by decide
  have hu : Unambiguous (fun x => (x ++ List.replicate 32 0).take 32)
      ((runRandTest (fun x => (x ++ List.replicate 32 0).take 32)
        [.update [1, 2] [5], .update [1, 3] [6], .get [1, 2], .commit, .get [1, 3], .reset,
          .get [1, 2], .hash, .delete [1, 2], .get [1, 2]]).2.db.getD .empty) := by
    unfold Unambiguous CollisionFree
    decide
  ⟨hfits, hu, runRandTest_passes (fun _ => by simp) _ hfits hu⟩

end GoGaia.Patricia
