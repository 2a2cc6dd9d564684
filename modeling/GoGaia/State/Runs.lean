import GoGaia.State.Spec

/-!
# Runs of the state database that its users cannot tell apart, and can

`revert_leaves_account_dirty`: a balance change to an existing empty account, reverted, still
changes the root `IntermediateRoot(true)` computes. The revert sets the balance back, but the change
had marked the account dirty and cleared its callback, and no journal entry undoes either
(`balanceChange.undo`, `core/state/journal.go:113`). `Finalise` then visits the account, finds it
empty and deletes it from the trie, where the run without the reverted change leaves it in place.

`copy_shares_account_trie`: `Copy` gives the copy the account trie of the original
(`trie: self.trie`, `core/state/statedb.go:455`), so `IntermediateRoot` on the copy writes the
copy's accounts into the trie the original reads from.

`commitTo_deletes_unmarked_suicide`: undoing a touch takes the address out of the dirty set but
leaves the object's callback cleared (`touchChange.undo`, `core/state/journal.go:99`), so a
later `Suicide` does not mark it dirty again. `Finalise` visits the dirty addresses only and
leaves the account in the trie; `CommitTo` visits every live object and deletes it. The two roots
differ, and the state opened on the committed root no longer has the account that the finalised
state reports.

The runs start from `New(root)` on an arbitrary world and are evaluated with the run equations of
`State.Spec`.
-/

namespace GoGaia.State

/-! ## Reverting a balance change -/

/-- After `Snapshot`, `AddBalance(a, amount)` and `RevertToSnapshot` on a fresh `StateDB` whose
trie holds an empty account at `a`, `IntermediateRoot(true)` is the root of the trie without `a`;
with no operation before it, it is the root of the trie as it was. -/
theorem revert_leaves_account_dirty (env : Env) (w : World) (r : Nat) (a : Address)
    (acc : Account) (amount : Int) (hacc : w.tries r a = some acc)
    (hempty : acc.nonce = 0 ∧ acc.balance = 0 ∧ acc.codeHash = env.emptyCodeHash)
    (hamount : amount ≠ 0) :
    ((do
        let id ← snapshot
        addBalance env a amount
        let _ ← revertToSnapshot id
        intermediateRoot env true).run (w, StateDB.new r)).1 =
      env.stateRoot (Function.update (w.tries r) a none) ∧
    ((intermediateRoot env true).run (w, StateDB.new r)).1 = env.stateRoot (w.tries r) := by
  constructor
  · -- the account is loaded, changed (which marks it dirty) and changed back
    rw [StateM.run_bind_of snapshot_run,
      StateM.run_bind_of (addBalance_run hamount (getOrNewStateObject_run_load rfl hacc)
        (Function.update_self _ _ _)),
      StateDB.setBalance_of_onDirty _ (Function.update_self _ _ _) rfl, revertToSnapshot_run_bind]
    rotate_left
    · rfl
    · rfl
    · rfl
    · exact undoAll_run_cons (undo_balanceChange_run (Function.update_self _ _ _) rfl)
    rw [StateDB.setBalance_of_not_onDirty _ (Function.update_self _ _ _) rfl, intermediateRoot_run]
    dsimp only
    congr 1
    funext b
    rw [finalise_tries]
    by_cases hb : b = a
    · -- still dirty, and empty again: deleted
      subst hb
      simp only [Function.update_self, if_true]
      exact finaliseObject_deleted (.inr ⟨rfl, by simp [StateObject.empty, StateObject.new, hempty]⟩)
    · simp [StateDB.new, StateDB.push, hb]
  · rw [intermediateRoot_run]
    dsimp only
    congr 1
    funext b
    exact finalise_tries_of_clean rfl

/-- A world whose account trie `0` holds one empty account, at address `1`. -/
def emptyAccountWorld : World where
  tries := fun _ a => if a = 1 then some ⟨0, 0, 0, 0⟩ else none
  storage := fun _ => none
  code := fun _ => none

/-- Hashes that are all zero, and a state root that is `1` when the trie holds an account at
address `1`, else `0`. -/
def presenceEnv : Env where
  keccak := fun _ => 0
  storageRoot := fun _ => 0
  stateRoot := fun t => if t 1 = none then 0 else 1
  emptyRoot := 0

theorem revert_leaves_account_dirty_roots :
    emptyAccountWorld.tries 0 1 = some ⟨0, 0, 0, 0⟩ ∧
      ((0 : Nat) = 0 ∧ (0 : Int) = 0 ∧ (0 : Hash) = presenceEnv.emptyCodeHash) ∧ (1 : Int) ≠ 0 ∧
      ((do
          let id ← snapshot
          addBalance presenceEnv 1 1
          let _ ← revertToSnapshot id
          intermediateRoot presenceEnv true).run (emptyAccountWorld, StateDB.new 0)).1 = 0 ∧
      ((intermediateRoot presenceEnv true).run (emptyAccountWorld, StateDB.new 0)).1 = 1 := by
  have hacc : emptyAccountWorld.tries 0 1 = some ⟨0, 0, 0, 0⟩ := rfl
  have hempty : (0 : Nat) = 0 ∧ (0 : Int) = 0 ∧ (0 : Hash) = presenceEnv.emptyCodeHash :=
    ⟨rfl, rfl, rfl⟩
  obtain ⟨hrev, hplain⟩ :=
    revert_leaves_account_dirty presenceEnv emptyAccountWorld 0 1 _ 1 hacc hempty (by decide)
  refine ⟨hacc, hempty, by decide, ?_, ?_⟩
  · rw [hrev]
    simp [presenceEnv]
  · rw [hplain]
    simp [presenceEnv, emptyAccountWorld]

/-! ## Copying -/

/-- On the copy of a fresh `StateDB`, `AddBalance(x, amount)` to an address with no account,
then `IntermediateRoot(false)`: the original then reads the copy's balance at `x`, where a state
constructed on its own reads zero. -/
theorem copy_shares_account_trie (env : Env) (w : World) (r : Nat) (x : Address) (amount : Int)
    (hx : w.tries r x = none) (hamount : amount ≠ 0) :
    ((getBalance x).run
        (((do
            addBalance env x amount
            intermediateRoot env false).run (w, (StateDB.new r).copy)).2.1,
          StateDB.new r)).1 = amount ∧
      ((getBalance x).run (w, StateDB.new r)).1 = 0 := by
  constructor
  · -- the copy creates the account, marked dirty, and `Finalise` writes it to the shared trie
    rw [StateM.run_bind_of (addBalance_run hamount (getOrNewStateObject_run_absent rfl hx)
        (Function.update_self _ _ _)),
      StateDB.setBalance_of_not_onDirty _ (Function.update_self _ _ _) rfl, intermediateRoot_run,
      getBalance_run_of_none rfl]
    simp only [StateDB.new_trie, StateDB.copy_trie, StateDB.push_trie]
    rw [finalise_tries]
    simp only [Function.update_self]
    rw [finaliseObject_kept]
    · simp [StateObject.new]
    · simp [StateObject.new]
  · rw [getBalance_run_of_none rfl]
    simp [StateDB.new, hx]

/-- A world with no accounts. -/
def emptyWorld : World where
  tries := fun _ _ => none
  storage := fun _ => none
  code := fun _ => none

theorem copy_shares_account_trie_five :
    emptyWorld.tries 0 1 = none ∧ (5 : Int) ≠ 0 ∧
      ((getBalance 1).run
          (((do
              addBalance presenceEnv 1 5
              intermediateRoot presenceEnv false).run (emptyWorld, (StateDB.new 0).copy)).2.1,
            StateDB.new 0)).1 = 5 ∧
        ((getBalance 1).run (emptyWorld, StateDB.new 0)).1 = 0 :=
  ⟨rfl, by decide, copy_shares_account_trie presenceEnv emptyWorld 0 1 5 rfl (by decide)⟩

/-! ## Committing after a reverted touch -/

/-- `AddBalance(a, 0)` touches the empty account at `a`, `RevertToSnapshot` undoes the touch, and
`Suicide(a)` follows. -/
def revertedTouchThenSuicide (env : Env) (a : Address) : StateOp Unit := do
  let id ← snapshot
  addBalance env a 0
  let _ ← revertToSnapshot id
  let _ ← suicide a
  pure ()

/-- After `revertedTouchThenSuicide` on a fresh `StateDB` whose trie holds an empty account at
`a`, the account is live and suicided, and no address is dirty: the undone touch took `a` out of
the dirty set but left its callback cleared, so `Suicide` did not mark it again. -/
theorem revertedTouchThenSuicide_run (env : Env) (w : World) (r : Nat) (a : Address)
    (acc : Account) (hacc : w.tries r a = some acc)
    (hempty : acc.nonce = 0 ∧ acc.balance = 0 ∧ acc.codeHash = env.emptyCodeHash)
    (ha : a ≠ ripemd) :
    ∃ s o, (revertedTouchThenSuicide env a).run (w, StateDB.new r) = ((), (w, s)) ∧
      s.trie = r ∧ s.stateObjects a = some o ∧ o.suicided = true ∧ o.deleted = false ∧
      ∀ b, s.stateObjectsDirty b = false := by
  have he : (StateObject.new a acc true).empty env = true := by
    simp [StateObject.empty, StateObject.new, hempty]
  rw [revertedTouchThenSuicide, StateM.run_bind_of snapshot_run,
    StateM.run_bind_of (addBalance_run_zero (getOrNewStateObject_run_load rfl hacc)
      (Function.update_self _ _ _) he),
    StateDB.touch_of_onDirty (Function.update_self _ _ _) rfl, revertToSnapshot_run_bind]
  rotate_left
  · rfl
  · rfl
  · rfl
  · exact undoAll_run_cons (undo_touchChange_run
      (o := { StateObject.new a acc true with onDirty := false, touched := true }) (by simp) rfl ha)
  rw [StateM.run_bind_of (suicide_run_of_not_onDirty
    (o := { StateObject.new a acc true with onDirty := false, touched := false }) (by simp) rfl rfl)]
  -- the touch marked `a` dirty and its undo unmarked it
  exact ⟨_, _, rfl, rfl, Function.update_self _ _ _, rfl, rfl,
    fun b => by simp [StateDB.new, StateDB.push]⟩

/-- **`CommitTo` and `IntermediateRoot` disagree.** After `revertedTouchThenSuicide`,
`IntermediateRoot` leaves the suicided account in the trie, since `Finalise` visits the dirty
addresses only; `CommitTo` then visits every live object and deletes it. The state that
`Finalise` left reports the account as existing, and the state opened on the committed trie
does not. -/
theorem commitTo_deletes_unmarked_suicide (env : Env) (w : World) (r : Nat) (a : Address)
    (acc : Account) (del : Bool) (hacc : w.tries r a = some acc)
    (hempty : acc.nonce = 0 ∧ acc.balance = 0 ∧ acc.codeHash = env.emptyCodeHash)
    (ha : a ≠ ripemd) :
    let final :=
      (revertedTouchThenSuicide env a >>= fun _ => intermediateRoot env del).run (w, StateDB.new r)
    let committed := (commitTo env del [a]).run final.2
    final.1 = env.stateRoot (w.tries r) ∧
      committed.1 = some (env.stateRoot (Function.update (w.tries r) a none)) ∧
      ((exist a).run final.2).1 = true ∧
      ((exist a).run (committed.2.1, StateDB.new r)).1 = false := by
  obtain ⟨s, o, hrun, htrie, ho, hsui, hdel, hclean⟩ :=
    revertedTouchThenSuicide_run env w r a acc hacc hempty ha
  intro final committed
  -- `Finalise` writes nothing and keeps the object: no address is dirty
  have htries : ((finalise env del).run (w, s)).2.1.tries r = w.tries r := by
    funext b
    rw [← htrie, finalise_tries_of_clean (hclean b)]
  have hobj : ((finalise env del).run (w, s)).2.2.stateObjects a = some o := by
    rw [finalise_stateObjects_of_clean (hclean a), ho]
  have htrie' : ((finalise env del).run (w, s)).2.2.trie = r := by rw [finalise_trie, htrie]
  have hfinal : final = (env.stateRoot (w.tries r), ((finalise env del).run (w, s)).2) := by
    simp only [final, StateM.run_bind_of hrun, intermediateRoot_run, htrie, htries]
  generalize ((finalise env del).run (w, s)).2 = S at htries hobj htrie' hfinal
  obtain ⟨w', s'⟩ := S
  dsimp only at htries hobj htrie'
  -- `CommitTo` meets the suicided object and deletes it
  have hcommit : committed = (some (env.stateRoot (Function.update (w.tries r) a none)),
      ({ w' with tries := Function.update w'.tries r (Function.update (w.tries r) a none) },
        { s' with
          stateObjects := Function.update s'.stateObjects a (some { o with deleted := true })
          stateObjectsDirty := Function.update s'.stateObjectsDirty a false
          journal := [], validRevisions := [], refund := 0 })) := by
    simp only [committed, hfinal]
    rw [commitTo_run ((commitObjects_run_cons hobj (commitObject_run_deleted (.inl hsui))).trans
      commitObjects_run_nil)]
    simp [htrie', htries]
  refine ⟨by rw [hfinal], by rw [hcommit], ?_, ?_⟩
  · rw [hfinal]
    simp [exist, getStateObject_run_live hobj, hdel]
  · -- the trie opened again has no account at `a`
    have habsent : ({ w' with tries := Function.update w'.tries r (Function.update (w.tries r) a none) }
        : World).tries (StateDB.new r).trie a = none := by
      simp
    rw [hcommit]
    simp [exist, getStateObject_run_absent rfl habsent]

theorem commitTo_deletes_unmarked_suicide_roots :
    emptyAccountWorld.tries 0 1 = some ⟨0, 0, 0, 0⟩ ∧
      ((0 : Nat) = 0 ∧ (0 : Int) = 0 ∧ (0 : Hash) = presenceEnv.emptyCodeHash) ∧
      (1 : Address) ≠ ripemd ∧
      ((revertedTouchThenSuicide presenceEnv 1 >>= fun _ => intermediateRoot presenceEnv true).run
        (emptyAccountWorld, StateDB.new 0)).1 = 1 ∧
      ((commitTo presenceEnv true [1]).run
        ((revertedTouchThenSuicide presenceEnv 1 >>= fun _ => intermediateRoot presenceEnv true).run
          (emptyAccountWorld, StateDB.new 0)).2).1 = some 0 := by
  have hacc : emptyAccountWorld.tries 0 1 = some ⟨0, 0, 0, 0⟩ := rfl
  have hempty : (0 : Nat) = 0 ∧ (0 : Int) = 0 ∧ (0 : Hash) = presenceEnv.emptyCodeHash :=
    ⟨rfl, rfl, rfl⟩
  obtain ⟨hroot, hcommit, -, -⟩ := commitTo_deletes_unmarked_suicide presenceEnv emptyAccountWorld 0 1
    _ true hacc hempty (by decide)
  refine ⟨hacc, hempty, by decide, ?_, ?_⟩
  · rw [hroot]
    simp [presenceEnv, emptyAccountWorld]
  · rw [hcommit]
    simp [presenceEnv]

end GoGaia.State
