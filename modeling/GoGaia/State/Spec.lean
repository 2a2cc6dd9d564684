import GoGaia.Lib.StateRun
import GoGaia.State.StateDB

/-!
# What the `StateDB` methods do

One run equation per method, `x.run (w, s) = (result, (w', s'))`, under the conditions that pick
its branch: whether the object at the address is live, loadable from the account trie, or
absent. Later proofs cite these equations and never unfold a method. The pure updates of a
`StateDB` (`updateObj`, `fire`, `push` and the setters built from them) get their field lemmas
first, so that the states the equations name simplify to records.

`finalise_tries` says what the account trie holds after `Finalise`, address by address: the dirty
live objects' accounts, and elsewhere what it held before.
-/

namespace GoGaia.State

variable {env : Env} {w : World} {s : StateDB} {a b : Address} {o : StateObject} {acc : Account}

namespace StateDB

/-! ## The pure updates -/

theorem updateObj_of_some (f : StateObject → StateObject) (h : s.stateObjects a = some o) :
    s.updateObj a f = { s with stateObjects := Function.update s.stateObjects a (some (f o)) } := by
  simp [updateObj, h]

@[simp] theorem updateObj_stateObjectsDirty (f : StateObject → StateObject) :
    (s.updateObj a f).stateObjectsDirty = s.stateObjectsDirty := by
  unfold updateObj
  split <;> rfl

@[simp] theorem updateObj_trie (f : StateObject → StateObject) : (s.updateObj a f).trie = s.trie := by
  unfold updateObj
  split <;> rfl

/-- The callback fires on the object's first change and marks its address dirty. -/
theorem fire_of_onDirty (h : s.stateObjects a = some o) (hd : o.onDirty = true) :
    s.fire a =
      { s with
        stateObjectsDirty := Function.update s.stateObjectsDirty a true
        stateObjects := Function.update s.stateObjects a (some { o with onDirty := false }) } := by
  simp [fire, h, hd]

/-- A cleared callback does nothing: later changes leave the dirty set as it is. -/
theorem fire_of_not_onDirty (h : s.stateObjects a = some o) (hd : o.onDirty = false) :
    s.fire a = s := by
  simp [fire, h, hd]

@[simp] theorem fire_trie : (s.fire a).trie = s.trie := by
  unfold fire
  split
  · split <;> rfl
  · rfl

@[simp] theorem push_stateObjects (e : JournalEntry) : (s.push e).stateObjects = s.stateObjects :=
  rfl

@[simp] theorem push_stateObjectsDirty (e : JournalEntry) :
    (s.push e).stateObjectsDirty = s.stateObjectsDirty := rfl

@[simp] theorem push_trie (e : JournalEntry) : (s.push e).trie = s.trie := rfl

@[simp] theorem push_journal (e : JournalEntry) : (s.push e).journal = s.journal ++ [e] := rfl

@[simp] theorem push_validRevisions (e : JournalEntry) :
    (s.push e).validRevisions = s.validRevisions := rfl

@[simp] theorem new_trie (t : Nat) : (StateDB.new t).trie = t := rfl

@[simp] theorem copy_trie : s.copy.trie = s.trie := rfl

@[simp] theorem setBalance_trie (amount : Int) : (s.setBalance a amount).trie = s.trie := by
  simp [setBalance]

/-- `setBalance` on a live object whose callback has fired changes its balance and nothing
else. -/
theorem setBalance_of_not_onDirty (amount : Int) (h : s.stateObjects a = some o)
    (hd : o.onDirty = false) :
    s.setBalance a amount =
      { s with
        stateObjects :=
          Function.update s.stateObjects a (some { o with data := { o.data with balance := amount } }) } := by
  rw [setBalance, updateObj_of_some _ h, fire_of_not_onDirty]
  · exact Function.update_self _ _ _
  · exact hd

/-- `setBalance` on a live object whose callback is still set also marks the address dirty. -/
theorem setBalance_of_onDirty (amount : Int) (h : s.stateObjects a = some o)
    (hd : o.onDirty = true) :
    s.setBalance a amount =
      { s with
        stateObjectsDirty := Function.update s.stateObjectsDirty a true
        stateObjects := Function.update s.stateObjects a
          (some { o with data := { o.data with balance := amount }, onDirty := false }) } := by
  rw [setBalance, updateObj_of_some _ h, fire_of_onDirty]
  rotate_left
  · exact Function.update_self _ _ _
  · exact hd
  · simp

/-- The first `touch` of a live object journals that it was untouched and clean, marks its
address dirty and clears its callback. -/
theorem touch_of_onDirty (h : s.stateObjects a = some o) (hd : o.onDirty = true) :
    s.touch a =
      { s.push (.touchChange a o.touched false) with
        stateObjectsDirty := Function.update s.stateObjectsDirty a true
        stateObjects := Function.update s.stateObjects a
          (some { o with onDirty := false, touched := true }) } := by
  have hp : (s.push (.touchChange a o.touched false)).stateObjects a = some o := h
  simp only [touch, h, hd, Bool.not_true]
  rw [fire_of_onDirty hp hd, updateObj_of_some _ (Function.update_self _ _ _)]
  simp [push]

end StateDB

/-! ## Loading objects -/

theorem getStateObject_run_live (h : s.stateObjects a = some o) :
    (getStateObject a).run (w, s) = (if o.deleted then none else some o, (w, s)) := by
  simp [getStateObject, h]

/-- An address with no live object is loaded from the account trie, callback set. -/
theorem getStateObject_run_load (h : s.stateObjects a = none) (ht : w.tries s.trie a = some acc) :
    (getStateObject a).run (w, s) =
      (some (StateObject.new a acc true),
        (w, { s with
          stateObjects := Function.update s.stateObjects a (some (StateObject.new a acc true)) })) := by
  simp [getStateObject, h, ht]

theorem getStateObject_run_absent (h : s.stateObjects a = none) (ht : w.tries s.trie a = none) :
    (getStateObject a).run (w, s) = (none, (w, s)) := by
  simp [getStateObject, h, ht]

theorem liveObject_run : (liveObject a).run (w, s) = (s.stateObjects a, (w, s)) := rfl

theorem getOrNewStateObject_run_load (h : s.stateObjects a = none)
    (ht : w.tries s.trie a = some acc) :
    (getOrNewStateObject env a).run (w, s) =
      ((), (w, { s with
        stateObjects := Function.update s.stateObjects a (some (StateObject.new a acc true)) })) := by
  simp [getOrNewStateObject, getStateObject_run_load h ht, StateObject.new]

/-- An address with no account gets a new empty one, marked dirty, its creation journaled. -/
theorem getOrNewStateObject_run_absent (h : s.stateObjects a = none)
    (ht : w.tries s.trie a = none) :
    (getOrNewStateObject env a).run (w, s) =
      ((), (w, { s.push (.createObjectChange a) with
        stateObjectsDirty := Function.update s.stateObjectsDirty a true
        stateObjects := Function.update s.stateObjects a
          (some (StateObject.new a ⟨0, 0, 0, env.emptyCodeHash⟩ false)) })) := by
  simp [getOrNewStateObject, createObject, modifyDB, getStateObject_run_absent h ht,
    StateDB.push, StateObject.new]

/-! ## Balances -/

theorem objSetBalance_run (amount : Int) (h : s.stateObjects a = some o) :
    (objSetBalance a amount).run (w, s) =
      ((), (w, (s.push (.balanceChange a o.data.balance)).setBalance a amount)) := by
  simp [objSetBalance, liveObject_run, h, modifyDB]

/-- `AddBalance` of a non-zero amount, from the state `GetOrNewStateObject` left: the balance
change is journaled and made. -/
theorem addBalance_run {amount : Int} {ws : World × StateDB} {s' : StateDB} (hne : amount ≠ 0)
    (hg : (getOrNewStateObject env a).run ws = ((), (w, s'))) (h : s'.stateObjects a = some o) :
    (addBalance env a amount).run ws =
      ((), (w, (s'.push (.balanceChange a o.data.balance)).setBalance a (o.data.balance + amount))) := by
  rw [addBalance, StateM.run_bind_of hg]
  simp [liveObject_run, h, hne, objSetBalance_run _ h]

/-- `AddBalance` of zero to an empty account, from the state `GetOrNewStateObject` left, only
touches it (EIP-158). -/
theorem addBalance_run_zero {ws : World × StateDB} {s' : StateDB}
    (hg : (getOrNewStateObject env a).run ws = ((), (w, s'))) (h : s'.stateObjects a = some o)
    (he : o.empty env = true) :
    (addBalance env a 0).run ws = ((), (w, s'.touch a)) := by
  rw [addBalance, StateM.run_bind_of hg]
  simp [liveObject_run, h, he, modifyDB]

/-- `Suicide` of a live object whose callback has already fired marks it suicided and clears its
balance, and leaves the dirty set as it is. -/
theorem suicide_run_of_not_onDirty (h : s.stateObjects a = some o) (hd : o.deleted = false)
    (hcb : o.onDirty = false) :
    (suicide a).run (w, s) =
      (true, (w, { s.push (.suicideChange a o.suicided o.data.balance) with
        stateObjects := Function.update s.stateObjects a
          (some { o with suicided := true, data := { o.data with balance := 0 } }) })) := by
  have hp : (s.push (.suicideChange a o.suicided o.data.balance)).stateObjects a = some o := h
  -- the callback has fired, so marking the object suicided leaves the dirty set alone
  have hm : (s.push (.suicideChange a o.suicided o.data.balance)).markSuicided a =
      { s.push (.suicideChange a o.suicided o.data.balance) with
        stateObjects := Function.update s.stateObjects a (some { o with suicided := true }) } := by
    rw [StateDB.markSuicided, StateDB.updateObj_of_some _ hp,
      StateDB.fire_of_not_onDirty (o := { o with suicided := true }) (Function.update_self _ _ _) hcb]
    rfl
  simp only [suicide, StateT.run_bind, getStateObject_run_live h, hd, Bool.false_eq_true, if_false,
    Id.bind_eq_apply, modifyDB, StateT.run_modify, hm]
  rw [StateDB.updateObj_of_some _ (Function.update_self _ _ _)]
  simp [StateDB.push]

/-- With no live object at the address, the balance read is the trie's, zero for no account. -/
theorem getBalance_run_of_none (h : s.stateObjects a = none) :
    ((getBalance a).run (w, s)).1 = ((w.tries s.trie a).map Account.balance).getD 0 := by
  cases ht : w.tries s.trie a with
  | none => simp [getBalance, getStateObject_run_absent h ht]
  | some acc => simp [getBalance, getStateObject_run_load h ht, StateObject.new]

/-! ## Snapshots and revert -/

theorem snapshot_run :
    snapshot.run (w, s) =
      (s.nextRevisionId, (w, { s with
        nextRevisionId := s.nextRevisionId + 1
        validRevisions := s.validRevisions ++ [Revision.mk s.nextRevisionId s.journal.length] })) :=
  rfl

theorem undoAll_run_cons {e : JournalEntry} {es : List JournalEntry} {ws : World × StateDB}
    (hu : (undo e).run (w, s) = ((), ws)) : (undoAll (e :: es)).run (w, s) = (undoAll es).run ws :=
  StateM.run_bind_of hu

/-- Undoing a balance change of a live object sets the balance back; its dirty mark, and its
cleared callback, stay as they are. -/
theorem undo_balanceChange_run {prev : Int} (h : s.stateObjects a = some o)
    (hd : o.deleted = false) :
    (undo (.balanceChange a prev)).run (w, s) = ((), (w, s.setBalance a prev)) := by
  simp [undo, getStateObject_run_live h, hd, modifyDB]

/-- Undoing the first touch of an account other than `ripemd` marks it untouched and clean again;
its callback stays cleared, so later changes do not mark it dirty. -/
theorem undo_touchChange_run (h : s.stateObjects a = some o) (hd : o.deleted = false)
    (ha : a ≠ ripemd) :
    (undo (.touchChange a false false)).run (w, s) =
      ((), (w, { s with
        stateObjects := Function.update s.stateObjects a (some { o with touched := false })
        stateObjectsDirty := Function.update s.stateObjectsDirty a false })) := by
  simp [undo, getStateObject_run_live h, hd, ha, modifyDB, StateDB.updateObj_of_some _ h]

/-- Reverting to the revision at `idx`: the journal from the revision on is undone, last entry
first, then cut back, and the revisions from `idx` on are dropped. -/
theorem revertToSnapshot_run {revid idx : Nat} {rev : Revision} {w' : World} {s' : StateDB}
    (hidx : s.validRevisions.findIdx? (fun r => decide (r.id ≥ revid)) = some idx)
    (hrev : s.validRevisions[idx]? = some rev) (hid : rev.id = revid)
    (hu : (undoAll (s.journal.drop rev.journalIndex).reverse).run (w, s) = ((), (w', s'))) :
    (revertToSnapshot revid).run (w, s) =
      (true, (w', { s' with
        journal := s'.journal.take rev.journalIndex
        validRevisions := s'.validRevisions.take idx })) := by
  simp only [revertToSnapshot, StateT.run_bind, StateT.run_get, Id.pure_eq_self, Id.bind_eq_apply,
    hidx, Option.getD_some, hrev, hid, if_true, hu]
  simp [modifyDB]

/-- `revertToSnapshot_run` inside a `do` block. -/
theorem revertToSnapshot_run_bind {β : Type} {revid idx : Nat} {rev : Revision} {w' : World}
    {s' : StateDB} {f : Bool → StateOp β}
    (hidx : s.validRevisions.findIdx? (fun r => decide (r.id ≥ revid)) = some idx)
    (hrev : s.validRevisions[idx]? = some rev) (hid : rev.id = revid)
    (hu : (undoAll (s.journal.drop rev.journalIndex).reverse).run (w, s) = ((), (w', s'))) :
    (revertToSnapshot revid >>= f).run (w, s) =
      (f true).run (w', { s' with
        journal := s'.journal.take rev.journalIndex
        validRevisions := s'.validRevisions.take idx }) :=
  StateM.run_bind_of (revertToSnapshot_run hidx hrev hid hu)

/-! ## Finalise -/

/-- A suicided object, or an empty one when empty objects are deleted, leaves the trie. -/
theorem finaliseObject_deleted {del : Bool} (h : o.suicided = true ∨ (del = true ∧ o.empty env = true)) :
    (finaliseObject env w del o).2 = none := by
  simp [finaliseObject, h]

/-- Any other object is written to the trie with its storage root updated. -/
theorem finaliseObject_kept {del : Bool} (h : ¬(o.suicided = true ∨ (del = true ∧ o.empty env = true))) :
    (finaliseObject env w del o).2 = some (o.updateRoot env w).data := by
  simp [finaliseObject, h]

/-- The account trie after `Finalise`: at a dirty address with a live object, what
`finaliseObject` makes of it; anywhere else, what the trie held. -/
theorem finalise_tries {del : Bool} (b : Address) :
    ((finalise env del).run (w, s)).2.1.tries s.trie b =
      match s.stateObjects b with
      | some o => if s.stateObjectsDirty b then (finaliseObject env w del o).2 else w.tries s.trie b
      | none => w.tries s.trie b := by
  simp only [finalise, StateT.run_bind, StateT.run_get, StateT.run_set, Id.bind_eq_apply]
  split
  · split <;> simp_all
  · simp_all

/-- `Finalise` leaves the trie as it was at every address that is not dirty. -/
theorem finalise_tries_of_clean {del : Bool} (h : s.stateObjectsDirty b = false) :
    ((finalise env del).run (w, s)).2.1.tries s.trie b = w.tries s.trie b := by
  rw [finalise_tries]
  split <;> simp [h]

/-- `Finalise` leaves the live object as it was at every address that is not dirty. -/
theorem finalise_stateObjects_of_clean {del : Bool} (h : s.stateObjectsDirty b = false) :
    ((finalise env del).run (w, s)).2.2.stateObjects b = s.stateObjects b := by
  cases hb : s.stateObjects b <;> simp [finalise, hb, h]

theorem finalise_trie {del : Bool} : ((finalise env del).run (w, s)).2.2.trie = s.trie := rfl

/-- `IntermediateRoot` returns the root of the trie `Finalise` leaves. -/
theorem intermediateRoot_run {del : Bool} :
    (intermediateRoot env del).run (w, s) =
      (env.stateRoot (((finalise env del).run (w, s)).2.1.tries s.trie),
        ((finalise env del).run (w, s)).2) := by
  simp [intermediateRoot, finalise_trie]

/-! ## CommitTo -/

/-- `CommitTo` deletes a suicided object, or a dirty empty one when empty objects are deleted,
from the trie, whether or not its address is dirty. -/
theorem commitObject_run_deleted {del : Bool}
    (h : o.suicided = true ∨ (s.stateObjectsDirty a = true ∧ del = true ∧ o.empty env = true)) :
    (commitObject env del a o).run (w, s) =
      (true, ({ w with tries := Function.update w.tries s.trie (Function.update (w.tries s.trie) a none) },
        { s with
          stateObjects := Function.update s.stateObjects a (some { o with deleted := true })
          stateObjectsDirty := Function.update s.stateObjectsDirty a false })) := by
  simp [commitObject, h]

theorem commitObjects_run_nil {del : Bool} {ws : World × StateDB} :
    (commitObjects env del []).run ws = (true, ws) := rfl

/-- The loop of `CommitTo` goes on from a live object committed without an error. -/
theorem commitObjects_run_cons {del : Bool} {as : List Address} {ws : World × StateDB}
    (h : s.stateObjects a = some o) (hc : (commitObject env del a o).run (w, s) = (true, ws)) :
    (commitObjects env del (a :: as)).run (w, s) = (commitObjects env del as).run ws := by
  simp only [commitObjects, StateT.run_bind, liveObject_run, h, Id.bind_eq_apply, hc, if_true]

/-- A loop of `CommitTo` without an error returns the root of the trie it leaves. -/
theorem commitTo_run {del : Bool} {order : List Address} {w' : World} {s' : StateDB}
    (hc : (commitObjects env del order).run (w, s) = (true, (w', s'))) :
    (commitTo env del order).run (w, s) =
      (some (env.stateRoot (w'.tries s'.trie)),
        (w', { s' with journal := [], validRevisions := [], refund := 0 })) := by
  rw [commitTo, StateM.run_bind_of hc]
  simp [modifyDB]

end GoGaia.State
