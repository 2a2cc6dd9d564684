import GoGaia.State.Object

/-!
# The state database

`StateDB` of `core/state/statedb.go` with its journal (`core/state/journal.go`). A `StateDB`
keeps live state objects, the set of addresses marked dirty, the refund counter, logs,
preimages, and the journal of undo entries that `Snapshot` and `RevertToSnapshot` work on.

Every method runs in `StateOp`, a state computation over the world and the `StateDB`: getters
too, since a read loads an object into the live set or caches what it read. The object methods
of `state_object.go` act on the object the `StateDB` holds at an address; the `onDirty` callback
marks that address dirty the first time the object changes (`StateDB.fire`).

`Finalise` writes every dirty object to the account trie, which the `StateDB` holds by reference
in the world's heap of tries; its loop over the dirty addresses writes each address's own entry,
so the model writes them all at once. `CommitTo` visits every live object instead, and can stop
at an error, so its loop is run over a list of addresses: the order in which Go's `range` meets
the live objects, which the caller chooses.
-/

namespace GoGaia.State

/-- A journal entry and what its `undo` needs (`journalEntry`). -/
inductive JournalEntry where
  | createObjectChange (account : Address)
  | resetObjectChange (prev : StateObject)
  | suicideChange (account : Address) (prev : Bool) (prevbalance : Int)
  | balanceChange (account : Address) (prev : Int)
  | nonceChange (account : Address) (prev : Nat)
  | storageChange (account : Address) (key prevalue : Hash)
  | codeChange (account : Address) (prevcode : Option (List UInt8)) (prevhash : Hash)
  | refundChange (prev : Int)
  | addLogChange (txhash : Hash)
  | addPreimageChange (hash : Hash)
  | touchChange (account : Address) (prev prevDirty : Bool)

/-- `revision`: a snapshot id and the journal length it reverts to. -/
structure Revision where
  id : Nat
  journalIndex : Nat
deriving Repr, DecidableEq, Inhabited

/-- `StateDB`. `trie` refers to the account trie in the world; `stateObjectsDirty` is the set of
dirty addresses. -/
structure StateDB where
  trie : Nat
  stateObjects : Address → Option StateObject
  stateObjectsDirty : Address → Bool
  dbErr : Bool
  refund : Int
  thash : Hash
  bhash : Hash
  txIndex : Nat
  logs : Hash → List Log
  logSize : Nat
  preimages : Hash → Option (List UInt8)
  journal : List JournalEntry
  validRevisions : List Revision
  nextRevisionId : Nat

/-- State computations of the `StateDB` methods. -/
abbrev StateOp := StateM (World × StateDB)

namespace StateDB

/-- `New(root, db)` on the account trie `trie` of the world. -/
def new (trie : Nat) : StateDB where
  trie := trie
  stateObjects := fun _ => none
  stateObjectsDirty := fun _ => false
  dbErr := false
  refund := 0
  thash := 0
  bhash := 0
  txIndex := 0
  logs := fun _ => []
  logSize := 0
  preimages := fun _ => none
  journal := []
  validRevisions := []
  nextRevisionId := 0

/-! ## Objects at an address -/

/-- Replaces the live object at `addr` by `f` of it. -/
def updateObj (s : StateDB) (addr : Address) (f : StateObject → StateObject) : StateDB :=
  match s.stateObjects addr with
  | some o => { s with stateObjects := Function.update s.stateObjects addr (some (f o)) }
  | none => s

/-- The object's `onDirty` callback, `MarkStateObjectDirty`, called once and then cleared. -/
def fire (s : StateDB) (addr : Address) : StateDB :=
  match s.stateObjects addr with
  | some o =>
    if o.onDirty then
      { s with
        stateObjectsDirty := Function.update s.stateObjectsDirty addr true
        stateObjects := Function.update s.stateObjects addr (some { o with onDirty := false }) }
    else s
  | none => s

/-- Appends a journal entry. -/
def push (s : StateDB) (e : JournalEntry) : StateDB := { s with journal := s.journal ++ [e] }

/-- `stateObject.setBalance`. -/
def setBalance (s : StateDB) (addr : Address) (amount : Int) : StateDB :=
  (s.updateObj addr fun o => { o with data := { o.data with balance := amount } }).fire addr

/-- `stateObject.setNonce`. -/
def setNonce (s : StateDB) (addr : Address) (nonce : Nat) : StateDB :=
  (s.updateObj addr fun o => { o with data := { o.data with nonce := nonce } }).fire addr

/-- `stateObject.setCode`. -/
def setCode (s : StateDB) (addr : Address) (codeHash : Hash) (code : Option (List UInt8)) :
    StateDB :=
  (s.updateObj addr fun o =>
    { o with code := code, data := { o.data with codeHash := codeHash }, dirtyCode := true }).fire
    addr

/-- `stateObject.setState`. -/
def setState (s : StateDB) (addr : Address) (key value : Hash) : StateDB :=
  (s.updateObj addr fun o =>
    { o with
      cachedStorage := Function.update o.cachedStorage key (some value)
      dirtyStorage := Function.update o.dirtyStorage key (some value) }).fire addr

/-- `stateObject.markSuicided`. -/
def markSuicided (s : StateDB) (addr : Address) : StateDB :=
  (s.updateObj addr fun o => { o with suicided := true }).fire addr

/-- `stateObject.touch`: journals the previous `touched` flag and whether the callback was
already cleared, fires the callback and sets the flag. -/
def touch (s : StateDB) (addr : Address) : StateDB :=
  match s.stateObjects addr with
  | some o =>
    ((s.push (.touchChange addr o.touched (!o.onDirty))).fire addr).updateObj addr
      fun o => { o with touched := true }
  | none => s

end StateDB

/-! ## Loading and creating objects -/

/-- Runs a function of the `StateDB`. -/
def modifyDB (f : StateDB → StateDB) : StateOp Unit :=
  modify fun ws => (ws.1, f ws.2)

/-- `getStateObject`: the live object unless it was deleted; else the account in the trie,
loaded into the live set with its callback set. -/
def getStateObject (addr : Address) : StateOp (Option StateObject) := do
  let (w, s) ← get
  match s.stateObjects addr with
  | some o => pure (if o.deleted then none else some o)
  | none =>
    match w.tries s.trie addr with
    | none => pure none
    | some data =>
      let o := StateObject.new addr data true
      set (w, { s with stateObjects := Function.update s.stateObjects addr (some o) })
      pure (some o)

/-- `createObject`: a new object with nonce zero, replacing the one there; the journal records
the creation, or the object replaced. Returns the object replaced. -/
def createObject (env : Env) (addr : Address) : StateOp (Option StateObject) := do
  let prev ← getStateObject addr
  let o := StateObject.new addr ⟨0, 0, 0, env.emptyCodeHash⟩ true
  modifyDB fun s =>
    -- `newobj.setNonce(0)` marks the object dirty before it is set
    let s := { s with stateObjectsDirty := Function.update s.stateObjectsDirty addr true }
    let s := match prev with
      | none => s.push (.createObjectChange addr)
      | some p => s.push (.resetObjectChange p)
    { s with stateObjects := Function.update s.stateObjects addr (some { o with onDirty := false }) }
  pure prev

/-- `GetOrNewStateObject`. -/
def getOrNewStateObject (env : Env) (addr : Address) : StateOp Unit := do
  match ← getStateObject addr with
  | some o => if o.deleted then do let _ ← createObject env addr else pure ()
  | none => do let _ ← createObject env addr

/-- The live object at `addr`, if any, without loading. -/
def liveObject (addr : Address) : StateOp (Option StateObject) := do
  let (_, s) ← get
  pure (s.stateObjects addr)

/-! ## Setters -/

/-- `stateObject.SetBalance`: journals the previous balance. -/
def objSetBalance (addr : Address) (amount : Int) : StateOp Unit := do
  match ← liveObject addr with
  | some o => modifyDB fun s => (s.push (.balanceChange addr o.data.balance)).setBalance addr amount
  | none => pure ()

/-- `AddBalance`: adding zero only touches an empty account (EIP-158). -/
def addBalance (env : Env) (addr : Address) (amount : Int) : StateOp Unit := do
  getOrNewStateObject env addr
  match ← liveObject addr with
  | some o =>
    if amount = 0 then
      if o.empty env then modifyDB fun s => s.touch addr
    else objSetBalance addr (o.data.balance + amount)
  | none => pure ()

/-- `SubBalance`. -/
def subBalance (env : Env) (addr : Address) (amount : Int) : StateOp Unit := do
  getOrNewStateObject env addr
  match ← liveObject addr with
  | some o => if amount = 0 then pure () else objSetBalance addr (o.data.balance - amount)
  | none => pure ()

/-- `SetBalance`. -/
def setBalance (env : Env) (addr : Address) (amount : Int) : StateOp Unit := do
  getOrNewStateObject env addr
  objSetBalance addr amount

/-- `SetNonce`. -/
def setNonce (env : Env) (addr : Address) (nonce : Nat) : StateOp Unit := do
  getOrNewStateObject env addr
  match ← liveObject addr with
  | some o => modifyDB fun s => (s.push (.nonceChange addr o.data.nonce)).setNonce addr nonce
  | none => pure ()

/-- The object's `Code`, loading it. -/
def objCode (env : Env) (addr : Address) : StateOp (Option (List UInt8)) := do
  let (w, s) ← get
  match s.stateObjects addr with
  | some o =>
    let (c, o) := o.loadCode env w
    set (w, { s with stateObjects := Function.update s.stateObjects addr (some o) })
    pure c
  | none => pure none

/-- `SetCode`: journals the previous code and code hash. -/
def setCode (env : Env) (addr : Address) (code : List UInt8) : StateOp Unit := do
  getOrNewStateObject env addr
  let prevcode ← objCode env addr
  match ← liveObject addr with
  | some o =>
    modifyDB fun s =>
      (s.push (.codeChange addr prevcode o.data.codeHash)).setCode addr (env.keccak code)
        (some code)
  | none => pure ()

/-- The object's `GetState`. -/
def objGetState (env : Env) (addr : Address) (key : Hash) : StateOp Hash := do
  let (w, s) ← get
  match s.stateObjects addr with
  | some o =>
    let (v, o) := o.getState env w key
    set (w, { s with stateObjects := Function.update s.stateObjects addr (some o) })
    pure v
  | none => pure 0

/-- `SetState`: journals the previous value. -/
def setState (env : Env) (addr : Address) (key value : Hash) : StateOp Unit := do
  getOrNewStateObject env addr
  let prev ← objGetState env addr key
  modifyDB fun s => (s.push (.storageChange addr key prev)).setState addr key value

/-- `Suicide`: marks the account suicided and clears its balance. -/
def suicide (addr : Address) : StateOp Bool := do
  match ← getStateObject addr with
  | none => pure false
  | some o =>
    modifyDB fun s =>
      ((s.push (.suicideChange addr o.suicided o.data.balance)).markSuicided addr).updateObj addr
        fun o => { o with data := { o.data with balance := 0 } }
    pure true

/-- `CreateAccount`: a new account that carries over the balance of the one it replaces. -/
def createAccount (env : Env) (addr : Address) : StateOp Unit := do
  match ← createObject env addr with
  | some prev => modifyDB fun s => s.setBalance addr prev.data.balance
  | none => pure ()

/-- `AddRefund`. -/
def addRefund (gas : Int) : StateOp Unit :=
  modifyDB fun s => { s.push (.refundChange s.refund) with refund := s.refund + gas }

/-- `AddLog`: the log gets the current transaction's hash and index, the block hash and its
index among the logs. -/
def addLog (log : Log) : StateOp Unit :=
  modifyDB fun s =>
    let log := { log with
      txHash := s.thash
      blockHash := s.bhash
      txIndex := s.txIndex
      index := s.logSize }
    { s.push (.addLogChange s.thash) with
      logs := Function.update s.logs s.thash (s.logs s.thash ++ [log])
      logSize := s.logSize + 1 }

/-- `AddPreimage`: recorded once. -/
def addPreimage (hash : Hash) (preimage : List UInt8) : StateOp Unit :=
  modifyDB fun s =>
    match s.preimages hash with
    | some _ => s
    | none =>
      { s.push (.addPreimageChange hash) with
        preimages := Function.update s.preimages hash (some preimage) }

/-! ## Getters -/

/-- `Exist`. -/
def exist (addr : Address) : StateOp Bool := do
  return (← getStateObject addr).isSome

/-- `Empty`: no live account, or an empty one. -/
def empty (env : Env) (addr : Address) : StateOp Bool := do
  match ← getStateObject addr with
  | some o => pure (o.empty env)
  | none => pure true

/-- `GetBalance`. -/
def getBalance (addr : Address) : StateOp Int := do
  match ← getStateObject addr with
  | some o => pure o.data.balance
  | none => pure 0

/-- `GetNonce`. -/
def getNonce (addr : Address) : StateOp Nat := do
  match ← getStateObject addr with
  | some o => pure o.data.nonce
  | none => pure 0

/-- `GetCode`. -/
def getCode (env : Env) (addr : Address) : StateOp (Option (List UInt8)) := do
  match ← getStateObject addr with
  | some _ => objCode env addr
  | none => pure none

/-- `GetCodeHash`: the zero hash for no account. -/
def getCodeHash (addr : Address) : StateOp Hash := do
  match ← getStateObject addr with
  | some o => pure o.data.codeHash
  | none => pure 0

/-- `GetCodeSize`: the loaded code's length, else the stored code's. -/
def getCodeSize (addr : Address) : StateOp Nat := do
  match ← getStateObject addr with
  | some o =>
    match o.code with
    | some c => pure c.length
    | none =>
      let (w, _) ← get
      match w.code o.data.codeHash with
      | some c => pure c.length
      | none =>
        modifyDB fun s => { s with dbErr := true }
        pure 0
  | none => pure 0

/-- `GetState`. -/
def getState (env : Env) (addr : Address) (key : Hash) : StateOp Hash := do
  match ← getStateObject addr with
  | some _ => objGetState env addr key
  | none => pure 0

/-- `HasSuicided`. -/
def hasSuicided (addr : Address) : StateOp Bool := do
  match ← getStateObject addr with
  | some o => pure o.suicided
  | none => pure false

/-- `GetRefund`. -/
def getRefund : StateOp Int := do
  return (← get).2.refund

/-- `GetLogs`. -/
def getLogs (hash : Hash) : StateOp (List Log) := do
  return (← get).2.logs hash

/-- `Preimages`. -/
def preimages : StateOp (Hash → Option (List UInt8)) := do
  return (← get).2.preimages

/-! ## Journal, snapshots and revert -/

/-- `undo` of a journal entry. Entries that address an object reach it through
`getStateObject`; when it returns nil, where Go would dereference a nil pointer, nothing is
done. -/
def undo : JournalEntry → StateOp Unit
  | .createObjectChange a =>
    modifyDB fun s =>
      { s with
        stateObjects := Function.update s.stateObjects a none
        stateObjectsDirty := Function.update s.stateObjectsDirty a false }
  | .resetObjectChange prev =>
    modifyDB fun s =>
      { s with stateObjects := Function.update s.stateObjects prev.address (some prev) }
  | .suicideChange a prev prevbalance => do
    match ← getStateObject a with
    | some _ =>
      modifyDB fun s => (s.updateObj a fun o => { o with suicided := prev }).setBalance a prevbalance
    | none => pure ()
  | .touchChange a prev prevDirty => do
    if !prev ∧ a ≠ ripemd then
      match ← getStateObject a with
      | some _ =>
        modifyDB fun s =>
          let s := s.updateObj a fun o => { o with touched := prev }
          if !prevDirty then
            { s with stateObjectsDirty := Function.update s.stateObjectsDirty a false }
          else s
      | none => pure ()
  | .balanceChange a prev => do
    match ← getStateObject a with
    | some _ => modifyDB fun s => s.setBalance a prev
    | none => pure ()
  | .nonceChange a prev => do
    match ← getStateObject a with
    | some _ => modifyDB fun s => s.setNonce a prev
    | none => pure ()
  | .codeChange a prevcode prevhash => do
    match ← getStateObject a with
    | some _ => modifyDB fun s => s.setCode a prevhash prevcode
    | none => pure ()
  | .storageChange a key prevalue => do
    match ← getStateObject a with
    | some _ => modifyDB fun s => s.setState a key prevalue
    | none => pure ()
  | .refundChange prev => modifyDB fun s => { s with refund := prev }
  | .addLogChange txhash =>
    modifyDB fun s =>
      { s with
        logs := Function.update s.logs txhash (s.logs txhash).dropLast
        logSize := s.logSize - 1 }
  | .addPreimageChange hash =>
    modifyDB fun s => { s with preimages := Function.update s.preimages hash none }

/-- Undoes the entries of a journal from its last one back. -/
def undoAll : List JournalEntry → StateOp Unit
  | [] => pure ()
  | e :: es => do
    undo e
    undoAll es

/-- `Snapshot`: a new revision id recording the journal's length. -/
def snapshot : StateOp Nat := do
  let (w, s) ← get
  set (w, { s with
    nextRevisionId := s.nextRevisionId + 1
    validRevisions := s.validRevisions ++ [Revision.mk s.nextRevisionId s.journal.length] })
  pure s.nextRevisionId

/-- `RevertToSnapshot`: undoes the journal back to the revision and drops the revisions from it
on. An id that is not a valid revision makes Go panic; the model then changes nothing and
returns `false`. -/
def revertToSnapshot (revid : Nat) : StateOp Bool := do
  let (_, s) ← get
  let idx := (s.validRevisions.findIdx? fun r => decide (r.id ≥ revid)).getD s.validRevisions.length
  match s.validRevisions[idx]? with
  | some r =>
    if r.id = revid then
      undoAll (s.journal.drop r.journalIndex).reverse
      modifyDB fun s =>
        { s with journal := s.journal.take r.journalIndex, validRevisions := s.validRevisions.take idx }
      pure true
    else pure false
  | none => pure false

/-! ## Finalise -/

/-- What `Finalise` does with a dirty object: a suicided object, or an empty one when empty
objects are deleted, is deleted from the trie and marked deleted; any other has its storage
root updated and is written to the trie. -/
def finaliseObject (env : Env) (w : World) (deleteEmptyObjects : Bool) (o : StateObject) :
    StateObject × Option Account :=
  if o.suicided ∨ (deleteEmptyObjects ∧ o.empty env) then ({ o with deleted := true }, none)
  else
    let o := o.updateRoot env w
    (o, some o.data)

/-- `Finalise`: every dirty object is written to, or deleted from, the account trie; then the
journal, the revisions and the refund are cleared. -/
def finalise (env : Env) (deleteEmptyObjects : Bool) : StateOp Unit := do
  let (w, s) ← get
  let step := fun a => match s.stateObjects a with
    | some o => if s.stateObjectsDirty a then some (finaliseObject env w deleteEmptyObjects o) else none
    | none => none
  let trie := fun a => match step a with
    | some (_, acc) => acc
    | none => w.tries s.trie a
  let objects := fun a => match step a with
    | some (o, _) => some o
    | none => s.stateObjects a
  set ({ w with tries := Function.update w.tries s.trie trie },
    { s with stateObjects := objects, journal := [], validRevisions := [], refund := 0 })

/-- `IntermediateRoot`: `Finalise`, then the root hash of the account trie. -/
def intermediateRoot (env : Env) (deleteEmptyObjects : Bool) : StateOp Hash := do
  finalise env deleteEmptyObjects
  let (w, s) ← get
  pure (env.stateRoot (w.tries s.trie))

/-! ## CommitTo -/

/-- One iteration of the loop of `CommitTo`, at the live object `o` of `a`: a suicided object,
or a dirty empty one when empty objects are deleted, is deleted from the trie and marked
deleted; any other dirty object has its code written to the code store if it was set, its
storage committed (`CommitTrie`), and its account written to the trie; a clean one is left as
it is. The address leaves the dirty set. `false` is the error of a storage trie that could not
be read, which ends the loop. -/
def commitObject (env : Env) (deleteEmptyObjects : Bool) (a : Address) (o : StateObject) :
    StateOp Bool := do
  let (w, s) ← get
  let isDirty := s.stateObjectsDirty a
  let clean := fun (s : StateDB) =>
    { s with stateObjectsDirty := Function.update s.stateObjectsDirty a false }
  if o.suicided ∨ (isDirty ∧ deleteEmptyObjects ∧ o.empty env) then
    -- `deleteStateObject`
    set ({ w with tries := Function.update w.tries s.trie (Function.update (w.tries s.trie) a none) },
      clean { s with stateObjects := Function.update s.stateObjects a (some { o with deleted := true }) })
    pure true
  else if isDirty then
    let (w, o) := match o.code with
      | some c =>
        if o.dirtyCode then
          ({ w with code := Function.update w.code o.data.codeHash (some c) }, { o with dirtyCode := false })
        else (w, o)
      | none => (w, o)
    let o := o.updateTrie env w
    if o.dbErr then
      set (w, { s with stateObjects := Function.update s.stateObjects a (some o) })
      pure false
    else
      -- the storage trie is written to the database under its root
      let t := o.trie.getD fun _ => 0
      let o := { o with data := { o.data with root := env.storageRoot t } }
      set ({ w with
          storage := Function.update w.storage (env.storageRoot t) (some t)
          tries := Function.update w.tries s.trie (Function.update (w.tries s.trie) a (some o.data)) },
        clean { s with stateObjects := Function.update s.stateObjects a (some o) })
      pure true
  else
    set (w, clean s)
    pure true

/-- The loop of `CommitTo` over the addresses in the order `range` visits the live objects. -/
def commitObjects (env : Env) (deleteEmptyObjects : Bool) : List Address → StateOp Bool
  | [] => pure true
  | a :: as => do
    match ← liveObject a with
    | some o =>
      if ← commitObject env deleteEmptyObjects a o then commitObjects env deleteEmptyObjects as
      else pure false
    | none => commitObjects env deleteEmptyObjects as

/-- `CommitTo`, visiting the live objects in `order`: the root of the committed account trie, or
`none` on an error; the journal, the revisions and the refund are cleared either way. The
account trie is committed in place, so `New(root, db)` on the root returned opens the trie the
`StateDB` refers to. -/
def commitTo (env : Env) (deleteEmptyObjects : Bool) (order : List Address) :
    StateOp (Option Hash) := do
  let ok ← commitObjects env deleteEmptyObjects order
  modifyDB fun s => { s with journal := [], validRevisions := [], refund := 0 }
  if ok then
    let (w, s) ← get
    pure (some (env.stateRoot (w.tries s.trie)))
  else pure none

/-! ## Copy -/

/-- `Copy`: a new `StateDB` on the same account trie, with deep copies of the dirty objects and
copies of the refund, the logs and the preimages; the journal, the revisions, the transaction
context and the error start empty. -/
def StateDB.copy (s : StateDB) : StateDB :=
  { StateDB.new s.trie with
    stateObjects := fun a =>
      if s.stateObjectsDirty a then (s.stateObjects a).map StateObject.deepCopy else none
    stateObjectsDirty := s.stateObjectsDirty
    refund := s.refund
    logs := s.logs
    logSize := s.logSize
    preimages := s.preimages }

end GoGaia.State
