import Mathlib
import GoGaia.TxPool.List

/-!
# The transaction pool

`TxPool` of `core/tx_pool.go` and the methods that move transactions between its structures:
`validateTx`, `add`, `enqueueTx`, `promoteTx`, `removeTx`, `promoteExecutables` with its
fairness and queue caps, `demoteUnexecutables`, `reset`, and the entry points `addTx`,
`addTxsLocked`, `AddLocal` and `AddRemote`.

The pool keeps its transactions in four places: `all` by hash, the strict `pending` lists and
the gapped `queue` lists by sender, and the `priced` heap. The Go maps are association lists
(`AList`), whose keys are distinct by construction; a loop over a map runs over its keys as the
loop starts, in the list's order, which is one of the orders Go's randomised iteration may take.
A Go method that mutates the list it holds through a pointer is modelled by writing the new list
back under its key.

`currentState` is what the pool reads of the state at the head, nonces and balances;
`pendingState` the nonces `ManagedState` tracks on top of it (`core/state/managed_state.go`).
Heartbeats are times in `beats`, and `now` is the time `time.Now()` returns.
-/

namespace GoGaia.Core

/-- The errors of `validateTx`, `add` and `enqueueTx`. -/
inductive TxError where
  | oversizedData
  | negativeValue
  | gasLimit
  | invalidSender
  | underpriced
  | nonceTooLow
  | insufficientFunds
  | intrinsicGas
  | knownTransaction (hash : Hash)
  | replaceUnderpriced
deriving DecidableEq, Repr

/-- `TxPoolConfig`, the fields the pool logic reads. -/
structure TxPoolConfig where
  noLocals : Bool
  priceLimit : Nat
  priceBump : Nat
  accountSlots : Nat
  globalSlots : Nat
  accountQueue : Nat
  globalQueue : Nat
deriving DecidableEq, Repr

/-- `DefaultTxPoolConfig`. -/
def TxPoolConfig.default : TxPoolConfig where
  noLocals := false
  priceLimit := 1
  priceBump := 10
  accountSlots := 16
  globalSlots := 4096
  accountQueue := 64
  globalQueue := 1024

/-- `sanitize`: a price limit or price bump below one is replaced by the default's. -/
def TxPoolConfig.sanitize (config : TxPoolConfig) : TxPoolConfig :=
  let config := if config.priceLimit < 1 then { config with priceLimit := 1 } else config
  if config.priceBump < 1 then { config with priceBump := 10 } else config

/-- What the pool reads of the state at the head. -/
structure ChainState where
  nonce : Address → Nat
  balance : Address → Int

/-- `TxPool`. -/
structure TxPool where
  config : TxPoolConfig
  gasPrice : Nat
  homestead : Bool
  currentState : ChainState
  pendingState : Address → Option Nat
  currentMaxGas : Nat
  locals : AccountSet
  pending : AList fun _ : Address => TxList
  queue : AList fun _ : Address => TxList
  beats : Address → Nat
  all : AList fun _ : Hash => Tx
  priced : PricedList
  now : Nat

/-- `IntrinsicGas` (`core/state_transition.go`): the base cost, and the cost of the data's zero
and non-zero bytes. -/
def intrinsicGas (data : List UInt8) (contractCreation homestead : Bool) : Nat :=
  let base := if contractCreation ∧ homestead then 53000 else 21000
  let nz := (data.filter (· ≠ 0)).length
  base + nz * 68 + (data.length - nz) * 4

namespace TxPool

/-! ## Reading and updating the pool's structures -/

/-- The transactions of `all`, in its order. -/
def allTxs (p : TxPool) : List Tx := p.all.entries.map (·.2)

/-- `pendingState.GetNonce`: the tracked nonce, else the head's. -/
def pendingNonce (p : TxPool) (addr : Address) : Nat :=
  (p.pendingState addr).getD (p.currentState.nonce addr)

/-- `pendingState.SetNonce`. -/
def setPendingNonce (p : TxPool) (addr : Address) (nonce : Nat) : TxPool :=
  { p with pendingState := Function.update p.pendingState addr (some nonce) }

/-- `delete(pool.all, hash)` followed by `pool.priced.Removed()`. -/
def deleteTx (p : TxPool) (hash : Hash) : TxPool :=
  let p := { p with all := p.all.erase hash }
  { p with priced := p.priced.removed p.allTxs }

/-- Drops the transactions from `all`, one stale heap entry each. -/
def deleteTxs (p : TxPool) (txs : List Tx) : TxPool := txs.foldl (fun p tx => p.deleteTx tx.hash) p

/-- `pool.all[hash] = tx` followed by `pool.priced.Put(tx)`. -/
def insertTx (p : TxPool) (hash : Hash) (tx : Tx) : TxPool :=
  { p with all := p.all.insert hash tx, priced := p.priced.put tx }

/-- Lowers the pending nonce to that of a dropped transaction, if it is below. -/
def lowerPendingNonce (p : TxPool) (addr : Address) (tx : Tx) : TxPool :=
  if p.pendingNonce addr > tx.nonce then p.setPendingNonce addr tx.nonce else p

/-- Writes an account's pending list back, or deletes it and its heartbeat when it is empty. -/
def storePending (p : TxPool) (addr : Address) (list : TxList) : TxPool :=
  if list.empty then
    { p with pending := p.pending.erase addr, beats := Function.update p.beats addr 0 }
  else { p with pending := p.pending.insert addr list }

/-- Writes an account's queue list back, or deletes it when it is empty. -/
def storeQueue (p : TxPool) (addr : Address) (list : TxList) : TxPool :=
  if list.empty then { p with queue := p.queue.erase addr }
  else { p with queue := p.queue.insert addr list }

/-! ## Validation and insertion -/

/-- `validateTx`. -/
def validateTx (p : TxPool) (tx : Tx) (isLocal : Bool) : Except TxError Unit :=
  if tx.size > 32 * 1024 then .error .oversizedData
  else if tx.value < 0 then .error .negativeValue
  else if p.currentMaxGas < tx.gas then .error .gasLimit
  else if !tx.signed then .error .invalidSender
  else
    let isLocal := isLocal || decide (tx.sender ∈ p.locals)
    if !isLocal ∧ p.gasPrice > tx.gasPrice then .error .underpriced
    else if p.currentState.nonce tx.sender > tx.nonce then .error .nonceTooLow
    else if p.currentState.balance tx.sender < tx.cost then .error .insufficientFunds
    else if tx.gas < intrinsicGas tx.data tx.isCreate p.homestead then .error .intrinsicGas
    else .ok ()

/-- `enqueueTx`: into the sender's queue list, creating it first; a transaction that does not
outbid the one with its nonce is rejected, but the list created for it stays. Returns whether a
queued transaction was replaced. -/
def enqueueTx (p : TxPool) (hash : Hash) (tx : Tx) : Except TxError Bool × TxPool :=
  let list := (p.queue.lookup tx.sender).getD (TxList.new false)
  let (inserted, old, list) := list.add tx p.config.priceBump
  let p := { p with queue := p.queue.insert tx.sender list }
  if !inserted then (.error .replaceUnderpriced, p)
  else
    let p := match old with
      | some old => p.deleteTx old.hash
      | none => p
    (.ok old.isSome, p.insertTx hash tx)

/-- `enqueueTx`, its result dropped, as its callers in `removeTx` and `demoteUnexecutables`
call it. -/
def enqueueTxs (p : TxPool) (txs : List Tx) : TxPool :=
  txs.foldl (fun p tx => (p.enqueueTx tx.hash tx).2) p

/-- `promoteTx`: into the account's pending list, creating it first; a transaction that does
not outbid the one with its nonce is dropped from the pool. The pending nonce moves past the
promoted transaction. -/
def promoteTx (p : TxPool) (addr : Address) (hash : Hash) (tx : Tx) : TxPool :=
  let list := (p.pending.lookup addr).getD (TxList.new true)
  let (inserted, old, list) := list.add tx p.config.priceBump
  let p := { p with pending := p.pending.insert addr list }
  if !inserted then p.deleteTx hash
  else
    let p := match old with
      | some old => p.deleteTx old.hash
      | none => p
    let p := if (p.all.lookup hash).isNone then p.insertTx hash tx else p
    let p := { p with beats := Function.update p.beats addr p.now }
    p.setPendingNonce addr (tx.nonce + 1)

/-! ## Removal -/

/-- The queue half of `removeTx`: the transaction leaves the sender's queue list. -/
def removeQueued (p : TxPool) (tx : Tx) : TxPool :=
  match p.queue.lookup tx.sender with
  | some future =>
    let (_, _, future) := future.remove tx
    p.storeQueue tx.sender future
  | none => p

/-- `removeTx`: the transaction leaves `all`; if it was pending, its list loses it and, being
strict, every transaction above it, which are queued again unless the list became empty, and
the pending nonce falls back to it; otherwise it leaves the queue. -/
def removeTx (p : TxPool) (hash : Hash) : TxPool :=
  match p.all.lookup hash with
  | none => p
  | some tx =>
    let addr := tx.sender
    let p := p.deleteTx hash
    match p.pending.lookup addr with
    | some pending =>
      let (removed, invalids, pending) := pending.remove tx
      if removed then
        let p := if pending.empty then p.storePending addr pending
          else (p.storePending addr pending).enqueueTxs invalids
        p.lowerPendingNonce addr tx
      else p.removeQueued tx
    | none => p.removeQueued tx

/-- `removeTx` of each transaction in turn. -/
def removeTxs (p : TxPool) (txs : List Tx) : TxPool := txs.foldl (fun p tx => p.removeTx tx.hash) p

/-! ## Promotion -/

/-- The loop body of `promoteExecutables` for one account: drop the queued transactions below
the head's nonce and those the account cannot pay, promote the ready ones, and cap the rest of a
remote account's queue. -/
def promoteAccount (p : TxPool) (addr : Address) : TxPool :=
  match p.queue.lookup addr with
  | none => p
  | some list =>
    let (olds, list) := list.forward (p.currentState.nonce addr)
    let p := p.deleteTxs olds
    let (drops, _, list) := list.filter (p.currentState.balance addr) p.currentMaxGas
    let p := p.deleteTxs drops
    let (ready, list) := list.ready (p.pendingNonce addr)
    let p := ready.foldl (fun p tx => p.promoteTx addr tx.hash tx) p
    let (caps, list) := if addr ∉ p.locals then list.cap p.config.accountQueue else ([], list)
    let p := p.deleteTxs caps
    p.storeQueue addr list

/-- The number of pending transactions. -/
def pendingCount (p : TxPool) : Nat := (p.pending.entries.map fun e => e.2.len).sum

/-- The number of queued transactions. -/
def queuedCount (p : TxPool) : Nat := (p.queue.entries.map fun e => e.2.len).sum

/-- The pending list of an account shortened by its highest transaction, which leaves the pool,
with the pending nonce lowered to it. -/
def trimPending (p : TxPool) (addr : Address) : TxPool :=
  match p.pending.lookup addr with
  | none => p
  | some list =>
    let (drops, list) := list.cap (list.len - 1)
    let p := { p with pending := p.pending.insert addr list }
    drops.foldl (fun p tx => (p.deleteTx tx.hash).lowerPendingNonce addr tx) p

/-- The length of an account's pending list. -/
def pendingLen (p : TxPool) (addr : Address) : Nat := ((p.pending.lookup addr).map TxList.len).getD 0

/-- One round of the fairness loops: every listed offender loses its highest pending
transaction, one pending count each. -/
def trimRound (p : TxPool) (offenders : List Address) (pending : Nat) : TxPool × Nat :=
  offenders.foldl (fun (p, pending) addr => (p.trimPending addr, pending - 1)) (p, pending)

/-- The inner loop of the fairness cap: while over the limit and the offender before the newest
is above `threshold`, all offenders but the newest lose a transaction. -/
def equalize (p : TxPool) (offenders : List Address) (threshold : Nat) :
    Nat → Nat → TxPool × Nat
  | 0, pending => (p, pending)
  | fuel + 1, pending =>
    if pending > p.config.globalSlots ∧
        p.pendingLen (offenders.getD (offenders.length - 2) 0) > threshold then
      let (p, pending) := p.trimRound offenders.dropLast pending
      p.equalize offenders threshold fuel pending
    else (p, pending)

/-- The outer loop of the fairness cap: pop offenders from `spammers`, largest first, and
equalize the offenders so far down to the newest one's length. -/
def popOffenders (p : TxPool) : List Address → List Address → Nat → TxPool × List Address × Nat
  | [], offenders, pending => (p, offenders, pending)
  | offender :: spammers, offenders, pending =>
    if pending > p.config.globalSlots then
      let offenders := offenders ++ [offender]
      let (p, pending) :=
        if offenders.length > 1 then p.equalize offenders (p.pendingLen offender) pending pending
        else (p, pending)
      p.popOffenders spammers offenders pending
    else (p, offenders, pending)

/-- The last loop of the fairness cap: while over the limit and the newest offender is above
the account allowance, every offender loses a transaction. -/
def reduceOffenders (p : TxPool) (offenders : List Address) : Nat → Nat → TxPool × Nat
  | 0, pending => (p, pending)
  | fuel + 1, pending =>
    if pending > p.config.globalSlots ∧
        p.pendingLen (offenders.getLastD 0) > p.config.accountSlots then
      let (p, pending) := p.trimRound offenders pending
      p.reduceOffenders offenders fuel pending
    else (p, pending)

/-- Inserts an address into a list by decreasing priority, after those of its priority. -/
def insertByPriority (prio : Address → Nat) (a : Address) : List Address → List Address
  | [] => [a]
  | b :: bs => if prio a > prio b then a :: b :: bs else b :: insertByPriority prio a bs

/-- The pending cap of `promoteExecutables`: above `GlobalSlots` pending transactions, the
remote accounts above `AccountSlots` lose transactions, the largest first, until all are
equal or the pool is under the limit, then down to `AccountSlots`. -/
def capPending (p : TxPool) : TxPool :=
  let pending := p.pendingCount
  if pending > p.config.globalSlots then
    let spammers := (p.pending.keys.filter fun addr =>
        addr ∉ p.locals ∧ p.pendingLen addr > p.config.accountSlots).foldl
      (fun q addr => insertByPriority p.pendingLen addr q) []
    let (p, offenders, pending) := p.popOffenders spammers [] pending
    if pending > p.config.globalSlots ∧ offenders.length > 0 then
      (p.reduceOffenders offenders pending pending).1
    else p
  else p

/-- Inserts an address into a list by increasing heartbeat. -/
def insertByBeat (beats : Address → Nat) (a : Address) : List Address → List Address
  | [] => [a]
  | b :: bs => if beats a < beats b then a :: b :: bs else b :: insertByBeat beats a bs

/-- Drops `drop` queued transactions, the latest transactions of the accounts with the latest
heartbeat first; `addresses` runs from the latest heartbeat back. -/
def dropQueued (p : TxPool) : List Address → Nat → TxPool
  | [], _ => p
  | addr :: addresses, drop =>
    if drop > 0 then
      match p.queue.lookup addr with
      | none => p.dropQueued addresses drop
      | some list =>
        let size := list.len
        if size ≤ drop then (p.removeTxs list.flatten).dropQueued addresses (drop - size)
        else (p.removeTxs (list.flatten.reverse.take drop)).dropQueued addresses 0
    else p

/-- The queue cap of `promoteExecutables`: above `GlobalQueue` queued transactions, remote
accounts' queued transactions are removed, latest heartbeat first. -/
def capQueue (p : TxPool) : TxPool :=
  let queued := p.queuedCount
  if queued > p.config.globalQueue then
    let addresses := (p.queue.keys.filter (· ∉ p.locals)).foldl
      (fun q addr => insertByBeat p.beats addr q) []
    p.dropQueued addresses.reverse (queued - p.config.globalQueue)
  else p

/-- `promoteExecutables`: the accounts given, or every queued account. -/
def promoteExecutables (p : TxPool) (accounts : Option (List Address)) : TxPool :=
  let accounts := accounts.getD p.queue.keys
  (accounts.foldl promoteAccount p).capPending.capQueue

/-! ## Demotion and reset -/

/-- The loop body of `demoteUnexecutables` for one account: drop the pending transactions
below the head's nonce and those the account cannot pay, queue again those they invalidate,
and queue everything if the list no longer starts at the head's nonce. -/
def demoteAccount (p : TxPool) (addr : Address) : TxPool :=
  match p.pending.lookup addr with
  | none => p
  | some list =>
    let nonce := p.currentState.nonce addr
    let (olds, list) := list.forward nonce
    let p := p.deleteTxs olds
    let (drops, invalids, list) := list.filter (p.currentState.balance addr) p.currentMaxGas
    let p := (p.deleteTxs drops).enqueueTxs invalids
    let (gapped, list) :=
      if list.len > 0 ∧ (list.txs.get nonce).isNone then list.cap 0 else ([], list)
    let p := p.enqueueTxs gapped
    p.storePending addr list

/-- `demoteUnexecutables`. -/
def demoteUnexecutables (p : TxPool) : TxPool := p.pending.keys.foldl demoteAccount p

/-! ## Adding transactions -/

/-- The pool-full branch of `add`: a remote transaction that pays no more than the cheapest
pooled one is rejected; otherwise the cheapest remote transactions make room for it. -/
def makeRoom (p : TxPool) (tx : Tx) : Except TxError Unit × TxPool :=
  let limit := p.config.globalSlots + p.config.globalQueue
  if p.all.entries.length ≥ limit then
    let (under, priced) := p.priced.underpriced p.all.keys p.locals tx
    let p := { p with priced := priced }
    if under then (.error .underpriced, p)
    else
      let (drop, priced) := p.priced.discard p.all.keys (p.all.entries.length - (limit - 1)) p.locals
      (.ok (), { p with priced := priced }.removeTxs drop)
  else (.ok (), p)

/-- `add`: a known or invalid transaction is rejected; one with the nonce of a pending one
replaces it directly if it outbids it; any other is queued. Returns whether a transaction was
replaced. -/
def add (p : TxPool) (tx : Tx) (isLocal : Bool) : Except TxError Bool × TxPool :=
  let hash := tx.hash
  if (p.all.lookup hash).isSome then (.error (.knownTransaction hash), p)
  else
    match p.validateTx tx isLocal with
    | .error err => (.error err, p)
    | .ok () =>
      match p.makeRoom tx with
      | (.error err, p) => (.error err, p)
      | (.ok (), p) =>
        let pendingList := (p.pending.lookup tx.sender).filter (·.overlaps tx)
        match pendingList with
        | some list =>
          let (inserted, old, list) := list.add tx p.config.priceBump
          if !inserted then (.error .replaceUnderpriced, p)
          else
            let p := { p with pending := p.pending.insert tx.sender list }
            let p := match old with
              | some old => p.deleteTx old.hash
              | none => p
            (.ok old.isSome, p.insertTx hash tx)
        | none =>
          match p.enqueueTx hash tx with
          | (.error err, p) => (.error err, p)
          | (.ok replace, p) =>
            let p := if isLocal ∧ tx.sender ∉ p.locals then
                { p with locals := p.locals ++ [tx.sender] } else p
            (.ok replace, p)

/-- `addTx`: a transaction that replaced none is followed by promotion of its sender. -/
def addTx (p : TxPool) (tx : Tx) (isLocal : Bool) : Except TxError Unit × TxPool :=
  match p.add tx isLocal with
  | (.error err, p) => (.error err, p)
  | (.ok replace, p) =>
    if !replace then (.ok (), p.promoteExecutables (some [tx.sender])) else (.ok (), p)

/-- `AddLocal`. -/
def addLocal (p : TxPool) (tx : Tx) : Except TxError Unit × TxPool := p.addTx tx !p.config.noLocals

/-- `AddRemote`. -/
def addRemote (p : TxPool) (tx : Tx) : Except TxError Unit × TxPool := p.addTx tx false

/-- The loop of `addTxsLocked`: the errors in order, and the senders of the transactions that
replaced none. -/
def addEach (isLocal : Bool) : TxPool → List Tx → List (Option TxError) × List Address × TxPool
  | p, [] => ([], [], p)
  | p, tx :: txs =>
    match p.add tx isLocal with
    | (.error err, p) =>
      let (errs, dirty, p) := addEach isLocal p txs
      (some err :: errs, dirty, p)
    | (.ok replace, p) =>
      let (errs, dirty, p) := addEach isLocal p txs
      (none :: errs, if replace ∨ tx.sender ∈ dirty then dirty else tx.sender :: dirty, p)

/-- `addTxsLocked`: each transaction added, then the senders of those that replaced none
promoted. -/
def addTxsLocked (p : TxPool) (txs : List Tx) (isLocal : Bool) : List (Option TxError) × TxPool :=
  let (errs, dirty, p) := addEach isLocal p txs
  (errs, if dirty.length > 0 then p.promoteExecutables (some dirty) else p)

/-- `reset` to a new head: its state and gas limit, the transactions of dropped blocks
re-injected, the pending lists demoted, every pending account's nonce set past its last pending
transaction, and the queue promoted. -/
def reset (p : TxPool) (state : ChainState) (gasLimit : Nat) (reinject : List Tx) : TxPool :=
  let p := { p with currentState := state, pendingState := fun _ => none, currentMaxGas := gasLimit }
  let p := (p.addTxsLocked reinject false).2.demoteUnexecutables
  let p := p.pending.entries.foldl (fun p e =>
    match e.2.flatten.getLast? with
    | some tx => p.setPendingNonce e.1 (tx.nonce + 1)
    | none => p) p
  p.promoteExecutables none

end TxPool

/-- `NewTxPool` on a chain whose head has the given state and gas limit: an empty pool with the
sanitized configuration and its price limit as the minimal gas price, reset to the head. -/
def newTxPool (config : TxPoolConfig) (homestead : Bool) (state : ChainState) (gasLimit : Nat) :
    TxPool :=
  let config := config.sanitize
  let p : TxPool :=
    { config := config
      gasPrice := config.priceLimit
      homestead := homestead
      currentState := state
      pendingState := fun _ => none
      currentMaxGas := gasLimit
      locals := []
      pending := ∅
      queue := ∅
      beats := fun _ => 0
      all := ∅
      priced := .new
      now := 0 }
  p.reset state gasLimit []

end GoGaia.Core
