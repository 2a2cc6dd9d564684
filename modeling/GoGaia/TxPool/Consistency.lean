import GoGaia.TxPool.Pool

/-!
# The pool's internal consistency

`TxPool.Consistent` is the invariant `validateTxPoolInternals` (`core/tx_pool_test.go:93`) checks,
made exact: `all` holds, under their hashes, exactly the transactions of the pending and queue
lists, each once, and no account has a nonce both pending and queued; the price heap holds each
pooled transaction once and as many other entries as its stale count; every pending list is a
run of consecutive nonces whose successor is the pending nonce.

`removeTx_strands_invalidated` is a run that breaks it. An account has two pending
transactions, nonces 0 and 1; `removeTx` of the first removes it from the strict pending list
and, with it, the second, which it no longer precedes. The list is then empty, and `removeTx`
re-queues the invalidated transactions only when it is not (`core/tx_pool.go:884`): the second
transaction stays in `all` and in the price heap, in no list.
-/

namespace GoGaia.Core

namespace TxPool

/-- The transactions of the pending and the queue lists. -/
def listed (p : TxPool) : List Tx := (p.pending.entries ++ p.queue.entries).flatMap (·.2.flatten)

/-- The pool's structures agree. -/
structure Consistent (p : TxPool) : Prop where
  keyed : ∀ e ∈ p.all.entries, e.2.hash = e.1
  all_listed : p.all.keys.Perm (p.listed.map (·.hash))
  nonces_disjoint : ∀ e ∈ p.pending.entries, ∀ t ∈ e.2.flatten,
    ∀ t' ∈ ((p.queue.lookup e.1).map TxList.flatten).getD [], t.nonce ≠ t'.nonce
  priced_once : ∀ tx ∈ p.allTxs, p.priced.items.count tx = 1
  priced_stales : ((p.priced.items.filter (·.hash ∉ p.all.keys)).length : Int) = p.priced.stales
  pending_run : ∀ e ∈ p.pending.entries, e.2.flatten.IsChain (fun a b => b.nonce = a.nonce + 1)
  pending_nonce : ∀ e ∈ p.pending.entries,
    e.2.flatten.getLast?.map (·.nonce + 1) = some (p.pendingNonce e.1)

end TxPool

/-- A transaction of account `1` with the given nonce and hash: a plain transfer of nothing at gas
price one. -/
def transferTx (hash nonce : Nat) : Tx where
  hash := hash
  sender := 1
  signed := true
  nonce := nonce
  gasPrice := 1
  gas := 21000
  value := 0
  size := 100
  data := []
  isCreate := false

/-- A new pool with the default configuration on a head where every account has nonce zero and
a large balance. -/
def freshPool : TxPool :=
  newTxPool .default true ⟨fun _ => 0, fun _ => 1000000000⟩ 8000000

/-- The pool after `AddRemote` of the transactions with nonces 0 and 1: both are pending. -/
def twoPendingPool : TxPool :=
  ((freshPool.addRemote (transferTx 100 0)).2.addRemote (transferTx 101 1)).2

/-- The pool with two pending transactions is consistent; after `removeTx` of the first it is
not: the second is still in `all`, and no list holds it. -/
theorem removeTx_strands_invalidated :
    twoPendingPool.Consistent ∧ ¬ (twoPendingPool.removeTx 100).Consistent ∧
      (twoPendingPool.removeTx 100).all.lookup 101 = some (transferTx 101 1) ∧
      (twoPendingPool.removeTx 100).listed = [] := by
  refine ⟨?_, fun h => absurd h.all_listed (by decide +kernel), by decide +kernel,
    by decide +kernel⟩
  exact ⟨by decide +kernel, by decide +kernel, by decide +kernel, by decide +kernel,
    by decide +kernel, by decide +kernel, by decide +kernel⟩

end GoGaia.Core
