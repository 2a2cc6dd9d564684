import Mathlib
import GoGaia.Lib.IntBits

/-!
# Transaction lists of the pool

The containers of `core/tx_list.go`: `txSortedMap`, the transactions of one account by nonce;
`txList`, such a map with the cost and gas caps of its transactions; and `txPricedList`, the
heap of every pooled transaction by gas price with its counter of stale entries.

A `txSortedMap` is a list kept in increasing nonce order, the order its nonce heap pops and
`Flatten` sorts into; the order is a field of the structure, so every operation proves it keeps
it. The price heap is a list kept in increasing gas-price order, so that the heap's minimum is
its head; among equal prices the heap may pop in any order, and the model pops the one inserted
first.

A transaction (`types.Transaction`) has what the pool reads of it: its hash, its sender as
`types.Sender` recovers it (`signed` is whether the signature recovers one), nonce, gas price,
gas, value, encoded size, data and whether it creates a contract.
-/

namespace GoGaia.Core

/-- `common.Address`. -/
abbrev Address := Nat

/-- `common.Hash`. -/
abbrev Hash := Nat

/-- `types.Transaction`, as the pool reads it. -/
structure Tx where
  hash : Hash
  sender : Address
  signed : Bool
  nonce : Nat
  gasPrice : Nat
  gas : Nat
  value : Int
  size : Nat
  data : List UInt8
  isCreate : Bool
deriving DecidableEq, Repr

/-- `Cost`: value plus gas price times gas. -/
def Tx.cost (tx : Tx) : Int := tx.value + tx.gasPrice * tx.gas

/-! ## Lists in nonce order -/

/-- Inserts a transaction into a list in nonce order, replacing the one with its nonce. -/
def insertNonce (tx : Tx) : List Tx → List Tx
  | [] => [tx]
  | t :: ts =>
    if tx.nonce < t.nonce then tx :: t :: ts
    else if tx.nonce = t.nonce then tx :: ts
    else t :: insertNonce tx ts

theorem mem_insertNonce {tx y : Tx} {l : List Tx} (h : y ∈ insertNonce tx l) : y = tx ∨ y ∈ l := by
  induction l with
  | nil => simpa [insertNonce] using h
  | cons t ts ih =>
    simp only [insertNonce] at h
    split at h
    · simpa using h
    · split at h
      · simp only [List.mem_cons] at h
        rcases h with h | h
        · exact .inl h
        · exact .inr (List.mem_cons_of_mem _ h)
      · simp only [List.mem_cons] at h
        rcases h with h | h
        · exact .inr (h ▸ List.mem_cons_self)
        · rcases ih h with h' | h'
          · exact .inl h'
          · exact .inr (List.mem_cons_of_mem _ h')

theorem pairwise_insertNonce {tx : Tx} {l : List Tx} (h : l.Pairwise (·.nonce < ·.nonce)) :
    (insertNonce tx l).Pairwise (·.nonce < ·.nonce) := by
  induction l with
  | nil => simp [insertNonce]
  | cons t ts ih =>
    obtain ⟨ht, hts⟩ := List.pairwise_cons.mp h
    simp only [insertNonce]
    split
    · next hlt =>
      refine List.Pairwise.cons ?_ h
      intro y hy
      rcases List.mem_cons.mp hy with rfl | hy
      · exact hlt
      · exact Nat.lt_trans hlt (ht y hy)
    · split
      · next heq =>
        refine List.Pairwise.cons ?_ hts
        intro y hy
        rw [heq]
        exact ht y hy
      · next hlt hne =>
        refine List.Pairwise.cons ?_ (ih hts)
        intro y hy
        rcases mem_insertNonce hy with rfl | hy
        · omega
        · exact ht y hy

/-- The transactions from the head whose nonces count up from `next` by one. -/
def consecutive : Nat → List Tx → List Tx
  | _, [] => []
  | next, t :: ts => if t.nonce = next then t :: consecutive (next + 1) ts else []

/-! ## `txSortedMap` -/

/-- `txSortedMap`: the transactions of one account, in increasing nonce order. -/
structure TxSortedMap where
  items : List Tx
  sorted : items.Pairwise (·.nonce < ·.nonce)

namespace TxSortedMap

/-- `newTxSortedMap`. -/
def empty : TxSortedMap := ⟨[], List.Pairwise.nil⟩

/-- `Get`. -/
def get (m : TxSortedMap) (nonce : Nat) : Option Tx := m.items.find? (·.nonce = nonce)

/-- `Put`: overwrites the transaction with the same nonce. -/
def put (m : TxSortedMap) (tx : Tx) : TxSortedMap :=
  ⟨insertNonce tx m.items, pairwise_insertNonce m.sorted⟩

/-- `Forward`: removes and returns the transactions with a nonce below `threshold`. -/
def forward (m : TxSortedMap) (threshold : Nat) : List Tx × TxSortedMap :=
  (m.items.takeWhile (·.nonce < threshold),
    ⟨m.items.dropWhile (·.nonce < threshold), m.sorted.sublist (List.dropWhile_sublist _)⟩)

/-- `Filter`: removes and returns the transactions `p` holds of. -/
def filter (m : TxSortedMap) (p : Tx → Bool) : List Tx × TxSortedMap :=
  (m.items.filter p, ⟨m.items.filter (fun tx => !p tx), m.sorted.filter _⟩)

/-- `Cap`: keeps the `threshold` lowest nonces and returns the rest, highest first. -/
def cap (m : TxSortedMap) (threshold : Nat) : List Tx × TxSortedMap :=
  if m.items.length ≤ threshold then ([], m)
  else ((m.items.drop threshold).reverse,
    ⟨m.items.take threshold, m.sorted.sublist (List.take_sublist _ _)⟩)

/-- `Remove`: whether a transaction with the nonce was there, and the map without it. -/
def remove (m : TxSortedMap) (nonce : Nat) : Bool × TxSortedMap :=
  if (m.get nonce).isSome then
    (true, ⟨m.items.filter (fun tx => tx.nonce ≠ nonce), m.sorted.filter _⟩)
  else (false, m)

/-- `Ready`: removes and returns the run of consecutive nonces at the front, if the front
nonce is at most `start`. -/
def ready (m : TxSortedMap) (start : Nat) : List Tx × TxSortedMap :=
  match m.items with
  | [] => ([], m)
  | t :: _ =>
    if t.nonce > start then ([], m)
    else
      let run := consecutive t.nonce m.items
      (run, ⟨m.items.drop run.length, m.sorted.sublist (List.drop_sublist _ _)⟩)

/-- `Len`. -/
def len (m : TxSortedMap) : Nat := m.items.length

end TxSortedMap

/-! ## `txList` -/

/-- `txList`: the transactions of an account, `strict` when their nonces must be contiguous
(the pending lists), with the highest cost and gas among them as caps. -/
structure TxList where
  strict : Bool
  txs : TxSortedMap
  costcap : Int
  gascap : Nat

namespace TxList

/-- `newTxList`. -/
def new (strict : Bool) : TxList := ⟨strict, .empty, 0, 0⟩

/-- `Overlaps`: a transaction with the same nonce is in the list. -/
def overlaps (l : TxList) (tx : Tx) : Bool := (l.txs.get tx.nonce).isSome

/-- `Add`: a transaction replaces the one with its nonce only if it pays more, and at least the
threshold `priceBump` sets; returns whether it went in and the one it replaced. -/
def add (l : TxList) (tx : Tx) (priceBump : Nat) : Bool × Option Tx × TxList :=
  let old := l.txs.get tx.nonce
  let rejected : Bool := match old with
    | some old =>
      -- `big.NewInt(100+int64(priceBump))`: the uint64 bump is read as an int64 and the sum
      -- wraps in int64 before the big.Int product and its Euclidean division
      let threshold : Int := old.gasPrice * IntBits.int64 (100 + IntBits.int64 priceBump) / 100
      old.gasPrice ≥ tx.gasPrice ∨ threshold > tx.gasPrice
    | none => false
  if rejected then (false, none, l)
  else
    (true, old,
      { l with
        txs := l.txs.put tx
        costcap := max l.costcap tx.cost
        gascap := max l.gascap tx.gas })

/-- A price bump of 2^63 percent reads as the int64 -2^63, so the threshold is negative: a
transaction paying 2 replaces one paying 1, below the 1 * (100 + 2^63) / 100 the bump asks. -/
theorem add_replaces_under_wrapped_bump :
    let old : Tx := ⟨0, 0, true, 0, 1, 21000, 0, 0, [], false⟩
    let tx : Tx := ⟨1, 0, true, 0, 2, 21000, 0, 0, [], false⟩
    let l := ((TxList.new false).add old 10).2.2
    l.overlaps tx = true ∧ (l.add tx (2 ^ 63)).1 = true ∧ (l.add tx (2 ^ 63)).2.1 = some old ∧
      tx.gasPrice < old.gasPrice * (100 + 2 ^ 63) / 100 := by
  decide

/-- `Forward`. -/
def forward (l : TxList) (threshold : Nat) : List Tx × TxList :=
  let (removed, txs) := l.txs.forward threshold
  (removed, { l with txs := txs })

/-- `Filter`: removes the transactions that cost more than `costLimit` or use more gas than
`gasLimit`, and in a strict list also every transaction above the lowest nonce removed; returns
both. -/
def filter (l : TxList) (costLimit : Int) (gasLimit : Nat) : List Tx × List Tx × TxList :=
  if l.costcap ≤ costLimit ∧ l.gascap ≤ gasLimit then ([], [], l)
  else
    let (removed, txs) := l.txs.filter fun tx => tx.cost > costLimit ∨ tx.gas > gasLimit
    let l := { l with costcap := costLimit, gascap := gasLimit, txs := txs }
    match removed.map (·.nonce) |>.min? with
    | some lowest =>
      if l.strict then
        let (invalids, txs) := l.txs.filter fun tx => tx.nonce > lowest
        (removed, invalids, { l with txs := txs })
      else (removed, [], l)
    | none => (removed, [], l)

/-- `Cap`. -/
def cap (l : TxList) (threshold : Nat) : List Tx × TxList :=
  let (drops, txs) := l.txs.cap threshold
  (drops, { l with txs := txs })

/-- `Remove`: in a strict list, the transactions above the removed nonce are removed too and
returned as invalidated. -/
def remove (l : TxList) (tx : Tx) : Bool × List Tx × TxList :=
  let (found, txs) := l.txs.remove tx.nonce
  if !found then (false, [], l)
  else if l.strict then
    let (invalids, txs) := txs.filter fun t => t.nonce > tx.nonce
    (true, invalids, { l with txs := txs })
  else (true, [], { l with txs := txs })

/-- `Ready`. -/
def ready (l : TxList) (start : Nat) : List Tx × TxList :=
  let (ready, txs) := l.txs.ready start
  (ready, { l with txs := txs })

/-- `Len`. -/
def len (l : TxList) : Nat := l.txs.len

/-- `Empty`. -/
def empty (l : TxList) : Bool := l.len = 0

/-- `Flatten`: the transactions in nonce order. -/
def flatten (l : TxList) : List Tx := l.txs.items

end TxList

/-! ## `txPricedList` -/

/-- The local accounts (`accountSet`). -/
abbrev AccountSet := List Address

/-- `accountSet.containsTx`: the sender is local; false when no sender is recovered. -/
def AccountSet.containsTx (locals : AccountSet) (tx : Tx) : Bool := tx.signed ∧ tx.sender ∈ locals

/-- Inserts a transaction into a list in gas-price order, after those of its price. -/
def insertPrice (tx : Tx) : List Tx → List Tx
  | [] => [tx]
  | t :: ts => if tx.gasPrice < t.gasPrice then tx :: t :: ts else t :: insertPrice tx ts

/-- `txPricedList`: the price heap and the number of its entries known to be stale. -/
structure PricedList where
  items : List Tx
  stales : Int

namespace PricedList

/-- `newTxPricedList`. -/
def new : PricedList := ⟨[], 0⟩

/-- `Put`. -/
def put (l : PricedList) (tx : Tx) : PricedList := { l with items := insertPrice tx l.items }

/-- `Removed`: counts one more stale entry; past a quarter of the heap, the heap is rebuilt from
the pool's transactions `all`. -/
def removed (l : PricedList) (all : List Tx) : PricedList :=
  let stales := l.stales + 1
  if stales ≤ (l.items.length / 4 : Nat) then { l with stales := stales }
  else ⟨all.foldl (fun heap tx => insertPrice tx heap) [], 0⟩

/-- Pops the stale entries off the front of the heap, one stale count each. -/
def dropStale (all : List Hash) : List Tx → Int → List Tx × Int
  | [], stales => ([], stales)
  | tx :: txs, stales =>
    if tx.hash ∈ all then (tx :: txs, stales) else dropStale all txs (stales - 1)

/-- `Underpriced`: a remote transaction that pays at most the cheapest pooled one. -/
def underpriced (l : PricedList) (all : List Hash) (locals : AccountSet) (tx : Tx) :
    Bool × PricedList :=
  if locals.containsTx tx then (false, l)
  else
    let (items, stales) := dropStale all l.items l.stales
    let l := ⟨items, stales⟩
    match items with
    | [] => (false, l)
    | cheapest :: _ => (decide (cheapest.gasPrice ≥ tx.gasPrice), l)

/-- The pops of `Discard`: stale entries are dropped, local transactions saved, others dropped
until `count` of them are; returns the dropped, the saved, the rest of the heap and the stale
count. -/
def discardPops (all : List Hash) (locals : AccountSet) :
    Nat → List Tx → Int → List Tx × List Tx × List Tx × Int
  | 0, items, stales => ([], [], items, stales)
  | _, [], stales => ([], [], [], stales)
  | count + 1, tx :: items, stales =>
    if tx.hash ∉ all then discardPops all locals (count + 1) items (stales - 1)
    else if locals.containsTx tx then
      let (drop, save, rest, stales) := discardPops all locals (count + 1) items stales
      (drop, tx :: save, rest, stales)
    else
      let (drop, save, rest, stales) := discardPops all locals count items stales
      (tx :: drop, save, rest, stales)

/-- `Discard`: the `count` cheapest remote transactions, removed from the heap; the local ones
popped on the way are pushed back. -/
def discard (l : PricedList) (all : List Hash) (count : Nat) (locals : AccountSet) :
    List Tx × PricedList :=
  let (drop, save, rest, stales) := discardPops all locals count l.items l.stales
  (drop, ⟨save.foldl (fun heap tx => insertPrice tx heap) rest, stales⟩)

end PricedList

end GoGaia.Core
