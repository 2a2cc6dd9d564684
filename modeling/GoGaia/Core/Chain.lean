import Mathlib
import GoGaia.TxPool.List
import GoGaia.Lib.EState

/-!
# The canonical chain index

`core/blockchain.go`: `WriteBlockAndState` writes a block with its total difficulty, and when the
block's total difficulty beats the head's it makes the block the head, through `reorg` when the
block is not a child of the head. `reorg` walks the old and the new chain down to their common
ancestor, re-inserts the new chain's blocks one height at a time (`insert`) and deletes the
transaction lookups of the old chain that the new one does not have. The database is the part
of `core/database_util.go` these functions read and write: blocks and total difficulties by hash
and number, the canonical hash of each number, and the transaction lookups.

Nothing in `WriteBlockAndState` or `reorg` deletes a canonical hash: after a reorganisation to a
chain whose head is lower than the old head, the old chain's hashes stay canonical at the heights
above the new head (`writeBlockAndState_keeps_stale_canon`). `HeaderChain.WriteHeader` deletes
them; `BlockChain` does not.

Block numbers are naturals. Go computes the parent's number as `number - 1` in `uint64`, which is
`2 ^ 64 - 1` for the genesis block, where no block is stored: the model has no parent for block
`0`. The walks of `reorg` run on fuel; the number of the blocks bounds their length, and the fuel
`reorg` gives them is more than that (`BlockChain.Keyed`).
-/

namespace GoGaia.Core

/-- A block, with the header fields the chain index reads and the hashes of its
transactions. -/
structure Block where
  hash : Hash
  parentHash : Hash
  number : Nat
  difficulty : Nat
  txs : List Hash
deriving DecidableEq, Repr

/-- `TxLookupEntry`: the block holding a transaction and its index there. -/
structure TxLookupEntry where
  blockHash : Hash
  blockIndex : Nat
  index : Nat
deriving DecidableEq, Repr

/-- `WriteStatus`. -/
inductive WriteStatus where
  | nonStatTy
  | canonStatTy
  | sideStatTy
deriving DecidableEq, Repr

/-- The chain database and the head block of `BlockChain`. -/
structure BlockChain where
  blocks : Hash → Nat → Option Block
  td : Hash → Nat → Option Nat
  canon : Nat → Option Hash
  lookups : Hash → Option TxLookupEntry
  currentBlock : Block

namespace BlockChain

/-- The blocks are stored under their own hash and number, as `WriteBlock` stores them. -/
def Keyed (bc : BlockChain) : Prop :=
  ∀ h n b, bc.blocks h n = some b → b.hash = h ∧ b.number = n

/-- `GetBlock(block.ParentHash(), block.NumberU64()-1)`. -/
def parent (bc : BlockChain) (b : Block) : Option Block :=
  if b.number = 0 then none else bc.blocks b.parentHash (b.number - 1)

/-- `GetTd(block.ParentHash(), block.NumberU64()-1)`. -/
def parentTd (bc : BlockChain) (b : Block) : Option Nat :=
  if b.number = 0 then none else bc.td b.parentHash (b.number - 1)

/-- `WriteTd`. -/
def writeTd (bc : BlockChain) (hash : Hash) (number td : Nat) : BlockChain :=
  { bc with td := fun h n => if h = hash ∧ n = number then some td else bc.td h n }

/-- `WriteBlock`. -/
def writeBlock (bc : BlockChain) (b : Block) : BlockChain :=
  { bc with blocks := fun h n => if h = b.hash ∧ n = b.number then some b else bc.blocks h n }

/-- `GetCanonicalHash`: the zero hash for a number with no canonical block. -/
def getCanonicalHash (bc : BlockChain) (number : Nat) : Hash := (bc.canon number).getD 0

/-- `WriteTxLookupEntries`: each transaction of the block points at the block and its index. -/
def writeTxLookupEntries (bc : BlockChain) (b : Block) : BlockChain :=
  let put := fun (l : Hash → Option TxLookupEntry) (e : Hash × Nat) =>
    Function.update l e.1 (some ⟨b.hash, b.number, e.2⟩)
  { bc with lookups := b.txs.zipIdx.foldl put bc.lookups }

/-- `DeleteTxLookupEntry`. -/
def deleteTxLookupEntry (bc : BlockChain) (tx : Hash) : BlockChain :=
  { bc with lookups := Function.update bc.lookups tx none }

/-- `insert`: the block becomes canonical at its number and the head. The head header and the
head fast block it also resets are left out: nothing here reads them. -/
def insert (bc : BlockChain) (b : Block) : BlockChain :=
  { bc with canon := Function.update bc.canon b.number (some b.hash), currentBlock := b }

/-- The first loop of `reorg` on the higher of the two chains: its blocks from `b` down to, and
without, the one at height `target`, and that block; `none` when a parent is missing. -/
def reduce (bc : BlockChain) (target : Nat) : Nat → Block → Option (List Block × Block)
  -- out of fuel, which the fuel `reorg` gives never is
  | 0, _ => none
  | fuel + 1, b =>
    if b.number = target then some ([], b)
    else
      match bc.parent b with
      | some p => (bc.reduce target fuel p).map fun (bs, top) => (b :: bs, top)
      | none => none

/-- The second loop of `reorg`: the blocks of both chains from two blocks of one height down to,
and without, their common ancestor, and that ancestor. -/
def common (bc : BlockChain) :
    Nat → Block → Block → Except String (List Block × List Block × Block)
  -- out of fuel, which the fuel `reorg` gives never is
  | 0, _, _ => throw "Invalid old chain"
  | fuel + 1, oldBlock, newBlock =>
    if oldBlock.hash = newBlock.hash then pure ([], [], oldBlock)
    else
      match bc.parent oldBlock, bc.parent newBlock with
      | none, _ => throw "Invalid old chain"
      | some _, none => throw "Invalid new chain"
      | some o, some n =>
        (bc.common fuel o n).map fun (os, ns, c) => (oldBlock :: os, newBlock :: ns, c)

/-- `reorg`: the new chain's blocks down to the common ancestor are inserted and their
transactions looked up; the lookups of the old chain's transactions that the new chain does not
have are deleted. -/
def reorg (bc : BlockChain) (oldBlock newBlock : Block) : Except String BlockChain := do
  let fuel := oldBlock.number + newBlock.number + 2
  let (oldChain₁, newChain₁, oldBlock, newBlock) ←
    if oldBlock.number > newBlock.number then
      match bc.reduce newBlock.number fuel oldBlock with
      | some (bs, b) => pure (bs, [], b, newBlock)
      | none => throw "Invalid old chain"
    else
      match bc.reduce oldBlock.number fuel newBlock with
      | some (bs, b) => pure ([], bs, oldBlock, b)
      | none => throw "Invalid new chain"
  let (oldChain₂, newChain₂, _) ← bc.common fuel oldBlock newBlock
  let oldChain := oldChain₁ ++ oldChain₂
  let newChain := newChain₁ ++ newChain₂
  -- insert the new chain's blocks, rewriting history
  let bc := newChain.foldl (fun bc b => (bc.insert b).writeTxLookupEntries b) bc
  let deletedTxs := (oldChain.map Block.txs).flatten
  let addedTxs := (newChain.map Block.txs).flatten
  -- `types.TxDifference(deletedTxs, addedTxs)`
  pure ((deletedTxs.filter (· ∉ addedTxs)).foldl deleteTxLookupEntry bc)

/-- `WriteBlockAndState`, with `coin` the outcome of `mrand.Float64() < 0.5` that splits blocks
of equal total difficulty and number. The state commit, the receipts and the preimages are left
out. -/
def writeBlockAndState (bc : BlockChain) (block : Block) (coin : Bool) :
    Except String (WriteStatus × BlockChain) := do
  let some ptd := bc.parentTd block | throw "unknown ancestor"
  -- `localTd.Cmp` of a missing head td dereferences nil
  let some localTd := bc.td bc.currentBlock.hash bc.currentBlock.number
    | throw "runtime error: invalid memory address or nil pointer dereference"
  let externTd := block.difficulty + ptd
  let bc := bc.writeTd block.hash block.number externTd
  let reorg := decide (externTd > localTd) ||
    (decide (externTd = localTd) && (decide (block.number < bc.currentBlock.number) ||
      (decide (block.number = bc.currentBlock.number) && coin)))
  if reorg then
    let bc ← if block.parentHash ≠ bc.currentBlock.hash then bc.reorg bc.currentBlock block
      else pure bc
    -- the batch: the block and its transaction lookups
    let bc := (bc.writeBlock block).writeTxLookupEntries block
    pure (.canonStatTy, bc.insert block)
  else pure (.sideStatTy, bc.writeBlock block)

/-! ## Where the writes go

Every write of the canonical index is an `insert`, at the number of the block inserted. The blocks
`reorg` inserts are the new block and its ancestors down to the common ancestor, none higher than
the new block; so nothing above the new block's number is written.
-/

section
variable {bc : BlockChain} {b p : Block}

@[simp] theorem writeTd_canon (hash : Hash) (number td : Nat) :
    (bc.writeTd hash number td).canon = bc.canon := rfl

@[simp] theorem writeTd_blocks (hash : Hash) (number td : Nat) :
    (bc.writeTd hash number td).blocks = bc.blocks := rfl

@[simp] theorem writeTd_currentBlock (hash : Hash) (number td : Nat) :
    (bc.writeTd hash number td).currentBlock = bc.currentBlock := rfl

@[simp] theorem writeBlock_canon : (bc.writeBlock b).canon = bc.canon := rfl

@[simp] theorem writeTxLookupEntries_canon : (bc.writeTxLookupEntries b).canon = bc.canon := rfl

@[simp] theorem writeTxLookupEntries_currentBlock :
    (bc.writeTxLookupEntries b).currentBlock = bc.currentBlock := rfl

@[simp] theorem deleteTxLookupEntry_canon (tx : Hash) : (bc.deleteTxLookupEntry tx).canon = bc.canon :=
  rfl

@[simp] theorem insert_currentBlock : (bc.insert b).currentBlock = b := rfl

theorem insert_canon_of_ne {m : Nat} (h : m ≠ b.number) : (bc.insert b).canon m = bc.canon m := by
  simp [insert, h]

/-- A parent is one below its child, in a database of keyed blocks. -/
theorem parent_number (hk : bc.Keyed) (h : bc.parent b = some p) : p.number + 1 = b.number := by
  unfold parent at h
  split at h
  · cases h
  · have := (hk _ _ _ h).2
    omega

/-- The blocks the first loop of `reorg` collects, and the one it stops at, are no higher than
the block it starts from. -/
theorem reduce_le (hk : bc.Keyed) {target : Nat} :
    ∀ {fuel : Nat} {b top : Block} {bs : List Block}, bc.reduce target fuel b = some (bs, top) →
      (∀ x ∈ bs, x.number ≤ b.number) ∧ top.number ≤ b.number
  | 0, _, _, _, h => by simp [reduce] at h
  | fuel + 1, b, top, bs, h => by
    unfold reduce at h
    split at h
    · -- stopped at the target height
      simp only [Option.some.injEq, Prod.mk.injEq] at h
      obtain ⟨rfl, rfl⟩ := h
      simp
    · split at h
      · next p hp =>
        obtain ⟨⟨bs', top'⟩, hr, he⟩ := Option.map_eq_some_iff.mp h
        simp only [Prod.mk.injEq] at he
        obtain ⟨rfl, rfl⟩ := he
        have hpb := parent_number hk hp
        obtain ⟨hbs, htop⟩ := reduce_le hk hr
        refine ⟨fun x hx => ?_, by omega⟩
        rcases List.mem_cons.mp hx with rfl | hx
        · exact Nat.le_refl _
        · have := hbs x hx
          omega
      · cases h

/-- The new chain's blocks the second loop of `reorg` collects are no higher than the block of
the new chain it starts from. -/
theorem common_le (hk : bc.Keyed) :
    ∀ {fuel : Nat} {o n c : Block} {os ns : List Block},
      bc.common fuel o n = .ok (os, ns, c) → ∀ x ∈ ns, x.number ≤ n.number
  | 0, _, _, _, _, _, h => by simp [common] at h
  | fuel + 1, o, n, c, os, ns, h => by
    unfold common at h
    split at h
    · -- the common ancestor: nothing collected
      cases h
      simp
    · split at h
      · cases h
      · cases h
      · next o' n' _ hn =>
        cases hr : bc.common fuel o' n' with
        | error e => rw [hr] at h; cases h
        | ok r =>
          obtain ⟨os', ns', c'⟩ := r
          rw [hr] at h
          cases h
          have hpn := parent_number hk hn
          intro x hx
          rcases List.mem_cons.mp hx with rfl | hx
          · exact Nat.le_refl _
          · have := common_le hk hr x hx
            omega

/-- Inserting blocks no higher than `n` leaves the canonical index above `n` as it was. -/
theorem foldl_insert_canon {n m : Nat} (hm : n < m) :
    ∀ (bs : List Block) (bc : BlockChain), (∀ x ∈ bs, x.number ≤ n) →
      (bs.foldl (fun bc b => (bc.insert b).writeTxLookupEntries b) bc).canon m = bc.canon m
  | [], _, _ => rfl
  | b :: bs, bc, h => by
    rw [List.foldl_cons, foldl_insert_canon hm bs _ (fun x hx => h x (List.mem_cons_of_mem _ hx)),
      writeTxLookupEntries_canon, insert_canon_of_ne]
    have := h b List.mem_cons_self
    omega

theorem foldl_deleteTxLookupEntry_canon (txs : List Hash) (bc : BlockChain) :
    (txs.foldl deleteTxLookupEntry bc).canon = bc.canon := by
  induction txs generalizing bc with
  | nil => rfl
  | cons tx txs ih => rw [List.foldl_cons, ih, deleteTxLookupEntry_canon]

/-- What a successful `reorg` does: it inserts blocks no higher than the new block, then deletes
transaction lookups. -/
theorem reorg_ok (hk : bc.Keyed) {o n : Block} {bc' : BlockChain} (h : bc.reorg o n = .ok bc') :
    ∃ (newChain : List Block) (deleted : List Hash), (∀ x ∈ newChain, x.number ≤ n.number) ∧
      bc' = deleted.foldl deleteTxLookupEntry
        (newChain.foldl (fun bc b => (bc.insert b).writeTxLookupEntries b) bc) := by
  unfold reorg at h
  by_cases hgt : o.number > n.number
  · -- the old chain is walked down to the new block's height
    cases hr : bc.reduce n.number (o.number + n.number + 2) o with
    | none => simp [hgt, hr] at h
    | some r =>
      obtain ⟨bs, b⟩ := r
      cases hc : bc.common (o.number + n.number + 2) b n with
      | error e => simp [hgt, hr, hc] at h
      | ok q =>
        obtain ⟨os, ns, c⟩ := q
        simp only [hgt, if_true, hr, pure_bind] at h
        rw [hc] at h
        cases h
        exact ⟨[] ++ ns, _, fun x hx => common_le hk hc x (by simpa using hx), rfl⟩
  · -- the new chain is walked down to the old head's height
    cases hr : bc.reduce o.number (o.number + n.number + 2) n with
    | none => simp [hgt, hr] at h
    | some r =>
      obtain ⟨bs, b⟩ := r
      obtain ⟨hbs, hb⟩ := reduce_le hk hr
      cases hc : bc.common (o.number + n.number + 2) o b with
      | error e => simp [hgt, hr, hc] at h
      | ok q =>
        obtain ⟨os, ns, c⟩ := q
        simp only [hgt, if_false, hr, pure_bind] at h
        rw [hc] at h
        cases h
        refine ⟨bs ++ ns, _, fun x hx => ?_, rfl⟩
        rcases List.mem_append.mp hx with hx | hx
        · exact hbs x hx
        · exact Nat.le_trans (common_le hk hc x hx) hb

/-- `reorg` leaves the canonical index above the new block as it was. -/
theorem reorg_canon (hk : bc.Keyed) {o n : Block} {bc' : BlockChain} (h : bc.reorg o n = .ok bc')
    {m : Nat} (hm : n.number < m) : bc'.canon m = bc.canon m := by
  obtain ⟨newChain, deleted, hle, rfl⟩ := reorg_ok hk h
  rw [foldl_deleteTxLookupEntry_canon, foldl_insert_canon hm _ _ hle]

/-- A `WriteBlockAndState` that makes the block canonical makes it the head, and leaves the
canonical index above it as it was. -/
theorem writeBlockAndState_canon_frame (hk : bc.Keyed) {block : Block} {coin : Bool}
    {bc' : BlockChain} (h : bc.writeBlockAndState block coin = .ok (.canonStatTy, bc')) :
    bc'.currentBlock = block ∧ ∀ m, block.number < m → bc'.canon m = bc.canon m := by
  unfold writeBlockAndState at h
  cases hptd : bc.parentTd block with
  | none => simp [hptd] at h
  | some ptd =>
    cases hltd : bc.td bc.currentBlock.hash bc.currentBlock.number with
    | none => simp [hptd, hltd] at h
    | some localTd =>
      simp only [hptd, hltd] at h
      split at h
      · -- the block is canonical: the reorganisation, if any, then the block itself
        split at h
        · next hne =>
          cases hr : (bc.writeTd block.hash block.number (block.difficulty + ptd)).reorg
              bc.currentBlock block with
          | error e => simp [hr] at h
          | ok bc₁ =>
            simp only [writeTd_currentBlock, hr] at h
            cases h
            refine ⟨rfl, fun m hm => ?_⟩
            rw [insert_canon_of_ne (by omega), writeTxLookupEntries_canon, writeBlock_canon,
              reorg_canon (show (bc.writeTd block.hash block.number (block.difficulty + ptd)).Keyed
                from hk) hr hm, writeTd_canon]
        · cases h
          refine ⟨rfl, fun m hm => ?_⟩
          rw [insert_canon_of_ne (by omega), writeTxLookupEntries_canon, writeBlock_canon,
            writeTd_canon]
      · cases h

end

/-- **A reorganisation to a lower chain leaves stale canonical hashes.** When a block lower than
the head is written and becomes canonical, the block is the new head, lower than the old one, and
the old head's number still maps to the old head's hash: `GetCanonicalHash` is not empty above
the new head, and `GetBlockByNumber` there returns a block off the canonical chain. -/
theorem writeBlockAndState_keeps_stale_canon (bc : BlockChain) (block : Block) (coin : Bool)
    (bc' : BlockChain) (hk : bc.Keyed)
    (hhead : bc.canon bc.currentBlock.number = some bc.currentBlock.hash)
    (hlow : block.number < bc.currentBlock.number)
    (h : bc.writeBlockAndState block coin = .ok (.canonStatTy, bc')) :
    bc'.currentBlock.number < bc.currentBlock.number ∧
      bc'.getCanonicalHash bc.currentBlock.number = bc.currentBlock.hash := by
  obtain ⟨hcur, hframe⟩ := writeBlockAndState_canon_frame hk h
  refine ⟨hcur ▸ hlow, ?_⟩
  rw [getCanonicalHash, hframe _ hlow, hhead, Option.getD_some]

/-- The blocks of a list, each under its own hash and number. -/
def storeOf (bs : List Block) : Hash → Nat → Option Block :=
  fun h n => bs.find? fun b => decide (b.hash = h ∧ b.number = n)

theorem keyed_of_storeOf {bs : List Block} {bc : BlockChain} (h : bc.blocks = storeOf bs) :
    bc.Keyed := by
  intro hash n b hb
  rw [h] at hb
  simpa using List.find?_some hb

/-- Genesis, and a chain of two blocks of difficulty one on it. -/
def genesis : Block := ⟨1, 0, 0, 1, []⟩

def blockA1 : Block := ⟨2, 1, 1, 1, [100]⟩

def blockA2 : Block := ⟨3, 2, 2, 1, [101]⟩

/-- A block of difficulty five on genesis. -/
def blockB1 : Block := ⟨4, 1, 1, 5, []⟩

/-- The chain with head `blockA2`, of total difficulty three. -/
def chainA : BlockChain where
  blocks := storeOf [genesis, blockA1, blockA2]
  td := fun h n =>
    if h = 1 ∧ n = 0 then some 1 else if h = 2 ∧ n = 1 then some 2
    else if h = 3 ∧ n = 2 then some 3 else none
  canon := fun n => if n = 0 then some 1 else if n = 1 then some 2 else if n = 2 then some 3 else none
  lookups := fun tx => if tx = 100 then some ⟨2, 1, 0⟩ else if tx = 101 then some ⟨3, 2, 0⟩ else none
  currentBlock := blockA2

/-- Writing `blockB1` on `chainA` reorganises to the heavier chain of one block; height `2` still
maps to `blockA2`. -/
theorem writeBlockAndState_keeps_stale_canon_fork :
    chainA.Keyed ∧ chainA.canon 2 = some 3 ∧ blockB1.number < blockA2.number ∧
      ∃ bc', chainA.writeBlockAndState blockB1 false = .ok (.canonStatTy, bc') ∧
        bc'.currentBlock.number < 2 ∧ bc'.getCanonicalHash 2 = 3 := by
  have hk : chainA.Keyed := keyed_of_storeOf rfl
  exact ⟨hk, rfl, by decide, _, rfl,
    writeBlockAndState_keeps_stale_canon chainA blockB1 false _ hk rfl (by decide) rfl⟩

end BlockChain

end GoGaia.Core
