import GoGaia.Trie.Trie

/-!
# Trie iterators

`trie/iterator.go`. A `nodeIterator` walks a trie in pre-order with an explicit stack of states,
one for each node on the path to the current node, the current node's on top. `Next` asks `peek`
for the next node: the first node when the stack is empty, and otherwise the next child of the top
state, popping the states that have none left. A hash node is resolved from the trie's database
when it is reached. `seek` moves forward to just before a start key. The key-value `Iterator`
calls `Next` until it reaches a leaf, a node whose path ends with the terminator, and reports its
key and value.

Go keeps the stack with its top at the end and lets `push` increment the parent's index through a
pointer; the model keeps the top first and increments the index of the state below the new one.
Go's unbounded loops (`seek`'s and the `Iterator`'s) run on fuel. A nil-pointer dereference on the
empty iterator, the panics of `LeafKey` and `LeafBlob`, and the end of the fuel are `IterPanic`s.
-/

namespace GoGaia.Patricia

/-- `nodeIteratorState`: a node being iterated, its hash (zero bytes when it has none of its own),
the hash of its first ancestor with one, the child to go on after, and the length of its parent's
path. -/
structure NodeIteratorState where
  hash : List UInt8
  node : Node
  parent : List UInt8
  index : Int
  pathlen : Nat

/-- The errors a `nodeIterator` keeps: `iteratorEnd` once the iteration is done, `seekError` for a
failed initial seek, which `Next` retries, and an error resolving a node. -/
inductive IterError where
  | iteratorEnd
  | seekError (key : List UInt8) (err : TrieError)
  | trie (err : TrieError)
deriving Repr, DecidableEq

/-- The run-time panics of the iterators: a method of the empty iterator `newNodeIterator` returns
for a root hash of `emptyState` dereferences its nil trie, and `LeafKey` and `LeafBlob` panic off a
leaf or at a path of odd length. `outOfFuel` is not a Go panic: the model's bound on a loop ran
out. -/
inductive IterPanic where
  | nilTrie
  | notAtLeaf
  | oddLengthKey
  | outOfFuel
deriving Repr, DecidableEq

/-- `nodeIterator`: the trie iterated (Go's nil for the empty iterator), the stack of states with
the current node's on top, the path to the current node, and the error. -/
structure NodeIterator where
  trie : Option Trie
  stack : List NodeIteratorState
  path : List UInt8
  err : Option IterError

namespace NodeIteratorState

/-- `resolve`: a hash node is replaced by the node it stands for, and the state takes its hash. -/
def resolve (st : NodeIteratorState) (tr : Trie) (path : List UInt8) :
    Except TrieError NodeIteratorState :=
  match st.node with
  | .hash h =>
    match tr.resolveHash h path with
    | .error err => .error err
    | .ok resolved => .ok { st with node := resolved, hash := bytesToHash h }
  | _ => .ok st

end NodeIteratorState

/-- The loop of `nextChild` over a full node's children: the first child from index `i` on that is
not nil. -/
def firstChildFrom (cs : Fin 17 → Node) (i : Nat) : Option (Fin 17) :=
  if h : i < 17 then
    if (cs ⟨i, h⟩).isNil then firstChildFrom cs (i + 1) else some ⟨i, h⟩
  else none
termination_by 17 - i

namespace NodeIterator

/-- `nextChild`: below `parent`, with the current path `path`, the state of the next child and its
path, if there is one, and `parent` as it is left: a full node's index is set to just before the
child, for `push` to set it to the child. -/
def nextChild (path : List UInt8) (parent : NodeIteratorState) (ancestor : List UInt8) :
    NodeIteratorState × Option (NodeIteratorState × List UInt8) :=
  match parent.node with
  | .full cs _ =>
    match firstChildFrom cs (parent.index + 1).toNat with
    | some i =>
      ({ parent with index := (i.val : Int) - 1 },
        some (⟨bytesToHash ((cs i).cache.1.getD []), cs i, ancestor, -1, path.length⟩,
          path ++ [UInt8.ofNat i.val]))
    | none => (parent, none)
  | .short key val _ =>
    if parent.index < 0 then
      (parent, some (⟨bytesToHash (val.cache.1.getD []), val, ancestor, -1, path.length⟩,
        path ++ key))
    else (parent, none)
  | _ => (parent, none)

/-- The loop of `peek` over a non-empty stack: the next child of the top state, resolved, with the
states that have no child left popped and the path cut back with them. -/
def peekLoop (tr : Trie) : List NodeIteratorState → List UInt8 →
    List NodeIteratorState × List UInt8 × Except IterError (NodeIteratorState × List UInt8)
  | [], path => ([], path, .error .iteratorEnd)
  | parent :: rest, path =>
    let ancestor := if parent.hash = zeroHash then parent.parent else parent.hash
    match nextChild path parent ancestor with
    | (parent, some (state, cpath)) =>
      match state.resolve tr cpath with
      | .error err => (parent :: rest, path, .error (.trie err))
      | .ok state => (parent :: rest, path, .ok (state, cpath))
    -- no more child nodes: move back up
    | (parent, none) => peekLoop tr rest (path.take parent.pathlen)

/-- `peek`: the next state, whether it has a parent whose index `push` is to increment, and its
path, with the iterator as `peek` leaves it. On an empty stack it starts at the root, hashing the
trie first; without `descend` it pops the current state before looking further. -/
def peek (keccak : List UInt8 → List UInt8) (it : NodeIterator) (descend : Bool) :
    Except IterPanic (NodeIterator × Except IterError (NodeIteratorState × Bool × List UInt8)) :=
  match it.trie with
  | none => .error .nilTrie
  | some tr =>
    match it.stack with
    | [] =>
      let (root, tr) := tr.Hash keccak
      let state : NodeIteratorState :=
        ⟨if root ≠ emptyRoot then root else zeroHash, tr.root, zeroHash, -1, 0⟩
      .ok ({ it with trie := some tr },
        match state.resolve tr [] with
        | .error err => .error (.trie err)
        | .ok state => .ok (state, false, []))
    | top :: rest =>
      let (stack, path) := if descend then (top :: rest, it.path) else (rest, it.path.take top.pathlen)
      let (stack, path, r) := peekLoop tr stack path
      .ok ({ it with stack, path },
        match r with
        | .error err => .error err
        | .ok (state, cpath) => .ok (state, true, cpath))

/-- `push`: the state becomes the current one, and the index of its parent goes on by one. -/
def push (it : NodeIterator) (state : NodeIteratorState) (parentIndex : Bool)
    (path : List UInt8) : NodeIterator :=
  let stack := if parentIndex then
      match it.stack with
      | parent :: rest => { parent with index := parent.index + 1 } :: rest
      | [] => []
    else it.stack
  { it with path, stack := state :: stack }

/-- `seek`'s loop: forward, descending only along `key`, to just before the first node whose path
is at least `key`. -/
def seekLoop (keccak : List UInt8 → List UInt8) (pfx key : List UInt8) :
    Nat → NodeIterator → Except IterPanic (Option IterError × NodeIterator)
  | 0, _ => .error .outOfFuel
  | fuel + 1, it =>
    match it.peek keccak (decide (it.path <+: key)) with
    | .error p => .error p
    | .ok (it, .error .iteratorEnd) => .ok (some .iteratorEnd, it)
    | .ok (it, .error (.trie err)) => .ok (some (.seekError pfx err), it)
    | .ok (it, .error err) => .ok (some err, it)
    | .ok (it, .ok (state, parentIndex, path)) =>
      if ¬ path < key then .ok (none, it)
      else seekLoop keccak pfx key fuel (it.push state parentIndex path)

/-- `seek`: moves to just before the closest match of `pfx`'s HEX path, without terminator. -/
def seek (keccak : List UInt8 → List UInt8) (fuel : Nat) (it : NodeIterator)
    (pfx : List UInt8) : Except IterPanic (Option IterError × NodeIterator) :=
  seekLoop keccak pfx (keybytesToHex pfx).dropLast fuel it

/-- `Next`: moves to the next node, below the current one only with `descend`; `false` at the end
of the iteration or on an error, which it keeps. A failed initial seek is retried first. -/
def Next (keccak : List UInt8 → List UInt8) (fuel : Nat) (it : NodeIterator) (descend : Bool) :
    Except IterPanic (Bool × NodeIterator) :=
  match it.err with
  | some .iteratorEnd => .ok (false, it)
  | some (.seekError key _) =>
    match it.seek keccak fuel key with
    | .error p => .error p
    | .ok (some err, it) => .ok (false, { it with err := some err })
    | .ok (none, it) => step { it with err := none }
  | _ => step it
where
  /-- The step forward once no seek is pending. -/
  step (it : NodeIterator) : Except IterPanic (Bool × NodeIterator) :=
    match it.peek keccak descend with
    | .error p => .error p
    | .ok (it, .error err) => .ok (false, { it with err := some err })
    | .ok (it, .ok (state, parentIndex, path)) =>
      .ok (true, { it.push state parentIndex path with err := none })

/-- `Leaf`: whether the current node is a leaf, its path ending with the terminator. -/
def Leaf (it : NodeIterator) : Bool := hasTerm it.path

/-- `LeafBlob`: the value of the current node, which must be a value node. -/
def LeafBlob (it : NodeIterator) : Except IterPanic (List UInt8) :=
  match it.stack with
  | st :: _ =>
    match st.node with
    | .value v => .ok v
    | _ => .error .notAtLeaf
  | [] => .error .notAtLeaf

/-- `LeafKey`: the key of the current node, which must be a value node, as bytes. -/
def LeafKey (it : NodeIterator) : Except IterPanic (List UInt8) :=
  match it.stack with
  | st :: _ =>
    match st.node with
    | .value _ =>
      match hexToKeybytes it.path with
      | some key => .ok key
      | none => .error .oddLengthKey
    | _ => .error .notAtLeaf
  | [] => .error .notAtLeaf

/-- `Error`: the iterator's error, none at the end of the iteration and the cause of a failed seek.
-/
def Error (it : NodeIterator) : Option TrieError :=
  match it.err with
  | some (.seekError _ err) | some (.trie err) => some err
  | _ => none

end NodeIterator

/-- `newNodeIterator`: an iterator over `trie` positioned just before `start`, and the trie as the
iterator's hashing leaves it. A trie whose root hash is `emptyState`, the hash of no bytes, gets
the empty iterator. -/
def newNodeIterator (keccak : List UInt8 → List UInt8) (fuel : Nat) (trie : Trie)
    (start : List UInt8) : Except IterPanic (NodeIterator × Trie) :=
  let (root, trie) := trie.Hash keccak
  if root = keccak [] then .ok (⟨none, [], [], none⟩, trie)
  else
    match NodeIterator.seek keccak fuel ⟨some trie, [], [], none⟩ start with
    | .error p => .error p
    | .ok (err, it) => .ok ({ it with err }, it.trie.getD trie)

/-- `NodeIterator`: the node iterator of the trie from `start` on. -/
def Trie.NodeIterator (t : Trie) (keccak : List UInt8 → List UInt8) (fuel : Nat)
    (start : List UInt8) : Except IterPanic (GoGaia.Patricia.NodeIterator × Trie) :=
  newNodeIterator keccak fuel t start

/-- `Iterator`: a key-value iterator over a node iterator, with the current key and value (empty
for Go's nil) and the error it ended with. -/
structure Iterator where
  nodeIt : NodeIterator
  Key : List UInt8
  Value : List UInt8
  Err : Option TrieError

/-- `NewIterator`: the key-value iterator of a node iterator. -/
def NewIterator (it : NodeIterator) : Iterator := ⟨it, [], [], none⟩

/-- `Next` of the key-value iterator: moves to the next leaf and reports its key and value, or
ends with the node iterator's error. Each round of the loop visits a node. -/
def Iterator.Next (keccak : List UInt8 → List UInt8) : Nat → Iterator → Except IterPanic (Bool × Iterator)
  | 0, _ => .error .outOfFuel
  | fuel + 1, it =>
    match it.nodeIt.Next keccak (fuel + 1) true with
    | .error p => .error p
    | .ok (true, nodeIt) =>
      if nodeIt.Leaf then
        match nodeIt.LeafKey, nodeIt.LeafBlob with
        | .ok key, .ok value => .ok (true, { it with nodeIt, Key := key, Value := value })
        | .error p, _ | _, .error p => .error p
      else Iterator.Next keccak fuel { it with nodeIt }
    | .ok (false, nodeIt) => .ok (false, { it with nodeIt, Key := [], Value := [], Err := nodeIt.Error })

end GoGaia.Patricia
