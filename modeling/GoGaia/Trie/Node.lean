import GoGaia.Rlp.Raw
import GoGaia.Trie.Encoding

/-!
# Trie nodes and their stored form

`trie/node.go`. A node is `nil`, a full node (seventeen children: one per nibble and the value
slot `16`), a short node (a key and one child), a hash node (a reference to a stored node by its
Keccak-256 hash) or a value node. Full and short nodes carry a `nodeFlag`: the cached hash, the
cache generation, and whether the node has changes not yet written to the database.

A node is stored as the RLP encoding of its collapsed form (`Node.toItem`): a short node as the
list of its compact key and its child, a full node as the list of its seventeen children, hash
and value nodes as strings. `decodeNode` reads it back through the slice splitter of
`rlp/raw.go`. Its nested calls for embedded children read strictly shorter slices, so the model
gives it the length of the input as a bound on the nesting (`fuel`).
-/

namespace GoGaia.Patricia

open GoGaia.Rlp (Item)

/-- `nodeFlag`: caching metadata of a full or short node. -/
structure NodeFlag where
  /-- the cached hash of the node (`nil` in Go is `none`) -/
  hash : Option (List UInt8)
  /-- the cache generation counter -/
  gen : UInt16
  /-- whether the node has changes that must be written to the database -/
  dirty : Bool
deriving Repr, DecidableEq, Inhabited

/-- `node`: the five kinds of trie node. Go's `nil` interface value is `Node.nil`. -/
inductive Node where
  | nil
  | full (children : Fin 17 → Node) (flags : NodeFlag)
  | short (key : List UInt8) (val : Node) (flags : NodeFlag)
  | hash (h : List UInt8)
  | value (v : List UInt8)
deriving Inhabited

namespace NodeFlag

/-- `nodeFlag.canUnload`: a clean node whose generation is at least `cachelimit` behind the
current one; the subtraction wraps as Go's `uint16` does. -/
def canUnload (n : NodeFlag) (cachegen cachelimit : UInt16) : Bool :=
  !n.dirty && cachegen - n.gen ≥ cachelimit

end NodeFlag

namespace Node

/-- `cache`: the cached hash and the dirty flag. Hash and value nodes have no cache and count as
dirty. Go calls the method on a `nil` interface and panics; the hasher never does so on the
tries the trie functions build, and the model answers as for a value node. -/
def cache : Node → Option (List UInt8) × Bool
  | .full _ flags | .short _ _ flags => (flags.hash, flags.dirty)
  | _ => (none, true)

/-- `canUnload`: only full and short nodes can be unloaded. -/
def canUnload (n : Node) (cachegen cachelimit : UInt16) : Bool :=
  match n with
  | .full _ flags | .short _ _ flags => flags.canUnload cachegen cachelimit
  | _ => false

/-- The RLP value `rlp.Encode` writes for a node: a short node as the list of its key and child
(the flags are unexported and not written), a full node (`fullNode.EncodeRLP`) as the list of
its children, hash and value nodes as byte strings, and a `nil` interface as the empty list. -/
def toItem : Node → Item
  | .nil => .list []
  | .full children _ => .list ((List.finRange 17).map fun i => (children i).toItem)
  | .short key val _ => .list [.bytes key, val.toItem]
  | .hash h => .bytes h
  | .value v => .bytes v

end Node

/-- `hashLen`: the length of a Keccak-256 hash. -/
def hashLen : Nat := 32

/-- The errors of `decodeNode`: the splitter's errors, the messages it formats with
`fmt.Errorf`, the `*decodeError` that records the path to the child that failed, and the run-time
panics of an index out of range, in `compactToHex` on an empty key or in the splitter. `outOfFuel` is not a Go error: the nesting bound of the
model ran out, which the length of the input prevents. -/
inductive NodeError where
  | unexpectedEOF
  | rlp (err : Rlp.Error)
  /-- `"decode error: %v"` -/
  | decodeError (err : Rlp.Error)
  /-- `"invalid number of list elements: %v"` -/
  | invalidCount (c : Nat)
  /-- `"invalid value node: %v"` -/
  | invalidValueNode (err : Rlp.Error)
  /-- `"oversized embedded node (size is %d bytes, want size < %d)"`, with `hashLen` -/
  | oversizedEmbedded (size : Nat)
  /-- `"invalid RLP string size %d (want 0 or 32)"` -/
  | invalidStringSize (size : Nat)
  /-- `*decodeError`: the error and the decoding path, innermost first -/
  | decode (what : NodeError) (stack : List String)
  | indexOutOfRange
  | outOfFuel
deriving Repr, DecidableEq, Inhabited

/-- `wrapError`: records `ctx` on the decoding path of an error. A run-time panic is not an
error: it unwinds through `wrapError` unchanged. -/
def wrapError (err : NodeError) (ctx : String) : NodeError :=
  match err with
  | .decode what stack => .decode what (stack ++ [ctx])
  | .indexOutOfRange => .indexOutOfRange
  | err => .decode err [ctx]

/-- The node error for an error `err` of the splitter that the decoder reports as `wrap err`;
the splitter's run-time panic unwinds as itself. -/
def rlpError (wrap : Rlp.Error → NodeError) (err : Rlp.Error) : NodeError :=
  match err with
  | .indexOutOfRange => .indexOutOfRange
  | err => wrap err

/-- `decodeRef`: a child reference at the front of `buf` and the bytes after it. An embedded
node is decoded by `dec`, the nested `decodeNode(nil, buf, cachegen)`. -/
def decodeRef (dec : List UInt8 → Except NodeError Node) (buf : List UInt8) :
    Except NodeError (Node × List UInt8) :=
  match Rlp.split buf with
  | .error err => .error (rlpError .rlp err)
  | .ok (kind, val, rest) =>
    if kind = .list then
      -- an embedded node reference must be smaller than a hash
      let size := buf.length - rest.length
      if size > hashLen then .error (.oversizedEmbedded size)
      else (dec buf).map fun n => (n, rest)
    else if kind = .string ∧ val.length = 0 then .ok (.nil, rest)
    else if kind = .string ∧ val.length = 32 then .ok (.hash val, rest)
    else .error (.invalidStringSize val.length)

/-- `decodeShort`: a short node from the payload `elems` of its list. A key with the terminator
leads to a value node; otherwise the child is a reference. -/
def decodeShort (dec : List UInt8 → Except NodeError Node) (hash : Option (List UInt8))
    (elems : List UInt8) (cachegen : UInt16) : Except NodeError Node :=
  match Rlp.splitString elems with
  | .error err => .error (rlpError .rlp err)
  | .ok (kbuf, rest) =>
    let flag : NodeFlag := ⟨hash, cachegen, false⟩
    match compactToHex kbuf with
    | none => .error .indexOutOfRange
    | some key =>
      if hasTerm key then
        match Rlp.splitString rest with
        | .error err => .error (rlpError .invalidValueNode err)
        | .ok (val, _) => .ok (.short key (.value val) flag)
      else
        match decodeRef dec rest with
        | .error err => .error (wrapError err "val")
        | .ok (r, _) => .ok (.short key r flag)

/-- The loop of `decodeFull` over the children `i, i + 1, …`, `count` of them, each a reference
read from the front of `elems`. -/
def decodeChildren (dec : List UInt8 → Except NodeError Node) :
    Nat → Nat → List UInt8 → Except NodeError (List Node × List UInt8)
  | 0, _, elems => .ok ([], elems)
  | count + 1, i, elems =>
    match decodeRef dec elems with
    | .error err => .error (wrapError err ("[" ++ toString i ++ "]"))
    | .ok (cld, rest) =>
      (decodeChildren dec count (i + 1) rest).map fun (cs, rest') => (cld :: cs, rest')

/-- The children of a full node: sixteen references and the value slot. -/
def fullChildren (cs : List Node) (val : Node) : Fin 17 → Node :=
  fun i => if i.val < 16 then cs.getD i.val .nil else val

/-- `decodeFull`: a full node from the payload `elems` of its list. The value slot holds a
value node when its string is not empty. -/
def decodeFull (dec : List UInt8 → Except NodeError Node) (hash : Option (List UInt8))
    (elems : List UInt8) (cachegen : UInt16) : Except NodeError Node :=
  match decodeChildren dec 16 0 elems with
  | .error err => .error err
  | .ok (cs, elems) =>
    match Rlp.splitString elems with
    | .error err => .error (rlpError .rlp err)
    | .ok (val, _) =>
      let v : Node := if val.length > 0 then .value val else .nil
      .ok (.full (fullChildren cs v) ⟨hash, cachegen, false⟩)

/-- `decodeNode`: parses the RLP encoding of a trie node. The number of values in the list tells
short nodes (2) from full nodes (17); Go ignores the error of `CountValues` and sees zero
values, but not its run-time panic. -/
def decodeNode : Nat → Option (List UInt8) → List UInt8 → UInt16 → Except NodeError Node
  | 0, _, _, _ => .error .outOfFuel
  | fuel + 1, hash, buf, cachegen =>
    if buf.length = 0 then .error .unexpectedEOF
    else
      match Rlp.splitList buf with
      | .error err => .error (rlpError .decodeError err)
      | .ok (elems, _) =>
        let dec := fun b => decodeNode fuel none b cachegen
        match Rlp.countValues elems with
        | .error .indexOutOfRange => .error .indexOutOfRange
        | counted =>
          match counted.toOption.getD 0 with
          | 2 => (decodeShort dec hash elems cachegen).mapError (wrapError · "short")
          | 17 => (decodeFull dec hash elems cachegen).mapError (wrapError · "full")
          | c => .error (.invalidCount c)

/-- The splitter panics on the single byte `0x81`, a one-byte string header with no byte after
it, and `decodeNode` reaches that panic on a node whose list payload is that byte, as node data
received from a peer during state sync can be. -/
theorem splitter_panics_on_short_string :
    Rlp.readKind [0x81] = .error .indexOutOfRange ∧
      decodeNode 2 none [0xC1, 0x81] 0 = .error .indexOutOfRange :=
  ⟨rfl, rfl⟩

end GoGaia.Patricia
