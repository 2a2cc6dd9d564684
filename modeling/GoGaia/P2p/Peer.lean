import Mathlib

/-!
# Subprotocols of a peer connection

`p2p/peer.go`. Each side of a connection learns the capabilities the other side runs (`Cap`: a
name and a version) and matches them against its own protocols (`matchProtocols`): the caps are
sorted by name and version, each cap that names a local protocol gives it the next message codes
from `baseProtocolLength` on, and a later version of the same name takes the place of the one
before it. A subprotocol's messages carry its codes shifted by its offset
(`ProtoRW.writeMsg`); the other side finds the protocol the code belongs to (`getProto`, through
`handle`) and shifts the code back (`ProtoRW.readMsg`).

Go's `sort.Sort` is not stable, but two caps that neither sorts before the other are equal, so
every sort gives the same list; the model sorts by merge sort. Go iterates over the map of
running protocols in an unspecified order: `getProto` takes the running protocols as a list, in
the order of the iteration. The channels behind `WriteMsg`, `ReadMsg` and `handle` are left out:
the model follows the message code.
-/

namespace GoGaia.P2p

/-- `baseProtocolLength`: the codes below it are the base protocol's. -/
def baseProtocolLength : UInt64 := 16

/-- `discMsg`. -/
def discMsg : UInt64 := 0x01

/-- `pingMsg`. -/
def pingMsg : UInt64 := 0x02

/-- `Protocol`, with the fields matching and routing read. -/
structure Protocol where
  name : String
  version : Nat
  length : UInt64
deriving DecidableEq, Repr

/-- `Cap`. -/
structure Cap where
  name : String
  version : Nat
deriving DecidableEq, Repr

/-- `capsByNameAndVersion.Less`. -/
def Cap.less (a b : Cap) : Bool :=
  decide (a.name < b.name) || (a.name == b.name && decide (a.version < b.version))

/-- `sort.Sort(capsByNameAndVersion(caps))`. -/
def sortCaps (caps : List Cap) : List Cap := caps.mergeSort fun a b => !b.less a

/-- `protoRW`: a matched protocol with the offset of its codes. -/
structure ProtoRW where
  proto : Protocol
  offset : UInt64
deriving DecidableEq, Repr

/-- One turn of the outer loop of `matchProtocols`: the first protocol with the cap's name and
version takes the next codes, in place of an earlier version of the name. -/
def matchCap (protocols : List Protocol) (st : (String → Option ProtoRW) × UInt64) (cap : Cap) :
    (String → Option ProtoRW) × UInt64 :=
  match protocols.find? (fun proto => proto.name == cap.name && proto.version == cap.version) with
  | none => st
  | some proto =>
    -- if an old protocol version matched, revert it
    let offset :=
      match st.1 cap.name with
      | some old => st.2 - old.proto.length
      | none => st.2
    (Function.update st.1 cap.name (some ⟨proto, offset⟩), offset + proto.length)

/-- `matchProtocols`: the matched protocols by name. -/
def matchProtocols (protocols : List Protocol) (caps : List Cap) : String → Option ProtoRW :=
  ((sortCaps caps).foldl (matchCap protocols) (fun _ => none, baseProtocolLength)).1

/-- The errors of a peer: `errInvalidMsgCode`, and the error `handle` returns for a code no
protocol has. -/
inductive PeerError where
  | invalidMsgCode
  | msgCodeOutOfRange (code : UInt64)
deriving DecidableEq, Repr

/-- `protoRW.WriteMsg`: the code sent on the connection for the protocol's code `code`. -/
def ProtoRW.writeMsg (rw : ProtoRW) (code : UInt64) : Except PeerError UInt64 :=
  if code ≥ rw.proto.length then .error .invalidMsgCode else .ok (code + rw.offset)

/-- `protoRW.ReadMsg`: the protocol's code for the code `code` received. -/
def ProtoRW.readMsg (rw : ProtoRW) (code : UInt64) : UInt64 := code - rw.offset

/-- `getProto`: the first running protocol, in the order of `running`, whose codes hold `code`. -/
def getProto (running : List ProtoRW) (code : UInt64) : Except PeerError ProtoRW :=
  match running.find? (fun proto => code ≥ proto.offset && code < proto.offset + proto.proto.length)
  with
  | some proto => .ok proto
  | none => .error .invalidMsgCode

/-- What `handle` does with a message. -/
inductive Handled where
  /-- `pingMsg`: a pong is sent back. -/
  | pong
  /-- `discMsg`: the reason it carries ends the connection. -/
  | disconnect
  /-- Another base protocol message. -/
  | discarded
  /-- A subprotocol's message, sent to the protocol's `in` channel. -/
  | delivered (proto : ProtoRW)
deriving DecidableEq, Repr

/-- `Peer.handle`, with the running protocols in the order Go iterates over them. -/
def handle (running : List ProtoRW) (code : UInt64) : Except PeerError Handled :=
  if code = pingMsg then .ok .pong
  else if code = discMsg then .ok .disconnect
  else if code < baseProtocolLength then .ok .discarded
  else
    match getProto running code with
    | .error _ => .error (.msgCodeOutOfRange code)
    | .ok proto => .ok (.delivered proto)

end GoGaia.P2p
