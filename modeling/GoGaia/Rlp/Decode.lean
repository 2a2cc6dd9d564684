import GoGaia.Rlp.Stream
import GoGaia.Rlp.Item

/-!
# Decoding into an `interface{}`

The decoders of `rlp/decode.go` that decoding into an empty interface runs: `decodeInterface`
reads a list through `decodeListSlice`, whose loop `decodeSliceElems` decodes elements until the
stream reports the end of the list, and a string through `Stream.Bytes`. `DecodeBytes` decodes one
value from a byte slice and rejects trailing data.

Go's loops and recursion here have no bound; the model bounds the recursion depth and the number of
elements of a list by a `fuel` argument, and `DecodeBytes` passes one more than the input length,
which no run can exhaust since every level and every element reads at least one byte.
-/

namespace GoGaia.Rlp

/-- `wrapStreamError`: a stream error seen while decoding into a value of type `typ` becomes a
`*decodeError` naming the type. -/
def wrapStreamError (err : Error) (typ : String) : Error :=
  match err with
  | .canonInt => .decode "non-canonical integer (leading zero bytes)" typ []
  | .canonSize => .decode "non-canonical size information" typ []
  | .expectedList => .decode "expected input list" typ []
  | .expectedString => .decode "expected input string or byte" typ []
  | .uintOverflow => .decode "input string too long" typ []
  | .notAtEOL => .decode "input list has too many elements" typ []
  | err => err

/-- `addErrorContext`: records where in the value a `*decodeError` occurred. -/
def addErrorContext (err : Error) (ctx : String) : Error :=
  match err with
  | .decode msg typ cs => .decode msg typ (cs ++ [ctx])
  | err => err

/-- Runs a stream operation, wrapping its error for type `typ`. -/
def wrapped {α : Type} (typ : String) (x : StreamM α) : StreamM α :=
  tryCatch x fun err => throw (wrapStreamError err typ)

/-- `decodeSliceElems`: decodes elements with `elemdec` until it reports `EOL`; `i` is the index
of the next element, `fuel` bounds the number of elements. -/
def decodeSliceElems {α : Type} (elemdec : StreamM α) : Nat → Nat → StreamM (List α)
  | 0, _ => throw .outOfFuel
  | fuel + 1, i => do
    match ← attempt elemdec with
    | .error .eol => pure []
    | .error err => throw (addErrorContext err ("[" ++ toString i ++ "]"))
    | .ok x =>
      let xs ← decodeSliceElems elemdec fuel (i + 1)
      pure (x :: xs)

/-- `decodeListSlice`: decodes a list into a slice of type `typ` whose elements `elemdec`
decodes. -/
def decodeListSlice {α : Type} (typ : String) (elemdec : StreamM α) (fuel : Nat) :
    StreamM (List α) := do
  let size ← wrapped typ Stream.list
  if size = 0 then
    Stream.listEnd
    pure []
  else
    let xs ← decodeSliceElems elemdec fuel 0
    Stream.listEnd
    pure xs

/-- `decodeInterface`: a list becomes a `[]interface{}` of its decoded elements, anything else a
`[]byte`. `fuel` bounds the nesting depth. -/
def decodeInterface : Nat → StreamM Item
  | 0 => throw .outOfFuel
  | fuel + 1 => do
    let (k, _) ← Stream.kind
    if k = .list then
      let l ← decodeListSlice "[]interface {}" (decodeInterface fuel) fuel
      pure (.list l)
    else
      let b ← Stream.bytes
      pure (.bytes b)

/-- What `Stream.Decode` adds to an error: the decode target type, once the error has a
context. -/
def addDecodeTarget (err : Error) (typ : String) : Error :=
  match err with
  | .decode msg t cs => if cs = [] then err else .decode msg t (cs ++ ["(" ++ typ ++ ")"])
  | err => err

/-- `DecodeBytes(b, &x)` with `x` of type `typ`, whose decoder is `dec`: `Stream.Decode` on a
stream limited to `b`, then the check that no input is left. -/
def decodeBytesAs {α : Type} (typ : String) (dec : StreamM α) (b : List UInt8) : Except Error α :=
  match dec.run (Stream.ofBytes b) with
  | .error err _ => .error (addDecodeTarget err typ)
  | .ok x s => if s.r.length > 0 then .error .moreThanOneValue else .ok x

/-- `DecodeBytes(b, &x)` with `x` an `interface{}`. -/
def decodeBytes (b : List UInt8) : Except Error Item :=
  decodeBytesAs "interface {}" (decodeInterface (b.length + 1)) b

end GoGaia.Rlp
