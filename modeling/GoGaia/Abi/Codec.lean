import GoGaia.Lib.BigEndian

/-!
# The contract ABI codec

`accounts/abi`: `Method.pack` lays out the arguments of a call, a 32-byte head word for each
argument and the data of strings, byte slices and slices behind the heads; `ABI.Unpack` reads a
method's return values back with `toGoType`. The types are those `NewType` builds (`Ty`), each
with the `reflect.Kind` of the Go type that holds its values (`Ty.kind`): the integer types of
8, 16, 32 and 64 bits are Go integers, every other size is a `*big.Int`. Go values are `Val`; a
`[]byte` or a `[N]byte` is a slice or an array of `uint8` values, as in Go.

Integers are written by `packNum` as 256-bit two's complement words (`U256`). `readInteger`
reads a Go integer back from the low bytes of its word, which restores a signed value of 64 bits
or fewer, but a `*big.Int` with `SetBytes`, which reads the word as unsigned; and `U256` masks
its `*big.Int` argument in place, so `Pack` changes a negative argument
(`pack_unpack_negative_int256`).

Failures are Go's errors, with the format text of the source's `fmt.Errorf` and without its
arguments, and Go's run-time panics (`Failure`). Offsets and lengths read from the output are
Go `int`s, with the wrap of 64-bit arithmetic (`goInt`). The assignment of the unpacked values to
the caller's variables (`set`) is left out: `unpack` returns the values it would assign.
-/

namespace GoGaia.Abi

/-- What a call of the codec can end in besides a result: a returned error, or a run-time
panic. -/
inductive Failure where
  | error (msg : String)
  | panic (msg : String)
deriving DecidableEq, Repr

/-- The integer kinds of `reflect.Kind` that `reflectIntKindAndType` gives. -/
inductive IntKind where
  | uint8 | uint16 | uint32 | uint64
  | int8 | int16 | int32 | int64
deriving DecidableEq, Repr

/-- The `reflect.Kind`s of the Go types of ABI values. -/
inductive Kind where
  | integer (k : IntKind)
  | ptr
  | bool
  | array
  | string
  | slice
deriving DecidableEq, Repr

/-- `reflectIntKindAndType`: a Go integer for 8, 16, 32 and 64 bits, a `*big.Int` otherwise. -/
def reflectIntKind (unsigned : Bool) (size : Nat) : Kind :=
  match size with
  | 8 => .integer (if unsigned then .uint8 else .int8)
  | 16 => .integer (if unsigned then .uint16 else .int16)
  | 32 => .integer (if unsigned then .uint32 else .int32)
  | 64 => .integer (if unsigned then .uint64 else .int64)
  | _ => .ptr

/-- The ABI types of `NewType`, by their `T`. -/
inductive Ty where
  | int (size : Nat)
  | uint (size : Nat)
  | bool
  | address
  | string
  | bytes
  | fixedBytes (size : Nat)
  | function
  | slice (elem : Ty)
  | array (size : Nat) (elem : Ty)
deriving DecidableEq, Repr

namespace Ty

/-- `Type.Kind`, as `NewType` sets it. -/
def kind : Ty → Kind
  | .int size => reflectIntKind false size
  | .uint size => reflectIntKind true size
  | .bool => .bool
  | .address => .array
  | .string => .string
  | .bytes => .slice
  | .fixedBytes _ => .array
  | .function => .array
  | .slice _ => .slice
  | .array _ _ => .array

/-- `requiresLengthPrefix`. -/
def requiresLengthPrefix : Ty → Bool
  | .string | .bytes | .slice _ => true
  | _ => false

end Ty

/-- Go values: `num` a Go integer of the given kind, `big` a `*big.Int`, `address` a
`common.Address`; a slice or an array records the kind of its element type. -/
inductive Val where
  | num (kind : IntKind) (n : Int)
  | big (n : Int)
  | bool (b : Bool)
  | string (s : List UInt8)
  | address (b : List UInt8)
  | slice (elemKind : Kind) (vs : List Val)
  | array (elemKind : Kind) (vs : List Val)
deriving Repr

namespace Val

/-- A `byte`. -/
def byte (b : UInt8) : Val := .num .uint8 b.toNat

/-- A `[]byte`. -/
def ofBytes (b : List UInt8) : Val := .slice (.integer .uint8) (b.map byte)

/-- A `[N]byte`. -/
def ofArray (b : List UInt8) : Val := .array (.integer .uint8) (b.map byte)

/-- `reflect.Value.Kind`. -/
def kind : Val → Kind
  | .num kind _ => .integer kind
  | .big _ => .ptr
  | .bool _ => .bool
  | .string _ => .string
  | .address _ => .array
  | .slice _ _ => .slice
  | .array _ _ => .array

/-- The elements that `reflect.Value.Index` reads. -/
def elems : Val → List Val
  | .address b => b.map byte
  | .slice _ vs | .array _ vs => vs
  | _ => []

/-- `reflect.Value.Len` of a string, an array or a slice. -/
def len : Val → Nat
  | .string s | .address s => s.length
  | .slice _ vs | .array _ vs => vs.length
  | _ => 0

/-- The kind of the element type of an array or a slice. -/
def elemKind : Val → Option Kind
  | .address _ => some (.integer .uint8)
  | .slice k _ | .array k _ => some k
  | _ => none

/-- The same array or slice with other elements. -/
def withElems : Val → List Val → Val
  | .slice k _, vs => .slice k vs
  | .array k _, vs => .array k vs
  | v, _ => v

/-- The byte a `uint8` value holds. -/
def byteOf : Val → UInt8
  | .num _ n => UInt8.ofNat n.toNat
  | _ => 0

/-- `mustArrayToByteSlice` then `Bytes`: the bytes of a byte array or a byte slice, a panic on
any other element type. -/
def toBytes : Val → Except Failure (List UInt8)
  | .address b => pure b
  | .slice (.integer .uint8) vs | .array (.integer .uint8) vs => pure (vs.map byteOf)
  | _ => throw (.panic "reflect.Value.Bytes of non-byte slice")

end Val

/-! ## Pack -/

/-- `U256`: the 32-byte big-endian form of `n` modulo `2 ^ 256`, which `math.U256` computes by
masking `n` in place. -/
def u256 (n : Int) : List UInt8 := BigEndian.bytes 32 (n % 2 ^ 256).toNat

/-- `common.LeftPadBytes`. -/
def leftPadBytes (b : List UInt8) (l : Nat) : List UInt8 :=
  if l ≤ b.length then b else List.replicate (l - b.length) 0 ++ b

/-- `common.RightPadBytes`. -/
def rightPadBytes (b : List UInt8) (l : Nat) : List UInt8 :=
  if l ≤ b.length then b else b ++ List.replicate (l - b.length) 0

/-- The panic of `packNum` and `packElement` on a kind they do not handle. -/
def fatal : Failure := .panic "abi: fatal error"

/-- `packNum`: the word of an integer, and the value after `U256` masked a `*big.Int`. -/
def packNum : Val → Except Failure (List UInt8 × Val)
  | .num kind n => pure (u256 n, .num kind n)
  | .big n => pure (u256 n, .big (n % 2 ^ 256))
  | _ => throw fatal

/-- `packBytesSlice`: the length, then the bytes padded to whole words. -/
def packBytesSlice (bytes : List UInt8) (l : Nat) : List UInt8 :=
  u256 l ++ rightPadBytes bytes ((l + 31) / 32 * 32)

/-- `packElement`, with the value after packing. -/
def packElement (t : Ty) (v : Val) : Except Failure (List UInt8 × Val) :=
  match t, v with
  | .int _, v | .uint _, v => packNum v
  | .string, .string s => pure (packBytesSlice s s.length, v)
  | .address, v => do
    let b ← v.toBytes
    pure (leftPadBytes b 32, v)
  | .bool, .bool b => pure (u256 (if b then 1 else 0), v)
  | .bytes, v => do
    let b ← v.toBytes
    pure (packBytesSlice b b.length, v)
  | .fixedBytes _, v | .function, v => do
    let b ← v.toBytes
    pure (rightPadBytes b 32, v)
  | _, _ => throw fatal

/-- `typeErr`. -/
def typeErr : Failure := .error "abi: cannot use %v as type %v as argument"

/-- The element checks of `sliceTypeCheck`: a slice element type by the first element if there
is one, an array element type by the first element, any other by the element kind; `check` is
`sliceTypeCheck` at the element type. -/
def elemCheck (elem : Ty) (check : Val → Except Failure Unit) (v : Val) : Except Failure Unit :=
  match elem, v.elems with
  | .slice _, first :: _ | .array _ _, first :: _ => check first
  -- `val.Index(0)` of an empty value
  | .array _ _, [] => throw (.panic "reflect: slice index out of range")
  | _, _ => if v.elemKind = some elem.kind then pure () else throw typeErr

/-- `sliceTypeCheck`. -/
def sliceTypeCheck (t : Ty) (v : Val) : Except Failure Unit :=
  if v.kind ≠ .slice ∧ v.kind ≠ .array then throw typeErr
  else
    match t with
    | .slice elem => elemCheck elem (sliceTypeCheck elem) v
    | .array size elem =>
      if v.len ≠ size then throw typeErr else elemCheck elem (sliceTypeCheck elem) v
    -- `t.Elem` is nil; `typeCheck` calls this on slices and arrays only
    | _ => throw (.panic "runtime error: invalid memory address or nil pointer dereference")

/-- `typeCheck`. -/
def typeCheck (t : Ty) (v : Val) : Except Failure Unit :=
  match t with
  | .slice _ | .array _ _ => sliceTypeCheck t v
  | t =>
    if t.kind ≠ v.kind then throw typeErr
    else
      match t with
      | .fixedBytes size => if size ≠ v.len then throw typeErr else pure ()
      | _ => pure ()

/-- `Type.pack`: the packed bytes of `v`, and `v` after packing. -/
def Ty.pack (t : Ty) (v : Val) : Except Failure (List UInt8 × Val) := do
  typeCheck t v
  match t with
  | .slice elem =>
    let rs ← v.elems.mapM (Ty.pack elem)
    pure (packBytesSlice (rs.map Prod.fst).flatten v.len, v.withElems (rs.map Prod.snd))
  | .array _ elem =>
    let rs ← v.elems.mapM (Ty.pack elem)
    pure ((rs.map Prod.fst).flatten, v.withElems (rs.map Prod.snd))
  | t => packElement t v

/-- The loop of `Method.pack` over the arguments, with the head words and the variable input so
far; `n` is the number of inputs. -/
def packLoop (n : Nat) : List (Ty × Val) → List UInt8 → List UInt8 →
    Except Failure (List UInt8 × List Val)
  | [], ret, variableInput => pure (ret ++ variableInput, [])
  | (input, a) :: rest, ret, variableInput => do
    let (packed, a) ← input.pack a
    let (out, args) ←
      if input.requiresLengthPrefix then
        -- the offset of the data, behind all head words
        packLoop n rest (ret ++ u256 (n * 32 + variableInput.length)) (variableInput ++ packed)
      else packLoop n rest (ret ++ packed) variableInput
    pure (out, a :: args)

/-- `Method.pack`: the encoded arguments, and the arguments after packing. -/
def packArgs (inputs : List Ty) (args : List Val) : Except Failure (List UInt8 × List Val) :=
  if args.length ≠ inputs.length then throw (.error "argument count mismatch: %d for %d")
  else packLoop inputs.length (inputs.zip args) [] []

/-! ## Unpack -/

/-- Go's 64-bit `int`: the two's complement value of `x` modulo `2 ^ 64`. -/
def goInt (x : Int) : Int := (x + 2 ^ 63) % 2 ^ 64 - 2 ^ 63

/-- The slice expression `b[lo : hi]`, which panics unless `0 ≤ lo ≤ hi ≤ len(b)`. -/
def sliceBytes (b : List UInt8) (lo hi : Int) : Except Failure (List UInt8) :=
  if 0 ≤ lo ∧ lo ≤ hi ∧ hi ≤ b.length then pure ((b.drop lo.toNat).take (hi - lo).toNat)
  else throw (.panic "runtime error: slice bounds out of range")

/-- `int(binary.BigEndian.Uint64(b))` of eight bytes. -/
def intOf (b : List UInt8) : Int := goInt (BigEndian.value b)

/-- The two's complement value of the `k` low bytes of a word. -/
def signedLow (k : Nat) (b : List UInt8) : Int :=
  let u := BigEndian.value (b.drop (b.length - k))
  if u < 2 ^ (8 * k - 1) then u else (u : Int) - 2 ^ (8 * k)

/-- `readInteger`: a Go integer from the low bytes of the word, a `*big.Int` from the whole word
read as unsigned (`SetBytes`). -/
def readInteger (kind : Kind) (b : List UInt8) : Val :=
  match kind with
  | .integer .uint8 => .num .uint8 (BigEndian.value (b.drop (b.length - 1)))
  | .integer .uint16 => .num .uint16 (BigEndian.value (b.drop (b.length - 2)))
  | .integer .uint32 => .num .uint32 (BigEndian.value (b.drop (b.length - 4)))
  | .integer .uint64 => .num .uint64 (BigEndian.value (b.drop (b.length - 8)))
  | .integer .int8 => .num .int8 (signedLow 1 b)
  | .integer .int16 => .num .int16 (signedLow 2 b)
  | .integer .int32 => .num .int32 (signedLow 4 b)
  | .integer .int64 => .num .int64 (signedLow 8 b)
  | _ => .big (BigEndian.value b)

/-- `errBadBool`. -/
def errBadBool : Failure := .error "abi: improperly encoded boolean value"

/-- `readBool`. -/
def readBool (word : List UInt8) : Except Failure Bool :=
  if (word.take 31).any (· != 0) then throw errBadBool
  else
    match (word[31]? : Option UInt8) with
    | some 0 => pure false
    | some 1 => pure true
    | _ => throw errBadBool

/-- `readFunctionType`, whose caller passes a function type: the 24 bytes of the address and the
selector, with the rest of the word zero. -/
def readFunctionType (word : List UInt8) : Except Failure (List UInt8) :=
  if BigEndian.value ((word.drop 24).take 8) ≠ 0 then
    throw (.error "abi: got improperly encoded function type, got %v")
  else pure (word.take 24)

/-- `readFixedBytes`, whose caller passes a fixed byte array type of `size` bytes. -/
def readFixedBytes (size : Nat) (word : List UInt8) : Val := Val.ofArray (word.take size)

/-- `lengthPrefixPointsTo`: the start and the length of the data whose offset is the word at
`index`. -/
def lengthPrefixPointsTo (index : Nat) (output : List UInt8) : Except Failure (Int × Int) := do
  let offset := intOf (← sliceBytes output (index + 24) (index + 32))
  if goInt (offset + 32) > output.length then
    throw (.error "abi: cannot marshal in to go slice: offset %d would go over slice boundary (len=%d)")
  let length := intOf (← sliceBytes output (goInt (offset + 24)) (goInt (offset + 32)))
  if goInt (offset + 32 + length) > output.length then
    throw (.error "abi: cannot marshal in to go type: length insufficient %d require %d")
  pure (goInt (offset + 32), length)

/-- The loop of `forEachUnpack` over `n` elements from the `j`-th, with the index `i` it reads
the next one at: an array element after the first is read at `start + size * 32 * j`. -/
def forEachLoop (elem : Ty) (start : Nat) (dec : Nat → Except Failure Val) :
    Nat → Nat → Nat → Except Failure (List Val)
  | _, _, 0 => pure []
  | i, j, n + 1 => do
    let i := match elem with
      | .array size _ => if j ≠ 0 then start + size * 32 * j else i
      | _ => i
    let v ← dec i
    let vs ← forEachLoop elem start dec (i + 32) (j + 1) n
    pure (v :: vs)

/-- `forEachUnpack` of `size` elements from `start`, each read by `dec` at its index. -/
def forEachUnpack (t : Ty) (output : List UInt8) (start size : Int)
    (dec : Nat → Except Failure Val) : Except Failure Val := do
  if goInt (start + 32 * size) > output.length then
    throw (.error "abi: cannot marshal in to go array: offset %d would go over slice boundary (len=%d)")
  let slice ← sliceBytes output start (goInt (start + size * 32))
  -- the loop runs while `j * 32 < len(slice)`
  let n := (slice.length + 31) / 32
  match t with
  | .slice elem =>
    -- `reflect.MakeSlice` of a negative length, or of one whose byte count wrapped
    if (slice.length : Int) ≠ 32 * size then throw (.panic "reflect.MakeSlice: len out of range")
    else return .slice elem.kind (← forEachLoop elem start.toNat dec start.toNat 0 n)
  | .array _ elem => return .array elem.kind (← forEachLoop elem start.toNat dec start.toNat 0 n)
  | _ => throw (.error "abi: invalid type in array/slice unpacking stage")

/-- `toGoType`: the value of type `t` whose head word is at `index`. -/
def toGoType (index : Nat) (t : Ty) (output : List UInt8) : Except Failure Val := do
  if index + 32 > output.length then
    throw (.error "abi: cannot marshal in to go type: length insufficient %d require %d")
  let (begin, end_) ←
    if t.requiresLengthPrefix then lengthPrefixPointsTo index output else pure (0, 0)
  let returnOutput := (output.drop index).take 32
  match t with
  | .slice elem => forEachUnpack t output begin end_ fun i => toGoType i elem output
  | .array size elem => forEachUnpack t output index size fun i => toGoType i elem output
  | .string => return .string (← sliceBytes output begin (goInt (begin + end_)))
  | .int _ | .uint _ => return readInteger t.kind returnOutput
  | .bool => return .bool (← readBool returnOutput)
  | .address => return .address (returnOutput.drop 12)
  | .bytes => return Val.ofBytes (← sliceBytes output begin (goInt (begin + end_)))
  | .fixedBytes size => return readFixedBytes size returnOutput
  | .function => return Val.ofArray (← readFunctionType returnOutput)

/-- `bytesAreProper`. -/
def bytesAreProper (output : List UInt8) : Except Failure Unit :=
  if output.length = 0 then throw (.error "abi: unmarshalling empty output")
  else if output.length % 32 ≠ 0 then throw (.error "abi: improperly formatted output %v")
  else pure ()

/-- `Method.tupleUnpack` over the outputs from the `i`-th, `j` the words it skips: an array
output moves the index on by its size before it is read. -/
def tupleUnpack (output : List UInt8) : List Ty → Nat → Nat → Except Failure (List Val)
  | [], _, _ => pure []
  | t :: ts, i, j => do
    let j := match t with
      | .array size _ => j + size
      | _ => j
    let v ← toGoType ((i + j) * 32) t output
    let vs ← tupleUnpack output ts (i + 1) j
    pure (v :: vs)

/-- `ABI.Unpack` through a method with these outputs: the values it assigns, in order. -/
def unpack (outputs : List Ty) (output : List UInt8) : Except Failure (List Val) := do
  bytesAreProper output
  if outputs.length > 1 then tupleUnpack output outputs 0 0
  else
    match outputs with
    | t :: _ => return [← toGoType 0 t output]
    -- `method.Outputs[0]` of a method without outputs
    | [] => throw (.panic "runtime error: index out of range")

/-! ## A negative `int256` -/

/-- **A negative `*big.Int` does not survive.** The method with one `int256` input packs `-1` as
the word of 32 bytes `0xff`, and masks the argument to `2 ^ 256 - 1` on the way; unpacking the
word through the same type reads `2 ^ 256 - 1`, which is not `-1`. -/
theorem pack_unpack_negative_int256 :
    packArgs [.int 256] [.big (-1)] = .ok (List.replicate 32 0xff, [.big (2 ^ 256 - 1)]) ∧
      unpack [.int 256] (List.replicate 32 0xff) = .ok [.big (2 ^ 256 - 1)] ∧
      Val.big (2 ^ 256 - 1) ≠ Val.big (-1) :=
  ⟨rfl, rfl, fun h => absurd (Val.big.inj h) (by decide)⟩

end GoGaia.Abi
