import GoGaia.Rlp.Decode
import GoGaia.Rlp.Encode
import GoGaia.Lib.EState

/-!
# Encoding and decoding Go values by their type

`EncodeToBytes` and `DecodeBytes` on a Go value pick a writer and a decoder by the value's type
through the type cache (`rlp/typecache.go`, `makeWriter`, `makeDecoder`). The model's types are
the RLP-serializable types built from unsigned integers, `bool`, `string`, `big.Int` and
`*big.Int`, `[]byte` and `[N]byte`, slices, arrays, structs and pointers (`RType`); a struct
lists its exported fields with their parsed `rlp:"nil"`, `rlp:"tail"` and `rlp:"-"` tags. Values
(`Value`) are untyped trees that the type reads.

`write` is `typeinfo.writer` and `decode` is `typeinfo.decoder`, both by recursion on the type;
`decode` starts from the zero value, as `DecodeBytes(b, &w)` does on a fresh `w`, so it returns
the value it builds. `RType.tagError` is the error the type cache reports for a misplaced
`rlp:"tail"` tag.
-/

namespace GoGaia.Rlp

/-- The parsed struct tag of a field (`tags`, `rlp/typecache.go:37`). -/
structure Tags where
  nilOK : Bool := false
  tail : Bool := false
  ignored : Bool := false
deriving Repr, DecidableEq, Inhabited

mutual
/-- The RLP-serializable Go types of the model. `uint bits` is an unsigned integer type of that
many bits. -/
inductive RType where
  | uint (bits : Nat)
  | bool
  | string
  | bigInt
  | bigIntPtr
  | bytes
  | byteArray (n : Nat)
  | slice (elem : RType)
  | array (n : Nat) (elem : RType)
  | struct (name : String) (fields : List Field)
  | ptr (elem : RType)
deriving Repr, Inhabited

/-- An exported struct field: its name, its tag and its type. -/
inductive Field where
  | mk (name : String) (tags : Tags) (typ : RType)
deriving Repr, Inhabited
end

/-- Go values of the model's types: a `[]byte` or `[N]byte` is `bytes`, any other slice or array
is `list`, a struct lists its fields' values in order. -/
inductive Value where
  | uint (n : Nat)
  | bool (b : Bool)
  | string (s : List UInt8)
  | bigInt (n : Nat)
  | bigIntPtr (n : Option Nat)
  | bytes (b : List UInt8)
  | list (vs : List Value)
  | struct (vs : List Value)
  | ptr (v : Option Value)
deriving Repr, Inhabited

namespace RType

/-- How Go prints the type (`reflect.Type.String`), as decode errors show it. -/
def name : RType → String
  | .uint bits => "uint" ++ toString bits
  | .bool => "bool"
  | .string => "string"
  | .bigInt => "big.Int"
  | .bigIntPtr => "*big.Int"
  | .bytes => "[]uint8"
  | .byteArray n => "[" ++ toString n ++ "]uint8"
  | .slice t => "[]" ++ t.name
  | .array n t => "[" ++ toString n ++ "]" ++ t.name
  | .struct name _ => name
  | .ptr t => "*" ++ t.name

/-- `typ.Kind() == reflect.Slice`. -/
def isSlice : RType → Bool
  | .slice _ | .bytes => true
  | _ => false

mutual
/-- The zero value of the type. -/
def zero : RType → Value
  | .uint _ => .uint 0
  | .bool => .bool false
  | .string => .string []
  | .bigInt => .bigInt 0
  | .bigIntPtr => .bigIntPtr none
  | .bytes => .bytes []
  | .byteArray n => .bytes (List.replicate n 0)
  | .slice _ => .list []
  | .array n t => .list (List.replicate n t.zero)
  | .struct _ fs => .struct (zeroFields fs)
  | .ptr _ => .ptr none

/-- The zero values of the fields. -/
def zeroFields : List Field → List Value
  | [] => []
  | .mk _ _ t :: fs => t.zero :: zeroFields fs
end

mutual
/-- The error `cachedTypeInfo` reports for the type, if any: `parseStructTag` rejects a
`rlp:"tail"` tag that is not on the last field or not on a slice field, field after field and
depth first, as `structFields` generates the fields' type info in order; an ignored field's type
is not looked at. -/
def tagError : RType → Option Error
  | .slice t | .array _ t | .ptr t => t.tagError
  | .struct name fs => fieldsTagError name fs.length 0 fs
  | _ => none

/-- `structFields` from the `i`-th of `n` fields on. -/
def fieldsTagError (name : String) (n i : Nat) : List Field → Option Error
  | [] => none
  | .mk fname tags t :: fs =>
    if tags.tail ∧ i ≠ n - 1 then
      some (.errorf ("rlp: invalid struct tag \"tail\" for " ++ name ++ "." ++ fname ++
        " (must be on last field)"))
    else if tags.tail ∧ ¬ t.isSlice then
      some (.errorf ("rlp: invalid struct tag \"tail\" for " ++ name ++ "." ++ fname ++
        " (field type is not slice)"))
    else if tags.ignored then fieldsTagError name n (i + 1) fs
    else
      match t.tagError with
      | some err => some err
      | none => fieldsTagError name n (i + 1) fs
end

end RType

/-! ## Writers -/

namespace Encbuf

/-- `writeUint` (`rlp/encode.go:387`). -/
def writeUint (w : Encbuf) (i : Nat) : Encbuf :=
  if i = 0 then w.write [0x80]
  else if i < 128 then
    -- fits single byte
    w.write [UInt8.ofNat i]
  else w.write ((0x80 + UInt8.ofNat (intsize i)) :: putint i)

/-- `writeBool`. -/
def writeBool (w : Encbuf) (b : Bool) : Encbuf :=
  if b then w.write [0x01] else w.write [0x80]

/-- `writeBigInt` of a non-negative integer: `i.Bytes()` is its shortest big-endian form. -/
def writeBigInt (w : Encbuf) (i : Nat) : Encbuf :=
  if i = 0 then w.write [0x80] else w.encodeString (putint i)

/-- `writeBigIntPtr`: a nil `*big.Int` is written as zero. -/
def writeBigIntPtr (w : Encbuf) : Option Nat → Encbuf
  | none => w.write [0x80]
  | some i => w.writeBigInt i

/-- `writeBytes`. -/
def writeBytes (w : Encbuf) (b : List UInt8) : Encbuf := w.encodeString b

/-- `writeByteArray`: the array's bytes as a string. -/
def writeByteArray (w : Encbuf) (b : List UInt8) : Encbuf := w.encodeString b

/-- `writeString`, which repeats the body of `encodeString` on the string's bytes. -/
def writeString (w : Encbuf) (s : List UInt8) : Encbuf := w.encodeString s

end Encbuf

mutual
/-- `typeinfo.writer` of a type with its tags (`makeWriter`, `rlp/encode.go:346`). A slice or
an array is written by `makeSliceWriter`, which leaves out the list header of a `rlp:"tail"`
slice; a nil pointer by the `nilfunc` of `makePtrWriter`. A value that does not have the type
leaves the buffer as it is. -/
def write : RType → Tags → Value → Encbuf → Encbuf
  | .uint _, _, .uint i, w => w.writeUint i
  | .bool, _, .bool b, w => w.writeBool b
  | .string, _, .string s, w => w.writeString s
  | .bigInt, _, .bigInt i, w => w.writeBigInt i
  | .bigIntPtr, _, .bigIntPtr p, w => w.writeBigIntPtr p
  | .bytes, _, .bytes b, w => w.writeBytes b
  | .byteArray _, _, .bytes b, w => w.writeByteArray b
  | .slice t, ts, .list vs, w =>
    if ts.tail then vs.foldl (fun w v => write t {} v w) w
    else (vs.foldl (fun w v => write t {} v w) w.list.1).listEnd w.list.2
  | .array _ t, ts, .list vs, w =>
    if ts.tail then vs.foldl (fun w v => write t {} v w) w
    else (vs.foldl (fun w v => write t {} v w) w.list.1).listEnd w.list.2
  | .struct _ fs, _, .struct vs, w => (writeFields fs vs w.list.1).listEnd w.list.2
  | .ptr t, _, .ptr none, w =>
    match t with
    | .byteArray _ => w.write [0x80]
    -- encoding the zero value of a struct/array could trigger infinite recursion, avoid that
    | .struct _ _ | .array _ _ => w.list.1.listEnd w.list.2
    | _ => write t {} t.zero w
  | .ptr t, _, .ptr (some v), w => write t {} v w
  | _, _, _, w => w

/-- The loop of the struct writer over the fields that are not ignored. -/
def writeFields : List Field → List Value → Encbuf → Encbuf
  | .mk _ tags t :: fs, v :: vs, w =>
    if tags.ignored then writeFields fs vs w else writeFields fs vs (write t tags v w)
  | _, _, w => w
end

/-- `EncodeToBytes` of a value of type `t`. -/
def encodeValue (t : RType) (v : Value) : Except Error (List UInt8) :=
  match t.tagError with
  | some err => .error err
  | none => .ok (write t {} v Encbuf.empty).toBytes

/-! ## Decoders -/

/-- `decodeUint`. -/
def decodeUint (typ : String) (bits : Nat) : StreamM Value := do
  let num ← wrapped typ (Stream.uint bits)
  pure (.uint num)

/-- `decodeBool`. -/
def decodeBool : StreamM Value := do
  let b ← wrapped "bool" Stream.bool
  pure (.bool b)

/-- `decodeString`. -/
def decodeString : StreamM Value := do
  let b ← wrapped "string" Stream.bytes
  pure (.string b)

/-- `decodeBigInt` into a `*big.Int`: leading zero bytes are rejected. -/
def decodeBigInt : StreamM Nat := do
  let b ← wrapped "*big.Int" Stream.bytes
  if b ≠ [] ∧ b.headD 0 = 0 then throw (wrapStreamError .canonInt "*big.Int")
  pure (BigEndian.value b)

/-- `decodeByteSlice`. -/
def decodeByteSlice : StreamM Value := do
  let b ← wrapped "[]uint8" Stream.bytes
  pure (.bytes b)

/-- `decodeByteArray` into a `[n]byte` (`rlp/decode.go:379`). In the `Byte` case the error of
`s.Uint()` is dropped: for a zero byte it is `ErrCanonInt`, returned before `Uint` re-arms the
stream, and the array's byte is set to the `0` returned with it. -/
def decodeByteArray (typ : String) (n : Nat) : StreamM Value := do
  let (k, size) ← Stream.kind
  match k with
  | .byte =>
    if n = 0 then throw (.decode "input string too long" typ [])
    if n > 1 then throw (.decode "input string too short" typ [])
    let bv ← attempt (Stream.uint 64)
    match bv with
    | .ok v => pure (.bytes [UInt8.ofNat v])
    | .error _ => pure (.bytes [0])
  | .string =>
    if n < size then throw (.decode "input string too long" typ [])
    if n > size then throw (.decode "input string too short" typ [])
    let slice ← Stream.readFull n
    -- reject cases where single byte encoding should have been used
    if size = 1 ∧ slice.headD 0 < 128 then throw (wrapStreamError .canonSize typ)
    pure (.bytes slice)
  | .list => throw (wrapStreamError .expectedString typ)

/-- The loop of `decodeListArray` over at most `n` elements, stopping at `EOL`. -/
def decodeArrayElems {α : Type} (elemdec : StreamM α) : Nat → Nat → StreamM (List α)
  | 0, _ => pure []
  | n + 1, i => do
    match ← attempt elemdec with
    | .error .eol => pure []
    | .error err => throw (addErrorContext err ("[" ++ toString i ++ "]"))
    | .ok x =>
      let xs ← decodeArrayElems elemdec n (i + 1)
      pure (x :: xs)

/-- `decodeListArray` into an array of `n` elements. -/
def decodeListArray {α : Type} (typ : String) (n : Nat) (elemdec : StreamM α) :
    StreamM (List α) := do
  let _ ← wrapped typ Stream.list
  let xs ← decodeArrayElems elemdec n 0
  if xs.length < n then throw (.decode "input list has too few elements" typ [])
  wrapped typ Stream.listEnd
  pure xs

mutual
/-- `typeinfo.decoder` of a type with its tags (`makeDecoder`, `rlp/decode.go:185`), on a
zero value. `fuel` bounds the number of elements of a slice. -/
def decode : RType → Tags → Nat → StreamM Value
  | .uint bits, _, _ => decodeUint ("uint" ++ toString bits) bits
  | .bool, _, _ => decodeBool
  | .string, _, _ => decodeString
  | .bigInt, _, _ => do
    let i ← decodeBigInt
    pure (.bigInt i)
  | .bigIntPtr, _, _ => do
    let i ← decodeBigInt
    pure (.bigIntPtr (some i))
  | .bytes, _, _ => decodeByteSlice
  | .byteArray n, _, _ => decodeByteArray ("[" ++ toString n ++ "]uint8") n
  | .slice t, ts, fuel =>
    if ts.tail then
      -- the struct decoder already called `s.List`
      .list <$> decodeSliceElems (decode t {} fuel) fuel 0
    else .list <$> decodeListSlice ("[]" ++ t.name) (decode t {} fuel) fuel
  | .array n t, _, fuel =>
    .list <$> decodeListArray ("[" ++ toString n ++ "]" ++ t.name) n (decode t {} fuel)
  | .struct name fs, _, fuel => do
    let _ ← wrapped name Stream.list
    let vs ← decodeFields name fs fuel
    wrapped name Stream.listEnd
    pure (.struct vs)
  | .ptr t, ts, fuel =>
    if ts.nilOK then do
      -- `makeOptionalPtrDecoder`: an empty value is a nil pointer
      match ← attempt Stream.kind with
      | .error err =>
        Stream.rearm
        throw err
      | .ok (k, size) =>
        if size = 0 ∧ k ≠ .byte then
          Stream.rearm
          pure (.ptr none)
        else do
          let v ← decode t {} fuel
          pure (.ptr (some v))
    else do
      -- `makePtrDecoder`
      let v ← decode t {} fuel
      pure (.ptr (some v))

/-- The loop of the struct decoder over the fields: an ignored field keeps its zero value, and
running out of list elements is "too few elements". -/
def decodeFields (typ : String) : List Field → Nat → StreamM (List Value)
  | [], _ => pure []
  | .mk fname tags t :: fs, fuel =>
    if tags.ignored then do
      let vs ← decodeFields typ fs fuel
      pure (t.zero :: vs)
    else do
      match ← attempt (decode t tags fuel) with
      | .error .eol => throw (.decode "too few elements" typ [])
      | .error err => throw (addErrorContext err ("." ++ fname))
      | .ok v =>
        let vs ← decodeFields typ fs fuel
        pure (v :: vs)
end

/-- `DecodeBytes(b, &w)` with `w` a fresh variable of type `t`. -/
def decodeValue (t : RType) (b : List UInt8) : Except Error Value :=
  match t.tagError with
  | some err => .error err
  | none => decodeBytesAs t.name (decode t {} (b.length + 1)) b

/-- A `[1]byte` field holding `0` breaks the decoding of the field after it: `EncodeToBytes` of
`T{A: [1]byte{0}, B: 5}` with `type T struct { A [1]byte; B uint64 }` writes `C2 00 05`, and
`DecodeBytes` of those bytes into a `T` fails on `B`. `decodeByteArray` reads `A` through
`s.Uint()`, which returns `ErrCanonInt` for the zero byte without re-arming the stream, so the
decoder of `B` finds the cached zero byte again and rejects it. -/
theorem decodeValue_zero_byteArray_field :
    encodeValue (.struct "rlp.T" [.mk "A" {} (.byteArray 1), .mk "B" {} (.uint 64)])
        (.struct [.bytes [0], .uint 5]) = .ok [0xC2, 0x00, 0x05] ∧
      decodeValue (.struct "rlp.T" [.mk "A" {} (.byteArray 1), .mk "B" {} (.uint 64)])
          [0xC2, 0x00, 0x05] =
        .error (.decode "non-canonical integer (leading zero bytes)" "uint64" [".B", "(rlp.T)"]) :=
  ⟨by decide, by decide +kernel⟩

end GoGaia.Rlp
