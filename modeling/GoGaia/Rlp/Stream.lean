import GoGaia.Lib.BigEndian

/-!
# The decoding stream

`rlp/decode.go` decodes through a `Stream` over a `ByteReader`. The model reads from the unread
bytes of a `bytes.Reader` (`Stream.r`), as `DecodeBytes` does, and keeps every other field of the
Go struct: the input limit (`remaining`, `limited`), the cached kind, size and single-byte value
of the value ahead (`cachedKind`, `size`, `byteval`), the sticky error of the last `readKind`
(`kinderr`) and the stack of enclosing lists (`stack`, innermost first). Go's `kind == -1`
("re-armed": the next `Kind` reads a new header) is `cachedKind = none`.

Stream methods mutate the stream and return an error, so they are `EStateM Error Stream`
computations: a failed method keeps the mutations it made before failing, as in Go.
-/

namespace GoGaia.Rlp

/-- `Kind`: the kind of value ahead in the stream. -/
inductive Kind where
  | byte
  | string
  | list
deriving Repr, DecidableEq, Inhabited

/-- The errors of the package and of the readers it calls. `decode msg typ ctx` is a
`*decodeError` with its message, the printed Go type and the decoding context; `errorf msg` is an
error made by `fmt.Errorf`; `outOfFuel` is not a Go error: it is returned when a recursion bound
of the model runs out, which the decoding theorems show never happens for the bound
`DecodeBytes` is given. `indexOutOfRange` is not one either: it stands for the run-time panic of
a slice index past the end. -/
inductive Error where
  | eol
  | expectedString
  | expectedList
  | canonInt
  | canonSize
  | elemTooLarge
  | valueTooLarge
  | moreThanOneValue
  | notInList
  | notAtEOL
  | uintOverflow
  | eof
  | unexpectedEOF
  | invalidBool (num : Nat)
  | decode (msg : String) (typ : String) (ctx : List String)
  | errorf (msg : String)
  | outOfFuel
  | indexOutOfRange
deriving Repr, DecidableEq, Inhabited

/-- `listpos`: bytes read so far and size of an enclosing list. -/
structure Listpos where
  pos : Nat
  size : Nat
deriving Repr, DecidableEq, Inhabited

/-- `Stream`, reading from a `bytes.Reader` whose unread bytes are `r`; `uintbuf` is a scratch
buffer and is left out. -/
structure Stream where
  r : List UInt8
  remaining : Nat
  limited : Bool
  /-- Go's field `kind`, renamed apart from the method `Kind`. -/
  cachedKind : Option Kind
  size : Nat
  byteval : UInt8
  kinderr : Option Error
  stack : List Listpos
deriving Repr, DecidableEq, Inhabited

/-- Stream computations: Go methods on `*Stream` returning an `error`. -/
abbrev StreamM := EStateM Error Stream

/-- Runs `x` and returns its error as a value, keeping the state it fails in: Go's
`v, err := x()` followed by a test of `err`. -/
def attempt {α : Type} (x : StreamM α) : StreamM (Except Error α) :=
  tryCatch (Except.ok <$> x) fun e => pure (Except.error e)

namespace Stream

/-- `NewStream(bytes.NewReader(b), uint64(len(b)))` as `DecodeBytes` calls it, after `Reset`:
the input limit is the length of `b` (also when it is zero, through the `*bytes.Reader` case
of `Reset`). -/
def ofBytes (b : List UInt8) : Stream := ⟨b, b.length, true, none, 0, 0, none, []⟩

/-- `s.kind = -1`: re-arms `Kind`. -/
def rearm : StreamM Unit := modify fun s => { s with cachedKind := none }

/-- `willRead`: accounts for `n` bytes about to be read against the innermost list and the input
limit. -/
def willRead (n : Nat) : StreamM Unit := do
  rearm
  let s ← get
  match s.stack with
  | tos :: rest =>
    -- check list overflow
    if n > tos.size - tos.pos then throw .elemTooLarge
    set { s with stack := { tos with pos := tos.pos + n } :: rest }
  | [] => pure ()
  let s ← get
  if s.limited then
    if n > s.remaining then throw .valueTooLarge
    set { s with remaining := s.remaining - n }

/-- `readByte`; `io.EOF` from the reader becomes `io.ErrUnexpectedEOF`. -/
def readByte : StreamM UInt8 := do
  willRead 1
  let s ← get
  match s.r with
  | b :: rest =>
    set { s with r := rest }
    pure b
  | [] => throw .unexpectedEOF

/-- `readFull` into a buffer of `n` bytes. -/
def readFull (n : Nat) : StreamM (List UInt8) := do
  willRead n
  let s ← get
  if n ≤ s.r.length then
    set { s with r := s.r.drop n }
    pure (s.r.take n)
  else
    set { s with r := [] }
    throw .unexpectedEOF

/-- `readUint`: an integer of `size ≤ 8` big-endian bytes. The bytes are read into the low end of
the zeroed 8-byte `uintbuf`, so the result is their big-endian value; a leading zero byte is
rejected for sizes of two bytes or more only. -/
def readUint (size : Nat) : StreamM Nat :=
  match size with
  | 0 => do
    rearm
    pure 0
  | 1 => do
    let b ← readByte
    pure b.toNat
  | size + 2 => do
    let buf ← readFull (size + 2)
    if buf.headD 0 = 0 then throw .canonSize
    pure (BigEndian.value buf)

/-- `readKind`: reads the header of the value ahead and returns its kind, its size and an
error, which `Kind` stores rather than returns. -/
def readKind : StreamM (Kind × Nat × Option Error) := do
  match ← attempt readByte with
  | .error err =>
    let s ← get
    -- at toplevel, adjust the error to actual EOF
    if s.stack = [] ∧ (err = .unexpectedEOF ∨ err = .valueTooLarge) then
      pure (.byte, 0, some .eof)
    else
      pure (.byte, 0, some err)
  | .ok b =>
    modify fun s => { s with byteval := 0 }
    if b < 0x80 then
      modify fun s => { s with byteval := b }
      pure (.byte, 0, none)
    else if b < 0xB8 then
      pure (.string, (b - 0x80).toNat, none)
    else if b < 0xC0 then
      match ← attempt (readUint (b - 0xB7).toNat) with
      | .error err => pure (.string, 0, some err)
      | .ok size => pure (.string, size, if size < 56 then some .canonSize else none)
    else if b < 0xF8 then
      pure (.list, (b - 0xC0).toNat, none)
    else
      match ← attempt (readUint (b - 0xF7).toNat) with
      | .error err => pure (.list, 0, some err)
      | .ok size => pure (.list, size, if size < 56 then some .canonSize else none)

/-- `Kind`: the kind and size of the value ahead, read from the input the first time after the
stream was re-armed and cached until then. -/
def kind : StreamM (Kind × Nat) := do
  let s ← get
  if s.cachedKind = none then
    set { s with kinderr := none }
    match s.stack with
    | tos :: _ =>
      -- don't read further if we're at the end of the innermost list
      if tos.pos = tos.size then throw .eol
    | [] => pure ()
    let (k, size, err) ← readKind
    modify fun s => { s with cachedKind := some k, size := size, kinderr := err }
    if err = none then
      let s ← get
      match s.stack with
      | [] =>
        -- at toplevel, check that the value is smaller than the remaining input length
        if s.limited ∧ s.size > s.remaining then set { s with kinderr := some .valueTooLarge }
      | tos :: _ =>
        -- inside a list, check that the value doesn't overflow the list
        if s.size > tos.size - tos.pos then set { s with kinderr := some .elemTooLarge }
  let s ← get
  match s.kinderr with
  | some err => throw err
  | none => pure (s.cachedKind.getD .byte, s.size)

/-- `Bytes`: reads an RLP string. -/
def bytes : StreamM (List UInt8) := do
  let (k, size) ← kind
  match k with
  | .byte =>
    rearm
    pure [(← get).byteval]
  | .string =>
    let b ← readFull size
    if size = 1 ∧ b.headD 0 < 128 then throw .canonSize
    pure b
  | .list => throw .expectedString

/-- `uint`: reads an RLP string of at most `maxbits / 8` bytes as an unsigned integer. The
`Byte` case returns `ErrCanonInt` for a zero byte without re-arming the stream. -/
def uint (maxbits : Nat) : StreamM Nat := do
  let (k, size) ← kind
  match k with
  | .byte =>
    let s ← get
    if s.byteval = 0 then throw .canonInt
    rearm
    pure s.byteval.toNat
  | .string =>
    if size > maxbits / 8 then throw .uintOverflow
    match ← attempt (readUint size) with
    -- adjust error because we're not reading a size right now
    | .error .canonSize => throw .canonInt
    | .error err => throw err
    | .ok v => if size > 0 ∧ v < 128 then throw .canonSize else pure v
  | .list => throw .expectedString

/-- `Bool`. -/
def bool : StreamM Bool := do
  let num ← uint 8
  match num with
  | 0 => pure false
  | 1 => pure true
  | num => throw (.invalidBool num)

/-- `List`: enters a list and returns the size of its payload. -/
def list : StreamM Nat := do
  let (k, size) ← kind
  if k ≠ .list then throw .expectedList
  modify fun s => { s with stack := ⟨0, size⟩ :: s.stack, cachedKind := none, size := 0 }
  pure size

/-- `ListEnd`: leaves the innermost list, which must have been read to its end. -/
def listEnd : StreamM Unit := do
  let s ← get
  match s.stack with
  | [] => throw .notInList
  | tos :: rest =>
    if tos.pos ≠ tos.size then throw .notAtEOL
    let rest := match rest with
      | p :: ps => { p with pos := p.pos + tos.size } :: ps
      | [] => []
    set { s with stack := rest, cachedKind := none, size := 0 }

end Stream

end GoGaia.Rlp
