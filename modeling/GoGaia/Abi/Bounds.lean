import GoGaia.Abi.Codec
import GoGaia.Lib.EState

/-!
# Offsets and lengths read from untrusted output

`toGoType` finds a string, a byte slice or a slice through two words of the output itself: the
head word holds the offset of the data, and the word at that offset holds its length.
`lengthPrefixPointsTo` reads each as `int(binary.BigEndian.Uint64(…))` of the word's low eight
bytes (`uint64At`), so a word whose low bytes are `2 ^ 63` or more is a negative `int`. Its bound
checks ask whether a sum is more than `len(output)`, which a negative sum never is.

With an offset and a length below `2 ^ 63` the checks do their work: a string or a byte slice
whose data fits in the output decodes to exactly that data (`toGoType_string_eq_ok`,
`toGoType_bytes_eq_ok`). A negative offset below `-24` passes the first check, and reading the
length word at it panics (`lengthPrefixPointsTo_of_negative_offset`); so `Unpack` panics on any
output whose first word is such an offset, for every method whose first output needs a length
prefix (`unpack_panics_on_negative_offset`). A negative length passes the second check, and
slicing a string or a byte slice by it panics (`toGoType_of_negative_length`). For a method with
one such output, `unpack_length_prefixed` puts the two outcomes of the length word together.

The output is shorter than `2 ^ 63` bytes where it matters, as any Go slice is.
-/

namespace GoGaia.Abi

/-- The panic of a slice expression out of range. -/
def errSliceBounds : Failure := .panic "runtime error: slice bounds out of range"

/-- `binary.BigEndian.Uint64` of the low eight bytes of the word at `index`. -/
def uint64At (output : List UInt8) (index : Nat) : Nat :=
  BigEndian.value ((output.drop (index + 24)).take 8)

/-! ## Go `int`s -/

theorem goInt_of_lt {x : Int} (hlo : -2 ^ 63 ≤ x) (hhi : x < 2 ^ 63) : goInt x = x := by
  unfold goInt
  omega

theorem uint64At_lt (output : List UInt8) (index : Nat) : uint64At output index < 2 ^ 64 := by
  have := BigEndian.value_lt ((output.drop (index + 24)).take 8)
  have hlen : ((output.drop (index + 24)).take 8).length ≤ 8 := by simp
  calc uint64At output index < 256 ^ ((output.drop (index + 24)).take 8).length := this
    _ ≤ 256 ^ 8 := Nat.pow_le_pow_right (by decide) hlen
    _ = 2 ^ 64 := by norm_num

/-- The word at `index` as a Go `int`: its low bytes' value, less `2 ^ 64` from `2 ^ 63` on. -/
theorem intOf_word (output : List UInt8) (index : Nat) :
    intOf ((output.drop (index + 24)).take 8) =
      if uint64At output index < 2 ^ 63 then (uint64At output index : Int)
      else (uint64At output index : Int) - 2 ^ 64 := by
  have := uint64At_lt output index
  unfold intOf
  rw [← uint64At]
  unfold goInt
  split_ifs <;> omega

/-! ## Slices -/

theorem sliceBytes_of_le {b : List UInt8} {lo hi : Int} (hlo : 0 ≤ lo) (hle : lo ≤ hi)
    (hhi : hi ≤ b.length) : sliceBytes b lo hi = .ok ((b.drop lo.toNat).take (hi - lo).toNat) := by
  simp [sliceBytes, hlo, hle, hhi]; rfl

theorem sliceBytes_of_neg {b : List UInt8} {lo hi : Int} (hlo : lo < 0) :
    sliceBytes b lo hi = .error errSliceBounds := by
  simp [sliceBytes, not_le.mpr hlo]; rfl

theorem sliceBytes_of_lt {b : List UInt8} {lo hi : Int} (hlt : hi < lo) :
    sliceBytes b lo hi = .error errSliceBounds := by
  simp [sliceBytes, not_le.mpr hlt]; rfl

/-- The eight low bytes of the word at `index`. -/
theorem sliceBytes_word {output : List UInt8} {index : Nat} (h : index + 32 ≤ output.length) :
    sliceBytes output (index + 24) (index + 32) = .ok ((output.drop (index + 24)).take 8) := by
  rw [sliceBytes_of_le (by omega) (by omega) (by omega)]
  congr 3
  omega

/-- The `n` bytes from `start`. -/
theorem sliceBytes_of_nat {output : List UInt8} {start n : Nat} (h : start + n ≤ output.length) :
    sliceBytes output start (start + n) = .ok ((output.drop start).take n) := by
  rw [sliceBytes_of_le (by omega) (by omega) (by omega)]
  congr 3
  omega

/-! ## `lengthPrefixPointsTo` -/

section
variable {index : Nat} {output : List UInt8}

/-- A negative offset below `-24` passes the first check, and the length word would start before
the output. -/
theorem lengthPrefixPointsTo_of_negative_offset (hidx : index + 32 ≤ output.length)
    (hoff : 2 ^ 63 ≤ uint64At output index) (hlt : uint64At output index < 2 ^ 64 - 24) :
    lengthPrefixPointsTo index output = .error errSliceBounds := by
  have hoffset := intOf_word output index
  rw [if_neg (by omega)] at hoffset
  -- the offset and the ends of the length word at it, none of which wraps
  have h32 : goInt ((uint64At output index : Int) - 2 ^ 64 + 32) =
      (uint64At output index : Int) - 2 ^ 64 + 32 := goInt_of_lt (by omega) (by omega)
  have h24 : goInt ((uint64At output index : Int) - 2 ^ 64 + 24) =
      (uint64At output index : Int) - 2 ^ 64 + 24 := goInt_of_lt (by omega) (by omega)
  rw [lengthPrefixPointsTo, sliceBytes_word hidx, Except.ok_bind]
  simp only [hoffset, h32, h24]
  rw [if_neg (by omega), sliceBytes_of_neg (by omega), Except.error_bind]

/-- With an offset below `2 ^ 63` whose length word lies in the output, the first check passes
and the length is read at the offset. -/
theorem lengthPrefixPointsTo_of_offset (hidx : index + 32 ≤ output.length)
    (hout : output.length < 2 ^ 63) (hoff : uint64At output index < 2 ^ 63)
    (hfit : uint64At output index + 32 ≤ output.length) :
    let o := uint64At output index
    let length := intOf ((output.drop (o + 24)).take 8)
    lengthPrefixPointsTo index output =
      if goInt (o + 32 + length) > output.length then
        .error (.error "abi: cannot marshal in to go type: length insufficient %d require %d")
      else .ok ((o : Int) + 32, length) := by
  intro o length
  have hoffset : intOf ((output.drop (index + 24)).take 8) = o := by
    rw [intOf_word, if_pos hoff]
  have h32 : goInt ((o : Int) + 32) = o + 32 := goInt_of_lt (by omega) (by omega)
  have h24 : goInt ((o : Int) + 24) = o + 24 := goInt_of_lt (by omega) (by omega)
  rw [lengthPrefixPointsTo, sliceBytes_word hidx, Except.ok_bind]
  simp only [hoffset, h32, h24]
  -- the first check passes, and the length word is the word at the offset
  rw [if_neg (by omega), sliceBytes_word (show o + 32 ≤ output.length from hfit), Except.ok_bind]
  split_ifs <;> rfl

/-- An offset and a length below `2 ^ 63` whose data fits in the output: the data's start and
length. -/
theorem lengthPrefixPointsTo_eq_ok (hidx : index + 32 ≤ output.length)
    (hout : output.length < 2 ^ 63) (hoff : uint64At output index < 2 ^ 63)
    (hlen : uint64At output (uint64At output index) < 2 ^ 63)
    (hfit : uint64At output index + 32 + uint64At output (uint64At output index) ≤
      output.length) :
    lengthPrefixPointsTo index output =
      .ok ((uint64At output index : Int) + 32, uint64At output (uint64At output index)) := by
  have hlength := intOf_word output (uint64At output index)
  rw [if_pos hlen] at hlength
  rw [lengthPrefixPointsTo_of_offset hidx hout hoff (by omega)]
  simp only [hlength]
  rw [goInt_of_lt (by omega) (by omega), if_neg (by omega)]

/-- A negative length passes the second check. -/
theorem lengthPrefixPointsTo_of_negative_length (hidx : index + 32 ≤ output.length)
    (hout : output.length < 2 ^ 63) (hoff : uint64At output index < 2 ^ 63)
    (hfit : uint64At output index + 32 ≤ output.length)
    (hneg : 2 ^ 63 ≤ uint64At output (uint64At output index)) :
    lengthPrefixPointsTo index output =
      .ok ((uint64At output index : Int) + 32,
        (uint64At output (uint64At output index) : Int) - 2 ^ 64) := by
  have hlength := intOf_word output (uint64At output index)
  rw [if_neg (by omega)] at hlength
  have := uint64At_lt output (uint64At output index)
  rw [lengthPrefixPointsTo_of_offset hidx hout hoff hfit]
  simp only [hlength]
  rw [goInt_of_lt (by omega) (by omega), if_neg (by omega)]

end

/-! ## Decoding

The three types that need a length prefix, one equation each: Lean's own equation lemma for
`toGoType` takes longer to generate than a proof may run, and these hold by unfolding. -/

section
variable (index : Nat) (output : List UInt8)

theorem toGoType_string : toGoType index .string output = (do
    if index + 32 > output.length then
      throw (.error "abi: cannot marshal in to go type: length insufficient %d require %d")
    let (begin, end_) ← lengthPrefixPointsTo index output
    return .string (← sliceBytes output begin (goInt (begin + end_)))) := rfl

theorem toGoType_bytes : toGoType index .bytes output = (do
    if index + 32 > output.length then
      throw (.error "abi: cannot marshal in to go type: length insufficient %d require %d")
    let (begin, end_) ← lengthPrefixPointsTo index output
    return Val.ofBytes (← sliceBytes output begin (goInt (begin + end_)))) := rfl

theorem toGoType_slice (elem : Ty) : toGoType index (.slice elem) output = (do
    if index + 32 > output.length then
      throw (.error "abi: cannot marshal in to go type: length insufficient %d require %d")
    let (begin, end_) ← lengthPrefixPointsTo index output
    forEachUnpack (.slice elem) output begin end_ fun i => toGoType i elem output) := rfl

end

section
variable {index : Nat} {output : List UInt8}

/-- A type that needs a length prefix stops where `lengthPrefixPointsTo` fails. -/
theorem toGoType_of_lengthPrefixPointsTo {t : Ty} (ht : t.requiresLengthPrefix = true)
    (hidx : index + 32 ≤ output.length) {e : Failure}
    (he : lengthPrefixPointsTo index output = .error e) : toGoType index t output = .error e := by
  have hc : ¬index + 32 > output.length := by omega
  cases t with
  | string => simp only [toGoType_string, if_neg hc, he, Except.error_bind]
  | bytes => simp only [toGoType_bytes, if_neg hc, he, Except.error_bind]
  | slice elem => simp only [toGoType_slice, if_neg hc, he, Except.error_bind]
  | _ => simp [Ty.requiresLengthPrefix] at ht

/-- A string or a byte slice is the bytes `lengthPrefixPointsTo` points to. -/
theorem toGoType_string_of_lengthPrefixPointsTo (hidx : index + 32 ≤ output.length)
    {begin end_ : Int} (hp : lengthPrefixPointsTo index output = .ok (begin, end_)) :
    toGoType index .string output =
      Val.string <$> sliceBytes output begin (goInt (begin + end_)) ∧
    toGoType index .bytes output =
      Val.ofBytes <$> sliceBytes output begin (goInt (begin + end_)) := by
  have hc : ¬index + 32 > output.length := by omega
  constructor
  · simp only [toGoType_string, if_neg hc, hp, Except.ok_bind]
    rfl
  · simp only [toGoType_bytes, if_neg hc, hp, Except.ok_bind]
    rfl

/-- **A string whose data fits decodes to its data**: the `length` bytes after the length word at
the offset. -/
theorem toGoType_string_eq_ok (hidx : index + 32 ≤ output.length)
    (hout : output.length < 2 ^ 63) (hoff : uint64At output index < 2 ^ 63)
    (hlen : uint64At output (uint64At output index) < 2 ^ 63)
    (hfit : uint64At output index + 32 + uint64At output (uint64At output index) ≤
      output.length) :
    toGoType index .string output = .ok (.string
      ((output.drop (uint64At output index + 32)).take (uint64At output (uint64At output index)))) := by
  have hp := lengthPrefixPointsTo_eq_ok hidx hout hoff hlen hfit
  rw [(toGoType_string_of_lengthPrefixPointsTo hidx hp).1]
  rw [goInt_of_lt (by omega) (by omega)]
  have hslice := sliceBytes_of_nat (show uint64At output index + 32 +
    uint64At output (uint64At output index) ≤ output.length from hfit)
  push_cast at hslice
  rw [hslice]
  rfl

/-- **A byte slice whose data fits decodes to its data.** -/
theorem toGoType_bytes_eq_ok (hidx : index + 32 ≤ output.length)
    (hout : output.length < 2 ^ 63) (hoff : uint64At output index < 2 ^ 63)
    (hlen : uint64At output (uint64At output index) < 2 ^ 63)
    (hfit : uint64At output index + 32 + uint64At output (uint64At output index) ≤
      output.length) :
    toGoType index .bytes output = .ok (Val.ofBytes
      ((output.drop (uint64At output index + 32)).take (uint64At output (uint64At output index)))) := by
  have hp := lengthPrefixPointsTo_eq_ok hidx hout hoff hlen hfit
  rw [(toGoType_string_of_lengthPrefixPointsTo hidx hp).2]
  rw [goInt_of_lt (by omega) (by omega)]
  have hslice := sliceBytes_of_nat (show uint64At output index + 32 +
    uint64At output (uint64At output index) ≤ output.length from hfit)
  push_cast at hslice
  rw [hslice]
  rfl

/-- A negative offset below `-24` in the head word of a type that needs a length prefix:
`toGoType` panics. -/
theorem toGoType_of_negative_offset {t : Ty} (ht : t.requiresLengthPrefix = true)
    (hidx : index + 32 ≤ output.length) (hoff : 2 ^ 63 ≤ uint64At output index)
    (hlt : uint64At output index < 2 ^ 64 - 24) : toGoType index t output = .error errSliceBounds :=
  toGoType_of_lengthPrefixPointsTo ht hidx (lengthPrefixPointsTo_of_negative_offset hidx hoff hlt)

/-- A negative length at a well-placed offset: slicing a string or a byte slice by it panics. -/
theorem toGoType_of_negative_length (hidx : index + 32 ≤ output.length)
    (hout : output.length < 2 ^ 63) (hoff : uint64At output index < 2 ^ 63)
    (hfit : uint64At output index + 32 ≤ output.length)
    (hneg : 2 ^ 63 ≤ uint64At output (uint64At output index)) :
    toGoType index .string output = .error errSliceBounds ∧
      toGoType index .bytes output = .error errSliceBounds := by
  have hp := lengthPrefixPointsTo_of_negative_length hidx hout hoff hfit hneg
  have := uint64At_lt output (uint64At output index)
  -- the end of the data lies before its start
  have hend : goInt ((uint64At output index : Int) + 32 +
      ((uint64At output (uint64At output index) : Int) - 2 ^ 64)) <
      (uint64At output index : Int) + 32 := by
    rw [goInt_of_lt (by omega) (by omega)]
    omega
  obtain ⟨hs, hb⟩ := toGoType_string_of_lengthPrefixPointsTo hidx hp
  rw [hs, hb, sliceBytes_of_lt hend]
  exact ⟨rfl, rfl⟩

end

/-! ## `Unpack` -/

theorem bytesAreProper_of {output : List UInt8} (hlen : output.length % 32 = 0)
    (hpos : 0 < output.length) : bytesAreProper output = .ok () := by
  simp [bytesAreProper, hlen, Nat.pos_iff_ne_zero.mp hpos]; rfl

/-- The first output of a tuple is read at the first word unless it is an array. -/
theorem tupleUnpack_cons {t : Ty} (ht : t.requiresLengthPrefix = true) (output : List UInt8)
    (ts : List Ty) (i j : Nat) :
    tupleUnpack output (t :: ts) i j = (do
      let v ← toGoType ((i + j) * 32) t output
      let vs ← tupleUnpack output ts (i + 1) j
      pure (v :: vs)) := by
  cases t <;> first | rfl | simp [Ty.requiresLengthPrefix] at ht

/-- **An offset word read as a negative `int` panics `Unpack`.** For every method whose first
output is a string, a byte slice or a slice, and every well-formed output whose first word's low
eight bytes are at least `2 ^ 63` and below `2 ^ 64 - 24`, `Unpack` panics with a slice out of
range instead of returning an error. -/
theorem unpack_panics_on_negative_offset (t : Ty) (ts : List Ty)
    (ht : t.requiresLengthPrefix = true) (output : List UInt8) (hlen : output.length % 32 = 0)
    (hpos : 0 < output.length) (hoff : 2 ^ 63 ≤ uint64At output 0)
    (hlt : uint64At output 0 < 2 ^ 64 - 24) :
    unpack (t :: ts) output = .error errSliceBounds := by
  have hfirst : toGoType 0 t output = .error errSliceBounds :=
    toGoType_of_negative_offset ht (by omega) hoff hlt
  rw [unpack, bytesAreProper_of hlen hpos, Except.ok_bind]
  -- a single output is read by `singleUnpack`, several by `tupleUnpack`, both at word 0
  cases ts with
  | nil => simp [hfirst]
  | cons t' ts => simp [tupleUnpack_cons ht, hfirst]

/-- The output of one word `0x80 00 … 00` in its low eight bytes, the offset `-2 ^ 63`, panics
the decoding of a method returning a string. -/
theorem unpack_panics_on_negative_offset_string :
    unpack [.string] (List.replicate 24 0 ++ [0x80, 0, 0, 0, 0, 0, 0, 0]) = .error errSliceBounds :=
  unpack_panics_on_negative_offset .string [] rfl _ (by decide) (by decide) (by decide)
    (by decide)


/-- A method with one output decodes it at word 0 of a well-formed output. -/
theorem unpack_single (t : Ty) {output : List UInt8} (hlen : output.length % 32 = 0)
    (hpos : 0 < output.length) : unpack [t] output = (fun v => [v]) <$> toGoType 0 t output := by
  rw [unpack, bytesAreProper_of hlen hpos, Except.ok_bind, if_neg (by simp)]
  cases toGoType 0 t output <;> rfl

/-- **`Unpack` reads a string or a byte slice through its length prefix.** For a method whose one
output is a string or a byte slice, and a well-formed output whose first word holds an offset
below `2 ^ 63` with the length word at that offset inside the output: with a length below
`2 ^ 63` whose data fits, `Unpack` returns exactly the `length` bytes after the length word; with a
length word that reads as a negative `int`, the check of the length passes and `Unpack` panics with
a slice out of range instead of returning an error. -/
theorem unpack_length_prefixed (output : List UInt8) (hlen : output.length % 32 = 0)
    (hout : output.length < 2 ^ 63) (hoff : uint64At output 0 < 2 ^ 63)
    (hword : uint64At output 0 + 32 ≤ output.length) :
    (uint64At output (uint64At output 0) < 2 ^ 63 →
      uint64At output 0 + 32 + uint64At output (uint64At output 0) ≤ output.length →
      unpack [.string] output = .ok [.string
        ((output.drop (uint64At output 0 + 32)).take (uint64At output (uint64At output 0)))] ∧
      unpack [.bytes] output = .ok [Val.ofBytes
        ((output.drop (uint64At output 0 + 32)).take (uint64At output (uint64At output 0)))]) ∧
    (2 ^ 63 ≤ uint64At output (uint64At output 0) →
      unpack [.string] output = .error errSliceBounds ∧
        unpack [.bytes] output = .error errSliceBounds) := by
  have hidx : 0 + 32 ≤ output.length := by omega
  have hpos : 0 < output.length := by omega
  rw [unpack_single .string hlen hpos, unpack_single .bytes hlen hpos]
  refine ⟨fun hL hfit => ?_, fun hneg => ?_⟩
  · -- the data fits: both reads return it
    rw [toGoType_string_eq_ok hidx hout hoff hL hfit, toGoType_bytes_eq_ok hidx hout hoff hL hfit]
    exact ⟨rfl, rfl⟩
  · -- a negative length: both reads panic
    obtain ⟨hs, hb⟩ := toGoType_of_negative_length hidx hout hoff hword hneg
    rw [hs, hb]
    exact ⟨rfl, rfl⟩

/-- A string of one byte, `a`, at offset 32, decodes to that byte. -/
theorem unpack_length_prefixed_one_byte :
    unpack [.string] (List.replicate 31 0 ++ [32] ++ List.replicate 31 0 ++ [1] ++
      0x61 :: List.replicate 31 0) = .ok [.string [0x61]] := by
  have h := ((unpack_length_prefixed (List.replicate 31 0 ++ [32] ++ List.replicate 31 0 ++ [1] ++
    0x61 :: List.replicate 31 0) (by decide) (by decide) (by decide) (by decide)).1
    (by decide) (by decide)).1
  rw [h]
  rfl

end GoGaia.Abi
