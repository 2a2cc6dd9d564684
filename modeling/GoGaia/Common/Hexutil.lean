import Mathlib
import GoGaia.Lib.EState

/-!
# Hex encoding with the `0x` prefix

`common/hexutil/hexutil.go`: byte slices (`Encode`, `Decode`) and quantities, numbers written
without leading zeros (`EncodeUint64`, `DecodeUint64`, `EncodeBig`, `DecodeBig`). A Go string is
its bytes. The library routines the file calls are modelled as the Go library computes them:
`hex.Encode` and `hex.DecodeString`, `strconv.ParseUint(s, 16, 64)`, and the lower-case digits of
`strconv.AppendUint(_, x, 16)` and of `fmt`'s `%#x` (`hexDigits`). `DecodeBig` reads the digits
into machine words of `wordNibbles` nibbles each, eight or sixteen as `init` finds; the results
hold for every positive word size. `EncodeBig` of a negative number is left out.

Every decoder is a check of the string's shape and then the value of its digits (`hexValue`):
`DecodeBig` inverts `EncodeBig` below `2 ^ 256`, accepts exactly the strings of `QuantityString
64`, and what it accepts is written back lower-cased; `DecodeUint64` does the same with sixteen
digits, and `Decode` inverts `Encode`.
-/

namespace GoGaia.Hexutil

/-- The errors of `hexutil.go` the modelled functions return. -/
inductive DecError where
  | emptyString
  | syntaxErr
  | missingPrefix
  | oddLength
  | emptyNumber
  | leadingZero
  | uint64Range
  | big256Range
deriving DecidableEq, Repr

/-- The errors of `strconv.ParseUint`. -/
inductive NumError where
  | syntaxErr
  | range
deriving DecidableEq, Repr

/-- The errors of `hex.DecodeString`. -/
inductive HexError where
  | invalidByte (b : UInt8)
  | length
deriving DecidableEq, Repr

/-! ## The library routines -/

/-- `hextable`, the digits `hex.Encode` writes. -/
def hextable : List UInt8 := "0123456789abcdef".toList.map Char.toUInt8

/-- `hex.Encode`: two digits a byte, the high half first. -/
def hexEncode (b : List UInt8) : List UInt8 :=
  b.flatMap fun (v : UInt8) => [hextable.getD (v >>> 4).toNat 0, hextable.getD (v &&& 0x0f).toNat 0]

/-- `fromHexChar`. -/
def fromHexChar (c : UInt8) : Option UInt8 :=
  if '0'.toUInt8 ≤ c ∧ c ≤ '9'.toUInt8 then some (c - '0'.toUInt8)
  else if 'a'.toUInt8 ≤ c ∧ c ≤ 'f'.toUInt8 then some (c - 'a'.toUInt8 + 10)
  else if 'A'.toUInt8 ≤ c ∧ c ≤ 'F'.toUInt8 then some (c - 'A'.toUInt8 + 10)
  else none

/-- One byte of `hex.Decode`, from the digits at `2 * i` and `2 * i + 1`. -/
def decodePair (src : List UInt8) (i : Nat) : Except HexError UInt8 :=
  match fromHexChar (src.getD (i * 2) 0), fromHexChar (src.getD (i * 2 + 1) 0) with
  | some a, some b => pure (a <<< 4 ||| b)
  | none, _ => throw (.invalidByte (src.getD (i * 2) 0))
  | some _, none => throw (.invalidByte (src.getD (i * 2 + 1) 0))

/-- `hex.DecodeString`: an odd length first, then the digits pair by pair. -/
def hexDecodeString (s : List UInt8) : Except HexError (List UInt8) :=
  if s.length % 2 = 1 then throw .length
  else (List.range (s.length / 2)).mapM (decodePair s)

/-- The lower-case hex digits of `x`, most significant first, one digit for zero: what
`strconv.AppendUint(_, x, 16)` appends and what `fmt` writes for `%x`. -/
def hexDigits (x : Nat) : List UInt8 := (Nat.toDigits 16 x).map Char.toUInt8

/-- `lower(c)` of `strconv`: `c | ('x' - 'X')`. -/
def lower (c : UInt8) : UInt8 := c ||| ('x'.toUInt8 - 'X'.toUInt8)

/-- `maxUint64`. -/
def maxUint64 : UInt64 := ~~~0

/-- The digit value `strconv.ParseUint` reads from `c`, of any base up to 36. -/
def parseDigit (c : UInt8) : Option UInt8 :=
  if '0'.toUInt8 ≤ c ∧ c ≤ '9'.toUInt8 then some (c - '0'.toUInt8)
  else if 'a'.toUInt8 ≤ lower c ∧ lower c ≤ 'z'.toUInt8 then some (lower c - 'a'.toUInt8 + 10)
  else none

/-- One digit of `strconv.ParseUint(s, 16, 64)`, onto the value `n` so far. -/
def parseUintStep (n : UInt64) (c : UInt8) : Except NumError UInt64 :=
  match parseDigit c with
  | none => throw .syntaxErr
  | some d =>
    if d ≥ 16 then throw .syntaxErr
    -- the cutoff of base 16: the least `n` with `n * 16` past `maxUint64`
    else if n ≥ maxUint64 / 16 + 1 then throw .range
    else
      let n' := n * 16
      let n1 := n' + d.toUInt64
      if n1 < n' ∨ n1 > maxUint64 then throw .range
      else pure n1

/-- `strconv.ParseUint(s, 16, 64)`. -/
def parseUint (s : List UInt8) : Except NumError UInt64 :=
  if s = [] then throw .syntaxErr else s.foldlM parseUintStep 0

/-! ## `hexutil.go` -/

/-- `mapError` of a `strconv` error. -/
def mapNumError : NumError → DecError
  | .range => .uint64Range
  | .syntaxErr => .syntaxErr

/-- `mapError` of a `hex` error. -/
def mapHexError : HexError → DecError
  | .invalidByte _ => .syntaxErr
  | .length => .oddLength

/-- `has0xPrefix`. -/
def has0xPrefix (input : List UInt8) : Bool :=
  input.length ≥ 2 ∧ input.getD 0 0 = '0'.toUInt8 ∧
    (input.getD 1 0 = 'x'.toUInt8 ∨ input.getD 1 0 = 'X'.toUInt8)

/-- `Decode`. -/
def decode (input : List UInt8) : Except DecError (List UInt8) :=
  if input.length = 0 then throw .emptyString
  else if !has0xPrefix input then throw .missingPrefix
  else
    match hexDecodeString (input.drop 2) with
    | .ok b => pure b
    | .error e => throw (mapHexError e)

/-- `Encode`. -/
def encode (b : List UInt8) : List UInt8 := "0x".toList.map Char.toUInt8 ++ hexEncode b

/-- `checkNumber`: the digits of a quantity, behind the prefix. -/
def checkNumber (input : List UInt8) : Except DecError (List UInt8) :=
  if input.length = 0 then throw .emptyString
  else if !has0xPrefix input then throw .missingPrefix
  else
    let input := input.drop 2
    if input.length = 0 then throw .emptyNumber
    else if input.length > 1 ∧ input.getD 0 0 = '0'.toUInt8 then throw .leadingZero
    else pure input

/-- `DecodeUint64`. -/
def decodeUint64 (input : List UInt8) : Except DecError UInt64 := do
  let raw ← checkNumber input
  match parseUint raw with
  | .ok dec => pure dec
  | .error e => throw (mapNumError e)

/-- `EncodeUint64`. -/
def encodeUint64 (i : UInt64) : List UInt8 := "0x".toList.map Char.toUInt8 ++ hexDigits i.toNat

/-- `badNibble`. -/
def badNibble : UInt64 := ~~~0

/-- `decodeNibble`. -/
def decodeNibble (c : UInt8) : UInt64 :=
  if c ≥ '0'.toUInt8 ∧ c ≤ '9'.toUInt8 then (c - '0'.toUInt8).toUInt64
  else if c ≥ 'A'.toUInt8 ∧ c ≤ 'F'.toUInt8 then (c - 'A'.toUInt8 + 10).toUInt64
  else if c ≥ 'a'.toUInt8 ∧ c ≤ 'f'.toUInt8 then (c - 'a'.toUInt8 + 10).toUInt64
  else badNibble

/-- One digit of a word of `DecodeBig`: `words[i] *= 16; words[i] += nib` in a word of
`4 * wordNibbles` bits. -/
def nibbleStep (raw : List UInt8) (wordNibbles : Nat) (w : Nat) (ri : Nat) : Except DecError Nat :=
  let nib := decodeNibble (raw.getD ri 0)
  if nib = badNibble then throw .syntaxErr
  else pure ((w * 16 + nib.toNat) % 2 ^ (4 * wordNibbles))

/-- One word of `DecodeBig`: the digits from `end - wordNibbles`, or from the start, to `end`. -/
def wordStep (raw : List UInt8) (wordNibbles : Nat) (st : List Nat × Nat) (_ : Nat) :
    Except DecError (List Nat × Nat) := do
  let start := st.2 - wordNibbles
  let w ← (List.range' start (st.2 - start)).foldlM (nibbleStep raw wordNibbles) 0
  pure (st.1 ++ [w], start)

/-- `big.Int.SetBits`: the number of little-endian words of `wordBits` bits. -/
def setBits (wordBits : Nat) (words : List Nat) : Nat :=
  words.foldr (fun w acc => w + 2 ^ wordBits * acc) 0

/-- `DecodeBig`, with words of `wordNibbles` nibbles. -/
def decodeBig (wordNibbles : Nat) (input : List UInt8) : Except DecError Nat := do
  let raw ← checkNumber input
  if raw.length > 64 then throw .big256Range
  else
    let (words, _) ← (List.range (raw.length / wordNibbles + 1)).foldlM
      (wordStep raw wordNibbles) ([], raw.length)
    pure (setBits (4 * wordNibbles) words)

/-- `EncodeBig` of a non-negative number. -/
def encodeBig (bigint : Nat) : List UInt8 :=
  if bigint.size = 0 then "0x0".toList.map Char.toUInt8
  else "0x".toList.map Char.toUInt8 ++ hexDigits bigint

/-! ## Digits and their value -/

/-- A hex digit: a byte `decodeNibble` reads. -/
def IsHexDigit (c : UInt8) : Prop := decodeNibble c ≠ badNibble

instance : DecidablePred IsHexDigit := fun c =>
  inferInstanceAs (Decidable (decodeNibble c ≠ badNibble))

/-- The value of a string of hex digits, the most significant first. -/
def hexValue (ds : List UInt8) : Nat := ds.foldl (fun acc c => 16 * acc + (decodeNibble c).toNat) 0

/-- `c`, lower-cased. -/
def toLowerAscii (c : UInt8) : UInt8 := if 'A'.toUInt8 ≤ c ∧ c ≤ 'Z'.toUInt8 then c + 32 else c

/-- A quantity of at most `maxDigits` digits: `0x` or `0X`, then hex digits, with no leading zero
unless the number is `0x0`. -/
def QuantityString (maxDigits : Nat) (s : List UInt8) : Prop :=
  ∃ p digits, s = '0'.toUInt8 :: p :: digits ∧ (p = 'x'.toUInt8 ∨ p = 'X'.toUInt8) ∧
    0 < digits.length ∧ digits.length ≤ maxDigits ∧ (∀ c ∈ digits, IsHexDigit c) ∧
    (1 < digits.length → digits.head? ≠ some '0'.toUInt8)

/-! The facts about single bytes, checked byte by byte. -/

theorem toNat_decodeNibble_lt : ∀ c : UInt8, IsHexDigit c → (decodeNibble c).toNat < 16 := by
  decide +kernel

theorem digitChar_decodeNibble :
    ∀ c : UInt8, IsHexDigit c → (Nat.digitChar (decodeNibble c).toNat).toUInt8 = toLowerAscii c := by
  decide +kernel

theorem decodeNibble_eq_zero_iff :
    ∀ c : UInt8, IsHexDigit c → ((decodeNibble c).toNat = 0 ↔ c = '0'.toUInt8) := by
  decide +kernel

theorem decodeNibble_digitChar :
    ∀ d < 16, IsHexDigit (Nat.digitChar d).toUInt8 ∧
      (decodeNibble (Nat.digitChar d).toUInt8).toNat = d := by
  decide

/-! ## The value of digits -/

theorem foldl_hexValue (ds : List UInt8) : ∀ acc,
    ds.foldl (fun acc c => 16 * acc + (decodeNibble c).toNat) acc =
      acc * 16 ^ ds.length + hexValue ds := by
  induction ds with
  | nil => intro acc; simp [hexValue]
  | cons c ds ih =>
    intro acc
    have hcons : hexValue (c :: ds) = (decodeNibble c).toNat * 16 ^ ds.length + hexValue ds := by
      rw [hexValue, List.foldl_cons, Nat.mul_zero, Nat.zero_add, ih]
    rw [List.foldl_cons, ih, hcons, List.length_cons, pow_succ]
    ring

theorem hexValue_cons (c : UInt8) (ds : List UInt8) :
    hexValue (c :: ds) = (decodeNibble c).toNat * 16 ^ ds.length + hexValue ds := by
  rw [hexValue, List.foldl_cons, Nat.mul_zero, Nat.zero_add, foldl_hexValue]

theorem hexValue_append (a b : List UInt8) :
    hexValue (a ++ b) = hexValue a * 16 ^ b.length + hexValue b := by
  rw [hexValue, List.foldl_append, foldl_hexValue]
  rfl

theorem hexValue_append_singleton (ds : List UInt8) (c : UInt8) :
    hexValue (ds ++ [c]) = 16 * hexValue ds + (decodeNibble c).toNat := by
  rw [hexValue_append, hexValue_cons]
  simp [hexValue]
  ring

theorem hexValue_lt {ds : List UInt8} (h : ∀ c ∈ ds, IsHexDigit c) : hexValue ds < 16 ^ ds.length := by
  induction ds with
  | nil => simp [hexValue]
  | cons c ds ih =>
    have hc := toNat_decodeNibble_lt c (h c List.mem_cons_self)
    have hds := ih fun c' hc' => h c' (List.mem_cons_of_mem _ hc')
    rw [hexValue_cons, List.length_cons, pow_succ]
    nlinarith

/-- A leading digit that is not zero weighs at least its place. -/
theorem pow_le_hexValue {c : UInt8} (hc : IsHexDigit c) (h0 : c ≠ '0'.toUInt8) (ds : List UInt8) :
    16 ^ ds.length ≤ hexValue (c :: ds) := by
  have hpos : 0 < (decodeNibble c).toNat :=
    Nat.pos_of_ne_zero fun h => h0 ((decodeNibble_eq_zero_iff c hc).mp h)
  rw [hexValue_cons]
  calc 16 ^ ds.length ≤ (decodeNibble c).toNat * 16 ^ ds.length := Nat.le_mul_of_pos_left _ hpos
    _ ≤ _ := Nat.le_add_right _ _

/-! ## The digits of a value -/

theorem hexDigits_of_lt {x : Nat} (h : x < 16) : hexDigits x = [(Nat.digitChar x).toUInt8] := by
  rw [hexDigits, Nat.toDigits_of_lt_base h]
  rfl

theorem hexDigits_of_le {x : Nat} (h : 16 ≤ x) :
    hexDigits x = hexDigits (x / 16) ++ [(Nat.digitChar (x % 16)).toUInt8] := by
  rw [hexDigits, Nat.toDigits_of_base_le (by omega) h, List.map_append]
  rfl

theorem hexDigits_ne_nil (x : Nat) : hexDigits x ≠ [] := by
  rw [hexDigits, ← List.length_pos_iff, List.length_map]
  exact Nat.length_toDigits_pos

/-- Every digit of a value is the character of a value below sixteen. -/
theorem exists_digitChar_of_mem_hexDigits (x : Nat) :
    ∀ c ∈ hexDigits x, ∃ d < 16, c = (Nat.digitChar d).toUInt8 := by
  induction x using Nat.strong_induction_on with
  | _ x ih =>
    by_cases hx : x < 16
    · rw [hexDigits_of_lt hx]
      intro c hc
      exact ⟨x, hx, List.mem_singleton.mp hc⟩
    · rw [hexDigits_of_le (by omega)]
      intro c hc
      rcases List.mem_append.mp hc with hc | hc
      · exact ih (x / 16) (by omega) c hc
      · exact ⟨x % 16, Nat.mod_lt _ (by omega), List.mem_singleton.mp hc⟩

theorem isHexDigit_of_mem_hexDigits (x : Nat) : ∀ c ∈ hexDigits x, IsHexDigit c := by
  intro c hc
  obtain ⟨d, hd, rfl⟩ := exists_digitChar_of_mem_hexDigits x c hc
  exact (decodeNibble_digitChar d hd).1

/-- The digits of a value read back as that value. -/
theorem hexValue_hexDigits (x : Nat) : hexValue (hexDigits x) = x := by
  induction x using Nat.strong_induction_on with
  | _ x ih =>
    by_cases hx : x < 16
    · rw [hexDigits_of_lt hx, hexValue_cons, (decodeNibble_digitChar x hx).2]
      simp [hexValue]
    · rw [hexDigits_of_le (by omega), hexValue_append_singleton, ih (x / 16) (by omega),
        (decodeNibble_digitChar (x % 16) (Nat.mod_lt _ (by omega))).2]
      omega

/-- The digits of a positive value do not start with zero. -/
theorem head_hexDigits {x : Nat} (hx : 0 < x) : (hexDigits x).head? ≠ some '0'.toUInt8 := by
  induction x using Nat.strong_induction_on with
  | _ x ih =>
    by_cases hlt : x < 16
    · rw [hexDigits_of_lt hlt, List.head?_cons, ne_eq, Option.some.injEq]
      intro h
      have := (decodeNibble_digitChar x hlt).2
      rw [h] at this
      have h0 : (decodeNibble '0'.toUInt8).toNat = 0 := by decide
      omega
    · rw [hexDigits_of_le (by omega), List.head?_append_of_ne_nil _ (hexDigits_ne_nil _)]
      exact ih (x / 16) (by omega) (by omega)

theorem length_hexDigits_le {x k : Nat} (hk : 0 < k) (hx : x < 16 ^ k) : (hexDigits x).length ≤ k := by
  rw [hexDigits, List.length_map]
  exact Nat.toDigits_length 16 x k hk hx

/-- Digits without a leading zero are written back lower-cased. -/
theorem hexDigits_hexValue {ds : List UInt8} (hne : ds ≠ []) (hv : ∀ c ∈ ds, IsHexDigit c)
    (hz : 1 < ds.length → ds.head? ≠ some '0'.toUInt8) :
    hexDigits (hexValue ds) = ds.map toLowerAscii := by
  induction ds using List.reverseRecOn with
  | nil => exact absurd rfl hne
  | append_singleton ds c ih =>
    have hc := hv c (List.mem_append_right _ (List.mem_singleton_self c))
    have hnib := toNat_decodeNibble_lt c hc
    rcases ds with _ | ⟨d, ds'⟩
    · -- one digit
      rw [List.nil_append, hexValue_cons, hexDigits_of_lt (by simp [hexValue]; omega)]
      simp [hexValue, digitChar_decodeNibble c hc]
    · -- a leading digit that is not zero, then the last one
      have hd : IsHexDigit d := hv d (List.mem_append_left _ List.mem_cons_self)
      have hd0 : d ≠ '0'.toUInt8 := by
        intro h
        apply hz (by simp)
        rw [h]
        rfl
      have hpos : 0 < hexValue (d :: ds') :=
        lt_of_lt_of_le (Nat.pow_pos (by norm_num)) (pow_le_hexValue hd hd0 ds')
      rw [hexValue_append_singleton, hexDigits_of_le (by omega),
        show (16 * hexValue (d :: ds') + (decodeNibble c).toNat) / 16 = hexValue (d :: ds') by omega,
        show (16 * hexValue (d :: ds') + (decodeNibble c).toNat) % 16 = (decodeNibble c).toNat by omega,
        ih (List.cons_ne_nil _ _) (fun c' hc' => hv c' (List.mem_append_left _ hc'))
          (fun _ => by rw [List.head?_cons, ne_eq, Option.some.injEq]; exact hd0),
        digitChar_decodeNibble c hc, List.map_append, List.map_singleton]

/-! ## `checkNumber` -/

/-- `checkNumber` returns the digits behind `0x` or `0X`: at least one, and no leading zero
unless it is the only one. -/
theorem checkNumber_eq_ok {input raw : List UInt8} :
    checkNumber input = .ok raw ↔ ∃ p, input = '0'.toUInt8 :: p :: raw ∧
      (p = 'x'.toUInt8 ∨ p = 'X'.toUInt8) ∧ raw ≠ [] ∧
      (1 < raw.length → raw.head? ≠ some '0'.toUInt8) := by
  match input with
  | [] => simp [checkNumber]
  | [a] => simp [checkNumber, has0xPrefix]
  | a :: p :: rest =>
    simp only [checkNumber, has0xPrefix, List.length_cons, List.getD_cons_zero,
      List.getD_cons_succ, List.drop_succ_cons, List.drop_zero]
    constructor
    · intro h
      rw [if_neg (by omega)] at h
      have hpre : a = '0'.toUInt8 ∧ (p = 'x'.toUInt8 ∨ p = 'X'.toUInt8) := by
        by_contra hpre
        rw [if_pos (by simp; tauto)] at h
        exact Except.throw_ne_ok _ _ h
      rw [if_neg (by simp; tauto)] at h
      have hlen : rest.length ≠ 0 := fun h0 => by
        rw [if_pos h0] at h
        exact Except.throw_ne_ok _ _ h
      rw [if_neg hlen] at h
      by_cases hz : rest.length > 1 ∧ rest.getD 0 0 = '0'.toUInt8
      · rw [if_pos hz] at h
        exact absurd h (Except.throw_ne_ok _ _)
      rw [if_neg hz] at h
      -- the digits pass every check
      obtain rfl : rest = raw := Except.ok.inj h
      refine ⟨p, by rw [hpre.1], hpre.2, fun h0 => hlen (by rw [h0]; rfl),
        fun hlen' hhead => hz ⟨hlen', ?_⟩⟩
      cases rest with
      | nil => simp at hlen'
      | cons c rest =>
        simp only [List.head?_cons, Option.some.injEq] at hhead
        rw [List.getD_cons_zero, hhead]
    · rintro ⟨p', heq, hp, hne, hz⟩
      obtain ⟨rfl, rfl, rfl⟩ : a = '0'.toUInt8 ∧ p' = p ∧ raw = rest := by
        simp only [List.cons.injEq] at heq
        exact ⟨heq.1, heq.2.1.symm, heq.2.2.symm⟩
      have hlen : raw.length ≠ 0 := fun h => hne (List.eq_nil_of_length_eq_zero h)
      rw [if_neg (by omega), if_neg (by simp [hp]), if_neg hlen, if_neg]
      · rfl
      · rintro ⟨hlen', hhead⟩
        apply hz hlen'
        cases raw with
        | nil => exact absurd rfl hne
        | cons c raw =>
          rw [List.getD_cons_zero] at hhead
          rw [List.head?_cons, hhead]

/-! ## `DecodeBig` -/

/-- The digits from `s`, `m` of them, as the loop of a word reads them. -/
theorem drop_take_eq_map {raw : List UInt8} {s m : Nat} (h : s + m ≤ raw.length) :
    (raw.drop s).take m = (List.range' s m).map fun i => raw.getD i 0 := by
  apply List.ext_getElem
  · simp only [List.length_take, List.length_drop, List.length_map, List.length_range']
    omega
  · intro j h₁ h₂
    simp only [List.length_take, List.length_drop] at h₁
    rw [List.getElem_take, List.getElem_drop, List.getElem_map, List.getElem_range',
      List.getD_eq_getElem _ _ (by omega)]
    congr 1
    omega

theorem drop_take_succ {raw : List UInt8} {s m : Nat} (h : s < raw.length) :
    (raw.drop s).take (m + 1) = raw.getD s 0 :: (raw.drop (s + 1)).take m := by
  rw [List.drop_eq_getElem_cons h, List.take_succ_cons, List.getD_eq_getElem _ _ h]

theorem setBits_append_singleton (wordBits : Nat) (ws : List Nat) (w : Nat) :
    setBits wordBits (ws ++ [w]) = setBits wordBits ws + 2 ^ (wordBits * ws.length) * w := by
  induction ws with
  | nil => simp [setBits]
  | cons w' ws ih =>
    simp only [setBits, List.cons_append, List.foldr_cons] at ih ⊢
    rw [ih, List.length_cons, Nat.mul_succ, pow_add]
    ring

section
variable (raw : List UInt8) (wordNibbles : Nat)

/-- The digits of a word, with no overflow: the value so far shifted by the digits, plus their
value. -/
theorem foldl_nibble : ∀ (m s w : Nat), s + m ≤ raw.length →
    (∀ c ∈ (raw.drop s).take m, IsHexDigit c) →
    w * 16 ^ m + hexValue ((raw.drop s).take m) < 2 ^ (4 * wordNibbles) →
    (List.range' s m).foldl
        (fun w ri => (w * 16 + (decodeNibble (raw.getD ri 0)).toNat) % 2 ^ (4 * wordNibbles)) w =
      w * 16 ^ m + hexValue ((raw.drop s).take m) := by
  intro m
  induction m with
  | zero => intro s w _ _ _; simp [hexValue]
  | succ m ih =>
    intro s w hs hv hlt
    have hcons := drop_take_succ (m := m) (show s < raw.length by omega)
    have hlen : ((raw.drop (s + 1)).take m).length = m := by
      rw [List.length_take, List.length_drop]
      omega
    rw [hcons] at hv hlt ⊢
    rw [hexValue_cons, hlen] at hlt ⊢
    rw [List.range'_succ, List.foldl_cons]
    -- the first digit does not overflow the word, since the whole value does not
    have hstep : w * 16 + (decodeNibble (raw.getD s 0)).toNat < 2 ^ (4 * wordNibbles) := by
      have : w * 16 + (decodeNibble (raw.getD s 0)).toNat ≤
          (w * 16 + (decodeNibble (raw.getD s 0)).toNat) * 16 ^ m :=
        Nat.le_mul_of_pos_right _ (Nat.pow_pos (by norm_num))
      rw [pow_succ] at hlt
      nlinarith
    rw [Nat.mod_eq_of_lt hstep, ih (s + 1) _ (by omega)
      (fun c hc => hv c (List.mem_cons_of_mem _ hc)) (by rw [pow_succ] at hlt; nlinarith), pow_succ]
    ring

end

section
variable (raw : List UInt8) {wordNibbles : Nat} (hN : 0 < wordNibbles)
include hN

/-- One word of `DecodeBig`: the value of its digits, or a syntax error at a bad digit. -/
theorem wordStep_eq (ws : List Nat) {e : Nat} (he : e ≤ raw.length) (i : Nat) :
    wordStep raw wordNibbles (ws, e) i =
      if ∃ c ∈ (raw.drop (e - wordNibbles)).take (e - (e - wordNibbles)), ¬IsHexDigit c then
        .error .syntaxErr
      else .ok (ws ++ [hexValue ((raw.drop (e - wordNibbles)).take (e - (e - wordNibbles)))],
        e - wordNibbles) := by
  have hslice := @drop_take_eq_map raw (e - wordNibbles) (e - (e - wordNibbles)) (by omega)
  unfold wordStep
  dsimp only
  rw [Except.foldlM_eq_ite (f := nibbleStep raw wordNibbles)
    (g := fun w ri => (w * 16 + (decodeNibble (raw.getD ri 0)).toNat) % 2 ^ (4 * wordNibbles))
    (fun ri => decodeNibble (raw.getD ri 0) = badNibble) .syntaxErr (fun _ _ => rfl)]
  have hiff : (∃ ri ∈ List.range' (e - wordNibbles) (e - (e - wordNibbles)),
      decodeNibble (raw.getD ri 0) = badNibble) ↔
      ∃ c ∈ (raw.drop (e - wordNibbles)).take (e - (e - wordNibbles)), ¬IsHexDigit c := by
    rw [hslice]
    simp [IsHexDigit]
  by_cases hbad : ∃ c ∈ (raw.drop (e - wordNibbles)).take (e - (e - wordNibbles)), ¬IsHexDigit c
  · rw [if_pos (hiff.mpr hbad), if_pos hbad]
    rfl
  · have hvalid : ∀ c ∈ (raw.drop (e - wordNibbles)).take (e - (e - wordNibbles)), IsHexDigit c :=
      fun c hc => not_not.mp fun h => hbad ⟨c, hc, h⟩
    -- a word holds at most `wordNibbles` digits, so it never overflows
    have hlt : hexValue ((raw.drop (e - wordNibbles)).take (e - (e - wordNibbles))) <
        2 ^ (4 * wordNibbles) := by
      calc _ < 16 ^ ((raw.drop (e - wordNibbles)).take (e - (e - wordNibbles))).length :=
            hexValue_lt hvalid
        _ ≤ 16 ^ wordNibbles := Nat.pow_le_pow_right (by norm_num) (by
            rw [List.length_take]
            omega)
        _ = 2 ^ (4 * wordNibbles) := by rw [pow_mul]; norm_num
    rw [if_neg (fun h => hbad (hiff.mp h)), if_neg hbad, Except.ok_bind,
      foldl_nibble raw wordNibbles _ _ 0 (by omega) hvalid (by simpa using hlt), Nat.zero_mul,
      Nat.zero_add]
    rfl

/-- After `k` words the loop has read the digits from `len(raw) - wordNibbles * k` on, if they
are all valid, and their value is the value of the words. -/
theorem foldlM_wordStep : ∀ k, (∀ c ∈ raw.drop (raw.length - wordNibbles * k), IsHexDigit c) →
    ∃ ws, (List.range k).foldlM (wordStep raw wordNibbles) ([], raw.length) =
        .ok (ws, raw.length - wordNibbles * k) ∧
      setBits (4 * wordNibbles) ws = hexValue (raw.drop (raw.length - wordNibbles * k)) ∧
      ws.length = k := by
  intro k
  induction k with
  | zero =>
    intro _
    exact ⟨[], rfl, by simp [setBits, hexValue], rfl⟩
  | succ k ih =>
    intro hv
    have he : raw.length - wordNibbles * k - wordNibbles = raw.length - wordNibbles * (k + 1) := by
      rw [Nat.mul_succ]
      omega
    -- the digits read so far are the new word's, then those of the earlier words
    have hsplit : raw.drop (raw.length - wordNibbles * (k + 1)) =
        (raw.drop (raw.length - wordNibbles * (k + 1))).take
          (raw.length - wordNibbles * k - (raw.length - wordNibbles * (k + 1))) ++
        raw.drop (raw.length - wordNibbles * k) := by
      conv_lhs => rw [← List.take_append_drop (raw.length - wordNibbles * k -
        (raw.length - wordNibbles * (k + 1))) (raw.drop (raw.length - wordNibbles * (k + 1)))]
      rw [List.drop_drop]
      congr 2
      rw [Nat.mul_succ]
      omega
    have hv' : ∀ c ∈ raw.drop (raw.length - wordNibbles * k), IsHexDigit c := fun c hc =>
      hv c (by rw [hsplit]; exact List.mem_append_right _ hc)
    obtain ⟨ws, hws, hval, hlen⟩ := ih hv'
    have hnew : ¬∃ c ∈ (raw.drop (raw.length - wordNibbles * k - wordNibbles)).take
        (raw.length - wordNibbles * k - (raw.length - wordNibbles * k - wordNibbles)),
        ¬IsHexDigit c := by
      rintro ⟨c, hc, hbad⟩
      rw [he] at hc
      exact hbad (hv c (by rw [hsplit]; exact List.mem_append_left _ hc))
    refine ⟨ws ++ [hexValue ((raw.drop (raw.length - wordNibbles * (k + 1))).take
        (raw.length - wordNibbles * k - (raw.length - wordNibbles * (k + 1))))], ?_, ?_,
        by rw [List.length_append, hlen, List.length_singleton]⟩
    · rw [List.range_succ, List.foldlM_append, hws, Except.ok_bind, List.foldlM_cons,
        wordStep_eq raw hN ws (Nat.sub_le _ _), if_neg hnew, Except.ok_bind, he, List.foldlM_nil]
      rfl
    · rw [setBits_append_singleton, hval, hlen]
      conv_rhs => rw [hsplit, hexValue_append]
      -- the earlier words' digits weigh `16 ^ (wordNibbles * k)`, unless the digits ran out
      by_cases hk : wordNibbles * k ≤ raw.length
      · rw [List.length_drop, show raw.length - (raw.length - wordNibbles * k) = wordNibbles * k
          by omega, show (16 : Nat) ^ (wordNibbles * k) = 2 ^ (4 * wordNibbles * k) by
            rw [show (16 : Nat) = 2 ^ 4 by norm_num, ← pow_mul, Nat.mul_assoc]]
        ring
      · rw [show raw.length - wordNibbles * k - (raw.length - wordNibbles * (k + 1)) = 0 by
          rw [Nat.mul_succ]; omega, List.take_zero]
        simp [hexValue]

/-- A bad digit among those read makes the loop fail with a syntax error. -/
theorem foldlM_wordStep_error : ∀ k, (∃ c ∈ raw.drop (raw.length - wordNibbles * k), ¬IsHexDigit c) →
    (List.range k).foldlM (wordStep raw wordNibbles) ([], raw.length) = .error .syntaxErr := by
  intro k
  induction k with
  | zero =>
    rintro ⟨c, hc, -⟩
    simp at hc
  | succ k ih =>
    intro hbad
    rw [List.range_succ, List.foldlM_append]
    by_cases hold : ∃ c ∈ raw.drop (raw.length - wordNibbles * k), ¬IsHexDigit c
    · rw [ih hold]
      rfl
    · -- the bad digit is in the new word
      have hv : ∀ c ∈ raw.drop (raw.length - wordNibbles * k), IsHexDigit c :=
        fun c hc => not_not.mp fun h => hold ⟨c, hc, h⟩
      obtain ⟨ws, hws, -, -⟩ := foldlM_wordStep raw hN k hv
      have he : raw.length - wordNibbles * k - wordNibbles =
          raw.length - wordNibbles * (k + 1) := by
        rw [Nat.mul_succ]
        omega
      have hnew : ∃ c ∈ (raw.drop (raw.length - wordNibbles * k - wordNibbles)).take
          (raw.length - wordNibbles * k - (raw.length - wordNibbles * k - wordNibbles)),
          ¬IsHexDigit c := by
        obtain ⟨c, hc, hc'⟩ := hbad
        refine ⟨c, ?_, hc'⟩
        rw [he]
        rw [← List.take_append_drop (raw.length - wordNibbles * k -
          (raw.length - wordNibbles * (k + 1))) (raw.drop (raw.length - wordNibbles * (k + 1))),
          List.drop_drop, show raw.length - wordNibbles * (k + 1) + (raw.length - wordNibbles * k -
            (raw.length - wordNibbles * (k + 1))) = raw.length - wordNibbles * k by
            rw [Nat.mul_succ]; omega] at hc
        rcases List.mem_append.mp hc with hc | hc
        · exact hc
        · exact absurd (hv c hc) hc'
      rw [hws, Except.ok_bind, List.foldlM_cons, wordStep_eq raw hN ws (Nat.sub_le _ _),
        if_pos hnew]
      rfl

/-- `DecodeBig` is `checkNumber`, the length check, and the value of the digits. -/
theorem decodeBig_eq (input : List UInt8) :
    decodeBig wordNibbles input = (checkNumber input).bind fun raw =>
      if raw.length > 64 then .error .big256Range
      else if ∃ c ∈ raw, ¬IsHexDigit c then .error .syntaxErr else .ok (hexValue raw) := by
  unfold decodeBig
  cases checkNumber input with
  | error e => rfl
  | ok raw =>
    rw [Except.ok_bind]
    show _ = if raw.length > 64 then _ else _
    by_cases hlen : raw.length > 64
    · rw [if_pos hlen, if_pos hlen]
      rfl
    · rw [if_neg hlen, if_neg hlen]
      -- the words cover every digit
      have hk : raw.length - wordNibbles * (raw.length / wordNibbles + 1) = 0 := by
        have := Nat.lt_mul_div_succ raw.length hN
        omega
      by_cases hbad : ∃ c ∈ raw, ¬IsHexDigit c
      · rw [if_pos hbad, foldlM_wordStep_error raw hN _ (by rw [hk, List.drop_zero]; exact hbad)]
        rfl
      · rw [if_neg hbad]
        obtain ⟨ws, hws, hval, -⟩ := foldlM_wordStep raw hN (raw.length / wordNibbles + 1)
          (by rw [hk, List.drop_zero]; exact fun c hc => not_not.mp fun h => hbad ⟨c, hc, h⟩)
        rw [hws, Except.ok_bind]
        show pure (setBits _ ws) = _
        rw [hval, hk, List.drop_zero]
        rfl

end

/-! ## `strconv.ParseUint` -/

theorem parseDigit_of_isHexDigit :
    ∀ c : UInt8, IsHexDigit c → parseDigit c = some (decodeNibble c).toUInt8 := by
  decide +kernel

theorem parseDigit_of_not_isHexDigit :
    ∀ c : UInt8, ¬IsHexDigit c → (parseDigit c).all (fun d => decide (16 ≤ d)) = true := by
  decide +kernel

theorem toNat_toUInt8_decodeNibble :
    ∀ c : UInt8, IsHexDigit c → (decodeNibble c).toUInt8.toNat = (decodeNibble c).toNat := by
  decide +kernel

/-- A digit of `ParseUint`: a syntax error at a byte that is not a hex digit, a range error once
the value reaches the cutoff `2 ^ 60`, the value times sixteen plus the digit otherwise. -/
theorem parseUintStep_eq (n : UInt64) (c : UInt8) :
    parseUintStep n c =
      if ¬IsHexDigit c then .error .syntaxErr
      else if 2 ^ 60 ≤ n.toNat then .error .range
      else .ok (UInt64.ofNat (16 * n.toNat + (decodeNibble c).toNat)) := by
  unfold parseUintStep
  by_cases hc : IsHexDigit c
  · have hlt := toNat_decodeNibble_lt c hc
    have hd := toNat_toUInt8_decodeNibble c hc
    rw [if_neg (not_not.mpr hc), parseDigit_of_isHexDigit c hc]
    dsimp only
    rw [if_neg (by rw [ge_iff_le, UInt8.le_iff_toNat_le, hd]; simp only [UInt8.reduceToNat]; omega)]
    have hcut : (maxUint64 / 16 + 1).toNat = 2 ^ 60 := by decide
    by_cases hn : 2 ^ 60 ≤ n.toNat
    · rw [if_pos (by rw [ge_iff_le, UInt64.le_iff_toNat_le, hcut]; exact hn), if_pos hn]
      rfl
    · -- below the cutoff, neither the product nor the sum wraps
      have hmul : (n * 16).toNat = 16 * n.toNat := by
        rw [UInt64.toNat_mul]
        simp only [UInt64.reduceToNat]
        omega
      have hsum : (n * 16 + (decodeNibble c).toUInt8.toUInt64).toNat =
          16 * n.toNat + (decodeNibble c).toNat := by
        rw [UInt64.toNat_add, hmul, UInt8.toNat_toUInt64, hd]
        omega
      have hmax : maxUint64.toNat = 2 ^ 64 - 1 := by decide
      rw [if_neg (by rw [ge_iff_le, UInt64.le_iff_toNat_le, hcut]; exact hn), if_neg hn,
        if_neg (by
          rw [UInt64.lt_iff_toNat_lt, gt_iff_lt, UInt64.lt_iff_toNat_lt, hsum, hmul, hmax]
          omega)]
      congr 1
      apply UInt64.toNat_inj.mp
      rw [hsum, UInt64.toNat_ofNat']
      omega
  · rw [if_pos hc]
    have hall := parseDigit_of_not_isHexDigit c hc
    cases hd : parseDigit c with
    | none => rfl
    | some d =>
      rw [hd, Option.all_some, decide_eq_true_eq] at hall
      dsimp only
      rw [if_pos hall]
      rfl

/-- `ParseUint` succeeds on valid digits whose value fits, with that value. -/
theorem foldlM_parseUintStep : ∀ (l : List UInt8) (n : UInt64), (∀ c ∈ l, IsHexDigit c) →
    n.toNat * 16 ^ l.length + hexValue l < 2 ^ 64 →
    l.foldlM parseUintStep n = .ok (UInt64.ofNat (n.toNat * 16 ^ l.length + hexValue l)) := by
  intro l
  induction l with
  | nil =>
    intro n _ _
    simp only [List.foldlM_nil, List.length_nil, pow_zero, Nat.mul_one]
    simp [hexValue]
    rfl
  | cons c l ih =>
    intro n hv hlt
    have hc := hv c List.mem_cons_self
    rw [hexValue_cons, List.length_cons, pow_succ] at hlt
    have hn : n.toNat < 2 ^ 60 := by
      have : n.toNat * 16 ≤ n.toNat * (16 ^ l.length * 16) :=
        Nat.mul_le_mul_left _ (Nat.le_mul_of_pos_left 16 (Nat.pow_pos (by norm_num)))
      omega
    have hstep : (UInt64.ofNat (16 * n.toNat + (decodeNibble c).toNat)).toNat =
        16 * n.toNat + (decodeNibble c).toNat := by
      rw [UInt64.toNat_ofNat']
      have := toNat_decodeNibble_lt c hc
      omega
    rw [List.foldlM_cons, parseUintStep_eq, if_neg (not_not.mpr hc), if_neg (by omega),
      Except.ok_bind, ih _ (fun c' hc' => hv c' (List.mem_cons_of_mem _ hc')) (by
        rw [hstep]; nlinarith), hstep, hexValue_cons, List.length_cons, pow_succ]
    congr 2
    ring

/-- What `ParseUint` returns is the value of valid digits, which fits. -/
theorem foldlM_parseUintStep_ok : ∀ (l : List UInt8) (n r : UInt64),
    l.foldlM parseUintStep n = .ok r →
    (∀ c ∈ l, IsHexDigit c) ∧ n.toNat * 16 ^ l.length + hexValue l < 2 ^ 64 ∧
      r.toNat = n.toNat * 16 ^ l.length + hexValue l := by
  intro l
  induction l with
  | nil =>
    intro n r h
    obtain rfl : n = r := Except.ok.inj h
    simp [hexValue, UInt64.toNat_lt n]
  | cons c l ih =>
    intro n r h
    rw [List.foldlM_cons] at h
    obtain ⟨n', hn', hrest⟩ := Except.bind_eq_ok h
    rw [parseUintStep_eq] at hn'
    by_cases hc : IsHexDigit c
    · rw [if_neg (not_not.mpr hc)] at hn'
      by_cases hcut : 2 ^ 60 ≤ n.toNat
      · rw [if_pos hcut] at hn'
        cases hn'
      · rw [if_neg hcut] at hn'
        obtain rfl := (Except.ok.inj hn').symm
        have hstep : (UInt64.ofNat (16 * n.toNat + (decodeNibble c).toNat)).toNat =
            16 * n.toNat + (decodeNibble c).toNat := by
          rw [UInt64.toNat_ofNat']
          have := toNat_decodeNibble_lt c hc
          omega
        obtain ⟨hv, hlt, hr⟩ := ih _ _ hrest
        rw [hstep] at hlt hr
        refine ⟨?_, ?_, ?_⟩
        · intro c' hc'
          rcases List.mem_cons.mp hc' with rfl | hc'
          · exact hc
          · exact hv c' hc'
        · rw [hexValue_cons, List.length_cons, pow_succ]
          nlinarith
        · rw [hr, hexValue_cons, List.length_cons, pow_succ]
          ring
    · rw [if_pos hc] at hn'
      cases hn'

/-- `ParseUint` of digits reads their value, when they are hex digits and it fits in 64 bits. -/
theorem parseUint_eq_ok {raw : List UInt8} (hne : raw ≠ []) {v : UInt64} :
    parseUint raw = .ok v ↔
      (∀ c ∈ raw, IsHexDigit c) ∧ hexValue raw < 2 ^ 64 ∧ v.toNat = hexValue raw := by
  unfold parseUint
  rw [if_neg hne]
  constructor
  · intro h
    simpa using foldlM_parseUintStep_ok raw 0 v h
  · rintro ⟨hv, hlt, hval⟩
    rw [foldlM_parseUintStep raw 0 hv (by simpa using hlt)]
    congr 1
    apply UInt64.toNat_inj.mp
    rw [UInt64.toNat_ofNat', hval]
    simp only [UInt64.toNat_zero, Nat.zero_mul, Nat.zero_add]
    omega

/-- `DecodeUint64` reads the digits behind the prefix, when they are hex digits whose value fits
in 64 bits. -/
theorem decodeUint64_eq_ok {input : List UInt8} {v : UInt64} :
    decodeUint64 input = .ok v ↔ ∃ raw, checkNumber input = .ok raw ∧
      (∀ c ∈ raw, IsHexDigit c) ∧ hexValue raw < 2 ^ 64 ∧ v.toNat = hexValue raw := by
  unfold decodeUint64
  cases hc : checkNumber input with
  | error e => simp
  | ok raw =>
    have hne := ((checkNumber_eq_ok.mp hc).choose_spec).2.2.1
    rw [Except.ok_bind]
    simp only [Except.ok.injEq, exists_eq_left']
    rw [← parseUint_eq_ok hne]
    -- the error of the parse is mapped, its value passed on
    cases parseUint raw with
    | ok dec => exact ⟨fun h => congrArg Except.ok (Except.ok.inj h), fun h => h.symm ▸ rfl⟩
    | error e => exact ⟨fun h => absurd h (Except.throw_ne_ok _ _), fun h => by cases h⟩

/-! ## Quantities -/

/-- `EncodeBig` writes `0x` and the digits of the number; for zero that is `0x0`. -/
theorem encodeBig_eq (x : Nat) : encodeBig x = '0'.toUInt8 :: 'x'.toUInt8 :: hexDigits x := by
  unfold encodeBig
  by_cases hx : x = 0
  · subst hx
    rfl
  · rw [if_neg (by rw [Nat.size_eq_zero]; exact hx)]
    rfl

theorem encodeUint64_eq_encodeBig (i : UInt64) : encodeUint64 i = encodeBig i.toNat := by
  rw [encodeBig_eq]
  rfl

/-- `checkNumber` passes what `EncodeBig` writes, with the digits of the number. -/
theorem checkNumber_encodeBig (x : Nat) : checkNumber (encodeBig x) = .ok (hexDigits x) := by
  rw [encodeBig_eq, checkNumber_eq_ok]
  refine ⟨'x'.toUInt8, rfl, Or.inl rfl, hexDigits_ne_nil x, fun hlen => head_hexDigits ?_⟩
  refine Nat.pos_of_ne_zero fun h0 => ?_
  rw [h0] at hlen
  exact absurd hlen (by decide)

/-- The digits `checkNumber` passes, written back by `EncodeBig`, are the input lower-cased. -/
theorem encodeBig_hexValue {input raw : List UInt8} (h : checkNumber input = .ok raw)
    (hv : ∀ c ∈ raw, IsHexDigit c) : encodeBig (hexValue raw) = input.map toLowerAscii := by
  obtain ⟨p, rfl, hp, hne, hz⟩ := checkNumber_eq_ok.mp h
  have hx : toLowerAscii p = 'x'.toUInt8 := by
    rcases hp with rfl | rfl <;> decide
  rw [encodeBig_eq, hexDigits_hexValue hne hv hz, List.map_cons, List.map_cons, hx]
  rfl

/-- A quantity of at most `m` digits is what `checkNumber` passes with at most `m` hex digits. -/
theorem quantityString_iff {m : Nat} {s : List UInt8} :
    QuantityString m s ↔
      ∃ raw, checkNumber s = .ok raw ∧ raw.length ≤ m ∧ ∀ c ∈ raw, IsHexDigit c := by
  simp only [QuantityString, checkNumber_eq_ok]
  constructor
  · rintro ⟨p, digits, hs, hp, hpos, hle, hv, hz⟩
    exact ⟨digits, ⟨p, hs, hp, List.ne_nil_of_length_pos hpos, hz⟩, hle, hv⟩
  · rintro ⟨raw, ⟨p, hs, hp, hne, hz⟩, hle, hv⟩
    exact ⟨p, raw, hs, hp, List.length_pos_iff.mpr hne, hle, hv, hz⟩

/-- Under the leading-zero rule, digits are worth less than `16 ^ k` exactly when there are at
most `k` of them. -/
theorem hexValue_lt_pow_iff {raw : List UInt8} (hv : ∀ c ∈ raw, IsHexDigit c)
    (hz : 1 < raw.length → raw.head? ≠ some '0'.toUInt8) {k : Nat} (hk : 0 < k) :
    hexValue raw < 16 ^ k ↔ raw.length ≤ k := by
  constructor
  · intro hlt
    by_contra hlen
    cases raw with
    | nil => exact hlen (Nat.zero_le k)
    | cons c ds =>
      rw [List.length_cons] at hlen hz
      have hc0 : c ≠ '0'.toUInt8 := fun h => hz (by omega) (by rw [h]; rfl)
      have hpow := lt_of_le_of_lt (pow_le_hexValue (hv c List.mem_cons_self) hc0 ds) hlt
      have := (Nat.pow_lt_pow_iff_right (by norm_num)).mp hpow
      omega
  · intro hlen
    exact lt_of_lt_of_le (hexValue_lt hv) (Nat.pow_le_pow_right (by norm_num) hlen)

section
variable {wordNibbles : Nat} (hN : 0 < wordNibbles)
include hN

/-- `DecodeBig` reads the digits behind the prefix, when there are at most 64 and all are hex
digits. -/
theorem decodeBig_eq_ok {input : List UInt8} {v : Nat} :
    decodeBig wordNibbles input = .ok v ↔ ∃ raw, checkNumber input = .ok raw ∧
      raw.length ≤ 64 ∧ (∀ c ∈ raw, IsHexDigit c) ∧ v = hexValue raw := by
  rw [decodeBig_eq hN]
  cases checkNumber input with
  | error e => simp [Except.bind]
  | ok raw =>
    show (if raw.length > 64 then _ else _) = _ ↔ _
    by_cases hlen : raw.length > 64
    · rw [if_pos hlen]
      simp only [reduceCtorEq, false_iff, not_exists, not_and, Except.ok.injEq]
      rintro _ rfl hle
      omega
    · rw [if_neg hlen]
      by_cases hbad : ∃ c ∈ raw, ¬IsHexDigit c
      · rw [if_pos hbad]
        simp only [reduceCtorEq, false_iff, not_exists, not_and, Except.ok.injEq]
        rintro _ rfl _ hv
        obtain ⟨c, hc, hnot⟩ := hbad
        exact absurd (hv c hc) hnot
      · rw [if_neg hbad]
        simp only [Except.ok.injEq, exists_eq_left']
        have hv : ∀ c ∈ raw, IsHexDigit c := fun c hc => not_not.mp fun h => hbad ⟨c, hc, h⟩
        constructor
        · rintro rfl
          exact ⟨by omega, hv, rfl⟩
        · rintro ⟨-, -, rfl⟩
          rfl

theorem decodeBig_encodeBig {x : Nat} (hx : x < 2 ^ 256) :
    decodeBig wordNibbles (encodeBig x) = .ok x := by
  rw [decodeBig_eq_ok hN]
  refine ⟨hexDigits x, checkNumber_encodeBig x,
    length_hexDigits_le (by norm_num) (by norm_num at hx ⊢; omega),
    isHexDigit_of_mem_hexDigits x, (hexValue_hexDigits x).symm⟩

end

/-! ## `Decode` and `Encode` -/

/-- The two digits `Encode` writes for a byte read back as its halves, which make up the byte. -/
theorem fromHexChar_hextable : ∀ v : UInt8,
    fromHexChar (hextable.getD (v >>> 4).toNat 0) = some (v >>> 4) ∧
      fromHexChar (hextable.getD (v &&& 0x0f).toNat 0) = some (v &&& 0x0f) ∧
      (v >>> 4) <<< 4 ||| (v &&& 0x0f) = v := by
  decide +kernel

theorem hexEncode_cons (v : UInt8) (b : List UInt8) :
    hexEncode (v :: b) =
      hextable.getD (v >>> 4).toNat 0 :: hextable.getD (v &&& 0x0f).toNat 0 :: hexEncode b :=
  rfl

theorem length_hexEncode (b : List UInt8) : (hexEncode b).length = 2 * b.length := by
  induction b with
  | nil => rfl
  | cons v b ih =>
    rw [hexEncode_cons, List.length_cons, List.length_cons, ih, List.length_cons]
    ring

/-- Byte `i` is written at `2 * i` and `2 * i + 1`. -/
theorem getD_hexEncode (b : List UInt8) : ∀ i < b.length,
    (hexEncode b).getD (i * 2) 0 = hextable.getD (b.getD i 0 >>> 4).toNat 0 ∧
      (hexEncode b).getD (i * 2 + 1) 0 = hextable.getD (b.getD i 0 &&& 0x0f).toNat 0 := by
  induction b with
  | nil => intro i hi; simp at hi
  | cons v b ih =>
    intro i hi
    rw [hexEncode_cons]
    cases i with
    | zero => exact ⟨rfl, rfl⟩
    | succ j =>
      have h1 : (j + 1) * 2 = j * 2 + 1 + 1 := by ring
      simp only [h1, List.getD_cons_succ]
      exact ih j (by rw [List.length_cons] at hi; omega)

theorem decodePair_hexEncode {b : List UInt8} {i : Nat} (hi : i < b.length) :
    decodePair (hexEncode b) i = .ok (b.getD i 0) := by
  obtain ⟨hhi, hlo⟩ := getD_hexEncode b i hi
  obtain ⟨hfhi, hflo, hv⟩ := fromHexChar_hextable (b.getD i 0)
  unfold decodePair
  rw [hhi, hlo, hfhi, hflo]
  exact congrArg Except.ok hv

theorem hexDecodeString_hexEncode (b : List UInt8) : hexDecodeString (hexEncode b) = .ok b := by
  unfold hexDecodeString
  rw [length_hexEncode, if_neg (by omega), show 2 * b.length / 2 = b.length by omega,
    Except.mapM_eq_ok_map (g := fun i => b.getD i 0) _
      fun i hi => decodePair_hexEncode (List.mem_range.mp hi)]
  congr 1
  apply List.ext_getElem (by simp)
  intro n _ hn
  simp [List.getElem?_eq_getElem hn]

/-- `Decode` inverts `Encode`. -/
theorem decode_encode (b : List UInt8) : decode (encode b) = .ok b := by
  have henc : encode b = '0'.toUInt8 :: 'x'.toUInt8 :: hexEncode b := rfl
  unfold decode
  rw [henc, if_neg (by simp), if_neg (by simp [has0xPrefix]), List.drop_succ_cons,
    List.drop_succ_cons, List.drop_zero, hexDecodeString_hexEncode]
  rfl

/-- The hex codecs are canonical. `DecodeBig`, with words of any size, inverts `EncodeBig` on
256-bit numbers, accepts exactly the quantities of at most 64 digits, and what it accepts is
written back lower-cased; the same holds for `DecodeUint64` with 16 digits; and `Decode` inverts
`Encode`. -/
theorem hex_quantity_codec_canonical :
    (∀ wordNibbles, 0 < wordNibbles →
      (∀ x < 2 ^ 256, decodeBig wordNibbles (encodeBig x) = .ok x) ∧
      ∀ s : List UInt8, ((∃ v, decodeBig wordNibbles s = .ok v) ↔ QuantityString 64 s) ∧
        ∀ v, decodeBig wordNibbles s = .ok v → encodeBig v = s.map toLowerAscii) ∧
    (∀ x : UInt64, decodeUint64 (encodeUint64 x) = .ok x) ∧
    (∀ s : List UInt8, ((∃ v, decodeUint64 s = .ok v) ↔ QuantityString 16 s) ∧
      ∀ v, decodeUint64 s = .ok v → encodeUint64 v = s.map toLowerAscii) ∧
    ∀ b : List UInt8, decode (encode b) = .ok b := by
  refine ⟨fun N hN => ⟨fun x hx => decodeBig_encodeBig hN hx, fun s => ⟨?_, ?_⟩⟩, ?_, ?_, decode_encode⟩
  · -- the accepted strings
    rw [quantityString_iff]
    constructor
    · rintro ⟨v, hv⟩
      obtain ⟨raw, hc, hlen, hdig, -⟩ := (decodeBig_eq_ok hN).mp hv
      exact ⟨raw, hc, hlen, hdig⟩
    · rintro ⟨raw, hc, hlen, hdig⟩
      exact ⟨hexValue raw, (decodeBig_eq_ok hN).mpr ⟨raw, hc, hlen, hdig, rfl⟩⟩
  · intro v hv
    obtain ⟨raw, hc, -, hdig, rfl⟩ := (decodeBig_eq_ok hN).mp hv
    exact encodeBig_hexValue hc hdig
  · intro x
    rw [decodeUint64_eq_ok, encodeUint64_eq_encodeBig]
    refine ⟨hexDigits x.toNat, checkNumber_encodeBig _, isHexDigit_of_mem_hexDigits _, ?_, ?_⟩
    · rw [hexValue_hexDigits]
      exact UInt64.toNat_lt x
    · rw [hexValue_hexDigits]
  · intro s
    refine ⟨?_, ?_⟩
    · -- below the leading-zero rule, fitting in 64 bits is having at most 16 digits
      rw [quantityString_iff]
      constructor
      · rintro ⟨v, hv⟩
        obtain ⟨raw, hc, hdig, hlt, -⟩ := decodeUint64_eq_ok.mp hv
        obtain ⟨_, _, _, _, hz⟩ := checkNumber_eq_ok.mp hc
        exact ⟨raw, hc, (hexValue_lt_pow_iff hdig hz (k := 16) (by norm_num)).mp hlt, hdig⟩
      · rintro ⟨raw, hc, hlen, hdig⟩
        obtain ⟨_, _, _, _, hz⟩ := checkNumber_eq_ok.mp hc
        have hlt : hexValue raw < 2 ^ 64 :=
          (hexValue_lt_pow_iff hdig hz (k := 16) (by norm_num)).mpr hlen
        refine ⟨UInt64.ofNat (hexValue raw), decodeUint64_eq_ok.mpr ⟨raw, hc, hdig, hlt, ?_⟩⟩
        rw [UInt64.toNat_ofNat']
        omega
    · intro v hv
      obtain ⟨raw, hc, hdig, -, hval⟩ := decodeUint64_eq_ok.mp hv
      rw [encodeUint64_eq_encodeBig, hval]
      exact encodeBig_hexValue hc hdig

theorem hex_quantity_codec_canonical_ff :
    0 < 16 ∧ 255 < 2 ^ 256 ∧ decodeBig 16 (encodeBig 255) = .ok 255 :=
  ⟨by decide, by norm_num, (hex_quantity_codec_canonical.1 16 (by decide)).1 255 (by norm_num)⟩

end GoGaia.Hexutil
