import Mathlib

/-!
# Little-endian words in byte strings

`encoding/binary`'s little-endian order for 32-bit words, and the loops that convert a byte string
into words and back, four bytes a word. `uint32` reads the first four bytes of a string, and so a
word depends on those bytes only (`uint32_congr`); the value of a word is the sum of its bytes
weighted by powers of `2 ^ 8` (`toNat_uint32`), so writing a word back gives its bytes again
(`putUint32_uint32`). On strings of a whole number of words, decoding and encoding are inverse
(`encodeWords_decodeWords`), which makes decoding injective there.
-/

namespace LittleEndian

/-- `binary.LittleEndian.Uint32`: the word of the first four bytes, the least significant first. -/
def uint32 (b : List UInt8) : UInt32 :=
  (b.getD 0 0).toUInt32 ||| (b.getD 1 0).toUInt32 <<< 8 ||| (b.getD 2 0).toUInt32 <<< 16 |||
    (b.getD 3 0).toUInt32 <<< 24

/-- `binary.LittleEndian.PutUint32`: the four bytes of a word. -/
def putUint32 (v : UInt32) : List UInt8 :=
  [v.toUInt8, (v >>> 8).toUInt8, (v >>> 16).toUInt8, (v >>> 24).toUInt8]

/-- `binary.LittleEndian.PutUint64`: the eight bytes of a word. -/
def putUint64 (v : UInt64) : List UInt8 :=
  (List.range 8).map fun i => (v >>> UInt64.ofNat (8 * i)).toUInt8

/-- The loop `data[i] = binary.LittleEndian.Uint32(raw[i*4:])` over `len(raw)/4` words. -/
def decodeWords (raw : List UInt8) : List UInt32 :=
  (List.range (raw.length / 4)).map fun i => uint32 (raw.drop (i * 4))

/-- The loop `binary.LittleEndian.PutUint32(out[i*4:], val)` over the words. -/
def encodeWords (ws : List UInt32) : List UInt8 := ws.flatMap putUint32

@[simp] theorem length_putUint32 (v : UInt32) : (putUint32 v).length = 4 := rfl

@[simp] theorem length_encodeWords (ws : List UInt32) : (encodeWords ws).length = 4 * ws.length := by
  induction ws with
  | nil => rfl
  | cons w ws ih =>
    rw [encodeWords, List.flatMap_cons, List.length_append, ← encodeWords, ih, length_putUint32,
      List.length_cons]
    ring

@[simp] theorem length_decodeWords (raw : List UInt8) : (decodeWords raw).length = raw.length / 4 := by
  rw [decodeWords, List.length_map, List.length_range]

theorem getElem_decodeWords (raw : List UInt8) (i : Nat) (h : i < (decodeWords raw).length) :
    (decodeWords raw)[i] = uint32 (raw.drop (i * 4)) := by
  simp only [decodeWords, List.getElem_map, List.getElem_range]

/-- A word depends on the first four bytes only. -/
theorem uint32_congr {a b : List UInt8} (h : ∀ k < 4, a.getD k 0 = b.getD k 0) :
    uint32 a = uint32 b := by
  rw [uint32, uint32, h 0 (by omega), h 1 (by omega), h 2 (by omega), h 3 (by omega)]

/-- Or-ing a byte shifted past the bits of a word adds it. -/
theorem toNat_or_shiftLeft (a : UInt32) (x : UInt8) (s : UInt32) (k : Nat) (hk : s.toNat = k)
    (hk8 : k + 8 ≤ 32) (ha : a.toNat < 2 ^ k) :
    (a ||| x.toUInt32 <<< s).toNat = a.toNat + 2 ^ k * x.toNat := by
  have hx := x.toNat_lt
  have hlt : x.toNat * 2 ^ k < 2 ^ 32 :=
    calc x.toNat * 2 ^ k < 2 ^ 8 * 2 ^ k := Nat.mul_lt_mul_of_pos_right hx (Nat.two_pow_pos k)
      _ = 2 ^ (8 + k) := (Nat.pow_add 2 8 k).symm
      _ ≤ 2 ^ 32 := Nat.pow_le_pow_right Nat.zero_lt_two (by omega)
  rw [UInt32.toNat_or, UInt32.toNat_shiftLeft, UInt8.toNat_toUInt32, hk,
    Nat.mod_eq_of_lt (show k < 32 by omega), Nat.shiftLeft_eq, Nat.mod_eq_of_lt hlt, Nat.or_comm,
    Nat.mul_comm, ← Nat.two_pow_add_eq_or_of_lt ha, Nat.add_comm]

/-- The value of a word: its bytes weighted by powers of `2 ^ 8`. -/
theorem toNat_uint32 (b : List UInt8) :
    (uint32 b).toNat = (b.getD 0 0).toNat + 2 ^ 8 * (b.getD 1 0).toNat +
      2 ^ 16 * (b.getD 2 0).toNat + 2 ^ 24 * (b.getD 3 0).toNat := by
  have h₀ := (b.getD 0 0).toNat_lt
  have h₁ := (b.getD 1 0).toNat_lt
  have h₂ := (b.getD 2 0).toNat_lt
  have e₁ : ((b.getD 0 0).toUInt32 ||| (b.getD 1 0).toUInt32 <<< 8).toNat =
      (b.getD 0 0).toNat + 2 ^ 8 * (b.getD 1 0).toNat := by
    rw [toNat_or_shiftLeft _ _ 8 8 rfl (by norm_num) (by rwa [UInt8.toNat_toUInt32]),
      UInt8.toNat_toUInt32]
  have e₂ : ((b.getD 0 0).toUInt32 ||| (b.getD 1 0).toUInt32 <<< 8 |||
      (b.getD 2 0).toUInt32 <<< 16).toNat =
      (b.getD 0 0).toNat + 2 ^ 8 * (b.getD 1 0).toNat + 2 ^ 16 * (b.getD 2 0).toNat := by
    rw [toNat_or_shiftLeft _ _ 16 16 rfl (by norm_num) (by rw [e₁]; omega), e₁]
  rw [uint32, toNat_or_shiftLeft _ _ 24 24 rfl (by norm_num) (by rw [e₂]; omega), e₂]

theorem toNat_toUInt8_shiftRight (v s : UInt32) (k : Nat) (hk : s.toNat = k) (hk32 : k < 32) :
    (v >>> s).toUInt8.toNat = v.toNat / 2 ^ k % 2 ^ 8 := by
  rw [UInt32.toNat_toUInt8, UInt32.toNat_shiftRight, hk, Nat.mod_eq_of_lt hk32,
    Nat.shiftRight_eq_div_pow]

/-- Writing a word back gives its four bytes. -/
theorem putUint32_uint32 (a b c d : UInt8) (rest : List UInt8) :
    putUint32 (uint32 (a :: b :: c :: d :: rest)) = [a, b, c, d] := by
  have hv := toNat_uint32 (a :: b :: c :: d :: rest)
  simp only [List.getD_cons_zero, List.getD_cons_succ] at hv
  have ha := a.toNat_lt
  have hb := b.toNat_lt
  have hc := c.toNat_lt
  have hd := d.toNat_lt
  simp only [putUint32, List.cons.injEq, and_true]
  refine ⟨UInt8.toNat_inj.mp ?_, UInt8.toNat_inj.mp ?_, UInt8.toNat_inj.mp ?_,
    UInt8.toNat_inj.mp ?_⟩
  · rw [UInt32.toNat_toUInt8, hv]
    omega
  · rw [toNat_toUInt8_shiftRight _ 8 8 rfl (by norm_num), hv]
    omega
  · rw [toNat_toUInt8_shiftRight _ 16 16 rfl (by norm_num), hv]
    omega
  · rw [toNat_toUInt8_shiftRight _ 24 24 rfl (by norm_num), hv]
    omega

theorem decodeWords_cons (a b c d : UInt8) (rest : List UInt8) :
    decodeWords (a :: b :: c :: d :: rest) = uint32 [a, b, c, d] :: decodeWords rest := by
  have hlen : (a :: b :: c :: d :: rest).length / 4 = rest.length / 4 + 1 := by
    simp only [List.length_cons]
    omega
  rw [decodeWords, hlen, List.range_succ_eq_map, List.map_cons, List.map_map, decodeWords]
  congr 1
  apply List.map_congr_left
  intro i _
  simp only [Function.comp_apply, Nat.succ_mul]
  rfl

theorem encodeWords_decodeWords_of_length (n : Nat) :
    ∀ raw : List UInt8, raw.length = 4 * n → encodeWords (decodeWords raw) = raw := by
  induction n with
  | zero =>
    intro raw h
    rw [List.eq_nil_of_length_eq_zero h]
    rfl
  | succ n ih =>
    intro raw h
    rcases raw with _ | ⟨a, _ | ⟨b, _ | ⟨c, _ | ⟨d, rest⟩⟩⟩⟩
    all_goals simp only [List.length_cons, List.length_nil] at h
    all_goals try omega
    rw [decodeWords_cons, encodeWords, List.flatMap_cons, ← encodeWords, ih rest (by omega),
      putUint32_uint32]
    rfl

/-- Decoding a string of whole words and writing the words back gives the string again. -/
theorem encodeWords_decodeWords (raw : List UInt8) (h : raw.length % 4 = 0) :
    encodeWords (decodeWords raw) = raw :=
  encodeWords_decodeWords_of_length (raw.length / 4) raw (by omega)

theorem decodeWords_inj {a b : List UInt8} (ha : a.length % 4 = 0) (hb : b.length % 4 = 0)
    (h : decodeWords a = decodeWords b) : a = b := by
  rw [← encodeWords_decodeWords a ha, h, encodeWords_decodeWords b hb]

theorem encodeWords_replicate_zero (n : Nat) :
    encodeWords (List.replicate n 0) = List.replicate (4 * n) 0 := by
  induction n with
  | zero => rfl
  | succ n ih =>
    rw [List.replicate_succ, encodeWords, List.flatMap_cons, ← encodeWords, ih,
      show 4 * (n + 1) = 4 + 4 * n by ring, List.replicate_add]
    rfl

theorem decodeWords_replicate_zero (n : Nat) :
    decodeWords (List.replicate (4 * n) 0) = List.replicate n 0 := by
  induction n with
  | zero => rfl
  | succ n ih =>
    rw [show 4 * (n + 1) = 4 * n + 1 + 1 + 1 + 1 by ring, List.replicate_succ, List.replicate_succ,
      List.replicate_succ, List.replicate_succ, decodeWords_cons, ih]
    rfl

/-- The words of a stretch of whole words of a string are the words of that stretch of bytes. -/
theorem decodeWords_extract (raw : List UInt8) (k m : Nat) (h : 4 * (k + m) ≤ raw.length) :
    (decodeWords raw).extract k (k + m) = decodeWords (raw.extract (4 * k) (4 * k + 4 * m)) := by
  rw [List.extract_eq_take_drop, List.extract_eq_take_drop]
  apply List.ext_getElem
  · simp only [List.length_take, List.length_drop, length_decodeWords]
    omega
  · intro j h₁ h₂
    simp only [List.length_take, List.length_drop, length_decodeWords] at h₁
    rw [List.getElem_take, List.getElem_drop, getElem_decodeWords, getElem_decodeWords]
    apply uint32_congr
    intro t ht
    simp only [List.getD_eq_getElem?_getD, List.getElem?_drop, List.getElem?_take]
    rw [if_pos (by omega), show 4 * k + (j * 4 + t) = (k + j) * 4 + t by ring]

end LittleEndian
