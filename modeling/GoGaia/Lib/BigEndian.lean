import Mathlib

/-!
# Minimal big-endian byte strings

The `k`-byte big-endian form of a natural number (`BigEndian.bytes`), the value of a byte string
(`BigEndian.value`), and the number of bytes of the shortest form of a number
(`BigEndian.minLen`). A format that writes its integers and sizes in shortest form rests on three
facts: the value of the `k`-byte form is the number modulo `256 ^ k` (`value_bytes`), the
`k`-byte form of a `k`-byte string's value is the string itself (`bytes_value`), and a string
whose first byte is not zero is the shortest form of its value (`minLen_value`).
-/

namespace BigEndian

/-- The `k` low bytes of `i`, most significant first. -/
def bytes : Nat → Nat → List UInt8
  | 0, _ => []
  | k + 1, i => bytes k (i / 256) ++ [UInt8.ofNat i]

/-- The big-endian value of a byte string. -/
def value (bs : List UInt8) : Nat :=
  bs.foldl (fun acc b => acc * 256 + b.toNat) 0

/-- The number of bytes of the shortest big-endian form of `i`: one byte for `i < 256`, one more
for each further factor `256`. -/
def minLen (i : Nat) : Nat :=
  if i < 256 then 1 else minLen (i / 256) + 1
termination_by i
decreasing_by omega

@[simp] theorem length_bytes (k i : Nat) : (bytes k i).length = k := by
  induction k generalizing i with
  | zero => rfl
  | succ k ih => simp [bytes, ih]

/-- Folding from an accumulator shifts the accumulator past the string. -/
theorem foldl_eq (acc : Nat) (bs : List UInt8) :
    bs.foldl (fun acc b => acc * 256 + b.toNat) acc = acc * 256 ^ bs.length + value bs := by
  induction bs generalizing acc with
  | nil => simp [value]
  | cons b bs ih =>
    simp only [value, List.foldl_cons] at ih ⊢
    rw [ih, ih (0 * 256 + b.toNat), List.length_cons, Nat.pow_succ]
    ring

@[simp] theorem value_nil : value [] = 0 := rfl

theorem value_cons (b : UInt8) (bs : List UInt8) :
    value (b :: bs) = b.toNat * 256 ^ bs.length + value bs := by
  simp only [value, List.foldl_cons]
  rw [foldl_eq]
  simp [value]

@[simp] theorem value_append_singleton (bs : List UInt8) (b : UInt8) :
    value (bs ++ [b]) = value bs * 256 + b.toNat := by
  simp [value]

/-- Leading zero bytes do not change the value. -/
@[simp] theorem value_replicate_zero_append (n : Nat) (bs : List UInt8) :
    value (List.replicate n 0 ++ bs) = value bs := by
  induction n with
  | zero => rfl
  | succ n ih => rw [List.replicate_succ, List.cons_append, value_cons, ih]; simp

theorem value_lt (bs : List UInt8) : value bs < 256 ^ bs.length := by
  induction bs with
  | nil => simp
  | cons b bs ih =>
    have hb : b.toNat + 1 ≤ 256 := b.toNat_lt
    have := Nat.mul_le_mul_right (256 ^ bs.length) hb
    rw [value_cons, List.length_cons, Nat.pow_succ]
    rw [Nat.succ_mul] at this
    omega

theorem value_bytes (k i : Nat) : value (bytes k i) = i % 256 ^ k := by
  induction k generalizing i with
  | zero => simp [bytes, Nat.mod_one]
  | succ k ih =>
    rw [bytes, value_append_singleton, ih, UInt8.toNat_ofNat', show (2 : Nat) ^ 8 = 256 from rfl]
    rw [Nat.pow_succ, Nat.mul_comm (256 ^ k) 256, Nat.mod_mul]
    ring

/-- A digit and a remainder below the base are determined by the number they make. -/
theorem mul_add_inj {N a b x y : Nat} (hx : x < N) (hy : y < N) (h : a * N + x = b * N + y) :
    a = b ∧ x = y := by
  have hN : 0 < N := by omega
  have hdiv : ∀ {c z : Nat}, z < N → (c * N + z) / N = c := fun {c z} hz => by
    rw [Nat.add_comm, Nat.add_mul_div_right _ _ hN, Nat.div_eq_of_lt hz, Nat.zero_add]
  have hmod : ∀ {c z : Nat}, z < N → (c * N + z) % N = z := fun {c z} hz => by
    rw [Nat.add_comm, Nat.add_mul_mod_self_right, Nat.mod_eq_of_lt hz]
  exact ⟨by rw [← hdiv (c := a) hx, h, hdiv hy], by rw [← hmod (c := a) hx, h, hmod hy]⟩

/-- Byte strings of one length are determined by their values. -/
theorem eq_of_value_eq : ∀ {bs cs : List UInt8},
    bs.length = cs.length → value bs = value cs → bs = cs
  | [], [], _, _ => rfl
  | b :: bs, c :: cs, hl, hv => by
    have hl' : bs.length = cs.length := by simpa using hl
    rw [value_cons, value_cons, hl'] at hv
    have hb := value_lt bs
    rw [hl'] at hb
    obtain ⟨hbc, hrest⟩ := mul_add_inj hb (value_lt cs) hv
    rw [UInt8.toNat_inj.mp hbc, eq_of_value_eq hl' hrest]

/-- The `k`-byte form of a `k`-byte string's value is that string. -/
theorem bytes_value (bs : List UInt8) : bytes bs.length (value bs) = bs :=
  eq_of_value_eq (length_bytes _ _)
    (by rw [value_bytes, Nat.mod_eq_of_lt (value_lt bs)])

/-! ## The shortest form -/

theorem minLen_of_lt {i : Nat} (h : i < 256) : minLen i = 1 := by
  rw [minLen, if_pos h]

theorem minLen_of_le {i : Nat} (h : 256 ≤ i) : minLen i = minLen (i / 256) + 1 := by
  rw [minLen, if_neg (by omega)]

theorem minLen_pos (i : Nat) : 0 < minLen i := by
  unfold minLen; split <;> omega

theorem lt_pow_minLen (i : Nat) : i < 256 ^ minLen i := by
  induction i using Nat.strongRecOn with
  | _ i ih =>
    rcases Nat.lt_or_ge i 256 with h | h
    · rw [minLen_of_lt h]; simpa using h
    · rw [minLen_of_le h, Nat.pow_succ]
      have := ih (i / 256) (by omega)
      omega

/-- A positive number needs every byte of its shortest form. -/
theorem pow_minLen_le {i : Nat} (hi : 0 < i) : 256 ^ (minLen i - 1) ≤ i := by
  induction i using Nat.strongRecOn with
  | _ i ih =>
    rcases Nat.lt_or_ge i 256 with h | h
    · rw [minLen_of_lt h]; simp; omega
    · rw [minLen_of_le h, Nat.add_sub_cancel]
      have h1 := ih (i / 256) (by omega) (by omega)
      obtain ⟨m, hm⟩ : ∃ m, minLen (i / 256) = m + 1 :=
        ⟨_, (Nat.succ_pred_eq_of_pos (minLen_pos _)).symm⟩
      rw [hm, Nat.add_sub_cancel] at h1
      rw [hm, Nat.pow_succ]
      omega

/-- The shortest form fits in `k ≥ 1` bytes exactly when the number is below `256 ^ k`. -/
theorem minLen_le_iff {i k : Nat} (hk : 1 ≤ k) : minLen i ≤ k ↔ i < 256 ^ k := by
  constructor
  · intro h
    exact Nat.lt_of_lt_of_le (lt_pow_minLen i) (Nat.pow_le_pow_right (by omega) h)
  · intro h
    by_contra hlt
    rcases Nat.eq_zero_or_pos i with rfl | hpos
    · rw [minLen_of_lt (by omega)] at hlt; omega
    · have h1 := pow_minLen_le hpos
      have h2 := Nat.pow_le_pow_right (show 0 < 256 by omega) (show k ≤ minLen i - 1 by omega)
      omega

/-- A string whose first byte is not zero is the shortest form of its value. -/
theorem minLen_value {b : UInt8} {bs : List UInt8} (hb : b ≠ 0) :
    minLen (value (b :: bs)) = bs.length + 1 := by
  have hb' : 0 < b.toNat := by
    rcases Nat.eq_zero_or_pos b.toNat with h | h
    · exact absurd (UInt8.toNat_inj.mp (by simpa using h)) hb
    · exact h
  have hlo : 256 ^ bs.length ≤ value (b :: bs) := by
    rw [value_cons]
    exact Nat.le_add_right_of_le (Nat.le_mul_of_pos_left _ hb')
  have hhi := value_lt (b :: bs)
  rw [List.length_cons] at hhi
  have hle := (minLen_le_iff (Nat.succ_pos _)).mpr hhi
  apply Nat.le_antisymm hle
  rcases Nat.eq_zero_or_pos bs.length with h0 | hn
  · rw [h0]; exact minLen_pos _
  · by_contra hlt
    have := (minLen_le_iff (i := value (b :: bs)) hn).mp (by omega)
    omega

/-- The first byte of the shortest form of a positive number is not zero. -/
theorem bytes_minLen_head {i : Nat} (hi : 0 < i) :
    ∃ b bs, bytes (minLen i) i = b :: bs ∧ b ≠ 0 := by
  obtain ⟨m, hm⟩ : ∃ m, minLen i = m + 1 := ⟨_, (Nat.succ_pred_eq_of_pos (minLen_pos i)).symm⟩
  have hlen := length_bytes (minLen i) i
  match h : bytes (minLen i) i, hlen with
  | [], hlen => simp at hlen; omega
  | b :: bs, hlen =>
    refine ⟨b, bs, rfl, fun hb0 => ?_⟩
    have hval := value_bytes (minLen i) i
    rw [h, value_cons, hb0, Nat.mod_eq_of_lt (lt_pow_minLen i)] at hval
    have hbs : bs.length = m := by simp only [List.length_cons] at hlen; omega
    have h1 := value_lt bs
    have h2 := pow_minLen_le hi
    rw [hm, Nat.add_sub_cancel, ← hbs] at h2
    simp at hval
    omega

/-! ## Bits of the value -/

/-- Bit `i` of the value of a byte string is bit `i % 8` of the byte `i / 8` places from the end,
and clear past the first byte. -/
theorem testBit_value (bs : List UInt8) (i : Nat) :
    (value bs).testBit i =
      (decide (i / 8 < bs.length) && (bs.getD (bs.length - 1 - i / 8) 0).toNat.testBit (i % 8)) := by
  induction bs using List.reverseRecOn generalizing i with
  | nil => simp
  | append_singleton bs b ih =>
    have hsplit : value (bs ++ [b]) = 2 ^ 8 * value bs + b.toNat := by
      rw [value_append_singleton]
      ring
    rw [hsplit, Nat.testBit_two_pow_mul_add _ b.toNat_lt, List.length_append, List.length_singleton]
    by_cases hi : i < 8
    · -- the last byte holds the eight low bits
      have hdiv : i / 8 = 0 := by omega
      rw [if_pos hi, hdiv, Nat.mod_eq_of_lt hi, Nat.add_sub_cancel, Nat.sub_zero,
        List.getD_eq_getElem _ _ (by simp)]
      simp
    · -- the other bits are those of the bytes before it, eight places lower
      rw [if_neg hi, ih]
      have hdiv : (i - 8) / 8 = i / 8 - 1 := by omega
      have hmod : (i - 8) % 8 = i % 8 := by omega
      rw [hdiv, hmod]
      by_cases hlen : i / 8 - 1 < bs.length
      · have hidx : bs.length - 1 - (i / 8 - 1) < bs.length := by omega
        have hidx' : bs.length + 1 - 1 - i / 8 = bs.length - 1 - (i / 8 - 1) := by omega
        rw [hidx', List.getD_eq_getElem _ _ hidx, List.getD_eq_getElem _ _ (by simp; omega),
          List.getElem_append_left hidx]
        simp [hlen, show i / 8 < bs.length + 1 by omega]
      · simp [hlen, show ¬(i / 8 < bs.length + 1) by omega]

/-! ## Byte arithmetic -/

/-- Adding a small number to a byte does not wrap around. -/
theorem toNat_add_ofNat {t : UInt8} {n : Nat} (h : t.toNat + n < 256) :
    (t + UInt8.ofNat n).toNat = t.toNat + n := by
  rw [UInt8.toNat_add, UInt8.toNat_ofNat']
  have : n % 2 ^ 8 = n := Nat.mod_eq_of_lt (by simp; omega)
  rw [this, Nat.mod_eq_of_lt (by simp; omega)]

theorem toNat_sub_of_le' {b c : UInt8} (h : c.toNat ≤ b.toNat) :
    (b - c).toNat = b.toNat - c.toNat :=
  UInt8.toNat_sub_of_le _ _ (UInt8.le_iff_toNat_le.mpr h)

end BigEndian
