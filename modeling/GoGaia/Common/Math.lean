import Mathlib
import GoGaia.Lib.IntBits

/-!
# The 256-bit helpers of `common/math`

`common/math/big.go` on `*big.Int` values, which are unbounded integers here. `U256` masks its
argument with `2 ^ 256 - 1` in place, `S256` reads a word as two's complement, `Byte` picks a byte of
a word through the machine words of `big.Int.Bits`, and `Exp` exponentiates by squaring over those
words, masking after every product.

The mask is reduction modulo `2 ^ 256`, also of a negative integer (`u256_eq_emod`); `Byte` of a
value is its byte `31 - n` counted from the least significant (`byte_eq`); and `Exp` computes the
power modulo `2 ^ 256` (`exp_eq`), the loop over one word by induction on its bits (`expWord_spec`)
and the loop over the words by induction on them (`foldl_expWord`). `big.Int`'s words are 64 bits
wide, as on the 64-bit machines the node runs on.
-/

namespace GoGaia.Math

/-- `tt255`. -/
def tt255 : Int := 2 ^ 255

/-- `tt256`. -/
def tt256 : Int := 2 ^ 256

/-- `tt256m1`. -/
def tt256m1 : Int := tt256 - 1

/-- `wordBits`: the bits of a `big.Word`. -/
def wordBits : Nat := 64

/-- `wordBytes`. -/
def wordBytes : Nat := wordBits / 8

/-- `U256`: `x.And(x, tt256m1)`. -/
def u256 (x : Int) : Int := Int.land x tt256m1

/-- `S256`. -/
def s256 (x : Int) : Int := if x < tt255 then x else x - tt256

/-- `big.Int.Bits`: the machine words of the absolute value, least significant first. -/
def bits (x : Int) : List Nat := Nat.digits (2 ^ wordBits) x.natAbs

/-- `bigEndianByteAt`: byte `n` counted from the least significant. -/
def bigEndianByteAt (bigint : Int) (n : Nat) : Nat :=
  let words := bits bigint
  let i := n / wordBytes
  if i ≥ words.length then 0
  else (words.getD i 0 >>> (8 * (n % wordBytes))) % 256

/-- `Byte`: byte `n` of the `padlength`-byte big-endian form, counted from the most significant. -/
def byte (bigint : Int) (padlength n : Nat) : Nat :=
  if n ≥ padlength then 0 else bigEndianByteAt bigint (padlength - 1 - n)

/-- The inner loop of `Exp` over the bits of one word of the exponent, with the result and the
base's current square. -/
def expWord : Nat → Nat → Int × Int → Int × Int
  | _, 0, rb => rb
  | word, k + 1, (result, base) =>
    let result := if word &&& 1 = 1 then u256 (result * base) else result
    expWord (word >>> 1) k (result, u256 (base * base))

/-- `Exp`. -/
def exp (base exponent : Int) : Int :=
  ((bits exponent).foldl (fun rb word => expWord word wordBits rb) (1, base)).1

/-! ## `U256` -/

/-- `U256` reduces modulo `2 ^ 256`. -/
theorem u256_eq_emod (x : Int) : u256 x = x % 2 ^ 256 :=
  IntBits.land_two_pow_sub_one x 256

theorem u256_nonneg (x : Int) : 0 ≤ u256 x := by
  rw [u256_eq_emod]
  exact Int.emod_nonneg _ (by positivity)

theorem u256_lt (x : Int) : u256 x < 2 ^ 256 := by
  rw [u256_eq_emod]
  exact Int.emod_lt_of_pos _ (by positivity)

theorem u256_modEq (x : Int) : u256 x ≡ x [ZMOD 2 ^ 256] := by
  rw [u256_eq_emod]
  exact Int.mod_modEq _ _

theorem u256_of_lt {x : Int} (h0 : 0 ≤ x) (h : x < 2 ^ 256) : u256 x = x := by
  rw [u256_eq_emod, Int.emod_eq_of_lt h0 h]

/-! ## `Byte` -/

/-- Byte `n` of a value that is not negative, counted from the least significant. -/
theorem bigEndianByteAt_eq (v n : Nat) : bigEndianByteAt v n = v / 2 ^ (8 * n) % 256 := by
  have hb : 1 < 2 ^ wordBits := by decide
  have hi : 64 * (n / 8) + 8 * (n % 8) = 8 * n := by omega
  unfold bigEndianByteAt bits wordBytes
  simp only [Int.natAbs_natCast, show wordBits / 8 = 8 from rfl]
  split_ifs with hlen
  · -- the value ends below the word the byte would be in
    have hlt : v < 2 ^ (64 * (n / 8)) := by
      calc v < (2 ^ wordBits) ^ (Nat.digits (2 ^ wordBits) v).length :=
            Nat.lt_base_pow_length_digits hb
        _ ≤ (2 ^ 64) ^ (n / 8) := Nat.pow_le_pow_right (by decide) hlen
        _ = 2 ^ (64 * (n / 8)) := by rw [← Nat.pow_mul]
    rw [Nat.div_eq_of_lt (lt_of_lt_of_le hlt (Nat.pow_le_pow_right (by decide) (by omega)))]
  · rw [Nat.getD_digits _ _ (by decide), Nat.shiftRight_eq_div_pow]
    have hj : 2 ^ 64 = 2 ^ (8 * (n % 8)) * 2 ^ (64 - 8 * (n % 8)) := by
      rw [← Nat.pow_add]
      congr 1
      omega
    have hdvd : 256 ∣ 2 ^ (64 - 8 * (n % 8)) :=
      (Nat.pow_dvd_pow 2 (show 8 ≤ 64 - 8 * (n % 8) by omega) : 2 ^ 8 ∣ _)
    rw [show (2 : Nat) ^ wordBits = 2 ^ 64 from rfl, ← Nat.pow_mul, hj,
      Nat.mod_mul_right_div_self, Nat.mod_mod_of_dvd _ hdvd, Nat.div_div_eq_div_mul,
      ← Nat.pow_add, hi]

/-- `Byte` of a 32-byte word: byte `31 - n` counted from the least significant, and zero from
`n = 32` on. -/
theorem byte_eq (v n : Nat) :
    byte v 32 n = if n < 32 then v / 2 ^ (8 * (31 - n)) % 256 else 0 := by
  unfold byte
  split_ifs with h₁ h₂
  · omega
  · rfl
  · exact bigEndianByteAt_eq v (32 - 1 - n)
  · omega

/-! ## `Exp` -/

/-- One word of the exponent, `k` of its bits: the result is multiplied by the base to the power of
those bits, and the base is squared `k` times. -/
theorem expWord_spec (word k : Nat) (r B : Int) (hr₀ : 0 ≤ r) (hr : r < 2 ^ 256) :
    (expWord word k (r, B)).1 = r * B ^ (word % 2 ^ k) % 2 ^ 256 ∧
      (expWord word k (r, B)).2 ≡ B ^ 2 ^ k [ZMOD 2 ^ 256] := by
  induction k generalizing word r B with
  | zero =>
    simp only [expWord, pow_zero, Nat.mod_one, mul_one, pow_one]
    exact ⟨(Int.emod_eq_of_lt hr₀ hr).symm, Int.ModEq.refl _⟩
  | succ k ih =>
    -- the low bit goes into the result, the rest into the loop on the squared base
    set r₁ := if word &&& 1 = 1 then u256 (r * B) else r with hr₁
    have hr₁₀ : 0 ≤ r₁ := by
      rw [hr₁]
      split_ifs
      · exact u256_nonneg _
      · exact hr₀
    have hr₁lt : r₁ < 2 ^ 256 := by
      rw [hr₁]
      split_ifs
      · exact u256_lt _
      · exact hr
    have hstep : r₁ ≡ r * B ^ (word % 2) [ZMOD 2 ^ 256] := by
      rw [hr₁, ← Nat.and_one_is_mod]
      split_ifs with h
      · rw [h, pow_one]
        exact u256_modEq _
      · rw [show word &&& 1 = 0 by have := Nat.and_one_is_mod word; omega, pow_zero, mul_one]
    have hsq : u256 (B * B) ≡ B ^ 2 [ZMOD 2 ^ 256] := by
      rw [sq]
      exact u256_modEq _
    have hshift : word >>> 1 = word / 2 := by rw [Nat.shiftRight_eq_div_pow, pow_one]
    obtain ⟨h₁, h₂⟩ := ih (word / 2) r₁ (u256 (B * B)) hr₁₀ hr₁lt
    have hsplit : word % 2 ^ (k + 1) = word % 2 + 2 * (word / 2 % 2 ^ k) := by
      rw [Nat.pow_succ', Nat.mod_mul]
    refine ⟨?_, ?_⟩
    · show (expWord (word >>> 1) k (r₁, u256 (B * B))).1 = _
      rw [hshift, h₁]
      apply Int.ModEq.eq
      calc r₁ * u256 (B * B) ^ (word / 2 % 2 ^ k)
          ≡ r * B ^ (word % 2) * (B ^ 2) ^ (word / 2 % 2 ^ k) [ZMOD 2 ^ 256] :=
            hstep.mul (hsq.pow _)
        _ = r * B ^ (word % 2 ^ (k + 1)) := by rw [hsplit, pow_add, pow_mul, mul_assoc]
    · show (expWord (word >>> 1) k (r₁, u256 (B * B))).2 ≡ _ [ZMOD 2 ^ 256]
      rw [hshift]
      calc _ ≡ u256 (B * B) ^ 2 ^ k [ZMOD 2 ^ 256] := h₂
        _ ≡ (B ^ 2) ^ 2 ^ k [ZMOD 2 ^ 256] := hsq.pow _
        _ = B ^ 2 ^ (k + 1) := by rw [← pow_mul, ← Nat.pow_succ']

/-- The words of the exponent in turn, least significant first: the result is multiplied by the
base to the power of the number they spell. -/
theorem foldl_expWord (ws : List Nat) (hw : ∀ w ∈ ws, w < 2 ^ wordBits) (r B : Int) (hr₀ : 0 ≤ r)
    (hr : r < 2 ^ 256) :
    (ws.foldl (fun rb word => expWord word wordBits rb) (r, B)).1 =
      r * B ^ Nat.ofDigits (2 ^ wordBits) ws % 2 ^ 256 := by
  induction ws generalizing r B with
  | nil =>
    simp only [List.foldl_nil, Nat.ofDigits_nil, pow_zero, mul_one]
    exact (Int.emod_eq_of_lt hr₀ hr).symm
  | cons w ws ih =>
    obtain ⟨h₁, h₂⟩ := expWord_spec w wordBits r B hr₀ hr
    rw [Nat.mod_eq_of_lt (hw w (List.mem_cons_self ..))] at h₁
    simp only [List.foldl_cons]
    generalize expWord w wordBits (r, B) = p at h₁ h₂
    obtain ⟨r', B'⟩ := p
    dsimp only at h₁ h₂
    have hr'₀ : 0 ≤ r' := by
      rw [h₁]
      exact Int.emod_nonneg _ (by positivity)
    have hr' : r' < 2 ^ 256 := by
      rw [h₁]
      exact Int.emod_lt_of_pos _ (by positivity)
    rw [ih (fun v hv => hw v (List.mem_cons_of_mem _ hv)) r' B' hr'₀ hr']
    apply Int.ModEq.eq
    calc r' * B' ^ Nat.ofDigits (2 ^ wordBits) ws
        ≡ r * B ^ w * (B ^ 2 ^ wordBits) ^ Nat.ofDigits (2 ^ wordBits) ws [ZMOD 2 ^ 256] :=
          (h₁ ▸ Int.mod_modEq _ _).mul (h₂.pow _)
      _ = r * B ^ Nat.ofDigits (2 ^ wordBits) (w :: ws) := by
          rw [Nat.ofDigits_cons, pow_add, pow_mul, mul_assoc]

/-- `Exp` is the power modulo `2 ^ 256`, for every base and every exponent that is not
negative. -/
theorem exp_eq (b : Int) (e : Nat) : exp b e = b ^ e % 2 ^ 256 := by
  unfold exp bits
  rw [Int.natAbs_natCast, foldl_expWord _ (fun w hw => Nat.digits_lt_base (by norm_num [wordBits]) hw) 1 b
    zero_le_one (by norm_num), Nat.ofDigits_digits, one_mul]

end GoGaia.Math
