import Mathlib

/-!
# Unbounded integers as two's complement bit strings

Arbitrary-precision integers whose bitwise operations read a negative number as the infinite
two's complement string (`Int.land`, `Int.lor`, `Int.lnot`), and whose quotient and remainder are
Euclidean, as `math/big`'s are. Masking with `2 ^ k - 1` is reduction modulo `2 ^ k`, for negative
numbers too (`land_two_pow_sub_one`), and or-ing a number below `2 ^ k` with the complement of that
mask sets every bit from `k` on (`lor_lnot_two_pow_sub_one`).

Truncated division and remainder (`Int.tdiv`, `Int.tmod`) are the Euclidean ones of the absolute
values with a sign put back: that of the product for the quotient (`abs_ediv_mul_sign`), that of the
dividend for the remainder (`abs_emod_mul_sign`).

Go's int64 arithmetic wraps its results into `[-2^63, 2^63)` (`int64`); on a value in that range
it is the identity (`int64_of_inInt64`), and wrapping a summand first does not change a wrapped
sum (`int64_add_int64`, `int64_sum_map_int64`).
-/

namespace IntBits

/-- The bits of `2 ^ k - 1` that `m` does not have: the complement of `m` below `2 ^ k`. -/
theorem ldiff_two_pow_sub_one (k m : Nat) : Nat.ldiff (2 ^ k - 1) m = 2 ^ k - 1 - m % 2 ^ k := by
  have hnot : (~~~BitVec.ofNat k m).toNat = 2 ^ k - 1 - m % 2 ^ k := by
    rw [BitVec.toNat_not, BitVec.toNat_ofNat]
  rw [← hnot]
  apply Nat.eq_of_testBit_eq
  intro i
  rw [Nat.testBit_ldiff, Nat.testBit_two_pow_sub_one, BitVec.testBit_toNat, BitVec.getLsbD_not,
    BitVec.getLsbD_ofNat]
  by_cases hi : i < k <;> simp [hi]

theorem two_pow_sub_one_eq (k : Nat) : (2 : Int) ^ k - 1 = ((2 ^ k - 1 : Nat) : Int) := by
  have := Nat.one_le_two_pow (n := k)
  push_cast [this]
  rfl

/-- Masking with `2 ^ k - 1` reduces modulo `2 ^ k`. -/
theorem land_two_pow_sub_one (x : Int) (k : Nat) : Int.land x (2 ^ k - 1) = x % 2 ^ k := by
  have hpos : (0 : Int) < 2 ^ k := by positivity
  rw [two_pow_sub_one_eq]
  cases x with
  | ofNat m =>
    show ((m &&& (2 ^ k - 1) : Nat) : Int) = _
    rw [Nat.and_two_pow_sub_one_eq_mod, Int.natCast_mod]
    rfl
  | negSucc m =>
    show ((Nat.ldiff (2 ^ k - 1) m : Nat) : Int) = _
    rw [ldiff_two_pow_sub_one, Int.negSucc_emod _ hpos]
    have hlt : m % 2 ^ k < 2 ^ k := Nat.mod_lt _ (Nat.two_pow_pos k)
    rw [Nat.cast_sub (by omega), Nat.cast_sub Nat.one_le_two_pow, Int.natCast_mod]
    push_cast
    rfl

/-- Or-ing a number with the complement of the mask `2 ^ k - 1` sets every bit from `k` on: the
number's low bits, less `2 ^ k`. -/
theorem lor_lnot_two_pow_sub_one (m k : Nat) :
    Int.lor m (Int.lnot (2 ^ k - 1)) = (m % 2 ^ k : Nat) - 2 ^ k := by
  rw [two_pow_sub_one_eq]
  show Int.negSucc (Nat.ldiff (2 ^ k - 1) m) = _
  rw [ldiff_two_pow_sub_one, Int.negSucc_eq]
  have hlt : m % 2 ^ k < 2 ^ k := Nat.mod_lt _ (Nat.two_pow_pos k)
  push_cast [Nat.one_le_two_pow, Nat.le_sub_one_of_lt hlt]
  ring

/-- The truncated quotient: the Euclidean one of the absolute values, negated when exactly one of
the numbers is negative. -/
theorem abs_ediv_mul_sign (x y : Int) :
    |x| / |y| * (if x * y < 0 then -1 else 1) = x.tdiv y := by
  rcases le_or_gt 0 x with hx | hx <;> rcases lt_trichotomy y 0 with hy | hy | hy
  · rcases hx.lt_or_eq with hx | rfl
    · rw [abs_of_pos hx, abs_of_neg hy, if_pos (mul_neg_of_pos_of_neg hx hy), mul_neg_one,
        ← Int.tdiv_eq_ediv_of_nonneg hx.le, Int.tdiv_neg, neg_neg]
    · simp
  · subst hy
    simp
  · rw [abs_of_nonneg hx, abs_of_pos hy, if_neg (not_lt.mpr (mul_nonneg hx hy.le)), mul_one,
      Int.tdiv_eq_ediv_of_nonneg hx]
  · rw [abs_of_neg hx, abs_of_neg hy, if_neg (not_lt.mpr (mul_nonneg_of_nonpos_of_nonpos hx.le hy.le)),
      mul_one, ← Int.tdiv_eq_ediv_of_nonneg (by omega), Int.tdiv_neg, Int.neg_tdiv, neg_neg]
  · subst hy
    simp
  · rw [abs_of_neg hx, abs_of_pos hy, if_pos (mul_neg_of_neg_of_pos hx hy), mul_neg_one,
      ← Int.tdiv_eq_ediv_of_nonneg (by omega), Int.neg_tdiv, neg_neg]

/-- The truncated remainder: the Euclidean one of the absolute values, with the dividend's sign. -/
theorem abs_emod_mul_sign (x y : Int) :
    |x| % |y| * (if x < 0 then -1 else 1) = x.tmod y := by
  have habs : ∀ z : Int, z.tmod |y| = z.tmod y := by
    intro z
    rcases le_or_gt 0 y with hy | hy
    · rw [abs_of_nonneg hy]
    · rw [abs_of_neg hy, Int.tmod_neg]
  rcases le_or_gt 0 x with hx | hx
  · rw [abs_of_nonneg hx, if_neg (not_lt.mpr hx), mul_one, ← Int.tmod_eq_emod_of_nonneg hx, habs]
  · rw [abs_of_neg hx, if_pos hx, mul_neg_one, ← Int.tmod_eq_emod_of_nonneg (by omega), habs,
      Int.neg_tmod, neg_neg]

/-! ## Go's int64 arithmetic -/

/-- Go's int64 arithmetic: the result wrapped into `[-2^63, 2^63)`. -/
def int64 (x : Int) : Int := x.bmod (2 ^ 64)

/-- An int64 value, the range of every weight the source stores. -/
def InInt64 (x : Int) : Prop := -2 ^ 63 ≤ x ∧ x < 2 ^ 63

theorem int64_of_inInt64 {x : Int} (h : InInt64 x) : int64 x = x :=
  Int.bmod_eq_of_le (by simpa using h.1) (by simpa using h.2)

theorem int64_add_int64 (x y : Int) : int64 (int64 x + y) = int64 (x + y) :=
  Int.bmod_add_bmod

theorem int64_add_int64_right (x y : Int) : int64 (x + int64 y) = int64 (x + y) :=
  Int.add_bmod_bmod

/-- Wrapping each summand does not change a wrapped sum. -/
theorem int64_sum_map_int64 : ∀ l : List Int, int64 (l.map int64).sum = int64 l.sum
  | [] => rfl
  | x :: l => by
    rw [List.map_cons, List.sum_cons, List.sum_cons]
    calc int64 (int64 x + (l.map int64).sum) = int64 (x + int64 (l.map int64).sum) := by
          rw [int64_add_int64, int64_add_int64_right]
      _ = int64 (x + int64 l.sum) := by rw [int64_sum_map_int64 l]
      _ = int64 (x + l.sum) := int64_add_int64_right _ _

end IntBits
