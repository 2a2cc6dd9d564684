import Mathlib

/-!
# Bit vectors stored in bytes

A byte string read as a vector of bits, most significant bit first: bit `j` is bit `7 - j % 8` of
byte `j / 8`, and the bits past the end are clear (`ByteBits.get`). The byte-wise `and` and `or`
of two strings of one length act bit by bit (`get_zipWith_and`, `get_zipWith_or`); `or`-ing the
mask of bit `k` into its byte sets that bit and no other (`get_modify_or`); and a string has a set
bit exactly when one of its bytes is not zero (`any_ne_zero_iff`).

The masks are the bytes `1 <<< k` for `k < 8` (`toNat_one_shiftLeft`), so a program that tests a
bit as `b &&& (1 <<< k) ≠ 0` reads `Nat.testBit` of the byte (`and_one_shiftLeft_ne_zero`).
-/

namespace ByteBits

theorem and_two_pow_ne_zero_iff (x k : Nat) : x &&& 2 ^ k ≠ 0 ↔ x.testBit k = true := by
  constructor
  · intro h
    by_contra hb
    apply h
    apply Nat.eq_of_testBit_eq
    intro i
    simp only [Nat.testBit_and, Nat.testBit_two_pow, Nat.zero_testBit]
    by_cases hi : k = i
    · subst hi
      simpa using hb
    · simp [hi]
  · intro hb h
    have := congrArg (Nat.testBit · k) h
    simp [Nat.testBit_and, hb] at this

theorem toNat_one_shiftLeft {k : Nat} (hk : k < 8) :
    ((1 : UInt8) <<< UInt8.ofNat k).toNat = 2 ^ k := by
  interval_cases k <;> rfl

/-- Testing a byte against the mask `1 <<< k` reads bit `k`. -/
theorem and_one_shiftLeft_ne_zero (x : UInt8) {k : Nat} (hk : k < 8) :
    x &&& (1 <<< UInt8.ofNat k) ≠ 0 ↔ x.toNat.testBit k = true := by
  rw [← and_two_pow_ne_zero_iff, ← toNat_one_shiftLeft hk, ← UInt8.toNat_and, ne_eq, ne_eq,
    ← UInt8.toNat_inj, UInt8.toNat_zero]

/-- A byte that is not zero has one of its eight bits set. -/
theorem exists_testBit_of_ne_zero {x : UInt8} (h : x ≠ 0) : ∃ m < 8, x.toNat.testBit m = true := by
  have hx : x.toNat ≠ 0 := fun h' => h (UInt8.toNat_inj.mp (by rw [h', UInt8.toNat_zero]))
  obtain ⟨m, hm⟩ := Nat.exists_testBit_of_ne_zero hx
  refine ⟨m, ?_, hm⟩
  by_contra hge
  have hlt : x.toNat < 2 ^ m :=
    lt_of_lt_of_le x.toNat_lt (Nat.pow_le_pow_right (by decide) (by omega))
  rw [Nat.testBit_lt_two_pow hlt] at hm
  cases hm

/-- Bit `j` of a byte string, most significant bit first; the bits past the end are clear. -/
def get (v : List UInt8) (j : Nat) : Bool := (v.getD (j / 8) 0).toNat.testBit (7 - j % 8)

theorem get_of_length_le {v : List UInt8} {j : Nat} (h : v.length ≤ j / 8) : get v j = false := by
  rw [get, List.getD_eq_default _ _ h, UInt8.toNat_zero, Nat.zero_testBit]

theorem get_of_getD_eq_zero {v : List UInt8} {j : Nat} (h : v.getD (j / 8) 0 = 0) :
    get v j = false := by
  rw [get, h, UInt8.toNat_zero, Nat.zero_testBit]

theorem getD_zipWith {f : UInt8 → UInt8 → UInt8} {a b : List UInt8} (hab : a.length = b.length)
    (h0 : f 0 0 = 0) (k : Nat) : (List.zipWith f a b).getD k 0 = f (a.getD k 0) (b.getD k 0) := by
  simp only [List.getD_eq_getElem?_getD, List.getElem?_zipWith]
  by_cases hk : k < a.length
  · rw [List.getElem?_eq_getElem hk, List.getElem?_eq_getElem (hab ▸ hk)]
    rfl
  · rw [List.getElem?_eq_none (by omega), List.getElem?_eq_none (by omega)]
    exact h0.symm

theorem get_zipWith_and {a b : List UInt8} (hab : a.length = b.length) (j : Nat) :
    get (List.zipWith (· &&& ·) a b) j = (get a j && get b j) := by
  simp only [get, getD_zipWith hab (rfl : (0 : UInt8) &&& 0 = 0), UInt8.toNat_and, Nat.testBit_and]

theorem get_zipWith_or {a b : List UInt8} (hab : a.length = b.length) (j : Nat) :
    get (List.zipWith (· ||| ·) a b) j = (get a j || get b j) := by
  simp only [get, getD_zipWith hab (rfl : (0 : UInt8) ||| 0 = 0), UInt8.toNat_or, Nat.testBit_or]

theorem get_replicate (n : Nat) (c : UInt8) (j : Nat) :
    get (List.replicate n c) j = (decide (j / 8 < n) && c.toNat.testBit (7 - j % 8)) := by
  by_cases h : j / 8 < n <;> simp [get, List.getD_eq_getElem?_getD, h]

/-- A string of `0xff` bytes has every bit set up to its end. -/
theorem get_replicate_ff (n j : Nat) : get (List.replicate n 0xff) j = decide (j / 8 < n) := by
  have h255 : ∀ m < 8, (255 : Nat).testBit m = true := by decide
  rw [get_replicate]
  simp [h255 (7 - j % 8) (by omega)]

/-- `or`-ing the mask of bit `k` into its byte sets bit `k`, and no other bit. -/
theorem get_modify_or (v : List UInt8) (k j : Nat) :
    get (v.modify (k / 8) (· ||| (1 <<< UInt8.ofNat (7 - k % 8)))) j =
      (get v j || decide (j = k ∧ k / 8 < v.length)) := by
  unfold get
  simp only [List.getD_eq_getElem?_getD, List.getElem?_modify]
  by_cases hjk : j / 8 = k / 8
  · -- the bit is in the byte the mask goes into
    rw [hjk]
    by_cases hlen : k / 8 < v.length
    · rw [List.getElem?_eq_getElem hlen]
      simp only [Option.map_eq_map, Option.map_some, if_true, Option.getD_some, UInt8.toNat_or,
        toNat_one_shiftLeft (show 7 - k % 8 < 8 by omega), Nat.testBit_or, Nat.testBit_two_pow]
      have hiff : (7 - k % 8 = 7 - j % 8) ↔ (j = k ∧ k / 8 < v.length) := by omega
      simp only [hiff]
    · rw [List.getElem?_eq_none (by omega)]
      simp [hlen]
  · have hne : ¬(j = k ∧ k / 8 < v.length) := fun h => hjk (by rw [h.1])
    simp [Ne.symm hjk, hne]

/-- A byte string has a set bit exactly when one of its bytes is not zero. -/
theorem any_ne_zero_iff (v : List UInt8) : v.any (· != 0) = true ↔ ∃ j, get v j = true := by
  rw [List.any_eq_true]
  constructor
  · rintro ⟨x, hx, hne⟩
    obtain ⟨k, hk, rfl⟩ := List.getElem_of_mem hx
    obtain ⟨m, hm, hbit⟩ := exists_testBit_of_ne_zero (by simpa using hne)
    -- the bit `m` of byte `k` is bit `8 * k + (7 - m)` of the string
    refine ⟨8 * k + (7 - m), ?_⟩
    have hdiv : (8 * k + (7 - m)) / 8 = k := by omega
    have hmod : 7 - (8 * k + (7 - m)) % 8 = m := by omega
    rw [get, hdiv, hmod, List.getD_eq_getElem _ _ hk]
    exact hbit
  · rintro ⟨j, hj⟩
    by_cases hlen : j / 8 < v.length
    · refine ⟨v[j / 8], List.getElem_mem hlen, ?_⟩
      have hne : v[j / 8] ≠ 0 := by
        intro h0
        rw [get_of_getD_eq_zero (by rw [List.getD_eq_getElem _ _ hlen, h0])] at hj
        cases hj
      simpa using hne
    · rw [get_of_length_le (by omega)] at hj
      cases hj

end ByteBits
