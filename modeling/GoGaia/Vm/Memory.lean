import Mathlib

/-!
# Memory expansion and its gas

`core/vm/memory.go` and `memoryGasCost` of `core/vm/gas_table.go`. The memory of a call is a
byte store that only grows, in whole 32-byte words, and `lastGasCost` remembers the fee charged
for the memory so far. Before an operation that touches memory runs, `Interpreter.Run` rounds the
size the operation needs up to words (`toWordSize`, `math.SafeMul`), the operation's gas
function charges `memoryGasCost` for growing the memory to that size, and `Resize` grows it
(`expand`).

The fee for `w` words is `memCost w = 3 * w + w * w / 512`. `memoryGasCost` computes it in
`uint64` arithmetic, and its bound `0xffffffffe0` admits word counts up to `2 ^ 35 - 1`, whose
square does not fit in 64 bits. Below `2 ^ 32` words every fee is exact: `lastGasCost` is the
cost of the memory after every step of a run and the fees add up to the cost of the final
memory (`expandAll_cost`). At `2 ^ 32` words the square wraps to zero
(`memoryGasCost_square_wraps`).
-/

namespace GoGaia.Vm

/-- `Memory`: the byte store and the fee charged for it so far. -/
structure Memory where
  store : List UInt8
  lastGasCost : UInt64
deriving Repr, DecidableEq, Inhabited

/-- The errors of the memory sizing: `errGasUintOverflow` and `ErrOutOfGas`. -/
inductive VmError where
  | gasUintOverflow
  | outOfGas
deriving Repr, DecidableEq, Inhabited

namespace Memory

/-- `NewMemory`. -/
def empty : Memory := ⟨[], 0⟩

/-- `Len`. -/
def len (m : Memory) : Nat := m.store.length

/-- `Resize`: grows the store with zero bytes to `size`. -/
def resize (m : Memory) (size : UInt64) : Memory :=
  if m.len < size.toNat then { m with store := m.store ++ List.replicate (size.toNat - m.len) 0 }
  else m

end Memory

/-- `params.MemoryGas`. -/
def memoryGas : UInt64 := 3

/-- `params.QuadCoeffDiv`. -/
def quadCoeffDiv : UInt64 := 512

/-- `math.MaxUint64`. -/
def maxUint64 : UInt64 := 0xffffffffffffffff

/-- `toWordSize` (`core/vm/common.go`): the size in 32-byte words, rounded up. -/
def toWordSize (size : UInt64) : UInt64 :=
  if size > maxUint64 - 31 then maxUint64 / 32 + 1 else (size + 31) / 32

/-- `math.SafeMul`: the wrapped product, and whether it overflowed. -/
def safeMul (x y : UInt64) : UInt64 × Bool :=
  if x = 0 ∨ y = 0 then (0, false) else (x * y, y > maxUint64 / x)

/-- `memoryGasCost`: the fee for growing the memory to `newMemSize`, and the memory with the new
total fee recorded. -/
def memoryGasCost (mem : Memory) (newMemSize : UInt64) : Except VmError (UInt64 × Memory) :=
  if newMemSize = 0 then .ok (0, mem)
  -- the highest size for which the comment of the source says the calculation cannot overflow
  else if newMemSize > 0xffffffffe0 then .error .gasUintOverflow
  else
    let newMemSizeWords := toWordSize newMemSize
    let newMemSize := newMemSizeWords * 32
    if newMemSize > UInt64.ofNat mem.len then
      let square := newMemSizeWords * newMemSizeWords
      let linCoef := newMemSizeWords * memoryGas
      let quadCoef := square / quadCoeffDiv
      let newTotalFee := linCoef + quadCoef
      let fee := newTotalFee - mem.lastGasCost
      .ok (fee, { mem with lastGasCost := newTotalFee })
    else .ok (0, mem)

/-- The memory sizing of one step of `Interpreter.Run` for an operation that needs `memSize`
bytes (`core/vm/interpreter.go:190`): the size in bytes as `uint64`, rounded up to words, the
fee of the operation's gas function, and `Resize`. A failing gas function is `ErrOutOfGas`. -/
def expand (mem : Memory) (memSize : Nat) : Except VmError (UInt64 × Memory) :=
  if memSize ≥ 2 ^ 64 then .error .gasUintOverflow
  else
    let (memorySize, overflow) := safeMul (toWordSize (UInt64.ofNat memSize)) 32
    if overflow then .error .gasUintOverflow
    else
      match memoryGasCost mem memorySize with
      | .error _ => .error .outOfGas
      | .ok (fee, mem) => .ok (fee, if memorySize > 0 then mem.resize memorySize else mem)

/-- A run of memory sizings: the fees charged, in order, and the final memory. -/
def expandAll : Memory → List Nat → Except VmError (List UInt64 × Memory)
  | mem, [] => .ok ([], mem)
  | mem, s :: sizes =>
    match expand mem s with
    | .error e => .error e
    | .ok (fee, mem) =>
      match expandAll mem sizes with
      | .error e => .error e
      | .ok (fees, mem) => .ok (fee :: fees, mem)

/-- The fee for a memory of `w` words, over unbounded integers. -/
def memCost (w : Nat) : Nat := 3 * w + w * w / 512

/-! ## Sizes and costs -/

/-- A number below `2 ^ 64` survives the conversion to `uint64`. -/
theorem toNat_ofNat_of_lt_pow {n : Nat} (h : n < 2 ^ 64) : (UInt64.ofNat n).toNat = n := by
  rw [UInt64.toNat_ofNat', Nat.mod_eq_of_lt h]

theorem memCost_mono {a b : Nat} (h : a ≤ b) : memCost a ≤ memCost b := by
  unfold memCost
  have := Nat.div_le_div_right (c := 512) (Nat.mul_le_mul h h)
  omega

theorem memCost_lt {w : Nat} (hw : w < 2 ^ 32) : memCost w < 2 ^ 64 := by
  unfold memCost
  have hsq : w * w < 2 ^ 64 := by
    calc w * w < 2 ^ 32 * 2 ^ 32 := Nat.mul_lt_mul'' hw hw
      _ = 2 ^ 64 := by rw [← Nat.pow_add]
  have := Nat.div_le_self (w * w) 512
  omega

theorem toWordSize_toNat {s : UInt64} (h : s.toNat ≤ 2 ^ 64 - 32) :
    (toWordSize s).toNat = (s.toNat + 31) / 32 := by
  have hs : ¬ s > maxUint64 - 31 := by
    rw [gt_iff_lt, UInt64.lt_iff_toNat_lt]
    simp [maxUint64]
    omega
  rw [toWordSize, if_neg hs, UInt64.toNat_div, UInt64.toNat_add]
  simp
  omega

theorem len_resize (m : Memory) (size : UInt64) : (m.resize size).len = max m.len size.toNat := by
  unfold Memory.resize
  split
  · simp [Memory.len]; omega
  · simp [Memory.len] at *; omega

theorem lastGasCost_resize (m : Memory) (size : UInt64) :
    (m.resize size).lastGasCost = m.lastGasCost := by
  unfold Memory.resize
  split <;> rfl

/-- Growing to a size the memory already has changes nothing. -/
theorem resize_of_le {m : Memory} {size : UInt64} (h : size.toNat ≤ m.len) : m.resize size = m := by
  unfold Memory.resize
  rw [if_neg (by omega)]

/-- `SafeMul` of a word count below `2 ^ 32` by 32 does not overflow. -/
theorem safeMul_words {w : Nat} (hw : w < 2 ^ 32) :
    safeMul (UInt64.ofNat w) 32 = (UInt64.ofNat (32 * w), false) := by
  have hw64 : (UInt64.ofNat w).toNat = w := by
    rw [toNat_ofNat_of_lt_pow (by omega)]
  unfold safeMul
  by_cases h0 : w = 0
  · subst h0
    rfl
  · have hne : UInt64.ofNat w ≠ 0 := fun h => h0 (by rw [← hw64, h]; rfl)
    have hprod : UInt64.ofNat w * 32 = UInt64.ofNat (32 * w) := by
      apply UInt64.toNat_inj.mp
      rw [UInt64.toNat_mul, hw64, UInt64.toNat_ofNat']
      simp
      omega
    have hov : ¬ (32 : UInt64) > maxUint64 / UInt64.ofNat w := by
      rw [gt_iff_lt, UInt64.lt_iff_toNat_lt, UInt64.toNat_div, hw64]
      have h32 : 32 ≤ (2 ^ 64 - 1) / w := (Nat.le_div_iff_mul_le (by omega)).mpr (by omega)
      simp [maxUint64]
      omega
    simp only [hne, hprod, hov, decide_false]
    rfl

/-! ## Exact fees below `2 ^ 32` words -/

/-- What `memoryGasCost` keeps true while word counts stay below `2 ^ 32`: the store holds whole
words, and `lastGasCost` is the cost of its words. -/
structure Memory.Exact (m : Memory) : Prop where
  words : m.len % 32 = 0
  small : m.len / 32 < 2 ^ 32
  cost : m.lastGasCost.toNat = memCost (m.len / 32)

theorem Memory.exact_empty : Memory.empty.Exact := ⟨rfl, by decide, rfl⟩

/-- `memoryGasCost` of `w` words, `0 < w < 2 ^ 32`: the difference of the costs when the memory
grows, nothing otherwise. -/
theorem memoryGasCost_exact {m : Memory} (hm : m.Exact) {w : Nat} (hw0 : 0 < w)
    (hw : w < 2 ^ 32) :
    memoryGasCost m (UInt64.ofNat (32 * w)) =
      if m.len < 32 * w then
        .ok (UInt64.ofNat (memCost w - memCost (m.len / 32)),
          { m with lastGasCost := UInt64.ofNat (memCost w) })
      else .ok (0, m) := by
  have hsz : (UInt64.ofNat (32 * w)).toNat = 32 * w := by
    rw [toNat_ofNat_of_lt_pow (by omega)]
  have hne : UInt64.ofNat (32 * w) ≠ 0 := fun h => by
    have := congrArg UInt64.toNat h
    rw [hsz] at this
    simp at this
    omega
  have hbound : ¬ UInt64.ofNat (32 * w) > 0xffffffffe0 := by
    rw [gt_iff_lt, UInt64.lt_iff_toNat_lt, hsz]
    simp
    omega
  have hwords : toWordSize (UInt64.ofNat (32 * w)) = UInt64.ofNat w := by
    apply UInt64.toNat_inj.mp
    rw [toWordSize_toNat (by omega), hsz, toNat_ofNat_of_lt_pow (by omega)]
    omega
  have hw64 : (UInt64.ofNat w).toNat = w := by
    rw [toNat_ofNat_of_lt_pow (by omega)]
  have hlen : (UInt64.ofNat m.len).toNat = m.len := by
    rw [toNat_ofNat_of_lt_pow (by have := hm.small; omega)]
  have hsq : w * w < 2 ^ 64 := by
    calc w * w < 2 ^ 32 * 2 ^ 32 := Nat.mul_lt_mul'' hw hw
      _ = 2 ^ 64 := by rw [← Nat.pow_add]
  have htotal : UInt64.ofNat w * memoryGas + UInt64.ofNat w * UInt64.ofNat w / quadCoeffDiv =
      UInt64.ofNat (memCost w) := by
    apply UInt64.toNat_inj.mp
    have := memCost_lt hw
    rw [UInt64.toNat_add, UInt64.toNat_mul, UInt64.toNat_div, UInt64.toNat_mul, hw64,
      toNat_ofNat_of_lt_pow this]
    simp only [memoryGas, quadCoeffDiv, memCost] at this ⊢
    simp
    omega
  have hgrow : UInt64.ofNat w * 32 > UInt64.ofNat m.len ↔ m.len < 32 * w := by
    rw [gt_iff_lt, UInt64.lt_iff_toNat_lt, hlen, UInt64.toNat_mul, hw64]
    simp
    omega
  simp only [memoryGasCost, hne, hbound, if_false, hwords]
  by_cases hg : m.len < 32 * w
  · rw [if_pos (hgrow.mpr hg), if_pos hg, htotal]
    have hle : memCost (m.len / 32) ≤ memCost w := memCost_mono (by omega)
    have hfee : UInt64.ofNat (memCost w) - m.lastGasCost =
        UInt64.ofNat (memCost w - memCost (m.len / 32)) := by
      apply UInt64.toNat_inj.mp
      have hlt := memCost_lt hw
      rw [UInt64.toNat_sub_of_le, UInt64.toNat_ofNat', UInt64.toNat_ofNat', hm.cost,
        Nat.mod_eq_of_lt hlt, Nat.mod_eq_of_lt (by omega)]
      rw [UInt64.le_iff_toNat_le, hm.cost, toNat_ofNat_of_lt_pow hlt]
      exact hle
    rw [hfee]
  · rw [if_neg (fun h => hg (hgrow.mp h)), if_neg hg]

/-- One step of memory sizing for at most `2 ^ 32 - 1` words keeps `Exact`, and its fee is what
the cost grows by. -/
theorem expand_exact {m : Memory} (hm : m.Exact) {s : Nat} (hs : (s + 31) / 32 < 2 ^ 32) :
    ∃ fee m', expand m s = .ok (fee, m') ∧ m'.Exact ∧
      fee.toNat + memCost (m.len / 32) = memCost (m'.len / 32) := by
  have hs64 : ¬ s ≥ 2 ^ 64 := by omega
  have hsn : (UInt64.ofNat s).toNat = s := by
    rw [toNat_ofNat_of_lt_pow (by omega)]
  have hwords : toWordSize (UInt64.ofNat s) = UInt64.ofNat ((s + 31) / 32) := by
    apply UInt64.toNat_inj.mp
    rw [toWordSize_toNat (by omega), hsn, toNat_ofNat_of_lt_pow (by omega)]
  simp only [expand, hs64, if_false, hwords, safeMul_words hs, Bool.false_eq_true]
  generalize hw : (s + 31) / 32 = w at hs
  by_cases h0 : w = 0
  · -- nothing to grow: the size is zero bytes
    have hz : UInt64.ofNat (32 * w) = 0 := by rw [h0]; rfl
    refine ⟨0, m, ?_, hm, by simp⟩
    simp [hz, memoryGasCost]
  · rw [memoryGasCost_exact hm (by omega) hs]
    have hsz : (UInt64.ofNat (32 * w)).toNat = 32 * w := by
      rw [toNat_ofNat_of_lt_pow (by omega)]
    have hpos : UInt64.ofNat (32 * w) > 0 := by
      rw [gt_iff_lt, UInt64.lt_iff_toNat_lt, hsz]
      simp
      omega
    have hcost := memCost_lt hs
    by_cases hg : m.len < 32 * w
    · -- the memory grows to the new size, and the fee is the difference of the costs
      have hlen : (({ m with lastGasCost := UInt64.ofNat (memCost w) } : Memory).resize
          (UInt64.ofNat (32 * w))).len = 32 * w := by
        rw [len_resize, hsz]
        exact Nat.max_eq_right (Nat.le_of_lt hg)
      have hwl : 32 * w / 32 = w := Nat.mul_div_cancel_left w (by omega)
      have hle : memCost (m.len / 32) ≤ memCost w := memCost_mono (by omega)
      rw [if_pos hg]
      refine ⟨_, _, by simp only [hpos, if_true]; rfl, ⟨?_, ?_, ?_⟩, ?_⟩
      · rw [hlen]
        omega
      · rw [hlen, hwl]
        exact hs
      · rw [lastGasCost_resize, hlen, hwl, toNat_ofNat_of_lt_pow hcost]
      · rw [hlen, hwl, toNat_ofNat_of_lt_pow (by omega)]
        omega
    · -- the memory is large enough already
      have hfit : m.resize (UInt64.ofNat (32 * w)) = m := resize_of_le (by rw [hsz]; omega)
      rw [if_neg hg]
      refine ⟨0, m, ?_, hm, by simp⟩
      simp only [hpos, if_true, hfit]

/-- Below `2 ^ 32` words in every step, the fees of a run are exact: `lastGasCost` is the cost of
the memory at the end, and the fees add up to what the cost grew by. -/
theorem expandAll_exact : ∀ (sizes : List Nat) {m : Memory}, m.Exact →
    (∀ s ∈ sizes, (s + 31) / 32 < 2 ^ 32) →
    ∃ fees m', expandAll m sizes = .ok (fees, m') ∧ m'.Exact ∧
      (fees.map UInt64.toNat).sum + memCost (m.len / 32) = memCost (m'.len / 32)
  | [], m, hm, _ => ⟨[], m, rfl, hm, by simp⟩
  | s :: sizes, m, hm, hs => by
    obtain ⟨fee, m₁, h₁, hm₁, hc₁⟩ := expand_exact hm (hs s (by simp))
    obtain ⟨fees, m₂, h₂, hm₂, hc₂⟩ :=
      expandAll_exact sizes hm₁ (fun s' h' => hs s' (by simp [h']))
    refine ⟨fee :: fees, m₂, by simp [expandAll, h₁, h₂], hm₂, ?_⟩
    simp only [List.map_cons, List.sum_cons]
    omega

/-- **Exact fees below `2 ^ 32` words.** From a new memory, a run of sizings of fewer than
`2 ^ 32` words each charges fees that add up to the cost of the final memory, which is what
`lastGasCost` records. -/
theorem expandAll_cost (sizes : List Nat) (hs : ∀ s ∈ sizes, (s + 31) / 32 < 2 ^ 32) :
    ∃ fees m, expandAll Memory.empty sizes = .ok (fees, m) ∧
      (fees.map UInt64.toNat).sum = memCost (m.len / 32) ∧
      m.lastGasCost.toNat = memCost (m.len / 32) := by
  obtain ⟨fees, m, h, hm, hc⟩ := expandAll_exact sizes Memory.exact_empty hs
  exact ⟨fees, m, h, by simpa [Memory.empty, Memory.len, memCost] using hc, hm.cost⟩

/-- A run of two sizings, of 64 and 100 bytes, charges the fees of 2 and then 4 words. -/
theorem expandAll_cost_two_steps :
    (∀ s ∈ [64, 100], (s + 31) / 32 < 2 ^ 32) ∧
      ∃ fees m, expandAll Memory.empty [64, 100] = .ok (fees, m) ∧
        (fees.map UInt64.toNat).sum = memCost (m.len / 32) ∧
        m.lastGasCost.toNat = memCost (m.len / 32) :=
  ⟨by decide, expandAll_cost [64, 100] (by decide)⟩

/-! ## The square wraps at `2 ^ 32` words -/

/-- At `2 ^ 37` bytes, `2 ^ 32` words, `memoryGasCost` passes its bound, but the square of the
word count wraps to zero: a new memory grown to that size is charged `3 * 2 ^ 32`, not its cost
`3 * 2 ^ 32 + 2 ^ 55`, and `lastGasCost` records the same wrong total. -/
theorem memoryGasCost_square_wraps :
    ∃ m, expand Memory.empty (2 ^ 37) = .ok (3 * 2 ^ 32, m) ∧ m.len / 32 = 2 ^ 32 ∧
      m.lastGasCost.toNat = 3 * 2 ^ 32 ∧ memCost (m.len / 32) = 3 * 2 ^ 32 + 2 ^ 55 := by
  have hwords : toWordSize (UInt64.ofNat (2 ^ 37)) = UInt64.ofNat (2 ^ 32) := rfl
  have hmul : safeMul (UInt64.ofNat (2 ^ 32)) 32 = (UInt64.ofNat (2 ^ 37), false) := rfl
  have hgas : memoryGasCost Memory.empty (UInt64.ofNat (2 ^ 37)) =
      .ok (3 * 2 ^ 32, ⟨[], 3 * 2 ^ 32⟩) := rfl
  have hpos : UInt64.ofNat (2 ^ 37) > 0 := by decide
  have hlen : ((⟨[], 3 * 2 ^ 32⟩ : Memory).resize (UInt64.ofNat (2 ^ 37))).len = 2 ^ 37 := by
    rw [len_resize]
    rfl
  refine ⟨(⟨[], 3 * 2 ^ 32⟩ : Memory).resize (UInt64.ofNat (2 ^ 37)), ?_, ?_, ?_, ?_⟩
  · simp only [expand, hwords, hmul, hgas, hpos]
    rfl
  · calc _ = 2 ^ 37 / 32 := by rw [hlen]
      _ = 2 ^ 32 := by decide
  · rw [lastGasCost_resize]
    rfl
  · rw [hlen]
    decide

end GoGaia.Vm
