import Mathlib

/-!
# Jump destination analysis

`core/vm/analysis.go`. Before a `JUMP` or `JUMPI` takes its destination, `destinations.has`
checks that the byte there is a `JUMPDEST` and that it is code, not the immediate data of a
`PUSH1` to `PUSH32`. `codeBitmap` finds the data in one linear scan of the code, marking each data
byte in a bit vector (`bitvec`) eight bytes to the vector's byte, the first byte in the high bit;
`has` computes the bit vector of a code once and keeps it under the code's hash.

The naive definition of a jump destination walks the code from 0, one instruction at a time
(`Reaches`): the destination must be a `JUMPDEST` that no `PUSH` met on the way covers with its
data (`ValidJumpdest`). The bit vector marks exactly the covered positions (`codeBitmap_spec`),
and no write of the scan goes past the vector, whatever the code ends with. So over any run of
checks against one map, with code hashes that do not collide, every answer is the naive one for
every code shorter than `2 ^ 62` bytes (`hasAll_iff_validJumpdest`): `has` refuses destinations of
63 bits or more, and no Go byte slice is that long.

Positions are natural numbers: the scan's `pc` is a `uint64` that stays below `len(code) + 33`.
An index out of range of the bit vector is the run-time panic, `none`.
-/

namespace GoGaia.Vm

/-- `JUMPDEST`. -/
def jumpdest : UInt8 := 0x5b

/-- `PUSH1`. -/
def push1 : UInt8 := 0x60

/-- `PUSH32`. -/
def push32 : UInt8 := 0x7f

/-- `bitvec`: one bit per byte of code, set for data. -/
abbrev Bitvec := List UInt8

namespace Bitvec

/-- `set`: marks `pos` as data. -/
def set (bits : Bitvec) (pos : Nat) : Option Bitvec :=
  if pos / 8 < bits.length then
    some (bits.modify (pos / 8) (· ||| 0x80 >>> UInt8.ofNat (pos % 8)))
  else none

/-- `set8`: marks the eight positions from `pos` as data, over two bytes of the vector. -/
def set8 (bits : Bitvec) (pos : Nat) : Option Bitvec :=
  if pos / 8 + 1 < bits.length then
    some ((bits.modify (pos / 8) (· ||| 0xFF >>> UInt8.ofNat (pos % 8))).modify (pos / 8 + 1)
      (· ||| ~~~(0xFF >>> UInt8.ofNat (pos % 8))))
  else none

/-- `codeSegment`: whether `pos` is code. -/
def codeSegment (bits : Bitvec) (pos : Nat) : Option Bool :=
  bits[pos / 8]?.map fun b => (b &&& 0x80 >>> UInt8.ofNat (pos % 8)) == 0

/-- Whether `bits` marks `pos` as data: the bit `codeSegment` reads, reading zero past the end of
the vector. -/
def isData (bits : Bitvec) (pos : Nat) : Bool :=
  (bits.getD (pos / 8) 0 &&& 0x80 >>> UInt8.ofNat (pos % 8)) != 0

end Bitvec

/-- The second inner loop of `codeBitmap`: `set` for each of the `n` data bytes left. -/
def setBits (bits : Bitvec) (pc : Nat) : Nat → Option (Bitvec × Nat)
  | 0 => some (bits, pc)
  | n + 1 =>
    match bits.set pc with
    | some bits => setBits bits (pc + 1) n
    | none => none

/-- The inner loops of `codeBitmap` over the `numbits` data bytes of a `PUSH`: `set8` while
eight or more are left, then `set` for the rest. Returns the vector and the next `pc`. -/
def setData (bits : Bitvec) (pc numbits : Nat) : Option (Bitvec × Nat) :=
  if 8 ≤ numbits then
    match bits.set8 pc with
    | some bits => setData bits (pc + 8) (numbits - 8)
    | none => none
  else setBits bits pc numbits
termination_by numbits
decreasing_by omega

theorem setBits_pc {bits bits' : Bitvec} {pc pc' : Nat} :
    ∀ {n : Nat}, setBits bits pc n = some (bits', pc') → pc' = pc + n
  | 0, h => by
    simp only [setBits, Option.some.injEq, Prod.mk.injEq] at h
    omega
  | n + 1, h => by
    simp only [setBits] at h
    split at h
    · have := setBits_pc h
      omega
    · cases h

/-- The inner loops end at the byte after the data. -/
theorem setData_pc {bits bits' : Bitvec} {pc pc' numbits : Nat}
    (h : setData bits pc numbits = some (bits', pc')) : pc' = pc + numbits := by
  fun_induction setData bits pc numbits generalizing bits' pc' with
  | case1 bits pc numbits h8 _ _ ih =>
    have := ih h
    omega
  | case2 => cases h
  | case3 bits pc numbits _ => exact setBits_pc h

/-- The main loop of `codeBitmap`, from `pc`. -/
def scan (code : List UInt8) (bits : Bitvec) (pc : Nat) : Option Bitvec :=
  if hpc : pc < code.length then
    let op := code[pc]
    if push1 ≤ op ∧ op ≤ push32 then
      match hd : setData bits (pc + 1) (op - push1 + 1).toNat with
      | some (bits, pc') => scan code bits pc'
      | none => none
    else scan code bits (pc + 1)
  else some bits
termination_by code.length - pc
decreasing_by
  · have := setData_pc hd
    omega
  · omega

/-- `codeBitmap`: the data positions of `code`, in a vector four bytes longer than needed. -/
def codeBitmap (code : List UInt8) : Option Bitvec :=
  scan code (List.replicate (code.length / 8 + 1 + 4) 0) 0

/-- `destinations`: the bit vectors of the codes analysed so far, by code hash. -/
abbrev Destinations := Nat → Option Bitvec

/-- `destinations.has`: whether `dest` is a `JUMPDEST` in `code`, with the map after the
analysis of `code` is cached under `codehash`. -/
def Destinations.has (d : Destinations) (codehash : Nat) (code : List UInt8) (dest : Nat) :
    Option (Bool × Destinations) :=
  -- `dest.Uint64()`, the low 64 bits; `BitLen` is `Nat.size`
  let udest := dest % 2 ^ 64
  if Nat.size dest ≥ 63 ∨ udest ≥ code.length then some (false, d)
  else
    let analysed : Option (Bitvec × Destinations) :=
      match d codehash with
      | some m => some (m, d)
      | none => (codeBitmap code).map fun m => (m, Function.update d codehash (some m))
    match analysed with
    | none => none
    | some (m, d) =>
      -- the `&&` of the source reads the bit vector only at a `JUMPDEST`
      if code[udest]? = some jumpdest then (m.codeSegment udest).map fun seg => (seg, d)
      else some (false, d)

/-- A run of jump checks against one map: each check is of a destination in a code, under the
code's hash. -/
def hasAll (hash : List UInt8 → Nat) : Destinations → List (List UInt8 × Nat) →
    Option (List Bool × Destinations)
  | d, [] => some ([], d)
  | d, (code, dest) :: queries =>
    match d.has (hash code) code dest with
    | none => none
    | some (b, d) =>
      match hasAll hash d queries with
      | none => none
      | some (bs, d) => some (b :: bs, d)

/-! ## The naive definition -/

/-- The bytes of immediate data of an instruction: `n` for `PUSHn`, none for the others. -/
def pushWidth (op : UInt8) : Nat :=
  if 0x60 ≤ op.toNat ∧ op.toNat ≤ 0x7f then op.toNat - 0x5f else 0

/-- `Reaches code pc q`: the linear scan of `code` from the instruction at `pc` meets the
instruction at `q`. -/
inductive Reaches (code : List UInt8) : Nat → Nat → Prop where
  | refl (pc : Nat) : Reaches code pc pc
  | step {pc q : Nat} {op : UInt8} : code[pc]? = some op →
      Reaches code (pc + 1 + pushWidth op) q → Reaches code pc q

/-- `d` is inside the data of a `PUSH` that the scan from position 0 meets; the data may run past
the end of the code. -/
def InPushData (code : List UInt8) (d : Nat) : Prop :=
  ∃ q op, Reaches code 0 q ∧ code[q]? = some op ∧ q < d ∧ d ≤ q + pushWidth op

/-- The naive definition of a jump destination: a `JUMPDEST` of the code, not inside the data of
a `PUSH`. -/
def ValidJumpdest (code : List UInt8) (d : Nat) : Prop :=
  code[d]? = some jumpdest ∧ ¬ InPushData code d

theorem Reaches.le {code : List UInt8} {pc q : Nat} (h : Reaches code pc q) : pc ≤ q := by
  induction h with
  | refl => exact Nat.le_refl _
  | step _ _ ih => omega

/-- The scan from an instruction meets it, or meets what the next instruction's scan meets. -/
theorem reaches_iff {code : List UInt8} {pc q : Nat} {op : UInt8} (h : code[pc]? = some op) :
    Reaches code pc q ↔ q = pc ∨ Reaches code (pc + 1 + pushWidth op) q := by
  constructor
  · intro r
    cases r with
    | refl => exact .inl rfl
    | step h' r =>
      rw [h] at h'
      cases h'
      exact .inr r
  · rintro (rfl | r)
    · exact .refl q
    · exact .step h r

/-! ## Bits -/

section Bits

private theorem masks_fin : ∀ a b : Fin 8,
    (((0x80 : UInt8) >>> UInt8.ofNat a &&& 0x80 >>> UInt8.ofNat b) != 0) = decide (a = b) := by
  decide

private theorem high_masks_fin : ∀ a b : Fin 8,
    (((0xFF : UInt8) >>> UInt8.ofNat a &&& 0x80 >>> UInt8.ofNat b) != 0) = decide (a ≤ b) := by
  decide

private theorem low_masks_fin : ∀ a b : Fin 8,
    ((~~~((0xFF : UInt8) >>> UInt8.ofNat a) &&& 0x80 >>> UInt8.ofNat b) != 0) =
      decide (b < a) := by
  decide

theorem mask_and_mask (j k : Nat) :
    (((0x80 : UInt8) >>> UInt8.ofNat (j % 8) &&& 0x80 >>> UInt8.ofNat (k % 8)) != 0) =
      decide (j % 8 = k % 8) := by
  have := masks_fin ⟨j % 8, Nat.mod_lt _ (by omega)⟩ ⟨k % 8, Nat.mod_lt _ (by omega)⟩
  simpa [Fin.ext_iff] using this

theorem high_and_mask (j k : Nat) :
    (((0xFF : UInt8) >>> UInt8.ofNat (j % 8) &&& 0x80 >>> UInt8.ofNat (k % 8)) != 0) =
      decide (j % 8 ≤ k % 8) := by
  have := high_masks_fin ⟨j % 8, Nat.mod_lt _ (by omega)⟩ ⟨k % 8, Nat.mod_lt _ (by omega)⟩
  simpa [Fin.le_def] using this

theorem low_and_mask (j k : Nat) :
    ((~~~((0xFF : UInt8) >>> UInt8.ofNat (j % 8)) &&& 0x80 >>> UInt8.ofNat (k % 8)) != 0) =
      decide (k % 8 < j % 8) := by
  have := low_masks_fin ⟨j % 8, Nat.mod_lt _ (by omega)⟩ ⟨k % 8, Nat.mod_lt _ (by omega)⟩
  simpa [Fin.lt_def] using this

theorem or_ne_zero (a b : UInt8) : ((a ||| b) != 0) = ((a != 0) || (b != 0)) := by
  rw [Bool.eq_iff_iff]
  simp [UInt8.or_eq_zero_iff, imp_iff_not_or]

theorem or_and_ne_zero (x v m : UInt8) :
    (((x ||| v) &&& m) != 0) = (((x &&& m) != 0) || ((v &&& m) != 0)) := by
  have hd : (x ||| v) &&& m = (x &&& m) ||| (v &&& m) := by
    apply UInt8.toBitVec_inj.mp
    simp [BitVec.and_or_distrib_right]
  rw [hd, or_ne_zero]

/-- Or-ing `v` into the byte `b` of the vector marks what `v` marks in that byte. -/
theorem isData_modify_or {bits : Bitvec} {b : Nat} (hb : b < bits.length) (v : UInt8)
    (i : Nat) :
    Bitvec.isData (bits.modify b (· ||| v)) i =
      (bits.isData i || (i / 8 == b && ((v &&& 0x80 >>> UInt8.ofNat (i % 8)) != 0))) := by
  unfold Bitvec.isData
  rw [List.getD_eq_getElem?_getD, List.getD_eq_getElem?_getD, List.getElem?_modify]
  by_cases hib : b = i / 8
  · subst hib
    rw [List.getElem?_eq_getElem hb]
    simp only [if_true, Option.map_eq_map, Option.map_some, Option.getD_some, beq_self_eq_true,
      Bool.true_and]
    exact or_and_ne_zero _ _ _
  · have : (i / 8 == b) = false := by simp; omega
    simp [hib, this]

theorem length_set {bits bits' : Bitvec} {pos : Nat} (h : bits.set pos = some bits') :
    bits'.length = bits.length := by
  unfold Bitvec.set at h
  split at h
  · cases h
    simp
  · cases h

theorem length_set8 {bits bits' : Bitvec} {pos : Nat} (h : bits.set8 pos = some bits') :
    bits'.length = bits.length := by
  unfold Bitvec.set8 at h
  split at h
  · cases h
    simp
  · cases h

/-- `set` marks exactly `pos`. -/
theorem isData_set {bits : Bitvec} {pos : Nat} (h : pos / 8 < bits.length) :
    ∃ bits', bits.set pos = some bits' ∧
      ∀ i, bits'.isData i = (bits.isData i || decide (i = pos)) := by
  refine ⟨_, if_pos h, fun i => ?_⟩
  rw [isData_modify_or h, mask_and_mask]
  congr 1
  rw [Bool.eq_iff_iff]
  simp only [Bool.and_eq_true, beq_iff_eq, decide_eq_true_eq]
  omega

/-- `set8` marks exactly the eight positions from `pos`. -/
theorem isData_set8 {bits : Bitvec} {pos : Nat} (h : pos / 8 + 1 < bits.length) :
    ∃ bits', bits.set8 pos = some bits' ∧
      ∀ i, bits'.isData i = (bits.isData i || decide (pos ≤ i ∧ i < pos + 8)) := by
  refine ⟨_, if_pos h, fun i => ?_⟩
  rw [isData_modify_or (by simpa using h), isData_modify_or (by omega), high_and_mask,
    low_and_mask, Bool.or_assoc]
  congr 1
  -- the high bits of the byte of `pos`, and the low bits of the next byte
  rw [Bool.eq_iff_iff]
  simp only [Bool.or_eq_true, Bool.and_eq_true, beq_iff_eq, decide_eq_true_eq]
  omega

theorem isData_replicate_zero (k i : Nat) : Bitvec.isData (List.replicate k 0) i = false := by
  unfold Bitvec.isData
  rw [List.getD_eq_getElem?_getD, List.getElem?_replicate]
  split <;> simp

end Bits

/-! ## The scan -/

/-- `set` for `n` bytes from `pc` marks exactly those bytes, when the vector holds the byte of
`pc + n`. -/
theorem setBits_spec : ∀ (n : Nat) {bits : Bitvec} {pc : Nat}, (pc + n) / 8 < bits.length →
    ∃ bits', setBits bits pc n = some (bits', pc + n) ∧ bits'.length = bits.length ∧
      ∀ i, bits'.isData i = (bits.isData i || decide (pc ≤ i ∧ i < pc + n))
  | 0, bits, pc, _ => ⟨bits, rfl, rfl, fun i => by simp [show ¬(pc ≤ i ∧ i < pc) by omega]⟩
  | n + 1, bits, pc, h => by
    obtain ⟨bits₁, h₁, hd₁⟩ := isData_set (show pc / 8 < bits.length by omega)
    have hl₁ := length_set h₁
    obtain ⟨bits₂, h₂, hl₂, hd₂⟩ := setBits_spec n (show (pc + 1 + n) / 8 < bits₁.length by omega)
    refine ⟨bits₂, ?_, by rw [hl₂, hl₁], fun i => ?_⟩
    · simp only [setBits, h₁, h₂]
      congr 2
      omega
    · rw [hd₂, hd₁, Bool.or_assoc, ← Bool.decide_or]
      congr 1
      rw [decide_eq_decide]
      omega

/-- The inner loops mark exactly the `numbits` bytes from `pc`. -/
theorem setData_spec {bits : Bitvec} {pc numbits : Nat} (h : (pc + numbits) / 8 < bits.length) :
    ∃ bits', setData bits pc numbits = some (bits', pc + numbits) ∧ bits'.length = bits.length ∧
      ∀ i, bits'.isData i = (bits.isData i || decide (pc ≤ i ∧ i < pc + numbits)) := by
  induction bits, pc, numbits using setData.induct with
  | case1 bits pc numbits h8 bits₁ h₁ ih =>
    -- `set8` then the rest: the eight bytes from `pc`, and the bytes from `pc + 8`
    obtain ⟨b₁, hb₁, hd₁⟩ := isData_set8 (show pc / 8 + 1 < bits.length by omega)
    have hl₁ := length_set8 hb₁
    rw [hb₁] at h₁
    cases h₁
    obtain ⟨bits₂, h₂, hl₂, hd₂⟩ := ih (by omega)
    refine ⟨bits₂, ?_, by rw [hl₂, hl₁], fun i => ?_⟩
    · rw [setData, if_pos h8, hb₁]
      dsimp only
      rw [h₂]
      congr 2
      omega
    · rw [hd₂, hd₁, Bool.or_assoc, ← Bool.decide_or]
      congr 1
      rw [decide_eq_decide]
      omega
  | case2 bits pc numbits h8 h₁ =>
    obtain ⟨b₁, hb₁, -⟩ := isData_set8 (show pc / 8 + 1 < bits.length by omega)
    rw [hb₁] at h₁
    cases h₁
  | case3 bits pc numbits h8 =>
    rw [setData, if_neg h8]
    exact setBits_spec numbits h

/-- `numbits` of the source is the width of the `PUSH`. -/
theorem numbits_eq_pushWidth {op : UInt8} (h : push1 ≤ op ∧ op ≤ push32) :
    (op - push1 + 1).toNat = pushWidth op := by
  have hlo : 0x60 ≤ op.toNat := UInt8.le_iff_toNat_le.mp h.1
  have hhi : op.toNat ≤ 0x7f := UInt8.le_iff_toNat_le.mp h.2
  rw [pushWidth, if_pos ⟨hlo, hhi⟩, UInt8.toNat_add, UInt8.toNat_sub_of_le _ _ h.1]
  simp only [push1]
  simp
  omega

theorem pushWidth_eq_zero {op : UInt8} (h : ¬ (push1 ≤ op ∧ op ≤ push32)) : pushWidth op = 0 := by
  rw [pushWidth, if_neg]
  rintro ⟨hlo, hhi⟩
  exact h ⟨UInt8.le_iff_toNat_le.mpr hlo, UInt8.le_iff_toNat_le.mpr hhi⟩

theorem pushWidth_le (op : UInt8) : pushWidth op ≤ 32 := by
  unfold pushWidth
  split <;> omega

/-- **The scan marks the data it meets.** From any `pc`, with a vector of the size `codeBitmap`
allocates, the scan ends without an index out of range, and adds to the vector exactly the data
of the instructions it meets. -/
theorem scan_spec (code : List UInt8) (bits : Bitvec) (pc : Nat)
    (hl : bits.length = code.length / 8 + 5) :
    ∃ bits', scan code bits pc = some bits' ∧ bits'.length = bits.length ∧
      ∀ i, bits'.isData i = true ↔ bits.isData i = true ∨
        ∃ q op, Reaches code pc q ∧ code[q]? = some op ∧ q < i ∧ i ≤ q + pushWidth op := by
  induction bits, pc using scan.induct code with
  | case1 bits pc hpc op hpush bits₁ pc' hd ih =>
    -- a `PUSH`: its data is marked, and the scan goes on after it
    have hpush' : push1 ≤ code[pc] ∧ code[pc] ≤ push32 := hpush
    have hw := numbits_eq_pushWidth hpush'
    have hop : code[pc]? = some code[pc] := List.getElem?_eq_getElem hpc
    have hwl := pushWidth_le code[pc]
    obtain ⟨b₁, hb₁, hl₁, hd₁⟩ :=
      setData_spec (show (pc + 1 + (code[pc] - push1 + 1).toNat) / 8 < bits.length by omega)
    rw [hb₁] at hd
    cases hd
    obtain ⟨bits₂, h₂, hl₂, hd₂⟩ := ih (by omega)
    refine ⟨bits₂, ?_, by rw [hl₂, hl₁], fun i => ?_⟩
    · rw [scan, dif_pos hpc]
      dsimp only
      rw [if_pos hpush']
      split
      · next heq =>
        rw [hb₁] at heq
        cases heq
        exact h₂
      · next heq =>
        rw [hb₁] at heq
        cases heq
    · rw [hd₂, hd₁, hw]
      simp only [Bool.or_eq_true, decide_eq_true_eq, reaches_iff hop]
      constructor
      · rintro ((h | ⟨h₁, h₂⟩) | ⟨q, op, hr, hq, h₃⟩)
        · exact .inl h
        · exact .inr ⟨pc, code[pc], .inl rfl, hop, by omega, by omega⟩
        · exact .inr ⟨q, op, .inr hr, hq, h₃⟩
      · rintro (h | ⟨q, op, (rfl | hr), hq, h₃⟩)
        · exact .inl (.inl h)
        · rw [hop] at hq
          cases hq
          exact .inl (.inr ⟨by omega, by omega⟩)
        · exact .inr ⟨q, op, hr, hq, h₃⟩
  | case2 bits pc hpc op hpush hd =>
    have hpush' : push1 ≤ code[pc] ∧ code[pc] ≤ push32 := hpush
    have hwl := pushWidth_le code[pc]
    obtain ⟨b₁, hb₁, -⟩ := setData_spec
      (show (pc + 1 + (code[pc] - push1 + 1).toNat) / 8 < bits.length by
        rw [numbits_eq_pushWidth hpush']; omega)
    rw [hb₁] at hd
    cases hd
  | case3 bits pc hpc op hpush ih =>
    -- an instruction without data
    have hpush' : ¬ (push1 ≤ code[pc] ∧ code[pc] ≤ push32) := hpush
    have hop : code[pc]? = some code[pc] := List.getElem?_eq_getElem hpc
    have hw := pushWidth_eq_zero hpush'
    obtain ⟨bits₂, h₂, hl₂, hd₂⟩ := ih hl
    refine ⟨bits₂, ?_, hl₂, fun i => ?_⟩
    · rw [scan, dif_pos hpc]
      dsimp only
      rw [if_neg hpush']
      exact h₂
    · rw [hd₂]
      simp only [reaches_iff hop, hw, Nat.add_zero]
      constructor
      · rintro (h | ⟨q, op, hr, hq, h₃⟩)
        · exact .inl h
        · exact .inr ⟨q, op, .inr hr, hq, h₃⟩
      · rintro (h | ⟨q, op, (rfl | hr), hq, h₃⟩)
        · exact .inl h
        · rw [hop] at hq
          cases hq
          omega
        · exact .inr ⟨q, op, hr, hq, h₃⟩
  | case4 bits pc hpc =>
    -- past the end: nothing is left to meet
    refine ⟨bits, by rw [scan, dif_neg hpc], rfl, fun i => ?_⟩
    constructor
    · exact .inl
    · rintro (h | ⟨q, op, hr, hq, -⟩)
      · exact h
      · have := hr.le
        have := (List.getElem?_eq_some_iff.mp hq).1
        omega

/-- **`codeBitmap` marks the data of the naive definition.** For every code, the analysis ends
without an index out of range, and its vector marks a position exactly when it is inside the data
of a `PUSH` met by the scan from 0. -/
theorem codeBitmap_spec (code : List UInt8) :
    ∃ bits, codeBitmap code = some bits ∧ bits.length = code.length / 8 + 5 ∧
      ∀ i, bits.isData i = true ↔ InPushData code i := by
  obtain ⟨bits, h, hl, hd⟩ := scan_spec code (List.replicate (code.length / 8 + 1 + 4) 0) 0
    (by simp)
  refine ⟨bits, h, by simpa using hl, fun i => ?_⟩
  rw [hd, isData_replicate_zero]
  simp [InPushData]

/-! ## Checks against the map -/

/-- Every vector of `d` is the analysis of one of `codes`, stored under its hash. -/
def CacheOf (hash : List UInt8 → Nat) (codes : List (List UInt8)) (d : Destinations) : Prop :=
  ∀ h m, d h = some m → ∃ code ∈ codes, hash code = h ∧ codeBitmap code = some m

theorem cacheOf_empty (hash : List UInt8 → Nat) (codes : List (List UInt8)) :
    CacheOf hash codes fun _ => none :=
  fun _ _ h => nomatch h

/-- The naive definition at a destination outside the code. -/
theorem not_validJumpdest_of_le {code : List UInt8} {dest : Nat} (h : code.length ≤ dest) :
    ¬ ValidJumpdest code dest := by
  rintro ⟨hj, -⟩
  have := (List.getElem?_eq_some_iff.mp hj).1
  omega

/-- A check whose guard passes reads the vector of the code: the naive answer. -/
theorem has_of_bitmap {code : List UInt8} {m : Bitvec} {dest : Nat} (d : Destinations)
    (hm : codeBitmap code = some m) (hdest : dest < code.length) :
    ∃ b, ((if code[dest]? = some jumpdest then (m.codeSegment dest).map fun seg => (seg, d)
      else some (false, d)) = some (b, d)) ∧ (b = true ↔ ValidJumpdest code dest) := by
  obtain ⟨bits, hb, hl, hd⟩ := codeBitmap_spec code
  rw [hm] at hb
  cases hb
  by_cases hj : code[dest]? = some jumpdest
  · have hseg : m.codeSegment dest = some (!m.isData dest) := by
      unfold Bitvec.codeSegment Bitvec.isData
      rw [List.getElem?_eq_getElem (by omega), List.getD_eq_getElem?_getD,
        List.getElem?_eq_getElem (by omega)]
      simp [bne]
    refine ⟨!m.isData dest, by rw [if_pos hj, hseg]; rfl, ?_⟩
    rw [Bool.not_eq_true', ← Bool.not_eq_true, hd]
    exact ⟨fun h => ⟨hj, h⟩, fun h => h.2⟩
  · exact ⟨false, by rw [if_neg hj], by simp [ValidJumpdest, hj]⟩

/-- **One check.** Against a map whose vectors are analyses of `codes`, a check of a code of
`codes` whose hash no other of them shares answers the naive definition, when the code is shorter
than `2 ^ 62` bytes, and leaves a map of the same kind. -/
theorem has_spec {hash : List UInt8 → Nat} {codes : List (List UInt8)} {d : Destinations}
    (hc : CacheOf hash codes d) {code : List UInt8} (hcode : code ∈ codes)
    (hinj : ∀ c ∈ codes, hash c = hash code → c = code) (hlen : code.length ≤ 2 ^ 62)
    (dest : Nat) :
    ∃ b d', d.has (hash code) code dest = some (b, d') ∧ (b = true ↔ ValidJumpdest code dest) ∧
      CacheOf hash codes d' := by
  unfold Destinations.has
  by_cases hg : Nat.size dest ≥ 63 ∨ dest % 2 ^ 64 ≥ code.length
  · -- refused: a destination of 63 bits or more is past every such code
    refine ⟨false, d, by rw [if_pos hg], ?_, hc⟩
    have hle : code.length ≤ dest := by
      rcases hg with hs | hs
      · have := Nat.lt_size.mp (by omega : 62 < Nat.size dest)
        omega
      · exact Nat.le_trans hs (Nat.mod_le _ _)
    simpa using not_validJumpdest_of_le hle
  · rw [if_neg hg]
    have hsmall : dest < 2 ^ 62 := Nat.size_le.mp (by omega)
    have hmod : dest % 2 ^ 64 = dest := Nat.mod_eq_of_lt (by omega)
    have hdest : dest < code.length := by omega
    simp only [hmod]
    obtain ⟨bits, hbits, -, -⟩ := codeBitmap_spec code
    cases hd : d (hash code) with
    | some m =>
      -- analysed before: the vector under the hash is this code's
      obtain ⟨c, hcm, hch, hcb⟩ := hc _ _ hd
      rw [hinj c hcm hch] at hcb
      obtain ⟨b, hb, hv⟩ := has_of_bitmap d hcb hdest
      exact ⟨b, d, by simpa using hb, hv, hc⟩
    | none =>
      -- analysed now and cached under the hash
      obtain ⟨b, hb, hv⟩ := has_of_bitmap (Function.update d (hash code) (some bits)) hbits hdest
      refine ⟨b, _, by simpa [hbits] using hb, hv, ?_⟩
      intro h m hm
      by_cases hh : h = hash code
      · subst hh
        simp only [Function.update_self, Option.some.injEq] at hm
        exact ⟨code, hcode, rfl, hm ▸ hbits⟩
      · rw [Function.update_of_ne hh] at hm
        exact hc h m hm

/-- Checks of codes from `codes` keep the map one of their analyses, and each answers the naive
definition. -/
theorem hasAll_spec {hash : List UInt8 → Nat} {codes : List (List UInt8)}
    (hinj : ∀ a ∈ codes, ∀ b ∈ codes, hash a = hash b → a = b) :
    ∀ (queries : List (List UInt8 × Nat)) {d : Destinations}, CacheOf hash codes d →
      (∀ q ∈ queries, q.1 ∈ codes ∧ q.1.length ≤ 2 ^ 62) →
      ∃ answers d', hasAll hash d queries = some (answers, d') ∧
        List.Forall₂ (fun q b => b = true ↔ ValidJumpdest q.1 q.2) queries answers
  | [], d, _, _ => ⟨[], d, rfl, .nil⟩
  | (code, dest) :: queries, d, hc, hq => by
    obtain ⟨hcode, hlen⟩ := hq (code, dest) (by simp)
    obtain ⟨b, d₁, h₁, hb, hc₁⟩ :=
      has_spec hc hcode (fun c hc' he => hinj c hc' code hcode he) hlen dest
    obtain ⟨bs, d₂, h₂, hbs⟩ := hasAll_spec hinj queries hc₁ (fun q h => hq q (by simp [h]))
    exact ⟨b :: bs, d₂, by simp [hasAll, h₁, h₂], .cons hb hbs⟩

/-- **Jump checks are the naive definition.** Every code's analysis ends without an index out of
range of its bit vector. And over any run of checks against a new map, when no two codes of the
run share a hash and every code is shorter than `2 ^ 62` bytes, every check answers whether its
destination is a `JUMPDEST` of the code outside the data of every `PUSH` the scan from 0 meets. -/
theorem hasAll_iff_validJumpdest (hash : List UInt8 → Nat) (queries : List (List UInt8 × Nat))
    (hlen : ∀ q ∈ queries, q.1.length ≤ 2 ^ 62)
    (hinj : ∀ a ∈ queries, ∀ b ∈ queries, hash a.1 = hash b.1 → a.1 = b.1) :
    (∀ code, (codeBitmap code).isSome) ∧
      ∃ answers d, hasAll hash (fun _ => none) queries = some (answers, d) ∧
        List.Forall₂ (fun q b => b = true ↔ ValidJumpdest q.1 q.2) queries answers := by
  refine ⟨fun code => ?_, ?_⟩
  · obtain ⟨bits, h, -⟩ := codeBitmap_spec code
    simp [h]
  · have hinj' : ∀ a ∈ queries.map Prod.fst, ∀ b ∈ queries.map Prod.fst, hash a = hash b → a = b := by
      simp only [List.mem_map]
      rintro _ ⟨qa, ha, rfl⟩ _ ⟨qb, hb, rfl⟩ he
      exact hinj qa ha qb hb he
    exact hasAll_spec hinj' queries (cacheOf_empty _ _)
      (fun q h => ⟨List.mem_map_of_mem h, hlen q h⟩)

/-- Two checks of a code whose second byte is the data of a `PUSH1`: the `JUMPDEST` there is not a
destination, the one after it is. -/
theorem hasAll_iff_validJumpdest_push1 :
    (∀ q ∈ [([0x60, 0x5b, 0x5b], 1), ([0x60, 0x5b, 0x5b], 2)],
        (q : List UInt8 × Nat).1.length ≤ 2 ^ 62) ∧
      (∀ a ∈ [(([0x60, 0x5b, 0x5b] : List UInt8), 1), ([0x60, 0x5b, 0x5b], 2)],
        ∀ b ∈ [(([0x60, 0x5b, 0x5b] : List UInt8), 1), ([0x60, 0x5b, 0x5b], 2)],
          List.length a.1 = List.length b.1 → a.1 = b.1) ∧
      ((∀ code, (codeBitmap code).isSome) ∧
        ∃ answers d, hasAll List.length (fun _ => none)
          [([0x60, 0x5b, 0x5b], 1), ([0x60, 0x5b, 0x5b], 2)] = some (answers, d) ∧
          List.Forall₂ (fun q b => b = true ↔ ValidJumpdest q.1 q.2)
            [([0x60, 0x5b, 0x5b], 1), ([0x60, 0x5b, 0x5b], 2)] answers) :=
  ⟨by decide, by decide,
    hasAll_iff_validJumpdest List.length _ (by decide) (by decide)⟩

end GoGaia.Vm
