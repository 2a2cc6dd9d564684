import Mathlib
import GoGaia.Common.Math
import GoGaia.Vm.Word

/-!
# The arithmetic operations of the interpreter

`opAdd` to `opMulmod` of `core/vm/instructions.go`, on a stack of `*big.Int` values, which are
unbounded integers here. Each pops its operands, computes on them in place with `big.Int`'s
Euclidean division and two's complement bitwise operations, and pushes the result, masked by
`math.U256` where it may leave the word; the signed operations read their operands through
`math.S256` and put a sign back by hand. `SIGNEXTEND` with a byte index from `31` on pops only the
index and leaves its operand, and `BYTE` overwrites its operand in place. Popping an empty stack
panics (`none`); the interpreter's stack check rules that out before an operation runs. The pool
of integers an operation returns its operands to is left out: no value it pools stays on the stack.

On a stack of words every operation pushes the value `ArithOp.spec` gives, so each result is a
word again (`execute_spec`): the operations refine the EVM word semantics of `GoGaia.Vm.Word`, one
lemma per operation first (`add_val` … `byte_val`), each on the operands' values.
-/

namespace GoGaia.Vm

open Math

/-- The operand stack, top first. -/
abbrev Stack := List Int

/-- An operation that pops one value and pushes one. -/
def unaryOp (f : Int → Int) : Stack → Option Stack
  | x :: rest => some (f x :: rest)
  | [] => none

/-- An operation that pops two values and pushes one. -/
def binaryOp (f : Int → Int → Int) : Stack → Option Stack
  | x :: y :: rest => some (f x y :: rest)
  | _ => none

/-- An operation that pops three values and pushes one. -/
def ternaryOp (f : Int → Int → Int → Int) : Stack → Option Stack
  | x :: y :: z :: rest => some (f x y z :: rest)
  | _ => none

/-- `opAdd`. -/
def opAdd : Stack → Option Stack := binaryOp fun x y => u256 (x + y)

/-- `opSub`. -/
def opSub : Stack → Option Stack := binaryOp fun x y => u256 (x - y)

/-- `opMul`. -/
def opMul : Stack → Option Stack := binaryOp fun x y => u256 (x * y)

/-- `opDiv`. -/
def opDiv : Stack → Option Stack := binaryOp fun x y => if y ≠ 0 then u256 (x / y) else 0

/-- `opSdiv`: the quotient of the absolute values, with the sign of the product. -/
def opSdiv : Stack → Option Stack := binaryOp fun x y =>
  let x := s256 x
  let y := s256 y
  if y = 0 then 0
  else
    let n : Int := if x * y < 0 then -1 else 1
    u256 (|x| / |y| * n)

/-- `opMod`. -/
def opMod : Stack → Option Stack := binaryOp fun x y => if y = 0 then 0 else u256 (x % y)

/-- `opSmod`: the remainder of the absolute values, with the sign of the dividend. -/
def opSmod : Stack → Option Stack := binaryOp fun x y =>
  let x := s256 x
  let y := s256 y
  if y = 0 then 0
  else
    let n : Int := if x < 0 then -1 else 1
    u256 (|x| % |y| * n)

/-- `opExp`. -/
def opExp : Stack → Option Stack := binaryOp exp

/-- `opSignExtend`: below byte `31` the bits from `bit` up are set to bit `bit`, with the mask
`back.Lsh(Big1, bit) - 1`; from byte `31` on only the index is popped. -/
def opSignExtend : Stack → Option Stack
  | back :: rest =>
    if back < 31 then
      match rest with
      | num :: rest =>
        let bit := back.toNat * 8 + 7
        let mask : Int := 2 ^ bit - 1
        some (u256 (if num.testBit bit then Int.lor num (Int.lnot mask) else Int.land num mask)
          :: rest)
      | [] => none
    else some rest
  | [] => none

/-- `opNot`. -/
def opNot : Stack → Option Stack := unaryOp fun x => u256 (Int.lnot x)

/-- `opLt`. -/
def opLt : Stack → Option Stack := binaryOp fun x y => if x < y then 1 else 0

/-- `opGt`. -/
def opGt : Stack → Option Stack := binaryOp fun x y => if x > y then 1 else 0

/-- `opSlt`, which reads `y` through `S256` twice. -/
def opSlt : Stack → Option Stack := binaryOp fun x y =>
  let x := s256 x
  let y := s256 y
  if x < s256 y then 1 else 0

/-- `opSgt`. -/
def opSgt : Stack → Option Stack := binaryOp fun x y =>
  let x := s256 x
  let y := s256 y
  if x > y then 1 else 0

/-- `opEq`. -/
def opEq : Stack → Option Stack := binaryOp fun x y => if x = y then 1 else 0

/-- `opIszero`. -/
def opIszero : Stack → Option Stack := unaryOp fun x => if x > 0 then 0 else 1

/-- `opAnd`. -/
def opAnd : Stack → Option Stack := binaryOp Int.land

/-- `opOr`. -/
def opOr : Stack → Option Stack := binaryOp Int.lor

/-- `opXor`. -/
def opXor : Stack → Option Stack := binaryOp Int.xor

/-- `opByte`: the operand under the index is overwritten with its byte. -/
def opByte : Stack → Option Stack := binaryOp fun th val =>
  if th < 32 then (byte val 32 th.toNat : Int) else 0

/-- `opAddmod`. -/
def opAddmod : Stack → Option Stack := ternaryOp fun x y z =>
  if z > 0 then u256 ((x + y) % z) else 0

/-- `opMulmod`. -/
def opMulmod : Stack → Option Stack := ternaryOp fun x y z =>
  if z > 0 then u256 (x * y % z) else 0

/-- The operation the jump table gives each opcode. -/
def ArithOp.execute : ArithOp → Stack → Option Stack
  | .add => opAdd
  | .mul => opMul
  | .sub => opSub
  | .div => opDiv
  | .sdiv => opSdiv
  | .mod => opMod
  | .smod => opSmod
  | .addmod => opAddmod
  | .mulmod => opMulmod
  | .exp => opExp
  | .signextend => opSignExtend
  | .lt => opLt
  | .gt => opGt
  | .slt => opSlt
  | .sgt => opSgt
  | .eq => opEq
  | .iszero => opIszero
  | .and => opAnd
  | .or => opOr
  | .xor => opXor
  | .not => opNot
  | .byte => opByte

/-! ## Words as `big.Int` values -/

/-- The stack that holds these words, as the `big.Int` values the interpreter keeps. -/
def ofWords (ws : List Word) : Stack := ws.map fun w => (w.toNat : Int)

section
variable (x y z : Word)

theorem toNat_lt_int : (x.toNat : Int) < 2 ^ 256 := by exact_mod_cast x.isLt

/-- A word's value is its signed reading modulo `2 ^ 256`. -/
theorem toNat_eq_toInt_emod : (x.toNat : Int) = x.toInt % 2 ^ 256 := by
  have := x.isLt
  rw [BitVec.toInt_eq_toNat_cond]
  split_ifs <;> omega

/-- `S256` of a word's value is its signed reading. -/
theorem s256_toNat : s256 x.toNat = x.toInt := by
  have := x.isLt
  unfold s256 tt255 tt256
  rw [BitVec.toInt_eq_toNat_cond]
  split_ifs <;> omega

/-- `S256` leaves a signed reading as it is. -/
theorem s256_toInt : s256 x.toInt = x.toInt := by
  have := BitVec.toInt_lt (x := x)
  unfold s256 tt255
  rw [if_pos this]

theorem toInt_eq_zero_iff : x.toInt = 0 ↔ x = 0 := by
  rw [← BitVec.toInt_inj]
  exact Iff.rfl

theorem toNat_bool (b : Bool) : ((Word.bool b).toNat : Int) = if b then 1 else 0 := by
  cases b <;> rfl

/-! ## One operation at a time -/

theorem add_val : u256 (x.toNat + y.toNat) = (x + y).toNat := by
  rw [u256_eq_emod, BitVec.toNat_add]
  push_cast
  rfl

theorem sub_val : u256 (x.toNat - y.toNat) = (x - y).toNat := by
  have := x.isLt
  have := y.isLt
  rw [u256_eq_emod, BitVec.toNat_sub]
  omega

theorem mul_val : u256 (x.toNat * y.toNat) = (x * y).toNat := by
  rw [u256_eq_emod, BitVec.toNat_mul]
  push_cast
  rfl

theorem div_val :
    (if (y.toNat : Int) ≠ 0 then u256 (x.toNat / y.toNat) else 0) = (x / y).toNat := by
  rw [BitVec.toNat_udiv]
  split_ifs with hy
  · rw [← Int.natCast_div, u256_of_lt (by positivity)]
    exact_mod_cast lt_of_le_of_lt (Nat.div_le_self _ _) x.isLt
  · rw [show y.toNat = 0 by omega, Nat.div_zero]
    rfl

theorem mod_val :
    (if (y.toNat : Int) = 0 then 0 else u256 (x.toNat % y.toNat)) = (Word.mod x y).toNat := by
  unfold Word.mod
  split_ifs with h₁ h₂ h₂
  · rfl
  · exact absurd (BitVec.eq_of_toNat_eq (by simpa using h₁)) h₂
  · rw [h₂] at h₁
    exact absurd rfl h₁
  · rw [BitVec.toNat_umod, ← Int.natCast_mod, u256_of_lt (by positivity)]
    exact_mod_cast lt_of_le_of_lt (Nat.mod_le _ _) x.isLt

theorem sdiv_val :
    (let x := s256 x.toNat
     let y := s256 y.toNat
     if y = 0 then 0
     else
       let n : Int := if x * y < 0 then -1 else 1
       u256 (|x| / |y| * n)) = (x.sdiv y).toNat := by
  simp only [s256_toNat]
  by_cases hy : y.toInt = 0
  · rw [if_pos hy, (toInt_eq_zero_iff y).mp hy, show (0 : Word) = 0#256 from rfl, BitVec.sdiv_zero]
    rfl
  · rw [if_neg hy, IntBits.abs_ediv_mul_sign, u256_eq_emod, toNat_eq_toInt_emod, BitVec.toInt_sdiv]
    exact_mod_cast (Int.bmod_emod (x := x.toInt.tdiv y.toInt) (m := 2 ^ 256)).symm

theorem smod_val :
    (let x := s256 x.toNat
     let y := s256 y.toNat
     if y = 0 then 0
     else
       let n : Int := if x < 0 then -1 else 1
       u256 (|x| % |y| * n)) = (Word.smod x y).toNat := by
  simp only [s256_toNat]
  by_cases hy : y.toInt = 0
  · rw [if_pos hy, (toInt_eq_zero_iff y).mp hy, Word.smod, if_pos rfl]
    rfl
  · have hy' : y ≠ 0 := fun h => hy ((toInt_eq_zero_iff y).mpr h)
    rw [if_neg hy, IntBits.abs_emod_mul_sign, u256_eq_emod, toNat_eq_toInt_emod, Word.toInt_smod hy']

theorem addmod_val :
    (if (z.toNat : Int) > 0 then u256 ((x.toNat + y.toNat) % z.toNat) else 0) =
      (Word.addmod x y z).toNat := by
  unfold Word.addmod
  split_ifs with h₁ h₂ h₂
  · rw [h₂] at h₁
    exact absurd h₁ (lt_irrefl _)
  · have hlt : (x.toNat + y.toNat) % z.toNat < 2 ^ 256 :=
      lt_of_lt_of_le (Nat.mod_lt _ (by omega)) z.isLt.le
    rw [BitVec.toNat_ofNat, Nat.mod_eq_of_lt hlt, ← Nat.cast_add, ← Int.natCast_mod,
      u256_of_lt (by positivity) (by exact_mod_cast hlt)]
  · rfl
  · exact absurd (BitVec.eq_of_toNat_eq (by simp; omega)) h₂

theorem mulmod_val :
    (if (z.toNat : Int) > 0 then u256 (x.toNat * y.toNat % z.toNat) else 0) =
      (Word.mulmod x y z).toNat := by
  unfold Word.mulmod
  split_ifs with h₁ h₂ h₂
  · rw [h₂] at h₁
    exact absurd h₁ (lt_irrefl _)
  · have hlt : x.toNat * y.toNat % z.toNat < 2 ^ 256 :=
      lt_of_lt_of_le (Nat.mod_lt _ (by omega)) z.isLt.le
    rw [BitVec.toNat_ofNat, Nat.mod_eq_of_lt hlt, ← Nat.cast_mul, ← Int.natCast_mod,
      u256_of_lt (by positivity) (by exact_mod_cast hlt)]
  · rfl
  · exact absurd (BitVec.eq_of_toNat_eq (by simp; omega)) h₂

theorem exp_val : exp x.toNat y.toNat = (x ^ y.toNat).toNat := by
  rw [exp_eq, BitVec.toNat_pow]
  push_cast
  rfl

theorem not_val : u256 (Int.lnot x.toNat) = (~~~x).toNat := by
  have := x.isLt
  rw [u256_eq_emod, BitVec.toNat_not, show Int.lnot x.toNat = Int.negSucc x.toNat from rfl,
    Int.negSucc_eq]
  omega

theorem lt_val :
    (if (x.toNat : Int) < y.toNat then (1 : Int) else 0) = (Word.bool (x.ult y)).toNat := by
  rw [toNat_bool, BitVec.ult]
  by_cases h : x.toNat < y.toNat <;> simp [h]

theorem gt_val :
    (if (x.toNat : Int) > y.toNat then (1 : Int) else 0) = (Word.bool (y.ult x)).toNat := by
  rw [toNat_bool, BitVec.ult]
  by_cases h : y.toNat < x.toNat <;> simp [h]

theorem slt_val :
    (if s256 x.toNat < s256 (s256 y.toNat) then (1 : Int) else 0) = (Word.bool (x.slt y)).toNat := by
  rw [s256_toNat, s256_toNat, s256_toInt, toNat_bool]
  by_cases h : x.toInt < y.toInt
  · rw [if_pos h, if_pos (BitVec.slt_iff_toInt_lt.mpr h)]
  · rw [if_neg h, if_neg (fun h' => h (BitVec.slt_iff_toInt_lt.mp h'))]

theorem sgt_val :
    (if s256 x.toNat > s256 y.toNat then (1 : Int) else 0) = (Word.bool (y.slt x)).toNat := by
  rw [s256_toNat, s256_toNat, toNat_bool]
  by_cases h : y.toInt < x.toInt
  · rw [if_pos h, if_pos (BitVec.slt_iff_toInt_lt.mpr h)]
  · rw [if_neg h, if_neg (fun h' => h (BitVec.slt_iff_toInt_lt.mp h'))]

theorem eq_val :
    (if (x.toNat : Int) = y.toNat then (1 : Int) else 0) = (Word.bool (x == y)).toNat := by
  rw [toNat_bool]
  by_cases h : x = y
  · simp [h]
  · have h' : (x.toNat : Int) ≠ y.toNat := fun e => h (BitVec.eq_of_toNat_eq (by exact_mod_cast e))
    simp [h, h']

theorem iszero_val :
    (if (x.toNat : Int) > 0 then (0 : Int) else 1) = (Word.bool (x == 0)).toNat := by
  rw [toNat_bool]
  by_cases h : x = 0
  · subst h
    rfl
  · have hpos : 0 < x.toNat := Nat.pos_of_ne_zero fun h0 => h (BitVec.eq_of_toNat_eq h0)
    rw [if_pos (by exact_mod_cast hpos), beq_false_of_ne h]
    rfl

theorem and_val : Int.land x.toNat y.toNat = (x &&& y).toNat := by
  rw [BitVec.toNat_and]
  rfl

theorem or_val : Int.lor x.toNat y.toNat = (x ||| y).toNat := by
  rw [BitVec.toNat_or]
  rfl

theorem xor_val : Int.xor x.toNat y.toNat = (x ^^^ y).toNat := by
  rw [BitVec.toNat_xor]
  rfl

theorem byte_val :
    (if (x.toNat : Int) < 32 then (byte y.toNat 32 (x.toNat : Int).toNat : Int) else 0) =
      (Word.byte x y).toNat := by
  rw [Int.toNat_natCast, byte_eq, Word.byte]
  by_cases h : x.toNat < 32
  · have h' : (x.toNat : Int) < 32 := by exact_mod_cast h
    rw [if_pos h', if_pos h, if_pos h, BitVec.toNat_and, BitVec.toNat_ushiftRight,
      show (0xff : Word).toNat = 2 ^ 8 - 1 from rfl, Nat.and_two_pow_sub_one_eq_mod,
      Nat.shiftRight_eq_div_pow]
  · have h' : ¬(x.toNat : Int) < 32 := by exact_mod_cast h
    rw [if_neg h', if_neg h]
    rfl

/-- `SIGNEXTEND` below byte `31`: the low `8 * b + 8` bits, with their top bit copied upwards. -/
theorem signextend_val (hb : x.toNat < 31) :
    u256 (if (y.toNat : Int).testBit (x.toNat * 8 + 7) then
        Int.lor y.toNat (Int.lnot (2 ^ (x.toNat * 8 + 7) - 1))
      else Int.land y.toNat (2 ^ (x.toNat * 8 + 7) - 1)) = (Word.signextend x y).toNat := by
  have hw : 8 * x.toNat + 8 = x.toNat * 8 + 7 + 1 := by omega
  generalize x.toNat * 8 + 7 = bit at hw ⊢
  have hle : 2 ^ (bit + 1) ≤ 2 ^ 256 := Nat.pow_le_pow_right Nat.zero_lt_two (by omega)
  -- the spec's extension: the low `bit + 1` bits, and above them the sign bit `bit`
  have hspec : (Word.signextend x y).toNat = y.toNat % 2 ^ (bit + 1) +
      if y.toNat.testBit bit then 2 ^ 256 - 2 ^ (bit + 1) else 0 := by
    have hlt : y.toNat % 2 ^ (bit + 1) < 2 ^ 256 :=
      lt_of_lt_of_le (Nat.mod_lt _ (Nat.two_pow_pos _)) hle
    rw [Word.signextend, if_pos hb, BitVec.toNat_signExtend, BitVec.toNat_setWidth,
      BitVec.toNat_setWidth, hw, Nat.mod_eq_of_lt hlt, BitVec.msb_setWidth, ← BitVec.testBit_toNat]
    simp
  have hsucc : 2 ^ (bit + 1) = 2 * 2 ^ bit := Nat.pow_succ'
  have hP : ((2 ^ bit : Nat) : Int) = 2 ^ bit := by norm_cast
  have hlow := Nat.mod_pow_succ (x := y.toNat) (b := 2) (k := bit)
  have hmod := Nat.mod_lt y.toNat (Nat.two_pow_pos bit)
  rw [u256_eq_emod, hspec, show (y.toNat : Int).testBit bit = y.toNat.testBit bit from rfl]
  by_cases ht : y.toNat.testBit bit = true
  · have hdiv : y.toNat / 2 ^ bit % 2 = 1 := by
      rwa [Nat.testBit_eq_decide_div_mod_eq, decide_eq_true_iff] at ht
    rw [hdiv, mul_one] at hlow
    rw [if_pos ht, if_pos ht, IntBits.lor_lnot_two_pow_sub_one, hlow, ← hP]
    generalize y.toNat % 2 ^ bit = r at *
    generalize 2 ^ (bit + 1) = Q at *
    generalize 2 ^ bit = P at *
    omega
  · have hdiv : y.toNat / 2 ^ bit % 2 = 0 := by
      rw [Nat.testBit_eq_decide_div_mod_eq, decide_eq_true_iff] at ht
      omega
    rw [hdiv, mul_zero, add_zero] at hlow
    rw [if_neg ht, if_neg ht, IntBits.land_two_pow_sub_one, hlow, ← hP, ← Int.natCast_mod]
    generalize y.toNat % 2 ^ bit = r at *
    generalize 2 ^ (bit + 1) = Q at *
    generalize 2 ^ bit = P at *
    omega

end

/-! ## Whole operations on a stack of words -/

/-- A value that is a word's is pushed as that word. -/
theorem push_val {a : Int} {w : Word} (rest : Stack) (h : a = w.toNat) :
    some (a :: rest) = some (ofWords [w] ++ rest) := by
  rw [h]
  rfl

/-- `SIGNEXTEND` pops its index and extends its operand in place, or leaves it from byte `31` on. -/
theorem opSignExtend_ofWords (b x : Word) (rest : Stack) :
    opSignExtend (ofWords [b, x] ++ rest) = some (ofWords [Word.signextend b x] ++ rest) := by
  have hstack : ofWords [b, x] ++ rest = (b.toNat : Int) :: (x.toNat : Int) :: rest := rfl
  rw [hstack, opSignExtend]
  by_cases hb : b.toNat < 31
  · rw [if_pos (by exact_mod_cast hb)]
    exact push_val rest (signextend_val b x hb)
  · rw [if_neg (by exact_mod_cast hb), Word.signextend, if_neg hb]
    rfl

/-- On a stack of words each operation pops its operands and pushes the word `ArithOp.spec` gives
for them: the interpreter's operations refine the word semantics. -/
theorem ArithOp.execute_spec (op : ArithOp) (args : List Word) (rest : Stack)
    (h : args.length = op.arity) :
    op.execute (ofWords args ++ rest) = some (ofWords [op.spec args] ++ rest) := by
  cases op with
  | add =>
    obtain ⟨x, y, rfl⟩ := List.length_eq_two.mp h
    exact push_val rest (add_val x y)
  | mul =>
    obtain ⟨x, y, rfl⟩ := List.length_eq_two.mp h
    exact push_val rest (mul_val x y)
  | sub =>
    obtain ⟨x, y, rfl⟩ := List.length_eq_two.mp h
    exact push_val rest (sub_val x y)
  | div =>
    obtain ⟨x, y, rfl⟩ := List.length_eq_two.mp h
    exact push_val rest (div_val x y)
  | sdiv =>
    obtain ⟨x, y, rfl⟩ := List.length_eq_two.mp h
    exact push_val rest (sdiv_val x y)
  | mod =>
    obtain ⟨x, y, rfl⟩ := List.length_eq_two.mp h
    exact push_val rest (mod_val x y)
  | smod =>
    obtain ⟨x, y, rfl⟩ := List.length_eq_two.mp h
    exact push_val rest (smod_val x y)
  | addmod =>
    obtain ⟨x, y, z, rfl⟩ := List.length_eq_three.mp h
    exact push_val rest (addmod_val x y z)
  | mulmod =>
    obtain ⟨x, y, z, rfl⟩ := List.length_eq_three.mp h
    exact push_val rest (mulmod_val x y z)
  | exp =>
    obtain ⟨x, y, rfl⟩ := List.length_eq_two.mp h
    exact push_val rest (exp_val x y)
  | signextend =>
    obtain ⟨b, x, rfl⟩ := List.length_eq_two.mp h
    exact opSignExtend_ofWords b x rest
  | lt =>
    obtain ⟨x, y, rfl⟩ := List.length_eq_two.mp h
    exact push_val rest (lt_val x y)
  | gt =>
    obtain ⟨x, y, rfl⟩ := List.length_eq_two.mp h
    exact push_val rest (gt_val x y)
  | slt =>
    obtain ⟨x, y, rfl⟩ := List.length_eq_two.mp h
    exact push_val rest (slt_val x y)
  | sgt =>
    obtain ⟨x, y, rfl⟩ := List.length_eq_two.mp h
    exact push_val rest (sgt_val x y)
  | eq =>
    obtain ⟨x, y, rfl⟩ := List.length_eq_two.mp h
    exact push_val rest (eq_val x y)
  | iszero =>
    obtain ⟨x, rfl⟩ := List.length_eq_one_iff.mp h
    exact push_val rest (iszero_val x)
  | and =>
    obtain ⟨x, y, rfl⟩ := List.length_eq_two.mp h
    exact push_val rest (and_val x y)
  | or =>
    obtain ⟨x, y, rfl⟩ := List.length_eq_two.mp h
    exact push_val rest (or_val x y)
  | xor =>
    obtain ⟨x, y, rfl⟩ := List.length_eq_two.mp h
    exact push_val rest (xor_val x y)
  | not =>
    obtain ⟨x, rfl⟩ := List.length_eq_one_iff.mp h
    exact push_val rest (not_val x)
  | byte =>
    obtain ⟨x, y, rfl⟩ := List.length_eq_two.mp h
    exact push_val rest (byte_val x y)

/-- The arithmetic operations on stacks of words compute the word semantics, with its edge cases
at a zero divisor, at the one signed overflow, at the signed remainder, and at the indices past
the word; and the exponentiation of `common/math` is the power modulo `2 ^ 256`. -/
theorem arith_ops_match_word_semantics :
    (∀ (op : ArithOp) (args : List Word) (rest : Stack), args.length = op.arity →
      op.execute (ofWords args ++ rest) = some (ofWords [op.spec args] ++ rest) ∧
        ∀ v ∈ ofWords [op.spec args], 0 ≤ v ∧ v < 2 ^ 256) ∧
    (∀ x : Word, ArithOp.spec .div [x, 0] = 0 ∧ ArithOp.spec .sdiv [x, 0] = 0 ∧
      ArithOp.spec .mod [x, 0] = 0 ∧ ArithOp.spec .smod [x, 0] = 0) ∧
    ArithOp.spec .sdiv [BitVec.intMin 256, -1] = BitVec.intMin 256 ∧
    (∀ x y : Word, y ≠ 0 → (ArithOp.spec .smod [x, y]).toInt = x.toInt.tmod y.toInt) ∧
    (∀ b x : Word, 31 ≤ b.toNat → ArithOp.spec .signextend [b, x] = x) ∧
    (∀ i x : Word, 32 ≤ i.toNat → ArithOp.spec .byte [i, x] = 0) ∧
    ∀ (b : Int) (e : Nat), exp b e = b ^ e % 2 ^ 256 := by
  refine ⟨?_, ?_, Word.sdiv_intMin_neg_one, fun x y hy => Word.toInt_smod hy, ?_, ?_, exp_eq⟩
  · intro op args rest h
    refine ⟨op.execute_spec args rest h, ?_⟩
    intro v hv
    rw [ofWords, List.map_singleton, List.mem_singleton] at hv
    exact hv ▸ ⟨Int.natCast_nonneg _, toNat_lt_int _⟩
  · intro x
    exact ⟨(Word.div_zero_eq x).1, (Word.div_zero_eq x).2, Word.mod_zero x, Word.smod_zero x⟩
  · intro b x hb
    exact if_neg (by omega)
  · intro i x hi
    exact if_neg (by omega)

/-- `SDIV` of `-2 ^ 255` by `-1` on the stack pushes `-2 ^ 255` back. -/
theorem sdiv_intMin_pushes_intMin :
    ArithOp.execute .sdiv (ofWords [BitVec.intMin 256, -1]) = some (ofWords [BitVec.intMin 256]) := by
  have h := (arith_ops_match_word_semantics.1 .sdiv [BitVec.intMin 256, -1] [] rfl).1
  rwa [List.append_nil, List.append_nil, show ArithOp.spec .sdiv [BitVec.intMin 256, -1] =
    BitVec.intMin 256 from Word.sdiv_intMin_neg_one] at h

end GoGaia.Vm
