import Mathlib

/-!
# EVM words and the arithmetic opcodes

What the arithmetic, comparison and bitwise opcodes of the EVM compute, on 256-bit words (`Word`,
a `BitVec 256`), as the yellow paper defines them: unsigned arithmetic modulo `2 ^ 256`, signed
division and remainder on the two's complement reading, and zero where a divisor or a modulus is
zero. This is the reference the operations of `core/vm/instructions.go` are compared with; it says
nothing about how they compute.

Signed division rounds toward zero, and so overflows only at `-2 ^ 255 / -1`, which is
`-2 ^ 255` again (`sdiv_intMin_neg_one`); the signed remainder takes the sign of the dividend
(`toInt_smod`).
-/

namespace GoGaia.Vm

/-- An EVM word. -/
abbrev Word := BitVec 256

/-- The arithmetic, comparison and bitwise opcodes of `core/vm/opcodes.go`. -/
inductive ArithOp where
  | add | mul | sub | div | sdiv | mod | smod | addmod | mulmod | exp | signextend
  | lt | gt | slt | sgt | eq | iszero | and | or | xor | not | byte
deriving DecidableEq, Repr

/-- The words an opcode takes off the stack. -/
def ArithOp.arity : ArithOp → Nat
  | .iszero | .not => 1
  | .addmod | .mulmod => 3
  | _ => 2

namespace Word

/-- One for true, zero for false. -/
def bool (b : Bool) : Word := if b then 1 else 0

/-- `MOD`: zero for a zero divisor. -/
def mod (x y : Word) : Word := if y = 0 then 0 else x % y

/-- `SMOD`: zero for a zero divisor, else the remainder of the truncated division. -/
def smod (x y : Word) : Word := if y = 0 then 0 else x.srem y

/-- `ADDMOD`: the sum modulo `z`, without wrapping, and zero for a zero modulus. -/
def addmod (x y z : Word) : Word :=
  if z = 0 then 0 else BitVec.ofNat 256 ((x.toNat + y.toNat) % z.toNat)

/-- `MULMOD`: the product modulo `z`, without wrapping, and zero for a zero modulus. -/
def mulmod (x y z : Word) : Word :=
  if z = 0 then 0 else BitVec.ofNat 256 (x.toNat * y.toNat % z.toNat)

/-- `SIGNEXTEND`: extends the sign of the low `b + 1` bytes; from `b = 31` on the word is left. -/
def signextend (b x : Word) : Word :=
  if b.toNat < 31 then (x.setWidth (8 * b.toNat + 8)).signExtend 256 else x

/-- `BYTE`: byte `i` counted from the most significant, and zero from `i = 32` on. -/
def byte (i x : Word) : Word :=
  if i.toNat < 32 then (x >>> (8 * (31 - i.toNat))) &&& 0xff else 0

end Word

/-- The word an opcode pushes for the words it pops, the top of the stack first. -/
def ArithOp.spec : ArithOp → List Word → Word
  | .add, [x, y] => x + y
  | .mul, [x, y] => x * y
  | .sub, [x, y] => x - y
  | .div, [x, y] => x / y
  | .sdiv, [x, y] => x.sdiv y
  | .mod, [x, y] => Word.mod x y
  | .smod, [x, y] => Word.smod x y
  | .addmod, [x, y, z] => Word.addmod x y z
  | .mulmod, [x, y, z] => Word.mulmod x y z
  | .exp, [x, y] => x ^ y.toNat
  | .signextend, [b, x] => Word.signextend b x
  | .lt, [x, y] => Word.bool (x.ult y)
  | .gt, [x, y] => Word.bool (y.ult x)
  | .slt, [x, y] => Word.bool (x.slt y)
  | .sgt, [x, y] => Word.bool (y.slt x)
  | .eq, [x, y] => Word.bool (x == y)
  | .iszero, [x] => Word.bool (x == 0)
  | .and, [x, y] => x &&& y
  | .or, [x, y] => x ||| y
  | .xor, [x, y] => x ^^^ y
  | .not, [x] => ~~~x
  | .byte, [i, x] => Word.byte i x
  | _, _ => 0

namespace Word

/-- Division by zero gives zero, unsigned and signed. -/
theorem div_zero_eq (x : Word) : x / 0 = 0 ∧ x.sdiv 0 = 0 :=
  ⟨BitVec.udiv_zero, BitVec.sdiv_zero⟩

theorem mod_zero (x : Word) : mod x 0 = 0 := if_pos rfl

theorem smod_zero (x : Word) : smod x 0 = 0 := if_pos rfl

/-- The one signed quotient that overflows comes back as the dividend. -/
theorem sdiv_intMin_neg_one : (BitVec.intMin 256).sdiv (-1) = BitVec.intMin 256 := by
  apply BitVec.eq_of_toInt_eq
  rw [BitVec.toInt_sdiv, BitVec.toInt_intMin, show (-1 : Word).toInt = -1 from rfl]
  rfl

/-- The signed remainder has the sign of the dividend: it is the remainder of the truncated
division of the signed readings. -/
theorem toInt_smod {x y : Word} (hy : y ≠ 0) : (smod x y).toInt = x.toInt.tmod y.toInt := by
  rw [smod, if_neg hy, BitVec.toInt_srem]

end Word

end GoGaia.Vm
