import Mathlib
import GoGaia.Lib.ByteBits

/-!
# Bitwise operations on byte slices

`common/bitutil/bitutil.go`. `ANDBytes(dst, a, b)` and `ORBytes(dst, a, b)` write the byte-wise
and, or, of the first `min(len(a), len(b))` bytes of `a` and `b` into `dst` and leave the rest of
`dst` as it is; `TestBytes` tests whether some byte is not zero. On architectures with unaligned
access the word-at-a-time versions run instead, which compute the same bytes: the model is the
byte-at-a-time one. The count of bytes that `ANDBytes` and `ORBytes` return is left out, as is the
case of a destination shorter than the inputs, which the source assumes away. Go's `copy(dst,
src)` is `copyBytes`.

A slice of one length `and`-ed or `or`-ed in place with another acts bit by bit
(`get_andBytes_self`, `get_orBytes_self`), and `TestBytes` finds a set bit exactly when there is
one (`testBytes_iff`).
-/

namespace GoGaia.Bitutil

/-- `ANDBytes(dst, a, b)`: the contents of `dst` afterwards. -/
def andBytes (dst a b : List UInt8) : List UInt8 :=
  List.zipWith (· &&& ·) a b ++ dst.drop (min a.length b.length)

/-- `ORBytes(dst, a, b)`: the contents of `dst` afterwards. -/
def orBytes (dst a b : List UInt8) : List UInt8 :=
  List.zipWith (· ||| ·) a b ++ dst.drop (min a.length b.length)

/-- `TestBytes`: whether some byte of `p` is not zero. -/
def testBytes (p : List UInt8) : Bool := p.any (· != 0)

/-- `copy(dst, src)`: the contents of `dst` afterwards. -/
def copyBytes (dst src : List UInt8) : List UInt8 :=
  src.take dst.length ++ dst.drop src.length

section
variable {a b : List UInt8}

theorem andBytes_self (hab : a.length = b.length) :
    andBytes a a b = List.zipWith (· &&& ·) a b := by
  rw [andBytes, hab, Nat.min_self, ← hab, List.drop_length, List.append_nil]

theorem orBytes_self (hab : a.length = b.length) :
    orBytes a a b = List.zipWith (· ||| ·) a b := by
  rw [orBytes, hab, Nat.min_self, ← hab, List.drop_length, List.append_nil]

theorem length_andBytes_self (hab : a.length = b.length) : (andBytes a a b).length = a.length := by
  rw [andBytes_self hab, List.length_zipWith, hab, Nat.min_self]

theorem length_orBytes_self (hab : a.length = b.length) : (orBytes a a b).length = a.length := by
  rw [orBytes_self hab, List.length_zipWith, hab, Nat.min_self]

theorem get_andBytes_self (hab : a.length = b.length) (j : Nat) :
    ByteBits.get (andBytes a a b) j = (ByteBits.get a j && ByteBits.get b j) := by
  rw [andBytes_self hab, ByteBits.get_zipWith_and hab]

theorem get_orBytes_self (hab : a.length = b.length) (j : Nat) :
    ByteBits.get (orBytes a a b) j = (ByteBits.get a j || ByteBits.get b j) := by
  rw [orBytes_self hab, ByteBits.get_zipWith_or hab]

/-- Copying a slice into one of its length replaces it. -/
theorem copyBytes_of_length_eq (hab : b.length = a.length) : copyBytes a b = b := by
  rw [copyBytes, ← hab, List.take_length, List.drop_of_length_le (by omega), List.append_nil]

end

theorem testBytes_iff (p : List UInt8) : testBytes p = true ↔ ∃ j, ByteBits.get p j = true :=
  ByteBits.any_ne_zero_iff p

end GoGaia.Bitutil
