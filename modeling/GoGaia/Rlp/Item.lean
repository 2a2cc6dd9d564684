import GoGaia.Lib.BigEndian

/-!
# RLP item trees and their canonical encoding

An RLP item is a byte string or a list of items (`Item`). Its canonical encoding (`encItem`) is
the one the package documents in `rlp/decode.go` `readKind`: a single byte below `0x80` is its own
encoding, a string of up to 55 bytes has the one-byte header `0x80 + length`, a longer one the
header `0xB7 + n` followed by the length in `n` big-endian bytes with no leading zero, and lists
are the same with `0xC0` and `0xF7` over the concatenated encodings of their items.

`puthead`, `intsize` and `putint` are the header writers of `rlp/encode.go`; the encoder and the
decoder of the later modules are both compared with `encItem`.
-/

namespace GoGaia.Rlp

/-- An RLP value: a byte string (Go `[]byte`) or a list of values (Go `[]interface{}`). -/
inductive Item where
  | bytes (b : List UInt8)
  | list (l : List Item)
deriving Repr, Inhabited

/-- `intsize`: the least number of bytes needed to store `i`, at least one. Source:
`rlp/encode.go` `intsize`, whose loop shifts `i` right by eight bits until it is zero. -/
def intsize (i : Nat) : Nat := BigEndian.minLen i

/-- `putint`: `i` in big-endian order in the least number of bytes. Source: `rlp/encode.go`
`putint`, whose eight cases write the `intsize i` low bytes of a `uint64`. -/
def putint (i : Nat) : List UInt8 := BigEndian.bytes (intsize i) i

/-- `headsize`: the size of a list or string header for a value of the given size. -/
def headsize (size : Nat) : Nat := if size < 56 then 1 else 1 + intsize size

/-- `puthead`: the header of a string (tags `0x80`, `0xB7`) or list (tags `0xC0`, `0xF7`) whose
payload has `size` bytes. -/
def puthead (smalltag largetag : UInt8) (size : Nat) : List UInt8 :=
  if size < 56 then [smalltag + UInt8.ofNat size]
  else (largetag + UInt8.ofNat (intsize size)) :: putint size

/-- A byte string that is its own encoding: exactly one byte, below `0x80`. The test of
`encbuf.encodeString`, `len(b) == 1 && b[0] <= 0x7F`. -/
def IsSingleByte (b : List UInt8) : Prop := b.length = 1 ∧ b.headD 0 ≤ 0x7F

instance (b : List UInt8) : Decidable (IsSingleByte b) := inferInstanceAs (Decidable (_ ∧ _))

mutual
/-- The canonical RLP encoding of an item. -/
def encItem : Item → List UInt8
  | .bytes b => if IsSingleByte b then b else puthead 0x80 0xB7 b.length ++ b
  | .list l => puthead 0xC0 0xF7 (encItems l).length ++ encItems l

/-- The concatenated encodings of a list's items: the payload of the list's encoding. -/
def encItems : List Item → List UInt8
  | [] => []
  | t :: ts => encItem t ++ encItems ts
end

@[simp] theorem encItems_nil : encItems [] = [] := by simp [encItems]

@[simp] theorem encItems_cons (t : Item) (ts : List Item) :
    encItems (t :: ts) = encItem t ++ encItems ts := by simp [encItems]

theorem encItem_list (l : List Item) :
    encItem (.list l) = puthead 0xC0 0xF7 (encItems l).length ++ encItems l := by
  simp [encItem]

theorem encItem_bytes (b : List UInt8) :
    encItem (.bytes b) = if IsSingleByte b then b else puthead 0x80 0xB7 b.length ++ b := by
  simp [encItem]

@[simp] theorem length_putint (i : Nat) : (putint i).length = intsize i := by
  simp [putint]

@[simp] theorem length_puthead (s l : UInt8) (size : Nat) :
    (puthead s l size).length = headsize size := by
  unfold puthead headsize; split <;> simp [Nat.add_comm]

theorem headsize_pos (size : Nat) : 0 < headsize size := by
  unfold headsize; split <;> omega

/-- An encoding is never empty. -/
theorem encItem_ne_nil (t : Item) : encItem t ≠ [] := by
  cases t with
  | bytes b =>
    rw [encItem_bytes]
    split
    · next h => intro hb; simp [IsSingleByte, hb] at h
    · unfold puthead; split <;> simp
  | list l => rw [encItem_list]; unfold puthead; split <;> simp

end GoGaia.Rlp
