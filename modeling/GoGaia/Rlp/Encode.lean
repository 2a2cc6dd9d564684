import GoGaia.Rlp.Item

/-!
# The encoding buffer

`rlp/encode.go` writes a value into an `encbuf`: string data goes to `str` at once, while a list's
header is not known until its items are written, so `list` records a `listhead` at the current
offset and `listEnd` fills in its size; `lhsize` counts the bytes of all closed headers, and
`toBytes` finally interleaves `str` with the encoded headers. `writeItem` is the writer of an
`interface{}` holding an item tree (`writeInterface`, `writeBytes`, `makeSliceWriter`).

The main result is `encodeToBytes_eq`: the bytes `EncodeToBytes` returns for an item are its
canonical encoding `encItem`. It rests on a frame lemma (`writeItem_frame`: writing into a buffer
appends to it what writing into an empty buffer produces) and on `weave_writeItem`, which follows
`toBytes` through the headers of one item.
-/

namespace GoGaia.Rlp

/-- `listhead`: the index of a list header in the string data and, once the list is closed, the
size of the list's payload. While the list is open `size` holds the buffer's `lhsize` at the time
`list` was called. -/
structure Listhead where
  offset : Nat
  size : Nat
deriving Repr, DecidableEq, Inhabited

/-- `encbuf`, without its scratch buffer `sizebuf`. A Go `*listhead` is its index in `lheads`. -/
structure Encbuf where
  str : List UInt8
  lheads : List Listhead
  lhsize : Nat
deriving Repr, DecidableEq, Inhabited

/-- `listhead.encode`. -/
def Listhead.encode (head : Listhead) : List UInt8 := puthead 0xC0 0xF7 head.size

/-- The header moved along by `n` bytes of string data. -/
def Listhead.shift (n : Nat) (head : Listhead) : Listhead := { head with offset := n + head.offset }

@[simp] theorem Listhead.shift_offset (n : Nat) (head : Listhead) :
    (head.shift n).offset = n + head.offset := rfl

@[simp] theorem Listhead.encode_shift (n : Nat) (head : Listhead) :
    (head.shift n).encode = head.encode := rfl

@[simp] theorem Listhead.shift_zero : Listhead.shift 0 = id := by
  funext head; simp [Listhead.shift]

theorem Listhead.shift_shift (m n : Nat) :
    Listhead.shift m ∘ Listhead.shift n = Listhead.shift (m + n) := by
  funext head; simp [Listhead.shift, Nat.add_assoc]

namespace Encbuf

/-- The buffer after `reset`. -/
def empty : Encbuf := ⟨[], [], 0⟩

/-- `size`: the length of the final encoding. -/
def size (w : Encbuf) : Nat := w.str.length + w.lhsize

/-- `Write`: appends to the string data. -/
def write (w : Encbuf) (b : List UInt8) : Encbuf := { w with str := w.str ++ b }

/-- `encodeStringHeader`. -/
def encodeStringHeader (w : Encbuf) (size : Nat) : Encbuf :=
  if size < 56 then w.write [0x80 + UInt8.ofNat size]
  else w.write ((0xB7 + UInt8.ofNat (intsize size)) :: putint size)

/-- `encodeString`. -/
def encodeString (w : Encbuf) (b : List UInt8) : Encbuf :=
  if IsSingleByte b then
    -- fits single byte, no string header
    w.write [b.headD 0]
  else
    (w.encodeStringHeader b.length).write b

/-- `list`: opens a list and returns the index of its header. -/
def list (w : Encbuf) : Encbuf × Nat :=
  ({ w with lheads := w.lheads ++ [⟨w.str.length, w.lhsize⟩] }, w.lheads.length)

/-- `listEnd`: closes the list of header `i`. -/
def listEnd (w : Encbuf) (i : Nat) : Encbuf :=
  let lh := w.lheads.getD i default
  let size := w.size - lh.offset - lh.size
  { w with
    lheads := w.lheads.set i { lh with size := size }
    lhsize := w.lhsize + if size < 56 then 1 else 1 + intsize size }

/-- The loop of `toBytes` from header list `hs` and string position `strpos`: the string data up
to each header, then the header. Each `copy` moves `strpos` to the header's offset, since `out`
is allocated with the final size. -/
def weave (str : List UInt8) : List Listhead → Nat → List UInt8
  | [], strpos => str.drop strpos
  | head :: hs, strpos =>
    (str.drop strpos).take (head.offset - strpos) ++ head.encode ++ weave str hs head.offset

/-- `toBytes`. -/
def toBytes (w : Encbuf) : List UInt8 := weave w.str w.lheads 0

end Encbuf

mutual
/-- The writer of an `interface{}` holding an item: `writeBytes` for a `[]byte`, the slice
writer of `makeSliceWriter` for a `[]interface{}`, which opens a list, writes each element
through `writeInterface` and closes the list. -/
def writeItem : Item → Encbuf → Encbuf
  | .bytes b, w => w.encodeString b
  | .list l, w => (writeItems l w.list.1).listEnd w.list.2

/-- The loop of the slice writer over the elements. -/
def writeItems : List Item → Encbuf → Encbuf
  | [], w => w
  | t :: ts, w => writeItems ts (writeItem t w)
end

/-- `EncodeToBytes` of an item tree. -/
def encodeToBytes (t : Item) : List UInt8 := (writeItem t Encbuf.empty).toBytes

/-! ## Writing a string -/

namespace Encbuf

@[simp] theorem write_str (w : Encbuf) (b : List UInt8) : (w.write b).str = w.str ++ b := rfl
@[simp] theorem write_lheads (w : Encbuf) (b : List UInt8) : (w.write b).lheads = w.lheads := rfl
@[simp] theorem write_lhsize (w : Encbuf) (b : List UInt8) : (w.write b).lhsize = w.lhsize := rfl

theorem write_write (w : Encbuf) (b c : List UInt8) : (w.write b).write c = w.write (b ++ c) := by
  simp [write, List.append_assoc]

theorem encodeStringHeader_eq (w : Encbuf) (size : Nat) :
    w.encodeStringHeader size = w.write (puthead 0x80 0xB7 size) := by
  unfold encodeStringHeader puthead; split <;> rfl

/-- A string is written as its canonical encoding. Source: `encbuf.encodeString`. -/
theorem encodeString_eq (w : Encbuf) (b : List UInt8) :
    w.encodeString b = w.write (encItem (.bytes b)) := by
  rw [encodeString, encItem_bytes]
  split
  · next h =>
    obtain ⟨hl, -⟩ := h
    match b, hl with
    | [c], _ => rfl
  · rw [encodeStringHeader_eq, write_write]

/-! ## Appending buffers -/

/-- `v` written after `w`: the string data of `v` after that of `w`, the headers of `v` moved
along by the length of `w`'s string data. -/
def append (w v : Encbuf) : Encbuf :=
  ⟨w.str ++ v.str, w.lheads ++ v.lheads.map (Listhead.shift w.str.length), w.lhsize + v.lhsize⟩

@[simp] theorem append_str (w v : Encbuf) : (w.append v).str = w.str ++ v.str := rfl
@[simp] theorem append_lhsize (w v : Encbuf) : (w.append v).lhsize = w.lhsize + v.lhsize := rfl
@[simp] theorem append_lheads (w v : Encbuf) :
    (w.append v).lheads = w.lheads ++ v.lheads.map (Listhead.shift w.str.length) := rfl

@[simp] theorem append_empty (w : Encbuf) : w.append empty = w := by
  simp [append, empty]

@[simp] theorem empty_append (v : Encbuf) : empty.append v = v := by
  simp [append, empty]

theorem append_assoc (u v w : Encbuf) : (u.append v).append w = u.append (v.append w) := by
  simp only [append, List.append_assoc, List.length_append, List.map_append, List.map_map,
    Listhead.shift_shift, Nat.add_assoc]

theorem write_eq_append (w : Encbuf) (b : List UInt8) : w.write b = w.append (empty.write b) := by
  simp [append, write, empty]

/-- Closing a list opened at the end of `w` after writing `v` into it is closing the same list
opened in an empty buffer, appended to `w`. -/
theorem listEnd_list_append (w v : Encbuf) :
    ((w.list.1).append v).listEnd w.list.2 = w.append (((empty.list.1).append v).listEnd 0) := by
  simp only [list, append, listEnd, empty, size, List.length_append, List.length_nil,
    List.nil_append, List.append_assoc, List.singleton_append, Nat.zero_add]
  have hget : ∀ (M : List Listhead) (h : Listhead),
      (w.lheads ++ h :: M).getD w.lheads.length default = h := by
    intro M h; simp [List.getD_eq_getElem?_getD]
  have hset : ∀ (M : List Listhead) (h h' : Listhead),
      (w.lheads ++ h :: M).set w.lheads.length h' = w.lheads ++ h' :: M := by
    intro M h h'; simp
  have hsz : w.str.length + (v.str.length + (w.lhsize + v.lhsize)) - w.str.length - w.lhsize =
      v.str.length + v.lhsize := by omega
  simp only [hget, hset, List.getD_cons_zero, List.set_cons_zero, Nat.sub_zero,
    List.map_cons, List.map_map, Listhead.shift_shift, Nat.add_zero, Nat.add_assoc]
  rw [hsz]
  rfl

end Encbuf

/-! ## The frame lemma -/

mutual
/-- Writing an item appends to the buffer what writing it into an empty buffer produces. -/
theorem writeItem_frame : ∀ (t : Item) (w : Encbuf),
    writeItem t w = w.append (writeItem t Encbuf.empty)
  | .bytes b, w => by
    simp only [writeItem, Encbuf.encodeString_eq]
    exact Encbuf.write_eq_append w _
  | .list l, w => by
    simp only [writeItem]
    rw [writeItems_frame l, writeItems_frame l (Encbuf.empty.list.1)]
    rw [Encbuf.listEnd_list_append]
    simp [Encbuf.list, Encbuf.empty]

/-- The frame lemma for the elements of a list. -/
theorem writeItems_frame : ∀ (l : List Item) (w : Encbuf),
    writeItems l w = w.append (writeItems l Encbuf.empty)
  | [], w => by simp [writeItems]
  | t :: ts, w => by
    simp only [writeItems]
    rw [writeItems_frame ts, writeItems_frame ts (writeItem t Encbuf.empty), writeItem_frame t w,
      Encbuf.append_assoc]
end

/-! ## The layout of one item -/

theorem writeItem_bytes_empty (b : List UInt8) :
    writeItem (.bytes b) Encbuf.empty = ⟨encItem (.bytes b), [], 0⟩ := by
  simp [writeItem, Encbuf.encodeString_eq, Encbuf.write, Encbuf.empty]

/-- A list is its items' layout behind a header at offset zero that holds their size. -/
theorem writeItem_list_empty (l : List Item) :
    writeItem (.list l) Encbuf.empty =
      ⟨(writeItems l Encbuf.empty).str,
        ⟨0, (writeItems l Encbuf.empty).size⟩ :: (writeItems l Encbuf.empty).lheads,
        (writeItems l Encbuf.empty).lhsize + headsize (writeItems l Encbuf.empty).size⟩ := by
  rw [writeItem, writeItems_frame l]
  simp only [Encbuf.list, Encbuf.empty, Encbuf.append, Encbuf.listEnd, Encbuf.size, headsize,
    List.nil_append, List.length_nil, Listhead.shift_zero, List.map_id, List.singleton_append,
    List.getD_cons_zero, List.set_cons_zero, Nat.zero_add, Nat.sub_zero]
  rfl

theorem writeItems_cons_empty (t : Item) (ts : List Item) :
    writeItems (t :: ts) Encbuf.empty =
      (writeItem t Encbuf.empty).append (writeItems ts Encbuf.empty) := by
  rw [writeItems, writeItems_frame]

mutual
/-- The size the buffer reports after writing an item is the length of its encoding. -/
theorem size_writeItem : ∀ t : Item, (writeItem t Encbuf.empty).size = (encItem t).length
  | .bytes b => by simp [writeItem_bytes_empty, Encbuf.size]
  | .list l => by
    rw [writeItem_list_empty, encItem_list, List.length_append, length_puthead,
      ← size_writeItems l]
    simp only [Encbuf.size]
    omega

theorem size_writeItems : ∀ l : List Item, (writeItems l Encbuf.empty).size = (encItems l).length
  | [] => by simp [writeItems, Encbuf.size, Encbuf.empty]
  | t :: ts => by
    rw [writeItems_cons_empty, encItems_cons, List.length_append, ← size_writeItem t,
      ← size_writeItems ts]
    simp only [Encbuf.size, Encbuf.append_str, Encbuf.append_lhsize, List.length_append]
    omega
end

/-! ## Following `toBytes` through an item -/

namespace Encbuf

/-- Moving the string position forward over data that no header interrupts. -/
theorem weave_skip (str : List UInt8) {q₁ q₂ : Nat} (h12 : q₁ ≤ q₂) :
    ∀ {hs : List Listhead}, (∀ h ∈ hs, q₂ ≤ h.offset) →
      weave str hs q₁ = (str.drop q₁).take (q₂ - q₁) ++ weave str hs q₂
  | [], _ => by
    simp only [weave]
    conv_lhs => rw [← List.take_append_drop (q₂ - q₁) (str.drop q₁)]
    rw [List.drop_drop]
    congr 2
    omega
  | h :: hs, hhs => by
    have hq : q₂ ≤ h.offset := hhs h (List.mem_cons_self ..)
    simp only [weave, ← List.append_assoc]
    congr 2
    have hsplit : h.offset - q₁ = (q₂ - q₁) + (h.offset - q₂) := by omega
    rw [hsplit, List.take_add, List.drop_drop]
    congr 3
    omega

end Encbuf

mutual
/-- `toBytes` emits an item's encoding from the offset where its string data starts, and then
continues from the end of that data. -/
theorem weave_writeItem : ∀ (t : Item) (str : List UInt8) (pos : Nat) (hs : List Listhead),
    (writeItem t Encbuf.empty).str <+: str.drop pos →
    (∀ h ∈ hs, pos + (writeItem t Encbuf.empty).str.length ≤ h.offset) →
    Encbuf.weave str ((writeItem t Encbuf.empty).lheads.map (Listhead.shift pos) ++ hs) pos =
      encItem t ++ Encbuf.weave str hs (pos + (writeItem t Encbuf.empty).str.length)
  | .bytes b, str, pos, hs, hpre, hhs => by
    rw [writeItem_bytes_empty] at hpre hhs ⊢
    dsimp only at hpre hhs ⊢
    obtain ⟨post, hpost⟩ := hpre
    simp only [List.map_nil, List.nil_append]
    rw [Encbuf.weave_skip str (Nat.le_add_right pos _) hhs, Nat.add_sub_cancel_left, ← hpost,
      List.take_left]
  | .list l, str, pos, hs, hpre, hhs => by
    rw [writeItem_list_empty] at hpre hhs ⊢
    simp only [List.map_cons, List.cons_append, Encbuf.weave, Listhead.shift_offset,
      Nat.add_zero, Nat.sub_self, List.take_zero, List.nil_append]
    rw [weave_writeItems l str pos hs hpre hhs, encItem_list, List.append_assoc]
    simp [Listhead.encode, Listhead.shift, size_writeItems]

theorem weave_writeItems : ∀ (l : List Item) (str : List UInt8) (pos : Nat) (hs : List Listhead),
    (writeItems l Encbuf.empty).str <+: str.drop pos →
    (∀ h ∈ hs, pos + (writeItems l Encbuf.empty).str.length ≤ h.offset) →
    Encbuf.weave str ((writeItems l Encbuf.empty).lheads.map (Listhead.shift pos) ++ hs) pos =
      encItems l ++ Encbuf.weave str hs (pos + (writeItems l Encbuf.empty).str.length)
  | [], str, pos, hs, _, _ => by simp [writeItems, Encbuf.empty]
  | t :: ts, str, pos, hs, hpre, hhs => by
    rw [writeItems_cons_empty] at hpre hhs ⊢
    simp only [Encbuf.append_lheads, Encbuf.append_str, List.length_append, List.map_append,
      List.map_map, Listhead.shift_shift, List.append_assoc] at hpre hhs ⊢
    have ht := weave_writeItem t str pos
      ((writeItems ts Encbuf.empty).lheads.map (Listhead.shift (pos + (writeItem t Encbuf.empty).str.length)) ++ hs)
      ((List.prefix_append _ _).trans hpre)
      (by
        intro h hh
        rcases List.mem_append.mp hh with hh | hh
        · obtain ⟨h', -, rfl⟩ := List.mem_map.mp hh
          simp
        · have := hhs h hh; omega)
    have hts := weave_writeItems ts str (pos + (writeItem t Encbuf.empty).str.length) hs
      (by
        obtain ⟨post, hpost⟩ := hpre
        refine ⟨post, ?_⟩
        rw [← List.drop_drop, ← hpost, List.append_assoc, List.drop_left])
      (by intro h hh; have := hhs h hh; omega)
    rw [ht, hts, encItems_cons, List.append_assoc, Nat.add_assoc]

/-- The bytes `EncodeToBytes` returns for an item tree are its canonical encoding. Source:
`rlp/encode.go` `EncodeToBytes`, `encbuf.toBytes`. -/
theorem encodeToBytes_eq (t : Item) : encodeToBytes t = encItem t := by
  have h := weave_writeItem t (writeItem t Encbuf.empty).str 0 [] (by simp) (by simp)
  rw [Listhead.shift_zero, List.map_id, List.append_nil] at h
  rw [encodeToBytes, Encbuf.toBytes, h, Encbuf.weave, Nat.zero_add, List.drop_length,
    List.append_nil]
end

end GoGaia.Rlp
