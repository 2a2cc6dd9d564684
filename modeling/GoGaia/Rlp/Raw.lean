import GoGaia.Rlp.Codec

/-!
# The slice-based splitter

`rlp/raw.go` reads RLP values straight off a byte slice: `readKind` reads the header at the
front, `Split` cuts off the first value, `SplitString` and `SplitList` check its kind, and
`CountValues` counts the values of a payload. The trie decodes its stored nodes with them
(`trie/node.go` `decodeNode`).

Each function is modelled on the slice as a list, its errors as the package's error values. The
one run-time panic on this path, `buf[1]` of a one-byte buffer whose header announces a
one-byte string, is `Error.indexOutOfRange`. On the canonical encoding of an item followed by
any bytes, `split` returns the item's kind and payload and the bytes after it (`split_encItem`),
and `countValues` counts the items of a list payload (`countValues_encItems`).
-/

namespace GoGaia.Rlp

/-- `readSize`: the `slen`-byte big-endian size after a long header. `readKind` passes `slen`
between one and eight, the cases of Go's switch; sizes below 56 and sizes with a leading zero
byte are not canonical. -/
def readSize (b : List UInt8) (slen : UInt8) : Except Error Nat :=
  if slen.toNat > b.length then .error .unexpectedEOF
  else
    let s := if 1 ≤ slen.toNat ∧ slen.toNat ≤ 8 then BigEndian.value (b.take slen.toNat) else 0
    if s < 56 ∨ b.headD 0 = 0 then .error .canonSize else .ok s

/-- The kind, tag size and content size that `readKind` reads from a header byte `b` followed
by `tl`, before the check against the length of the input. -/
def readHeader (b : UInt8) (tl : List UInt8) : Except Error (Kind × Nat × Nat) :=
  if b < 0x80 then .ok (.byte, 0, 1)
  else if b < 0xB8 then
    -- reject strings that should've been single bytes
    if (b - 0x80).toNat = 1 then
      match tl with
      | [] => .error .indexOutOfRange
      | c :: _ => if c < 128 then .error .canonSize else .ok (.string, 1, 1)
    else .ok (.string, 1, (b - 0x80).toNat)
  else if b < 0xC0 then
    (readSize tl (b - 0xB7)).map fun size => (.string, (b - 0xB7).toNat + 1, size)
  else if b < 0xF8 then .ok (.list, 1, (b - 0xC0).toNat)
  else
    (readSize tl (b - 0xF7)).map fun size => (.list, (b - 0xF7).toNat + 1, size)

/-- `readKind`: the kind, tag size and content size of the value at the front of `buf`; values
larger than the input are rejected. -/
def readKind (buf : List UInt8) : Except Error (Kind × Nat × Nat) :=
  match buf with
  | [] => .error .unexpectedEOF
  | b :: tl => do
    let (k, tagsize, contentsize) ← readHeader b tl
    if contentsize > buf.length - tagsize then throw .valueTooLarge
    pure (k, tagsize, contentsize)

/-- `Split`: the kind and content of the first value of `b`, and the bytes after it. -/
def split (b : List UInt8) : Except Error (Kind × List UInt8 × List UInt8) := do
  let (k, ts, cs) ← readKind b
  pure (k, (b.drop ts).take cs, b.drop (ts + cs))

/-- `SplitString`: the content of an RLP string (or single byte) at the front of `b`, and the
bytes after it. -/
def splitString (b : List UInt8) : Except Error (List UInt8 × List UInt8) := do
  let (k, content, rest) ← split b
  if k = .list then throw .expectedString
  pure (content, rest)

/-- `SplitList`: the payload of the list at the front of `b`, and the bytes after it. -/
def splitList (b : List UInt8) : Except Error (List UInt8 × List UInt8) := do
  let (k, content, rest) ← split b
  if k ≠ .list then throw .expectedList
  pure (content, rest)

/-- The loop of `CountValues`, counting from `i`. Every value has at least one byte, so the
length of the input bounds the iterations; `fuel` is that bound. -/
def countLoop : Nat → List UInt8 → Nat → Except Error Nat
  | 0, b, i => if b.length > 0 then .error .outOfFuel else .ok i
  | fuel + 1, b, i =>
    if b.length > 0 then do
      let (_, tagsize, size) ← readKind b
      countLoop fuel (b.drop (tagsize + size)) (i + 1)
    else .ok i

/-- `CountValues`: the number of encoded values in `b`. -/
def countValues (b : List UInt8) : Except Error Nat := countLoop b.length b 0

/-! ## Canonical encodings -/

/-- The header of an item's canonical encoding: its kind, tag size and content size. -/
def Item.header : Item → Kind × Nat × Nat
  | .bytes b => if IsSingleByte b then (.byte, 0, 1) else (.string, headsize b.length, b.length)
  | .list l => (.list, headsize (encItems l).length, (encItems l).length)

/-- The content `Split` returns for an item: the string itself, or the list's payload. -/
def Item.content : Item → List UInt8
  | .bytes b => b
  | .list l => encItems l

/-- The size a header announces: what `readKind` bounds by `2 ^ 64`. -/
def Item.size : Item → Nat
  | .bytes b => b.length
  | .list l => (encItems l).length

theorem encItem_eq_header (t : Item) :
    encItem t = (encItem t).take t.header.2.1 ++ t.content := by
  cases t with
  | bytes b =>
    rw [encItem_bytes]
    by_cases hs : IsSingleByte b <;> simp [Item.header, Item.content, hs]
  | list l => simp [encItem_list, Item.header, Item.content]

theorem length_content (t : Item) : t.content.length = t.header.2.2 := by
  cases t with
  | bytes b =>
    by_cases hs : IsSingleByte b
    · simp [Item.header, Item.content, hs, hs.1]
    · simp [Item.header, Item.content, hs]
  | list l => simp [Item.header, Item.content]

theorem length_encItem_header (t : Item) :
    (encItem t).length = t.header.2.1 + t.header.2.2 := by
  cases t with
  | bytes b =>
    rw [encItem_bytes]
    by_cases hs : IsSingleByte b
    · simp [Item.header, hs, hs.1]
    · simp [Item.header, hs]
  | list l => simp [encItem_list, Item.header]

/-- `readSize` reads the big-endian size `putint` wrote, a size of at least 56. -/
theorem readSize_putint {size : Nat} (rest : List UInt8) (h56 : 56 ≤ size)
    (hsize : size < 2 ^ 64) :
    readSize (putint size ++ rest) (UInt8.ofNat (intsize size)) = .ok size := by
  obtain ⟨hn1, hn8⟩ := Stream.intsize_bounds hsize
  have hn : (UInt8.ofNat (intsize size)).toNat = intsize size := by
    rw [UInt8.toNat_ofNat', Nat.mod_eq_of_lt (by omega)]
  obtain ⟨b, bs, hbs, hb0⟩ := BigEndian.bytes_minLen_head (i := size) (by omega)
  have hval : BigEndian.value (putint size) = size := by
    rw [putint, intsize, BigEndian.value_bytes, Nat.mod_eq_of_lt (BigEndian.lt_pow_minLen size)]
  have hhead : (putint size ++ rest).headD 0 ≠ 0 := by
    simp only [putint, intsize] at hbs ⊢
    rw [hbs]
    exact hb0
  have htake : (putint size ++ rest).take (intsize size) = putint size := by
    simp
  have hcond : ¬ (size < 56 ∨ (putint size ++ rest).headD 0 = 0) :=
    fun h => h.elim (by omega) hhead
  have hs : (if 1 ≤ intsize size ∧ intsize size ≤ 8 then size else 0) = size := if_pos ⟨hn1, hn8⟩
  simp only [readSize, hn, htake, hval, List.length_append, length_putint, hs]
  rw [if_neg (by omega), if_neg hcond]

/-- A tag plus a small offset, read back as a number. -/
private theorem tag_toNat {t : UInt8} {n : Nat} (h : t.toNat + n < 256) :
    (t + UInt8.ofNat n).toNat = t.toNat + n :=
  BigEndian.toNat_add_ofNat h

/-- A short string header: the tag `0x80 + size`, then a payload that is not a single byte
below `0x80`. -/
theorem readHeader_short_string {size : Nat} (h56 : size < 56) (tl : List UInt8)
    (h1 : size = 1 → ∃ c cs, tl = c :: cs ∧ ¬ c < 128) :
    readHeader (0x80 + UInt8.ofNat size) tl = .ok (.string, 1, size) := by
  have hb : (0x80 + UInt8.ofNat size).toNat = 128 + size := tag_toNat (by simp; omega)
  have hlt1 : ¬ (0x80 + UInt8.ofNat size) < 0x80 := by rw [UInt8.lt_iff_toNat_lt, hb]; simp
  have hlt2 : (0x80 + UInt8.ofNat size) < 0xB8 := by rw [UInt8.lt_iff_toNat_lt, hb]; simp; omega
  have hsub : ((0x80 + UInt8.ofNat size) - 0x80).toNat = size := by
    rw [BigEndian.toNat_sub_of_le' (by rw [hb]; simp), hb]; simp
  simp only [readHeader, hlt1, hlt2, hsub, if_false, if_true]
  by_cases hs : size = 1
  · obtain ⟨c, cs, rfl, hc⟩ := h1 hs
    simp [hs, hc]
  · simp [hs]

/-- A long string header: the tag `0xB7 + intsize size`, then the size. -/
theorem readHeader_long_string {size : Nat} (h56 : 56 ≤ size) (hsize : size < 2 ^ 64)
    (rest : List UInt8) :
    readHeader (0xB7 + UInt8.ofNat (intsize size)) (putint size ++ rest) =
      .ok (.string, 1 + intsize size, size) := by
  obtain ⟨hn1, hn8⟩ := Stream.intsize_bounds hsize
  have hb : (0xB7 + UInt8.ofNat (intsize size)).toNat = 183 + intsize size :=
    tag_toNat (by simp; omega)
  have hlt1 : ¬ (0xB7 + UInt8.ofNat (intsize size)) < 0x80 := by
    rw [UInt8.lt_iff_toNat_lt, hb]; simp; omega
  have hlt2 : ¬ (0xB7 + UInt8.ofNat (intsize size)) < 0xB8 := by
    rw [UInt8.lt_iff_toNat_lt, hb]; simp; omega
  have hlt3 : (0xB7 + UInt8.ofNat (intsize size)) < 0xC0 := by
    rw [UInt8.lt_iff_toNat_lt, hb]; simp; omega
  have hsub : (0xB7 + UInt8.ofNat (intsize size)) - 0xB7 = UInt8.ofNat (intsize size) := by
    grind
  have hn : (UInt8.ofNat (intsize size)).toNat = intsize size := by
    rw [UInt8.toNat_ofNat', Nat.mod_eq_of_lt (by omega)]
  simp only [readHeader, hlt1, hlt2, hlt3, hsub, if_false, if_true,
    readSize_putint rest h56 hsize, Except.map, hn]
  rw [Nat.add_comm]

/-- A short list header: the tag `0xC0 + size`. -/
theorem readHeader_short_list {size : Nat} (h56 : size < 56) (tl : List UInt8) :
    readHeader (0xC0 + UInt8.ofNat size) tl = .ok (.list, 1, size) := by
  have hb : (0xC0 + UInt8.ofNat size).toNat = 192 + size := tag_toNat (by simp; omega)
  have hlt1 : ¬ (0xC0 + UInt8.ofNat size) < 0x80 := by rw [UInt8.lt_iff_toNat_lt, hb]; simp; omega
  have hlt2 : ¬ (0xC0 + UInt8.ofNat size) < 0xB8 := by rw [UInt8.lt_iff_toNat_lt, hb]; simp; omega
  have hlt3 : ¬ (0xC0 + UInt8.ofNat size) < 0xC0 := by rw [UInt8.lt_iff_toNat_lt, hb]; simp
  have hlt4 : (0xC0 + UInt8.ofNat size) < 0xF8 := by rw [UInt8.lt_iff_toNat_lt, hb]; simp; omega
  have hsub : ((0xC0 + UInt8.ofNat size) - 0xC0).toNat = size := by
    rw [BigEndian.toNat_sub_of_le' (by rw [hb]; simp), hb]; simp
  simp only [readHeader, hlt1, hlt2, hlt3, hlt4, hsub, if_false, if_true]

/-- A long list header: the tag `0xF7 + intsize size`, then the size. -/
theorem readHeader_long_list {size : Nat} (h56 : 56 ≤ size) (hsize : size < 2 ^ 64)
    (rest : List UInt8) :
    readHeader (0xF7 + UInt8.ofNat (intsize size)) (putint size ++ rest) =
      .ok (.list, 1 + intsize size, size) := by
  obtain ⟨hn1, hn8⟩ := Stream.intsize_bounds hsize
  have hb : (0xF7 + UInt8.ofNat (intsize size)).toNat = 247 + intsize size :=
    tag_toNat (by simp; omega)
  have hlt1 : ¬ (0xF7 + UInt8.ofNat (intsize size)) < 0x80 := by
    rw [UInt8.lt_iff_toNat_lt, hb]; simp; omega
  have hlt2 : ¬ (0xF7 + UInt8.ofNat (intsize size)) < 0xB8 := by
    rw [UInt8.lt_iff_toNat_lt, hb]; simp; omega
  have hlt3 : ¬ (0xF7 + UInt8.ofNat (intsize size)) < 0xC0 := by
    rw [UInt8.lt_iff_toNat_lt, hb]; simp; omega
  have hlt4 : ¬ (0xF7 + UInt8.ofNat (intsize size)) < 0xF8 := by
    rw [UInt8.lt_iff_toNat_lt, hb]; simp; omega
  have hsub : (0xF7 + UInt8.ofNat (intsize size)) - 0xF7 = UInt8.ofNat (intsize size) := by
    grind
  have hn : (UInt8.ofNat (intsize size)).toNat = intsize size := by
    rw [UInt8.toNat_ofNat', Nat.mod_eq_of_lt (by omega)]
  simp only [readHeader, hlt1, hlt2, hlt3, hlt4, hsub, if_false,
    readSize_putint rest h56 hsize, Except.map, hn]
  rw [Nat.add_comm]

/-- A one-byte string that is not its own encoding holds a byte of at least `0x80`. -/
private theorem not_lt_of_not_single {c : UInt8} (hs : ¬ IsSingleByte [c]) : ¬ c < 128 := by
  intro hc
  apply hs
  refine ⟨rfl, ?_⟩
  simp only [List.headD_cons]
  rw [UInt8.lt_iff_toNat_lt] at hc
  rw [UInt8.le_iff_toNat_le]
  simp at hc ⊢
  omega

/-- The header that `readHeader` reads at the front of a canonical encoding, whatever follows
it. -/
theorem readHeader_encItem (t : Item) (rest : List UInt8) (hsize : t.size < 2 ^ 64) :
    ∃ b tl, encItem t ++ rest = b :: tl ∧ readHeader b tl = .ok t.header := by
  cases t with
  | bytes bs =>
    simp only [Item.size] at hsize
    rw [encItem_bytes]
    by_cases hs : IsSingleByte bs
    · obtain ⟨hl, hb⟩ := hs
      obtain ⟨c, rfl⟩ := List.length_eq_one_iff.mp hl
      simp only [List.headD_cons] at hb
      have hc : c < 0x80 := by
        rw [UInt8.le_iff_toNat_le] at hb
        rw [UInt8.lt_iff_toNat_lt]
        simp at hb ⊢
        omega
      refine ⟨c, rest, by simp [IsSingleByte, hb], ?_⟩
      simp [readHeader, hc, Item.header, IsSingleByte, hb]
    · rw [if_neg hs]
      unfold puthead
      by_cases h56 : bs.length < 56
      · rw [if_pos h56]
        refine ⟨_, bs ++ rest, rfl, ?_⟩
        rw [readHeader_short_string h56]
        · simp [Item.header, hs, headsize, h56]
        · intro h1
          obtain ⟨c, rfl⟩ := List.length_eq_one_iff.mp h1
          exact ⟨c, rest, rfl, not_lt_of_not_single hs⟩
      · rw [if_neg h56]
        refine ⟨0xB7 + UInt8.ofNat (intsize bs.length), putint bs.length ++ (bs ++ rest),
          by simp, ?_⟩
        rw [readHeader_long_string (by omega) hsize]
        simp [Item.header, hs, headsize, h56]
  | list l =>
    simp only [Item.size] at hsize
    rw [encItem_list]
    unfold puthead
    by_cases h56 : (encItems l).length < 56
    · rw [if_pos h56]
      refine ⟨_, encItems l ++ rest, rfl, ?_⟩
      rw [readHeader_short_list h56]
      simp [Item.header, headsize, h56]
    · rw [if_neg h56]
      refine ⟨0xF7 + UInt8.ofNat (intsize (encItems l).length),
        putint (encItems l).length ++ (encItems l ++ rest), by simp, ?_⟩
      rw [readHeader_long_list (by omega) hsize]
      simp [Item.header, headsize, h56]

/-- `readKind` reads the header of a canonical encoding, whatever follows it. -/
theorem readKind_encItem (t : Item) (rest : List UInt8) (hsize : t.size < 2 ^ 64) :
    readKind (encItem t ++ rest) = .ok t.header := by
  obtain ⟨b, tl, heq, hh⟩ := readHeader_encItem t rest hsize
  have hle : t.header.2.2 ≤ (b :: tl).length - t.header.2.1 := by
    rw [← heq, List.length_append, length_encItem_header]
    omega
  rw [heq]
  simp only [readKind, hh, bind, Except.bind, pure, Except.pure]
  rw [if_neg (Nat.not_lt.mpr hle)]

/-- `Split` cuts a canonical encoding off the bytes after it. -/
theorem split_encItem (t : Item) (rest : List UInt8) (hsize : t.size < 2 ^ 64) :
    split (encItem t ++ rest) = .ok (t.header.1, t.content, rest) := by
  have hlen := length_encItem_header t
  have htake : ((encItem t).take t.header.2.1).length = t.header.2.1 := by
    rw [List.length_take]; omega
  have hdrop : (encItem t ++ rest).drop t.header.2.1 = t.content ++ rest := by
    conv_lhs => rw [encItem_eq_header t]
    rw [List.append_assoc, List.drop_left' htake]
  simp only [split, readKind_encItem t rest hsize, bind, Except.bind, pure, Except.pure]
  rw [hdrop, ← List.drop_drop, hdrop, List.take_left' (length_content t),
    List.drop_left' (length_content t)]

/-- `SplitString` reads a canonical string encoding. -/
theorem splitString_bytes (bs rest : List UInt8) (hsize : bs.length < 2 ^ 64) :
    splitString (encItem (.bytes bs) ++ rest) = .ok (bs, rest) := by
  have hk : (Item.bytes bs).header.1 ≠ .list := by
    simp only [Item.header]
    split <;> simp
  simp only [splitString, split_encItem (.bytes bs) rest hsize, bind, Except.bind, if_neg hk, pure,
    Except.pure, Item.content]

/-- `SplitList` reads a canonical list encoding as its payload. -/
theorem splitList_list (l : List Item) (rest : List UInt8) (hsize : (encItems l).length < 2 ^ 64) :
    splitList (encItem (.list l) ++ rest) = .ok (encItems l, rest) := by
  simp [splitList, split_encItem (.list l) rest hsize, bind, Except.bind, pure, Except.pure,
    Item.header, Item.content]

/-- `CountValues`'s loop counts the items of a payload, given as many iterations as bytes. -/
theorem countLoop_encItems (l : List Item) (hsize : ∀ t ∈ l, t.size < 2 ^ 64) :
    ∀ (fuel i : Nat), (encItems l).length ≤ fuel → countLoop fuel (encItems l) i = .ok (i + l.length) := by
  induction l with
  | nil =>
    intro fuel i _
    cases fuel <;> simp [countLoop]
  | cons t ts ih =>
    intro fuel i hfuel
    have hpos := length_encItem_pos t
    obtain ⟨fuel, rfl⟩ : ∃ f, fuel = f + 1 := ⟨fuel - 1, by simp at hfuel; omega⟩
    have hdrop : (encItem t ++ encItems ts).drop (t.header.2.1 + t.header.2.2) = encItems ts := by
      rw [← length_encItem_header, List.drop_left]
    have hts := ih (fun u hu => hsize u (List.mem_cons_of_mem t hu)) fuel (i + 1)
      (by simp at hfuel; omega)
    simp only [countLoop, encItems_cons, List.length_append]
    rw [if_pos (by omega), readKind_encItem t _ (hsize t (List.mem_cons_self ..))]
    simp only [bind, Except.bind, hdrop, hts, List.length_cons]
    congr 1
    omega

/-- `CountValues` counts the items of a list payload. -/
theorem countValues_encItems (l : List Item) (hsize : ∀ t ∈ l, t.size < 2 ^ 64) :
    countValues (encItems l) = .ok l.length := by
  rw [countValues, countLoop_encItems l hsize _ 0 le_rfl, Nat.zero_add]

/-! ## What the splitter returns -/

/-- The tag of a header read at the front of `b :: tl` lies within the input. -/
theorem tagsize_le_of_readHeader {b : UInt8} {tl : List UInt8} {k : Kind} {ts cs : Nat}
    (h : readHeader b tl = .ok (k, ts, cs)) : ts ≤ tl.length + 1 := by
  unfold readHeader at h
  split at h
  · cases h; omega
  · split at h
    · split at h
      · cases tl with
        | nil => cases h
        | cons c cs =>
          simp only at h
          split at h
          · cases h
          · cases h; simp
      · cases h; omega
    · split at h
      · cases hs : readSize tl (b - 0xB7) with
        | error e => simp [hs, Except.map] at h
        | ok s =>
          simp only [hs, Except.map, Except.ok.injEq, Prod.mk.injEq] at h
          obtain ⟨-, rfl, -⟩ := h
          unfold readSize at hs
          split at hs
          · cases hs
          · omega
      · split at h
        · cases h; omega
        · cases hs : readSize tl (b - 0xF7) with
          | error e => simp [hs, Except.map] at h
          | ok s =>
            simp only [hs, Except.map, Except.ok.injEq, Prod.mk.injEq] at h
            obtain ⟨-, rfl, -⟩ := h
            unfold readSize at hs
            split at hs
            · cases hs
            · omega

/-- A header `readKind` accepts and its content lie within the input. -/
theorem readKind_ok_le {buf : List UInt8} {k : Kind} {ts cs : Nat}
    (h : readKind buf = .ok (k, ts, cs)) : ts + cs ≤ buf.length := by
  cases buf with
  | nil => cases h
  | cons b tl =>
    simp only [readKind, bind, Except.bind] at h
    cases hh : readHeader b tl with
    | error e => simp [hh] at h
    | ok r =>
      obtain ⟨k', ts', cs'⟩ := r
      have hts := tagsize_le_of_readHeader hh
      simp only [hh] at h
      split at h
      · cases h
      · next hle =>
        simp only [pure, Except.pure, Except.ok.injEq, Prod.mk.injEq] at h
        obtain ⟨-, rfl, rfl⟩ := h
        simp only [List.length_cons] at hle ⊢
        omega

/-- When `Split` succeeds, its content and rest are what follows the header at the front of the
input: the content has the size the header states, and the input is the header, the content
and the rest. -/
theorem split_ok {b : List UInt8} {k : Kind} {content rest : List UInt8}
    (h : split b = .ok (k, content, rest)) :
    ∃ ts, readKind b = .ok (k, ts, content.length) ∧ b = b.take ts ++ content ++ rest ∧
      b.length - content.length - rest.length = ts := by
  simp only [split, bind, Except.bind] at h
  cases hk : readKind b with
  | error e => simp [hk] at h
  | ok r =>
    obtain ⟨k', ts, cs⟩ := r
    have hle := readKind_ok_le hk
    simp only [hk, pure, Except.pure, Except.ok.injEq, Prod.mk.injEq] at h
    obtain ⟨rfl, rfl, rfl⟩ := h
    have hlen : ((b.drop ts).take cs).length = cs := by simp; omega
    refine ⟨ts, by rw [hlen], ?_, by simp; omega⟩
    rw [List.append_assoc, ← List.drop_drop, List.take_append_drop, List.take_append_drop]

/-- `Split` of a two-byte string followed by one more byte: a one-byte header. -/
theorem split_ok_string :
    split [0x82, 1, 2, 3] = .ok (.string, [1, 2], [3]) ∧
      ∃ ts, readKind [0x82, 1, 2, 3] = .ok (.string, ts, ([1, 2] : List UInt8).length) ∧
        ([0x82, 1, 2, 3] : List UInt8) = [0x82, 1, 2, 3].take ts ++ [1, 2] ++ [3] ∧
        ([0x82, 1, 2, 3] : List UInt8).length - ([1, 2] : List UInt8).length -
          ([3] : List UInt8).length = ts :=
  ⟨rfl, split_ok rfl⟩

end GoGaia.Rlp
