import GoGaia.Rlp.Typed
import GoGaia.Rlp.Codec

/-!
# Structs of string fields

A struct whose fields are unsigned integers that fit their type, `*big.Int`s, `[]byte`s and
pointers to byte arrays of at least two bytes (nil only under `rlp:"nil"`), some of them ignored
with `rlp:"-"`, is written as the list of one string per field that is not ignored
(`FlatFields`), and the decoder of its type reads that list back as the value: `encodeValue`
returns the canonical encoding of the list (`encodeValue_flatStruct`) and `decodeValue` of that
encoding returns the value (`decodeValue_flatStruct`).

Each field is read by its decoder from a stream positioned at the field's string inside the
struct's list (`decode_flatField`), the fields one after another by induction on the fields
(`decodeFields_flat`), and the struct between `List` and `ListEnd`. The byte-array fields of
length one are left out: `decodeByteArray` reads them through `Uint`, which does not re-arm the
stream on a zero byte (`decodeValue_zero_byteArray_field`).
-/

namespace GoGaia.Rlp

open EStateM

/-- The string `writeUint` and `writeBigInt` write for `i`: its shortest big-endian form, empty
for zero. -/
def uintString (i : Nat) : List UInt8 := if i = 0 then [] else putint i

/-- A field type with its tags whose value `v` is written as the string `b` and read back. -/
inductive FlatField : RType → Tags → Value → List UInt8 → Prop
  | uint {bits i : Nat} (tags : Tags) (hb : bits ≤ 64) (hi : i < 256 ^ (bits / 8)) :
      FlatField (.uint bits) tags (.uint i) (uintString i)
  | bigIntPtr (tags : Tags) (i : Nat) :
      FlatField .bigIntPtr tags (.bigIntPtr (some i)) (uintString i)
  | bytes (tags : Tags) (b : List UInt8) : FlatField .bytes tags (.bytes b) b
  | nilPtr {tags : Tags} (n : Nat) (h : tags.nilOK = true) :
      FlatField (.ptr (.byteArray n)) tags (.ptr none) []
  | somePtr (tags : Tags) {b : List UInt8} (h : 1 < b.length) :
      FlatField (.ptr (.byteArray b.length)) tags (.ptr (some (.bytes b))) b

/-- The fields of a struct of `FlatField`s with their values, and the strings of the fields that
are not ignored; an ignored field holds its zero value, which is what the decoder leaves in it.
No field has a `rlp:"tail"` tag. -/
inductive FlatFields : List Field → List Value → List Item → Prop
  | nil : FlatFields [] [] []
  | ignored {name : String} {tags : Tags} {t : RType} {fs : List Field} {vs : List Value}
      {items : List Item} (hi : tags.ignored = true) (ht : tags.tail = false) :
      FlatFields fs vs items → FlatFields (.mk name tags t :: fs) (t.zero :: vs) items
  | field {name : String} {tags : Tags} {t : RType} {v : Value} {b : List UInt8}
      {fs : List Field} {vs : List Value} {items : List Item} (hi : tags.ignored = false)
      (ht : tags.tail = false) (hf : FlatField t tags v b) :
      FlatFields fs vs items → FlatFields (.mk name tags t :: fs) (v :: vs) (.bytes b :: items)

/-! ## Writing -/

theorem encItem_nil : encItem (.bytes []) = [0x80] := by decide

theorem uintString_of_lt {i : Nat} (h0 : 0 < i) (h : i < 128) : uintString i = [UInt8.ofNat i] := by
  rw [uintString, if_neg (by omega), putint, intsize, BigEndian.minLen_of_lt (by omega)]
  rfl

theorem not_isSingleByte_putint {i : Nat} (h : 128 ≤ i) : ¬IsSingleByte (putint i) := by
  rintro ⟨hlen, hb⟩
  rw [length_putint] at hlen
  have hput : putint i = [UInt8.ofNat i] := by
    rw [putint, hlen]
    rfl
  have hlt : i < 256 := by
    have := BigEndian.lt_pow_minLen i
    rw [← intsize, hlen] at this
    simpa using this
  rw [hput, List.headD_cons, UInt8.le_iff_toNat_le, UInt8.toNat_ofNat',
    Nat.mod_eq_of_lt (by simpa using hlt)] at hb
  simp at hb
  omega

/-- `writeUint` of an integer below `2 ^ 64` writes the canonical encoding of its string. -/
theorem writeUint_eq {i : Nat} (hi : i < 2 ^ 64) (w : Encbuf) :
    w.writeUint i = w.write (encItem (.bytes (uintString i))) := by
  unfold Encbuf.writeUint
  by_cases h0 : i = 0
  · rw [if_pos h0, h0, uintString, if_pos rfl, encItem_nil]
  · rw [if_neg h0]
    by_cases h128 : i < 128
    · rw [if_pos h128, uintString_of_lt (by omega) h128, encItem_bytes, if_pos]
      refine ⟨rfl, ?_⟩
      rw [List.headD_cons, UInt8.le_iff_toNat_le, UInt8.toNat_ofNat',
        Nat.mod_eq_of_lt (by simp; omega)]
      simp
      omega
    · -- at most eight bytes, behind a one-byte header
      have h8 : intsize i ≤ 8 := (BigEndian.minLen_le_iff (by norm_num)).mpr (by simpa using hi)
      rw [if_neg h128, uintString, if_neg h0, encItem_bytes,
        if_neg (not_isSingleByte_putint (by omega)), length_putint, puthead, if_pos (by omega)]
      rfl

theorem writeBigInt_eq (i : Nat) (w : Encbuf) :
    w.writeBigInt i = w.write (encItem (.bytes (uintString i))) := by
  unfold Encbuf.writeBigInt uintString
  by_cases h0 : i = 0
  · rw [if_pos h0, if_pos h0, encItem_nil]
  · rw [if_neg h0, if_neg h0, Encbuf.encodeString_eq]

/-- A flat field is written as the canonical encoding of its string. -/
theorem write_flatField {t : RType} {tags : Tags} {v : Value} {b : List UInt8}
    (hf : FlatField t tags v b) (w : Encbuf) : write t tags v w = writeItem (.bytes b) w := by
  rw [writeItem, Encbuf.encodeString_eq]
  cases hf with
  | uint tags hb hi =>
    exact writeUint_eq (lt_of_lt_of_le hi (by
      calc 256 ^ (_ / 8) ≤ 256 ^ 8 := Nat.pow_le_pow_right (by norm_num) (by omega)
        _ = 2 ^ 64 := by norm_num)) w
  | bigIntPtr tags i => exact writeBigInt_eq i w
  | bytes tags b => exact Encbuf.encodeString_eq w b
  | nilPtr n h =>
    show w.write [0x80] = _
    rw [encItem_nil]
  | somePtr tags h => exact Encbuf.encodeString_eq w _

theorem writeFields_flat {fs : List Field} {vs : List Value} {items : List Item}
    (h : FlatFields fs vs items) (w : Encbuf) : writeFields fs vs w = writeItems items w := by
  induction h generalizing w with
  | nil => rfl
  | ignored hi _ _ ih =>
    rw [writeFields, if_pos hi, ih]
  | field hi _ hf _ ih =>
    rw [writeFields, if_neg (by simp [hi]), write_flatField hf, ih]
    rfl

theorem fieldsTagError_flat {fs : List Field} {vs : List Value} {items : List Item}
    (h : FlatFields fs vs items) (name : String) (n : Nat) :
    ∀ i, RType.fieldsTagError name n i fs = none := by
  induction h with
  | nil => intro i; rfl
  | ignored hi ht _ ih =>
    intro i
    simp [RType.fieldsTagError, hi, ht, ih]
  | field hi ht hf _ ih =>
    intro i
    -- no flat field type has an error of its own
    have hnone : ∀ {t tags v b}, FlatField t tags v b → t.tagError = none := by
      intro t tags v b hf
      cases hf <;> rfl
    simp [RType.fieldsTagError, hi, ht, ih, hnone hf]

/-- The encoding of a struct of flat fields is the canonical encoding of the list of their
strings. -/
theorem encodeValue_flatStruct {name : String} {fs : List Field} {vs : List Value}
    {items : List Item} (h : FlatFields fs vs items) :
    encodeValue (.struct name fs) (.struct vs) = .ok (encItem (.list items)) := by
  rw [encodeValue, show (RType.struct name fs).tagError = none from
    fieldsTagError_flat h name fs.length 0]
  show Except.ok ((writeFields fs vs Encbuf.empty.list.1).listEnd Encbuf.empty.list.2).toBytes = _
  rw [writeFields_flat h, ← encodeToBytes_eq]
  rfl

/-! ## Reading one string -/

/-- A stream operation that starts with `Kind` does the same from the stream `Kind` cached. -/
theorem kind_bind_cached {α : Type} (f : Kind × Nat → StreamM α) {s : Stream} {n : Nat}
    {rest : List UInt8} {bv : UInt8} {k : Kind} {size : Nat}
    (h : Stream.kind s = .ok (k, size) (s.cached n rest bv k size)) :
    (Stream.kind >>= f) s = (Stream.kind >>= f) (s.cached n rest bv k size) := by
  rw [bind_of_ok _ h, bind_of_ok _ (Stream.kind_cached rfl rfl)]
  rfl

/-- `Kind` on the encoding of a string: a single byte below `0x80`, or a string header. -/
theorem kind_encItem_bytes {s : Stream} {b rest : List UInt8} (harmed : s.cachedKind = none)
    (h64 : (encItem (.bytes b)).length < 2 ^ 64) (h : Stream.Room s (encItem (.bytes b)).length)
    (hr : s.r = encItem (.bytes b) ++ rest) :
    (∃ c, b = [c] ∧ c < 0x80 ∧ encItem (.bytes b) = [c] ∧
        Stream.kind s = .ok (.byte, 0) (s.cached 1 rest c .byte 0)) ∨
      (¬IsSingleByte b ∧ (encItem (.bytes b)).length = headsize b.length + b.length ∧
        Stream.kind s = .ok (.string, b.length) (s.cached (headsize b.length) (b ++ rest) 0
          .string b.length)) := by
  by_cases hsingle : IsSingleByte b
  · obtain ⟨hl, hc⟩ := hsingle
    match b, hl with
    | [c], _ =>
      have henc : encItem (.bytes [c]) = [c] := by rw [encItem_bytes, if_pos ⟨rfl, hc⟩]
      rw [henc] at h hr
      have hc' : c < 0x80 := by
        rw [List.headD_cons, UInt8.le_iff_toNat_le] at hc
        rw [UInt8.lt_iff_toNat_lt]
        simp at hc ⊢
        omega
      exact .inl ⟨c, rfl, hc', henc, Stream.kind_byte harmed hc' h hr⟩
  · have henc : encItem (.bytes b) = puthead 0x80 0xB7 b.length ++ b := by
      rw [encItem_bytes, if_neg hsingle]
    have hlen : (encItem (.bytes b)).length = headsize b.length + b.length := by
      rw [henc, List.length_append, length_puthead]
    rw [hlen] at h h64
    rw [henc, List.append_assoc] at hr
    exact .inr ⟨hsingle, hlen, Stream.kind_string harmed (by omega) h hr⟩

section
variable {s : Stream} {rest : List UInt8} (harmed : s.cachedKind = none)
include harmed

/-- `Bytes` reads an encoded string back. -/
theorem bytes_encItem {b : List UInt8} (h64 : (encItem (.bytes b)).length < 2 ^ 64)
    (h : Stream.Room s (encItem (.bytes b)).length) (hr : s.r = encItem (.bytes b) ++ rest) :
    ∃ sz bv, Stream.bytes s = .ok b (s.decoded (encItem (.bytes b)).length rest sz bv) := by
  rcases kind_encItem_bytes harmed h64 h hr with ⟨c, rfl, -, henc, hk⟩ | ⟨hsingle, hlen, hk⟩
  · refine ⟨0, c, ?_⟩
    rw [show Stream.bytes s = Stream.bytes _ from kind_bind_cached _ hk, henc]
    exact Stream.bytes_cached_byte s 1 rest c
  · refine ⟨b.length, 0, ?_⟩
    rw [show Stream.bytes s = Stream.bytes _ from kind_bind_cached _ hk, hlen]
    exact Stream.bytes_cached_string rest 0 hsingle (hlen ▸ h)

end

/-! ## `Uint` after `Kind` -/

theorem uint_cached_byte (s : Stream) (n : Nat) (rest : List UInt8) {bv : UInt8} (hbv : bv ≠ 0)
    (bits : Nat) : Stream.uint bits (s.cached n rest bv .byte 0) = .ok bv.toNat (s.decoded n rest 0 bv) := by
  simp [Stream.uint, bind_apply, Stream.cached, Stream.decoded, Stream.kind_cached, Stream.rearm,
    Stream.account, hbv]
  rfl

theorem uint_cached_empty (s : Stream) (n : Nat) (rest : List UInt8) (bv : UInt8) (bits : Nat) :
    Stream.uint bits (s.cached n rest bv .string 0) = .ok 0 (s.decoded n rest 0 bv) := by
  simp [Stream.uint, bind_apply, Stream.cached, Stream.decoded, Stream.kind_cached, Stream.rearm,
    Stream.account, Stream.readUint, attempt]
  rfl

theorem uint_cached_putint {s : Stream} {n : Nat} {rest : List UInt8} {bv : UInt8} {i bits : Nat}
    (h128 : 128 ≤ i) (hsize : intsize i ≤ bits / 8) (h : Stream.Room s (n + intsize i)) :
    Stream.uint bits (s.cached n (putint i ++ rest) bv .string (intsize i)) =
      .ok i (s.decoded (n + intsize i) rest (intsize i) bv) := by
  have hroom : Stream.Room (s.cached n (putint i ++ rest) bv .string (intsize i)) (intsize i) :=
    (Stream.Room.account h).congr rfl rfl rfl
  have hu := Stream.readUint_putint (by omega) hroom rfl
  have hk : Stream.kind (s.cached n (putint i ++ rest) bv .string (intsize i)) =
      .ok (.string, intsize i) (s.cached n (putint i ++ rest) bv .string (intsize i)) :=
    Stream.kind_cached rfl rfl
  rw [Stream.uint, bind_of_ok _ hk]
  dsimp only
  rw [if_neg (show ¬intsize i > bits / 8 by omega), bind_of_ok _ (Stream.attempt_of_ok hu)]
  dsimp only
  rw [if_neg (show ¬(intsize i > 0 ∧ i < 128) by omega), pure_apply]
  simp [Stream.cached, Stream.decoded, Stream.account, Stream.bump_bump, Nat.sub_sub]

section
variable {s : Stream} {rest : List UInt8} (harmed : s.cachedKind = none)
include harmed

/-- `Uint` reads the string of an integer that fits back as the integer. -/
theorem uint_encItem {bits i : Nat} (hi : i < 256 ^ (bits / 8))
    (h64 : (encItem (.bytes (uintString i))).length < 2 ^ 64)
    (h : Stream.Room s (encItem (.bytes (uintString i))).length)
    (hr : s.r = encItem (.bytes (uintString i)) ++ rest) :
    ∃ sz bv, Stream.uint bits s =
      .ok i (s.decoded (encItem (.bytes (uintString i))).length rest sz bv) := by
  rcases kind_encItem_bytes harmed h64 h hr with ⟨c, hc, hc80, henc, hk⟩ | ⟨hsingle, hlen, hk⟩
  · -- a single byte below `0x80`: the integer itself, not zero
    have h0 : i ≠ 0 := by
      rintro rfl
      simp [uintString] at hc
    have h128 : i < 128 := by
      by_contra h128
      rw [uintString, if_neg h0] at hc
      apply not_isSingleByte_putint (not_lt.mp h128)
      rw [hc]
      refine ⟨rfl, ?_⟩
      rw [UInt8.lt_iff_toNat_lt] at hc80
      rw [List.headD_cons, UInt8.le_iff_toNat_le]
      simp at hc80 ⊢
      omega
    have hci : c = UInt8.ofNat i := by
      rw [uintString_of_lt (by omega) h128] at hc
      exact (List.singleton_inj.mp hc).symm
    have hcn : c.toNat = i := by
      rw [hci, UInt8.toNat_ofNat', Nat.mod_eq_of_lt (by simp; omega)]
    have hcz : c ≠ 0 := fun hz => h0 (by rw [← hcn, hz]; rfl)
    refine ⟨0, c, ?_⟩
    rw [show Stream.uint bits s = Stream.uint bits _ from kind_bind_cached _ hk, henc,
      uint_cached_byte s 1 rest hcz bits, hcn]
    rfl
  · rw [show Stream.uint bits s = Stream.uint bits _ from kind_bind_cached _ hk, hlen]
    by_cases h0 : i = 0
    · -- the empty string of zero
      subst h0
      refine ⟨0, 0, ?_⟩
      simp only [uintString, if_true, List.length_nil, List.nil_append, Nat.add_zero]
      exact uint_cached_empty s _ rest 0 bits
    · -- at least one byte, read as a big-endian integer
      have hput : uintString i = putint i := by rw [uintString, if_neg h0]
      have h128 : 128 ≤ i := by
        by_contra h128
        exact hsingle (by
          rw [uintString_of_lt (by omega) (by omega)]
          refine ⟨rfl, ?_⟩
          rw [List.headD_cons, UInt8.le_iff_toNat_le, UInt8.toNat_ofNat',
            Nat.mod_eq_of_lt (by simp; omega)]
          simp
          omega)
      have hpos : 1 ≤ bits / 8 := by
        by_contra hb
        rw [show bits / 8 = 0 by omega] at hi
        omega
      have hsize : intsize i ≤ bits / 8 := (BigEndian.minLen_le_iff hpos).mpr hi
      rw [hlen] at h
      refine ⟨intsize i, 0, ?_⟩
      simp only [hput, length_putint] at h ⊢
      exact uint_cached_putint h128 hsize h

end

/-! ## Byte arrays after `Kind` -/

theorem decodeByteArray_cached {s : Stream} {n : Nat} {b rest : List UInt8} {bv : UInt8}
    (typ : String) (hb : 1 < b.length) (h : Stream.Room s (n + b.length)) :
    decodeByteArray typ b.length (s.cached n (b ++ rest) bv .string b.length) =
      .ok (.bytes b) (s.decoded (n + b.length) rest b.length bv) := by
  have hroom : Stream.Room (s.cached n (b ++ rest) bv .string b.length) b.length :=
    (Stream.Room.account h).congr rfl rfl rfl
  have hk : Stream.kind (s.cached n (b ++ rest) bv .string b.length) =
      .ok (.string, b.length) (s.cached n (b ++ rest) bv .string b.length) :=
    Stream.kind_cached rfl rfl
  rw [decodeByteArray, bind_of_ok _ hk]
  dsimp only
  rw [if_neg (by omega), if_neg (by omega), bind_of_ok _ (Stream.readFull_ok hroom rfl)]
  dsimp only
  rw [if_neg (by omega), pure_apply]
  simp [Stream.cached, Stream.decoded, Stream.account, Stream.bump_bump, Nat.sub_sub]

theorem wrapped_of_ok {α : Type} {x : StreamM α} {s s' : Stream} {a : α} (typ : String)
    (h : x s = .ok a s') : wrapped typ x s = .ok a s' :=
  tryCatch_of_ok _ h

theorem value_uintString (i : Nat) : BigEndian.value (uintString i) = i := by
  unfold uintString
  split
  · next h => rw [h]; rfl
  · rw [putint, intsize, BigEndian.value_bytes, Nat.mod_eq_of_lt (BigEndian.lt_pow_minLen i)]

/-- The string of an integer has no leading zero byte. -/
theorem headD_uintString (i : Nat) : ¬(uintString i ≠ [] ∧ (uintString i).headD 0 = 0) := by
  rintro ⟨hne, hz⟩
  unfold uintString at hne hz
  split at hne
  · exact hne rfl
  · next h0 =>
    obtain ⟨b, bs, hbs, hb0⟩ := BigEndian.bytes_minLen_head (Nat.pos_of_ne_zero h0)
    rw [if_neg h0, putint, intsize, hbs] at hz
    exact hb0 hz

section
variable {s : Stream} {rest : List UInt8} (harmed : s.cachedKind = none)
include harmed

/-- `decodeBigInt` reads the string of an integer back as the integer. -/
theorem decodeBigInt_encItem (i : Nat) (h64 : (encItem (.bytes (uintString i))).length < 2 ^ 64)
    (h : Stream.Room s (encItem (.bytes (uintString i))).length)
    (hr : s.r = encItem (.bytes (uintString i)) ++ rest) :
    ∃ sz bv, decodeBigInt s =
      .ok i (s.decoded (encItem (.bytes (uintString i))).length rest sz bv) := by
  obtain ⟨sz, bv, hb⟩ := bytes_encItem harmed h64 h hr
  refine ⟨sz, bv, ?_⟩
  rw [decodeBigInt, bind_of_ok _ (wrapped_of_ok _ hb)]
  dsimp only
  rw [if_neg (headD_uintString i), pure_apply, value_uintString]

/-- The decoder of a flat field reads its string back as its value. -/
theorem decode_flatField {t : RType} {tags : Tags} {v : Value} {b : List UInt8}
    (hf : FlatField t tags v b) (fuel : Nat) (h64 : (encItem (.bytes b)).length < 2 ^ 64)
    (h : Stream.Room s (encItem (.bytes b)).length) (hr : s.r = encItem (.bytes b) ++ rest) :
    ∃ sz bv, decode t tags fuel s = .ok v (s.decoded (encItem (.bytes b)).length rest sz bv) := by
  cases hf with
  | uint tags hb hi =>
    obtain ⟨sz, bv, hu⟩ := uint_encItem harmed hi h64 h hr
    refine ⟨sz, bv, ?_⟩
    rw [decode, decodeUint, bind_of_ok _ (wrapped_of_ok _ hu)]
    rfl
  | bigIntPtr tags i =>
    obtain ⟨sz, bv, hd⟩ := decodeBigInt_encItem harmed i h64 h hr
    refine ⟨sz, bv, ?_⟩
    rw [decode, bind_of_ok _ hd]
    rfl
  | bytes tags b =>
    obtain ⟨sz, bv, hd⟩ := bytes_encItem harmed h64 h hr
    refine ⟨sz, bv, ?_⟩
    rw [decode, decodeByteSlice, bind_of_ok _ (wrapped_of_ok _ hd)]
    rfl
  | nilPtr n hnil =>
    -- the empty string reads as a nil pointer
    rcases kind_encItem_bytes harmed h64 h hr with ⟨c, hc, -⟩ | ⟨-, hlen, hk⟩
    · cases hc
    · refine ⟨0, 0, ?_⟩
      rw [decode, if_pos hnil, bind_of_ok _ (Stream.attempt_of_ok hk)]
      dsimp only
      rw [if_pos ⟨rfl, by decide⟩, hlen]
      simp [Stream.rearm, Stream.cached, Stream.decoded]
      rfl
  | somePtr tags hb =>
    rcases kind_encItem_bytes harmed h64 h hr with ⟨c, hc, -⟩ | ⟨-, hlen, hk⟩
    · rw [hc] at hb
      simp at hb
    · -- the string reads as the array, with or without `rlp:"nil"`
      refine ⟨b.length, 0, ?_⟩
      have harr := @decodeByteArray_cached _ _ _ rest 0
        ("[" ++ toString b.length ++ "]uint8") hb (hlen ▸ h)
      by_cases hnil : tags.nilOK = true
      · rw [decode, if_pos hnil, bind_of_ok _ (Stream.attempt_of_ok hk)]
        dsimp only
        rw [if_neg (by omega), decode, bind_of_ok _ harr, hlen]
        rfl
      · have harr' : decodeByteArray ("[" ++ toString b.length ++ "]uint8") b.length s = _ :=
          (kind_bind_cached _ hk).trans harr
        rw [decode, if_neg hnil, decode, bind_of_ok _ harr', hlen]
        rfl

end

/-! ## Reading the struct -/

/-- A stream that read nothing since it was re-armed is its own decoded stream. -/
theorem decoded_self {s : Stream} (harmed : s.cachedKind = none) (hk : s.kinderr = none) :
    s.decoded 0 s.r s.size s.byteval = s := by
  cases s
  simp_all [Stream.decoded, Stream.account]

/-- The struct decoder's loop reads the fields' strings back as their values, an ignored field
as its zero value; by induction on the fields. -/
theorem decodeFields_flat {fs : List Field} {vs : List Value} {items : List Item}
    (hfs : FlatFields fs vs items) (typ : String) (fuel : Nat) :
    ∀ (s : Stream) (rest : List UInt8), s.cachedKind = none → s.kinderr = none →
      (encItems items).length < 2 ^ 64 → Stream.Room s (encItems items).length →
      s.r = encItems items ++ rest →
      ∃ sz bv, decodeFields typ fs fuel s =
        .ok vs (s.decoded (encItems items).length rest sz bv) := by
  induction hfs with
  | nil =>
    intro s rest harmed hk _ _ hr
    refine ⟨s.size, s.byteval, ?_⟩
    simp only [encItems_nil, List.nil_append] at hr
    rw [decodeFields, pure_apply, ← hr, encItems_nil, List.length_nil, decoded_self harmed hk]
  | ignored hi _ _ ih =>
    intro s rest harmed hk h64 h hr
    obtain ⟨sz, bv, hd⟩ := ih s rest harmed hk h64 h hr
    refine ⟨sz, bv, ?_⟩
    rw [decodeFields, if_pos hi, bind_of_ok _ hd]
    rfl
  | @field _ tags _ _ b _ _ items hi _ hf _ ih =>
    intro s rest harmed hk h64 h hr
    simp only [encItems_cons, List.length_append] at h64 h
    rw [encItems_cons, List.append_assoc] at hr
    -- the field's string, then the other fields from where it ended
    obtain ⟨sz, bv, hd⟩ := decode_flatField harmed hf fuel (by omega) (h.mono (by omega)) hr
    obtain ⟨sz', bv', hrest⟩ := ih (s.decoded (encItem (.bytes b)).length (encItems items ++ rest)
      sz bv) rest rfl rfl (by omega) (Stream.Room.decoded h _ sz bv) rfl
    refine ⟨sz', bv', ?_⟩
    rw [decodeFields, if_neg (by simp [hi]), bind_of_ok _ (Stream.attempt_of_ok hd)]
    dsimp only
    rw [bind_of_ok _ hrest, pure_apply, Stream.decoded_decoded, encItems_cons, List.length_append]

/-- `ListEnd` at the end of the innermost list leaves it. -/
theorem listEnd_at_end {s : Stream} {t : Listpos} {l : List Listpos}
    (hst : s.stack = t :: l) (heol : t.pos = t.size) :
    Stream.listEnd s = .ok () { s with stack := Stream.bump l t.size, cachedKind := none, size := 0 } := by
  rw [Stream.listEnd_eq, hst]
  simp [heol]

/-- The decoder of a struct of flat fields reads the list of the fields' strings back as the
struct. -/
theorem decode_flatStruct {name : String} {fs : List Field} {vs : List Value} {items : List Item}
    (hfs : FlatFields fs vs items) (tags : Tags) (fuel : Nat) {s : Stream} {rest : List UInt8}
    (harmed : s.cachedKind = none) (h64 : (encItem (.list items)).length < 2 ^ 64)
    (h : Stream.Room s (encItem (.list items)).length) (hr : s.r = encItem (.list items) ++ rest) :
    ∃ s', decode (.struct name fs) tags fuel s = .ok (.struct vs) s' ∧ s'.r = rest := by
  have hlen := length_encItem_list items
  have hhs := headsize_pos (encItems items).length
  rw [hlen] at h h64
  rw [encItem_list, List.append_assoc] at hr
  have hk := Stream.kind_list harmed (by omega) h hr
  -- `List` enters the list: the fields are read with the list as the innermost one
  set s₂ : Stream := { s.decoded (headsize (encItems items).length) (encItems items ++ rest) 0 0 with
    stack := ⟨0, (encItems items).length⟩ :: Stream.bump s.stack (headsize (encItems items).length) }
  have hl : Stream.list s = .ok (encItems items).length s₂ := (kind_bind_cached _ hk).trans
    (Stream.list_cached s (headsize (encItems items).length) (encItems items ++ rest) 0
      (encItems items).length)
  have hroom : Stream.Room s₂ (encItems items).length :=
    ⟨h.1, by simp [s₂, Stream.decoded, Stream.account]; have := h.2.1; omega, by
      intro tos ht; simp [s₂] at ht; subst ht; simp⟩
  obtain ⟨sz, bv, hfields⟩ := decodeFields_flat hfs name fuel s₂ rest rfl rfl (by omega) hroom rfl
  -- `ListEnd` at the end of the list
  have hend := listEnd_at_end (s := s₂.decoded (encItems items).length rest sz bv)
    (t := ⟨0 + (encItems items).length, (encItems items).length⟩) rfl (Nat.zero_add _)
  refine ⟨{ s₂.decoded (encItems items).length rest sz bv with
    stack := Stream.bump (Stream.bump s.stack (headsize (encItems items).length))
      (encItems items).length
    cachedKind := none
    size := 0 }, ?_, rfl⟩
  rw [decode, bind_of_ok _ (wrapped_of_ok _ hl), bind_of_ok _ hfields,
    bind_of_ok _ (wrapped_of_ok _ hend)]
  rfl

/-- `DecodeBytes` into a struct of flat fields inverts `EncodeToBytes`. -/
theorem decodeValue_flatStruct {name : String} {fs : List Field} {vs : List Value}
    {items : List Item} (hfs : FlatFields fs vs items)
    (h64 : (encItem (.list items)).length < 2 ^ 64) :
    decodeValue (.struct name fs) (encItem (.list items)) = .ok (.struct vs) := by
  have hroom : Stream.Room (Stream.ofBytes (encItem (.list items))) (encItem (.list items)).length :=
    ⟨rfl, by simp [Stream.ofBytes], by simp [Stream.ofBytes]⟩
  obtain ⟨s', hd, hr'⟩ := @decode_flatStruct name fs vs items hfs {}
    ((encItem (.list items)).length + 1) _ [] rfl h64 hroom (by simp [Stream.ofBytes])
  rw [decodeValue, show (RType.struct name fs).tagError = none from
    fieldsTagError_flat hfs name fs.length 0]
  simp [decodeBytesAs, EStateM.run, hd, hr']

end GoGaia.Rlp
