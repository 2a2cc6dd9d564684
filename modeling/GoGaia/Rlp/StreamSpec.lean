import GoGaia.Rlp.Stream
import GoGaia.Rlp.Item
import GoGaia.Lib.EState

/-!
# What the stream methods do

One lemma for each method of `Stream` on the inputs the decoder meets, so that the decoding proofs
never unfold a method. `Room s n` says that `n` more bytes may be read: the stream is limited,
as `DecodeBytes` makes it, and neither the input limit nor the innermost list is exceeded. Reading
`n` bytes re-arms the stream and accounts for them (`Stream.account`).

The forward lemmas (`readKind_puthead`, `bytes_encItem`, `list_puthead`, ...) say how a method
reads a canonical header; the inversion lemmas (`readKind_inv`, ...) say what a method that
succeeded has read.
-/

namespace GoGaia.Rlp

open EStateM

namespace Stream

/-- The stack after `n` more bytes of the innermost list were read. -/
def bump : List Listpos → Nat → List Listpos
  | [], _ => []
  | tos :: rest, n => { tos with pos := tos.pos + n } :: rest

/-- The stream after `willRead n`: re-armed, with `n` bytes counted against the input limit and
the innermost list. -/
def account (s : Stream) (n : Nat) : Stream :=
  { s with cachedKind := none, remaining := s.remaining - n, stack := bump s.stack n }

/-- `n` more bytes may be read without exceeding the input limit or the innermost list. -/
def Room (s : Stream) (n : Nat) : Prop :=
  s.limited = true ∧ n ≤ s.remaining ∧ ∀ tos, s.stack.head? = some tos → n ≤ tos.size - tos.pos

@[simp] theorem bump_zero (st : List Listpos) : bump st 0 = st := by
  cases st <;> rfl

@[simp] theorem bump_nil (n : Nat) : bump [] n = [] := rfl

@[simp] theorem bump_cons (tos : Listpos) (rest : List Listpos) (n : Nat) :
    bump (tos :: rest) n = { tos with pos := tos.pos + n } :: rest := rfl

theorem bump_bump (st : List Listpos) (m n : Nat) : bump (bump st m) n = bump st (m + n) := by
  cases st <;> simp [bump, Nat.add_assoc]

@[simp] theorem account_r (s : Stream) (n : Nat) : (s.account n).r = s.r := rfl
@[simp] theorem account_stack (s : Stream) (n : Nat) : (s.account n).stack = bump s.stack n := rfl

theorem Room.mono {s : Stream} {m n : Nat} (h : Room s n) (hmn : m ≤ n) : Room s m :=
  ⟨h.1, by have := h.2.1; omega, fun tos ht => by have := h.2.2 tos ht; omega⟩

theorem Room.account {s : Stream} {m n : Nat} (h : Room s (m + n)) : Room (s.account m) n := by
  obtain ⟨hl, hr, hs⟩ := h
  refine ⟨hl, by simp [Stream.account]; omega, fun tos ht => ?_⟩
  cases hst : s.stack with
  | nil => simp [Stream.account, hst, bump] at ht
  | cons top rest =>
    simp only [Stream.account, hst, bump, List.head?_cons, Option.some.injEq] at ht
    subst ht
    have := hs top (by simp [hst])
    simp only
    omega

/-- `Room` does not look at the unread bytes, the cache or the single-byte value. -/
theorem Room.congr {s s' : Stream} {n : Nat} (h : Room s n) (hl : s'.limited = s.limited)
    (hr : s'.remaining = s.remaining) (hs : s'.stack = s.stack) : Room s' n := by
  obtain ⟨h1, h2, h3⟩ := h
  exact ⟨hl ▸ h1, hr ▸ h2, hs ▸ h3⟩

/-! ## Reading bytes -/

theorem willRead_ok {s : Stream} {n : Nat} (h : Room s n) :
    willRead n s = .ok () (s.account n) := by
  obtain ⟨hl, hr, hs⟩ := h
  cases hst : s.stack with
  | nil =>
    simp [willRead, rearm, bind_apply, account, bump, hst, hl, Nat.not_lt.mpr hr]
  | cons tos rest =>
    have htos := hs tos (by simp [hst])
    simp [willRead, rearm, bind_apply, account, bump, hst, hl, Nat.not_lt.mpr hr,
      Nat.not_lt.mpr htos]

theorem readByte_ok {s : Stream} {b : UInt8} {rest : List UInt8} (h : Room s 1)
    (hr : s.r = b :: rest) : readByte s = .ok b { s.account 1 with r := rest } := by
  simp [readByte, bind_apply, map_apply, willRead_ok h, hr]

theorem readFull_ok {s : Stream} {bs rest : List UInt8} (h : Room s bs.length)
    (hr : s.r = bs ++ rest) :
    readFull bs.length s = .ok bs { s.account bs.length with r := rest } := by
  simp [readFull, bind_apply, map_apply, willRead_ok h, hr]

theorem attempt_of_ok {α : Type} {x : StreamM α} {s s' : Stream} {a : α} (h : x s = .ok a s') :
    attempt x s = .ok (.ok a) s' :=
  tryCatch_of_ok _ (map_of_ok _ h)

theorem attempt_of_error {α : Type} {x : StreamM α} {s s' : Stream} {e : Error}
    (h : x s = .error e s') : attempt x s = .ok (.error e) s' := by
  unfold attempt
  rw [tryCatch_of_error _ (by rw [map_apply, h])]
  rfl

theorem attempt_ne_error {α : Type} {x : StreamM α} {s s' : Stream} {e : Error} :
    attempt x s ≠ .error e s' := by
  cases hx : x s with
  | ok a t => rw [attempt_of_ok hx]; nofun
  | error e' t => rw [attempt_of_error hx]; nofun

/-- What `attempt x` returned is what `x` did. -/
theorem attempt_inv {α : Type} {x : StreamM α} {s s' : Stream} {r : Except Error α}
    (h : attempt x s = .ok r s') :
    x s = match r with
      | .ok a => .ok a s'
      | .error e => .error e s' := by
  cases hx : x s with
  | ok a t => rw [attempt_of_ok hx] at h; cases h; rfl
  | error e t => rw [attempt_of_error hx] at h; cases h; rfl

/-- The shortest big-endian form of a positive size is read back as that size. -/
theorem readUint_putint {s : Stream} {i : Nat} {rest : List UInt8} (hi : 0 < i)
    (h : Room s (intsize i)) (hr : s.r = putint i ++ rest) :
    readUint (intsize i) s = .ok i { s.account (intsize i) with r := rest } := by
  obtain ⟨b, bs, hbs, hb0⟩ := BigEndian.bytes_minLen_head hi
  have hval : BigEndian.value (putint i) = i := by
    rw [putint, intsize, BigEndian.value_bytes, Nat.mod_eq_of_lt (BigEndian.lt_pow_minLen i)]
  cases hn : intsize i with
  | zero => exact absurd hn (Nat.pos_iff_ne_zero.mp (BigEndian.minLen_pos i))
  | succ n =>
    cases n with
    | zero =>
      have hput : putint i = [UInt8.ofNat i] := by simp [putint, hn, BigEndian.bytes]
      rw [hput, List.singleton_append] at hr
      rw [hn] at h
      have hlt : i < 256 := by
        have := BigEndian.lt_pow_minLen i
        rw [← intsize, hn] at this
        simpa using this
      show (readByte >>= fun b => pure b.toNat) s = _
      rw [bind_of_ok _ (readByte_ok h hr), pure_apply, UInt8.toNat_ofNat',
        Nat.mod_eq_of_lt (by simpa using hlt)]
    | succ n =>
      have hlen : (putint i).length = n + 2 := by rw [length_putint, hn]
      rw [hn] at h
      have hrf : readFull (n + 2) s = .ok (putint i) { s.account (n + 1 + 1) with r := rest } := by
        rw [← hlen] at h ⊢
        exact readFull_ok h hr
      have hhead : (putint i).headD 0 ≠ 0 := by
        simp only [putint, intsize] at hbs ⊢
        rw [hbs]
        exact hb0
      simp only [readUint]
      rw [bind_of_ok _ hrf]
      simp only [List.headD_eq_head?_getD] at hhead
      simp [hhead, hval]

/-! ## Headers -/

/-- A single byte below `0x80` is its own header. -/
theorem readKind_byte {s : Stream} {b : UInt8} {rest : List UInt8} (hb : b < 0x80)
    (h : Room s 1) (hr : s.r = b :: rest) :
    readKind s = .ok (.byte, 0, none) { s.account 1 with r := rest, byteval := b } := by
  simp [readKind, bind_apply, map_apply, attempt_of_ok (readByte_ok h hr), hb]

/-- The size field of a long header has between one and eight bytes. -/
theorem intsize_bounds {size : Nat} (h64 : size < 2 ^ 64) :
    1 ≤ intsize size ∧ intsize size ≤ 8 :=
  ⟨BigEndian.minLen_pos size, (BigEndian.minLen_le_iff (by omega)).mpr (by simpa using h64)⟩

/-- A canonical string header is read as its size. -/
theorem readKind_string {s : Stream} {size : Nat} {rest : List UInt8} (hsize : size < 2 ^ 64)
    (h : Room s (headsize size)) (hr : s.r = puthead 0x80 0xB7 size ++ rest) :
    readKind s = .ok (.string, size, none)
      { s.account (headsize size) with r := rest, byteval := 0 } := by
  unfold puthead at hr
  unfold headsize at h ⊢
  split at hr
  · next h56 =>
    rw [if_pos h56] at h ⊢
    rw [List.singleton_append] at hr
    have hb : (0x80 + UInt8.ofNat size).toNat = 128 + size :=
      BigEndian.toNat_add_ofNat (by simp; omega)
    have h1 : ¬ (0x80 + UInt8.ofNat size) < 0x80 := by rw [UInt8.lt_iff_toNat_lt, hb]; simp
    have h2 : (0x80 + UInt8.ofNat size) < 0xB8 := by
      rw [UInt8.lt_iff_toNat_lt, hb]; simp; omega
    have h3 : ((0x80 + UInt8.ofNat size) - 0x80).toNat = size := by
      rw [BigEndian.toNat_sub_of_le' (by rw [hb]; simp), hb]; simp
    have h256 : size < 256 := by omega
    simp [readKind, bind_apply, attempt_of_ok (readByte_ok h hr), h1, h2, h256]
  · next h56 =>
    rw [if_neg h56] at h ⊢
    obtain ⟨hn1, hn8⟩ := intsize_bounds hsize
    have hb : (0xB7 + UInt8.ofNat (intsize size)).toNat = 183 + intsize size :=
      BigEndian.toNat_add_ofNat (by simp; omega)
    have h1 : ¬ (0xB7 + UInt8.ofNat (intsize size)) < 0x80 := by
      rw [UInt8.lt_iff_toNat_lt, hb]; simp; omega
    have h2 : ¬ (0xB7 + UInt8.ofNat (intsize size)) < 0xB8 := by
      rw [UInt8.lt_iff_toNat_lt, hb]; simp; omega
    have h3 : (0xB7 + UInt8.ofNat (intsize size)) < 0xC0 := by
      rw [UInt8.lt_iff_toNat_lt, hb]; simp; omega
    have h4 : ((0xB7 + UInt8.ofNat (intsize size)) - 0xB7).toNat = intsize size := by
      rw [BigEndian.toNat_sub_of_le' (by rw [hb]; simp), hb]; simp
    rw [List.cons_append] at hr
    have hread := readByte_ok (h.mono (by omega)) hr
    have hroom : Room { s.account 1 with r := putint size ++ rest, byteval := 0 } (intsize size) :=
      (@Room.account s 1 (intsize size) h).congr rfl rfl rfl
    have hu := readUint_putint (by omega) hroom rfl
    simp only [readKind, bind_apply, attempt_of_ok hread, h1, h2, h3, h4,
      attempt_of_ok hu, if_false, if_true, modify_apply, pure_apply]
    simp [account, bump_bump, Nat.sub_sub, h56]

/-- A canonical list header is read as the size of the list's payload. -/
theorem readKind_list {s : Stream} {size : Nat} {rest : List UInt8} (hsize : size < 2 ^ 64)
    (h : Room s (headsize size)) (hr : s.r = puthead 0xC0 0xF7 size ++ rest) :
    readKind s = .ok (.list, size, none)
      { s.account (headsize size) with r := rest, byteval := 0 } := by
  unfold puthead at hr
  unfold headsize at h ⊢
  split at hr
  · next h56 =>
    rw [if_pos h56] at h ⊢
    rw [List.singleton_append] at hr
    have hb : (0xC0 + UInt8.ofNat size).toNat = 192 + size :=
      BigEndian.toNat_add_ofNat (by simp; omega)
    have h1 : ¬ (0xC0 + UInt8.ofNat size) < 0x80 := by rw [UInt8.lt_iff_toNat_lt, hb]; simp; omega
    have h2 : ¬ (0xC0 + UInt8.ofNat size) < 0xB8 := by rw [UInt8.lt_iff_toNat_lt, hb]; simp; omega
    have h3 : ¬ (0xC0 + UInt8.ofNat size) < 0xC0 := by rw [UInt8.lt_iff_toNat_lt, hb]; simp
    have h4 : (0xC0 + UInt8.ofNat size) < 0xF8 := by rw [UInt8.lt_iff_toNat_lt, hb]; simp; omega
    have h5 : ((0xC0 + UInt8.ofNat size) - 0xC0).toNat = size := by
      rw [BigEndian.toNat_sub_of_le' (by rw [hb]; simp), hb]; simp
    have h256 : size < 256 := by omega
    simp [readKind, bind_apply, attempt_of_ok (readByte_ok h hr), h1, h2, h3, h4, h256]
  · next h56 =>
    rw [if_neg h56] at h ⊢
    obtain ⟨hn1, hn8⟩ := intsize_bounds hsize
    have hb : (0xF7 + UInt8.ofNat (intsize size)).toNat = 247 + intsize size :=
      BigEndian.toNat_add_ofNat (by simp; omega)
    have h1 : ¬ (0xF7 + UInt8.ofNat (intsize size)) < 0x80 := by
      rw [UInt8.lt_iff_toNat_lt, hb]; simp; omega
    have h2 : ¬ (0xF7 + UInt8.ofNat (intsize size)) < 0xB8 := by
      rw [UInt8.lt_iff_toNat_lt, hb]; simp; omega
    have h3 : ¬ (0xF7 + UInt8.ofNat (intsize size)) < 0xC0 := by
      rw [UInt8.lt_iff_toNat_lt, hb]; simp; omega
    have h4 : ¬ (0xF7 + UInt8.ofNat (intsize size)) < 0xF8 := by
      rw [UInt8.lt_iff_toNat_lt, hb]; simp; omega
    have h5 : ((0xF7 + UInt8.ofNat (intsize size)) - 0xF7).toNat = intsize size := by
      rw [BigEndian.toNat_sub_of_le' (by rw [hb]; simp), hb]; simp
    rw [List.cons_append] at hr
    have hread := readByte_ok (h.mono (by omega)) hr
    have hroom : Room { s.account 1 with r := putint size ++ rest, byteval := 0 } (intsize size) :=
      (@Room.account s 1 (intsize size) h).congr rfl rfl rfl
    have hu := readUint_putint (by omega) hroom rfl
    simp only [readKind, bind_apply, attempt_of_ok hread, h1, h2, h3, h4, h5,
      attempt_of_ok hu, if_false, modify_apply, pure_apply]
    simp [account, bump_bump, Nat.sub_sub, h56]

/-! ## `Kind`, `Bytes`, `List` and `ListEnd` -/

/-- `Kind` on a re-armed stream that is not at the end of a list reads a header; it succeeds when
the value fits the input limit or the enclosing list. -/
theorem kind_of_readKind {s s' : Stream} {k : Kind} {size : Nat}
    (harmed : s.cachedKind = none)
    (hnot : ∀ tos, s.stack.head? = some tos → tos.pos ≠ tos.size)
    (hrk : readKind { s with kinderr := none } = .ok (k, size, none) s') (hroom : Room s' size) :
    kind s = .ok (k, size) { s' with cachedKind := some k, size := size, kinderr := none } := by
  obtain ⟨hl, hr, hs⟩ := hroom
  simp only [harmed] at hrk
  cases hst : s.stack with
  | nil =>
    simp only [hst] at hrk
    cases hs' : s'.stack with
    | nil =>
      simp [kind, bind_apply, harmed, hst, hrk, hs', hl, Nat.not_lt.mpr hr]
    | cons tos' rest' =>
      have := hs tos' (by simp [hs'])
      simp [kind, bind_apply, harmed, hst, hrk, hs', Nat.not_lt.mpr this]
  | cons tos rest =>
    have hne := hnot tos (by simp [hst])
    simp only [hst] at hrk
    cases hs' : s'.stack with
    | nil =>
      simp [kind, bind_apply, harmed, hst, hne, hrk, hs', hl, Nat.not_lt.mpr hr]
    | cons tos' rest' =>
      have := hs tos' (by simp [hs'])
      simp [kind, bind_apply, harmed, hst, hne, hrk, hs', Nat.not_lt.mpr this]

/-- `Kind` returns the cached kind and size of a stream that has not been re-armed. -/
theorem kind_cached {s : Stream} {k : Kind} (hk : s.cachedKind = some k)
    (he : s.kinderr = none) : kind s = .ok (k, s.size) s := by
  simp [kind, bind_apply, hk, he]

/-- At the end of the innermost list `Kind` reports `EOL`. -/
theorem kind_eol {s : Stream} {tos : Listpos} {rest : List Listpos}
    (harmed : s.cachedKind = none) (hst : s.stack = tos :: rest) (heol : tos.pos = tos.size) :
    kind s = .error .eol { s with kinderr := none } := by
  simp [kind, bind_apply, harmed, hst, heol]

/-- Room for a value is room for its first byte, so its list is not at its end. -/
theorem Room.not_eol {s : Stream} {n : Nat} (h : Room s n) (hn : 0 < n) :
    ∀ tos, s.stack.head? = some tos → tos.pos ≠ tos.size := by
  intro tos ht
  have := h.2.2 tos ht
  omega

/-- The stream after `Kind` read a header of `n` bytes that announces a value of kind `k` and
size `size`, with `rest` unread and `bv` the header's single-byte value. -/
def cached (s : Stream) (n : Nat) (rest : List UInt8) (bv : UInt8) (k : Kind) (size : Nat) :
    Stream :=
  { s.account n with r := rest, byteval := bv, cachedKind := some k, size := size, kinderr := none }

/-- The stream after a value of `n` bytes was decoded and `rest` is left: re-armed, with the
size and single-byte value of the last header as they fell. -/
def decoded (s : Stream) (n : Nat) (rest : List UInt8) (sz : Nat) (bv : UInt8) : Stream :=
  { s.account n with r := rest, size := sz, byteval := bv, kinderr := none }

@[simp] theorem decoded_r (s : Stream) (n : Nat) (rest : List UInt8) (sz : Nat) (bv : UInt8) :
    (s.decoded n rest sz bv).r = rest := rfl
@[simp] theorem decoded_cachedKind (s : Stream) (n : Nat) (rest : List UInt8) (sz : Nat)
    (bv : UInt8) : (s.decoded n rest sz bv).cachedKind = none := rfl
@[simp] theorem decoded_stack (s : Stream) (n : Nat) (rest : List UInt8) (sz : Nat) (bv : UInt8) :
    (s.decoded n rest sz bv).stack = bump s.stack n := rfl
@[simp] theorem decoded_size (s : Stream) (n : Nat) (rest : List UInt8) (sz : Nat) (bv : UInt8) :
    (s.decoded n rest sz bv).size = sz := rfl
@[simp] theorem decoded_byteval (s : Stream) (n : Nat) (rest : List UInt8) (sz : Nat)
    (bv : UInt8) : (s.decoded n rest sz bv).byteval = bv := rfl
@[simp] theorem decoded_limited (s : Stream) (n : Nat) (rest : List UInt8) (sz : Nat)
    (bv : UInt8) : (s.decoded n rest sz bv).limited = s.limited := rfl

theorem Room.decoded {s : Stream} {m n : Nat} (h : Room s (m + n)) (rest : List UInt8) (sz : Nat)
    (bv : UInt8) : Room (s.decoded m rest sz bv) n :=
  (Room.account h).congr rfl rfl rfl

/-- Decoding on from a decoded stream composes the accounting. -/
theorem decoded_decoded (s : Stream) (m n : Nat) (x y : List UInt8) (a b : Nat) (c d : UInt8) :
    (s.decoded m x a c).decoded n y b d = s.decoded (m + n) y b d := by
  simp [decoded, account, bump_bump, Nat.sub_sub]

/-- A re-armed stream that read nothing is decoded with nothing accounted. -/
theorem decoded_zero {s : Stream} (harmed : s.cachedKind = none) :
    s.decoded 0 s.r s.size s.byteval = { s with kinderr := none } := by
  cases s
  simp_all [decoded, account]

theorem kind_byte {s : Stream} {b : UInt8} {rest : List UInt8} (harmed : s.cachedKind = none)
    (hb : b < 0x80) (h : Room s 1) (hr : s.r = b :: rest) :
    kind s = .ok (.byte, 0) (s.cached 1 rest b .byte 0) := by
  have hrk := @readKind_byte { s with kinderr := none } b rest hb (h.congr rfl rfl rfl) hr
  exact kind_of_readKind harmed (h.not_eol (by omega)) hrk
    ((@Room.account s 1 0 h).congr rfl rfl rfl)

theorem kind_string {s : Stream} {size : Nat} {rest : List UInt8} (harmed : s.cachedKind = none)
    (hsize : size < 2 ^ 64) (h : Room s (headsize size + size))
    (hr : s.r = puthead 0x80 0xB7 size ++ rest) :
    kind s = .ok (.string, size) (s.cached (headsize size) rest 0 .string size) := by
  have hrk := @readKind_string { s with kinderr := none } size rest hsize
    ((h.mono (Nat.le_add_right _ _)).congr rfl rfl rfl) hr
  exact kind_of_readKind harmed (h.not_eol (by have := headsize_pos size; omega)) hrk
    ((Room.account h).congr rfl rfl rfl)

theorem kind_list {s : Stream} {size : Nat} {rest : List UInt8} (harmed : s.cachedKind = none)
    (hsize : size < 2 ^ 64) (h : Room s (headsize size + size))
    (hr : s.r = puthead 0xC0 0xF7 size ++ rest) :
    kind s = .ok (.list, size) (s.cached (headsize size) rest 0 .list size) := by
  have hrk := @readKind_list { s with kinderr := none } size rest hsize
    ((h.mono (Nat.le_add_right _ _)).congr rfl rfl rfl) hr
  exact kind_of_readKind harmed (h.not_eol (by have := headsize_pos size; omega)) hrk
    ((Room.account h).congr rfl rfl rfl)

/-- `Bytes` after `Kind` found a single byte: the byte, and the stream re-armed. -/
theorem bytes_cached_byte (s : Stream) (n : Nat) (rest : List UInt8) (bv : UInt8) :
    bytes (s.cached n rest bv .byte 0) = .ok [bv] (s.decoded n rest 0 bv) := by
  simp [bytes, bind_apply, map_apply, cached, decoded, kind_cached, rearm, account]

/-- `Bytes` after `Kind` found a string: the string's bytes, when they are not a single byte
that should have been its own encoding. -/
theorem bytes_cached_string {s : Stream} {n : Nat} {b : List UInt8} (rest : List UInt8)
    (bv : UInt8) (hsingle : ¬ IsSingleByte b) (h : Room s (n + b.length)) :
    bytes (s.cached n (b ++ rest) bv .string b.length) =
      .ok b (s.decoded (n + b.length) rest b.length bv) := by
  have hcanon : ¬ (b.length = 1 ∧ b.head?.getD 0 < 128) := by
    rintro ⟨h1, h2⟩
    refine hsingle ⟨h1, ?_⟩
    rw [UInt8.le_iff_toNat_le]; rw [UInt8.lt_iff_toNat_lt] at h2
    simp only [List.headD_eq_head?_getD]; simp at h2 ⊢; omega
  have hroom : Room (s.cached n (b ++ rest) bv .string b.length) b.length :=
    (Room.account h).congr rfl rfl rfl
  have hk : kind (s.cached n (b ++ rest) bv .string b.length) =
      .ok (.string, b.length) (s.cached n (b ++ rest) bv .string b.length) := kind_cached rfl rfl
  rw [bytes, bind_of_ok _ hk]
  simp only [bind_apply, readFull_ok hroom rfl]
  simp [hcanon, cached, decoded, account, bump_bump, Nat.sub_sub]

/-- `List` after `Kind` found a list: the list is entered. -/
theorem list_cached (s : Stream) (n : Nat) (rest : List UInt8) (bv : UInt8) (size : Nat) :
    list (s.cached n rest bv .list size) = .ok size
      { s.decoded n rest 0 bv with stack := ⟨0, size⟩ :: bump s.stack n } := by
  simp [list, bind_apply, map_apply, cached, decoded, kind_cached, account]

/-- `ListEnd` returns to the enclosing list, which has then read the whole inner list, when the
innermost list was read to its end. -/
theorem listEnd_eq (s : Stream) :
    listEnd s = match s.stack with
      | [] => .error .notInList s
      | tos :: rest =>
        if tos.pos = tos.size then
          .ok () { s with stack := bump rest tos.size, cachedKind := none, size := 0 }
        else .error .notAtEOL s := by
  cases hst : s.stack with
  | nil => simp [listEnd, bind_apply, hst]
  | cons tos rest =>
    by_cases heol : tos.pos = tos.size
    · cases rest <;> simp [listEnd, bind_apply, hst, heol, bump]
    · simp [listEnd, bind_apply, hst, heol]

/-! ## What a successful method has read -/

theorem willRead_inv {s s' : Stream} {n : Nat} {u : Unit} (hl : s.limited = true)
    (h : willRead n s = .ok u s') : s' = s.account n := by
  cases hst : s.stack with
  | nil =>
    simp [willRead, rearm, bind_apply, hst, hl] at h
    split at h
    · simp [bind_apply] at h
    · simp at h; rw [← h]; simp [account, hst, hl]
  | cons tos rest =>
    simp [willRead, rearm, bind_apply, hst, hl] at h
    split at h
    · simp [bind_apply] at h
    · split at h
      · simp [bind_apply] at h
      · simp at h; rw [← h]; simp [account, hst, hl]

theorem readByte_inv {s s' : Stream} {b : UInt8} (hl : s.limited = true)
    (h : readByte s = .ok b s') : s.r = b :: s'.r ∧ s' = { s.account 1 with r := s'.r } := by
  obtain ⟨u, s₁, hw, h⟩ := bind_eq_ok h
  obtain rfl := willRead_inv hl hw
  cases hr : s.r with
  | nil => simp [hr, bind_apply] at h
  | cons c rest =>
    simp [hr, bind_apply, map_apply] at h
    obtain ⟨rfl, rfl⟩ := h
    simp

theorem readFull_inv {s s' : Stream} {n : Nat} {bs : List UInt8} (hl : s.limited = true)
    (h : readFull n s = .ok bs s') :
    s.r = bs ++ s'.r ∧ bs.length = n ∧ s' = { s.account n with r := s'.r } := by
  obtain ⟨u, s₁, hw, h⟩ := bind_eq_ok h
  obtain rfl := willRead_inv hl hw
  simp only [get_apply, bind_apply, account_r] at h
  by_cases hn : n ≤ s.r.length
  · simp [hn, bind_apply] at h
    obtain ⟨rfl, rfl⟩ := h
    refine ⟨(List.take_append_drop n s.r).symm, by simp; omega, by simp⟩
  · simp [hn, bind_apply] at h

/-- A successful `readUint` of `n ≥ 1` bytes read `n` bytes, without a leading zero when there
are two or more, and returned their value. -/
theorem readUint_inv {s s' : Stream} {n v : Nat} (hl : s.limited = true) (hn : 1 ≤ n)
    (h : readUint n s = .ok v s') :
    ∃ bs, s.r = bs ++ s'.r ∧ bs.length = n ∧ (2 ≤ n → bs.headD 0 ≠ 0) ∧
      v = BigEndian.value bs ∧ s' = { s.account n with r := s'.r } := by
  match n, hn with
  | 1, _ =>
    obtain ⟨b, s₁, hb, h⟩ := bind_eq_ok h
    simp only [pure_apply, Result.ok.injEq] at h
    obtain ⟨rfl, rfl⟩ := h
    obtain ⟨hr, hs⟩ := readByte_inv hl hb
    exact ⟨[b], hr, rfl, by omega, by simp [BigEndian.value], hs⟩
  | k + 2, _ =>
    obtain ⟨bs, s₁, hb, h⟩ := bind_eq_ok h
    obtain ⟨hr, hlen, hs⟩ := readFull_inv hl hb
    by_cases h0 : bs.headD 0 = 0
    · simp only [List.headD_eq_head?_getD] at h0
      simp [h0, map_apply] at h
    · simp only [List.headD_eq_head?_getD] at h0
      simp [h0] at h
      obtain ⟨rfl, rfl⟩ := h
      exact ⟨bs, hr, hlen, fun _ => by simpa [List.headD_eq_head?_getD] using h0, rfl, hs⟩


/-! ## Headers -/

/-- The header that `readKind` reads for a value of kind `k` and size `size`; a single byte is
its own header. -/
def header : Kind → Nat → UInt8 → List UInt8
  | .byte, _, bv => [bv]
  | .string, size, _ => puthead 0x80 0xB7 size
  | .list, size, _ => puthead 0xC0 0xF7 size

/-- A short header is its tag plus the size. -/
theorem puthead_short (small large : UInt8) {b : UInt8} (hsmall : small ≤ b)
    (h56 : b.toNat < small.toNat + 56) :
    [b] = puthead small large (b - small).toNat := by
  have hle := UInt8.le_iff_toNat_le.mp hsmall
  have hsub := BigEndian.toNat_sub_of_le' hle
  have h256 : small.toNat + (b - small).toNat < 256 := by have := b.toNat_lt; omega
  rw [puthead, if_pos (by omega)]
  congr 1
  apply UInt8.toNat_inj.mp
  rw [BigEndian.toNat_add_ofNat h256]
  omega

/-- A long header is the tag `large + n` and the `n` bytes of a size of at least 56, without a
leading zero. -/
theorem puthead_long {small large : UInt8} {bs : List UInt8} (hn : 1 ≤ bs.length)
    (hlarge : large.toNat + bs.length < 256) (hhead : bs.headD 0 ≠ 0)
    (h56 : 56 ≤ BigEndian.value bs) :
    (large + UInt8.ofNat bs.length) :: bs = puthead small large (BigEndian.value bs) := by
  obtain ⟨c, cs, rfl⟩ : ∃ c cs, bs = c :: cs := by
    cases bs with
    | nil => simp at hn
    | cons c cs => exact ⟨c, cs, rfl⟩
  have hsize : intsize (BigEndian.value (c :: cs)) = (c :: cs).length := by
    simp only [intsize]
    rw [BigEndian.minLen_value (by simpa using hhead)]
    simp
  rw [puthead, if_neg (by omega), putint, hsize, BigEndian.bytes_value]


/-- The size bytes after a long tag are a long header: a size of one byte is at least 56 so has no
leading zero either, and at most 8 bytes bound the size by 2^64. -/
theorem header_long (small : UInt8) {large b : UInt8} {bs : List UInt8}
    (hlarge : large.toNat + 8 < 256) (hb1 : large < b) (hb2 : b.toNat ≤ large.toNat + 8) (hlen : bs.length = (b - large).toNat)
    (hhead : 2 ≤ bs.length → bs.headD 0 ≠ 0) (h56 : ¬ BigEndian.value bs < 56) :
    b :: bs = puthead small large (BigEndian.value bs) ∧ BigEndian.value bs < 2 ^ 64 := by
  have hlt := UInt8.lt_iff_toNat_lt.mp hb1
  rw [BigEndian.toNat_sub_of_le' (by omega)] at hlen
  have hb : b = large + UInt8.ofNat bs.length := by
    apply UInt8.toNat_inj.mp
    rw [BigEndian.toNat_add_ofNat (by omega)]
    omega
  have hhead' : bs.headD 0 ≠ 0 := by
    by_cases h2 : 2 ≤ bs.length
    · exact hhead h2
    · obtain ⟨c, rfl⟩ : ∃ c, bs = [c] := by
        match bs, hlen with
        | [c], _ => exact ⟨c, rfl⟩
        | [], h => simp at h; omega
        | _ :: _ :: _, h => simp at h2
      intro hc
      simp at hc
      simp [BigEndian.value, hc] at h56
  refine ⟨hb ▸ puthead_long (by omega) (by omega) hhead' (by omega), ?_⟩
  calc BigEndian.value bs < 256 ^ bs.length := BigEndian.value_lt bs
    _ ≤ 256 ^ 8 := Nat.pow_le_pow_right (by omega) (by omega)
    _ = 2 ^ 64 := by norm_num

/-- The long form of a header: after the tag byte `b`, `readKind` reads the size with
`readUint` and rejects a size below 56. -/
theorem readKind_long_inv (small : UInt8) {s₁ s' : Stream} {large b : UInt8} {k k' : Kind}
    {size : Nat}    (hl : s₁.limited = true) (hlarge : large.toNat + 8 < 256) (hb1 : large < b)
    (hb2 : b.toNat ≤ large.toNat + 8)
    (h : (attempt (readUint (b - large).toNat) >>= fun r => match r with
        | .error err => pure (k', 0, some err)
        | .ok size => pure (k', size, if size < 56 then some Error.canonSize else none)) s₁ =
      .ok (k, size, none) s') :
    k = k' ∧ size < 2 ^ 64 ∧ ∃ bs, s₁.r = bs ++ s'.r ∧ b :: bs = puthead small large size ∧
      s' = { s₁.account bs.length with r := s'.r } := by
  have hn : 1 ≤ (b - large).toNat := by
    have := UInt8.lt_iff_toNat_lt.mp hb1
    rw [BigEndian.toNat_sub_of_le' (by omega)]; omega
  cases hu : readUint (b - large).toNat s₁ with
  | error e s₂ => simp [bind_apply, attempt_of_error hu] at h
  | ok v s₂ =>
    simp only [bind_apply, attempt_of_ok hu, pure_apply] at h
    split_ifs at h with h56
    · simp at h
    · simp only [Result.ok.injEq, Prod.mk.injEq] at h
      obtain ⟨⟨rfl, rfl, -⟩, rfl⟩ := h
      obtain ⟨bs, hr, hlen, hhead, rfl, hs⟩ := readUint_inv hl hn hu
      obtain ⟨hput, h64⟩ := header_long small hlarge hb1 hb2 hlen (by rwa [hlen]) h56
      exact ⟨rfl, h64, bs, hr, hput, hlen ▸ hs⟩

/-- What a `readKind` that found no error has read: the header of the value's kind and size. -/
theorem readKind_inv {s s' : Stream} {k : Kind} {size : Nat} (hl : s.limited = true)
    (h : readKind s = .ok (k, size, none) s') :
    s.r = header k size s'.byteval ++ s'.r ∧ size < 2 ^ 64 ∧
      (k = .byte → size = 0 ∧ s'.byteval < 0x80) ∧
      s' = { s.account (header k size s'.byteval).length with
        r := s'.r, byteval := s'.byteval } := by
  cases hrb : readByte s with
  | error e s₁ =>
    simp only [readKind, bind_apply, attempt_of_error hrb, get_apply] at h
    split_ifs at h <;> simp [pure_apply] at h
  | ok b s₁ =>
    obtain ⟨hr, hs₁⟩ := readByte_inv hl hrb
    simp only [readKind, bind_apply, attempt_of_ok hrb, modify_apply] at h
    split_ifs at h with h1 h2 h3 h4
    · -- a single byte below 0x80 is its own encoding
      simp [bind_apply, modify_apply, pure_apply] at h
      obtain ⟨⟨rfl, rfl⟩, rfl⟩ := h
      refine ⟨by simp [header, hr], by norm_num, fun _ => ⟨rfl, h1⟩, ?_⟩
      rw [hs₁]; simp [header, account]
    · -- a short string: the tag is 0x80 plus the size
      simp only [pure_apply, Result.ok.injEq, Prod.mk.injEq] at h
      obtain ⟨⟨rfl, rfl, -⟩, rfl⟩ := h
      have hput := puthead_short 0x80 0xB7 (UInt8.not_lt.mp h1)
        (by rw [UInt8.lt_iff_toNat_lt] at h2; simpa using h2)
      refine ⟨by simp [header, ← hput, hr], by have := (b - 128).toNat_lt; omega,
        by simp, ?_⟩
      rw [hs₁]; simp [header, ← hput, account]
    · obtain ⟨rfl, h64, bs, hbs, hput, hs⟩ := readKind_long_inv 0x80 (by rw [hs₁]; exact hl)
        (by decide) (UInt8.not_lt.mp h2) (by rw [UInt8.lt_iff_toNat_lt] at h3; simp at h3 ⊢; omega) h
      simp only at hbs
      refine ⟨by simp [header, ← hput, hr, hbs], h64, by simp, ?_⟩
      rw [hs, hs₁]; simp [header, ← hput, account, bump_bump, Nat.sub_sub, Nat.add_comm]
    · -- a short list: the tag is 0xC0 plus the size
      simp only [pure_apply, Result.ok.injEq, Prod.mk.injEq] at h
      obtain ⟨⟨rfl, rfl, -⟩, rfl⟩ := h
      have hput := puthead_short 0xC0 0xF7 (UInt8.not_lt.mp h3)
        (by rw [UInt8.lt_iff_toNat_lt] at h4; simpa using h4)
      refine ⟨by simp [header, ← hput, hr], by have := (b - 192).toNat_lt; omega,
        by simp, ?_⟩
      rw [hs₁]; simp [header, ← hput, account]
    · obtain ⟨rfl, h64, bs, hbs, hput, hs⟩ := readKind_long_inv 0xC0 (by rw [hs₁]; exact hl)
        (by decide) (UInt8.not_lt.mp h4) (by have := b.toNat_lt; simp; omega) h
      simp only at hbs
      refine ⟨by simp [header, ← hput, hr, hbs], h64, by simp, ?_⟩
      rw [hs, hs₁]; simp [header, ← hput, account, bump_bump, Nat.sub_sub, Nat.add_comm]

/-- What `Kind` on a re-armed stream caches is what `readKind` read. -/
theorem cached_of_readKind {s t : Stream} {k : Kind} {size : Nat} (hl : s.limited = true)
    (hrk : readKind { s with kinderr := none } = .ok (k, size, none) t) :
    s.r = header k size t.byteval ++ t.r ∧ size < 2 ^ 64 ∧
      (k = .byte → size = 0 ∧ t.byteval < 0x80) ∧
      { t with cachedKind := some k, size := size, kinderr := none } =
        s.cached (header k size t.byteval).length t.r t.byteval k size := by
  obtain ⟨hr, h64, hbyte, ht⟩ := readKind_inv (by exact hl) hrk
  refine ⟨hr, h64, hbyte, ?_⟩
  rw [ht]
  simp [cached, account]

/-- What a successful `Kind` on a re-armed stream has read: a header, after which it caches the
kind and size. -/
theorem kind_inv {s s' : Stream} {k : Kind} {size : Nat} (harmed : s.cachedKind = none)
    (hl : s.limited = true) (h : kind s = .ok (k, size) s') :
    ∃ bv rest, s.r = header k size bv ++ rest ∧ size < 2 ^ 64 ∧
      (k = .byte → size = 0 ∧ bv < 0x80) ∧
      s' = s.cached (header k size bv).length rest bv k size := by
  -- whatever the stack, `Kind` returns what `readKind` read once its size checks pass
  have key : ∃ t, readKind { s with kinderr := none } = .ok (k, size, none) t ∧
      s' = { t with cachedKind := some k, size := size, kinderr := none } := by
    cases hst : s.stack with
    | nil =>
      simp [kind, bind_apply, harmed, hst] at h
      split at h
      · next r t hrk =>
        obtain ⟨k', size', _ | e⟩ := r
        · cases ht : t.stack <;> simp [bind_apply, ht] at h <;> split at h <;>
            simp [bind_apply] at h
          all_goals
            obtain ⟨⟨rfl, rfl⟩, rfl⟩ := h
            exact ⟨t, by simpa [hst, harmed] using hrk, by rw [ht]⟩
        · simp [bind_apply] at h
      · simp at h
    | cons tos rest =>
      by_cases heol : tos.pos = tos.size
      · simp [kind, bind_apply, harmed, hst, heol] at h
      · simp [kind, bind_apply, harmed, hst, heol] at h
        split at h
        · next r t hrk =>
          obtain ⟨k', size', _ | e⟩ := r
          · cases ht : t.stack <;> simp [bind_apply, ht] at h <;> split at h <;>
              simp [bind_apply] at h
            all_goals
              obtain ⟨⟨rfl, rfl⟩, rfl⟩ := h
              exact ⟨t, by simpa [hst, harmed] using hrk, by rw [ht]⟩
          · simp [bind_apply] at h
        · simp at h
  obtain ⟨t, hrk, rfl⟩ := key
  obtain ⟨hr, h64, hbyte, hs⟩ := cached_of_readKind hl hrk
  exact ⟨_, _, hr, h64, hbyte, hs⟩

@[simp] theorem cached_r (s : Stream) (n : Nat) (rest : List UInt8) (bv : UInt8) (k : Kind)
    (size : Nat) : (s.cached n rest bv k size).r = rest := rfl
@[simp] theorem cached_size (s : Stream) (n : Nat) (rest : List UInt8) (bv : UInt8) (k : Kind)
    (size : Nat) : (s.cached n rest bv k size).size = size := rfl

/-- What `Bytes` read after `Kind` found a string: the string's bytes, which are not a single
byte below 0x80. -/
theorem bytes_cached_string_inv {s s' : Stream} {n size : Nat} {rest b : List UInt8} {bv : UInt8}
    (hl : s.limited = true) (h : bytes (s.cached n rest bv .string size) = .ok b s') :
    rest = b ++ s'.r ∧ b.length = size ∧ ¬ IsSingleByte b ∧
      s' = s.decoded (n + size) s'.r size bv := by
  rw [bytes, bind_of_ok _ (kind_cached rfl rfl)] at h
  simp only [cached_size] at h
  obtain ⟨bs, s₁, hf, h⟩ := bind_eq_ok h
  obtain ⟨hr, hlen, hs₁⟩ := readFull_inv (by exact hl) hf
  simp only [cached_r] at hr
  by_cases hc : size = 1 ∧ bs.head?.getD 0 < 128
  · simp [hc, map_apply] at h
  · simp [hc] at h
    obtain ⟨rfl, rfl⟩ := h
    refine ⟨hr, hlen, ?_, ?_⟩
    · rintro ⟨h1, h2⟩
      refine hc ⟨hlen ▸ h1, ?_⟩
      rw [UInt8.le_iff_toNat_le] at h2
      rw [UInt8.lt_iff_toNat_lt]
      simp only [List.headD_eq_head?_getD] at h2
      simp at h2 ⊢
      omega
    · rw [hs₁]
      simp [cached, decoded, account, bump_bump, Nat.sub_sub]

/-! ## Where `EOL` comes from

`EOL` is raised by `Kind` at the end of a list only; the reading methods never raise it, and
`readKind` returns its errors rather than raising them. -/

theorem willRead_raises (n : Nat) : Raises (· ≠ .eol) (willRead n) := by
  intro s e s' h
  cases hst : s.stack with
  | nil =>
    simp [willRead, rearm, bind_apply, hst] at h
    split at h
    · split at h
      · simp [bind_apply] at h
        simp [← h.1]
      · simp at h
    · simp at h
  | cons tos rest =>
    simp [willRead, rearm, bind_apply, hst] at h
    split at h
    · simp [bind_apply] at h
      simp [← h.1]
    · simp [bind_apply] at h
      split at h
      · split at h
        · simp [bind_apply] at h
          simp [← h.1]
        · simp at h
      · simp at h

theorem readByte_raises : Raises (· ≠ .eol) readByte := by
  intro s e s' h
  cases hw : willRead 1 s with
  | error e' t =>
    rw [readByte, bind_of_error _ hw] at h
    cases h
    exact willRead_raises 1 s _ _ hw
  | ok u t =>
    rw [readByte, bind_of_ok _ hw] at h
    cases hr : t.r <;> simp [hr, bind_apply, map_apply] at h
    simp [← h.1]

theorem readFull_raises (n : Nat) : Raises (· ≠ .eol) (readFull n) := by
  intro s e s' h
  cases hw : willRead n s with
  | error e' t =>
    rw [readFull, bind_of_error _ hw] at h
    cases h
    exact willRead_raises n s _ _ hw
  | ok u t =>
    rw [readFull, bind_of_ok _ hw] at h
    by_cases hn : n ≤ t.r.length <;> simp [hn, bind_apply, map_apply] at h
    simp [← h.1]

theorem readUint_raises (n : Nat) : Raises (· ≠ .eol) (readUint n) := by
  intro s e s' h
  match n with
  | 0 => simp [readUint, rearm, bind_apply] at h
  | 1 =>
    cases hb : readByte s with
    | error e' t =>
      rw [readUint, bind_of_error _ hb] at h
      cases h
      exact readByte_raises s _ _ hb
    | ok b t => rw [readUint, bind_of_ok _ hb] at h; cases h
  | k + 2 =>
    cases hf : readFull (k + 2) s with
    | error e' t =>
      rw [readUint, bind_of_error _ hf] at h
      cases h
      exact readFull_raises _ s _ _ hf
    | ok bs t =>
      rw [readUint, bind_of_ok _ hf] at h
      by_cases h0 : bs.head?.getD 0 = 0 <;> simp [h0, map_apply] at h
      simp [← h.1]

/-- `readKind` never fails: a failure to read the header is returned as its error, and that
error is never `EOL`. -/
theorem readKind_total (s : Stream) : ∃ r t, readKind s = .ok r t ∧ r.2.2 ≠ some .eol := by
  cases hrb : readByte s with
  | error e t =>
    have he := readByte_raises s e t hrb
    simp only [readKind, bind_apply, attempt_of_error hrb, get_apply]
    split_ifs <;> simp [he]
  | ok b t =>
    simp only [readKind, bind_apply, attempt_of_ok hrb, modify_apply]
    split_ifs
    · simp [map_apply]
    · simp
    · cases hu : readUint (b - 183).toNat { t with byteval := 0 } with
      | error e t' => simp [bind_apply, attempt_of_error hu, readUint_raises _ _ _ _ hu]
      | ok v t' => simp [bind_apply, attempt_of_ok hu]
    · simp
    · cases hu : readUint (b - 247).toNat { t with byteval := 0 } with
      | error e t' => simp [bind_apply, attempt_of_error hu, readUint_raises _ _ _ _ hu]
      | ok v t' => simp [bind_apply, attempt_of_ok hu]

/-- `Kind` on a re-armed stream raises `EOL` only at the end of the innermost list, and then
has read nothing. -/
theorem kind_eol_inv {s s' : Stream} (harmed : s.cachedKind = none)
    (h : kind s = .error .eol s') :
    s' = { s with kinderr := none } ∧ ∃ tos, s.stack.head? = some tos ∧ tos.pos = tos.size := by
  have hread : ∀ {t t' : Stream} {k size e}, readKind t = .ok (k, size, some e) t' → e ≠ .eol := by
    intro t t' k size e hrk
    obtain ⟨r, t'', hrk', hne⟩ := readKind_total t
    rw [hrk] at hrk'
    cases hrk'
    simpa using hne
  have hfail : ∀ {t t' : Stream} {e}, readKind t ≠ .error e t' := by
    intro t t' e hrk
    obtain ⟨r, t'', hrk', -⟩ := readKind_total t
    rw [hrk] at hrk'
    cases hrk'
  cases hst : s.stack with
  | nil =>
    simp [kind, bind_apply, harmed, hst] at h
    split at h
    · next r t hrk =>
      obtain ⟨k', size', _ | e⟩ := r
      · cases ht : t.stack <;> simp [bind_apply, ht] at h <;> split at h <;> simp [bind_apply] at h
      · simp [bind_apply] at h
        exact absurd h.1 (hread hrk)
    · next e t heq => exact absurd heq hfail
  | cons tos rest =>
    by_cases heol : tos.pos = tos.size
    · rw [kind_eol harmed hst heol] at h
      cases h
      exact ⟨by rw [hst], tos, rfl, heol⟩
    · simp [kind, bind_apply, harmed, hst, heol] at h
      split at h
      · next r t hrk =>
        obtain ⟨k', size', _ | e⟩ := r
        · cases ht : t.stack <;> simp [bind_apply, ht] at h <;> split at h <;> simp [bind_apply] at h
        · simp [bind_apply] at h
          exact absurd h.1 (hread hrk)
      · next e t heq => exact absurd heq hfail

/-- `Bytes` after `Kind` never raises `EOL`. -/
theorem bytes_cached_ne_eol {s t : Stream} {n size : Nat} {rest : List UInt8} {bv : UInt8}
    {k : Kind} {e : Error} (h : bytes (s.cached n rest bv k size) = .error e t) : e ≠ .eol := by
  rw [bytes, bind_of_ok _ (kind_cached rfl rfl)] at h
  simp only [cached_size] at h
  cases k with
  | byte => simp [rearm, bind_apply, map_apply] at h
  | string =>
    simp only at h
    cases hf : readFull size (s.cached n rest bv .string size) with
    | error e' t' =>
      rw [bind_of_error _ hf] at h
      cases h
      exact readFull_raises _ _ _ _ hf
    | ok bs t' =>
      rw [bind_of_ok _ hf] at h
      by_cases hc : size = 1 ∧ bs.head?.getD 0 < 128
      · simp [hc, map_apply] at h
        simp [← h.1]
      · simp [hc] at h
  | list => simp at h; simp [← h.1]

theorem listEnd_raises : Raises (· ≠ .eol) listEnd := by
  intro s e s' h
  rw [listEnd_eq] at h
  split at h
  · cases h; nofun
  · split_ifs at h
    cases h
    nofun

end Stream

end GoGaia.Rlp
