import GoGaia.Rlp.Decode
import GoGaia.Rlp.Encode
import GoGaia.Rlp.StreamSpec

/-!
# The codec on item trees

`decodeBytes_encodeToBytes`: decoding what `EncodeToBytes` wrote gives the item tree back, and
`encodeToBytes_decodeBytes`: whatever `DecodeBytes` accepts is the encoding of what it returns, so
the decoder accepts exactly the canonical encodings (`itemCodec_canonical`).

Both go through the canonical encoding `encItem` (`encodeToBytes_eq`). The first is
`decodeInterface_encItem`, which reads one item's encoding from any position of the stream with
room for it, by induction on the item together with `decodeSliceElems_encItems` for the elements
of a list; the second is `decodeInterface_sound`, by induction on the fuel. Soundness needs to
know where `EOL` comes from, since the loop over a list's elements stops at any `EOL`: only from
`Kind` at the end of the innermost list (`ReadsItem.eol`), never from reading a value.
-/

namespace GoGaia.Rlp

open EStateM

theorem length_encItem_pos (t : Item) : 0 < (encItem t).length :=
  List.length_pos_iff.mpr (encItem_ne_nil t)

theorem length_le_encItems (l : List Item) : l.length ≤ (encItems l).length := by
  induction l with
  | nil => simp
  | cons t ts ih =>
    have := length_encItem_pos t
    simp only [encItems_cons, List.length_append, List.length_cons]
    omega

theorem length_encItem_list (l : List Item) :
    (encItem (.list l)).length = headsize (encItems l).length + (encItems l).length := by
  rw [encItem_list, List.length_append, length_puthead]

theorem eq_nil_of_encItems {l : List Item} (h : (encItems l).length = 0) : l = [] :=
  List.eq_nil_of_length_eq_zero (Nat.eq_zero_of_le_zero (h ▸ length_le_encItems l))

mutual
/-- `decodeInterface` reads an item's canonical encoding back as the item, from any stream with
room for it, given fuel beyond the encoding's length. -/
theorem decodeInterface_encItem : ∀ (t : Item) (fuel : Nat) (s : Stream) (rest : List UInt8),
    (encItem t).length < fuel → (encItem t).length < 2 ^ 64 → s.cachedKind = none →
    Stream.Room s (encItem t).length → s.r = encItem t ++ rest →
    ∃ sz bv, decodeInterface fuel s = .ok t (s.decoded (encItem t).length rest sz bv)
  | .bytes b, fuel + 1, s, rest, _, h64, harmed, h, hr => by
    by_cases hsingle : IsSingleByte b
    · obtain ⟨hl, hc⟩ := hsingle
      match b, hl with
      | [c], _ =>
        have henc : encItem (.bytes [c]) = [c] := by
          rw [encItem_bytes, if_pos ⟨rfl, hc⟩]
        rw [henc] at h hr ⊢
        rw [List.singleton_append] at hr
        have hc' : c < 0x80 := by
          simp only [List.headD_cons] at hc
          rw [UInt8.lt_iff_toNat_lt]; rw [UInt8.le_iff_toNat_le] at hc; simp at hc ⊢; omega
        refine ⟨0, c, ?_⟩
        simp [decodeInterface, bind_apply, map_apply, Stream.kind_byte harmed hc' h hr,
          Stream.bytes_cached_byte]
    · have henc : encItem (.bytes b) = puthead 0x80 0xB7 b.length ++ b := by
        rw [encItem_bytes, if_neg hsingle]
      have hlen : (encItem (.bytes b)).length = headsize b.length + b.length := by
        rw [henc, List.length_append, length_puthead]
      rw [hlen] at h h64 ⊢
      rw [henc, List.append_assoc] at hr
      refine ⟨b.length, 0, ?_⟩
      simp [decodeInterface, bind_apply, map_apply, Stream.kind_string harmed (by omega) h hr,
        Stream.bytes_cached_string rest 0 hsingle h]
  | .list l, fuel + 1, s, rest, hf, h64, harmed, h, hr => by
    have hlen := length_encItem_list l
    have hhs := headsize_pos (encItems l).length
    rw [hlen] at h h64 hf ⊢
    rw [encItem_list, List.append_assoc] at hr
    have hk := Stream.kind_list harmed (by omega) h hr
    -- `List` enters the list: the payload is read with the list as the innermost one
    have hl := Stream.list_cached s (headsize (encItems l).length) (encItems l ++ rest) 0
      (encItems l).length
    have hw : wrapped "[]interface {}" Stream.list
        (s.cached (headsize (encItems l).length) (encItems l ++ rest) 0 .list
          (encItems l).length) = _ := tryCatch_of_ok _ hl
    by_cases hp : (encItems l).length = 0
    · -- an empty list
      obtain rfl := eq_nil_of_encItems hp
      refine ⟨0, 0, ?_⟩
      simp only [decodeInterface, bind_apply, hk, if_true, decodeListSlice, hw]
      simp [Stream.listEnd_eq, Stream.decoded, Stream.account, bind_apply]
    · -- the elements, then the end of the list
      have hroom : Stream.Room { s.decoded (headsize (encItems l).length) (encItems l ++ rest) 0 0 with
          stack := ⟨0, (encItems l).length⟩ :: Stream.bump s.stack (headsize (encItems l).length) }
          (encItems l).length :=
        ⟨h.1, by simp [Stream.decoded, Stream.account]; have := h.2.1; omega, by
          intro tos ht; simp at ht; subst ht; simp⟩
      obtain ⟨sz, bv, hloop⟩ := decodeSliceElems_encItems l fuel fuel 0 _ rest _ _
        (by omega) (by omega) (by omega) rfl rfl (by simp) hroom rfl
      refine ⟨0, bv, ?_⟩
      simp only [decodeInterface, bind_apply, hk, if_true, decodeListSlice, hw, hp, if_false,
        hloop]
      simp [Stream.listEnd_eq, Stream.decoded, Stream.account, Stream.bump_bump, Nat.sub_sub]
  | _, 0, _, _, hf, _, _, _, _ => absurd hf (Nat.not_lt_zero _)

theorem decodeSliceElems_encItems : ∀ (l : List Item) (fuel g i : Nat) (s : Stream)
    (rest : List UInt8) (tos : Listpos) (st : List Listpos),
    (encItems l).length < fuel → (encItems l).length < g → (encItems l).length < 2 ^ 64 →
    s.cachedKind = none → s.stack = tos :: st → tos.pos + (encItems l).length = tos.size →
    Stream.Room s (encItems l).length → s.r = encItems l ++ rest →
    ∃ sz bv, decodeSliceElems (decodeInterface fuel) g i s =
      .ok l (s.decoded (encItems l).length rest sz bv)
  | [], fuel + 1, g + 1, i, s, rest, tos, st, _, _, _, harmed, hst, heol, _, hr => by
    -- the end of the list: `Kind` reports `EOL`, which ends the loop
    have hk := Stream.kind_eol harmed hst (by simpa using heol)
    have hd : decodeInterface (fuel + 1) s = .error .eol { s with kinderr := none } := by
      simp only [decodeInterface]
      exact bind_of_error _ hk
    refine ⟨s.size, s.byteval, ?_⟩
    simp only [decodeSliceElems, bind_apply, Stream.attempt_of_error hd]
    simp only [encItems_nil, List.nil_append] at hr
    cases s
    simp_all [Stream.decoded, Stream.account]
  | t :: ts, fuel, g + 1, i, s, rest, tos, st, hf, hg, h64, harmed, hst, heol, h, hr => by
    have ht := length_encItem_pos t
    simp only [encItems_cons, List.length_append] at hf hg h64 heol h
    rw [encItems_cons, List.append_assoc] at hr
    -- the first element, then the others from where it ended
    obtain ⟨sz, bv, hd⟩ := decodeInterface_encItem t fuel s (encItems ts ++ rest) (by omega)
      (by omega) harmed (h.mono (by omega)) hr
    obtain ⟨sz', bv', hrest⟩ := decodeSliceElems_encItems ts fuel g (i + 1)
      (s.decoded (encItem t).length (encItems ts ++ rest) sz bv) rest
      { tos with pos := tos.pos + (encItem t).length } st (by omega) (by omega) (by omega) rfl
      (by simp [hst]) (by simp; omega) (Stream.Room.decoded h _ sz bv) rfl
    refine ⟨sz', bv', ?_⟩
    simp only [decodeSliceElems, bind_apply, Stream.attempt_of_ok hd, hrest,
      Stream.decoded_decoded, encItems_cons, List.length_append, pure_apply]
  | _, 0, _, _, _, _, _, _, hf, _, _, _, _, _, _, _ => absurd hf (Nat.not_lt_zero _)
  | _, _, 0, _, _, _, _, _, _, hg, _, _, _, _, _, _ => absurd hg (Nat.not_lt_zero _)
end

/-- Decoding what `EncodeToBytes` wrote gives the item tree back, for every tree whose encoding
is shorter than `2 ^ 64` bytes, the bound of the `uint64` sizes of the format. -/
theorem decodeBytes_encodeToBytes (t : Item) (h : (encodeToBytes t).length < 2 ^ 64) :
    decodeBytes (encodeToBytes t) = .ok t := by
  rw [encodeToBytes_eq] at h ⊢
  have hroom : Stream.Room (Stream.ofBytes (encItem t)) (encItem t).length :=
    ⟨rfl, by simp [Stream.ofBytes], by simp [Stream.ofBytes]⟩
  obtain ⟨sz, bv, hd⟩ := decodeInterface_encItem t _ (Stream.ofBytes (encItem t)) []
    (Nat.lt_succ_self _) h rfl hroom (by simp [Stream.ofBytes])
  simp [decodeBytes, decodeBytesAs, EStateM.run, hd]

/-! ## Soundness -/

theorem addErrorContext_ne_eol {e : Error} (h : e ≠ .eol) (ctx : String) :
    addErrorContext e ctx ≠ .eol := by
  cases e <;> simp_all [addErrorContext]

/-- The loop over a list's elements never raises `EOL`: it ends the loop. -/
theorem decodeSliceElems_raises {α : Type} (elemdec : StreamM α) :
    ∀ fuel i, Raises (· ≠ .eol) (decodeSliceElems elemdec fuel i)
  | 0, i => by
    intro s e s' h
    simp [decodeSliceElems] at h
    simp [← h.1]
  | fuel + 1, i => by
    intro s e s' h
    rcases bind_eq_error h with hat | ⟨r, t, hat, h⟩
    · exact absurd hat Stream.attempt_ne_error
    · split at h
      · cases h
      · next err hne =>
        cases h
        exact addErrorContext_ne_eol hne _
      · next x =>
        rcases bind_eq_error h with hr | ⟨xs, t', hr, h⟩
        · exact decodeSliceElems_raises elemdec fuel (i + 1) _ _ _ hr
        · cases h

/-- What a decoder of items guarantees from a re-armed stream: a success has read exactly the
canonical encoding of its result, and `EOL` comes only at the end of a list, having read
nothing. -/
structure ReadsItem (dec : StreamM Item) : Prop where
  ok : ∀ {s x s'}, s.cachedKind = none → s.limited = true → dec s = .ok x s' →
    s.r = encItem x ++ s'.r ∧ s' = s.decoded (encItem x).length s'.r s'.size s'.byteval
  eol : ∀ {s s'}, s.cachedKind = none → s.limited = true → dec s = .error .eol s' →
    s' = { s with kinderr := none } ∧ ∃ tos, s.stack.head? = some tos ∧ tos.pos = tos.size

/-- The loop over a list's elements reads the elements' encodings one after the other and stops
at the end of the list. -/
theorem decodeSliceElems_sound {elemdec : StreamM Item} (hdec : ReadsItem elemdec) :
    ∀ fuel i {s xs s'}, s.cachedKind = none → s.limited = true →
      decodeSliceElems elemdec fuel i s = .ok xs s' →
      s.r = encItems xs ++ s'.r ∧
        s' = s.decoded (encItems xs).length s'.r s'.size s'.byteval ∧
        ∃ tos, s'.stack.head? = some tos ∧ tos.pos = tos.size
  | 0, i, s, xs, s', _, _, h => by simp [decodeSliceElems] at h
  | fuel + 1, i, s, xs, s', harmed, hl, h => by
    obtain ⟨r, t, hat, h⟩ := bind_eq_ok h
    have hx := Stream.attempt_inv hat
    split at h
    · -- `EOL`: the list is at its end and nothing was read
      cases h
      obtain ⟨rfl, hend⟩ := hdec.eol harmed hl hx
      exact ⟨by simp, by simp [Stream.decoded_zero harmed], hend⟩
    · cases h
    · next x =>
      obtain ⟨xs', t', hrest, h⟩ := bind_eq_ok h
      cases h
      obtain ⟨hr, ht⟩ := hdec.ok harmed hl hx
      obtain ⟨hr', hs', hend⟩ := decodeSliceElems_sound hdec fuel (i + 1) (by rw [ht]; rfl)
        (by rw [ht]; exact hl) hrest
      refine ⟨by rw [hr, hr']; simp, ?_, hend⟩
      rw [hs', ht, Stream.decoded_decoded]
      simp

/-- `List` after `Kind` found a list, run as `decodeListSlice` runs it. -/
theorem wrapped_list_cached (typ : String) (s : Stream) (n : Nat) (rest : List UInt8) (bv : UInt8)
    (size : Nat) :
    wrapped typ Stream.list (s.cached n rest bv .list size) = .ok size
      { s.decoded n rest 0 bv with stack := ⟨0, size⟩ :: Stream.bump s.stack n } :=
  tryCatch_of_ok _ (Stream.list_cached s n rest bv size)

/-- What `decodeListSlice` read after `Kind` found a list: the encodings of the elements, as many
bytes as the header announced. -/
theorem decodeListSlice_sound {elemdec : StreamM Item} (hdec : ReadsItem elemdec) {typ : String}
    {fuel n size : Nat} {s t : Stream} {rest : List UInt8} {bv : UInt8} {l : List Item}
    (hl : s.limited = true)
    (h : decodeListSlice typ elemdec fuel (s.cached n rest bv .list size) = .ok l t) :
    rest = encItems l ++ t.r ∧ (encItems l).length = size ∧
      t = s.decoded (n + size) t.r t.size t.byteval := by
  rw [decodeListSlice, bind_of_ok _ (wrapped_list_cached typ s n rest bv size)] at h
  by_cases h0 : size = 0
  · -- an empty list: `ListEnd` at once
    subst h0
    simp only [if_true] at h
    obtain ⟨u, t', hend, h⟩ := bind_eq_ok h
    cases h
    rw [Stream.listEnd_eq] at hend
    simp at hend
    subst hend
    simp [Stream.decoded, Stream.account]
  · simp only [h0, if_false] at h
    obtain ⟨xs, t₁, hloop, h⟩ := bind_eq_ok h
    obtain ⟨u, t', hend, h⟩ := bind_eq_ok h
    cases h
    obtain ⟨hr, hs₁, tos, htos, heol⟩ := decodeSliceElems_sound hdec fuel 0 (by rfl) (by exact hl) hloop
    rw [hs₁] at htos hend
    simp at htos
    subst htos
    simp at heol
    rw [Stream.listEnd_eq] at hend
    simp [heol] at hend
    subst hend
    refine ⟨by simpa using hr, by simpa using heol, ?_⟩
    simp [Stream.decoded, Stream.account, Stream.bump_bump, Nat.sub_sub]

/-- `decodeListSlice` after `Kind` found a list never raises `EOL`. -/
theorem decodeListSlice_ne_eol {elemdec : StreamM Item} {typ : String} {fuel n size : Nat}
    {s t : Stream} {rest : List UInt8} {bv : UInt8} {e : Error}
    (h : decodeListSlice typ elemdec fuel (s.cached n rest bv .list size) = .error e t) :
    e ≠ .eol := by
  rw [decodeListSlice, bind_of_ok _ (wrapped_list_cached typ s n rest bv size)] at h
  have hraises : Raises (· ≠ Error.eol) (if size = 0 then do Stream.listEnd; pure [] else do
      let xs ← decodeSliceElems elemdec fuel 0
      Stream.listEnd
      pure xs) :=
    .ite (.bind Stream.listEnd_raises fun _ => .pure _)
      (.bind (decodeSliceElems_raises _ _ _) fun _ => .bind Stream.listEnd_raises fun _ => .pure _)
  exact hraises _ _ _ h

/-- `decodeInterface` decodes items: what it returns is what it read. -/
theorem decodeInterface_sound : ∀ fuel, ReadsItem (decodeInterface fuel)
  | 0 => ⟨fun _ _ h => by simp [decodeInterface] at h, fun _ _ h => by simp [decodeInterface] at h⟩
  | fuel + 1 => by
    have ih := decodeInterface_sound fuel
    constructor
    · intro s x s' harmed hl h
      obtain ⟨⟨k, size⟩, t, hk, h⟩ := bind_eq_ok h
      obtain ⟨bv, rest, hr, h64, hbyte, rfl⟩ := Stream.kind_inv harmed hl hk
      by_cases hkl : k = .list
      · subst hkl
        simp only [if_true] at h
        obtain ⟨l, t', hls, h⟩ := bind_eq_ok h
        cases h
        obtain ⟨hrest, hsize, hs'⟩ := decodeListSlice_sound ih hl hls
        subst hsize
        refine ⟨?_, ?_⟩
        · rw [hr, hrest]; simp [Stream.header, encItem_list]
        · rw [hs']; simp [Stream.header, length_encItem_list]
      · simp only [hkl, if_false] at h
        obtain ⟨b, t', hb, h⟩ := bind_eq_ok h
        cases h
        cases k with
        | byte =>
          obtain ⟨rfl, hbv⟩ := hbyte rfl
          rw [Stream.bytes_cached_byte] at hb
          cases hb
          have hsingle : encItem (.bytes [bv]) = [bv] := by
            rw [encItem_bytes, if_pos]
            exact ⟨rfl, by rw [UInt8.lt_iff_toNat_lt] at hbv; rw [UInt8.le_iff_toNat_le]; simp at hbv ⊢; omega⟩
          refine ⟨by rw [hr, hsingle]; rfl, by simp [hsingle, Stream.header]⟩
        | string =>
          obtain ⟨hrest, rfl, hsingle, hs'⟩ := Stream.bytes_cached_string_inv hl hb
          have henc : encItem (.bytes b) = puthead 0x80 0xB7 b.length ++ b := by
            rw [encItem_bytes, if_neg hsingle]
          refine ⟨by rw [hr, hrest, henc]; simp [Stream.header], ?_⟩
          rw [hs']; simp [henc, Stream.header]
        | list => exact absurd rfl hkl
    · intro s s' harmed hl h
      rcases bind_eq_error h with hk | ⟨⟨k, size⟩, t, hk, h⟩
      · exact Stream.kind_eol_inv harmed hk
      · -- after a header, neither a list nor a string raises `EOL`
        obtain ⟨bv, rest, -, -, -, rfl⟩ := Stream.kind_inv harmed hl hk
        by_cases hkl : k = .list
        · subst hkl
          simp only [if_true] at h
          rcases bind_eq_error h with hls | ⟨l, t', -, h⟩
          · exact absurd rfl (decodeListSlice_ne_eol hls)
          · cases h
        · simp only [hkl, if_false] at h
          rcases bind_eq_error h with hb | ⟨b, t', -, h⟩
          · exact absurd rfl (Stream.bytes_cached_ne_eol hb)
          · cases h

/-- Whatever `DecodeBytes` accepts is the canonical encoding of what it returns. -/
theorem encodeToBytes_decodeBytes {b : List UInt8} {x : Item} (h : decodeBytes b = .ok x) :
    encodeToBytes x = b := by
  rw [encodeToBytes_eq]
  unfold decodeBytes decodeBytesAs at h
  split at h
  · cases h
  · next x' s hd =>
    split_ifs at h with hrest
    cases h
    have hnil : s.r = [] := List.eq_nil_of_length_eq_zero (by omega)
    have hr := ((decodeInterface_sound _).ok rfl rfl hd).1
    simpa [Stream.ofBytes, hnil] using hr.symm

/-- The RLP codec on item trees: `DecodeBytes` reads back every tree that `EncodeToBytes` wrote
(whose encoding is shorter than `2 ^ 64` bytes, as `uint64` sizes require), and it accepts exactly
the canonical encodings: whatever it accepts is the encoding of what it returns. -/
theorem itemCodec_canonical :
    (∀ t : Item, (encodeToBytes t).length < 2 ^ 64 → decodeBytes (encodeToBytes t) = .ok t) ∧
      ∀ b x, decodeBytes b = .ok x → encodeToBytes x = b :=
  ⟨decodeBytes_encodeToBytes, fun _ _ h => encodeToBytes_decodeBytes h⟩

theorem itemCodec_canonical_nested :
    (encodeToBytes (.list [.bytes [1], .list []])).length < 2 ^ 64 ∧
      decodeBytes (encodeToBytes (.list [.bytes [1], .list []])) = .ok (.list [.bytes [1], .list []]) :=
  ⟨by decide, itemCodec_canonical.1 _ (by decide)⟩

end GoGaia.Rlp
