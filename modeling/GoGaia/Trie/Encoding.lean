import Mathlib

/-!
# Key encodings

`trie/encoding.go` keeps trie keys in three forms: KEYBYTES (the key as given), HEX (one byte per
nibble, with the terminator `16` at the end of a key that ends at a value) and COMPACT (the
Yellow Paper's hex-prefix form, two nibbles a byte after a flag nibble that says whether the key
is odd and whether it ends at a value). Nodes in memory hold HEX keys; the stored encoding of a
short node holds its COMPACT key.

A HEX key is a list of nibbles, optionally followed by the terminator (`IsHex`); a key made from
bytes has the terminator (`keybytesToHex_eq`). `compactToHex` inverts `hexToCompact` on HEX
keys (`compactToHex_hexToCompact`), and `keybytesToHex` is injective (`keybytesToHex_inj`).
`prefixLen` is the length of the common prefix of two keys, the split point of `insert` and
`delete`.
-/

namespace GoGaia.Patricia

/-- `hasTerm`: whether a HEX key ends with the terminator `16`. -/
def hasTerm (s : List UInt8) : Bool := s.getLast? == some 16

/-- `decodeNibbles`: packs pairs of nibbles into bytes, high nibble first. Its callers pass an
even number of nibbles. -/
def decodeNibbles : List UInt8 → List UInt8
  | a :: b :: rest => (a <<< 4 ||| b) :: decodeNibbles rest
  | _ => []

/-- `hexToCompact`: the flag byte (terminator flag `0x20`, odd flag `0x10` with the first nibble
in the low half) and the remaining nibbles packed in pairs. -/
def hexToCompact (hex : List UInt8) : List UInt8 :=
  let terminator : UInt8 := if hasTerm hex then 1 else 0
  let hex := if hasTerm hex then hex.dropLast else hex
  let flag := terminator <<< 5
  if hex.length % 2 = 1 then
    -- odd flag, and the first nibble is contained in the first byte
    (flag ||| (1 : UInt8) <<< 4 ||| hex.headD 0) :: decodeNibbles hex.tail
  else flag :: decodeNibbles hex

/-- `keybytesToHex`: the two nibbles of each byte, and the terminator. -/
def keybytesToHex (str : List UInt8) : List UInt8 :=
  str.flatMap (fun b => [b / 16, b % 16]) ++ [16]

/-- `hexToKeybytes`: the bytes of a HEX key of even length, after its terminator if it has one.
Go panics on an odd length; that is `none`. -/
def hexToKeybytes (hex : List UInt8) : Option (List UInt8) :=
  let hex := if hasTerm hex then hex.dropLast else hex
  if hex.length % 2 ≠ 0 then none else some (decodeNibbles hex)

/-- `compactToHex`: the nibbles after the flag nibble (and after the padding nibble of an even
key), with the terminator put back when the flag says so. On an empty input Go indexes
`base[0]` of an empty slice and panics; that is `none`. -/
def compactToHex (compact : List UInt8) : Option (List UInt8) :=
  match (keybytesToHex compact).dropLast with
  | [] => none
  | b0 :: rest =>
    let base := b0 :: rest
    -- apply terminator flag
    let base := if b0 ≥ 2 then base ++ [16] else base
    -- apply odd flag
    let chop := 2 - (b0 &&& 1)
    some (base.drop chop.toNat)

/-- `prefixLen`: the length of the common prefix of `a` and `b`. -/
def prefixLen : List UInt8 → List UInt8 → Nat
  | a :: as, b :: bs => if a = b then prefixLen as bs + 1 else 0
  | _, _ => 0

/-! ## Nibbles and HEX keys -/

/-- A list of nibbles: every element is below `16`. -/
def Nibbles (ns : List UInt8) : Prop := ∀ x ∈ ns, x < 16

/-- A HEX key: nibbles, and possibly the terminator after them. -/
def IsHex (h : List UInt8) : Prop := ∃ ns, Nibbles ns ∧ (h = ns ∨ h = ns ++ [16])

@[simp] theorem nibbles_nil : Nibbles [] := by simp [Nibbles]

@[simp] theorem nibbles_cons {x : UInt8} {ns : List UInt8} :
    Nibbles (x :: ns) ↔ x < 16 ∧ Nibbles ns := by
  simp [Nibbles]

@[simp] theorem nibbles_append {ns ms : List UInt8} :
    Nibbles (ns ++ ms) ↔ Nibbles ns ∧ Nibbles ms := by
  simp only [Nibbles, List.mem_append]
  exact ⟨fun h => ⟨fun x hx => h x (.inl hx), fun x hx => h x (.inr hx)⟩,
    fun h x hx => hx.elim (h.1 x) (h.2 x)⟩

theorem Nibbles.not_mem_term {ns : List UInt8} (h : Nibbles ns) : (16 : UInt8) ∉ ns :=
  fun hm => absurd (h 16 hm) (by decide)

theorem hasTerm_term (ns : List UInt8) : hasTerm (ns ++ [16]) = true := by
  simp [hasTerm]

theorem hasTerm_nibbles {ns : List UInt8} (h : Nibbles ns) : hasTerm ns = false := by
  cases hl : ns.getLast? with
  | none => simp [hasTerm, hl]
  | some x =>
    have hx : x < 16 := h x (List.mem_of_getLast? hl)
    have hne : x ≠ 16 := fun he => absurd (he ▸ hx) (by decide)
    simp [hasTerm, hl, hne]

/-- The byte of a high and a low nibble. -/
theorem toNat_pack {a b : UInt8} (ha : a < 16) (hb : b < 16) :
    (a <<< 4 ||| b).toNat = a.toNat * 16 + b.toNat := by
  have ha' : a.toNat < 16 := UInt8.lt_iff_toNat_lt.mp ha
  have hb' : b.toNat < 2 ^ 4 := UInt8.lt_iff_toNat_lt.mp hb
  rw [UInt8.toNat_or, UInt8.toNat_shiftLeft, show (4 : UInt8).toNat % 8 = 4 from rfl,
    Nat.shiftLeft_eq, Nat.mod_eq_of_lt (by omega), ← Nat.shiftLeft_eq,
    ← Nat.shiftLeft_add_eq_or_of_lt hb', Nat.shiftLeft_eq]

/-- The nibbles of a packed byte are the nibbles packed. -/
theorem unpack_pack {a b : UInt8} (ha : a < 16) (hb : b < 16) :
    (a <<< 4 ||| b) / 16 = a ∧ (a <<< 4 ||| b) % 16 = b := by
  have ha' : a.toNat < 16 := UInt8.lt_iff_toNat_lt.mp ha
  have hb' : b.toNat < 16 := UInt8.lt_iff_toNat_lt.mp hb
  have hp := toNat_pack ha hb
  constructor
  · apply UInt8.toNat_inj.mp
    rw [UInt8.toNat_div, hp]
    simp
    omega
  · apply UInt8.toNat_inj.mp
    rw [UInt8.toNat_mod, hp]
    simp
    omega

/-- Unpacking the bytes `decodeNibbles` packs gives back an even number of nibbles. -/
theorem unpack_decodeNibbles : ∀ {ms : List UInt8}, Nibbles ms → ms.length % 2 = 0 →
    (decodeNibbles ms).flatMap (fun b => [b / 16, b % 16]) = ms
  | [], _, _ => rfl
  | [_], _, hl => by simp at hl
  | a :: b :: rest, hn, hl => by
    simp only [nibbles_cons] at hn
    obtain ⟨hpa, hpb⟩ := unpack_pack hn.1 hn.2.1
    have hrest : rest.length % 2 = 0 := by simp at hl; omega
    simp [decodeNibbles, hpa, hpb, unpack_decodeNibbles hn.2.2 hrest]

theorem length_decodeNibbles : ∀ ms : List UInt8, (decodeNibbles ms).length = ms.length / 2
  | [] => rfl
  | [_] => by simp [decodeNibbles]
  | a :: b :: rest => by
    simp only [decodeNibbles, List.length_cons, length_decodeNibbles rest]
    omega

/-- The flag byte of a key with terminator flag `t` and odd flag, and the first nibble. -/
private theorem flag_odd {t x : UInt8} (ht : t = 0 ∨ t = 1) (hx : x < 16) :
    (t <<< 5 ||| (1 : UInt8) <<< 4 ||| x) / 16 = 2 * t + 1 ∧ (t <<< 5 ||| (1 : UInt8) <<< 4 ||| x) % 16 = x := by
  have hf : t <<< 5 ||| (1 : UInt8) <<< 4 = (2 * t + 1) <<< 4 := by rcases ht with rfl | rfl <;> decide
  rw [hf]
  exact unpack_pack (by rcases ht with rfl | rfl <;> decide) hx

/-- The flag byte of an even key with terminator flag `t`. -/
private theorem flag_even {t : UInt8} (ht : t = 0 ∨ t = 1) :
    (t <<< 5) / 16 = 2 * t ∧ (t <<< 5) % 16 = 0 := by
  rcases ht with rfl | rfl <;> decide

/-- `compactToHex` of a flag byte followed by packed nibbles. -/
private theorem compactToHex_cons (f : UInt8) (ms : List UInt8) (hms : Nibbles ms)
    (hl : ms.length % 2 = 0) :
    compactToHex (f :: decodeNibbles ms) =
      some (((if f / 16 ≥ 2 then [f / 16, f % 16] ++ ms ++ [16] else [f / 16, f % 16] ++ ms)).drop
        (2 - (f / 16 &&& 1)).toNat) := by
  have hk : keybytesToHex (f :: decodeNibbles ms) = (f / 16 :: f % 16 :: ms) ++ [16] := by
    simp [keybytesToHex, List.flatMap_cons, unpack_decodeNibbles hms hl]
  simp only [compactToHex, hk, List.dropLast_concat]
  split <;> simp

/-- `compactToHex` of the compact form of nibbles `ns` with terminator flag `t`. -/
private theorem compactToHex_flagged {t : UInt8} (ht : t = 0 ∨ t = 1) {ns : List UInt8}
    (hns : Nibbles ns) :
    compactToHex (if ns.length % 2 = 1 then
        (t <<< 5 ||| (1 : UInt8) <<< 4 ||| ns.headD 0) :: decodeNibbles ns.tail
      else t <<< 5 :: decodeNibbles ns) = some (if t = 1 then ns ++ [16] else ns) := by
  split
  · next hodd =>
    obtain ⟨x, ms, rfl⟩ : ∃ x ms, ns = x :: ms := by
      cases ns with
      | nil => simp at hodd
      | cons x ms => exact ⟨x, ms, rfl⟩
    simp only [nibbles_cons] at hns
    have hms : ms.length % 2 = 0 := by simp at hodd; omega
    obtain ⟨hf1, hf2⟩ := flag_odd ht hns.1
    simp only [List.headD_cons, List.tail_cons]
    rw [compactToHex_cons _ ms hns.2 hms, hf1, hf2]
    rcases ht with rfl | rfl
    · simp
    · simp
      rfl
  · next heven =>
    have hl : ns.length % 2 = 0 := by omega
    obtain ⟨hf1, hf2⟩ := flag_even ht
    rw [compactToHex_cons _ ns hns hl, hf1, hf2]
    rcases ht with rfl | rfl
    · simp
    · simp
      rfl

/-- `compactToHex` inverts `hexToCompact` on HEX keys. -/
theorem compactToHex_hexToCompact {h : List UInt8} (hh : IsHex h) :
    compactToHex (hexToCompact h) = some h := by
  obtain ⟨ns, hns, rfl | rfl⟩ := hh
  · have := compactToHex_flagged (t := 0) (.inl rfl) hns
    simpa [hexToCompact, hasTerm_nibbles hns] using this
  · have := compactToHex_flagged (t := 1) (.inr rfl) hns
    simpa [hexToCompact, hasTerm_term] using this

/-- The length of a compact key: the flag byte and a byte for each pair of nibbles. -/
theorem length_hexToCompact (h : List UInt8) :
    (hexToCompact h).length = (if hasTerm h then h.dropLast else h).length / 2 + 1 := by
  have hpacked : ∀ (hex : List UInt8) (a b : UInt8),
      (if hex.length % 2 = 1 then a :: decodeNibbles hex.tail else b :: decodeNibbles hex).length =
        hex.length / 2 + 1 := by
    intro hex a b
    split
    · simp only [List.length_cons, length_decodeNibbles, List.length_tail]
      omega
    · simp [length_decodeNibbles]
  exact hpacked _ _ _

/-! ## Keys from bytes -/

/-- A HEX key that ends at a value: nibbles and the terminator. -/
def IsKey (k : List UInt8) : Prop := ∃ ns, Nibbles ns ∧ k = ns ++ [16]

theorem nibbles_flatMap (str : List UInt8) : Nibbles (str.flatMap fun b => [b / 16, b % 16]) := by
  intro x hx
  simp only [List.mem_flatMap, List.mem_cons, List.not_mem_nil, or_false] at hx
  obtain ⟨b, -, rfl | rfl⟩ := hx
  · rw [UInt8.lt_iff_toNat_lt, UInt8.toNat_div]
    have := b.toNat_lt
    simp
    omega
  · rw [UInt8.lt_iff_toNat_lt, UInt8.toNat_mod]
    simp
    omega

theorem isKey_keybytesToHex (str : List UInt8) : IsKey (keybytesToHex str) :=
  ⟨_, nibbles_flatMap str, rfl⟩

/-- A byte is its two nibbles. -/
private theorem eq_of_nibbles_eq {a b : UInt8} (h1 : a / 16 = b / 16) (h2 : a % 16 = b % 16) :
    a = b := by
  apply UInt8.toNat_inj.mp
  have e1 := congrArg UInt8.toNat h1
  have e2 := congrArg UInt8.toNat h2
  rw [UInt8.toNat_div, UInt8.toNat_div] at e1
  rw [UInt8.toNat_mod, UInt8.toNat_mod] at e2
  simp at e1 e2
  omega

/-- Packing the two nibbles of a byte gives the byte. -/
theorem pack_unpack (b : UInt8) : (b / 16) <<< 4 ||| b % 16 = b := by
  have hhi : b / 16 < 16 := by
    rw [UInt8.lt_iff_toNat_lt, UInt8.toNat_div]
    have := b.toNat_lt
    simp
    omega
  have hlo : b % 16 < 16 := by
    rw [UInt8.lt_iff_toNat_lt, UInt8.toNat_mod]
    simp
    omega
  obtain ⟨h1, h2⟩ := unpack_pack hhi hlo
  exact eq_of_nibbles_eq h1 h2

theorem decodeNibbles_flatMap : ∀ str : List UInt8,
    decodeNibbles (str.flatMap fun b => [b / 16, b % 16]) = str
  | [] => rfl
  | b :: str => by
    simp only [List.flatMap_cons, List.cons_append, List.nil_append, decodeNibbles]
    rw [pack_unpack, decodeNibbles_flatMap str]

/-- `hexToKeybytes` inverts `keybytesToHex`. -/
theorem hexToKeybytes_keybytesToHex (str : List UInt8) :
    hexToKeybytes (keybytesToHex str) = some str := by
  have hlen : (str.flatMap fun b => [b / 16, b % 16]).length % 2 = 0 := by
    simp [List.length_flatMap]
  simp only [hexToKeybytes, keybytesToHex, hasTerm_term, if_true, List.dropLast_concat, hlen,
    ne_eq, not_true_eq_false, if_false, decodeNibbles_flatMap]

/-- Different keys have different HEX forms. -/
theorem keybytesToHex_inj : ∀ {a b : List UInt8}, keybytesToHex a = keybytesToHex b → a = b
  | [], [], _ => rfl
  | [], _ :: _, h => by simp [keybytesToHex] at h
  | _ :: _, [], h => by simp [keybytesToHex] at h
  | x :: xs, y :: ys, h => by
    simp only [keybytesToHex, List.flatMap_cons, List.cons_append, List.nil_append,
      List.cons.injEq] at h
    obtain ⟨h1, h2, h3⟩ := h
    rw [eq_of_nibbles_eq h1 h2, keybytesToHex_inj (a := xs) (b := ys) h3]

/-- The three encodings invert each other: COMPACT and HEX on every HEX key, KEYBYTES and HEX on
every byte string, and HEX and COMPACT on every compact key that `hexToCompact` makes. -/
theorem key_encodings_inverse :
    (∀ h, IsHex h → compactToHex (hexToCompact h) = some h) ∧
    (∀ str, hexToKeybytes (keybytesToHex str) = some str) ∧
    (∀ c, (∃ h, IsHex h ∧ hexToCompact h = c) → (compactToHex c).map hexToCompact = some c) := by
  refine ⟨fun h hh => compactToHex_hexToCompact hh, hexToKeybytes_keybytesToHex, ?_⟩
  rintro c ⟨h, hh, rfl⟩
  rw [compactToHex_hexToCompact hh]
  rfl

/-! ## Common prefixes -/

theorem prefixLen_le_left : ∀ a b : List UInt8, prefixLen a b ≤ a.length
  | [], _ => by simp [prefixLen]
  | _ :: _, [] => by simp [prefixLen]
  | x :: xs, y :: ys => by
    simp only [prefixLen, List.length_cons]
    split
    · have := prefixLen_le_left xs ys; omega
    · omega

theorem prefixLen_comm : ∀ a b : List UInt8, prefixLen a b = prefixLen b a
  | [], [] | [], _ :: _ | _ :: _, [] => by simp [prefixLen]
  | x :: xs, y :: ys => by
    simp only [prefixLen, prefixLen_comm xs ys]
    by_cases h : x = y
    · simp [h]
    · simp [h, Ne.symm h]

theorem prefixLen_le_right (a b : List UInt8) : prefixLen a b ≤ b.length :=
  prefixLen_comm a b ▸ prefixLen_le_left b a

/-- The common prefix is a prefix of both. -/
theorem take_prefixLen : ∀ a b : List UInt8, a.take (prefixLen a b) = b.take (prefixLen a b)
  | [], _ | _ :: _, [] => by simp [prefixLen]
  | x :: xs, y :: ys => by
    simp only [prefixLen]
    split
    · next h => simp [h, take_prefixLen xs ys]
    · simp

/-- After the common prefix the keys differ, if neither has ended. -/
theorem getElem_prefixLen_ne : ∀ (a b : List UInt8) (ha : prefixLen a b < a.length)
    (hb : prefixLen a b < b.length), a[prefixLen a b] ≠ b[prefixLen a b]
  | [], _, ha, _ => by simp [prefixLen] at ha
  | _ :: _, [], _, hb => by simp [prefixLen] at hb
  | x :: xs, y :: ys, ha, hb => by
    simp only [prefixLen] at ha hb ⊢
    split
    · next h =>
      simp only [List.getElem_cons_succ]
      exact getElem_prefixLen_ne xs ys (by simp [h] at ha; omega) (by simp [h] at hb; omega)
    · next h => simpa using h

/-- A key shares all of itself with a key it is a prefix of. -/
theorem prefixLen_append (a c : List UInt8) : prefixLen (a ++ c) a = a.length := by
  induction a with
  | nil => simp [prefixLen]
  | cons x xs ih => simp [prefixLen, ih]

/-- The common prefix covers all of `b` exactly when `b` is a prefix of `a`. -/
theorem prefixLen_eq_length_iff (a b : List UInt8) : prefixLen a b = b.length ↔ b <+: a := by
  constructor
  · intro h
    have ht := take_prefixLen a b
    rw [h, List.take_length] at ht
    rw [← ht]
    exact List.take_prefix _ _
  · rintro ⟨c, rfl⟩
    exact prefixLen_append b c

end GoGaia.Patricia
