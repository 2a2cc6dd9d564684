import Mathlib
import GoGaia.Lib.ByteBits
import GoGaia.Core.Bloom

/-!
# Rotated bloom bits

`core/bloombits/generator.go`, as the bloom indexer of `fbc/bloombits.go` drives it. For a section
of `sections` blocks the generator keeps one bit vector per bloom bit, with a bit per block:
`AddBloom` of the section's block `k` sets bit `k` of the vector of bloom bit `i` whenever the
block's bloom has bit `i`, which it reads at byte `255 - i / 8`, bit `i % 8`. The indexer's `Reset`
makes a generator for the section, `Process` adds the bloom of each of its blocks in order, and
`Commit` reads every vector back with `Bitset`.

After the blooms of a whole section the vector of bit `i` has bit `k` set exactly when the bloom of
the section's block `k` has bit `i` (`sectionGenerator_ok`), and `Bitset` returns it for every bit
below `sections` (`bitset_of_full`). `Bitset` bounds the index by `sections`, not by the 2048
bloom bits: for a section size below 2048 `Commit` fails at bit `sections` (`commitBits_small`).

A generator carries as fields what `NewGenerator` sets up and `AddBloom` keeps: 2048 vectors of
`sections / 8` bytes, `sections` a multiple of 8, and at most `sections` blooms added. A run-time
panic is `none`.
-/

namespace GoGaia.Bloombits

open GoGaia.Core

/-- `errSectionOutOfBounds`. -/
def errSectionOutOfBounds : String := "section out of bounds"

/-- `Generator`: the rotated blooms, one vector per bloom bit, the number of blocks of the
section and the index of the next block to add. -/
structure Generator where
  blooms : List (List UInt8)
  sections : Nat
  nextBit : Nat
  length_blooms : blooms.length = bloomBitLength
  length_column : ∀ col ∈ blooms, col.length = sections / 8
  sections_mod : sections % 8 = 0
  nextBit_le : nextBit ≤ sections

/-- `NewGenerator`: a generator of zero vectors for a section of `sections` blocks. -/
def newGenerator (sections : Nat) : Except String Generator :=
  if h : sections % 8 ≠ 0 then .error "section count not multiple of 8"
  else .ok {
    blooms := List.replicate bloomBitLength (List.replicate (sections / 8) 0)
    sections := sections
    nextBit := 0
    length_blooms := List.length_replicate
    length_column := fun col hcol => by rw [List.eq_of_mem_replicate hcol, List.length_replicate]
    sections_mod := not_not.mp h
    nextBit_le := Nat.zero_le _ }

namespace Generator

/-- The test of `AddBloom` for bloom bit `i`: the mask `1 << (i % 8)` against the bloom's byte
`BloomByteLength - 1 - i / 8`. -/
def bloomBitSet (bloom : Bloom) (i : Nat) : Prop :=
  bloom.bytes.getD (bloomByteLength - 1 - i / 8) 0 &&& (1 <<< UInt8.ofNat (i % 8)) ≠ 0

instance (bloom : Bloom) (i : Nat) : Decidable (bloomBitSet bloom i) :=
  inferInstanceAs (Decidable (_ ≠ _))

/-- `AddBloom`: the bloom of the section's block `index` written into bit `index` of every
vector whose bloom bit is set. The bloom is indexed below its 256 bytes, and the vectors at
`nextBit / 8` below their `sections / 8` bytes. -/
def addBloom (b : Generator) (index : Nat) (bloom : Bloom) : Except String Generator :=
  if h : b.nextBit ≥ b.sections then .error errSectionOutOfBounds
  else if b.nextBit ≠ index then .error "bloom filter with unexpected index"
  else .ok {
    blooms := b.blooms.mapIdx fun i col =>
      if bloomBitSet bloom i then col.modify (b.nextBit / 8) (· ||| 1 <<< UInt8.ofNat (7 - b.nextBit % 8))
      else col
    sections := b.sections
    nextBit := b.nextBit + 1
    length_blooms := by rw [List.length_mapIdx, b.length_blooms]
    length_column := by
      intro col hcol
      obtain ⟨i, hi, rfl⟩ := List.mem_mapIdx.mp hcol
      have := b.length_column _ (List.getElem_mem hi)
      split <;> simp [this]
    sections_mod := b.sections_mod
    nextBit_le := by omega }

/-- `Bitset`: the vector of bloom bit `idx`, once the section is complete. An index past the
2048 vectors is the run-time panic, `none`. -/
def bitset (b : Generator) (idx : Nat) : Option (Except String (List UInt8)) :=
  if b.nextBit ≠ b.sections then some (.error "bloom not fully generated yet")
  else if idx ≥ b.sections then some (.error errSectionOutOfBounds)
  else (.ok ·) <$> b.blooms[idx]?

/-- `Process` of the bloom indexer: `AddBloom` at the block's index in the section; the error of
`AddBloom` is dropped, and the generator is then as it was. -/
def process (b : Generator) (index : Nat) (bloom : Bloom) : Generator :=
  match b.addBloom index bloom with
  | .ok b' => b'
  | .error _ => b

/-- The loop of `Commit`: `Bitset` of each bit in turn, up to the first error. -/
def commitBits (b : Generator) : List Nat → Option (Except String (List (List UInt8)))
  | [] => some (.ok [])
  | i :: is =>
    match b.bitset i with
    | none => none
    | some (.error e) => some (.error e)
    | some (.ok bits) => (fun r => (bits :: ·) <$> r) <$> b.commitBits is

/-! ## One bloom -/

/-- The vector of bloom bit `i`, empty past the 2048 of them. -/
abbrev column (b : Generator) (i : Nat) : List UInt8 := b.blooms.getD i []

theorem length_column_getD (b : Generator) {i : Nat} (hi : i < bloomBitLength) :
    (b.column i).length = b.sections / 8 := by
  have hi' : i < b.blooms.length := by rw [b.length_blooms]; exact hi
  rw [column, List.getD_eq_getElem _ _ hi']
  exact b.length_column _ (List.getElem_mem hi')

/-- The test of `AddBloom` reads bit `i` of the bloom. -/
theorem bloomBitSet_iff (bloom : Bloom) {i : Nat} (hi : i < bloomBitLength) :
    bloomBitSet bloom i ↔ bloom.big.testBit i = true := by
  rw [bloomBitSet, ByteBits.and_one_shiftLeft_ne_zero _ (Nat.mod_lt i (by decide)), testBit_big _ hi]

theorem addBloom_ok_of_lt {b : Generator} (h : b.nextBit < b.sections) (bloom : Bloom) :
    ∃ b', b.addBloom b.nextBit bloom = .ok b' := by
  rw [addBloom, dif_neg (by omega), if_neg (by simp)]
  exact ⟨_, rfl⟩

/-- What a successful `AddBloom` does: the block is the next one, and bit `nextBit` of each vector
becomes the bloom's bit, every other bit staying as it was. -/
theorem addBloom_ok {b b' : Generator} {index : Nat} {bloom : Bloom}
    (h : b.addBloom index bloom = .ok b') :
    b.nextBit < b.sections ∧ index = b.nextBit ∧ b'.sections = b.sections ∧
      b'.nextBit = b.nextBit + 1 ∧ ∀ i < bloomBitLength, ∀ j,
        ByteBits.get (b'.column i) j =
          (ByteBits.get (b.column i) j || decide (j = b.nextBit) && bloom.big.testBit i) := by
  unfold addBloom at h
  split at h
  · cases h
  · next hlt =>
    split at h
    · cases h
    · next hidx =>
      cases h
      refine ⟨by omega, (not_not.mp hidx).symm, rfl, rfl, fun i hi j => ?_⟩
      have hi' : i < b.blooms.length := by rw [b.length_blooms]; exact hi
      have hbyte : b.nextBit / 8 < (b.column i).length := by
        rw [length_column_getD b hi]
        have := b.sections_mod
        omega
      simp only [column, List.getD_eq_getElem?_getD, List.getElem?_mapIdx,
        List.getElem?_eq_getElem hi', Option.map_some, Option.getD_some] at hbyte ⊢
      by_cases hset : bloomBitSet bloom i
      · rw [if_pos hset, ByteBits.get_modify_or, (bloomBitSet_iff bloom hi).mp hset]
        simp [hbyte]
      · rw [if_neg hset, Bool.eq_false_iff.mpr (mt (bloomBitSet_iff bloom hi).mpr hset)]
        simp

/-! ## A whole section -/

/-- The generator of section `sec` after the indexer's `Reset` and a `Process` of each of its
blocks in order, block `n` with the header bloom `bloomOf n`. -/
def sectionGenerator (size sec : Nat) (bloomOf : Nat → Bloom) : Except String Generator :=
  (newGenerator size).map fun g =>
    (List.range size).foldl (fun g k => g.process k (bloomOf (sec * size + k))) g

/-- After the first `k` blocks of the section, bit `j` of the vector of bloom bit `i` is bit `i`
of the bloom of block `j` for `j < k`, and clear after. -/
theorem foldl_process (size sec : Nat) (bloomOf : Nat → Bloom) (g : Generator)
    (hsize : g.sections = size) (h0 : g.nextBit = 0)
    (hclear : ∀ i < bloomBitLength, ∀ j, ByteBits.get (g.column i) j = false) :
    ∀ k ≤ size, let g' := (List.range k).foldl (fun g k => g.process k (bloomOf (sec * size + k))) g
      g'.sections = size ∧ g'.nextBit = k ∧ ∀ i < bloomBitLength, ∀ j,
        ByteBits.get (g'.column i) j = (decide (j < k) && (bloomOf (sec * size + j)).big.testBit i) := by
  intro k hk
  induction k with
  | zero =>
    simp only [List.range_zero, List.foldl_nil]
    exact ⟨hsize, h0, fun i hi j => by rw [hclear i hi j]; simp⟩
  | succ k ih =>
    obtain ⟨hs, hn, hbits⟩ := ih (by omega)
    -- the next block is `k`, one the generator still has room for
    rw [List.range_succ, List.foldl_append, List.foldl_cons, List.foldl_nil]
    set g' := (List.range k).foldl (fun g k => g.process k (bloomOf (sec * size + k))) g
    obtain ⟨b', hb'⟩ := addBloom_ok_of_lt (b := g') (by omega) (bloomOf (sec * size + k))
    rw [hn] at hb'
    obtain ⟨-, -, hs', hn', hcol⟩ := addBloom_ok hb'
    have hproc : g'.process k (bloomOf (sec * size + k)) = b' := by
      rw [process, hb']
    rw [hproc]
    refine ⟨hs'.trans hs, hn'.trans (by rw [hn]), fun i hi j => ?_⟩
    rw [hcol i hi j, hbits i hi j, hn]
    by_cases hjk : j = k
    · subst hjk
      simp
    · have : j < k + 1 ↔ j < k := by omega
      simp [hjk, this]

/-- The generator of a section of `size` blocks, a multiple of 8: complete, with bit `j` of the
vector of bloom bit `i` set exactly when the bloom of the section's block `j` has bit `i`. -/
theorem sectionGenerator_ok {size : Nat} (hsize : size % 8 = 0) (sec : Nat) (bloomOf : Nat → Bloom) :
    ∃ g, sectionGenerator size sec bloomOf = .ok g ∧ g.sections = size ∧ g.nextBit = size ∧
      ∀ i < bloomBitLength, ∀ j,
        ByteBits.get (g.column i) j = (decide (j < size) && (bloomOf (sec * size + j)).big.testBit i) := by
  have hnew : newGenerator size = .ok _ := dif_neg (not_not.mpr hsize)
  rw [sectionGenerator, hnew]
  refine ⟨_, rfl, foldl_process size sec bloomOf _ rfl rfl ?_ size le_rfl⟩
  intro i hi j
  rw [column, List.getD_eq_getElem _ _ (by simpa using hi), List.getElem_replicate,
    ByteBits.get_replicate]
  simp

/-- `Bitset` of a complete generator returns the vector of every bit below `sections`. -/
theorem bitset_of_full {b : Generator} (hfull : b.nextBit = b.sections) {idx : Nat}
    (hidx : idx < b.sections) (hbit : idx < bloomBitLength) : b.bitset idx = some (.ok (b.column idx)) := by
  have hlen : idx < b.blooms.length := by rw [b.length_blooms]; exact hbit
  rw [bitset, if_neg (by simp [hfull]), if_neg (by omega), List.getElem?_eq_getElem hlen, column,
    List.getD_eq_getElem _ _ hlen]
  rfl

/-! ## `Commit` -/

/-- `Commit` of a complete section of fewer than 2048 blocks fails at bit `sections`, which
`Bitset` takes for a section index. -/
theorem commitBits_small {b : Generator} (hfull : b.nextBit = b.sections)
    (hsmall : b.sections < bloomBitLength) :
    b.commitBits (List.range bloomBitLength) = some (.error errSectionOutOfBounds) := by
  -- the bits below `sections` are read, then bit `sections` is refused
  have hsplit : List.range bloomBitLength =
      List.range b.sections ++ b.sections :: List.range' (b.sections + 1) (bloomBitLength - b.sections - 1) := by
    have htail : List.range' b.sections (bloomBitLength - b.sections) =
        b.sections :: List.range' (b.sections + 1) (bloomBitLength - b.sections - 1) :=
      List.range'_eq_cons_iff.mpr ⟨rfl, by omega, rfl⟩
    have happ := List.range'_append_1 (s := 0) (m := b.sections) (n := bloomBitLength - b.sections)
    rw [Nat.zero_add, show b.sections + (bloomBitLength - b.sections) = bloomBitLength by omega,
      htail, ← List.range_eq_range', ← List.range_eq_range'] at happ
    exact happ.symm
  have hbad : b.bitset b.sections = some (.error errSectionOutOfBounds) := by
    rw [bitset, if_neg (by simp [hfull]), if_pos le_rfl]
  suffices h : ∀ l : List Nat, (∀ i ∈ l, i < b.sections) →
      b.commitBits (l ++ b.sections :: List.range' (b.sections + 1) (bloomBitLength - b.sections - 1)) =
        some (.error errSectionOutOfBounds) by
    rw [hsplit]
    exact h _ fun i hi => List.mem_range.mp hi
  intro l hl
  induction l with
  | nil => rw [List.nil_append, commitBits, hbad]
  | cons i is ih =>
    have hi := hl i (by simp)
    rw [List.cons_append, commitBits, bitset_of_full hfull hi (by omega),
      ih (fun j hj => hl j (by simp [hj]))]
    rfl

/-- **A bloom indexer with sections below 2048 blocks can never commit.** However the blooms
of the section's blocks come, the generator is complete after them, and `Commit` stops at bit
`size` with `errSectionOutOfBounds`: `Bitset` takes the bloom bit for a block index. -/
theorem sectionGenerator_commit_fails {size : Nat} (hsize : size % 8 = 0)
    (hsmall : size < bloomBitLength) (sec : Nat) (bloomOf : Nat → Bloom) :
    ∃ g, sectionGenerator size sec bloomOf = .ok g ∧
      g.commitBits (List.range bloomBitLength) = some (.error errSectionOutOfBounds) := by
  obtain ⟨g, hg, hs, hn, -⟩ := sectionGenerator_ok hsize sec bloomOf
  exact ⟨g, hg, commitBits_small (hn.trans hs.symm) (by rw [hs]; exact hsmall)⟩

/-- Sections of eight blocks: the indexer's `Commit` fails. -/
theorem sectionGenerator_commit_fails_eight :
    ∃ g, sectionGenerator 8 0 (fun _ => zeroBloom) = .ok g ∧
      g.commitBits (List.range bloomBitLength) = some (.error errSectionOutOfBounds) :=
  sectionGenerator_commit_fails (by decide) (by decide) 0 _

end Generator

end GoGaia.Bloombits
