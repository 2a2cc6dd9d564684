import Mathlib
import GoGaia.Lib.ByteBits
import GoGaia.Lib.Segments
import GoGaia.Common.Bitutil
import GoGaia.Core.Bloom

/-!
# The bloom bits matcher

`core/bloombits/matcher.go`. A filter is a list of groups of keys (`NewMatcher`): the addresses,
then the keys of each topic position. A group with no keys, or with a `nil` key, matches every
block and is dropped; every other key becomes its three bloom bits (`calcBloomIndexes`).
`Start(begin, end)` runs a daisy chain over the sections of `sectionSize` blocks that meet the
range: a feed of all-ones vectors, one per section, then one sub-matcher per group, each of which
fetches the vector of each bloom bit of its keys for the section, `and`s the three vectors of a
key, `or`s the keys, `and`s the incoming vector and passes the section on only if a bit is left.
The last goroutine scans each surviving vector over the part of the section inside the range and
sends the block numbers whose bits are set.

The schedulers that fetch the vectors deliver them in the order of their requests, and every
stage of the chain handles the sections in the order they come, so the pipeline computes what
its stages composed as list functions compute: the feed is a list of partial matches, a
sub-matcher is a `filterMap` over it (`subMatchStep`) and the result sink is a `mapM` of `deliver`.
The answer to a request is `retrieve bit section`. The session's `quit` and `kill` channels, the
context, the distributor and the retrievers' protocol, and the `running` flag of `Start` are left
out: the model is a session that runs to its end.

Block numbers and sections are the source's `uint64`s, with their wrap-around. A loop over a
`uint64` counter that ends does so within `2 ^ 64 + 1` tests of its condition (`loopFuel`); the
model of such a loop returns `none` when that is not enough, and also on a run-time panic: an
index out of range of a vector, or a division by a zero section size.

The functions of the chain are specified here one at a time: the bloom bits of a key are
`bloom9`'s (`mem_calcBloomIndexes_iff`), a sub-matcher computes the bits of its group
(`subMatchStep_eq`), the scan sends the set bits of its stretch of the section (`scan_eq`,
`deliver_eq`), and the feed is one vector per section (`feed_eq`).
-/

namespace GoGaia.Bloombits

open GoGaia.Core GoGaia.Bitutil

/-- `bloomIndexes`: the three bloom bits of a key. -/
abbrev BloomIndexes := List Nat

/-- `calcBloomIndexes`: bit `i` is read from the bytes `2i` and `2i + 1` of the key's Keccak hash,
the first masked to its three low bits. -/
def calcBloomIndexes (keccak : List UInt8 → List UInt8) (b : List UInt8) : BloomIndexes :=
  let h := keccak b
  (List.range 3).map fun i => (((h.getD (2 * i) 0).toNat <<< 8) &&& 2047) + (h.getD (2 * i + 1) 0).toNat

/-- `partialMatches`: a section (`section` in the source) and the bits of its blocks that every
sub-matcher so far has left set. -/
structure PartialMatches where
  sec : UInt64
  bitset : List UInt8
deriving DecidableEq, Repr

/-- `Matcher`: the section size and the bloom bits of the groups of the filter. -/
structure Matcher where
  sectionSize : UInt64
  filters : List (List BloomIndexes)
deriving DecidableEq, Repr

/-- `NewMatcher`: the groups with at least one key and no `nil` key (`none`), each key as its
bloom bits. The schedulers are left out: a fetch is `retrieve`. -/
def newMatcher (keccak : List UInt8 → List UInt8) (sectionSize : UInt64)
    (filters : List (List (Option (List UInt8)))) : Matcher where
  sectionSize := sectionSize
  filters := filters.filterMap fun filter =>
    if filter.length = 0 then none
    else filter.mapM fun clause => calcBloomIndexes keccak <$> clause

/-- Enough tests of a loop condition for any loop over a `uint64` counter that ends: a loop
that returns to a value of its counter never ends. -/
def loopFuel : Nat := 2 ^ 64 + 1

/-- The feed of `run`: `for i := first; i <= last; i++`, a partial match of all ones for each
section. -/
def feed (sectionSize last : UInt64) : Nat → UInt64 → Option (List PartialMatches)
  | 0, _ => none
  | fuel + 1, i =>
    if i ≤ last then
      (⟨i, List.replicate (sectionSize / 8).toNat 0xff⟩ :: ·) <$> feed sectionSize last fuel (i + 1)
    else some []

/-- One bit of a key in the collector of `subMatch`: the first vector is copied into a fresh one,
every further one is `and`-ed into it. -/
def andStep (size : Nat) (data : List UInt8) : Option (List UInt8) → Option (List UInt8)
  | none => some (copyBytes (List.replicate size 0) data)
  | some v => some (andBytes v v data)

/-- The `andVector` of a key in a section; `none` is the `nil` vector of a key without bits. -/
def andVector (size : Nat) (retrieve : Nat → UInt64 → List UInt8) (sec : UInt64)
    (bits : BloomIndexes) : Option (List UInt8) :=
  bits.foldl (fun acc bit => andStep size (retrieve bit sec) acc) none

/-- One key in the collector of `subMatch`: its vector is taken as it is for the first key,
`or`-ed into the vector of the keys before for the others. -/
def orStep (andv : Option (List UInt8)) : Option (List UInt8) → Option (List UInt8)
  | none => andv
  | some v => some (orBytes v v (andv.getD []))

/-- The `orVector` of a group in a section; `none` is the `nil` vector of an empty group. -/
def orVector (size : Nat) (retrieve : Nat → UInt64 → List UInt8) (sec : UInt64)
    (bloom : List BloomIndexes) : Option (List UInt8) :=
  bloom.foldl (fun acc bits => orStep (andVector size retrieve sec bits) acc) none

/-- What the collector of `subMatch` does with one partial match: the group's vector, zeros if
it is `nil`, `and`-ed with the incoming one and passed on if a bit is set. The source skips the
`and` for a `nil` incoming vector, which the feed never sends; an `and` with an empty vector
changes nothing anyway. -/
def subMatchStep (sectionSize : UInt64) (retrieve : Nat → UInt64 → List UInt8)
    (bloom : List BloomIndexes) (subres : PartialMatches) : Option PartialMatches :=
  let size := (sectionSize / 8).toNat
  let orv := (orVector size retrieve subres.sec bloom).getD (List.replicate size 0)
  let orv := andBytes orv orv subres.bitset
  if testBytes orv then some ⟨subres.sec, orv⟩ else none

/-- `run`: the feed of the sections `begin / sectionSize` to `end / sectionSize`, then a
sub-matcher for each group. -/
def Matcher.run (m : Matcher) (retrieve : Nat → UInt64 → List UInt8) (begin end' : UInt64) :
    Option (List PartialMatches) :=
  if m.sectionSize = 0 then none
  else (fun source => m.filters.foldl
      (fun next bloom => next.filterMap (subMatchStep m.sectionSize retrieve bloom)) source) <$>
    feed m.sectionSize (end' / m.sectionSize) loopFuel (begin / m.sectionSize)

/-- The scan of `Start` over one section: `for i := first; i <= last; i++`, a whole byte skipped
when it is zero and `i` is at its start, and a block sent when its bit is set. -/
def scan (bitset : List UInt8) (sectionStart last : UInt64) : Nat → UInt64 → Option (List UInt64)
  | 0, _ => none
  | fuel + 1, i =>
    if i ≤ last then
      match bitset[((i - sectionStart) / 8).toNat]? with
      | none => none
      | some next =>
        if next = 0 then
          scan bitset sectionStart last fuel ((if i % 8 = 0 then i + 7 else i) + 1)
        else if next &&& (1 <<< (7 - i % 8).toUInt8) ≠ 0 then
          (i :: ·) <$> scan bitset sectionStart last fuel (i + 1)
        else scan bitset sectionStart last fuel (i + 1)
    else some []

/-- What `Start` sends for one result of the chain: the blocks of its section clipped to
`[begin, end]` whose bits are set. -/
def deliver (sectionSize begin end' : UInt64) (res : PartialMatches) : Option (List UInt64) :=
  let sectionStart := res.sec * sectionSize
  let first := if begin > sectionStart then begin else sectionStart
  let last := sectionStart + sectionSize - 1
  let last := if end' < last then end' else last
  scan res.bitset sectionStart last loopFuel first

/-- `Start`: the block numbers sent to `results`, in order, until it is closed. -/
def Matcher.start (m : Matcher) (retrieve : Nat → UInt64 → List UInt8) (begin end' : UInt64) :
    Option (List UInt64) := do
  let sink ← m.run retrieve begin end'
  let blocks ← sink.mapM (deliver m.sectionSize begin end')
  pure blocks.flatten

/-! ## What a block must have -/

/-- Whether a bloom may hold a match of the matcher's groups: every group has a key whose bloom
bits are all set. -/
def bloomMatches (filters : List (List BloomIndexes)) (bloom : Bloom) : Bool :=
  filters.all fun group => group.any fun bits => bits.all fun bit => bloom.big.testBit bit

/-- The filter as `BloomLookup` states it on a header bloom: every group with keys and without a
`nil` key has a key that the bloom may hold. -/
def lookupMatches (keccak : List UInt8 → List UInt8) (filters : List (List (Option (List UInt8))))
    (bloom : Bloom) : Bool :=
  filters.all fun filter =>
    filter.isEmpty || filter.any Option.isNone || filter.any fun c => c.any (bloomLookup keccak bloom)

@[simp] theorem bloomMatches_nil (bloom : Bloom) : bloomMatches [] bloom = true := rfl

@[simp] theorem bloomMatches_cons (g : List BloomIndexes) (gs : List (List BloomIndexes))
    (bloom : Bloom) : bloomMatches (g :: gs) bloom =
      ((g.any fun bits => bits.all fun bit => bloom.big.testBit bit) && bloomMatches gs bloom) := rfl

/-! ## The bloom bits of a key -/

/-- The two ways of reading an eleven-bit index from two bytes agree. -/
theorem bloomIndex_eq (x y : UInt8) :
    ((x.toNat <<< 8) &&& 2047) + y.toNat = (y.toNat + (x.toNat <<< 8)) &&& 2047 := by
  have hmask : (2047 : Nat) = 2 ^ 11 - 1 := rfl
  have hy := y.toNat_lt
  rw [hmask, Nat.and_two_pow_sub_one_eq_mod, Nat.and_two_pow_sub_one_eq_mod, Nat.shiftLeft_eq]
  omega

/-- The bloom bits of a key are the bits of its `bloom9`. -/
theorem mem_calcBloomIndexes_iff (keccak : List UInt8 → List UInt8) (d : List UInt8) (j : Nat) :
    j ∈ calcBloomIndexes keccak d ↔ (bloom9 keccak d).testBit j = true := by
  rw [testBit_bloom9, calcBloomIndexes]
  simp only [List.mem_map, List.mem_range, List.any_cons, List.any_nil, Bool.or_false,
    Bool.or_eq_true, decide_eq_true_eq, bloomIndex_eq]
  constructor
  · rintro ⟨i, hi, rfl⟩
    interval_cases i <;> simp
  · rintro (h | h | h)
    · exact ⟨0, by decide, h⟩
    · exact ⟨1, by decide, h⟩
    · exact ⟨2, by decide, h⟩

/-- `BloomLookup` of a key tests exactly its bloom bits. -/
theorem bloomLookup_eq_all (keccak : List UInt8 → List UInt8) (bloom : Bloom) (d : List UInt8) :
    bloomLookup keccak bloom d = (calcBloomIndexes keccak d).all fun bit => bloom.big.testBit bit := by
  apply Bool.eq_iff_iff.mpr
  rw [bloomLookup_iff, List.all_eq_true]
  exact ⟨fun h bit hbit => h bit ((mem_calcBloomIndexes_iff keccak d bit).mp hbit),
    fun h j hj => h j ((mem_calcBloomIndexes_iff keccak d j).mpr hj)⟩

theorem calcBloomIndexes_lt (keccak : List UInt8 → List UInt8) (d : List UInt8) :
    ∀ bit ∈ calcBloomIndexes keccak d, bit < bloomBitLength := by
  intro bit hbit
  have hbits := (mem_calcBloomIndexes_iff keccak d bit).mp hbit
  by_contra hge
  have hlt : bloom9 keccak d < 2 ^ bit :=
    lt_of_lt_of_le (bloom9_lt keccak d) (Nat.pow_le_pow_right (by decide) (by omega))
  rw [Nat.testBit_lt_two_pow hlt] at hbits
  cases hbits

theorem calcBloomIndexes_ne_nil (keccak : List UInt8 → List UInt8) (d : List UInt8) :
    calcBloomIndexes keccak d ≠ [] := by
  simp [calcBloomIndexes]

/-! ## The groups of a matcher -/

/-- A group of the matcher is the bloom bits of the keys of a group of the filter that has keys,
none of them `nil`: it is not empty, and each of its keys has bloom bits, all below 2048. -/
theorem mem_newMatcher_filters {keccak : List UInt8 → List UInt8} {sectionSize : UInt64}
    {filters : List (List (Option (List UInt8)))} {group : List BloomIndexes}
    (h : group ∈ (newMatcher keccak sectionSize filters).filters) :
    group ≠ [] ∧ ∀ bits ∈ group, bits ≠ [] ∧ ∀ bit ∈ bits, bit < bloomBitLength := by
  obtain ⟨filter, -, hf⟩ := List.mem_filterMap.mp h
  split at hf
  · cases hf
  · next hlen =>
    have hlen' := Segments.length_of_mapM_eq_some hf
    refine ⟨fun hnil => hlen ?_, fun bits hbits => ?_⟩
    · rw [← hlen', hnil, List.length_nil]
    · obtain ⟨clause, -, hc⟩ := Segments.exists_of_mem_mapM hf bits hbits
      cases clause with
      | none => cases hc
      | some d =>
        have hd : calcBloomIndexes keccak d = bits := Option.some.inj hc
        rw [← hd]
        exact ⟨calcBloomIndexes_ne_nil keccak d, calcBloomIndexes_lt keccak d⟩

/-- The matcher's test of a bloom is the filter's test through `BloomLookup`: dropping the
groups with no keys or a `nil` key, and testing the bloom bits of a key, change nothing. -/
theorem bloomMatches_newMatcher (keccak : List UInt8 → List UInt8) (sectionSize : UInt64)
    (filters : List (List (Option (List UInt8)))) (bloom : Bloom) :
    bloomMatches (newMatcher keccak sectionSize filters).filters bloom =
      lookupMatches keccak filters bloom := by
  simp only [bloomMatches, newMatcher, List.all_filterMap, lookupMatches]
  apply List.all_congr rfl
  intro filter
  by_cases hlen : filter.length = 0
  · rw [if_pos hlen, List.length_eq_zero_iff.mp hlen]
    rfl
  · rw [if_neg hlen]
    have hne : filter.isEmpty = false := by
      cases filter with
      | nil => exact absurd rfl hlen
      | cons c cs => rfl
    cases hm : filter.mapM fun clause => calcBloomIndexes keccak <$> clause with
    | none =>
      -- a `nil` key: the group is dropped, and the filter lets every bloom through
      obtain ⟨c, hc, hcn⟩ := Segments.mapM_eq_none_iff.mp hm
      have hnone : filter.any Option.isNone = true := by
        refine List.any_eq_true.mpr ⟨c, hc, ?_⟩
        cases c with
        | none => rfl
        | some d => cases hcn
      rw [hnone, Bool.or_true, Bool.true_or]
    | some g =>
      have hsome : filter.any Option.isNone = false := by
        apply Bool.eq_false_iff.mpr
        intro hany
        obtain ⟨c, hc, hcn⟩ := List.any_eq_true.mp hany
        have : ∃ c ∈ filter, (calcBloomIndexes keccak <$> c) = none := by
          refine ⟨c, hc, ?_⟩
          cases c with
          | none => rfl
          | some d => cases hcn
        rw [Segments.mapM_eq_none_iff.mpr this] at hm
        cases hm
      rw [hne, hsome, Bool.false_or, Bool.false_or]
      refine Segments.any_of_mapM_eq_some _ _ (fun c b hcb => ?_) hm
      cases c with
      | none => cases hcb
      | some d =>
        rw [← Option.some.inj hcb]
        show _ = bloomLookup keccak bloom d
        rw [bloomLookup_eq_all]

/-! ## A sub-matcher -/

section
variable {size : Nat} {retrieve : Nat → UInt64 → List UInt8} {sec : UInt64}

/-- The `and` of the vectors of further bits into a vector of the section's length. -/
theorem foldl_andStep_some {bits : BloomIndexes}
    (hlen : ∀ bit ∈ bits, (retrieve bit sec).length = size) (v : List UInt8) (hv : v.length = size) :
    ∃ w, bits.foldl (fun acc bit => andStep size (retrieve bit sec) acc) (some v) = some w ∧
      w.length = size ∧
      ∀ k, ByteBits.get w k = (ByteBits.get v k && bits.all fun bit => ByteBits.get (retrieve bit sec) k) := by
  induction bits generalizing v with
  | nil => exact ⟨v, rfl, hv, fun k => by simp⟩
  | cons bit bs ih =>
    have hdata : v.length = (retrieve bit sec).length := by rw [hv, hlen bit (by simp)]
    obtain ⟨w, hw, hwl, hwk⟩ := ih (fun b hb => hlen b (by simp [hb])) (andBytes v v (retrieve bit sec))
      (by rw [length_andBytes_self hdata, hv])
    refine ⟨w, hw, hwl, fun k => ?_⟩
    rw [hwk, get_andBytes_self hdata, List.all_cons, Bool.and_assoc]

/-- The vector of a key is the `and` of the vectors of its bits. -/
theorem andVector_eq {bits : BloomIndexes} (hne : bits ≠ [])
    (hlen : ∀ bit ∈ bits, (retrieve bit sec).length = size) :
    ∃ w, andVector size retrieve sec bits = some w ∧ w.length = size ∧
      ∀ k, ByteBits.get w k = bits.all fun bit => ByteBits.get (retrieve bit sec) k := by
  obtain ⟨bit, bs, rfl⟩ := List.exists_cons_of_ne_nil hne
  -- the first vector is copied whole into the fresh one, as it has its length
  have hcopy : copyBytes (List.replicate size 0) (retrieve bit sec) = retrieve bit sec :=
    copyBytes_of_length_eq (by rw [hlen bit (by simp), List.length_replicate])
  obtain ⟨w, hw, hwl, hwk⟩ := foldl_andStep_some (fun b (hb : b ∈ bs) => hlen b (by simp [hb]))
    (retrieve bit sec) (hlen bit (by simp))
  refine ⟨w, ?_, hwl, fun k => by rw [hwk, List.all_cons]⟩
  rw [andVector, List.foldl_cons, andStep, hcopy]
  exact hw

/-- The `or` of the vectors of further keys into a vector of the section's length. -/
theorem foldl_orStep_some {bloom : List BloomIndexes}
    (hgroup : ∀ bits ∈ bloom, bits ≠ [] ∧ ∀ bit ∈ bits, (retrieve bit sec).length = size)
    (v : List UInt8) (hv : v.length = size) :
    ∃ w, bloom.foldl (fun acc bits => orStep (andVector size retrieve sec bits) acc) (some v) = some w ∧
      w.length = size ∧ ∀ k, ByteBits.get w k = (ByteBits.get v k ||
        bloom.any fun bits => bits.all fun bit => ByteBits.get (retrieve bit sec) k) := by
  induction bloom generalizing v with
  | nil => exact ⟨v, rfl, hv, fun k => by simp⟩
  | cons bits bs ih =>
    obtain ⟨hne, hlen⟩ := hgroup bits (by simp)
    obtain ⟨a, ha, hal, hak⟩ := andVector_eq hne hlen
    have hva : v.length = a.length := by rw [hv, hal]
    obtain ⟨w, hw, hwl, hwk⟩ := ih (fun b hb => hgroup b (by simp [hb])) (orBytes v v a)
      (by rw [length_orBytes_self hva, hv])
    refine ⟨w, ?_, hwl, fun k => ?_⟩
    · rw [List.foldl_cons, ha, orStep, Option.getD_some]
      exact hw
    · rw [hwk, get_orBytes_self hva, hak, List.any_cons, Bool.or_assoc]

/-- The vector of a group is the `or` of the vectors of its keys. -/
theorem orVector_eq {bloom : List BloomIndexes} (hne : bloom ≠ [])
    (hgroup : ∀ bits ∈ bloom, bits ≠ [] ∧ ∀ bit ∈ bits, (retrieve bit sec).length = size) :
    ∃ w, orVector size retrieve sec bloom = some w ∧ w.length = size ∧
      ∀ k, ByteBits.get w k = bloom.any fun bits => bits.all fun bit => ByteBits.get (retrieve bit sec) k := by
  obtain ⟨bits, bs, rfl⟩ := List.exists_cons_of_ne_nil hne
  obtain ⟨hne', hlen⟩ := hgroup bits (by simp)
  obtain ⟨a, ha, hal, hak⟩ := andVector_eq hne' hlen
  obtain ⟨w, hw, hwl, hwk⟩ := foldl_orStep_some (fun b (hb : b ∈ bs) => hgroup b (by simp [hb])) a hal
  refine ⟨w, ?_, hwl, fun k => by rw [hwk, hak, List.any_cons]⟩
  rw [orVector, List.foldl_cons, ha, orStep]
  exact hw

end

/-- **A sub-matcher computes the bits of its group.** With vectors of the section's length, the
vector it passes on has the bits of the incoming one that some key of the group has all three of,
and it passes the section on exactly when a bit is left. -/
theorem subMatchStep_eq {sectionSize : UInt64} {retrieve : Nat → UInt64 → List UInt8}
    {bloom : List BloomIndexes} {subres : PartialMatches}
    (hgroup : ∀ bits ∈ bloom, bits ≠ [] ∧
      ∀ bit ∈ bits, (retrieve bit subres.sec).length = (sectionSize / 8).toNat)
    (hlen : subres.bitset.length = (sectionSize / 8).toNat) :
    ∃ w, w.length = (sectionSize / 8).toNat ∧
      (∀ k, ByteBits.get w k = (ByteBits.get subres.bitset k &&
        bloom.any fun bits => bits.all fun bit => ByteBits.get (retrieve bit subres.sec) k)) ∧
      subMatchStep sectionSize retrieve bloom subres =
        if testBytes w then some ⟨subres.sec, w⟩ else none := by
  -- the group's vector before the `and` with the incoming one
  obtain ⟨o, ho, hol, hok⟩ : ∃ o, (orVector (sectionSize / 8).toNat retrieve subres.sec bloom).getD
      (List.replicate (sectionSize / 8).toNat 0) = o ∧ o.length = (sectionSize / 8).toNat ∧
      ∀ k, ByteBits.get o k = bloom.any fun bits => bits.all fun bit =>
        ByteBits.get (retrieve bit subres.sec) k := by
    cases bloom with
    | nil => exact ⟨_, rfl, List.length_replicate, fun k => by simp [orVector, ByteBits.get_replicate]⟩
    | cons bits bs =>
      obtain ⟨w, hw, hwl, hwk⟩ := orVector_eq (List.cons_ne_nil bits bs) hgroup
      exact ⟨w, by rw [hw, Option.getD_some], hwl, hwk⟩
  have hob : o.length = subres.bitset.length := by rw [hol, hlen]
  refine ⟨andBytes o o subres.bitset, by rw [length_andBytes_self hob, hol], fun k => ?_, ?_⟩
  · rw [get_andBytes_self hob, hok, Bool.and_comm]
  · rw [subMatchStep, ho]

/-- A sub-matcher passes a partial match on under its section. -/
theorem sec_of_subMatchStep {sectionSize : UInt64} {retrieve : Nat → UInt64 → List UInt8}
    {bloom : List BloomIndexes} {pm pm' : PartialMatches}
    (h : subMatchStep sectionSize retrieve bloom pm = some pm') : pm'.sec = pm.sec := by
  simp only [subMatchStep] at h
  split at h
  · cases h
    rfl
  · cases h

/-! ## The scan of a section -/

theorem toNat_add_one_of_lt {i : UInt64} (h : i.toNat + 1 < 2 ^ 64) : (i + 1).toNat = i.toNat + 1 := by
  rw [UInt64.toNat_add, show (1 : UInt64).toNat = 1 from rfl, Nat.mod_eq_of_lt h]

theorem toNat_add_seven_add_one {i : UInt64} (h : i.toNat + 8 < 2 ^ 64) :
    (i + 7 + 1).toNat = i.toNat + 8 := by
  rw [toNat_add_one_of_lt (by rw [UInt64.toNat_add, show (7 : UInt64).toNat = 7 from rfl,
      Nat.mod_eq_of_lt (by omega)]; omega),
    UInt64.toNat_add, show (7 : UInt64).toNat = 7 from rfl, Nat.mod_eq_of_lt (by omega)]

/-- The last block of a section: `a + b - 1` does not wrap around as long as `a + b` is at most
`2 ^ 64`, even when `a + b` itself wraps to 0. -/
theorem toNat_add_sub_one {a b : UInt64} (hb : 1 ≤ b.toNat) (h : a.toNat + b.toNat ≤ 2 ^ 64) :
    (a + b - 1).toNat = a.toNat + b.toNat - 1 := by
  have hb' : (b - 1).toNat = b.toNat - 1 :=
    UInt64.toNat_sub_of_le _ _ (UInt64.le_iff_toNat_le.mpr hb)
  rw [add_sub_assoc, UInt64.toNat_add, hb', Nat.mod_eq_of_lt (by omega)]
  omega

/-- Past `2 ^ 64`, `a + b - 1` wraps around once. -/
theorem toNat_add_sub_one_of_lt {a b : UInt64} (h : 2 ^ 64 < a.toNat + b.toNat) :
    (a + b - 1).toNat = a.toNat + b.toNat - 1 - 2 ^ 64 := by
  have ha := a.toNat_lt
  have hb := b.toNat_lt
  have hsum : (a + b).toNat = a.toNat + b.toNat - 2 ^ 64 := by
    rw [UInt64.toNat_add]
    show (a.toNat + b.toNat) % 2 ^ 64 = _
    omega
  have h1 : (1 : UInt64).toNat = 1 := rfl
  rw [UInt64.toNat_sub_of_le _ _ (UInt64.le_iff_toNat_le.mpr (by rw [hsum, h1]; omega)), hsum, h1]
  omega

theorem toNat_seven_sub_mod (i : UInt64) : (7 - i % 8).toNat = 7 - i.toNat % 8 := by
  have hmod : (i % 8).toNat = i.toNat % 8 := UInt64.toNat_mod i 8
  have hle : i % 8 ≤ 7 := UInt64.le_iff_toNat_le.mpr (by rw [hmod]; show i.toNat % 8 ≤ 7; omega)
  rw [UInt64.toNat_sub_of_le _ _ hle, hmod]
  rfl

/-- The mask test of the scan reads bit `7 - i % 8` of the byte. -/
theorem scan_mask_iff (next : UInt8) (i : UInt64) :
    next &&& (1 <<< (7 - i % 8).toUInt8) ≠ 0 ↔ next.toNat.testBit (7 - i.toNat % 8) = true := by
  have hshift : (7 - i % 8).toUInt8 = UInt8.ofNat (7 - i.toNat % 8) := by
    show UInt8.ofNat (7 - i % 8).toNat = _
    rw [toNat_seven_sub_mod]
  rw [hshift]
  exact ByteBits.and_one_shiftLeft_ne_zero next (by omega)

/-- **The scan sends the blocks of its stretch whose bits are set.** Between `i` and `last`, with
the section starting on a byte and the stretch inside its vector, the scan ends with the blocks
whose bits are set, in order, also where it steps over a zero byte at once. -/
theorem scan_eq {bitset : List UInt8} {sectionStart last : UInt64}
    (hstart : sectionStart.toNat % 8 = 0) (hlast : last.toNat + 8 < 2 ^ 64)
    (hlen : last.toNat - sectionStart.toNat < 8 * bitset.length) :
    ∀ fuel (i : UInt64), sectionStart.toNat ≤ i.toNat → last.toNat + 1 - i.toNat < fuel →
      scan bitset sectionStart last fuel i =
        some (((List.range' i.toNat (last.toNat + 1 - i.toNat)).filter
          fun n => ByteBits.get bitset (n - sectionStart.toNat)).map UInt64.ofNat) := by
  intro fuel
  induction fuel with
  | zero => intro i _ h; omega
  | succ fuel ih =>
    intro i hi hfuel
    by_cases hle : i ≤ last
    · have hle' : i.toNat ≤ last.toNat := UInt64.le_iff_toNat_le.mp hle
      have hidx : ((i - sectionStart) / 8).toNat = (i.toNat - sectionStart.toNat) / 8 := by
        rw [UInt64.toNat_div, UInt64.toNat_sub_of_le _ _ (UInt64.le_iff_toNat_le.mpr hi)]
        rfl
      have hin : (i.toNat - sectionStart.toNat) / 8 < bitset.length := by omega
      -- bit `n` of the vector, for a block in the byte of `i`
      have hbyte : ∀ n, (n - sectionStart.toNat) / 8 = (i.toNat - sectionStart.toNat) / 8 →
          ByteBits.get bitset (n - sectionStart.toNat) =
            bitset[(i.toNat - sectionStart.toNat) / 8].toNat.testBit (7 - (n - sectionStart.toNat) % 8) := by
        intro n hn
        rw [ByteBits.get, hn, List.getD_eq_getElem _ _ hin]
      -- the scan from `i + 1`, and the blocks from `i` on
      have hnext : scan bitset sectionStart last fuel (i + 1) =
          some (((List.range' (i.toNat + 1) (last.toNat + 1 - (i.toNat + 1))).filter
            fun n => ByteBits.get bitset (n - sectionStart.toNat)).map UInt64.ofNat) := by
        have h1 := toNat_add_one_of_lt (i := i) (by omega)
        rw [ih (i + 1) (by omega) (by omega), h1]
      have hcons : List.range' i.toNat (last.toNat + 1 - i.toNat) =
          i.toNat :: List.range' (i.toNat + 1) (last.toNat + 1 - (i.toNat + 1)) :=
        List.range'_eq_cons_iff.mpr ⟨rfl, by omega, by congr 1⟩
      have hmod : (i.toNat - sectionStart.toNat) % 8 = i.toNat % 8 := by omega
      rw [scan, if_pos hle, hidx, List.getElem?_eq_getElem hin]
      dsimp only
      by_cases hzero : bitset[(i.toNat - sectionStart.toNat) / 8] = 0
      · rw [if_pos hzero]
        by_cases halign : i % 8 = 0
        · -- a zero byte from its first bit: the scan steps over the whole byte
          have halign' : i.toNat % 8 = 0 := by
            have := congrArg UInt64.toNat halign
            rwa [UInt64.toNat_mod] at this
          have h8 := toNat_add_seven_add_one (i := i) (by omega)
          rw [if_pos halign, ih (i + 7 + 1) (by omega) (by omega), h8,
            Segments.filter_range'_skip i.toNat _ 8 (fun n hn1 hn2 => by
              rw [hbyte n (by omega), hzero]
              simp),
            Nat.sub_sub]
        · rw [if_neg halign, hnext, hcons, List.filter_cons_of_neg]
          rw [hbyte i.toNat rfl, hzero]
          simp
      · rw [if_neg hzero]
        have hbit : ByteBits.get bitset (i.toNat - sectionStart.toNat) =
            bitset[(i.toNat - sectionStart.toNat) / 8].toNat.testBit (7 - i.toNat % 8) := by
          rw [hbyte i.toNat rfl, hmod]
        by_cases hset : bitset[(i.toNat - sectionStart.toNat) / 8] &&& (1 <<< (7 - i % 8).toUInt8) ≠ 0
        · -- the bit of block `i` is set: it is sent
          rw [if_pos hset, hnext, hcons, List.filter_cons_of_pos (by rw [hbit]; exact (scan_mask_iff _ i).mp hset),
            List.map_cons, UInt64.ofNat_toNat]
          rfl
        · rw [if_neg hset, hnext, hcons, List.filter_cons_of_neg (by
            rw [hbit]
            exact fun h => hset ((scan_mask_iff _ i).mpr h))]
    · -- past the last block
      have hgt : last.toNat < i.toNat := by
        by_contra hc
        exact hle (UInt64.le_iff_toNat_le.mpr (by omega))
      rw [scan, if_neg hle, show last.toNat + 1 - i.toNat = 0 by omega]
      rfl

/-- **What `Start` sends for a section.** For a section that starts at or below `end`, with
`end + 8` below `2 ^ 64` and the section of `end` ending below `2 ^ 64`, the blocks of the section
inside `[begin, end]` whose bits are set. -/
theorem deliver_eq {sectionSize begin end' : UInt64} {res : PartialMatches}
    (hsize : sectionSize.toNat % 8 = 0) (hpos : 0 < sectionSize.toNat)
    (hend : end'.toNat + 8 < 2 ^ 64)
    (hwrap : (end'.toNat / sectionSize.toNat + 1) * sectionSize.toNat ≤ 2 ^ 64)
    (hsec : res.sec.toNat * sectionSize.toNat ≤ end'.toNat)
    (hlen : res.bitset.length = sectionSize.toNat / 8) :
    deliver sectionSize begin end' res =
      some (((List.range' (max begin.toNat (res.sec.toNat * sectionSize.toNat))
        (min end'.toNat (res.sec.toNat * sectionSize.toNat + sectionSize.toNat - 1) + 1 -
          max begin.toNat (res.sec.toNat * sectionSize.toNat))).filter
        fun n => ByteBits.get res.bitset (n - res.sec.toNat * sectionSize.toNat)).map UInt64.ofNat) := by
  -- the section ends no later than the section of `end`
  have hsecEnd : res.sec.toNat * sectionSize.toNat + sectionSize.toNat ≤ 2 ^ 64 := by
    have hle : res.sec.toNat ≤ end'.toNat / sectionSize.toNat := (Nat.le_div_iff_mul_le hpos).mpr hsec
    calc res.sec.toNat * sectionSize.toNat + sectionSize.toNat
        = (res.sec.toNat + 1) * sectionSize.toNat := by rw [Nat.succ_mul]
      _ ≤ (end'.toNat / sectionSize.toNat + 1) * sectionSize.toNat :=
          Nat.mul_le_mul_right _ (by omega)
      _ ≤ 2 ^ 64 := hwrap
  -- the section's first and last blocks do not wrap around
  have hstart : (res.sec * sectionSize).toNat = res.sec.toNat * sectionSize.toNat := by
    rw [UInt64.toNat_mul, Nat.mod_eq_of_lt (by omega)]
  have hlast : (res.sec * sectionSize + sectionSize - 1).toNat =
      res.sec.toNat * sectionSize.toNat + sectionSize.toNat - 1 := by
    rw [toNat_add_sub_one (by omega) (by rw [hstart]; exact hsecEnd), hstart]
  have hfirst : (if begin > res.sec * sectionSize then begin else res.sec * sectionSize).toNat =
      max begin.toNat (res.sec.toNat * sectionSize.toNat) := by
    split
    · next h =>
      have := UInt64.lt_iff_toNat_lt.mp h
      omega
    · next h =>
      have : ¬(res.sec * sectionSize).toNat < begin.toNat := fun h' => h (UInt64.lt_iff_toNat_lt.mpr h')
      omega
  have hmin : (if end' < res.sec * sectionSize + sectionSize - 1 then end'
      else res.sec * sectionSize + sectionSize - 1).toNat =
      min end'.toNat (res.sec.toNat * sectionSize.toNat + sectionSize.toNat - 1) := by
    split
    · next h =>
      have := UInt64.lt_iff_toNat_lt.mp h
      omega
    · next h =>
      have : ¬end'.toNat < (res.sec * sectionSize + sectionSize - 1).toNat :=
        fun h' => h (UInt64.lt_iff_toNat_lt.mpr h')
      omega
  have h8 : 8 ≤ sectionSize.toNat := by omega
  have hmod : res.sec.toNat * sectionSize.toNat % 8 = 0 := by
    rw [Nat.mul_mod, hsize, Nat.mul_zero, Nat.zero_mod]
  rw [deliver, scan_eq (by rw [hstart]; exact hmod) (by rw [hmin]; omega)
    (by rw [hmin, hstart, hlen]; omega) loopFuel _ (by rw [hfirst, hstart]; omega)
    (by rw [loopFuel]; have := UInt64.toNat_lt (if end' < res.sec * sectionSize + sectionSize - 1 then end'
      else res.sec * sectionSize + sectionSize - 1); omega), hfirst, hmin, hstart]

/-- **A section whose last block passes `2 ^ 64` sends nothing.** For a section that starts at
or below `end` but whose last block `sectionStart + sectionSize - 1` wraps around, that last
block lies below the section's first, so the scan of the section ends before its first test. -/
theorem deliver_of_section_wraps {sectionSize begin end' : UInt64} {res : PartialMatches}
    (hsec : res.sec.toNat * sectionSize.toNat ≤ end'.toNat)
    (hwrap : 2 ^ 64 < res.sec.toNat * sectionSize.toNat + sectionSize.toNat) :
    deliver sectionSize begin end' res = some [] := by
  have hend := end'.toNat_lt
  have hS := sectionSize.toNat_lt
  have hstart : (res.sec * sectionSize).toNat = res.sec.toNat * sectionSize.toNat := by
    rw [UInt64.toNat_mul, Nat.mod_eq_of_lt (by omega)]
  have hlast : (res.sec * sectionSize + sectionSize - 1).toNat =
      res.sec.toNat * sectionSize.toNat + sectionSize.toNat - 1 - 2 ^ 64 := by
    rw [toNat_add_sub_one_of_lt (by rw [hstart]; exact hwrap), hstart]
  -- `end` is not before the wrapped last block, which stays the last block to scan
  have hkeep : ¬end' < res.sec * sectionSize + sectionSize - 1 := fun h => by
    have := UInt64.lt_iff_toNat_lt.mp h
    omega
  have hfirst : ¬(if begin > res.sec * sectionSize then begin else res.sec * sectionSize) ≤
      res.sec * sectionSize + sectionSize - 1 := fun h => by
    have := UInt64.le_iff_toNat_le.mp h
    split at this
    · next hb =>
      have := UInt64.lt_iff_toNat_lt.mp hb
      omega
    · omega
  rw [deliver, show loopFuel = 2 ^ 64 + 1 from rfl, scan]
  simp only [if_neg hkeep]
  rw [if_neg hfirst]

/-- The feed: a partial match of all ones for each section from `i` to `last`. -/
theorem feed_eq (sectionSize last : UInt64) (hlast : last.toNat + 1 < 2 ^ 64) :
    ∀ fuel (i : UInt64), last.toNat + 1 - i.toNat < fuel →
      feed sectionSize last fuel i = some ((List.range' i.toNat (last.toNat + 1 - i.toNat)).map
        fun s => (⟨UInt64.ofNat s, List.replicate (sectionSize / 8).toNat 0xff⟩ : PartialMatches)) := by
  intro fuel
  induction fuel with
  | zero => intro i h; omega
  | succ fuel ih =>
    intro i hfuel
    by_cases hle : i ≤ last
    · have hle' : i.toNat ≤ last.toNat := UInt64.le_iff_toNat_le.mp hle
      have h1 := toNat_add_one_of_lt (i := i) (by omega)
      rw [feed, if_pos hle, ih (i + 1) (by omega), h1,
        List.range'_eq_cons_iff.mpr ⟨rfl, (by omega : 0 < last.toNat + 1 - i.toNat), rfl⟩,
        List.map_cons, UInt64.ofNat_toNat, show last.toNat + 1 - i.toNat - 1 = last.toNat + 1 - (i.toNat + 1) by omega]
      rfl
    · have hgt : last.toNat < i.toNat := by
        by_contra hc
        exact hle (UInt64.le_iff_toNat_le.mpr (by omega))
      rw [feed, if_neg hle, show last.toNat + 1 - i.toNat = 0 by omega]
      rfl

end GoGaia.Bloombits
