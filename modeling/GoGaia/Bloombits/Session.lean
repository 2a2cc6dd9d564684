import Mathlib
import GoGaia.Lib.Segments
import GoGaia.Bloombits.Generator
import GoGaia.Bloombits.Matcher

/-!
# A matcher session

`Matcher.Start` over a range of blocks, with every bit vector the schedulers deliver made by the
bloom indexer's generator from the header blooms (`RetrievesGenerated`). The daisy chain keeps,
in every partial match it passes on, the bits of the blocks that satisfy the groups applied so
far; a partial match it drops has no such block left (`subMatchStep_blocks`). By induction on the
groups, the blocks `Start` sends are those of the feed's sections that satisfy every group
(`chain_deliver`). The feed is all ones, and the sections clipped to `[begin, end]` lay the range
end to end (`Segments.flatMap_segments`). So a session sends exactly the blocks of the range whose
header blooms pass the filter, in increasing order, and among them every block with a log that the
filter asks for (`start_returns_matching_blocks`).

The source computes the last block of a section and steps its scan with `uint64` additions, which
wrap around at the top of the range. So this needs the last block of the range more than 8 below
`2 ^ 64`, where a skip of a zero byte and the step after it cannot wrap, and the section of the
last block to end below `2 ^ 64`. A session that ends at block `2 ^ 64 - 1`, with sections of
eight blocks, panics (`start_top_block_panics`); a session inside a last section that runs past
`2 ^ 64` sends nothing, since that section's last block wraps around below its first
(`start_skips_wrapped_section`).
-/

namespace GoGaia.Bloombits

open GoGaia.Core

/-- Every vector the schedulers deliver is the one the bloom indexer's generator made for the bit
from the blooms of the section's blocks. -/
def RetrievesGenerated (sectionSize : UInt64) (bloomOf : Nat → Bloom)
    (retrieve : Nat → UInt64 → List UInt8) : Prop :=
  ∀ bit < bloomBitLength, ∀ sec : UInt64, ∃ g,
    Generator.sectionGenerator sectionSize.toNat sec.toNat bloomOf = .ok g ∧
      retrieve bit sec = g.column bit

/-- The answers of a bloom indexer that has indexed every section. -/
def generatedRetrieve (sectionSize : UInt64) (bloomOf : Nat → Bloom) (bit : Nat) (sec : UInt64) :
    List UInt8 :=
  match Generator.sectionGenerator sectionSize.toNat sec.toNat bloomOf with
  | .ok g => g.column bit
  | .error _ => []

theorem retrievesGenerated_generatedRetrieve {sectionSize : UInt64}
    (hsize : sectionSize.toNat % 8 = 0) (bloomOf : Nat → Bloom) :
    RetrievesGenerated sectionSize bloomOf (generatedRetrieve sectionSize bloomOf) := by
  intro bit _ sec
  obtain ⟨g, hg, -⟩ := Generator.sectionGenerator_ok hsize sec.toNat bloomOf
  exact ⟨g, hg, by rw [generatedRetrieve, hg]⟩

/-- The blocks of section `s`, of `S` blocks, inside `[b, e]`. -/
def sectionBlocks (S b e s : Nat) : List Nat :=
  List.range' (max b (s * S)) (min e (s * S + S - 1) + 1 - max b (s * S))

theorem mem_sectionBlocks {S b e s n : Nat} (hS : 0 < S) (h : n ∈ sectionBlocks S b e s) :
    b ≤ n ∧ n ≤ e ∧ s * S ≤ n ∧ n - s * S < S := by
  rw [sectionBlocks, List.mem_range'_1] at h
  omega

/-- What `Start` sends for a partial match while the groups `gs` are still to come: the blocks
of its section inside the range whose bits it has set and whose blooms pass the groups. -/
def expectedBlocks (S b e : Nat) (bloomOf : Nat → Bloom) (gs : List (List BloomIndexes))
    (pm : PartialMatches) : List UInt64 :=
  ((sectionBlocks S b e pm.sec.toNat).filter fun n =>
    ByteBits.get pm.bitset (n - pm.sec.toNat * S) && bloomMatches gs (bloomOf n)).map UInt64.ofNat

/-- The groups a matcher has: not empty, with keys of bloom bits below 2048. -/
def GroupsFit (gs : List (List BloomIndexes)) : Prop :=
  ∀ g ∈ gs, g ≠ [] ∧ ∀ bits ∈ g, bits ≠ [] ∧ ∀ bit ∈ bits, bit < bloomBitLength

theorem groupsFit_newMatcher (keccak : List UInt8 → List UInt8) (sectionSize : UInt64)
    (filters : List (List (Option (List UInt8)))) :
    GroupsFit (newMatcher keccak sectionSize filters).filters :=
  fun _ hg => mem_newMatcher_filters hg

/-- A partial match the chain may carry: a section that starts in the range, with a vector of the
section's length. -/
def Fits (sectionSize end' : UInt64) (pm : PartialMatches) : Prop :=
  pm.sec.toNat * sectionSize.toNat ≤ end'.toNat ∧ pm.bitset.length = sectionSize.toNat / 8

section
variable {sectionSize end' : UInt64} (begin : UInt64) {bloomOf : Nat → Bloom}
  {retrieve : Nat → UInt64 → List UInt8}

theorem RetrievesGenerated.length (hret : RetrievesGenerated sectionSize bloomOf retrieve)
    (hsize : sectionSize.toNat % 8 = 0) {bit : Nat} (hbit : bit < bloomBitLength) (sec : UInt64) :
    (retrieve bit sec).length = (sectionSize / 8).toNat := by
  obtain ⟨g, hg, hr⟩ := hret bit hbit sec
  obtain ⟨g', hg', hs, -, -⟩ := Generator.sectionGenerator_ok hsize sec.toNat bloomOf
  rw [hg] at hg'
  obtain rfl := Except.ok.inj hg'
  rw [hr, Generator.length_column_getD _ hbit, hs, UInt64.toNat_div]
  rfl

/-- Bit `k` of a delivered vector is bit `bit` of the bloom of the section's block `k`. -/
theorem RetrievesGenerated.get (hret : RetrievesGenerated sectionSize bloomOf retrieve)
    (hsize : sectionSize.toNat % 8 = 0) {bit : Nat} (hbit : bit < bloomBitLength) (sec : UInt64)
    (k : Nat) : ByteBits.get (retrieve bit sec) k = (decide (k < sectionSize.toNat) &&
      (bloomOf (sec.toNat * sectionSize.toNat + k)).big.testBit bit) := by
  obtain ⟨g, hg, hr⟩ := hret bit hbit sec
  obtain ⟨g', hg', -, -, hbits⟩ := Generator.sectionGenerator_ok hsize sec.toNat bloomOf
  rw [hg] at hg'
  obtain rfl := Except.ok.inj hg'
  rw [hr, hbits bit hbit k]

/-- The test of a group on the delivered vectors, at a block of the section, is its test on the
block's bloom. -/
theorem RetrievesGenerated.group_any (hret : RetrievesGenerated sectionSize bloomOf retrieve)
    (hsize : sectionSize.toNat % 8 = 0) {g : List BloomIndexes}
    (hg : ∀ bits ∈ g, ∀ bit ∈ bits, bit < bloomBitLength) (sec : UInt64) {k : Nat}
    (hk : k < sectionSize.toNat) :
    (g.any fun bits => bits.all fun bit => ByteBits.get (retrieve bit sec) k) =
      g.any fun bits => bits.all fun bit =>
        (bloomOf (sec.toNat * sectionSize.toNat + k)).big.testBit bit := by
  apply Bool.eq_iff_iff.mpr
  simp only [List.any_eq_true, List.all_eq_true]
  constructor
  · rintro ⟨bits, hbits, hall⟩
    refine ⟨bits, hbits, fun bit hbit => ?_⟩
    have h := hall bit hbit
    rw [hret.get hsize (hg bits hbits bit hbit) sec k, decide_eq_true hk, Bool.true_and] at h
    exact h
  · rintro ⟨bits, hbits, hall⟩
    refine ⟨bits, hbits, fun bit hbit => ?_⟩
    rw [hret.get hsize (hg bits hbits bit hbit) sec k, decide_eq_true hk, Bool.true_and]
    exact hall bit hbit

/-- **One sub-matcher.** On a partial match that fits, what the sub-matcher of a group passes on
fits and leads to the blocks the partial match leads to with the group still to come; a partial
match it drops leads to no block. -/
theorem subMatchStep_blocks (hret : RetrievesGenerated sectionSize bloomOf retrieve)
    (hsize : sectionSize.toNat % 8 = 0) (hpos : 0 < sectionSize.toNat) {g : List BloomIndexes} (gs : List (List BloomIndexes))
    (hg : g ≠ [] ∧ ∀ bits ∈ g, bits ≠ [] ∧ ∀ bit ∈ bits, bit < bloomBitLength)
    {pm : PartialMatches} (hpm : Fits sectionSize end' pm) :
    (∀ pm', subMatchStep sectionSize retrieve g pm = some pm' → Fits sectionSize end' pm' ∧
      expectedBlocks sectionSize.toNat begin.toNat end'.toNat bloomOf gs pm' =
        expectedBlocks sectionSize.toNat begin.toNat end'.toNat bloomOf (g :: gs) pm) ∧
    (subMatchStep sectionSize retrieve g pm = none →
      expectedBlocks sectionSize.toNat begin.toNat end'.toNat bloomOf (g :: gs) pm = []) := by
  have hdiv : (sectionSize / 8).toNat = sectionSize.toNat / 8 := UInt64.toNat_div _ _
  have hgroup : ∀ bits ∈ g, bits ≠ [] ∧
      ∀ bit ∈ bits, (retrieve bit pm.sec).length = (sectionSize / 8).toNat :=
    fun bits hbits => ⟨(hg.2 bits hbits).1,
      fun bit hbit => hret.length hsize ((hg.2 bits hbits).2 bit hbit) pm.sec⟩
  have hlen : pm.bitset.length = (sectionSize / 8).toNat := by rw [hpm.2, hdiv]
  obtain ⟨w, hwl, hwk, hstep⟩ := subMatchStep_eq hgroup hlen
  -- at a block of the section, the vector passed on has the bit of the incoming one and the group
  have hexp : expectedBlocks sectionSize.toNat begin.toNat end'.toNat bloomOf (g :: gs) pm =
      expectedBlocks sectionSize.toNat begin.toNat end'.toNat bloomOf gs ⟨pm.sec, w⟩ := by
    rw [expectedBlocks, expectedBlocks]
    dsimp only
    congr 1
    apply List.filter_congr
    intro n hn
    obtain ⟨-, -, hlo, hhi⟩ := mem_sectionBlocks hpos hn
    rw [hwk, hret.group_any hsize (fun bits hb => (hg.2 bits hb).2) pm.sec hhi,
      Nat.add_sub_cancel' hlo, bloomMatches_cons, Bool.and_assoc]
  refine ⟨fun pm' h => ?_, fun h => ?_⟩
  · rw [hstep] at h
    split at h
    · obtain rfl := Option.some.inj h
      exact ⟨⟨hpm.1, by rw [hwl, hdiv]⟩, hexp.symm⟩
    · cases h
  · rw [hstep] at h
    split at h
    · cases h
    · next hnot =>
      -- a dropped partial match has no bit left
      have hclear : ∀ k, ByteBits.get w k = false := fun k =>
        Bool.eq_false_iff.mpr fun hk => hnot ((Bitutil.testBytes_iff w).mpr ⟨k, hk⟩)
      rw [hexp, expectedBlocks, List.map_eq_nil_iff, List.filter_eq_nil_iff]
      intro n _
      simp [hclear]

/-- **The chain.** Through the sub-matchers of groups `gs`, partial matches that fit lead `Start`
to send the blocks of their sections whose bits they have set and whose blooms pass `gs`. -/
theorem chain_deliver (hret : RetrievesGenerated sectionSize bloomOf retrieve)
    (hsize : sectionSize.toNat % 8 = 0) (hpos : 0 < sectionSize.toNat)
    (hend : end'.toNat + 8 < 2 ^ 64)
    (hwrap : (end'.toNat / sectionSize.toNat + 1) * sectionSize.toNat ≤ 2 ^ 64)
    (gs : List (List BloomIndexes))
    (hgs : GroupsFit gs) (l : List PartialMatches) (hl : ∀ pm ∈ l, Fits sectionSize end' pm) :
    ((gs.foldl (fun next bloom => next.filterMap (subMatchStep sectionSize retrieve bloom)) l).mapM
        (deliver sectionSize begin end')).map List.flatten =
      some (l.flatMap (expectedBlocks sectionSize.toNat begin.toNat end'.toNat bloomOf gs)) := by
  -- induction on the groups, for every list the chain may carry
  induction gs generalizing l with
  | nil =>
    rw [List.foldl_nil, Segments.mapM_eq_some_map (g := expectedBlocks sectionSize.toNat
      begin.toNat end'.toNat bloomOf []) (fun pm hpm => ?_)]
    · rfl
    · rw [deliver_eq hsize hpos hend hwrap (hl pm hpm).1 (hl pm hpm).2, expectedBlocks, sectionBlocks]
      simp only [bloomMatches_nil, Bool.and_true]
  | cons g gs ih =>
    have hg := hgs g List.mem_cons_self
    have hstep := fun pm (hpm : pm ∈ l) => subMatchStep_blocks begin hret hsize hpos gs hg (hl pm hpm)
    rw [List.foldl_cons, ih (fun g' hg' => hgs g' (List.mem_cons_of_mem _ hg')) _ ?_]
    · exact congrArg some (Segments.flatMap_filterMap l (fun pm hpm pm' h => ((hstep pm hpm).1 pm' h).2)
        (fun pm hpm h => (hstep pm hpm).2 h))
    · intro pm' hpm'
      obtain ⟨pm, hpm, h⟩ := List.mem_filterMap.mp hpm'
      exact ((hstep pm hpm).1 pm' h).1

end

/-- The feed's sections lay the range end to end: with all their bits set, the blocks `Start` is
to send for them are the blocks of `[begin, end]` whose blooms pass the groups. -/
theorem flatMap_feed_expectedBlocks {sectionSize begin end' : UInt64} (hsize : sectionSize.toNat % 8 = 0)
    (hpos : 0 < sectionSize.toNat) (hend : end'.toNat < 2 ^ 64) (bloomOf : Nat → Bloom)
    (gs : List (List BloomIndexes)) :
    ((List.range' (begin.toNat / sectionSize.toNat)
        (end'.toNat / sectionSize.toNat + 1 - begin.toNat / sectionSize.toNat)).map fun s =>
        (⟨UInt64.ofNat s, List.replicate (sectionSize / 8).toNat 0xff⟩ : PartialMatches)).flatMap
        (expectedBlocks sectionSize.toNat begin.toNat end'.toNat bloomOf gs) =
      ((List.range' begin.toNat (end'.toNat + 1 - begin.toNat)).filter
        fun n => bloomMatches gs (bloomOf n)).map UInt64.ofNat := by
  have hdiv : (sectionSize / 8).toNat = sectionSize.toNat / 8 := UInt64.toNat_div _ _
  rw [List.flatMap_map, ← Segments.flatMap_segments hpos begin.toNat end'.toNat, List.filter_flatMap,
    List.map_flatMap]
  apply List.flatMap_congr
  intro s hs
  have hs' : s < 2 ^ 64 := by
    obtain ⟨h1, h2⟩ := List.mem_range'_1.mp hs
    have := Nat.div_le_self end'.toNat sectionSize.toNat
    omega
  rw [expectedBlocks, UInt64.toNat_ofNat_of_lt' hs']
  congr 1
  apply List.filter_congr
  intro n hn
  obtain ⟨-, -, hlo, hhi⟩ := mem_sectionBlocks hpos hn
  -- the all-ones vector has the bit of every block of the section
  rw [hdiv, ByteBits.get_replicate_ff, decide_eq_true (by omega), Bool.true_and]

/-- `Start` runs the chain of sub-matchers over the feed of the sections from `begin`'s to
`end`'s, and sends what each result of the chain delivers. -/
theorem start_eq_chain (keccak : List UInt8 → List UInt8) (sectionSize : UInt64)
    (filters : List (List (Option (List UInt8)))) (retrieve : Nat → UInt64 → List UInt8)
    (begin end' : UInt64) (hS0 : sectionSize.toNat ≠ 0)
    (hq : end'.toNat / sectionSize.toNat + 1 < 2 ^ 64) :
    (newMatcher keccak sectionSize filters).start retrieve begin end' =
      (((newMatcher keccak sectionSize filters).filters.foldl
        (fun next bloom => next.filterMap (subMatchStep sectionSize retrieve bloom))
        ((List.range' (begin.toNat / sectionSize.toNat)
          (end'.toNat / sectionSize.toNat + 1 - begin.toNat / sectionSize.toNat)).map fun s =>
            (⟨UInt64.ofNat s, List.replicate (sectionSize / 8).toNat 0xff⟩ : PartialMatches))).mapM
        (deliver sectionSize begin end')).map List.flatten := by
  -- the feed's counter stops below `2 ^ 64`
  have hfeed := feed_eq sectionSize (end' / sectionSize) (by rw [UInt64.toNat_div]; exact hq)
    loopFuel (begin / sectionSize) (by have := (end' / sectionSize).toNat_lt; rw [loopFuel]; omega)
  rw [UInt64.toNat_div end' sectionSize, UInt64.toNat_div begin sectionSize] at hfeed
  have hm : (newMatcher keccak sectionSize filters).sectionSize = sectionSize := rfl
  rw [Matcher.start, Matcher.run, hm, if_neg (fun h => hS0 (by rw [h]; rfl)), hfeed]
  show (Option.bind (List.mapM _ _) fun blocks => some blocks.flatten) = _
  cases (List.mapM (deliver sectionSize begin end') _ : Option (List (List UInt64))) <;> rfl

/-- **A matcher session finds exactly the blocks whose blooms match.** With sections of a
positive multiple of 8 blocks, the last block of the range more than 8 below `2 ^ 64` and its
section ending below `2 ^ 64`, and every vector the schedulers deliver the one the bloom
indexer's generator made from the section's header blooms, `Start` sends exactly the blocks of
`[begin, end]` whose header blooms pass the filter through `BloomLookup`, in increasing order,
each once. The matcher's own test,
the three bloom bits of some key of every group, is that test; and a block with a log whose
address or topics the filter asks for in every group is sent. -/
theorem start_returns_matching_blocks (keccak : List UInt8 → List UInt8) (sectionSize : UInt64)
    (filters : List (List (Option (List UInt8)))) (bloomOf : Nat → Bloom)
    (retrieve : Nat → UInt64 → List UInt8) (begin end' : UInt64)
    (hsize : sectionSize.toNat % 8 = 0) (hpos : 0 < sectionSize.toNat)
    (hend : end'.toNat + 8 < 2 ^ 64)
    (hwrap : (end'.toNat / sectionSize.toNat + 1) * sectionSize.toNat ≤ 2 ^ 64)
    (hret : RetrievesGenerated sectionSize bloomOf retrieve) :
    ∃ out, (newMatcher keccak sectionSize filters).start retrieve begin end' = some out ∧
      out = ((List.range' begin.toNat (end'.toNat + 1 - begin.toNat)).filter
        fun n => lookupMatches keccak filters (bloomOf n)).map UInt64.ofNat ∧
      out.Pairwise (· < ·) ∧
      (∀ bloom, bloomMatches (newMatcher keccak sectionSize filters).filters bloom =
        lookupMatches keccak filters bloom) ∧
      ∀ n, begin.toNat ≤ n → n ≤ end'.toNat → ∀ receipts, createBloom keccak receipts = some (bloomOf n) →
        (∀ filter ∈ filters, filter ≠ [] → (∀ c ∈ filter, c.isSome) →
          ∃ d, some d ∈ filter ∧ ∃ r ∈ receipts, ∃ log ∈ r.logs, d ∈ log.address :: log.topics) →
        UInt64.ofNat n ∈ out := by
  have hq : end'.toNat / sectionSize.toNat + 1 < 2 ^ 64 := by
    have := Nat.div_le_self end'.toNat sectionSize.toNat
    omega
  have hfits : ∀ pm ∈ (List.range' (begin.toNat / sectionSize.toNat)
      (end'.toNat / sectionSize.toNat + 1 - begin.toNat / sectionSize.toNat)).map (fun s =>
        (⟨UInt64.ofNat s, List.replicate (sectionSize / 8).toNat 0xff⟩ : PartialMatches)),
      Fits sectionSize end' pm := by
    intro pm hpm
    obtain ⟨s, hs, rfl⟩ := List.mem_map.mp hpm
    obtain ⟨hs1, hs'⟩ := List.mem_range'_1.mp hs
    have hsle : s * sectionSize.toNat ≤ end'.toNat :=
      (Nat.le_div_iff_mul_le hpos).mp (by omega)
    have hslt : s < 2 ^ 64 := by
      have := Nat.div_le_self end'.toNat sectionSize.toNat
      omega
    refine ⟨by rw [UInt64.toNat_ofNat_of_lt' hslt]; exact hsle, ?_⟩
    show (List.replicate (sectionSize / 8).toNat (0xff : UInt8)).length = _
    rw [List.length_replicate, UInt64.toNat_div]
    rfl
  have hchain := chain_deliver begin hret hsize hpos hend hwrap _
    (groupsFit_newMatcher keccak sectionSize filters) _ hfits
  rw [flatMap_feed_expectedBlocks hsize hpos end'.toNat_lt] at hchain
  have hstart := (start_eq_chain keccak sectionSize filters retrieve begin end' (by omega) hq).trans
    hchain
  -- the matcher's test is the filter's
  have htest := bloomMatches_newMatcher keccak sectionSize filters
  have hout : ((List.range' begin.toNat (end'.toNat + 1 - begin.toNat)).filter
      fun n => bloomMatches (newMatcher keccak sectionSize filters).filters (bloomOf n)) =
      (List.range' begin.toNat (end'.toNat + 1 - begin.toNat)).filter
        fun n => lookupMatches keccak filters (bloomOf n) :=
    List.filter_congr fun n _ => htest (bloomOf n)
  refine ⟨_, hstart, by rw [hout], ?_, htest, ?_⟩
  · -- increasing: the range is, and every block is below `2 ^ 64`
    rw [List.pairwise_map]
    have hpw : List.Pairwise (· < ·) (List.range' begin.toNat (end'.toNat + 1 - begin.toNat)) :=
      List.pairwise_lt_range'
    refine (hpw.filter _).imp_of_mem fun {x y} hx hy hxy => ?_
    have hx' := List.mem_range'_1.mp (List.mem_filter.mp hx).1
    have hy' := List.mem_range'_1.mp (List.mem_filter.mp hy).1
    have he := end'.toNat_lt
    have hsz : UInt64.size = 2 ^ 64 := rfl
    rw [UInt64.lt_iff_toNat_lt, UInt64.toNat_ofNat_of_lt' (by rw [hsz]; omega),
      UInt64.toNat_ofNat_of_lt' (by rw [hsz]; omega)]
    exact hxy
  · -- a block with a log of every group is sent
    intro n hb he receipts hbl hlogs
    rw [hout]
    apply List.mem_map_of_mem
    rw [List.mem_filter, List.mem_range'_1]
    refine ⟨by omega, ?_⟩
    rw [lookupMatches, List.all_eq_true]
    intro filter hf
    by_cases hnil : filter = []
    · rw [hnil]
      rfl
    · by_cases hsome : ∀ c ∈ filter, c.isSome
      · obtain ⟨d, hd, r, hr, log, hlog, hdl⟩ := hlogs filter hf hnil hsome
        have hany : filter.any (fun c => c.any (bloomLookup keccak (bloomOf n))) = true :=
          List.any_eq_true.mpr ⟨some d, hd, bloomLookup_createBloom keccak hbl hr hlog hdl⟩
        rw [hany, Bool.or_true]
      · obtain ⟨c, hc, hcn⟩ : ∃ c ∈ filter, c = none := by simpa using hsome
        have hany : filter.any Option.isNone = true :=
          List.any_eq_true.mpr ⟨c, hc, by rw [hcn]; rfl⟩
        rw [hany, Bool.or_true, Bool.true_or]

/-- A stand-in for Keccak-256 in the examples: the key, padded with zeros. -/
def padKeccak (b : List UInt8) : List UInt8 := b ++ List.replicate 32 0

/-- The bloom with every bit set. -/
def fullBloom : Bloom := ⟨List.replicate bloomByteLength 0xff, List.length_replicate⟩

/-- Over blocks 0 to 15 in sections of eight, with only block 5's bloom holding the key, the
session sends block 5 alone. -/
theorem start_returns_matching_blocks_five :
    (newMatcher padKeccak 8 [[some [1, 2]]]).start
      (generatedRetrieve 8 fun n => if n = 5 then fullBloom else zeroBloom) 0 15 = some [5] := by
  obtain ⟨out, hstart, hout, -⟩ := start_returns_matching_blocks padKeccak 8 [[some [1, 2]]]
    (fun n => if n = 5 then fullBloom else zeroBloom)
    (generatedRetrieve 8 fun n => if n = 5 then fullBloom else zeroBloom) 0 15
    (by decide) (by decide) (by decide) (by decide) (retrievesGenerated_generatedRetrieve (by decide) _)
  rw [hstart, hout]
  decide +kernel

/-- **At the top of the range a session panics.** `Start` returns a stream of the matches in the
range and closes it when none are left. With sections of eight blocks and no group, block
`2 ^ 64 - 1` passes the filter, so that stream is the one block; but the scan sends it, steps on
to block 0 through the wrap of `i++`, and indexes the section's one-byte vector at 1. -/
theorem start_top_block_panics :
    lookupMatches padKeccak [] zeroBloom = true ∧
      (newMatcher padKeccak 8 []).start (generatedRetrieve 8 fun _ => zeroBloom)
        0xFFFFFFFFFFFFFFFF 0xFFFFFFFFFFFFFFFF = none :=
  ⟨rfl, by decide +kernel⟩

/-- The sections the chain passes on are sections of the feed. -/
theorem sec_of_chain {sectionSize : UInt64} {retrieve : Nat → UInt64 → List UInt8} :
    ∀ (gs : List (List BloomIndexes)) (l : List PartialMatches) {pm' : PartialMatches},
      pm' ∈ gs.foldl (fun next bloom => next.filterMap (subMatchStep sectionSize retrieve bloom)) l →
      ∃ pm ∈ l, pm'.sec = pm.sec
  | [], _, pm', h => ⟨pm', h, rfl⟩
  | g :: gs, l, _, h => by
    rw [List.foldl_cons] at h
    obtain ⟨pm₁, hpm₁, hsec₁⟩ := sec_of_chain gs _ h
    obtain ⟨pm, hpm, hstep⟩ := List.mem_filterMap.mp hpm₁
    exact ⟨pm, hpm, hsec₁.trans (sec_of_subMatchStep hstep)⟩

/-- **A range in a section that passes `2 ^ 64` yields nothing.** When the multiples of the
section size miss `2 ^ 64`, the last section of the `uint64` range runs past it. For `begin` and
`end` in that section, `Start` sends no block at all, whatever the filter and the retrievals: the
section's last block wraps around below its first. With no group every block passes the filter,
so the blocks of `[begin, end]` are skipped without an error. -/
theorem start_skips_wrapped_section (keccak : List UInt8 → List UInt8) (sectionSize : UInt64)
    (filters : List (List (Option (List UInt8)))) (retrieve : Nat → UInt64 → List UInt8)
    (begin end' : UInt64)
    (hbegin : end'.toNat / sectionSize.toNat * sectionSize.toNat ≤ begin.toNat)
    (hwrap : 2 ^ 64 < (end'.toNat / sectionSize.toNat + 1) * sectionSize.toNat) :
    (newMatcher keccak sectionSize filters).start retrieve begin end' = some [] := by
  have hend := end'.toNat_lt
  have hS0 : sectionSize.toNat ≠ 0 := fun h => by
    rw [h, Nat.mul_zero] at hwrap
    omega
  have hS1 : sectionSize.toNat ≠ 1 := fun h => by
    rw [h, Nat.div_one, Nat.mul_one] at hwrap
    omega
  -- the section of `end` is below `2 ^ 63`, so the feed's counter does not wrap
  have hq : end'.toNat / sectionSize.toNat + 1 < 2 ^ 64 := by
    have := Nat.div_le_div_left (a := end'.toNat) (show 2 ≤ sectionSize.toNat by omega) (by omega)
    omega
  have hsecq : end'.toNat / sectionSize.toNat ≤ begin.toNat / sectionSize.toNat :=
    (Nat.le_div_iff_mul_le (by omega)).mpr hbegin
  rw [start_eq_chain keccak sectionSize filters retrieve begin end' hS0 hq]
  rw [Segments.mapM_eq_some_map (g := fun _ => []) (fun pm hpm => ?_)]
  · simp
  -- every partial match the chain passes on is the section of `end`
  obtain ⟨pm₀, hpm₀, hsec⟩ := sec_of_chain _ _ hpm
  obtain ⟨s, hs, rfl⟩ := List.mem_map.mp hpm₀
  have hs' := List.mem_range'_1.mp hs
  have hsq : s = end'.toNat / sectionSize.toNat := by omega
  have hsec' : pm.sec.toNat = end'.toNat / sectionSize.toNat := by
    have hsz : UInt64.size = 2 ^ 64 := rfl
    rw [hsec, UInt64.toNat_ofNat_of_lt' (by rw [hsz]; omega), hsq]
  apply deliver_of_section_wraps
  · rw [hsec']
    exact Nat.div_mul_le_self _ _
  · rw [hsec', ← Nat.succ_mul]
    exact hwrap

/-- With sections of 24 blocks, the last section of the range starts at `2 ^ 64 - 16`: block
`2 ^ 64 - 9` passes a filter of no group, and a session over it sends nothing. -/
theorem start_skips_wrapped_section_top :
    lookupMatches padKeccak [] zeroBloom = true ∧
      (newMatcher padKeccak 24 []).start (generatedRetrieve 24 fun _ => zeroBloom)
        0xFFFFFFFFFFFFFFF7 0xFFFFFFFFFFFFFFF7 = some [] :=
  ⟨rfl, start_skips_wrapped_section padKeccak 24 [] _ _ _ (by decide) (by decide)⟩

end GoGaia.Bloombits
