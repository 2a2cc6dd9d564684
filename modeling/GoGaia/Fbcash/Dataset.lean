import Mathlib
import GoGaia.Fbcash.Algorithm
import GoGaia.Lib.Segments

/-!
# The full dataset against the light lookup

What `generateDataset` leaves in the dataset, and when `hashimotoFull` reads from it what
`hashimotoLight` recomputes.

Every writer copies its item to the byte offset `index*hashBytes`, computed in `uint32`. The
writes of one index all carry its item, so in whatever order they land each byte holds the byte of
the item whose write reaches it, or its old value if none does (`Slice.getElem?_foldl_copyAt`).
Below `2 ^ 32` bytes the offset does not wrap, the writers' segments cover every item
(`mem_datasetIndices_of_lt`), and so item `i` of the dataset is item `i` of the cache
(`extract_dataset_bytes`): the full lookup and the light lookup agree on every item
(`fullLookup_eq_lightLookup`), and `hashimoto`, which looks up only items below twice its rows
(`hashimoto_congr`), returns the same digest and result from both.

From `2 ^ 26` items on, `index*hashBytes` wraps: those items are copied over the first ones, and
the bytes from `2 ^ 32` on are never written.
-/

namespace GoGaia.Fbcash

/-- The bytes the writer of `index` copies: its generated item. -/
def itemBytes (keccak512 : Keccak512) (cache : List UInt32) (index : UInt32) : List UInt8 :=
  (generateDatasetItem cache index keccak512).getD []

/-- The bytes of the dataset after the writes of `order`, from the bytes of `dest`. -/
def datasetBytes (keccak512 : Keccak512) (dest cache : List UInt32) (order : List UInt32) :
    List UInt8 :=
  order.foldl (fun d index =>
    Slice.copyAt d (index * UInt32.ofNat hashBytes).toNat (itemBytes keccak512 cache index))
    (LittleEndian.encodeWords dest)

/-- The full lookup of an item of a dataset of words is the words of its bytes. -/
theorem fullLookup_decodeWords {bytes : List UInt8} {i : Nat} (hi : i + 1 < 2 ^ 28)
    (hlen : hashBytes * i + hashBytes ≤ bytes.length) :
    fullLookup (LittleEndian.decodeWords bytes) (UInt32.ofNat i) =
      some (LittleEndian.decodeWords (bytes.extract (hashBytes * i) (hashBytes * i + hashBytes))) := by
  have hi32 : i < 2 ^ 32 := by omega
  have h16 : 16 * i + 16 < 2 ^ 32 := by omega
  have hw : (UInt32.ofNat hashWords).toNat = 16 := rfl
  have hoff : (UInt32.ofNat i * UInt32.ofNat hashWords).toNat = 16 * i := by
    rw [UInt32.toNat_mul, UInt32.toNat_ofNat', hw, Nat.mod_eq_of_lt hi32,
      Nat.mod_eq_of_lt (by omega), Nat.mul_comm]
  have hhigh : (UInt32.ofNat i * UInt32.ofNat hashWords + UInt32.ofNat hashWords).toNat =
      16 * i + 16 := by
    rw [UInt32.toNat_add, hoff, hw, Nat.mod_eq_of_lt h16]
  have hle : UInt32.ofNat i * UInt32.ofNat hashWords ≤
      UInt32.ofNat i * UInt32.ofNat hashWords + UInt32.ofNat hashWords := by
    rw [UInt32.le_iff_toNat_le, hoff, hhigh]
    omega
  have hfit : (UInt32.ofNat i * UInt32.ofNat hashWords + UInt32.ofNat hashWords).toNat ≤
      (LittleEndian.decodeWords bytes).length := by
    rw [hhigh, LittleEndian.length_decodeWords]
    unfold hashBytes at hlen
    omega
  unfold fullLookup
  rw [if_pos ⟨hle, hfit⟩, hoff, hhigh,
    LittleEndian.decodeWords_extract bytes (16 * i) 16 (by unfold hashBytes at hlen; omega)]
  unfold hashBytes
  congr 3 <;> ring

/-! ## The writers' segments -/

/-- The loop `for index := first; index < limit; index++` over `uint32` visits `[first, limit)`. -/
theorem mem_indexRange {first limit x : UInt32} :
    x ∈ (List.range (limit.toNat - first.toNat)).map (fun k => first + UInt32.ofNat k) ↔
      first.toNat ≤ x.toNat ∧ x.toNat < limit.toNat := by
  have hf := first.toNat_lt
  have hl := limit.toNat_lt
  rw [List.mem_map]
  constructor
  · rintro ⟨k, hk, rfl⟩
    rw [List.mem_range] at hk
    rw [UInt32.toNat_add, UInt32.toNat_ofNat', Nat.mod_eq_of_lt (by omega : k < 2 ^ 32),
      Nat.mod_eq_of_lt (by omega)]
    omega
  · rintro ⟨h₁, h₂⟩
    refine ⟨x.toNat - first.toNat, List.mem_range.mpr (by omega), ?_⟩
    apply UInt32.toNat_inj.mp
    rw [UInt32.toNat_add, UInt32.toNat_ofNat', Nat.mod_eq_of_lt (by omega : x.toNat - first.toNat < 2 ^ 32),
      Nat.mod_eq_of_lt (by omega)]
    omega

/-- A writer stops at the number of items. -/
theorem toNat_lt_of_mem_segment {size : UInt64} {threads id : Nat} {x : UInt32}
    (hx : x ∈ segment size threads id) : x.toNat < (size / UInt64.ofNat hashBytes).toUInt32.toNat := by
  simp only [segment] at hx
  have hlt := (mem_indexRange.mp hx).2
  split_ifs at hlt with hgt
  · exact hlt
  · rw [gt_iff_lt, UInt32.lt_iff_toNat_lt] at hgt
    omega

theorem toNat_lt_of_mem_datasetIndices {size : UInt64} {threads : Nat} {x : UInt32}
    (hx : x ∈ datasetIndices size threads) :
    x.toNat < (size / UInt64.ofNat hashBytes).toUInt32.toNat := by
  obtain ⟨id, -, hid⟩ := List.mem_flatMap.mp hx
  exact toNat_lt_of_mem_segment hid

/-- The batch of each writer is the items divided among the writers, rounded up. -/
theorem toNat_batch {size : UInt64} {threads : Nat} (ht : 0 < threads) (ht' : threads < 2 ^ 32)
    (hsize : size.toNat ≤ 2 ^ 32) (hpos : 0 < size.toNat) :
    ((size + UInt64.ofNat hashBytes * UInt64.ofNat threads - 1) /
      (UInt64.ofNat hashBytes * UInt64.ofNat threads)).toUInt32.toNat =
      (size.toNat - 1) / (hashBytes * threads) + 1 := by
  have hd : 0 < hashBytes * threads := by
    unfold hashBytes
    omega
  have hprod : (UInt64.ofNat hashBytes * UInt64.ofNat threads).toNat = hashBytes * threads := by
    rw [UInt64.toNat_mul, UInt64.toNat_ofNat', UInt64.toNat_ofNat', hashBytes]
    omega
  have hsum : (size + UInt64.ofNat hashBytes * UInt64.ofNat threads - 1).toNat =
      size.toNat - 1 + hashBytes * threads := by
    rw [UInt64.toNat_sub, UInt64.toNat_add, hprod, show (1 : UInt64).toNat = 1 from rfl]
    unfold hashBytes at hprod ⊢
    omega
  have hq : (size.toNat - 1) / (hashBytes * threads) ≤ (size.toNat - 1) / hashBytes :=
    Nat.div_le_div_left (by unfold hashBytes; omega) (by decide)
  rw [UInt64.toNat_toUInt32, UInt64.toNat_div, hsum, hprod, Nat.add_div_right _ hd,
    Nat.mod_eq_of_lt]
  unfold hashBytes at hq ⊢
  omega

/-- Below `2 ^ 32` bytes the writers' segments cover every item. -/
theorem mem_datasetIndices_of_lt {size : UInt64} {threads i : Nat} (ht : 0 < threads)
    (ht' : threads < 2 ^ 32) (hsize : size.toNat ≤ 2 ^ 32) (hi : i < size.toNat / hashBytes) :
    UInt32.ofNat i ∈ datasetIndices size threads := by
  have hpos : 0 < size.toNat := by
    unfold hashBytes at hi
    omega
  have hd : 0 < hashBytes * threads := by
    unfold hashBytes
    omega
  have hbatch := toNat_batch ht ht' hsize hpos
  set B := (size.toNat - 1) / (hashBytes * threads) + 1 with hB
  have hBpos : 0 < B := Nat.succ_pos _
  have hBle : B ≤ 2 ^ 26 + 1 := by
    have hq : (size.toNat - 1) / (hashBytes * threads) ≤ (size.toNat - 1) / hashBytes :=
      Nat.div_le_div_left (by unfold hashBytes; omega) (by decide)
    rw [hB]
    unfold hashBytes at hq ⊢
    omega
  -- the batches of all the writers together reach past the last item
  have hcover : size.toNat / hashBytes ≤ threads * B := by
    have := Nat.lt_mul_div_succ (size.toNat - 1) hd
    rw [← hB, Nat.mul_assoc] at this
    unfold hashBytes at this ⊢
    omega
  -- item `i` is in the batch of writer `i / B`
  have hid : i / B < threads := (Nat.div_lt_iff_lt_mul hBpos).mpr (by omega)
  have hlow := Nat.div_mul_le_self i B
  have hhigh := Nat.lt_div_mul_add (a := i) hBpos
  have hiB : i / B * B < 2 ^ 26 := by
    unfold hashBytes at hi
    omega
  refine List.mem_flatMap.mpr ⟨i / B, List.mem_range.mpr hid, ?_⟩
  simp only [segment]
  rw [mem_indexRange]
  have hfirst : (UInt32.ofNat (i / B) * ((size + UInt64.ofNat hashBytes * UInt64.ofNat threads - 1) /
      (UInt64.ofNat hashBytes * UInt64.ofNat threads)).toUInt32).toNat = i / B * B := by
    rw [UInt32.toNat_mul, UInt32.toNat_ofNat', hbatch, Nat.mod_eq_of_lt (show i / B < 2 ^ 32 by omega),
      Nat.mod_eq_of_lt (show i / B * B < 2 ^ 32 by omega)]
  have hitems : (size / UInt64.ofNat hashBytes).toUInt32.toNat = size.toNat / hashBytes := by
    rw [UInt64.toNat_toUInt32, UInt64.toNat_div, show (UInt64.ofNat hashBytes).toNat = 64 from rfl,
      Nat.mod_eq_of_lt (show size.toNat / 64 < 2 ^ 32 by omega)]
    rfl
  have hi' : (UInt32.ofNat i).toNat = i := UInt32.toNat_ofNat_of_lt' (by unfold UInt32.size; omega)
  rw [hfirst, hi']
  refine ⟨hlow, ?_⟩
  split_ifs with hgt
  · rw [hitems]
    exact hi
  · rw [UInt32.toNat_add, hfirst, hbatch, Nat.mod_eq_of_lt (show i / B * B + B < 2 ^ 32 by omega)]
    exact hhigh

/-! ## `hashimoto` reads only the items of its parent rows -/

/-- One access reads the two items of a parent row below `rows`. -/
theorem mixAccess_congr {lookup₁ lookup₂ : UInt32 → Option (List UInt32)} {rows : UInt32}
    (h : ∀ p : UInt32, p.toNat < rows.toNat → ∀ j < mixBytes / hashBytes,
      lookup₁ (2 * p + UInt32.ofNat j) = lookup₂ (2 * p + UInt32.ofNat j))
    (seedHead : UInt32) (i : Nat) (mix temp : List UInt32) :
    mixAccess lookup₁ rows seedHead i mix temp = mixAccess lookup₂ rows seedHead i mix temp := by
  unfold mixAccess
  by_cases hr : rows = 0
  · simp [guard, hr]
  · have hp : (fnv (UInt32.ofNat i ^^^ seedHead) (mix.getD (i % mix.length) 0) % rows).toNat <
        rows.toNat :=
      UInt32.lt_iff_toNat_lt.mp (UInt32.mod_lt _ (UInt32.lt_iff_toNat_lt.mpr (by
        have := UInt32.toNat_inj.not.mpr hr
        rw [show (0 : UInt32).toNat = 0 from rfl] at this ⊢
        omega)))
    congr 1
    funext _
    dsimp only
    congr 1
    apply Segments.foldlM_congr
    intro temp j hj
    rw [h _ hp j (List.mem_range.mp hj)]

/-- `hashimoto` reads only the items of its parent rows: two lookups that agree on them give the
same digest and result. -/
theorem hashimoto_congr (keccak512 : Keccak512) (keccak256 : List UInt8 → List UInt8)
    (hash : List UInt8) (nonce size : UInt64) {lookup₁ lookup₂ : UInt32 → Option (List UInt32)}
    (h : ∀ p : UInt32, p.toNat < (size / UInt64.ofNat mixBytes).toUInt32.toNat →
      ∀ j < mixBytes / hashBytes, lookup₁ (2 * p + UInt32.ofNat j) = lookup₂ (2 * p + UInt32.ofNat j)) :
    hashimoto keccak512 keccak256 hash nonce size lookup₁ =
      hashimoto keccak512 keccak256 hash nonce size lookup₂ := by
  unfold hashimoto
  dsimp only
  congr 1
  apply Segments.foldlM_congr
  intro st i _
  exact mixAccess_congr h _ i st.1 st.2

/-- An access succeeds when there are rows and every lookup succeeds. -/
theorem mixAccess_isSome {lookup : UInt32 → Option (List UInt32)} {rows : UInt32} (hr : rows ≠ 0)
    (hl : ∀ index, (lookup index).isSome) (seedHead : UInt32) (i : Nat) (mix temp : List UInt32) :
    (mixAccess lookup rows seedHead i mix temp).isSome := by
  unfold mixAccess
  simp only [guard, hr, ne_eq, not_false_eq_true, if_true, Option.pure_def, Option.bind_eq_bind,
    Option.bind_some]
  apply Segments.isSome_bind (Segments.foldlM_isSome _ ?_) (fun _ => rfl)
  intro temp j _
  apply Segments.isSome_bind (hl _) (fun _ => rfl)

/-- `hashimoto` succeeds when the dataset has rows and every lookup succeeds. -/
theorem hashimoto_isSome (keccak512 : Keccak512) (keccak256 : List UInt8 → List UInt8)
    (hash : List UInt8) (nonce size : UInt64) {lookup : UInt32 → Option (List UInt32)}
    (hr : (size / UInt64.ofNat mixBytes).toUInt32 ≠ 0) (hl : ∀ index, (lookup index).isSome) :
    (hashimoto keccak512 keccak256 hash nonce size lookup).isSome := by
  unfold hashimoto
  dsimp only
  apply Segments.isSome_bind (Segments.foldlM_isSome _ ?_) (fun _ => rfl)
  intro st i _
  exact mixAccess_isSome hr hl _ i st.1 st.2

/-- The result of `hashimoto` is the Keccak-256 hash of the seed and the digest. -/
theorem hashimoto_eq_some {keccak512 : Keccak512} {keccak256 : List UInt8 → List UInt8}
    {hash : List UInt8} {nonce size : UInt64} {lookup : UInt32 → Option (List UInt32)}
    {r : List UInt8 × List UInt8} (h : hashimoto keccak512 keccak256 hash nonce size lookup = some r) :
    ∃ seed, r.2 = keccak256 (seed ++ r.1) := by
  unfold hashimoto at h
  dsimp only at h
  simp only [Option.bind_eq_bind, Option.bind_eq_some_iff] at h
  obtain ⟨⟨mix, temp⟩, -, hr⟩ := h
  rw [← Option.some.inj hr]
  exact ⟨_, rfl⟩

section
variable (keccak512 : Keccak512) (cache : List UInt32)

/-! ## Items -/

theorem generateDatasetItem_eq_some (hrows : UInt32.ofNat (cache.length / hashWords) ≠ 0)
    (index : UInt32) : ∃ mix, generateDatasetItem cache index keccak512 = some (keccak512.hash mix) := by
  simp only [generateDatasetItem, hrows, if_false]
  exact ⟨_, rfl⟩

theorem generateDatasetItem_eq_none (hrows : UInt32.ofNat (cache.length / hashWords) = 0)
    (index : UInt32) : generateDatasetItem cache index keccak512 = none := by
  simp only [generateDatasetItem, hrows, if_true]

theorem length_itemBytes (hrows : UInt32.ofNat (cache.length / hashWords) ≠ 0) (index : UInt32) :
    (itemBytes keccak512 cache index).length = hashBytes := by
  obtain ⟨mix, hmix⟩ := generateDatasetItem_eq_some keccak512 cache hrows index
  rw [itemBytes, hmix, Option.getD_some, keccak512.length_hash]

theorem length_of_generateDatasetItem {index : UInt32} {item : List UInt8}
    (h : generateDatasetItem cache index keccak512 = some item) : item.length = hashBytes := by
  by_cases hrows : UInt32.ofNat (cache.length / hashWords) = 0
  · rw [generateDatasetItem_eq_none keccak512 cache hrows] at h
    cases h
  · obtain ⟨mix, hmix⟩ := generateDatasetItem_eq_some keccak512 cache hrows index
    rw [hmix, Option.some.injEq] at h
    rw [← h, keccak512.length_hash]

theorem length_itemBytes_le (index : UInt32) : (itemBytes keccak512 cache index).length ≤ hashBytes := by
  rw [itemBytes]
  cases h : generateDatasetItem cache index keccak512 with
  | none => exact Nat.zero_le _
  | some item => exact (length_of_generateDatasetItem keccak512 cache h).le

theorem generateDatasetItem_eq_itemBytes (hrows : UInt32.ofNat (cache.length / hashWords) ≠ 0)
    (index : UInt32) :
    generateDatasetItem cache index keccak512 = some (itemBytes keccak512 cache index) := by
  obtain ⟨mix, hmix⟩ := generateDatasetItem_eq_some keccak512 cache hrows index
  rw [itemBytes, hmix, Option.getD_some]

/-! ## What `generateDataset` writes -/

/-- A dataset generated from a nonempty order of writes comes from a cache with a row. -/
theorem rows_ne_zero_of_generateDataset {dest order ds : List UInt32} (horder : order ≠ [])
    (h : generateDataset keccak512 dest cache order = some ds) :
    UInt32.ofNat (cache.length / hashWords) ≠ 0 := by
  intro hrows
  obtain ⟨index, rest, rfl⟩ := List.exists_cons_of_ne_nil horder
  simp [generateDataset, List.foldlM_cons, generateDatasetItem_eq_none keccak512 cache hrows] at h

/-- A generated dataset is the words of the bytes the writes leave. -/
theorem generateDataset_eq_some {dest order ds : List UInt32}
    (h : generateDataset keccak512 dest cache order = some ds) :
    ds = LittleEndian.decodeWords (datasetBytes keccak512 dest cache order) := by
  simp only [generateDataset, Option.bind_eq_bind, Option.bind_eq_some_iff] at h
  obtain ⟨bytes, hbytes, hds⟩ := h
  rw [← Option.some.inj hds, datasetBytes, Segments.foldlM_eq_some_foldl order _ hbytes]
  intro d index _
  cases hgen : generateDatasetItem cache index keccak512 with
  | none => simp
  | some item =>
    have hitem : itemBytes keccak512 cache index = item := by rw [itemBytes, hgen, Option.getD_some]
    simp only [Option.bind_some, hitem, guard]
    -- the two guards: the offset within the dataset, and a progress step that is not zero
    by_cases hoff : (index * UInt32.ofNat hashBytes).toNat ≤ d.length
    · by_cases hp : (UInt64.ofNat (dest.length * 4) / UInt64.ofNat hashBytes / 100).toUInt32 ≠ 0
      · right
        rw [if_pos hoff, if_pos hp]
        rfl
      · left
        rw [if_pos hoff, if_neg hp]
        rfl
    · left
      rw [if_neg hoff]
      rfl


/-- `generateDataset` succeeds when the cache has a row, the progress step is not zero, and every
write lands within the dataset. -/
theorem generateDataset_eq_some_of {dest order : List UInt32}
    (hrows : UInt32.ofNat (cache.length / hashWords) ≠ 0)
    (hpercent : (UInt64.ofNat (dest.length * 4) / UInt64.ofNat hashBytes / 100).toUInt32 ≠ 0)
    (hoff : ∀ index ∈ order, (index * UInt32.ofNat hashBytes).toNat ≤ 4 * dest.length) :
    generateDataset keccak512 dest cache order =
      some (LittleEndian.decodeWords (datasetBytes keccak512 dest cache order)) := by
  simp only [generateDataset, Option.bind_eq_bind]
  rw [Segments.foldlM_eq_some_of_forall (fun d : List UInt8 => d.length = 4 * dest.length) order
    (g := fun d index =>
      Slice.copyAt d (index * UInt32.ofNat hashBytes).toNat (itemBytes keccak512 cache index))
    (LittleEndian.length_encodeWords dest)]
  · rfl
  · intro d hd index hindex
    refine ⟨?_, by rw [Slice.length_copyAt]; exact hd⟩
    simp only [generateDatasetItem_eq_itemBytes keccak512 cache hrows, Option.bind_some, guard]
    rw [if_pos (by rw [hd]; exact hoff index hindex), if_pos hpercent]
    rfl


/-! ## The bytes of the dataset -/

/-- The byte offset of an item below `2 ^ 26` does not wrap. -/
theorem toNat_offset {index : UInt32} (h : index.toNat < 2 ^ 26) :
    (index * UInt32.ofNat hashBytes).toNat = index.toNat * hashBytes := by
  rw [UInt32.toNat_mul, UInt32.toNat_ofNat', hashBytes]
  omega

/-- Every byte offset is a multiple of `hashBytes` below `2 ^ 32`. -/
theorem offset_add_le (index : UInt32) :
    (index * UInt32.ofNat hashBytes).toNat + hashBytes ≤ 2 ^ 32 := by
  rw [UInt32.toNat_mul, UInt32.toNat_ofNat', hashBytes]
  omega

/-- With no offset wrapped, byte `p` of the dataset is byte `p % hashBytes` of item
`p / hashBytes`, once that item is written. -/
theorem getElem?_datasetBytes {dest order : List UInt32}
    (hrows : UInt32.ofNat (cache.length / hashWords) ≠ 0) (hsize : 4 * dest.length ≤ 2 ^ 32)
    (hsmall : ∀ index ∈ order, index.toNat < 2 ^ 26) {p : Nat} (hp : p < 4 * dest.length)
    (hmem : UInt32.ofNat (p / hashBytes) ∈ order) :
    (datasetBytes keccak512 dest cache order)[p]? =
      (itemBytes keccak512 cache (UInt32.ofNat (p / hashBytes)))[p % hashBytes]? := by
  have hlen := length_itemBytes keccak512 cache hrows
  have hq : p / hashBytes < 2 ^ 26 := by
    unfold hashBytes
    omega
  have hidx : (UInt32.ofNat (p / hashBytes)).toNat = p / hashBytes :=
    UInt32.toNat_ofNat_of_lt' (by unfold UInt32.size; omega)
  have hmod : p % hashBytes < (itemBytes keccak512 cache (UInt32.ofNat (p / hashBytes))).length := by
    rw [hlen]
    exact Nat.mod_lt _ (by decide)
  rw [List.getElem?_eq_getElem hmod, datasetBytes, Slice.getElem?_foldl_copyAt _ _ p _ order _]
  · -- the write of item `p / hashBytes` reaches `p`
    rw [if_pos]
    refine ⟨by rw [LittleEndian.length_encodeWords]; exact hp, UInt32.ofNat (p / hashBytes), hmem, ?_⟩
    rw [Slice.Covers, toNat_offset (by rw [hidx]; exact hq), hidx, hlen]
    unfold hashBytes
    constructor <;> omega
  · -- a write that reaches `p` is the write of that item
    intro w hw hcov
    rw [Slice.Covers, toNat_offset (hsmall w hw), hlen] at hcov
    have hw' : w = UInt32.ofNat (p / hashBytes) := by
      apply UInt32.toNat_inj.mp
      rw [hidx]
      unfold hashBytes at hcov ⊢
      omega
    subst hw'
    rw [toNat_offset (hsmall _ hw), hidx, show p - p / hashBytes * hashBytes = p % hashBytes by
      rw [Nat.mod_eq_sub_div_mul]]
    exact List.getElem?_eq_getElem hmod


@[simp] theorem length_datasetBytes (dest order : List UInt32) :
    (datasetBytes keccak512 dest cache order).length = 4 * dest.length := by
  rw [datasetBytes, Slice.length_foldl_copyAt, LittleEndian.length_encodeWords]

/-- With no offset wrapped, the bytes of item `i` of the dataset are the item generated for `i`,
once it is written. -/
theorem extract_datasetBytes {dest order : List UInt32}
    (hrows : UInt32.ofNat (cache.length / hashWords) ≠ 0) (hsize : 4 * dest.length ≤ 2 ^ 32)
    (hsmall : ∀ index ∈ order, index.toNat < 2 ^ 26) {i : Nat}
    (hi : hashBytes * i + hashBytes ≤ 4 * dest.length) (hmem : UInt32.ofNat i ∈ order) :
    (datasetBytes keccak512 dest cache order).extract (hashBytes * i) (hashBytes * i + hashBytes) =
      itemBytes keccak512 cache (UInt32.ofNat i) := by
  have hlen := length_itemBytes keccak512 cache hrows (UInt32.ofNat i)
  apply List.ext_getElem?
  intro q
  rw [List.extract_eq_take_drop, List.getElem?_take, List.getElem?_drop]
  by_cases hq : q < hashBytes * i + hashBytes - hashBytes * i
  · have hdiv : (hashBytes * i + q) / hashBytes = i := by
      unfold hashBytes at hq ⊢
      omega
    have hmod : (hashBytes * i + q) % hashBytes = q := by
      unfold hashBytes at hq ⊢
      omega
    rw [if_pos hq, getElem?_datasetBytes keccak512 cache hrows hsize hsmall (by omega)
      (by rw [hdiv]; exact hmem), hdiv, hmod]
  · rw [if_neg hq, List.getElem?_eq_none (by rw [hlen]; omega)]

/-- With no offset wrapped, the full lookup of a written item is the light lookup. -/
theorem fullLookup_eq_lightLookup {dest order ds : List UInt32} (hsize : 4 * dest.length ≤ 2 ^ 32)
    (hsmall : ∀ index ∈ order, index.toNat < 2 ^ 26)
    (hds : generateDataset keccak512 dest cache order = some ds) {i : Nat}
    (hi : hashBytes * i + hashBytes ≤ 4 * dest.length) (hmem : UInt32.ofNat i ∈ order) :
    fullLookup ds (UInt32.ofNat i) = lightLookup keccak512 cache (UInt32.ofNat i) := by
  have hrows := rows_ne_zero_of_generateDataset keccak512 cache (List.ne_nil_of_mem hmem) hds
  rw [generateDataset_eq_some keccak512 cache hds,
    fullLookup_decodeWords (by unfold hashBytes at hi; omega) (by rw [length_datasetBytes]; exact hi),
    extract_datasetBytes keccak512 cache hrows hsize hsmall hi hmem, lightLookup,
    generateDatasetItem_eq_itemBytes keccak512 cache hrows, Option.map_some]


theorem length_of_generateDataset {dest order ds : List UInt32}
    (h : generateDataset keccak512 dest cache order = some ds) : ds.length = dest.length := by
  rw [generateDataset_eq_some keccak512 cache h, LittleEndian.length_decodeWords,
    length_datasetBytes]
  omega

/-! ## Past `2 ^ 32` bytes -/

/-- No write reaches the bytes from `2 ^ 32` on: they keep the bytes of `dest`. -/
theorem getElem?_datasetBytes_of_le {dest order : List UInt32} {p : Nat} (hp : 2 ^ 32 ≤ p) :
    (datasetBytes keccak512 dest cache order)[p]? = (LittleEndian.encodeWords dest)[p]? := by
  rw [datasetBytes, Slice.getElem?_foldl_copyAt _ _ p 0 order _ (fun w _ hcov => absurd hcov ?_),
    if_neg]
  · rintro ⟨-, w, -, hcov⟩
    have := offset_add_le w
    have := length_itemBytes_le keccak512 cache w
    unfold Slice.Covers at hcov
    omega
  · intro hcov
    have := offset_add_le w
    have := length_itemBytes_le keccak512 cache w
    unfold Slice.Covers at hcov
    omega

/-- From item `2 ^ 26` on, the writes of `generateDataset` wrap: `index*hashBytes` is a `uint32`, so
no write reaches the bytes of these items. Over a dataset of zeros, as `make` and a fresh file give
it, for every cache, every number of writers and every order their writes land in, the full lookup
of such an item reads zero words, and agrees with the light lookup only when the item generated
from the cache is 64 zero bytes. -/
theorem generateDataset_wraps_past_four_gib {m : Nat} {order ds : List UInt32}
    (hds : generateDataset keccak512 (List.replicate m 0) cache order = some ds) (i : UInt32)
    (hi : 2 ^ 26 ≤ i.toNat) (hi' : i.toNat + 1 < 2 ^ 28) (hm : i.toNat < m / hashWords) :
    fullLookup ds i = some (List.replicate hashWords 0) ∧
      (fullLookup ds i = lightLookup keccak512 cache i ↔
        generateDatasetItem cache i keccak512 = some (List.replicate hashBytes 0)) := by
  have hlen := length_datasetBytes keccak512 cache (List.replicate m 0) order
  rw [List.length_replicate] at hlen
  -- the bytes of item `i` were never written, and are zero
  have hzero : (datasetBytes keccak512 (List.replicate m 0) cache order).extract
      (hashBytes * i.toNat) (hashBytes * i.toNat + hashBytes) = List.replicate hashBytes 0 := by
    apply List.ext_getElem?
    intro q
    rw [List.extract_eq_take_drop, List.getElem?_take, List.getElem?_drop]
    by_cases hq : q < hashBytes * i.toNat + hashBytes - hashBytes * i.toNat
    · rw [if_pos hq, getElem?_datasetBytes_of_le keccak512 cache (by unfold hashBytes; omega),
        LittleEndian.encodeWords_replicate_zero, List.getElem?_replicate, List.getElem?_replicate,
        if_pos (by unfold hashWords at hm; unfold hashBytes at hq ⊢; omega), if_pos (by omega)]
    · rw [if_neg hq, List.getElem?_replicate, if_neg (by omega)]
  have hfull : fullLookup ds i = some (List.replicate hashWords 0) := by
    rw [generateDataset_eq_some keccak512 cache hds, ← UInt32.ofNat_toNat (x := i),
      fullLookup_decodeWords hi' (by rw [hlen]; unfold hashWords at hm; unfold hashBytes; omega),
      hzero]
    exact congrArg some (LittleEndian.decodeWords_replicate_zero hashWords)
  refine ⟨hfull, ?_⟩
  rw [hfull, lightLookup]
  cases hgen : generateDatasetItem cache i keccak512 with
  | none => simp
  | some item =>
    have hitem := length_of_generateDatasetItem keccak512 cache hgen
    rw [Option.map_some, Option.some.injEq, Option.some.injEq]
    constructor
    · intro h
      apply LittleEndian.decodeWords_inj (by rw [hitem]; rfl) (by rw [List.length_replicate]; rfl)
      rw [← h, show hashBytes = 4 * hashWords from rfl, LittleEndian.decodeWords_replicate_zero]
    · intro h
      rw [h, show hashBytes = 4 * hashWords from rfl, LittleEndian.decodeWords_replicate_zero]

end

/-- At 4 GiB and 64 bytes, one writer, a cache of one row and a Keccak-512 that gives 64 one bytes:
item `2 ^ 26` of the generated dataset reads as zero words, and the light lookup reads other words. -/
theorem generateDataset_wraps_at_item_two_pow_26 :
    ∃ ds, generateDataset ⟨fun _ => List.replicate 64 1, fun _ => List.length_replicate⟩
        (List.replicate (2 ^ 30 + 16) 0) (List.replicate 16 0)
        (datasetIndices (UInt64.ofNat ((2 ^ 30 + 16) * 4)) 1) = some ds ∧
      fullLookup ds (2 ^ 26) = some (List.replicate hashWords 0) ∧
      fullLookup ds (2 ^ 26) ≠
        lightLookup ⟨fun _ => List.replicate 64 1, fun _ => List.length_replicate⟩
          (List.replicate 16 0) (2 ^ 26) := by
  have hrows : UInt32.ofNat ((List.replicate 16 (0 : UInt32)).length / hashWords) ≠ 0 := by
    rw [List.length_replicate]
    decide
  obtain ⟨ds, hsome⟩ : ∃ ds, generateDataset
      ⟨fun _ => List.replicate 64 1, fun _ => List.length_replicate⟩ (List.replicate (2 ^ 30 + 16) 0)
      (List.replicate 16 0) (datasetIndices (UInt64.ofNat ((2 ^ 30 + 16) * 4)) 1) = some ds :=
    ⟨_, generateDataset_eq_some_of _ _ hrows (by rw [List.length_replicate]; decide)
      (fun index _ => by rw [List.length_replicate]; have := offset_add_le index; omega)⟩
  have h := generateDataset_wraps_past_four_gib _ _ hsome (2 ^ 26) (by decide) (by decide)
    (by unfold hashWords; decide)
  refine ⟨ds, hsome, h.1, fun heq => ?_⟩
  have hitem := h.2.mp heq
  obtain ⟨mix, hmix⟩ := generateDatasetItem_eq_some
    ⟨fun _ => List.replicate 64 1, fun _ => List.length_replicate⟩ (List.replicate 16 0) hrows (2 ^ 26)
  rw [hmix, Option.some.injEq] at hitem
  have hones : List.replicate 64 (1 : UInt8) = List.replicate hashBytes 0 := hitem
  exact absurd (congrArg List.head? hones) (by decide)

section
variable (keccak512 : Keccak512) (cache : List UInt32)

/-! ## The full and the light `hashimoto` -/

/-- The looked-up item `2 * p + j` of a parent row `p` below `rows` is below twice the rows. -/
theorem toNat_parent_item {p : UInt32} {rows : Nat} (hp : p.toNat < rows) (hrows : rows ≤ 2 ^ 30)
    {j : Nat} (hj : j < mixBytes / hashBytes) :
    (2 * p + UInt32.ofNat j).toNat = 2 * p.toNat + j := by
  unfold mixBytes hashBytes at hj
  rw [UInt32.toNat_add, UInt32.toNat_mul, UInt32.toNat_ofNat', show (2 : UInt32).toNat = 2 from rfl]
  omega

/-- Below `2 ^ 32` bytes, for every order the writers' items land in, the miner's `hashimotoFull`
over the generated dataset and the verifier's `hashimotoLight` over the cache return the same
digest and result, for every header hash and nonce. -/
theorem hashimotoFull_eq_hashimotoLight (keccak256 : List UInt8 → List UInt8)
    {dest order ds : List UInt32} {threads : Nat} (hthreads : 0 < threads)
    (hthreads' : threads < 2 ^ 32) (hsize : dest.length * 4 ≤ 2 ^ 32)
    (horder : order.Perm (datasetIndices (UInt64.ofNat (dest.length * 4)) threads))
    (hds : generateDataset keccak512 dest cache order = some ds) (hash : List UInt8)
    (nonce : UInt64) :
    hashimotoFull keccak512 keccak256 ds hash nonce =
      hashimotoLight keccak512 keccak256 (UInt64.ofNat (ds.length * 4)) cache hash nonce := by
  have hlen := length_of_generateDataset keccak512 cache hds
  have hs : (UInt64.ofNat (dest.length * 4)).toNat = dest.length * 4 := by
    rw [UInt64.toNat_ofNat']
    omega
  -- every index some writer generates is below `2 ^ 26`
  have hsmall : ∀ index ∈ order, index.toNat < 2 ^ 26 := by
    intro index hindex
    have := toNat_lt_of_mem_datasetIndices (horder.mem_iff.mp hindex)
    rw [UInt64.toNat_toUInt32, UInt64.toNat_div, hs, show (UInt64.ofNat hashBytes).toNat = 64 from rfl] at this
    omega
  have hsize64 : UInt64.ofNat ds.length * 4 = UInt64.ofNat (ds.length * 4) := by
    apply UInt64.toNat_inj.mp
    rw [UInt64.toNat_mul, UInt64.toNat_ofNat', UInt64.toNat_ofNat', show (4 : UInt64).toNat = 4 from rfl]
    omega
  unfold hashimotoFull hashimotoLight
  rw [hsize64]
  apply hashimoto_congr
  intro p hp j hj
  have hrows : (UInt64.ofNat (ds.length * 4) / UInt64.ofNat mixBytes).toUInt32.toNat =
      dest.length * 4 / 128 := by
    rw [UInt64.toNat_toUInt32, UInt64.toNat_div, hlen, hs, show (UInt64.ofNat mixBytes).toNat = 128 from rfl]
    omega
  rw [hrows] at hp
  have hk := toNat_parent_item hp (by omega) hj
  have hjk : j < 2 := by
    unfold mixBytes hashBytes at hj
    exact hj
  rw [← UInt32.ofNat_toNat (x := 2 * p + UInt32.ofNat j), hk]
  apply fullLookup_eq_lightLookup keccak512 cache (by omega) hsmall hds (by unfold hashBytes; omega)
  apply horder.mem_iff.mpr
  apply mem_datasetIndices_of_lt hthreads hthreads' (by rw [hs]; exact hsize)
  rw [hs]
  unfold hashBytes
  omega


/-! ## Sealing with the full dataset, verifying with the cache -/

/-- Below `2 ^ 32` bytes, a header the miner seals with the dataset that `generateDataset` filled,
in whatever order its writers' items landed, passes `VerifySeal`, which recomputes the digest and
the result from the cache of the header's epoch. -/
theorem mined_seal_verifies (keccak256 : List UInt8 → List UInt8) {dest order ds : List UInt32}
    {threads : Nat} (hthreads : 0 < threads) (hthreads' : threads < 2 ^ 32)
    (hsize : dest.length * 4 ≤ 2 ^ 32)
    (horder : order.Perm (datasetIndices (UInt64.ofNat (dest.length * 4)) threads))
    (hds : generateDataset keccak512 dest cache order = some ds) (cacheEpochs : Nat)
    (cacheOf : UInt64 → List UInt32) (datasetSize : UInt64 → UInt64) {header sealed : SealHeader}
    {nonce : UInt64} (hepoch : header.number.toNat / epochLength < cacheEpochs)
    (hdiff : 0 < header.difficulty) (hcache : cacheOf header.number = cache)
    (hdsize : datasetSize header.number = UInt64.ofNat (ds.length * 4))
    (hmine : mineNonce keccak512 keccak256 ds header nonce = some (some sealed)) :
    verifySeal keccak512 keccak256 cacheEpochs cacheOf datasetSize sealed = some (.ok ()) := by
  unfold mineNonce at hmine
  cases hfull : hashimotoFull keccak512 keccak256 ds header.hashNoNonce nonce with
  | none =>
    rw [hfull] at hmine
    cases hmine
  | some r =>
    rw [hfull, Option.map_some, Option.some.injEq] at hmine
    split_ifs at hmine with htarget
    cases hmine
    rw [hashimotoFull_eq_hashimotoLight keccak512 cache keccak256 hthreads hthreads' hsize horder hds]
      at hfull
    unfold verifySeal
    dsimp only
    rw [if_neg (not_le.mpr hepoch), if_neg (not_le.mpr hdiff), hdsize, hcache, hfull,
      Option.map_some, if_neg (not_not.mpr rfl), if_neg (not_lt.mpr htarget)]


end

/-- One writer over 6400 bytes, a cache of one row, constant hashes and difficulty one: the miner
seals nonce zero with the full dataset, and the seal verifies. -/
theorem mined_seal_verifies_small :
    ∃ ds sealed, generateDataset ⟨fun _ => List.replicate 64 1, fun _ => List.length_replicate⟩
        (List.replicate 1600 0) (List.replicate 16 0) (datasetIndices (UInt64.ofNat (1600 * 4)) 1) =
        some ds ∧
      mineNonce ⟨fun _ => List.replicate 64 1, fun _ => List.length_replicate⟩ (fun _ => []) ds
        ⟨0, 1, [], 0, []⟩ 0 = some (some sealed) ∧
      verifySeal ⟨fun _ => List.replicate 64 1, fun _ => List.length_replicate⟩ (fun _ => []) 1
        (fun _ => List.replicate 16 0) (fun _ => UInt64.ofNat (1600 * 4)) sealed = some (.ok ()) := by
  -- nothing below depends on the digests Keccak-512 returns, only on their length
  generalize (⟨fun _ => List.replicate 64 1, fun _ => List.length_replicate⟩ : Keccak512) = K
  have hrows : UInt32.ofNat ((List.replicate 16 (0 : UInt32)).length / hashWords) ≠ 0 := by
    rw [List.length_replicate]
    decide
  obtain ⟨ds, hds⟩ : ∃ ds, generateDataset K (List.replicate 1600 0) (List.replicate 16 0)
      (datasetIndices (UInt64.ofNat (1600 * 4)) 1) = some ds :=
    ⟨_, generateDataset_eq_some_of K _ hrows (by rw [List.length_replicate]; decide)
      (fun index hindex => by
        have hlt := toNat_lt_of_mem_datasetIndices hindex
        rw [show (UInt64.ofNat (1600 * 4) / UInt64.ofNat hashBytes).toUInt32.toNat = 100 by
          decide] at hlt
        rw [List.length_replicate, toNat_offset (by omega)]
        unfold hashBytes
        omega)⟩
  have hlen : ds.length = 1600 := by
    rw [length_of_generateDataset _ _ hds, List.length_replicate]
  have horder : (datasetIndices (UInt64.ofNat (1600 * 4)) 1).Perm
      (datasetIndices (UInt64.ofNat ((List.replicate 1600 (0 : UInt32)).length * 4)) 1) := by
    rw [List.length_replicate]
  have hagree := hashimotoFull_eq_hashimotoLight _ _ (fun _ => []) Nat.one_pos (by decide)
    (by rw [List.length_replicate]; decide) horder hds [] 0
  rw [hlen] at hagree
  have hlight : ∀ index, (lightLookup K (List.replicate 16 0) index).isSome := fun index => by
    rw [lightLookup, generateDatasetItem_eq_itemBytes _ _ hrows]
    rfl
  obtain ⟨r, hr⟩ := Option.isSome_iff_exists.mp
    (hashimoto_isSome K (fun _ => []) [] 0 (UInt64.ofNat (1600 * 4)) (by decide) hlight)
  obtain ⟨seed, hresult⟩ := hashimoto_eq_some hr
  have hmine : mineNonce K (fun _ => []) ds ⟨0, 1, [], 0, []⟩ 0 = some (some ⟨0, 1, [], 0, r.1⟩) := by
    rw [mineNonce, hagree, hashimotoLight, hr, Option.map_some, hresult, if_pos (by decide)]
  refine ⟨ds, _, hds, hmine, ?_⟩
  exact mined_seal_verifies _ _ (fun _ => []) Nat.one_pos (by decide)
    (by rw [List.length_replicate]; decide) horder hds 1 _ _ (by decide) (by decide) rfl
    (by rw [hlen]) hmine

end GoGaia.Fbcash
