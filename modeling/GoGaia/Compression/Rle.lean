import Mathlib

/-!
# The run-length codec

`compression/rle/read_write.go`. `Compress` cuts its input into chunks (`compressChunk`): the
byte `token` is escaped as `token, tokenToken`; a run of at least two zero bytes, at most 255 of
them, is `token, byte(j+2)` for its length `j`; the 32 bytes of the empty hash or of the empty
list's hash are `token, emptyShaToken` and `token, emptyListShaToken`; any other byte stands for
itself. `Decompress` expands `token, c` by `tokenBytes c`, in which the three marker bytes are
tested before the run lengths.

The marker bytes `0xfd`, `0xfe` and `0xff` are the run bytes of 251, 252 and 253 zeros, so such
a run does not come back: the empty hash, the empty list's hash or one `token` is read in its
place (`compress_zero_run_breaks_round_trip`). The run bytes of 254 and 255 zeros wrap to `0` and
`1`, and `byte(c-2)` wraps them back. An input without 251 zero bytes in a row round-trips
(`decompress_compress_of_short_zero_runs`).
-/

namespace GoGaia.Rle

/-- `token`. -/
def token : UInt8 := 0xfe

/-- `emptyShaToken`. -/
def emptyShaToken : UInt8 := 0xfd

/-- `emptyListShaToken`. -/
def emptyListShaToken : UInt8 := 0xfe

/-- `tokenToken`. -/
def tokenToken : UInt8 := 0xff

/-- `empty`, `crypto.Keccak256([]byte(""))`, with the bytes `read_write_test.go` expects. -/
def empty : List UInt8 :=
  [0xc5, 0xd2, 0x46, 0x01, 0x86, 0xf7, 0x23, 0x3c, 0x92, 0x7e, 0x7d, 0xb2, 0xdc, 0xc7, 0x03, 0xc0,
    0xe5, 0x00, 0xb6, 0x53, 0xca, 0x82, 0x27, 0x3b, 0x7b, 0xfa, 0xd8, 0x04, 0x5d, 0x85, 0xa4, 0x70]

/-- `emptyList`, `crypto.Keccak256([]byte{0x80})`, with the bytes `read_write_test.go` expects. -/
def emptyList : List UInt8 :=
  [0x56, 0xe8, 0x1f, 0x17, 0x1b, 0xcc, 0x55, 0xa6, 0xff, 0x83, 0x45, 0xe6, 0x92, 0xc0, 0xf8, 0x6e,
    0x5b, 0x48, 0xe0, 0x1b, 0x99, 0x6c, 0xad, 0xc0, 0x01, 0x62, 0x2f, 0xb5, 0xe3, 0x63, 0xb4, 0x21]

/-- What `Decompress` writes for the byte `c` that follows a `token`. -/
def tokenBytes (c : UInt8) : List UInt8 :=
  if c = emptyShaToken then empty
  else if c = emptyListShaToken then emptyList
  else if c = tokenToken then [token]
  else List.replicate (c - 2).toNat 0

/-- The loop of `Decompress`, writing into `buf`. -/
def decompressLoop (buf : List UInt8) : List UInt8 → Except String (List UInt8)
  | [] => pure buf
  | b :: rest =>
    if b = token then
      match rest with
      | c :: rest => decompressLoop (buf ++ tokenBytes c) rest
      | [] => throw "error reading bytes. token encountered without proceeding bytes"
    else decompressLoop (buf ++ [b]) rest

/-- `Decompress`. -/
def decompress (dat : List UInt8) : Except String (List UInt8) := decompressLoop [] dat

/-- The loop of `compressChunk` over a run of zero bytes, for at most `n` more rounds. -/
def zeroRun : Nat → List UInt8 → Nat
  | 0, _ => 0
  | _ + 1, [] => 0
  | n + 1, x :: xs => if x ≠ 0 then 0 else zeroRun n xs + 1

/-- `compressChunk` of the non-empty input `b :: rest`: the chunk and the bytes it stands for. -/
def compressChunk (b : UInt8) (rest : List UInt8) : List UInt8 × Nat :=
  let dat := b :: rest
  if b = token then ([token, tokenToken], 1)
  else if dat.length > 1 ∧ b = 0 ∧ dat.getD 1 0 = 0 then
    let j := zeroRun 255 dat
    ([token, UInt8.ofNat (j + 2)], j)
  else if dat.length ≥ 32 ∧ b = empty.getD 0 0 ∧ dat.take 32 = empty then
    ([token, emptyShaToken], 32)
  else if dat.length ≥ 32 ∧ b = emptyList.getD 0 0 ∧ dat.take 32 = emptyList then
    ([token, emptyListShaToken], 32)
  else ([b], 1)

theorem zeroRun_le (n : Nat) (l : List UInt8) : zeroRun n l ≤ n := by
  induction n generalizing l with
  | zero => exact Nat.le_refl _
  | succ n ih =>
    cases l with
    | nil => exact Nat.zero_le _
    | cons x xs =>
      rw [zeroRun]
      split
      · exact Nat.zero_le _
      · exact Nat.succ_le_succ (ih xs)

/-- Every chunk stands for at least one byte. -/
theorem compressChunk_snd_pos (b : UInt8) (rest : List UInt8) : 0 < (compressChunk b rest).2 := by
  unfold compressChunk
  dsimp only
  split
  · exact Nat.one_pos
  · split
    · next h =>
      obtain ⟨hlen, hb, -⟩ := h
      cases rest with
      | nil => simp at hlen
      | cons c rest =>
        rw [zeroRun, if_neg (not_not.mpr hb)]
        exact Nat.succ_pos _
    · split
      · exact Nat.succ_pos _
      · split
        · exact Nat.succ_pos _
        · exact Nat.one_pos

/-- `Compress`: the chunks of the input, one after the other. -/
def compress : List UInt8 → List UInt8
  | [] => []
  | b :: rest =>
    let r := compressChunk b rest
    r.1 ++ compress ((b :: rest).drop r.2)
termination_by dat => dat.length
decreasing_by
  have := compressChunk_snd_pos b rest
  simp only [List.length_drop, List.length_cons]
  omega

/-! ## `Decompress` chunk by chunk -/

theorem decompressLoop_literal (buf : List UInt8) {b : UInt8} (hb : b ≠ token) (more : List UInt8) :
    decompressLoop buf (b :: more) = decompressLoop (buf ++ [b]) more := by
  rw [decompressLoop.eq_def]
  dsimp only
  rw [if_neg hb]

theorem decompressLoop_token (buf : List UInt8) (c : UInt8) (more : List UInt8) :
    decompressLoop buf (token :: c :: more) = decompressLoop (buf ++ tokenBytes c) more := by
  rw [decompressLoop, if_pos rfl]

/-- A run byte that is not a marker expands to its run: the byte of `j` zeros is `j + 2`, and
`byte(c-2)` undoes the wrap of 254 and 255. -/
theorem tokenBytes_run {j : Nat} (hj : j ≤ 255) (hm : ¬(251 ≤ j ∧ j ≤ 253)) :
    tokenBytes (UInt8.ofNat (j + 2)) = List.replicate j 0 := by
  have hval : (UInt8.ofNat (j + 2)).toNat = (j + 2) % 256 := UInt8.toNat_ofNat
  have h₁ : UInt8.ofNat (j + 2) ≠ emptyShaToken := by
    intro h
    have := congrArg UInt8.toNat h
    rw [hval] at this
    simp only [emptyShaToken, UInt8.reduceToNat] at this
    omega
  have h₂ : UInt8.ofNat (j + 2) ≠ emptyListShaToken := by
    intro h
    have := congrArg UInt8.toNat h
    rw [hval] at this
    simp only [emptyListShaToken, UInt8.reduceToNat] at this
    omega
  have h₃ : UInt8.ofNat (j + 2) ≠ tokenToken := by
    intro h
    have := congrArg UInt8.toNat h
    rw [hval] at this
    simp only [tokenToken, UInt8.reduceToNat] at this
    omega
  have hsub : (UInt8.ofNat (j + 2) - 2).toNat = j := by
    rw [UInt8.toNat_sub, hval]
    simp only [UInt8.reduceToNat]
    omega
  rw [tokenBytes, if_neg h₁, if_neg h₂, if_neg h₃, hsub]

/-! ## Runs of zero bytes -/

theorem zeroRun_replicate : ∀ (n m : Nat), zeroRun n (List.replicate m 0) = min n m
  | 0, _ => by rw [zeroRun, Nat.zero_min]
  | _ + 1, 0 => by rw [List.replicate_zero, zeroRun, Nat.min_zero]
  | n + 1, m + 1 => by
    rw [List.replicate_succ, zeroRun, if_neg (not_not.mpr rfl), zeroRun_replicate n m,
      Nat.add_min_add_right]

/-- The bytes a run stands for are zeros. -/
theorem take_zeroRun : ∀ (n : Nat) (l : List UInt8), l.take (zeroRun n l) = List.replicate (zeroRun n l) 0
  | 0, _ => by rw [zeroRun, List.take_zero, List.replicate_zero]
  | _ + 1, [] => by rw [zeroRun, List.take_zero, List.replicate_zero]
  | n + 1, x :: xs => by
    rw [zeroRun]
    split
    · rw [List.take_zero, List.replicate_zero]
    · next hx =>
      rw [List.take_succ_cons, take_zeroRun n xs, List.replicate_succ, not_not.mp hx]

/-- A run of 251 zeros or more starts with 251 zeros. -/
theorem replicate_prefix_of_le_zeroRun {n : Nat} {l : List UInt8} (h : 251 ≤ zeroRun n l) :
    List.replicate 251 0 <+: l := by
  have htake := take_zeroRun n l
  have hpre : (l.take (zeroRun n l)).take 251 = List.replicate 251 0 := by
    rw [htake, List.take_replicate, Nat.min_eq_left h]
  rw [List.take_take, Nat.min_eq_left h] at hpre
  rw [← hpre]
  exact List.take_prefix _ _

/-! ## One chunk -/

/-- Every chunk but a run of 251, 252 or 253 zeros decodes to the bytes it stands for. -/
theorem decompressLoop_compressChunk (buf : List UInt8) {b : UInt8} {rest : List UInt8}
    (hrun : ¬(251 ≤ zeroRun 255 (b :: rest) ∧ zeroRun 255 (b :: rest) ≤ 253)) (more : List UInt8) :
    decompressLoop buf ((compressChunk b rest).1 ++ more) =
      decompressLoop (buf ++ (b :: rest).take (compressChunk b rest).2) more := by
  unfold compressChunk
  dsimp only
  split_ifs with htok hzero hempty hemptyList
  · -- an escaped token
    rw [htok, List.cons_append, List.cons_append, List.nil_append, decompressLoop_token]
    rfl
  · -- a run of zeros
    rw [List.cons_append, List.cons_append, List.nil_append, decompressLoop_token,
      tokenBytes_run (zeroRun_le 255 _) hrun, take_zeroRun]
  · -- the empty hash
    rw [List.cons_append, List.cons_append, List.nil_append, decompressLoop_token, hempty.2.2,
      tokenBytes, if_pos rfl]
  · -- the empty list's hash
    rw [List.cons_append, List.cons_append, List.nil_append, decompressLoop_token, hemptyList.2.2,
      tokenBytes, if_neg (by decide), if_pos rfl]
  · -- a byte that stands for itself
    rw [List.singleton_append, decompressLoop_literal buf htok]
    rfl

/-! ## Whole inputs -/

/-- An input without 251 zero bytes in a row decodes back from its chunks, whatever follows. -/
theorem decompressLoop_compress (buf : List UInt8) {x : List UInt8}
    (hx : ¬List.replicate 251 0 <:+: x) (more : List UInt8) :
    decompressLoop buf (compress x ++ more) = decompressLoop (buf ++ x) more := by
  induction x using compress.induct generalizing buf with
  | case1 => rw [compress, List.nil_append, List.append_nil]
  | case2 b rest r ih =>
    -- the chunk is not a long run, and the rest of the input has no long run either
    have hrun : ¬(251 ≤ zeroRun 255 (b :: rest) ∧ zeroRun 255 (b :: rest) ≤ 253) :=
      fun h => hx (replicate_prefix_of_le_zeroRun h.1).isInfix
    have hdrop : ¬List.replicate 251 0 <:+: (b :: rest).drop (compressChunk b rest).2 :=
      fun h => hx (h.trans (List.drop_suffix _ _).isInfix)
    rw [compress, List.append_assoc, decompressLoop_compressChunk buf hrun, ih _ hdrop,
      List.append_assoc, List.take_append_drop]

/-- The chunk of a run of `m ≥ 2` zeros: the run of `min 255 m` of them. -/
theorem compressChunk_replicate {m : Nat} (hm : 2 ≤ m) :
    compressChunk 0 (List.replicate (m - 1) 0) =
      ([token, UInt8.ofNat (min 255 m + 2)], min 255 m) := by
  have hrep : (0 : UInt8) :: List.replicate (m - 1) 0 = List.replicate m 0 := by
    rw [← List.replicate_succ, Nat.sub_add_cancel (by omega)]
  unfold compressChunk
  dsimp only
  rw [if_neg (by decide), if_pos ⟨by simp only [List.length_cons, List.length_replicate]; omega,
    rfl, by simp⟩, hrep, zeroRun_replicate]

theorem replicate_eq_cons {m : Nat} (hm : 1 ≤ m) :
    List.replicate m (0 : UInt8) = 0 :: List.replicate (m - 1) 0 := by
  rw [← List.replicate_succ, Nat.sub_add_cancel hm]

/-- `k` runs of 255 zeros then a run of `r` zeros decode to `255 * k` zeros and the expansion of
the run byte of `r`. -/
theorem decompressLoop_compress_replicate {r : Nat} (hr : 2 ≤ r) (hr' : r ≤ 255) :
    ∀ (k : Nat) (buf more : List UInt8),
      decompressLoop buf (compress (List.replicate (255 * k + r) 0) ++ more) =
        decompressLoop (buf ++ List.replicate (255 * k) 0 ++ tokenBytes (UInt8.ofNat (r + 2))) more := by
  intro k
  induction k with
  | zero =>
    intro buf more
    -- the last run: one chunk for all of it
    rw [Nat.mul_zero, Nat.zero_add, replicate_eq_cons (by omega), compress,
      compressChunk_replicate hr, Nat.min_eq_right hr', ← replicate_eq_cons (by omega),
      List.drop_replicate, Nat.sub_self, List.replicate_zero, compress, List.append_nil,
      List.cons_append, List.cons_append, List.nil_append, decompressLoop_token, List.append_nil]
  | succ k ih =>
    intro buf more
    -- a full run of 255 zeros first
    rw [replicate_eq_cons (by omega), compress, compressChunk_replicate (by omega),
      Nat.min_eq_left (by omega), ← replicate_eq_cons (by omega), List.drop_replicate,
      show 255 * (k + 1) + r - 255 = 255 * k + r by omega, List.append_assoc, List.cons_append,
      List.cons_append, List.nil_append, decompressLoop_token,
      tokenBytes_run le_rfl (by omega), ih, show 255 * (k + 1) = 255 + 255 * k by ring,
      List.replicate_add]
    simp only [List.append_assoc]

/-- A run of `255 * k + r` zeros with `r` one of 251, 252 and 253 does not round-trip: its last
chunk reads back as the empty hash, the empty list's hash or one `token`. -/
theorem compress_zero_run_breaks_round_trip (k r : Nat) (hr : 251 ≤ r) (hr' : r ≤ 253) :
    decompress (compress (List.replicate (255 * k + r) 0)) =
        .ok (List.replicate (255 * k) 0 ++ tokenBytes (UInt8.ofNat (r + 2))) ∧
      decompress (compress (List.replicate (255 * k + r) 0)) ≠
        .ok (List.replicate (255 * k + r) 0) := by
  have h := decompressLoop_compress_replicate (by omega : 2 ≤ r) (by omega) k [] []
  rw [List.append_nil, List.nil_append] at h
  have hout : decompress (compress (List.replicate (255 * k + r) 0)) =
      .ok (List.replicate (255 * k) 0 ++ tokenBytes (UInt8.ofNat (r + 2))) := by
    rw [decompress, h]
    rfl
  refine ⟨hout, fun heq => ?_⟩
  have hlen := congrArg List.length (Except.ok.inj (hout.symm.trans heq))
  -- a marker expands to 32 bytes or to one, never to its run of zeros
  have hmarker : (tokenBytes (UInt8.ofNat (r + 2))).length ≤ 32 := by
    interval_cases r <;> decide
  simp only [List.length_append, List.length_replicate] at hlen
  omega

/-- 251 zeros read back as the empty hash. -/
theorem compress_251_zeros_reads_empty_hash :
    decompress (compress (List.replicate 251 0)) = .ok empty :=
  (compress_zero_run_breaks_round_trip 0 251 le_rfl (by decide)).1

/-- `Decompress` inverts `Compress` on every input without 251 zero bytes in a row. -/
theorem decompress_compress_of_short_zero_runs (x : List UInt8)
    (hx : ¬List.replicate 251 0 <:+: x) : decompress (compress x) = .ok x := by
  have h := decompressLoop_compress [] hx []
  rw [List.append_nil, List.nil_append] at h
  rw [decompress, h]
  rfl

/-- A token, a run and a literal come back. -/
theorem decompress_compress_token_run_literal :
    ¬List.replicate 251 0 <:+: [0, 0, 0, token, 7] ∧
      decompress (compress [0, 0, 0, token, 7]) = .ok [0, 0, 0, token, 7] :=
  ⟨by decide, decompress_compress_of_short_zero_runs _ (by decide)⟩

end GoGaia.Rle
