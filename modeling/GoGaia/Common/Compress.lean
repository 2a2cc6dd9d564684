import Mathlib
import GoGaia.Lib.ByteBits
import GoGaia.Lib.EState

/-!
# Sparse bitset compression

`common/bitutil/compress.go`. A byte string with many zero bytes is encoded as the bitset of its
non-zero bytes, itself encoded the same way, followed by the non-zero bytes (`bitsetEncodeBytes`);
`CompressBytes` keeps the encoding only when it is shorter than the input. Decoding needs the
length of the output: `bitsetDecodePartialBytes` decodes the bitset for an eighth of the target,
then puts the next byte of the input at every position whose bit is set, and fails when the
input runs out, a bit lies past the target, or a byte it places is zero.

A Go run-time panic on an index out of range is the error `indexOutOfRange`; the decoder never
raises it (`bitsetDecodePartialBytes_ends`). The bitset of a string has bit `i` set exactly when
byte `i` is not zero (`get_encodeLoop_fst`), and the decoder inverts the encoder one level of the
recursion at a time (`bitsetDecodePartialBytes_encode`), so that `DecompressBytes` inverts
`CompressBytes` (`decompressBytes_compressBytes`).
-/

namespace GoGaia.Bitutil

/-- The errors of `compress.go`, and the run-time panic of an index out of range. -/
inductive CompressError where
  | missingData
  | unreferencedData
  | exceededTarget
  | zeroContent
  | indexOutOfRange
deriving DecidableEq, Repr

/-- `b[i]`, which panics unless `i < len(b)`. -/
def index (b : List UInt8) (i : Nat) : Except CompressError UInt8 :=
  match b[i]? with
  | some x => pure x
  | none => throw .indexOutOfRange

/-- `b[i] = x`, which panics unless `i < len(b)`. -/
def setIndex (b : List UInt8) (i : Nat) (x : UInt8) : Except CompressError (List UInt8) :=
  if i < b.length then pure (b.set i x) else throw .indexOutOfRange

/-- One round of the loop of `bitsetEncodeBytes`, at byte `i`: a non-zero byte sets its bit and
is kept. -/
def encodeStep (data : List UInt8) (acc : List UInt8 × List UInt8) (i : Nat) :
    List UInt8 × List UInt8 :=
  let b := data.getD i 0
  if b ≠ 0 then (acc.1.modify (i / 8) (· ||| 1 <<< UInt8.ofNat (7 - i % 8)), acc.2 ++ [b])
  else acc

/-- The loop of `bitsetEncodeBytes` over the bytes of `data`: the bitset of its non-zero bytes,
most significant bit first, and those bytes in order. -/
def encodeLoop (data : List UInt8) : List UInt8 × List UInt8 :=
  (List.range data.length).foldl (encodeStep data) (List.replicate ((data.length + 7) / 8) 0, [])

/-- The loop over the first `k` bytes: the bitset keeps its length, has the bits of the non-zero
bytes among them set, and the kept bytes are those bytes. -/
theorem foldl_encodeStep (data : List UInt8) :
    ∀ k ≤ data.length,
      let r := (List.range k).foldl (encodeStep data)
        (List.replicate ((data.length + 7) / 8) 0, [])
      r.1.length = (data.length + 7) / 8 ∧
        (∀ j, ByteBits.get r.1 j = decide (j < k ∧ data.getD j 0 ≠ 0)) ∧
        r.2 = (data.take k).filter (· != 0) := by
  intro k
  induction k with
  | zero =>
    intro _
    refine ⟨List.length_replicate, fun j => ?_, rfl⟩
    simp [ByteBits.get_replicate]
  | succ k ih =>
    intro hk
    obtain ⟨hlen, hbits, hbytes⟩ := ih (by omega)
    rw [List.range_succ, List.foldl_append, List.foldl_cons, List.foldl_nil]
    have htake : data.take (k + 1) = data.take k ++ [data.getD k 0] := by
      rw [List.take_add_one, List.getElem?_eq_getElem (by omega),
        List.getD_eq_getElem _ _ (by omega)]
      rfl
    generalize (List.range k).foldl (encodeStep data) _ = r at hlen hbits hbytes
    unfold encodeStep
    dsimp only
    split
    · next hb =>
      refine ⟨by rw [List.length_modify, hlen], fun j => ?_, ?_⟩
      · -- the new bit is bit `k`, which lies in the bitset
        rw [ByteBits.get_modify_or, hbits, hlen, Bool.eq_iff_iff]
        simp only [Bool.or_eq_true, decide_eq_true_eq]
        constructor
        · rintro (⟨hj, hne⟩ | ⟨rfl, -⟩)
          · exact ⟨by omega, hne⟩
          · exact ⟨by omega, hb⟩
        · rintro ⟨hj, hne⟩
          by_cases hjk : j = k
          · exact .inr ⟨hjk, by omega⟩
          · exact .inl ⟨by omega, hne⟩
      · rw [hbytes, htake, List.filter_append, List.filter_cons_of_pos (by simpa using hb),
          List.filter_nil]
    · next hb =>
      have h0 : data.getD k 0 = 0 := not_not.mp hb
      refine ⟨hlen, fun j => ?_, ?_⟩
      · rw [hbits, Bool.eq_iff_iff]
        simp only [decide_eq_true_eq]
        constructor
        · exact fun h => ⟨by omega, h.2⟩
        · rintro ⟨hj, hne⟩
          by_cases hjk : j = k
          · subst hjk
            exact absurd h0 hne
          · exact ⟨by omega, hne⟩
      · rw [hbytes, htake, List.filter_append, h0]
        simp

@[simp] theorem length_encodeLoop_fst (data : List UInt8) :
    (encodeLoop data).1.length = (data.length + 7) / 8 :=
  (foldl_encodeStep data data.length le_rfl).1

/-- Bit `j` of the bitset is set exactly when byte `j` is not zero. -/
theorem get_encodeLoop_fst (data : List UInt8) (j : Nat) :
    ByteBits.get (encodeLoop data).1 j = decide (j < data.length ∧ data.getD j 0 ≠ 0) :=
  (foldl_encodeStep data data.length le_rfl).2.1 j

theorem encodeLoop_snd (data : List UInt8) : (encodeLoop data).2 = data.filter (· != 0) := by
  rw [encodeLoop, (foldl_encodeStep data data.length le_rfl).2.2, List.take_length]

/-- `bitsetEncodeBytes`. -/
def bitsetEncodeBytes : List UInt8 → List UInt8
  | [] => []
  | [b] => if b = 0 then [] else [b]
  | b₀ :: b₁ :: rest =>
    let r := encodeLoop (b₀ :: b₁ :: rest)
    if r.2.length = 0 then [] else bitsetEncodeBytes r.1 ++ r.2
termination_by data => data.length
decreasing_by
  simp only [length_encodeLoop_fst, List.length_cons]
  omega

/-- `CompressBytes`: the encoding when it is shorter than the input, a copy of the input
otherwise. -/
def compressBytes (data : List UInt8) : List UInt8 :=
  let out := bitsetEncodeBytes data
  if out.length < data.length then out else data

/-- One round of the loop of `bitsetDecodePartialBytes`, at position `i` with the output so far
and the read pointer `ptr`. -/
def decodeStep (data nonZeroBitset : List UInt8) (st : List UInt8 × Nat) (i : Nat) :
    Except CompressError (List UInt8 × Nat) := do
  let mask ← index nonZeroBitset (i / 8)
  if mask &&& 1 <<< UInt8.ofNat (7 - i % 8) ≠ 0 then
    if st.2 ≥ data.length then throw .missingData
    else if i ≥ st.1.length then throw .exceededTarget
    else
      let b ← index data st.2
      if b = 0 then throw .zeroContent
      else
        let decomp ← setIndex st.1 i b
        pure (decomp, st.2 + 1)
  else pure st

/-- `bitsetDecodePartialBytes`: the output and the number of input bytes it used. The target is
a length: its only caller passes one above the length of the input. -/
def bitsetDecodePartialBytes (data : List UInt8) (target : Nat) :
    Except CompressError (List UInt8 × Nat) :=
  if target = 0 then pure ([], 0)
  else
    let decomp := List.replicate target 0
    if data.length = 0 then pure (decomp, 0)
    else if target = 1 then do
      let b ← index data 0
      let decomp ← setIndex decomp 0 b
      if b ≠ 0 then pure (decomp, 1) else pure (decomp, 0)
    else do
      let (nonZeroBitset, ptr) ← bitsetDecodePartialBytes data ((target + 7) / 8)
      (List.range (8 * nonZeroBitset.length)).foldlM (decodeStep data nonZeroBitset) (decomp, ptr)
termination_by target
decreasing_by omega

/-- `bitsetDecodeBytes`: the decoding, which must use the whole input. -/
def bitsetDecodeBytes (data : List UInt8) (target : Nat) : Except CompressError (List UInt8) := do
  let (out, size) ← bitsetDecodePartialBytes data target
  if size ≠ data.length then throw .unreferencedData
  else pure out

/-- `DecompressBytes`: a copy of an input of the target length, the decoding of a shorter one. -/
def decompressBytes (data : List UInt8) (target : Int) : Except CompressError (List UInt8) :=
  if (data.length : Int) > target then throw .exceededTarget
  else if (data.length : Int) = target then pure data
  else bitsetDecodeBytes data target.toNat

/-! ## Reads and writes in range -/

theorem index_of_getElem? {b : List UInt8} {i : Nat} {x : UInt8} (h : b[i]? = some x) :
    index b i = .ok x := by
  rw [index, h]
  rfl

theorem index_of_lt {b : List UInt8} {i : Nat} (h : i < b.length) : index b i = .ok b[i] :=
  index_of_getElem? (List.getElem?_eq_getElem h)

theorem setIndex_of_lt {b : List UInt8} {i : Nat} (x : UInt8) (h : i < b.length) :
    setIndex b i x = .ok (b.set i x) := by
  rw [setIndex, if_pos h]
  rfl

/-- The test of the decoding loop reads bit `i` of the bitset. -/
theorem mask_ne_zero_iff (bs : List UInt8) {i : Nat} (h : i / 8 < bs.length) :
    bs[i / 8] &&& 1 <<< UInt8.ofNat (7 - i % 8) ≠ 0 ↔ ByteBits.get bs i = true := by
  rw [ByteBits.and_one_shiftLeft_ne_zero _ (by omega), ByteBits.get, List.getD_eq_getElem _ _ h]

/-! ## The decoder never panics -/

/-- The errors the decoder reports on malformed input. -/
def IsDecodeError (e : CompressError) : Prop :=
  e = .missingData ∨ e = .exceededTarget ∨ e = .zeroContent

/-- A round of the decoding loop keeps the length of the output and a pointer into the input, or
reports a decoding error. -/
theorem decodeStep_ends (data bs : List UInt8) {n : Nat} (st : List UInt8 × Nat) {i : Nat}
    (hi : i / 8 < bs.length) (hst : st.1.length = n ∧ st.2 ≤ data.length) :
    Except.Ends IsDecodeError (fun st' => st'.1.length = n ∧ st'.2 ≤ data.length)
      (decodeStep data bs st i) := by
  rw [decodeStep, index_of_lt hi, Except.ok_bind]
  refine Except.Ends.ite (fun _ => ?_) (fun _ => hst)
  apply Except.Ends.ite (fun _ => Except.Ends.throw (.inl rfl))
  intro hptr
  apply Except.Ends.ite (fun _ => Except.Ends.throw (.inr (.inl rfl)))
  intro hlen
  rw [index_of_lt (by omega), Except.ok_bind]
  apply Except.Ends.ite (fun _ => Except.Ends.throw (.inr (.inr rfl)))
  intro _
  rw [setIndex_of_lt _ (by omega), Except.ok_bind]
  exact ⟨by rw [List.length_set, hst.1], by omega⟩

/-- `bitsetDecodePartialBytes` returns an output of the target length and a pointer into the
input, or reports one of its three errors: it never indexes out of range. -/
theorem bitsetDecodePartialBytes_ends (data : List UInt8) (target : Nat) :
    Except.Ends IsDecodeError (fun r => r.1.length = target ∧ r.2 ≤ data.length)
      (bitsetDecodePartialBytes data target) := by
  induction target using bitsetDecodePartialBytes.induct data with
  | case1 =>
    rw [bitsetDecodePartialBytes]
    exact ⟨rfl, Nat.zero_le _⟩
  | case2 target h0 hdata =>
    rw [bitsetDecodePartialBytes, if_neg h0]
    dsimp only
    rw [if_pos hdata]
    exact ⟨List.length_replicate, Nat.zero_le _⟩
  | case3 hdata _ =>
    rw [bitsetDecodePartialBytes, if_neg one_ne_zero]
    dsimp only
    rw [if_neg hdata, if_pos rfl, index_of_lt (by omega), Except.ok_bind,
      setIndex_of_lt _ (by rw [List.length_replicate]; omega), Except.ok_bind]
    apply Except.Ends.ite <;> intro _ <;> exact ⟨by simp, by omega⟩
  | case4 target h0 hdata h1 ih =>
    rw [bitsetDecodePartialBytes, if_neg h0]
    dsimp only
    rw [if_neg hdata, if_neg h1]
    apply Except.Ends.bind ih
    rintro ⟨bs, ptr⟩ ⟨-, hptr⟩
    dsimp only
    -- the loop runs over the bits of the decoded bitset, so every byte it tests is in range
    apply Except.Ends.foldlM _ ⟨List.length_replicate, hptr⟩
    intro st hst i hi
    exact decodeStep_ends data bs st (by rw [List.mem_range] at hi; omega) hst

/-! ## The decoder inverts the encoder -/

/-- The output of the decoding loop of a string `d` after position `k`: the bytes of `d` before
`k`, zeros from `k` on. -/
def decodedPrefix (d : List UInt8) (k : Nat) : List UInt8 :=
  d.take k ++ List.replicate (d.length - k) 0

@[simp] theorem length_decodedPrefix (d : List UInt8) (k : Nat) :
    (decodedPrefix d k).length = d.length := by
  rw [decodedPrefix, List.length_append, List.length_take, List.length_replicate]
  omega

theorem decodedPrefix_zero (d : List UInt8) : decodedPrefix d 0 = List.replicate d.length 0 := by
  rw [decodedPrefix, List.take_zero, List.nil_append, Nat.sub_zero]

theorem decodedPrefix_of_le {d : List UInt8} {k : Nat} (h : d.length ≤ k) : decodedPrefix d k = d := by
  rw [decodedPrefix, List.take_of_length_le h, Nat.sub_eq_zero_of_le h, List.replicate_zero,
    List.append_nil]

theorem take_add_one_of_lt {d : List UInt8} {k : Nat} (hk : k < d.length) :
    d.take (k + 1) = d.take k ++ [d[k]] := by
  rw [List.take_add_one, List.getElem?_eq_getElem hk]
  rfl

/-- Placing byte `k` at its position extends the prefix by one. -/
theorem set_decodedPrefix {d : List UInt8} {k : Nat} (hk : k < d.length) :
    (decodedPrefix d k).set k d[k] = decodedPrefix d (k + 1) := by
  have hrep : d.length - k = d.length - (k + 1) + 1 := by omega
  rw [decodedPrefix, decodedPrefix, hrep, List.replicate_succ,
    List.set_append_right _ _ (by rw [List.length_take]; omega), List.length_take,
    show k - min k d.length = 0 by omega, List.set_cons_zero, take_add_one_of_lt hk,
    List.append_assoc, List.singleton_append]

/-- A zero byte is already in place. -/
theorem decodedPrefix_succ_of_eq_zero {d : List UInt8} {k : Nat} (hk : k < d.length)
    (h0 : d[k] = 0) : decodedPrefix d (k + 1) = decodedPrefix d k := by
  rw [← set_decodedPrefix hk, h0, decodedPrefix, List.set_append_right _ _ (by
      rw [List.length_take]; omega), List.length_take, show k - min k d.length = 0 by omega,
    show d.length - k = d.length - (k + 1) + 1 by omega, List.replicate_succ, List.set_cons_zero]

/-- The non-zero bytes from position `k` on, when byte `k` is not zero: that byte first. -/
theorem filter_eq_of_ne_zero {d : List UInt8} {k : Nat} (hk : k < d.length) (hne : d[k] ≠ 0) :
    d.filter (· != 0) = (d.take k).filter (· != 0) ++ d[k] :: (d.drop (k + 1)).filter (· != 0) := by
  rw [← List.filter_cons_of_pos (by simpa using hne), ← List.drop_eq_getElem_cons hk,
    ← List.filter_append, List.take_append_drop]

/-- The byte the decoder reads for position `k` of `d`, behind a prefix `pre` of the input. -/
theorem getElem?_decodeInput (pre rest d : List UInt8) {k : Nat} (hk : k < d.length)
    (hne : d[k] ≠ 0) :
    (pre ++ d.filter (· != 0) ++ rest)[pre.length + ((d.take k).filter (· != 0)).length]? =
      some d[k] := by
  rw [filter_eq_of_ne_zero hk hne, List.append_assoc, List.getElem?_append_right (by omega),
    Nat.add_sub_cancel_left, List.append_assoc, List.getElem?_append_right le_rfl, Nat.sub_self,
    List.cons_append, List.getElem?_cons_zero]

section
variable (pre rest d bs : List UInt8)
  (hbits : ∀ j, ByteBits.get bs j = decide (j < d.length ∧ d.getD j 0 ≠ 0))
include hbits

/-- A round of the decoding loop over the bitset of `d` places byte `k` of `d`, and reads the
next input byte exactly when that byte is not zero. -/
theorem decodeStep_decodedPrefix {k : Nat} (hk : k / 8 < bs.length) :
    decodeStep (pre ++ d.filter (· != 0) ++ rest) bs
        (decodedPrefix d k, pre.length + ((d.take k).filter (· != 0)).length) k =
      .ok (decodedPrefix d (k + 1), pre.length + ((d.take (k + 1)).filter (· != 0)).length) := by
  rw [decodeStep, index_of_lt hk, Except.ok_bind]
  dsimp only
  by_cases hset : ByteBits.get bs k = true
  · -- byte `k` is not zero: it is the next byte of the input
    obtain ⟨hkd, hne⟩ : k < d.length ∧ d.getD k 0 ≠ 0 := by simpa [hbits k] using hset
    rw [List.getD_eq_getElem _ _ hkd] at hne
    have hread := getElem?_decodeInput pre rest d hkd hne
    have hptr := (List.getElem?_eq_some_iff.mp hread).1
    rw [if_pos ((mask_ne_zero_iff bs hk).mpr hset), if_neg (by omega),
      if_neg (by rw [length_decodedPrefix]; omega), index_of_getElem? hread, Except.ok_bind,
      if_neg hne, setIndex_of_lt _ (by rw [length_decodedPrefix]; omega), Except.ok_bind,
      set_decodedPrefix hkd, take_add_one_of_lt hkd, List.filter_append,
      List.filter_cons_of_pos (by simpa using hne), List.filter_nil, List.length_append,
      List.length_singleton, Nat.add_assoc]
    rfl
  · rw [if_neg (by rwa [mask_ne_zero_iff bs hk])]
    by_cases hkd : k < d.length
    · -- byte `k` is zero, and already in place
      have h0 : d[k] = 0 := by
        by_contra hne
        exact hset (by rw [hbits k, List.getD_eq_getElem _ _ hkd]; simpa [hkd] using hne)
      have hz : [(0 : UInt8)].filter (· != 0) = [] := rfl
      rw [decodedPrefix_succ_of_eq_zero hkd h0, take_add_one_of_lt hkd, List.filter_append, h0, hz,
        List.append_nil]
      rfl
    · -- past the end of `d`
      rw [decodedPrefix_of_le (by omega), decodedPrefix_of_le (by omega),
        List.take_of_length_le (by omega), List.take_of_length_le (by omega)]
      rfl

/-- The decoding loop over the first `k` bits of the bitset of `d`. -/
theorem foldlM_decodeStep :
    ∀ k ≤ 8 * bs.length,
      (List.range k).foldlM (decodeStep (pre ++ d.filter (· != 0) ++ rest) bs)
          (List.replicate d.length 0, pre.length) =
        .ok (decodedPrefix d k, pre.length + ((d.take k).filter (· != 0)).length) := by
  intro k
  induction k with
  | zero =>
    intro _
    rw [decodedPrefix_zero]
    rfl
  | succ k ih =>
    intro hk
    rw [List.range_succ, List.foldlM_append, ih (by omega), Except.ok_bind, List.foldlM_cons,
      decodeStep_decodedPrefix pre rest d bs hbits (by omega), Except.ok_bind]
    rfl

end

/-- A string with a non-zero byte has a bitset with a non-zero byte. -/
theorem exists_ne_zero_encodeLoop_fst {d : List UInt8} (hd : ∃ x ∈ d, x ≠ 0) :
    ∃ x ∈ (encodeLoop d).1, x ≠ 0 := by
  obtain ⟨x, hx, hne⟩ := hd
  obtain ⟨k, hk, rfl⟩ := List.getElem_of_mem hx
  have hbit : ByteBits.get (encodeLoop d).1 k = true := by
    rw [get_encodeLoop_fst, List.getD_eq_getElem _ _ hk]
    simpa [hk] using hne
  simpa using (ByteBits.any_ne_zero_iff _).mpr ⟨k, hbit⟩

/-- A string of zero bytes encodes to nothing. -/
theorem bitsetEncodeBytes_eq_nil : ∀ {d : List UInt8}, (∀ x ∈ d, x = 0) → bitsetEncodeBytes d = []
  | [], _ => by rw [bitsetEncodeBytes]
  | [b], hd => by rw [bitsetEncodeBytes, if_pos (hd b (List.mem_singleton_self b))]
  | b₀ :: b₁ :: t, hd => by
    rw [bitsetEncodeBytes, if_pos]
    rw [encodeLoop_snd, List.length_eq_zero_iff, List.filter_eq_nil_iff]
    intro x hx
    simp [hd x hx]

/-- The decoder inverts the encoder one level of the recursion at a time, whatever follows the
encoding in the input: it returns the string and the length of its encoding. -/
theorem bitsetDecodePartialBytes_encode (d : List UInt8) :
    (∃ x ∈ d, x ≠ 0) → ∀ rest, bitsetDecodePartialBytes (bitsetEncodeBytes d ++ rest) d.length =
      .ok (d, (bitsetEncodeBytes d).length) := by
  induction d using bitsetEncodeBytes.induct with
  | case1 =>
    rintro ⟨x, hx, -⟩
    cases hx
  | case2 =>
    rintro ⟨x, hx, hne⟩
    exact absurd (List.mem_singleton.mp hx) hne
  | case3 b hb =>
    intro _ rest
    rw [bitsetEncodeBytes, if_neg hb, bitsetDecodePartialBytes, List.length_singleton,
      if_neg one_ne_zero]
    dsimp only
    rw [if_neg (by simp), if_pos rfl, List.singleton_append, index_of_lt (by simp), Except.ok_bind,
      setIndex_of_lt _ (by simp), Except.ok_bind, List.getElem_cons_zero, if_pos hb]
    rfl
  | case4 b₀ b₁ t r hr =>
    intro hd
    obtain ⟨x, hx, hne⟩ := hd
    change (encodeLoop (b₀ :: b₁ :: t)).2.length = 0 at hr
    rw [encodeLoop_snd, List.length_eq_zero_iff, List.filter_eq_nil_iff] at hr
    exact absurd (by simpa using hr x hx) hne
  | case5 b₀ b₁ t r hr ih =>
    change ¬(encodeLoop (b₀ :: b₁ :: t)).2.length = 0 at hr
    intro hd rest
    have hbs := ih (exists_ne_zero_encodeLoop_fst hd) ((encodeLoop (b₀ :: b₁ :: t)).2 ++ rest)
    rw [bitsetEncodeBytes, if_neg hr, bitsetDecodePartialBytes, if_neg (by simp)]
    dsimp only
    rw [if_neg (by rw [List.length_append, List.length_append]; omega), if_neg (by simp),
      List.append_assoc,
      ← length_encodeLoop_fst, hbs, Except.ok_bind]
    dsimp only
    -- the bitset decoded, the loop places the non-zero bytes that follow it
    rw [← List.append_assoc, encodeLoop_snd, foldlM_decodeStep _ rest _ _ (get_encodeLoop_fst _) _
      le_rfl, decodedPrefix_of_le (by rw [length_encodeLoop_fst]; omega),
      List.take_of_length_le (by rw [length_encodeLoop_fst]; omega), List.length_append]

/-- `DecompressBytes` inverts `CompressBytes`. -/
theorem decompressBytes_compressBytes (d : List UInt8) :
    decompressBytes (compressBytes d) d.length = .ok d := by
  rw [compressBytes]
  split
  · next hlt =>
    rw [decompressBytes, if_neg (by omega), if_neg (by omega), bitsetDecodeBytes, Int.toNat_natCast]
    by_cases hd : ∃ x ∈ d, x ≠ 0
    · have hdec := bitsetDecodePartialBytes_encode d hd []
      rw [List.append_nil] at hdec
      rw [hdec, Except.ok_bind]
      dsimp only
      rw [if_neg (not_not.mpr rfl)]
      rfl
    · -- a string of zero bytes: its encoding is empty, and decodes to zeros
      simp only [not_exists, not_and, not_not] at hd
      rw [bitsetEncodeBytes_eq_nil hd, List.length_nil] at hlt ⊢
      rw [bitsetDecodePartialBytes, if_neg (by omega)]
      dsimp only
      rw [if_pos List.length_nil, pure_bind]
      dsimp only
      have hrep : List.replicate d.length 0 = d := (List.eq_replicate_iff.mpr ⟨rfl, hd⟩).symm
      rw [if_neg (not_not.mpr rfl), hrep]
      rfl
  · rw [decompressBytes, if_neg (lt_irrefl _), if_pos rfl]
    rfl

/-- Sparse bitset compression round-trips, and its decoder is safe: `DecompressBytes` of
`CompressBytes(d)` at `len(d)` is `d`, and on any input and target `bitsetDecodePartialBytes`
returns an output of the target length with a pointer within the input, or reports
`errMissingData`, `errExceededTarget` or `errZeroContent`; it never indexes out of range. -/
theorem sparse_bitset_codec_round_trip :
    (∀ d : List UInt8, decompressBytes (compressBytes d) d.length = .ok d) ∧
      ∀ (data : List UInt8) (target : Nat),
        (∀ out ptr, bitsetDecodePartialBytes data target = .ok (out, ptr) →
          out.length = target ∧ ptr ≤ data.length) ∧
        ∀ e, bitsetDecodePartialBytes data target = .error e →
          e = .missingData ∨ e = .exceededTarget ∨ e = .zeroContent :=
  ⟨decompressBytes_compressBytes, fun data target =>
    ⟨fun _ _ h => (bitsetDecodePartialBytes_ends data target).of_eq_ok h,
      fun _ h => (bitsetDecodePartialBytes_ends data target).of_eq_error h⟩⟩

end GoGaia.Bitutil
