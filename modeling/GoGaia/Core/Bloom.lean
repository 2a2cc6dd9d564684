import Mathlib
import GoGaia.Lib.BigEndian

/-!
# Header log blooms

`core/types/bloom9.go`. A block's header carries a 2048-bit bloom of its logs (`Bloom`, 256
bytes): `CreateBloom` ors together, for every log of every receipt, the value of `bloom9` of the
log's address and of each of its topics, and stores the number big-endian in the bloom's bytes.
`bloom9` sets three bits, each read from two bytes of the Keccak hash of the key and masked to
eleven bits. `BloomLookup` tests whether all three bits of a key are set.

The bits of a bloom are those of its number (`Bloom.big`): bit `i` is bit `i % 8` of the byte
`255 - i / 8` (`testBit_big`). A lookup reads exactly the three bits of the key
(`bloomLookup_iff`), and it never misses a key that was added: a bloom made by `CreateBloom` has
every bit of the address and the topics of each log of its receipts (`bloomLookup_createBloom`).
Keccak-256 is a parameter of the model; a log is its address and its topics, and a receipt is its
logs, the only fields the bloom reads.
-/

namespace GoGaia.Core

/-- `BloomByteLength`. -/
def bloomByteLength : Nat := 256

/-- `BloomBitLength`. -/
def bloomBitLength : Nat := 8 * bloomByteLength

/-- `Bloom`: a 2048-bit bloom filter, the byte array `[BloomByteLength]byte`. -/
structure Bloom where
  bytes : List UInt8
  length_bytes : bytes.length = bloomByteLength
deriving DecidableEq

/-- `Big`: the bloom as a number, its bytes read big-endian. -/
def Bloom.big (b : Bloom) : Nat := BigEndian.value b.bytes

/-- The zero bloom, `Bloom{}`. -/
def zeroBloom : Bloom := ⟨List.replicate bloomByteLength 0, List.length_replicate⟩

/-- `BytesToBloom`, which calls `SetBytes` on a zero bloom: `d` is copied into the low bytes.
`none` is the panic `bloom bytes too big` of a `d` longer than a bloom. -/
def bytesToBloom (d : List UInt8) : Option Bloom :=
  if h : bloomByteLength < d.length then none
  else some ⟨List.replicate (bloomByteLength - d.length) 0 ++ d, by
    simp only [List.length_append, List.length_replicate]
    omega⟩

/-- `(*big.Int).Bytes` of a number: its shortest big-endian form, empty for zero. -/
def bigBytes (n : Nat) : List UInt8 :=
  if n = 0 then [] else BigEndian.bytes (BigEndian.minLen n) n

/-- `bloom9`: the number with the three bits of the key `b` set, bit `k` for each pair of bytes
`h[i], h[i + 1]` (`i = 0, 2, 4`) of the Keccak hash `h` of `b`, `k` their big-endian value masked
to eleven bits. -/
def bloom9 (keccak : List UInt8 → List UInt8) (b : List UInt8) : Nat :=
  let h := keccak b
  [0, 2, 4].foldl
    (fun r i => r ||| 1 <<< (((h.getD (i + 1) 0).toNat + ((h.getD i 0).toNat <<< 8)) &&& 2047)) 0

/-- `BloomLookup`: whether the bloom has every bit of `bloom9` of the topic's bytes. -/
def bloomLookup (keccak : List UInt8 → List UInt8) (bin : Bloom) (topic : List UInt8) : Bool :=
  let cmp := bloom9 keccak topic
  bin.big &&& cmp == cmp

/-- `types.Log`, as the bloom reads it. -/
structure Log where
  address : List UInt8
  topics : List (List UInt8)
deriving DecidableEq, Repr

/-- `types.Receipt`, as the bloom reads it. -/
structure Receipt where
  logs : List Log
deriving DecidableEq, Repr

/-- `LogsBloom`: the or of `bloom9` of the address and of each topic of every log. -/
def logsBloom (keccak : List UInt8 → List UInt8) (logs : List Log) : Nat :=
  logs.foldl (fun bin log =>
    log.topics.foldl (fun bin b => bin ||| bloom9 keccak b) (bin ||| bloom9 keccak log.address)) 0

/-- `CreateBloom`: the or of the logs' blooms of every receipt, stored in a bloom. -/
def createBloom (keccak : List UInt8 → List UInt8) (receipts : List Receipt) : Option Bloom :=
  bytesToBloom (bigBytes (receipts.foldl (fun bin receipt => bin ||| logsBloom keccak receipt.logs) 0))

/-! ## Numbers as sets of bits -/

/-- The bits of an or over a list: those of the start and those of every element. -/
theorem testBit_foldl_or {α : Type} (f : α → Nat) (l : List α) (a j : Nat) :
    (l.foldl (fun r x => r ||| f x) a).testBit j = (a.testBit j || l.any fun x => (f x).testBit j) := by
  induction l generalizing a with
  | nil => simp
  | cons x xs ih =>
    rw [List.foldl_cons, ih, Nat.testBit_or, List.any_cons, Bool.or_assoc]

/-- `y` is a subset of `x`, as bit sets, exactly when `x &&& y = y`. -/
theorem and_eq_right_iff (x y : Nat) :
    x &&& y = y ↔ ∀ j, y.testBit j = true → x.testBit j = true := by
  constructor
  · intro h j hy
    have := congrArg (Nat.testBit · j) h
    simp only [Nat.testBit_and, hy, Bool.and_true] at this
    exact this
  · intro h
    apply Nat.eq_of_testBit_eq
    intro j
    rw [Nat.testBit_and]
    cases hy : y.testBit j with
    | false => simp
    | true => simp [h j hy]

theorem foldl_or_lt_two_pow {α : Type} (f : α → Nat) (l : List α) {a n : Nat} (ha : a < 2 ^ n)
    (hf : ∀ x ∈ l, f x < 2 ^ n) : l.foldl (fun r x => r ||| f x) a < 2 ^ n := by
  induction l generalizing a with
  | nil => exact ha
  | cons x xs ih =>
    exact ih (Nat.or_lt_two_pow ha (hf x (by simp))) (fun y hy => hf y (List.mem_cons_of_mem _ hy))

/-! ## The bits of a bloom -/

/-- Bit `i` of a bloom is bit `i % 8` of its byte `255 - i / 8`. -/
theorem testBit_big (bl : Bloom) {i : Nat} (hi : i < bloomBitLength) :
    bl.big.testBit i = (bl.bytes.getD (bloomByteLength - 1 - i / 8) 0).toNat.testBit (i % 8) := by
  have hlen : i / 8 < bloomByteLength := by
    simp only [bloomBitLength, bloomByteLength] at hi ⊢
    omega
  rw [Bloom.big, BigEndian.testBit_value, bl.length_bytes, decide_eq_true hlen, Bool.true_and]

/-- The eleven-bit index that `bloom9` reads from the bytes `h[i], h[i + 1]`. -/
theorem bloom9_index_lt (h : List UInt8) (i : Nat) :
    ((h.getD (i + 1) 0).toNat + ((h.getD i 0).toNat <<< 8)) &&& 2047 < bloomBitLength :=
  Nat.lt_of_le_of_lt Nat.and_le_right (by decide)

/-- The bits of `bloom9`: the three indexes read from the hash of the key. -/
theorem testBit_bloom9 (keccak : List UInt8 → List UInt8) (b : List UInt8) (j : Nat) :
    (bloom9 keccak b).testBit j = ([0, 2, 4].any fun i =>
      decide ((((keccak b).getD (i + 1) 0).toNat + (((keccak b).getD i 0).toNat <<< 8)) &&& 2047 = j)) := by
  rw [bloom9, testBit_foldl_or]
  simp [Nat.one_shiftLeft, Nat.testBit_two_pow]

theorem bloom9_lt (keccak : List UInt8 → List UInt8) (b : List UInt8) :
    bloom9 keccak b < 2 ^ bloomBitLength := by
  apply foldl_or_lt_two_pow _ _ (Nat.two_pow_pos _)
  intro i _
  rw [Nat.one_shiftLeft]
  exact Nat.pow_lt_pow_right (by decide) (bloom9_index_lt _ i)

/-- A lookup tests exactly the bits of the key's `bloom9`. -/
theorem bloomLookup_iff (keccak : List UInt8 → List UInt8) (bin : Bloom) (topic : List UInt8) :
    bloomLookup keccak bin topic = true ↔
      ∀ j, (bloom9 keccak topic).testBit j = true → bin.big.testBit j = true := by
  rw [bloomLookup, beq_iff_eq, and_eq_right_iff]

/-! ## Blooms of logs -/

/-- The bits of a logs bloom: those of `bloom9` of the address or of a topic of some log. -/
theorem testBit_logsBloom (keccak : List UInt8 → List UInt8) (logs : List Log) (j : Nat) :
    (logsBloom keccak logs).testBit j =
      logs.any fun log => (log.address :: log.topics).any fun d => (bloom9 keccak d).testBit j := by
  -- the fold over the logs carries any start value, so generalise it
  suffices h : ∀ a : Nat, (logs.foldl (fun bin (log : Log) =>
      log.topics.foldl (fun bin b => bin ||| bloom9 keccak b) (bin ||| bloom9 keccak log.address))
      a).testBit j =
      (a.testBit j || logs.any fun log =>
        (log.address :: log.topics).any fun d => (bloom9 keccak d).testBit j) by
    rw [logsBloom, h]
    simp
  induction logs with
  | nil => simp
  | cons log logs ih =>
    intro a
    rw [List.foldl_cons, ih, testBit_foldl_or, Nat.testBit_or, List.any_cons, List.any_cons]
    simp only [Bool.or_assoc]

theorem logsBloom_lt (keccak : List UInt8 → List UInt8) (logs : List Log) :
    logsBloom keccak logs < 2 ^ bloomBitLength := by
  suffices h : ∀ a : Nat, a < 2 ^ bloomBitLength →
      logs.foldl (fun bin (log : Log) => log.topics.foldl (fun bin b => bin ||| bloom9 keccak b)
        (bin ||| bloom9 keccak log.address)) a < 2 ^ bloomBitLength from h 0 (Nat.two_pow_pos _)
  induction logs with
  | nil => exact fun a ha => ha
  | cons log logs ih =>
    intro a ha
    exact ih _ (foldl_or_lt_two_pow _ _ (Nat.or_lt_two_pow ha (bloom9_lt _ _))
      (fun b _ => bloom9_lt _ b))

/-- A number below `2 ^ 2048` stored by `BytesToBloom` is the number of the bloom. -/
theorem bytesToBloom_bigBytes {n : Nat} (hn : n < 2 ^ bloomBitLength) :
    ∃ bl, bytesToBloom (bigBytes n) = some bl ∧ bl.big = n := by
  by_cases h0 : n = 0
  · subst h0
    refine ⟨_, dif_neg (by simp [bigBytes]), ?_⟩
    rw [Bloom.big, BigEndian.value_replicate_zero_append]
    rfl
  · have hpow : 2 ^ bloomBitLength = 256 ^ bloomByteLength := by
      rw [bloomBitLength, pow_mul]
      norm_num
    have hlen : (bigBytes n).length ≤ bloomByteLength := by
      rw [bigBytes, if_neg h0, BigEndian.length_bytes, BigEndian.minLen_le_iff (by decide), ← hpow]
      exact hn
    refine ⟨_, dif_neg (by omega), ?_⟩
    rw [Bloom.big, BigEndian.value_replicate_zero_append, bigBytes, if_neg h0,
      BigEndian.value_bytes, Nat.mod_eq_of_lt (BigEndian.lt_pow_minLen n)]

/-- `CreateBloom` never panics, and the bloom's number is the or of the logs' blooms. -/
theorem createBloom_eq (keccak : List UInt8 → List UInt8) (receipts : List Receipt) :
    ∃ bl, createBloom keccak receipts = some bl ∧
      bl.big = receipts.foldl (fun bin receipt => bin ||| logsBloom keccak receipt.logs) 0 :=
  bytesToBloom_bigBytes
    (foldl_or_lt_two_pow _ _ (Nat.two_pow_pos _) (fun r _ => logsBloom_lt keccak r.logs))

/-- A bloom made by `CreateBloom` has the address and every topic of each log of its receipts:
`BloomLookup` has no false negatives. -/
theorem bloomLookup_createBloom (keccak : List UInt8 → List UInt8) {receipts : List Receipt}
    {bl : Bloom} (hbl : createBloom keccak receipts = some bl) {receipt : Receipt}
    (hr : receipt ∈ receipts) {log : Log} (hlog : log ∈ receipt.logs) {d : List UInt8}
    (hd : d ∈ log.address :: log.topics) : bloomLookup keccak bl d = true := by
  obtain ⟨bl', hbl', hbig⟩ := createBloom_eq keccak receipts
  rw [hbl] at hbl'
  cases hbl'
  rw [bloomLookup_iff]
  intro j hj
  rw [hbig, testBit_foldl_or, List.any_eq_true.mpr ⟨receipt, hr, ?_⟩, Bool.or_true]
  rw [testBit_logsBloom, List.any_eq_true]
  exact ⟨log, hlog, List.any_eq_true.mpr ⟨d, hd, hj⟩⟩

end GoGaia.Core
