import Mathlib
import GoGaia.Lib.EState
import GoGaia.Rlp.Item

/-!
# Transaction signatures

`core/types/transaction_signing.go`. A `Signer` turns a 65-byte `[R || S || V]` signature, `V`
the recovery id 0 or 1, into the values a transaction stores (`SignatureValues`), and recovers
the sender's address from them (`Sender`). `EIP155Signer` folds its chain id into the stored `V`
as `recid + 35 + 2 * chainId`; a transaction reads it back with `Protected` (`isProtectedV`,
which takes `27` and `28` for homestead values) and `ChainId` (`deriveChainId`, with a 64-bit
path and a big-integer path), and `Sender` hands `V - 2 * chainId - 8`, that is `27 + recid`,
to `recoverPlain`, which takes homestead values.

The curve and the hash of `crypto` are parameters (`Crypto`); `Crypto.Lawful` is what the
library provides: `Keccak256` has 32 bytes, `Sign` writes a signature whose values
`ValidateSignatureValues` accepts with the homestead rule, and `Ecrecover` returns the signer's
public key, whose first byte is `4`, from it.

Big integers are `Int` where the source can build negative ones (`V`, chain ids) and `Nat`
where it reads them with `SetBytes`. `rlpHash` is the Keccak hash of the canonical encoding
(`encItem`) of the list the signer hashes; `rlp.Encode` writes nothing when a `*big.Int` in it is
negative, so a negative chain id hashes the empty input.
-/

namespace GoGaia.Types

open GoGaia.Rlp

/-! ## Big integers and addresses -/

/-- `big.Int.BitLen`: the bit length of the absolute value. -/
def bitLen (x : Int) : Nat := x.natAbs.size

/-- `big.Int.Uint64`: the low 64 bits of the absolute value. -/
def uint64 (x : Int) : Nat := x.natAbs % 2 ^ 64

/-- `big.Int.Bytes` of a non-negative integer: its shortest big-endian form, empty for zero. -/
def bigBytes (x : Nat) : List UInt8 := if x = 0 then [] else BigEndian.bytes (BigEndian.minLen x) x

/-- `common.Address`, twenty bytes. -/
structure Address where
  bytes : List UInt8
  length_bytes : bytes.length = 20
deriving DecidableEq

/-- `copy(addr[:], b)` into a zero address: the first twenty bytes of `b`. -/
def copyAddress (b : List UInt8) : Address :=
  ⟨b.take 20 ++ List.replicate (20 - b.length) 0, by simp; omega⟩

/-- `common.BytesToAddress`: the last twenty bytes of `b`, behind zeros if it is shorter. -/
def bytesToAddress (b : List UInt8) : Address :=
  ⟨List.replicate (20 - (b.drop (b.length - 20)).length) 0 ++ b.drop (b.length - 20), by simp; omega⟩

/-! ## The primitives of `crypto` -/

/-- The primitives the signers use, over private keys of type `Key`; errors are the library's
messages. -/
structure Crypto (Key : Type) where
  /-- `crypto.Keccak256`. -/
  keccak256 : List UInt8 → List UInt8
  /-- `crypto.Sign(hash, prv)`. -/
  sign : List UInt8 → Key → Except String (List UInt8)
  /-- `crypto.Ecrecover(hash, sig)`: the uncompressed public key. -/
  ecrecover : List UInt8 → List UInt8 → Except String (List UInt8)
  /-- `crypto.FromECDSAPub(&prv.PublicKey)`. -/
  pubkey : Key → List UInt8

/-- `secp256k1_N`, the order of the curve. -/
def secp256k1N : Nat := 0xfffffffffffffffffffffffffffffffebaaedce6af48a03bbfd25e8cd0364141

/-- `secp256k1_halfN`. -/
def secp256k1HalfN : Nat := secp256k1N / 2

/-- `crypto.ValidateSignatureValues`. -/
def validateSignatureValues (v : UInt8) (r s : Nat) (homestead : Bool) : Bool :=
  if r < 1 ∨ s < 1 then false
  -- reject upper range of s values (ECDSA malleability)
  else if homestead ∧ s > secp256k1HalfN then false
  else r < secp256k1N ∧ s < secp256k1N ∧ (v = 0 ∨ v = 1)

/-- `crypto.PubkeyToAddress`. -/
def pubkeyToAddress (c : Crypto Key) (pub : List UInt8) : Address :=
  bytesToAddress ((c.keccak256 (pub.drop 1)).drop 12)

/-- The `R` and `S` of a 65-byte signature, read with `SetBytes`. -/
def sigR (sig : List UInt8) : Nat := BigEndian.value (sig.take 32)

def sigS (sig : List UInt8) : Nat := BigEndian.value ((sig.drop 32).take 32)

/-- What the library provides: `Sign` on a 32-byte hash succeeds with a 65-byte signature whose
values pass `ValidateSignatureValues` under the homestead rule, and `Ecrecover` of it is the
signer's public key, an uncompressed point. -/
structure Crypto.Lawful (c : Crypto Key) : Prop where
  length_keccak256 : ∀ b, (c.keccak256 b).length = 32
  sign_spec : ∀ h k, h.length = 32 → ∃ sig, c.sign h k = .ok sig ∧ sig.length = 65 ∧
    validateSignatureValues (sig.getD 64 0) (sigR sig) (sigS sig) true = true ∧
    c.ecrecover h sig = .ok (c.pubkey k)
  head_pubkey : ∀ k, (c.pubkey k).head? = some 4

/-! ## Transactions -/

/-- `txdata`, the consensus fields of a transaction. `AccountNonce` is a `uint64`; `Recipient`
is nil for a contract creation. -/
structure Txdata where
  accountNonce : UInt64
  price : Nat
  gasLimit : Nat
  recipient : Option Address
  amount : Nat
  payload : List UInt8
  v : Int
  r : Nat
  s : Nat
deriving DecidableEq

/-- `isProtectedV`: anything not 27 or 28 is protected. -/
def isProtectedV (V : Int) : Bool :=
  if bitLen V ≤ 8 then
    let v := uint64 V
    v ≠ 27 ∧ v ≠ 28
  else true

/-- `deriveChainId`: the 64-bit path subtracts in `uint64`. -/
def deriveChainId (v : Int) : Int :=
  if bitLen v ≤ 64 then
    let v := uint64 v
    if v = 27 ∨ v = 28 then 0
    else (((v + 2 ^ 64 - 35) % 2 ^ 64 / 2 : Nat) : Int)
  else (v - 35) / 2

/-- `Transaction.ChainId`. -/
def Txdata.chainId (tx : Txdata) : Int := deriveChainId tx.v

/-- `Transaction.Protected`. -/
def Txdata.isProtected (tx : Txdata) : Bool := isProtectedV tx.v

/-- The three `Signer` implementations. -/
inductive Signer where
  | frontier
  | homestead
  | eip155 (chainId chainIdMul : Int)
deriving DecidableEq

/-- A transaction with the sender cache of `Sender`: the signer that recovered it, and the
address. -/
structure Transaction where
  data : Txdata
  fromCache : Option (Signer × Address)

/-! ## Signers -/

/-- The errors of the signers. `wrongSignatureSize` is the panic of
`FrontierSigner.SignatureValues`, `indexOutOfRange` the one of `recoverPlain`'s `copy` into a
32-byte half, `crypto` an error of the library. -/
inductive SigError where
  | invalidChainId
  | invalidSig
  | invalidPublicKey
  | wrongSignatureSize (got : Nat)
  | indexOutOfRange
  | crypto (msg : String)
deriving DecidableEq

/-- `NewEIP155Signer`: a nil chain id is zero. -/
def newEIP155Signer (chainId : Option Int) : Signer :=
  let chainId := chainId.getD 0
  .eip155 chainId (chainId * 2)

/-- `Signer.Equal`: the same implementation, and for `EIP155Signer` the same chain id. -/
def Signer.equal : Signer → Signer → Bool
  | .eip155 chainId _, .eip155 chainId' _ => chainId' = chainId
  | .homestead, .homestead => true
  | .frontier, .frontier => true
  | _, _ => false

/-- The string `writeBigInt` writes for a non-negative `*big.Int`, `i.Bytes()`; `writeUint`
writes the same one for an unsigned integer. -/
def bigItem (i : Nat) : Item := .bytes (bigBytes i)

/-- The string a `*common.Address` is written as: the twenty bytes, or the empty string
`makePtrWriter` writes for nil. -/
def recipientBytes : Option Address → List UInt8
  | none => []
  | some a => a.bytes

/-- `rlpHash`: the Keccak hash of what `rlp.Encode` writes, nothing if it failed. -/
def rlpHash (c : Crypto Key) (x : Option Item) : List UInt8 := c.keccak256 ((x.map encItem).getD [])

/-- The fields `FrontierSigner.Hash` hashes. -/
def frontierFields (tx : Txdata) : List Item :=
  [bigItem tx.accountNonce.toNat, bigItem tx.price, bigItem tx.gasLimit,
    .bytes (recipientBytes tx.recipient), bigItem tx.amount, .bytes tx.payload]

/-- `Signer.Hash`, the hash to be signed: `EIP155Signer` appends its chain id and two zeros. -/
def Signer.hash (c : Crypto Key) : Signer → Txdata → List UInt8
  | .eip155 chainId _, tx =>
    rlpHash c (if chainId < 0 then none
      else some (.list (frontierFields tx ++ [bigItem chainId.toNat, bigItem 0, bigItem 0])))
  | _, tx => rlpHash c (some (.list (frontierFields tx)))

/-- `FrontierSigner.SignatureValues`, which `HomesteadSigner` inherits. -/
def frontierSignatureValues (sig : List UInt8) : Except SigError (Nat × Nat × Int) :=
  if sig.length ≠ 65 then throw (.wrongSignatureSize sig.length)
  else pure (sigR sig, sigS sig, ((sig.getD 64 0 + 27).toNat : Int))

/-- `Signer.SignatureValues`: `EIP155Signer` with a chain id replaces `V` by
`sig[64] + 35 + chainIdMul`, the byte sum taken in a byte. -/
def Signer.signatureValues : Signer → List UInt8 → Except SigError (Nat × Nat × Int)
  | .eip155 chainId chainIdMul, sig => do
    let (R, S, V) ← frontierSignatureValues sig
    if chainId ≠ 0 then pure (R, S, ((sig.getD 64 0 + 35).toNat : Int) + chainIdMul)
    else pure (R, S, V)
  | _, sig => frontierSignatureValues sig

/-- `recoverPlain`: the address of the key that made the signature `(R, S, Vb - 27)` of
`sighash`. -/
def recoverPlain (c : Crypto Key) (sighash : List UInt8) (R S : Nat) (Vb : Int)
    (homestead : Bool) : Except SigError Address := do
  if bitLen Vb > 8 then throw .invalidSig
  -- `byte(Vb.Uint64() - 27)`, the subtraction in `uint64`
  let V : UInt8 := UInt8.ofNat (uint64 Vb + 2 ^ 64 - 27)
  if !validateSignatureValues V R S homestead then throw .invalidSig
  -- encode the signature in uncompressed format
  let r := bigBytes R
  let s := bigBytes S
  if 32 < r.length ∨ 32 < s.length then throw .indexOutOfRange
  let sig := (List.replicate (32 - r.length) 0 ++ r) ++ (List.replicate (32 - s.length) 0 ++ s) ++ [V]
  -- recover the public key from the signature
  match c.ecrecover sighash sig with
  | .error e => throw (.crypto e)
  | .ok pub =>
    if pub.length = 0 ∨ pub.headD 0 ≠ 4 then throw .invalidPublicKey
    pure (copyAddress ((c.keccak256 (pub.drop 1)).drop 12))

/-- `Signer.Sender`. `EIP155Signer` leaves an unprotected transaction to `HomesteadSigner`. -/
def Signer.sender (c : Crypto Key) : Signer → Txdata → Except SigError Address
  | .frontier, tx => recoverPlain c (Signer.frontier.hash c tx) tx.r tx.s tx.v false
  | .homestead, tx => recoverPlain c (Signer.homestead.hash c tx) tx.r tx.s tx.v true
  | .eip155 chainId chainIdMul, tx =>
    if !tx.isProtected then recoverPlain c (Signer.homestead.hash c tx) tx.r tx.s tx.v true
    else if tx.chainId ≠ chainId then throw .invalidChainId
    else recoverPlain c ((Signer.eip155 chainId chainIdMul).hash c tx) tx.r tx.s
      (tx.v - chainIdMul - 8) true

/-- `Transaction.WithSignature`: a copy with the signature values, and no cached sender. -/
def Transaction.withSignature (tx : Transaction) (signer : Signer) (sig : List UInt8) :
    Except SigError Transaction := do
  let (r, s, v) ← signer.signatureValues sig
  pure ⟨{ tx.data with r, s, v }, none⟩

/-- `SignTx`. -/
def signTx (c : Crypto Key) (tx : Transaction) (s : Signer) (prv : Key) :
    Except SigError Transaction :=
  match c.sign (s.hash c tx.data) prv with
  | .error e => throw (.crypto e)
  | .ok sig => tx.withSignature s sig

/-- `types.Sender`: the cached address when the signer that cached it equals `signer`, and
otherwise the signer's recovery, which is then cached. -/
def sender (c : Crypto Key) (signer : Signer) (tx : Transaction) :
    Except SigError Address × Transaction :=
  match tx.fromCache with
  | some (cached, addr) =>
    if cached.equal signer then (.ok addr, tx) else recover
  | none => recover
where
  recover :=
    match signer.sender c tx.data with
    | .error e => (.error e, tx)
    | .ok addr => (.ok addr, { tx with fromCache := some (signer, addr) })

/-! ## Reading `V` back -/

theorem uint64_of_lt {V : Int} (h0 : 0 ≤ V) (h : V < 2 ^ 64) : (uint64 V : Int) = V := by
  unfold uint64
  rw [Nat.mod_eq_of_lt (by omega), Int.natAbs_of_nonneg h0]

theorem bitLen_le_iff {V : Int} {k : Nat} (h0 : 0 ≤ V) : bitLen V ≤ k ↔ V < 2 ^ k := by
  unfold bitLen
  rw [Nat.size_le, ← Int.ofNat_lt, Int.natAbs_of_nonneg h0]
  push_cast
  rfl

/-- A non-negative `V` past the homestead values is protected. -/
theorem isProtectedV_of_lt {V : Int} (hV : 28 < V) : isProtectedV V = true := by
  unfold isProtectedV
  by_cases h8 : bitLen V ≤ 8
  · have hlt := (bitLen_le_iff (by omega)).mp h8
    have hv := uint64_of_lt (V := V) (by omega) (by omega)
    rw [if_pos h8]
    simp only [decide_eq_true_eq]
    omega
  · rw [if_neg h8]

/-- The chain id of an EIP-155 `V` of a positive chain id, on either path of `deriveChainId`. -/
theorem deriveChainId_eip155 {chainId : Int} (hc : 0 < chainId) {recid : Nat} (hr : recid ≤ 1) :
    deriveChainId (recid + 35 + chainId * 2) = chainId := by
  unfold deriveChainId
  by_cases h64 : bitLen ((recid : Int) + 35 + chainId * 2) ≤ 64
  · -- the `uint64` path: no wrap, since `V` is at least 37
    have hlt := (bitLen_le_iff (by omega)).mp h64
    have hv := uint64_of_lt (V := (recid : Int) + 35 + chainId * 2) (by omega) hlt
    rw [if_pos h64]
    simp only
    rw [if_neg (by omega)]
    omega
  · rw [if_neg h64]
    omega

theorem isProtectedV_homestead {V : Int} (hV : V = 27 ∨ V = 28) : isProtectedV V = false := by
  have h8 : bitLen V ≤ 8 := (bitLen_le_iff (by omega)).mpr (by omega)
  have hv := uint64_of_lt (V := V) (by omega) (by omega)
  unfold isProtectedV
  rw [if_pos h8]
  simp only [decide_eq_false_iff_not, not_and, not_not]
  omega

theorem deriveChainId_homestead {V : Int} (hV : V = 27 ∨ V = 28) : deriveChainId V = 0 := by
  have h64 : bitLen V ≤ 64 := (bitLen_le_iff (by omega)).mpr (by omega)
  have hv := uint64_of_lt (V := V) (by omega) (by omega)
  unfold deriveChainId
  rw [if_pos h64]
  simp only
  rw [if_pos (by omega)]

/-! ## The values of a signature -/

theorem toNat_add_recid {b : UInt8} (hb : b ≤ 1) (n : Nat) (hn : n < 255) :
    (b + UInt8.ofNat n).toNat = b.toNat + n :=
  BigEndian.toNat_add_ofNat (by rw [UInt8.le_iff_toNat_le] at hb; simp at hb; omega)

/-- `EIP155Signer` with a chain id stores `recid + 35 + 2 * chainId`. -/
theorem signatureValues_eip155 {chainId : Int} (hc : chainId ≠ 0) {sig : List UInt8}
    (hlen : sig.length = 65) (hr : sig.getD 64 0 ≤ 1) :
    (newEIP155Signer (some chainId)).signatureValues sig =
      .ok (sigR sig, sigS sig, ((sig.getD 64 0).toNat : Int) + 35 + chainId * 2) := by
  have h35 := toNat_add_recid hr 35 (by norm_num)
  simp only [newEIP155Signer, Option.getD_some, Signer.signatureValues, frontierSignatureValues,
    if_neg (show ¬sig.length ≠ 65 from not_not.mpr hlen)]
  rw [pure_bind, if_pos hc]
  show Except.ok _ = Except.ok _
  rw [show (35 : UInt8) = UInt8.ofNat 35 from rfl, h35]
  push_cast
  rfl

/-- The homestead signer stores `27 + recid`. -/
theorem signatureValues_homestead {sig : List UInt8} (hlen : sig.length = 65)
    (hr : sig.getD 64 0 ≤ 1) :
    Signer.homestead.signatureValues sig =
      .ok (sigR sig, sigS sig, ((sig.getD 64 0).toNat : Int) + 27) := by
  have h27 := toNat_add_recid hr 27 (by norm_num)
  simp only [Signer.signatureValues, frontierSignatureValues,
    if_neg (show ¬sig.length ≠ 65 from not_not.mpr hlen)]
  show Except.ok _ = Except.ok _
  rw [show (27 : UInt8) = UInt8.ofNat 27 from rfl, h27]
  push_cast
  rfl

/-- The hash to be signed does not read the signature values. -/
theorem hash_withValues (c : Crypto Key) (signer : Signer) (d : Txdata) (r s : Nat) (v : Int) :
    signer.hash c { d with r, s, v } = signer.hash c d := by
  cases signer <;> rfl

/-! ## What `EIP155Signer` reads back -/

section
variable {chainId : Int} (hc : 0 < chainId) {recid : Nat} (hr : recid ≤ 1)
include hc hr

/-- A transaction with an EIP-155 `V` of a positive chain id is protected and of that chain. -/
theorem isProtected_chainId_eip155 (d : Txdata) (hv : d.v = recid + 35 + chainId * 2) :
    d.isProtected = true ∧ d.chainId = chainId :=
  ⟨by rw [Txdata.isProtected, hv]; exact isProtectedV_of_lt (by omega),
    by rw [Txdata.chainId, hv]; exact deriveChainId_eip155 hc hr⟩

/-- `EIP155Signer.Sender` of its own chain recovers with the homestead value `27 + recid`. -/
theorem sender_eip155 (c : Crypto Key) (d : Txdata) (hv : d.v = recid + 35 + chainId * 2) :
    (newEIP155Signer (some chainId)).sender c d =
      recoverPlain c ((newEIP155Signer (some chainId)).hash c d) d.r d.s (recid + 27) true := by
  obtain ⟨hprot, hchain⟩ := isProtected_chainId_eip155 hc hr d hv
  simp only [newEIP155Signer, Option.getD_some, Signer.sender, hprot, hchain, Bool.not_true,
    Bool.false_eq_true, if_false, ne_eq, not_true_eq_false]
  congr 1
  omega

/-- `EIP155Signer.Sender` of any other chain rejects it. -/
theorem sender_eip155_of_ne (c : Crypto Key) (d : Txdata) (hv : d.v = recid + 35 + chainId * 2)
    {chainId' : Int} (hne : chainId' ≠ chainId) :
    (newEIP155Signer (some chainId')).sender c d = .error .invalidChainId := by
  obtain ⟨hprot, hchain⟩ := isProtected_chainId_eip155 hc hr d hv
  simp only [newEIP155Signer, Option.getD_some, Signer.sender, hprot, hchain, Bool.not_true,
    Bool.false_eq_true, if_false, ne_eq, if_pos (Ne.symm hne)]
  rfl

end

/-! ## Recovery of what `Sign` signed -/

theorem value_bigBytes (x : Nat) : BigEndian.value (bigBytes x) = x := by
  unfold bigBytes
  split
  · next h => rw [h]; rfl
  · rw [BigEndian.value_bytes, Nat.mod_eq_of_lt (BigEndian.lt_pow_minLen x)]

theorem length_bigBytes_le {x k : Nat} (hk : 1 ≤ k) (hx : x < 256 ^ k) :
    (bigBytes x).length ≤ k := by
  unfold bigBytes
  split
  · exact Nat.zero_le k
  · rw [BigEndian.length_bytes]
    exact (BigEndian.minLen_le_iff hk).mpr hx

/-- `recoverPlain` puts the shortest form of a 32-byte half of a signature back in its place. -/
theorem pad_bigBytes_value {bs : List UInt8} (h : bs.length = 32) :
    List.replicate (32 - (bigBytes (BigEndian.value bs)).length) 0 ++
      bigBytes (BigEndian.value bs) = bs := by
  have hle := length_bigBytes_le (x := BigEndian.value bs) (k := 32) (by norm_num)
    (h ▸ BigEndian.value_lt bs)
  apply BigEndian.eq_of_value_eq
  · rw [List.length_append, List.length_replicate, h]
    omega
  · rw [BigEndian.value_replicate_zero_append, value_bigBytes]

/-- A 65-byte signature is its `R` half, its `S` half and its recovery id. -/
theorem sig_eq_halves {sig : List UInt8} (h : sig.length = 65) :
    sig = sig.take 32 ++ (sig.drop 32).take 32 ++ [sig.getD 64 0] := by
  have h64 : sig.drop 64 = [sig.getD 64 0] := by
    rw [List.drop_eq_getElem_cons (by omega), List.drop_eq_nil_of_le (by omega),
      List.getD_eq_getElem _ _ (by omega)]
  calc sig = sig.take 32 ++ sig.drop 32 := (List.take_append_drop 32 sig).symm
    _ = sig.take 32 ++ ((sig.drop 32).take 32 ++ (sig.drop 32).drop 32) := by
      rw [List.take_append_drop 32 (sig.drop 32)]
    _ = _ := by rw [List.drop_drop, h64, List.append_assoc]

theorem copyAddress_of_length {b : List UInt8} (h : b.length = 20) : copyAddress b = ⟨b, h⟩ := by
  simp [copyAddress, h, List.take_of_length_le (le_of_eq h)]

theorem bytesToAddress_of_length {b : List UInt8} (h : b.length = 20) :
    bytesToAddress b = ⟨b, h⟩ := by
  simp [bytesToAddress, h]

/-- The recovery byte `recoverPlain` takes back from the homestead value `27 + recid`. -/
theorem recid_of_homesteadV (b : UInt8) :
    UInt8.ofNat (uint64 ((b.toNat : Int) + 27) + 2 ^ 64 - 27) = b := by
  have hb := b.toNat_lt
  have hv := uint64_of_lt (V := (b.toNat : Int) + 27) (by omega) (by omega)
  apply UInt8.toNat_inj.mp
  rw [UInt8.toNat_ofNat']
  omega

section
variable {c : Crypto Key} (hlaw : c.Lawful)
include hlaw

/-- `recoverPlain` of the values of a signature `Sign` made returns the signer's address. -/
theorem recoverPlain_sign {h : List UInt8} (hh : h.length = 32) (k : Key) :
    ∃ sig, c.sign h k = .ok sig ∧ sig.length = 65 ∧ sig.getD 64 0 ≤ 1 ∧
      recoverPlain c h (sigR sig) (sigS sig) ((sig.getD 64 0).toNat + 27) true =
        .ok (pubkeyToAddress c (c.pubkey k)) := by
  obtain ⟨sig, hsign, hlen, hvalid, hrec⟩ := hlaw.sign_spec h k hh
  have hr1 : sig.getD 64 0 ≤ 1 := by
    simp only [validateSignatureValues] at hvalid
    split_ifs at hvalid
    simp only [decide_eq_true_eq] at hvalid
    rcases hvalid.2.2 with h0 | h1
    · rw [h0]; decide
    · rw [h1]; decide
  refine ⟨sig, hsign, hlen, hr1, ?_⟩
  have hb : (sig.getD 64 0).toNat ≤ 1 := by
    rw [UInt8.le_iff_toNat_le] at hr1
    simpa using hr1
  have h8 : ¬bitLen (((sig.getD 64 0).toNat : Int) + 27) > 8 := by
    rw [not_lt, bitLen_le_iff (by omega)]
    omega
  have hR : (bigBytes (sigR sig)).length ≤ 32 :=
    length_bigBytes_le (by norm_num) (by
      have := BigEndian.value_lt (sig.take 32); simp [hlen] at this; exact this)
  have hS : (bigBytes (sigS sig)).length ≤ 32 :=
    length_bigBytes_le (by norm_num) (by
      have := BigEndian.value_lt ((sig.drop 32).take 32); simp [hlen] at this; exact this)
  -- the signature `recoverPlain` rebuilds is the one `Sign` made
  have hsig : (List.replicate (32 - (bigBytes (sigR sig)).length) 0 ++ bigBytes (sigR sig)) ++
      (List.replicate (32 - (bigBytes (sigS sig)).length) 0 ++ bigBytes (sigS sig)) ++
        [sig.getD 64 0] = sig := by
    rw [sigR, sigS, pad_bigBytes_value (by simp [hlen]), pad_bigBytes_value (by simp [hlen]),
      ← sig_eq_halves hlen]
  have hpub := hlaw.head_pubkey k
  have hpub0 : ¬((c.pubkey k).length = 0 ∨ (c.pubkey k).headD 0 ≠ 4) := by
    cases hp : c.pubkey k with
    | nil => rw [hp] at hpub; cases hpub
    | cons b bs =>
      rw [hp] at hpub
      simp only [List.head?_cons, Option.some.injEq] at hpub
      simp [hpub]
  have haddr : (c.keccak256 (c.pubkey k).tail).length = 32 := hlaw.length_keccak256 _
  simp only [recoverPlain, if_neg h8, recid_of_homesteadV, hvalid, Bool.not_true,
    Bool.false_eq_true, if_false, if_neg (show ¬(32 < (bigBytes (sigR sig)).length ∨
      32 < (bigBytes (sigS sig)).length) by omega), hsig, hrec, if_neg hpub0]
  rw [pubkeyToAddress, bytesToAddress_of_length (by simp [haddr]),
    copyAddress_of_length (by simp [haddr])]
  rfl

theorem length_hash (signer : Signer) (d : Txdata) : (signer.hash c d).length = 32 := by
  cases signer <;> exact hlaw.length_keccak256 _

/-- `SignTx` with an `EIP155Signer` of a positive chain id succeeds, with a transaction of no
cached sender whose stored values the same signer recovers the signer's address from. -/
theorem signTx_eip155 {chainId : Int} (hpos : 0 < chainId) (tx : Transaction) (k : Key) :
    ∃ tx', signTx c tx (newEIP155Signer (some chainId)) k = .ok tx' ∧ tx'.fromCache = none ∧
      0 < tx'.data.v ∧
      (newEIP155Signer (some chainId)).sender c tx'.data = .ok (pubkeyToAddress c (c.pubkey k)) := by
  obtain ⟨sig, hsign, hlen, hr, hrec⟩ :=
    recoverPlain_sign hlaw (length_hash hlaw (newEIP155Signer (some chainId)) tx.data) k
  have hr' : (sig.getD 64 0).toNat ≤ 1 := by
    rw [UInt8.le_iff_toNat_le] at hr
    simpa using hr
  have hvals := signatureValues_eip155 (Int.ne_of_gt hpos) hlen hr
  refine ⟨⟨{ tx.data with
      r := sigR sig
      s := sigS sig
      v := ((sig.getD 64 0).toNat : Int) + 35 + chainId * 2 }, none⟩, ?_, rfl, by simp; omega, ?_⟩
  · rw [signTx, hsign]
    simp only [Transaction.withSignature, hvals]
    rfl
  · rw [sender_eip155 hpos hr' c _ rfl, hash_withValues]
    exact hrec

end

/-- `Sender` of a transaction with no cached sender is the signer's recovery. -/
theorem sender_fresh (c : Crypto Key) (signer : Signer) (d : Txdata) :
    (sender c signer ⟨d, none⟩).1 = signer.sender c d := by
  simp only [sender, sender.recover]
  cases signer.sender c d <;> rfl

end GoGaia.Types
