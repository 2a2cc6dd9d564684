import GoGaia.Core.Signing
import GoGaia.Rlp.Struct

/-!
# The RLP form of a transaction, and what signing guarantees

`Transaction.EncodeRLP` and `DecodeRLP` (`core/types/transaction.go`) encode and decode the
`txdata` struct through the RLP type cache (`txdataType`): every field is a single string, and
`Hash` is ignored (`rlp:"-"`). So the codec of `Rlp.Struct` applies, and decoding what was encoded
gives the transaction data back (`decodeRLP_encodeRLP`), which is all `Sender` reads.

`eip155_signature_round_trip` collects what the signers guarantee: an EIP-155 signature of a
positive chain id is protected, reads back its chain id, is recovered with the homestead value
`27 + recid` and is rejected by the signer of any other chain; a homestead signature stores `27`
or `28` and has chain id zero; and with a lawful `crypto`, `Sender` of what `SignTx` made is the
signer's address, also after the transaction went through its RLP encoding.
-/

namespace GoGaia.Types

open GoGaia.Rlp

/-- The type of `txdata` as the RLP type cache sees it. -/
def txdataType : RType :=
  .struct "types.txdata"
    [.mk "AccountNonce" {} (.uint 64), .mk "Price" {} .bigIntPtr, .mk "GasLimit" {} .bigIntPtr,
      .mk "Recipient" { nilOK := true } (.ptr (.byteArray 20)), .mk "Amount" {} .bigIntPtr,
      .mk "Payload" {} .bytes, .mk "V" {} .bigIntPtr, .mk "R" {} .bigIntPtr,
      .mk "S" {} .bigIntPtr, .mk "Hash" { ignored := true } (.ptr (.byteArray 32))]

/-- The value of `txdataType` a transaction's data is, with a nil `Hash`. -/
def Txdata.toValue (tx : Txdata) : Value :=
  .struct [.uint tx.accountNonce.toNat, .bigIntPtr (some tx.price), .bigIntPtr (some tx.gasLimit),
    .ptr (tx.recipient.map fun a => .bytes a.bytes), .bigIntPtr (some tx.amount),
    .bytes tx.payload, .bigIntPtr (some tx.v.toNat), .bigIntPtr (some tx.r),
    .bigIntPtr (some tx.s), .ptr none]

/-- The transaction data a value of `txdataType` holds. -/
def Txdata.ofValue : Value → Option Txdata
  | .struct [.uint nonce, .bigIntPtr (some price), .bigIntPtr (some gasLimit), .ptr recipient,
      .bigIntPtr (some amount), .bytes payload, .bigIntPtr (some v), .bigIntPtr (some r),
      .bigIntPtr (some s), _] =>
    let recipient : Option (Option Address) :=
      match recipient with
      | none => some none
      | some (.bytes b) => if h : b.length = 20 then some (some ⟨b, h⟩) else none
      | some _ => none
    recipient.map fun recipient =>
      ⟨UInt64.ofNat nonce, price, gasLimit, recipient, amount, payload, v, r, s⟩
  | _ => none

/-- `Transaction.EncodeRLP`, as `EncodeToBytes` of a transaction runs it: `rlp.Encode` of the
data, which refuses a negative `*big.Int`. -/
def Transaction.encodeRLP (tx : Transaction) : Except Error (List UInt8) :=
  if tx.data.v < 0 then throw (.errorf "rlp: cannot encode negative *big.Int")
  else encodeValue txdataType tx.data.toValue

/-- `DecodeBytes` into a fresh transaction, through `Transaction.DecodeRLP`: the data, and no
cached sender. -/
def decodeRLP (b : List UInt8) : Except Error Transaction := do
  let v ← decodeValue txdataType b
  match Txdata.ofValue v with
  | some d => pure ⟨d, none⟩
  -- not taken: the decoder of `txdataType` returns values of its shape
  | none => throw (.decode "value of another type" "types.txdata" [])

/-! ## The codec -/

theorem flatField_recipient (r : Option Address) :
    FlatField (.ptr (.byteArray 20)) { nilOK := true } (.ptr (r.map fun a => .bytes a.bytes))
      (recipientBytes r) := by
  cases r with
  | none => exact .nilPtr 20 rfl
  | some a =>
    have h := FlatField.somePtr { nilOK := true } (b := a.bytes) (by rw [a.length_bytes]; norm_num)
    rw [a.length_bytes] at h
    exact h

/-- The fields of a transaction's data with their strings; `Hash` is ignored. -/
theorem flatFields_txdata (tx : Txdata) :
    FlatFields
      [.mk "AccountNonce" {} (.uint 64), .mk "Price" {} .bigIntPtr, .mk "GasLimit" {} .bigIntPtr,
        .mk "Recipient" { nilOK := true } (.ptr (.byteArray 20)), .mk "Amount" {} .bigIntPtr,
        .mk "Payload" {} .bytes, .mk "V" {} .bigIntPtr, .mk "R" {} .bigIntPtr,
        .mk "S" {} .bigIntPtr, .mk "Hash" { ignored := true } (.ptr (.byteArray 32))]
      [.uint tx.accountNonce.toNat, .bigIntPtr (some tx.price), .bigIntPtr (some tx.gasLimit),
        .ptr (tx.recipient.map fun a => .bytes a.bytes), .bigIntPtr (some tx.amount),
        .bytes tx.payload, .bigIntPtr (some tx.v.toNat), .bigIntPtr (some tx.r),
        .bigIntPtr (some tx.s), .ptr none]
      [.bytes (uintString tx.accountNonce.toNat), .bytes (uintString tx.price),
        .bytes (uintString tx.gasLimit), .bytes (recipientBytes tx.recipient),
        .bytes (uintString tx.amount), .bytes tx.payload, .bytes (uintString tx.v.toNat),
        .bytes (uintString tx.r), .bytes (uintString tx.s)] :=
  .field rfl rfl (.uint {} (by norm_num) (by simpa using tx.accountNonce.toNat_lt)) <|
    .field rfl rfl (.bigIntPtr {} _) <| .field rfl rfl (.bigIntPtr {} _) <|
    .field rfl rfl (flatField_recipient _) <| .field rfl rfl (.bigIntPtr {} _) <|
    .field rfl rfl (.bytes {} _) <| .field rfl rfl (.bigIntPtr {} _) <|
    .field rfl rfl (.bigIntPtr {} _) <| .field rfl rfl (.bigIntPtr {} _) <|
    .ignored rfl rfl .nil

theorem ofValue_toValue {tx : Txdata} (hv : 0 ≤ tx.v) : Txdata.ofValue tx.toValue = some tx := by
  obtain ⟨nonce, price, gasLimit, recipient, amount, payload, v, r, s⟩ := tx
  cases recipient with
  | none => simp [Txdata.toValue, Txdata.ofValue, Int.toNat_of_nonneg hv]
  | some a => simp [Txdata.toValue, Txdata.ofValue, Int.toNat_of_nonneg hv, a.length_bytes]

/-- Decoding the RLP form of a transaction gives its data back, with no cached sender. -/
theorem decodeRLP_encodeRLP (tx : Transaction) (hv : 0 ≤ tx.data.v) :
    ∃ b, tx.encodeRLP = .ok b ∧ (b.length < 2 ^ 64 → decodeRLP b = .ok ⟨tx.data, none⟩) := by
  have hfs := flatFields_txdata tx.data
  have henc : tx.encodeRLP = encodeValue txdataType tx.data.toValue := by
    rw [Transaction.encodeRLP, if_neg (by omega)]
  rw [henc]
  refine ⟨_, @encodeValue_flatStruct "types.txdata" _ _ _ hfs, fun h64 => ?_⟩
  rw [decodeRLP, txdataType, decodeValue_flatStruct hfs h64]
  show (match Txdata.ofValue tx.data.toValue with
    | some d => pure ⟨d, none⟩
    | none => throw _ : Except Error Transaction) = _
  rw [ofValue_toValue hv]
  rfl

/-! ## What the signers guarantee -/

/-- EIP-155 signature values round-trip for every positive chain id, of any size: the signed
transaction is protected, has that chain id, is recovered with `27 + recid`, and is rejected by
the signer of every other chain. Homestead values are `27` or `28`, unprotected, of chain id zero.
With a lawful `crypto`, `Sender` of what `SignTx` made is the key's address, also after the
RLP encoding of the transaction is decoded. -/
theorem eip155_signature_round_trip {Key : Type} (c : Crypto Key) :
    (∀ chainId : Int, 0 < chainId → ∀ (tx : Transaction) (sig : List UInt8),
      sig.length = 65 → sig.getD 64 0 ≤ 1 →
      ∃ tx', tx.withSignature (newEIP155Signer (some chainId)) sig = .ok tx' ∧
        tx'.data.isProtected = true ∧ tx'.data.chainId = chainId ∧
        (newEIP155Signer (some chainId)).sender c tx'.data =
          recoverPlain c ((newEIP155Signer (some chainId)).hash c tx'.data) tx'.data.r tx'.data.s
            (27 + (sig.getD 64 0).toNat) true ∧
        ∀ chainId' : Int, chainId' ≠ chainId →
          (newEIP155Signer (some chainId')).sender c tx'.data = .error .invalidChainId) ∧
    (∀ (tx : Transaction) (sig : List UInt8), sig.length = 65 → sig.getD 64 0 ≤ 1 →
      ∃ tx', tx.withSignature .homestead sig = .ok tx' ∧ (tx'.data.v = 27 ∨ tx'.data.v = 28) ∧
        tx'.data.isProtected = false ∧ tx'.data.chainId = 0) ∧
    (c.Lawful → ∀ chainId : Int, 0 < chainId → ∀ (tx : Transaction) (k : Key),
      ∃ tx', signTx c tx (newEIP155Signer (some chainId)) k = .ok tx' ∧
        (sender c (newEIP155Signer (some chainId)) tx').1 = .ok (pubkeyToAddress c (c.pubkey k)) ∧
        ∃ b, tx'.encodeRLP = .ok b ∧ (b.length < 2 ^ 64 → ∃ tx'', decodeRLP b = .ok tx'' ∧
          (sender c (newEIP155Signer (some chainId)) tx'').1 =
            .ok (pubkeyToAddress c (c.pubkey k)))) := by
  refine ⟨?eip155, ?homestead, ?signed⟩
  case eip155 =>
    intro chainId hc tx sig hlen hr
    have hr' : (sig.getD 64 0).toNat ≤ 1 := by
      rw [UInt8.le_iff_toNat_le] at hr
      simpa using hr
    let d : Txdata := { tx.data with
      r := sigR sig
      s := sigS sig
      v := ((sig.getD 64 0).toNat : Int) + 35 + chainId * 2 }
    obtain ⟨hprot, hchain⟩ := isProtected_chainId_eip155 hc hr' d rfl
    refine ⟨⟨d, none⟩, ?_, hprot, hchain, ?_, fun chainId' hne =>
      sender_eip155_of_ne hc hr' c d rfl hne⟩
    · simp only [Transaction.withSignature, signatureValues_eip155 (Int.ne_of_gt hc) hlen hr]
      rfl
    · rw [sender_eip155 hc hr' c d rfl, Int.add_comm]
  case homestead =>
    intro tx sig hlen hr
    have hr' : (sig.getD 64 0).toNat ≤ 1 := by
      rw [UInt8.le_iff_toNat_le] at hr
      simpa using hr
    let d : Txdata := { tx.data with
      r := sigR sig
      s := sigS sig
      v := ((sig.getD 64 0).toNat : Int) + 27 }
    have hv : d.v = 27 ∨ d.v = 28 := by
      have hd : d.v = ((sig.getD 64 0).toNat : Int) + 27 := rfl
      omega
    refine ⟨⟨d, none⟩, ?_, hv, isProtectedV_homestead hv, deriveChainId_homestead hv⟩
    simp only [Transaction.withSignature, signatureValues_homestead hlen hr]
    rfl
  case signed =>
    intro hlaw chainId hpos tx k
    obtain ⟨⟨d, cache⟩, hsign, hcache, hv, hsender⟩ := signTx_eip155 hlaw hpos tx k
    obtain rfl : cache = none := hcache
    obtain ⟨b, hb, hdec⟩ := decodeRLP_encodeRLP ⟨d, none⟩ (le_of_lt hv)
    refine ⟨_, hsign, by rw [sender_fresh]; exact hsender, b, hb, fun h64 =>
      ⟨_, hdec h64, by rw [sender_fresh]; exact hsender⟩⟩

/-- A `crypto` over one key that signs every hash with `R = S = 1` and recovery id 0, and
recovers the point `[4]` from anything: lawful, so the last part of
`eip155_signature_round_trip` is not vacuous. -/
def unitCrypto : Crypto Unit where
  keccak256 _ := List.replicate 32 0
  sign _ _ := .ok (List.replicate 31 0 ++ [1] ++ List.replicate 31 0 ++ [1, 0])
  ecrecover _ _ := .ok [4]
  pubkey _ := [4]

theorem unitCrypto_lawful : unitCrypto.Lawful where
  length_keccak256 _ := by simp [unitCrypto]
  sign_spec _ _ _ := ⟨_, rfl, by decide, by decide, rfl⟩
  head_pubkey _ := rfl

theorem eip155_signature_round_trip_unit :
    unitCrypto.Lawful ∧ (0 : Int) < 1 ∧
      ∃ tx', signTx unitCrypto ⟨⟨0, 0, 0, none, 0, [], 0, 0, 0⟩, none⟩ (newEIP155Signer (some 1))
          () = .ok tx' ∧
        (sender unitCrypto (newEIP155Signer (some 1)) tx').1 =
          .ok (pubkeyToAddress unitCrypto (unitCrypto.pubkey ())) := by
  obtain ⟨tx', hsign, hsender, -⟩ := (eip155_signature_round_trip unitCrypto).2.2
    unitCrypto_lawful 1 (by decide) ⟨⟨0, 0, 0, none, 0, [], 0, 0, 0⟩, none⟩ ()
  exact ⟨unitCrypto_lawful, by decide, tx', hsign, hsender⟩

end GoGaia.Types
