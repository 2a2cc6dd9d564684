import Mathlib

/-!
# The clique voting snapshot

`consensus/clique/snapshot.go`: the state of proof-of-authority voting at a block. A
`Snapshot` holds the set of authorised signers, the signers of the most recent blocks
(`Recents`, which a signer must not be in to sign again), the votes cast since the last epoch
checkpoint in the order they were cast, and a tally of those votes by the address voted on.
`Snapshot.apply` runs the headers of a chain through it; each header is signed by a signer and
carries one vote, to authorise its coinbase (`nonceAuthVote`) or to drop it (`nonceDropVote`).

A header is applied in two phases, as the source's comments divide it: `recordVote` checks the
signer, trims and extends `Recents` and records the header's vote, replacing the signer's
previous vote on the same address; `tallyUp` then changes the signer set when the vote on the
coinbase has passed. The signer that `ecrecover` recovers from the header's seal is a field of the
header. The snapshot's hash, the configuration's period and the signature cache are left out.

Go maps become a `Finset` (the signers), an association list (`Recents`, whose values `apply`
iterates over) and a function (the tally).
-/

namespace GoGaia.Clique

/-- `common.Address`. -/
abbrev Address := Nat

/-- `params.CliqueConfig`: the epoch, which `clique.New` replaces by the default when it is
zero. -/
structure CliqueConfig where
  epoch : Nat
  epoch_pos : 0 < epoch

/-- `Vote`. -/
structure Vote where
  signer : Address
  block : Nat
  address : Address
  authorize : Bool
deriving DecidableEq, Repr

/-- `Tally`. -/
structure Tally where
  authorize : Bool
  votes : Nat
deriving DecidableEq, Repr

/-- The fields of a header that `apply` reads; `sealer` is what `ecrecover` recovers, `none` for a
missing or invalid signature. -/
structure Header where
  number : Nat
  coinbase : Address
  nonce : UInt64
  sealer : Option Address
deriving DecidableEq, Repr

/-- `nonceAuthVote`. -/
def nonceAuthVote : UInt64 := 0xffffffffffffffff

/-- `nonceDropVote`. -/
def nonceDropVote : UInt64 := 0

/-- The errors of `apply`: `errInvalidVotingChain`, `errUnauthorized`, `errInvalidVote`, and an
error of `ecrecover`. -/
inductive CliqueError where
  | invalidVotingChain
  | unauthorized
  | invalidVote
  | ecrecover
deriving DecidableEq, Repr

/-- `Snapshot`. `recents` maps block numbers to the signers of those blocks. -/
structure Snapshot where
  number : Nat
  signers : Finset Address
  recents : List (Nat × Address)
  votes : List Vote
  tally : Address → Option Tally

namespace Snapshot

/-- `newSnapshot`, for the genesis block. -/
def new (number : Nat) (signers : Finset Address) : Snapshot :=
  ⟨number, signers, [], [], fun _ => none⟩

/-- `delete(snap.Recents, number)`. -/
def deleteRecent (s : Snapshot) (number : Nat) : Snapshot :=
  { s with recents := s.recents.filter fun r => r.1 ≠ number }

/-- `snap.Recents[number] = signer`. -/
def setRecent (s : Snapshot) (number : Nat) (signer : Address) : Snapshot :=
  { s with recents := (number, signer) :: s.recents.filter fun r => r.1 ≠ number }

/-- Deletes the oldest entry of `Recents` that the window of the current signer set no longer
covers, `limit = len(snap.Signers)/2 + 1` blocks back. -/
def trimRecents (s : Snapshot) (number : Nat) : Snapshot :=
  if number ≥ s.signers.card / 2 + 1 then s.deleteRecent (number - (s.signers.card / 2 + 1)) else s

/-- `validVote`. -/
def validVote (s : Snapshot) (address : Address) (authorize : Bool) : Bool :=
  (decide (address ∈ s.signers) && !authorize) || (decide (address ∉ s.signers) && authorize)

/-- `cast`: counts the vote into the tally, an existing one whatever its direction. -/
def cast (s : Snapshot) (address : Address) (authorize : Bool) : Bool × Snapshot :=
  if !s.validVote address authorize then (false, s)
  else
    match s.tally address with
    | some old =>
      (true, { s with
        tally := Function.update s.tally address (some { old with votes := old.votes + 1 }) })
    | none => (true, { s with tally := Function.update s.tally address (some ⟨authorize, 1⟩) })

/-- `uncast`: takes a counted vote out of the tally, and the tally out when it was the last. -/
def uncast (s : Snapshot) (address : Address) (authorize : Bool) : Bool × Snapshot :=
  match s.tally address with
  | none => (false, s)
  | some tally =>
    if tally.authorize ≠ authorize then (false, s)
    else if tally.votes > 1 then
      (true, { s with
        tally := Function.update s.tally address (some { tally with votes := tally.votes - 1 }) })
    else (true, { s with tally := Function.update s.tally address none })

/-- A checkpoint block removes all votes. -/
def checkpoint (cfg : CliqueConfig) (s : Snapshot) (number : Nat) : Snapshot :=
  if number % cfg.epoch = 0 then { s with votes := [], tally := fun _ => none } else s

/-- Discards the signer's previous vote on the address, of which there is one at most: the first
such vote is uncast from the tally and removed from the list. -/
def discardVote (s : Snapshot) (signer address : Address) : Snapshot :=
  match s.votes.find? (fun v => v.signer = signer ∧ v.address = address) with
  | some v =>
    { (s.uncast v.address v.authorize).2 with
      votes := s.votes.eraseP fun v => v.signer = signer ∧ v.address = address }
  | none => s

/-- The direction of a header's vote. -/
def voteOf (header : Header) : Except CliqueError Bool :=
  if header.nonce = nonceAuthVote then pure true
  else if header.nonce = nonceDropVote then pure false
  else throw .invalidVote

/-- The first phase of applying a header: the checkpoint reset, the trimmed `Recents` and the
signer checks, then the signer's vote recorded. Returns the snapshot and the signer. -/
def recordVote (cfg : CliqueConfig) (s : Snapshot) (header : Header) :
    Except CliqueError (Snapshot × Address) := do
  let number := header.number
  let snap := (s.checkpoint cfg number).trimRecents number
  let some signer := header.sealer | throw .ecrecover
  if signer ∉ snap.signers then throw .unauthorized
  if snap.recents.any (fun r => r.2 = signer) then throw .unauthorized
  let snap := (snap.setRecent number signer).discardVote signer header.coinbase
  let authorize ← voteOf header
  let (cast, snap) := snap.cast header.coinbase authorize
  let snap :=
    if cast then { snap with votes := snap.votes ++ [⟨signer, number, header.coinbase, authorize⟩] }
    else snap
  pure (snap, signer)

/-- Discards the votes the signer cast, uncasting each from the tally; `apply`'s loop removes
them one by one, and the tally does not depend on the list. -/
def discardVotesBy (s : Snapshot) (signer : Address) : Snapshot :=
  let cast := s.votes.filter fun v => v.signer = signer
  { cast.foldl (fun s v => (s.uncast v.address v.authorize).2) s with
    votes := s.votes.filter fun v => v.signer ≠ signer }

/-- The second phase: when the tally on the coinbase has more than half of the signers, the
coinbase is authorised or dropped; a dropped signer's votes go, with the `Recents` entry the
smaller window no longer covers; and all votes on the coinbase go. -/
def tallyUp (s : Snapshot) (number : Nat) (coinbase : Address) : Snapshot :=
  let tally := (s.tally coinbase).getD ⟨false, 0⟩
  if tally.votes > s.signers.card / 2 then
    let snap :=
      if tally.authorize then { s with signers := insert coinbase s.signers }
      else ({ s with signers := s.signers.erase coinbase }.trimRecents number).discardVotesBy coinbase
    { snap with
      votes := snap.votes.filter (fun v => v.address ≠ coinbase)
      tally := Function.update snap.tally coinbase none }
  else s

/-- One header of `apply`'s loop. -/
def applyHeader (cfg : CliqueConfig) (s : Snapshot) (header : Header) :
    Except CliqueError Snapshot := do
  let (snap, _) ← s.recordVote cfg header
  pure (snap.tallyUp header.number header.coinbase)

/-- The loop of `apply` over the headers. -/
def applyAll (cfg : CliqueConfig) : Snapshot → List Header → Except CliqueError Snapshot
  | s, [] => pure s
  | s, h :: hs => do applyAll cfg (← s.applyHeader cfg h) hs

/-- The headers follow each other from the block after `number`. -/
def Contiguous (number : Nat) : List Header → Bool
  | [] => true
  | h :: hs => h.number = number + 1 && Contiguous h.number hs

/-- `apply`: the headers must follow the snapshot's block one after another. -/
def apply (cfg : CliqueConfig) (s : Snapshot) (headers : List Header) :
    Except CliqueError Snapshot :=
  if headers.isEmpty then pure s
  else if !Contiguous s.number headers then throw .invalidVotingChain
  else do
    let snap ← s.applyAll cfg headers
    pure { snap with number := snap.number + headers.length }

end Snapshot

end GoGaia.Clique
