import Mathlib
import GoGaia.Clique.Voting
import GoGaia.Lib.BigEndian

/-!
# The clique engine: turns, seals and prepared headers

`consensus/clique/clique.go`, with `signers` and `inturn` from the end of `snapshot.go`.
`signers()` lists a snapshot's signers in ascending order, and `inturn` says whether a block is a
signer's turn: the block number modulo the number of signers is the signer's place in that list.
`verifySeal` checks a header against the snapshot of its parent block: its signer must be
authorised and not have signed too recently, and its difficulty must say whether it signed in
turn. `Prepare` fills in the fields of a header the local signer is about to seal: a vote on a
pending proposal, the difficulty, and the extra data, which lists the signers at a checkpoint.

Go's integer division by zero panics; `inturn` is `none` then, and so are `verifySeal` and
`Prepare` when they reach it. The snapshot both take is the one `Clique.snapshot` retrieves for
the parent block, and `ecrecover`'s result is the header's `sealer`, as in `Snapshot.apply`.

`inturn` panics exactly on an empty signer set (`inturn_eq_none_iff`). `verifySeal` rejects every
signer of an empty set before it asks for the turn; `Prepare` asks for the turn of the local
signer whatever the set, so it panics exactly on an empty one (`prepare_eq_none_iff`). `Snapshot.apply` does empty the set: a sole signer may vote itself out
(`apply_drop_sole_signer`), and no header applies after that (`applyHeader_of_signers_empty`).
-/

namespace GoGaia.Clique

/-- `diffInTurn`. -/
def diffInTurn : Nat := 2

/-- `diffNoTurn`. -/
def diffNoTurn : Nat := 1

/-- `extraVanity`: the bytes of extra data before the signers. -/
def extraVanity : Nat := 32

/-- `extraSeal`: the bytes of extra data for the seal. -/
def extraSeal : Nat := 65

/-- The errors of `verifySeal`: `errUnknownBlock`, `errInvalidDifficulty`, and those it shares
with `Snapshot.apply`. -/
inductive EngineError where
  | unknownBlock
  | invalidDifficulty
  | snapshot (e : CliqueError)
deriving DecidableEq, Repr

/-- The header fields `Prepare` sets. The timestamp, which needs the parent header and the clock,
and the mix digest, which it sets to zero, are left out. -/
structure Prepared where
  coinbase : Address
  nonce : UInt64
  difficulty : Nat
  extra : List UInt8
deriving DecidableEq, Repr

namespace Snapshot

/-- `signers()`: the signers in ascending order. -/
def signerList (s : Snapshot) : List Address := s.signers.sort (· ≤ ·)

/-- `inturn`: `offset` is the signer's place in `signers()`, their count when it is not there, and
`number % 0` panics. -/
def inturn (s : Snapshot) (number : Nat) (signer : Address) : Option Bool :=
  let signers := s.signerList
  let offset := signers.idxOf signer
  if signers.length = 0 then none else some (number % signers.length == offset)

end Snapshot

open Snapshot

/-- `verifySeal`, with the snapshot of the parent block and the header's difficulty. A signer in
`Recents` passes when this block shifts it out of the window, whose start `number - limit` is
computed in `uint64`. -/
def verifySeal (snap : Snapshot) (header : Header) (difficulty : Nat) :
    Option (Except EngineError Unit) :=
  if header.number = 0 then some (throw .unknownBlock)
  else match header.sealer with
    | none => some (throw (.snapshot .ecrecover))
    | some signer =>
      let limit := snap.signers.card / 2 + 1
      if signer ∉ snap.signers then some (throw (.snapshot .unauthorized))
      else if snap.recents.any (fun r => r.2 = signer ∧
          UInt64.ofNat header.number - UInt64.ofNat limit < UInt64.ofNat r.1) then
        some (throw (.snapshot .unauthorized))
      else (snap.inturn header.number signer).map fun inturn =>
        if inturn = true ∧ difficulty ≠ diffInTurn then throw .invalidDifficulty
        else if inturn = false ∧ difficulty ≠ diffNoTurn then throw .invalidDifficulty
        else pure ()

/-- The vote `Prepare` casts outside checkpoints: on one of the proposals that `validVote`
accepts, in the proposal's direction; the zero coinbase and nonce when there is none. The
proposals are the map's entries in its iteration order, and `rand.Intn(n)` is `r % n`. -/
def prepareVote (snap : Snapshot) (proposals : List (Address × Bool)) (r : Nat) :
    Address × UInt64 :=
  let addresses := (proposals.filter fun p => snap.validVote p.1 p.2).map Prod.fst
  if 0 < addresses.length then
    let coinbase := addresses.getD (r % addresses.length) 0
    (coinbase, if (proposals.lookup coinbase).getD false then nonceAuthVote else nonceDropVote)
  else (0, 0)

/-- `Prepare`, with the snapshot of the parent block and the local signer `c.signer`. -/
def prepare (cfg : CliqueConfig) (snap : Snapshot) (signer : Address)
    (proposals : List (Address × Bool)) (r number : Nat) (extra : List UInt8) :
    Option Prepared := do
  let vote := if number % cfg.epoch ≠ 0 then prepareVote snap proposals r else (0, 0)
  let inturn ← snap.inturn number signer
  let extra := (extra ++ List.replicate (extraVanity - extra.length) 0).take extraVanity
  -- a checkpoint lists the signers, twenty bytes each
  let extra :=
    if number % cfg.epoch = 0 then extra ++ snap.signerList.flatMap (BigEndian.bytes 20) else extra
  pure ⟨vote.1, vote.2, if inturn then diffInTurn else diffNoTurn,
    extra ++ List.replicate extraSeal 0⟩

namespace Snapshot

variable {cfg : CliqueConfig} {s : Snapshot}

/-! ## Turns -/

@[simp] theorem length_signerList : s.signerList.length = s.signers.card :=
  Finset.length_sort _

@[simp] theorem mem_signerList {a : Address} : a ∈ s.signerList ↔ a ∈ s.signers :=
  Finset.mem_sort _

/-- `inturn` panics exactly when there are no signers. -/
theorem inturn_eq_none_iff (number : Nat) (signer : Address) :
    s.inturn number signer = none ↔ s.signers = ∅ := by
  rw [← Finset.card_eq_zero]
  simp [inturn]

/-! ## The engine's entry points -/

/-- `Prepare` panics exactly when the parent's snapshot has no signers. -/
theorem prepare_eq_none_iff (cfg : CliqueConfig) (snap : Snapshot) (signer : Address)
    (proposals : List (Address × Bool)) (r number : Nat) (extra : List UInt8) :
    prepare cfg snap signer proposals r number extra = none ↔ snap.signers = ∅ := by
  rw [← inturn_eq_none_iff number signer]
  unfold prepare
  cases snap.inturn number signer <;> simp

/-- Of an empty signer set, `verifySeal` refuses every header. -/
theorem verifySeal_of_signers_empty {snap : Snapshot} (hs : snap.signers = ∅) (header : Header)
    (difficulty : Nat) : ∃ e, verifySeal snap header difficulty = some (.error e) := by
  unfold verifySeal
  split_ifs
  · exact ⟨_, rfl⟩
  · cases header.sealer with
    | none => exact ⟨_, rfl⟩
    | some signer => exact ⟨.snapshot .unauthorized, by simp [hs]; rfl⟩

/-! ## Emptying the signer set -/

/-- A checkpoint and the trim of `Recents` leave a genesis snapshot as it is. -/
theorem trimRecents_checkpoint_new (number n : Nat) (signers : Finset Address) :
    ((new number signers).checkpoint cfg n).trimRecents n = new number signers := by
  unfold checkpoint trimRecents deleteRecent
  split_ifs <;> rfl

/-- A sole signer may vote itself out: the first header after the genesis block, signed by it
with a vote to drop its own address, leaves no signers. -/
theorem apply_drop_sole_signer (cfg : CliqueConfig) (number a : Nat) :
    ∃ s', (new number {a}).apply cfg [⟨number + 1, a, nonceDropVote, some a⟩] = .ok s' ∧
      s'.signers = ∅ := by
  let hd : Header := ⟨number + 1, a, nonceDropVote, some a⟩
  -- the vote is recorded: `a` has signed block `number + 1` and holds the one vote, to drop itself
  let m : Snapshot := ⟨number, {a}, [(number + 1, a)], [⟨a, number + 1, a, false⟩],
    Function.update (fun _ => none) a (some ⟨false, 1⟩)⟩
  have hrec : (new number {a}).recordVote cfg hd = .ok (m, a) := by
    simp only [recordVote, trimRecents_checkpoint_new]
    simp [hd, m, new, setRecent, discardVote, voteOf, nonceDropVote, nonceAuthVote, Snapshot.cast,
      validVote]
    rfl
  -- one vote is more than half of one signer
  have hdrop : (m.tallyUp hd.number hd.coinbase).signers = ∅ := by
    simp [tallyUp, m, hd]
  have happly : (new number {a}).apply cfg [hd] =
      .ok { m.tallyUp hd.number hd.coinbase with number := number + 1 } := by
    have hc : Contiguous (new number {a}).number [hd] = true := by simp [Contiguous, new, hd]
    simp [apply, applyAll, applyHeader, hrec, hc]
    rfl
  exact ⟨_, happly, hdrop⟩

/-- Once the signers are gone, every header is refused. -/
theorem applyHeader_of_signers_empty (hs : s.signers = ∅) (header : Header) :
    ∃ e, s.applyHeader cfg header = .error e := by
  cases h : s.recordVote cfg header with
  | error e => exact ⟨e, by simp [applyHeader, h]⟩
  | ok p =>
    obtain ⟨-, hx, -⟩ := recordVote_ok h
    simp [hs] at hx

/-- A sole signer of the genesis snapshot votes itself out in the first block. The snapshot of
that block has no signers: `inturn` panics at every block for every signer, and so does `Prepare`
of the next header whatever its fields, while `verifySeal` refuses every header and no header
applies on top. -/
theorem prepare_panics_after_sole_signer_drops (cfg : CliqueConfig) (number a : Nat) :
    ∃ s', (new number {a}).apply cfg [⟨number + 1, a, nonceDropVote, some a⟩] = .ok s' ∧
      (∀ n signer, s'.inturn n signer = none) ∧
      (∀ signer proposals r n extra, prepare cfg s' signer proposals r n extra = none) ∧
      (∀ header difficulty, ∃ e, verifySeal s' header difficulty = some (.error e)) ∧
      ∀ header, ∃ e, s'.applyHeader cfg header = .error e := by
  obtain ⟨s', happly, hs⟩ := apply_drop_sole_signer cfg number a
  refine ⟨s', happly, fun n signer => (inturn_eq_none_iff n signer).mpr hs,
    fun signer proposals r n extra => (prepare_eq_none_iff cfg s' signer proposals r n extra).mpr hs,
    verifySeal_of_signers_empty hs, applyHeader_of_signers_empty hs⟩

end Snapshot

end GoGaia.Clique
