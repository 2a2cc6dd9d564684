import GoGaia.Clique.Tally
import GoGaia.Lib.EState

/-!
# What `Snapshot.apply` keeps

Over any chain of headers that `apply` accepts from a genesis snapshot, the votes stay consistent
and the signer set changes only by the majority of its own members. The votes' part is
`VoteInv`: the tally counts the votes (`TallyOf`) in the direction that would change the signer
set, every vote was cast by a signer of the set after the last checkpoint, and a signer has one
vote at most on an address. `Recents` is a window behind the head, `len(Signers)/2 + 1` blocks
long, whose length changes by one at most from block to block; `RecentInv` says that a signer of
an accepted header stays in `Recents` while the window of the current signer set covers it.

Each phase of a header gets one inversion lemma (`recordVote_ok`, `tallyUp_cases`), and the
invariants are proved over those: the step (`applyHeader_inv`), then the run over the headers
(`applyAll_inv`), then `apply_keeps_voting_invariant`, which states the invariant of the final
snapshot and the two facts of each block of the run.
-/

namespace GoGaia.Clique

namespace Snapshot

variable {cfg : CliqueConfig} {s s' : Snapshot}

/-! ## The fields each operation keeps -/

section Fields

variable (n : Nat) (x a : Address)

@[simp] theorem checkpoint_signers : (s.checkpoint cfg n).signers = s.signers := by
  unfold checkpoint
  split_ifs <;> rfl

@[simp] theorem checkpoint_recents : (s.checkpoint cfg n).recents = s.recents := by
  unfold checkpoint
  split_ifs <;> rfl

@[simp] theorem checkpoint_number : (s.checkpoint cfg n).number = s.number := by
  unfold checkpoint
  split_ifs <;> rfl

@[simp] theorem trimRecents_signers : (s.trimRecents n).signers = s.signers := by
  unfold trimRecents
  split_ifs <;> rfl

@[simp] theorem trimRecents_votes : (s.trimRecents n).votes = s.votes := by
  unfold trimRecents
  split_ifs <;> rfl

@[simp] theorem trimRecents_tally : (s.trimRecents n).tally = s.tally := by
  unfold trimRecents
  split_ifs <;> rfl

@[simp] theorem trimRecents_number : (s.trimRecents n).number = s.number := by
  unfold trimRecents
  split_ifs <;> rfl

@[simp] theorem setRecent_signers : (s.setRecent n x).signers = s.signers := rfl

@[simp] theorem setRecent_votes : (s.setRecent n x).votes = s.votes := rfl

@[simp] theorem setRecent_tally : (s.setRecent n x).tally = s.tally := rfl

@[simp] theorem setRecent_number : (s.setRecent n x).number = s.number := rfl

@[simp] theorem discardVote_signers : (s.discardVote x a).signers = s.signers := by
  unfold discardVote
  split <;> simp

@[simp] theorem discardVote_recents : (s.discardVote x a).recents = s.recents := by
  unfold discardVote
  split <;> simp

@[simp] theorem discardVote_number : (s.discardVote x a).number = s.number := by
  unfold discardVote
  split <;> simp

theorem foldl_uncast_fields (vs : List Vote) (s : Snapshot) :
    let s' := vs.foldl (fun s v => (s.uncast v.address v.authorize).2) s
    s'.signers = s.signers ∧ s'.recents = s.recents ∧ s'.number = s.number := by
  induction vs generalizing s with
  | nil => simp
  | cons v vs ih =>
    obtain ⟨h₁, h₂, h₃⟩ := ih (s.uncast v.address v.authorize).2
    simp only [List.foldl_cons] at h₁ h₂ h₃ ⊢
    simp [h₁, h₂, h₃]

@[simp] theorem discardVotesBy_signers : (s.discardVotesBy x).signers = s.signers :=
  (foldl_uncast_fields _ s).1

@[simp] theorem discardVotesBy_recents : (s.discardVotesBy x).recents = s.recents :=
  (foldl_uncast_fields _ s).2.1

@[simp] theorem discardVotesBy_number : (s.discardVotesBy x).number = s.number :=
  (foldl_uncast_fields _ s).2.2

@[simp] theorem discardVotesBy_votes :
    (s.discardVotesBy x).votes = s.votes.filter fun v => v.signer ≠ x := rfl

end Fields

/-! ## The two phases of a header -/

/-- `validVote` holds of the votes that would change the signer set. -/
theorem validVote_iff {a : Address} {d : Bool} :
    s.validVote a d = true ↔ d = decide (a ∉ s.signers) := by
  unfold validVote
  by_cases ha : a ∈ s.signers <;> cases d <;> simp [ha]

/-- What `recordVote` checks of a header it accepts, and the snapshot it returns. -/
theorem recordVote_ok {hd : Header} {m : Snapshot} {x : Address}
    (h : s.recordVote cfg hd = .ok (m, x)) :
    hd.sealer = some x ∧ x ∈ s.signers ∧
      (∀ r ∈ ((s.checkpoint cfg hd.number).trimRecents hd.number).recents, r.2 ≠ x) ∧
      ∃ d, voteOf hd = .ok d ∧
        let w := (((s.checkpoint cfg hd.number).trimRecents hd.number).setRecent hd.number
          x).discardVote x hd.coinbase
        m = if (w.cast hd.coinbase d).1 then
            { (w.cast hd.coinbase d).2 with
              votes := (w.cast hd.coinbase d).2.votes ++ [⟨x, hd.number, hd.coinbase, d⟩] }
          else (w.cast hd.coinbase d).2 := by
  unfold recordVote at h
  cases hs : hd.sealer with
  | none => simp [hs] at h
  | some x' =>
    -- the two signer checks, then the vote's direction
    by_cases hx : x' ∈ s.signers
    · by_cases hr : (((s.checkpoint cfg hd.number).trimRecents hd.number).recents.any
          fun r => decide (r.2 = x')) = true
      · simp [hs, hx, hr] at h
      · simp only [hs, checkpoint_signers, trimRecents_signers, hx, not_true_eq_false,
          if_false, hr, Bool.false_eq_true] at h
        obtain ⟨d, hv, h⟩ := Except.bind_eq_ok h
        obtain ⟨rfl, rfl⟩ := Prod.mk.inj (Except.ok.inj h).symm
        exact ⟨rfl, hx, fun r hr' hrx => hr (List.any_eq_true.mpr ⟨r, hr', by simp [hrx]⟩), d, hv, rfl⟩
    · simp [hs, hx] at h

/-- What `recordVote` keeps of the snapshot, and the `Recents` it leaves. -/
theorem recordVote_frame {hd : Header} {m : Snapshot} {x : Address}
    (h : s.recordVote cfg hd = .ok (m, x)) :
    m.signers = s.signers ∧ m.number = s.number ∧
      m.recents =
        (((s.checkpoint cfg hd.number).trimRecents hd.number).setRecent hd.number x).recents := by
  obtain ⟨-, -, -, d, -, hm⟩ := recordVote_ok h
  simp only at hm
  subst hm
  split_ifs <;> simp

/-- `tallyUp` leaves the snapshot when the tally on the coinbase has not passed. When it has, it
authorises or drops the coinbase as the tally says, and removes the votes and the tally on it. -/
theorem tallyUp_cases (n : Nat) (cb : Address) :
    s.tallyUp n cb = s ∨ ∃ t, s.tally cb = some t ∧ s.signers.card / 2 < t.votes ∧
      ((t.authorize = true ∧ s.tallyUp n cb =
          { s with
            signers := insert cb s.signers
            votes := s.votes.filter (fun v => v.address ≠ cb)
            tally := Function.update s.tally cb none }) ∨
        (t.authorize = false ∧ s.tallyUp n cb =
          let snap := ({ s with signers := s.signers.erase cb }.trimRecents n).discardVotesBy cb
          { snap with
            votes := snap.votes.filter (fun v => v.address ≠ cb)
            tally := Function.update snap.tally cb none })) := by
  cases ht : s.tally cb with
  | none =>
    left
    simp [tallyUp, ht]
  | some t =>
    by_cases hpass : s.signers.card / 2 < t.votes
    · right
      refine ⟨t, rfl, hpass, ?_⟩
      cases hauth : t.authorize
      · exact .inr ⟨rfl, by simp [tallyUp, ht, hpass, hauth]⟩
      · exact .inl ⟨rfl, by simp [tallyUp, ht, hpass, hauth]⟩
    · left
      simp [tallyUp, ht, hpass]

@[simp] theorem tallyUp_number (n : Nat) (cb : Address) : (s.tallyUp n cb).number = s.number := by
  rcases tallyUp_cases n cb with heq | ⟨t, -, -, ⟨-, heq⟩ | ⟨-, heq⟩⟩ <;> rw [heq]
  -- the drop goes through the trim and the discarded votes
  simp

/-- A header changes the signer set by one address at most. -/
theorem tallyUp_card_le (n : Nat) (cb : Address) :
    (s.tallyUp n cb).signers.card ≤ s.signers.card + 1 := by
  rcases tallyUp_cases n cb with heq | ⟨t, -, -, ⟨-, heq⟩ | ⟨-, heq⟩⟩ <;> rw [heq]
  · exact Nat.le_succ _
  · exact Finset.card_insert_le _ _
  · simp only [discardVotesBy_signers, trimRecents_signers]
    exact Nat.le_succ_of_le (Finset.card_erase_le)

/-! ## `Recents` -/

/-- Trimming `Recents` at block `n` keeps the entries the window still covers. -/
theorem mem_trimRecents {n : Nat} {p : Nat × Address} (hp : p ∈ s.recents)
    (hn : n < p.1 + s.signers.card / 2 + 1) : p ∈ (s.trimRecents n).recents := by
  unfold trimRecents deleteRecent
  split_ifs
  · exact List.mem_filter.mpr ⟨hp, by simp only [ne_eq, decide_eq_true_eq]; omega⟩
  · exact hp

theorem mem_setRecent_self (n : Nat) (x : Address) : (n, x) ∈ (s.setRecent n x).recents :=
  List.mem_cons_self

theorem mem_setRecent_of_ne {n : Nat} {x : Address} {p : Nat × Address} (hp : p ∈ s.recents)
    (hn : p.1 ≠ n) : p ∈ (s.setRecent n x).recents :=
  List.mem_cons_of_mem _ (List.mem_filter.mpr ⟨hp, by simpa using hn⟩)

/-- `tallyUp` keeps the entries of `Recents` that the window of the new signer set covers. -/
theorem mem_tallyUp_recents {n : Nat} {cb : Address} {p : Nat × Address} (hp : p ∈ s.recents)
    (hn : n < p.1 + (s.tallyUp n cb).signers.card / 2 + 1) : p ∈ (s.tallyUp n cb).recents := by
  rcases tallyUp_cases n cb with heq | ⟨t, -, -, ⟨-, heq⟩ | ⟨-, heq⟩⟩ <;> rw [heq] at hn ⊢
  · exact hp
  · exact hp
  · -- the drop trims `Recents` once more, with the smaller window
    simp only [discardVotesBy_recents, discardVotesBy_signers, trimRecents_signers] at hn ⊢
    exact mem_trimRecents hp hn

/-! ## The invariants -/

/-- What `apply` keeps of the votes after block `number`: the tally counts them, in the direction
that would change the signer set; every vote was cast by a signer, no later than `number` and
with no checkpoint block after it; and a signer has one vote at most on an address. -/
structure VoteInv (cfg : CliqueConfig) (s : Snapshot) (number : Nat) : Prop where
  tally : TallyOf s.tally s.votes
  dir : ∀ a t, s.tally a = some t → t.authorize = decide (a ∉ s.signers)
  signer : ∀ v ∈ s.votes, v.signer ∈ s.signers
  block : ∀ v ∈ s.votes, v.block ≤ number ∧ ∀ k, v.block < k → k ≤ number → k % cfg.epoch ≠ 0
  nodup : (s.votes.map fun v => (v.signer, v.address)).Nodup

/-- What `apply` keeps of `Recents` after block `number`, over the headers `hist` it has
accepted: the signer of a header stays in `Recents` while the window of the current signer set,
`len(Signers)/2 + 1` blocks back from the next block, covers it. -/
structure RecentInv (s : Snapshot) (number : Nat) (hist : List Header) : Prop where
  past : ∀ h ∈ hist, h.number ≤ number
  recent : ∀ h ∈ hist, ∀ x, h.sealer = some x → number < h.number + s.signers.card / 2 →
    (h.number, x) ∈ s.recents

theorem RecentInv.nil (s : Snapshot) (number : Nat) : RecentInv s number [] where
  past _ h := by cases h
  recent _ h := by cases h

/-- A snapshot without votes or tallies keeps the invariant. -/
theorem VoteInv.of_nil {n : Nat} (hv : s.votes = []) (ht : s.tally = fun _ => none) :
    VoteInv cfg s n where
  tally := by
    rw [hv, ht]
    exact TallyOf.empty
  dir a t h := by
    rw [ht] at h
    cases h
  signer v h := by
    rw [hv] at h
    cases h
  block v h := by
    rw [hv] at h
    cases h
  nodup := by
    rw [hv]
    exact List.nodup_nil

theorem VoteInv.new (number : Nat) (signers : Finset Address) :
    VoteInv cfg (Snapshot.new number signers) number :=
  VoteInv.of_nil rfl rfl

/-- The invariant reads the tally, the signers and the votes only. -/
theorem VoteInv.congr {n : Nat} (h : VoteInv cfg s n) (ht : s'.tally = s.tally)
    (hs : s'.signers = s.signers) (hv : s'.votes = s.votes) : VoteInv cfg s' n where
  tally := by
    rw [ht, hv]
    exact h.tally
  dir := by
    rw [ht, hs]
    exact h.dir
  signer := by
    rw [hv, hs]
    exact h.signer
  block := by
    rw [hv]
    exact h.block
  nodup := by
    rw [hv]
    exact h.nodup

/-- Every vote is in the direction that would change the signer set. -/
theorem VoteInv.authorize_eq {n : Nat} (h : VoteInv cfg s n) {v : Vote} (hv : v ∈ s.votes) :
    v.authorize = decide (v.address ∉ s.signers) := by
  obtain ⟨t, ht, hdir⟩ := h.tally.dir v hv
  rw [← hdir]
  exact h.dir _ t ht

/-! ## One header -/

/-- The checkpoint at the next block keeps the invariant: it clears the votes, or else the
block is no checkpoint. -/
theorem VoteInv.checkpoint {m : Nat} (h : VoteInv cfg s m) :
    VoteInv cfg (s.checkpoint cfg (m + 1)) (m + 1) := by
  unfold Snapshot.checkpoint
  split_ifs with hcp
  · exact VoteInv.of_nil rfl rfl
  · refine ⟨h.tally, h.dir, h.signer, fun v hv => ?_, h.nodup⟩
    obtain ⟨hle, hk⟩ := h.block v hv
    refine ⟨Nat.le_succ_of_le hle, fun k hlt hkle => ?_⟩
    rcases Nat.lt_or_ge k (m + 1) with hkm | hkm
    · exact hk k hlt (Nat.le_of_lt_succ hkm)
    · rw [Nat.le_antisymm hkle hkm]
      exact hcp

theorem discardVote_votes_sublist (x a : Address) : (s.discardVote x a).votes.Sublist s.votes := by
  rcases discardVote_cases x a with ⟨heq, -⟩ | ⟨v, l₁, l₂, hvotes, -, -, -, heq⟩
  · rw [heq]
  · rw [heq, hvotes]
    exact (List.sublist_cons_self v l₂).append_left l₁

/-- After `discardVote` the signer has no vote left on the address. -/
theorem discardVote_not_mem (hn : (s.votes.map fun v => (v.signer, v.address)).Nodup)
    (x a : Address) : ∀ w ∈ (s.discardVote x a).votes, ¬(w.signer = x ∧ w.address = a) := by
  rcases discardVote_cases x a with ⟨heq, hnone⟩ | ⟨v, l₁, l₂, hvotes, hnot, hvx, hva, heq⟩
  · rw [heq]
    exact hnone
  · rw [heq]
    intro w hw hwx
    rcases List.mem_append.mp hw with hw | hw
    · exact hnot w hw hwx
    · -- `w` would be a second vote of the signer on the address, after `v`
      rw [hvotes, List.map_append, List.map_cons] at hn
      have hfresh := (List.nodup_cons.mp (List.nodup_append.mp hn).2.1).1
      exact hfresh (List.mem_map.mpr ⟨w, hw, by simp [hwx.1, hwx.2, hvx, hva]⟩)

theorem discardVote_tally_some {x a b : Address} {t : Tally}
    (h : (s.discardVote x a).tally b = some t) :
    ∃ t', s.tally b = some t' ∧ t'.authorize = t.authorize := by
  rcases discardVote_cases x a with ⟨heq, -⟩ | ⟨v, l₁, l₂, -, -, -, -, heq⟩ <;> rw [heq] at h
  · exact ⟨t, h, rfl⟩
  · exact uncast_tally_some h

theorem VoteInv.discardVote {n : Nat} (h : VoteInv cfg s n) (x a : Address) :
    VoteInv cfg (s.discardVote x a) n where
  tally := tallyOf_discardVote h.tally
  dir b t hb := by
    obtain ⟨t', ht', hdir⟩ := discardVote_tally_some hb
    rw [discardVote_signers, ← hdir]
    exact h.dir b t' ht'
  signer v hv := by
    rw [discardVote_signers]
    exact h.signer v ((discardVote_votes_sublist x a).subset hv)
  block v hv := h.block v ((discardVote_votes_sublist x a).subset hv)
  nodup := h.nodup.sublist ((discardVote_votes_sublist x a).map _)

/-- Casting the header's vote, and appending it when it counts, keeps the invariant, when its
signer is a signer with no vote left on the address. -/
theorem VoteInv.castVote {n : Nat} (h : VoteInv cfg s n) {x a : Address} {d : Bool}
    (hx : x ∈ s.signers) (hfree : ∀ w ∈ s.votes, ¬(w.signer = x ∧ w.address = a)) :
    VoteInv cfg (if (s.cast a d).1 then
        { (s.cast a d).2 with votes := (s.cast a d).2.votes ++ [⟨x, n, a, d⟩] }
      else (s.cast a d).2) n := by
  cases hvalid : s.validVote a d with
  | false =>
    rw [cast_of_not_valid hvalid]
    exact h
  | true =>
    -- a valid vote goes the tally's way, so `cast` counts it
    have hd : d = decide (a ∉ s.signers) := validVote_iff.mp hvalid
    obtain ⟨hc, ht⟩ := tallyOf_cast h.tally hvalid (fun t ht => (h.dir a t ht).trans hd.symm) x n
    rw [if_pos hc, cast_votes]
    refine ⟨ht, fun b t hb => ?_, fun v hv => ?_, fun v hv => ?_, ?_⟩
    · rw [cast_signers]
      rcases cast_tally_some hb with ⟨t', ht', hdir⟩ | ⟨rfl, hdir⟩
      · rw [← hdir]
        exact h.dir b t' ht'
      · rw [hdir]
        exact hd
    · rw [cast_signers]
      rcases List.mem_append.mp hv with hv | hv
      · exact h.signer v hv
      · rw [List.mem_singleton.mp hv]
        exact hx
    · rcases List.mem_append.mp hv with hv | hv
      · exact h.block v hv
      · rw [List.mem_singleton.mp hv]
        exact ⟨Nat.le_refl n, fun k hlt hle => absurd hle (Nat.not_le_of_lt hlt)⟩
    · rw [List.map_append, List.nodup_append]
      refine ⟨h.nodup, List.nodup_singleton _, fun p hp q hq hpq => ?_⟩
      obtain ⟨w, hw, rfl⟩ := List.mem_map.mp hp
      rw [List.map_singleton, List.mem_singleton] at hq
      subst hq
      exact hfree w hw (Prod.mk.inj hpq)

/-- `recordVote` keeps the invariant, at the header's block. -/
theorem VoteInv.recordVote {m : Nat} {hd : Header} {r : Snapshot} {x : Address}
    (h : VoteInv cfg s m) (hn : hd.number = m + 1) (hrec : s.recordVote cfg hd = .ok (r, x)) :
    VoteInv cfg r hd.number := by
  obtain ⟨-, hx, -, d, -, hr⟩ := recordVote_ok hrec
  simp only at hr
  rw [hr]
  have hu : VoteInv cfg (((s.checkpoint cfg hd.number).trimRecents hd.number).setRecent
      hd.number x) hd.number := by
    rw [hn]
    exact h.checkpoint.congr (by simp) (by simp) (by simp)
  exact (hu.discardVote x hd.coinbase).castVote (by simpa using hx)
    (discardVote_not_mem hu.nodup x hd.coinbase)

/-- The last step of a passed vote: the votes and the tally on the changed address go. Before it,
the invariant needs to hold away from that address only. -/
theorem VoteInv.forget {n : Nat} {s₀ : Snapshot} (h₀ : VoteInv cfg s₀ n) (cb : Address)
    (hsub : s.votes.Sublist s₀.votes) (ht : TallyOf s.tally s.votes)
    (hdir : ∀ a t, a ≠ cb → s.tally a = some t → t.authorize = decide (a ∉ s.signers))
    (hsig : ∀ v ∈ s.votes, v.signer ∈ s.signers) :
    VoteInv cfg { s with
      votes := s.votes.filter (fun v => v.address ≠ cb)
      tally := Function.update s.tally cb none } n where
  tally := ht.forget cb
  dir a t ha := by
    have hac : a ≠ cb := by
      rintro rfl
      simp at ha
    exact hdir a t hac (by simpa [hac] using ha)
  signer v hv := hsig v (List.mem_of_mem_filter hv)
  block v hv := h₀.block v (hsub.subset (List.mem_of_mem_filter hv))
  nodup := h₀.nodup.sublist ((List.filter_sublist.trans hsub).map _)

/-- `tallyUp` keeps the invariant: the votes and the tally on a changed address go, and so do a
dropped signer's votes. -/
theorem VoteInv.tallyUp {n : Nat} (h : VoteInv cfg s n) (cb : Address) :
    VoteInv cfg (s.tallyUp n cb) n := by
  rcases tallyUp_cases n cb with heq | ⟨t, -, -, ⟨-, heq⟩ | ⟨-, heq⟩⟩ <;> rw [heq]
  · exact h
  · -- the coinbase is authorised
    exact VoteInv.forget (s := { s with signers := insert cb s.signers }) h cb
      (List.Sublist.refl _) h.tally (fun a t' hac ha => by simpa [hac] using h.dir a t' ha)
      (fun v hv => Finset.mem_insert_of_mem (h.signer v hv))
  · -- the coinbase is dropped, with the votes it cast
    have hu : TallyOf ({ s with signers := s.signers.erase cb }.trimRecents n).tally
        ({ s with signers := s.signers.erase cb }.trimRecents n).votes := by
      rw [trimRecents_tally, trimRecents_votes]
      exact h.tally
    refine VoteInv.forget h cb ?_ (tallyOf_discardVotesBy hu) (fun a t' hac ha => ?_)
      (fun v hv => ?_)
    · simp only [discardVotesBy_votes, trimRecents_votes]
      exact List.filter_sublist
    · obtain ⟨t'', ht'', hdir⟩ := foldl_uncast_tally_some _ _ ha
      rw [trimRecents_tally] at ht''
      simpa [hac, ← hdir] using h.dir a t'' ht''
    · simp only [discardVotesBy_votes, trimRecents_votes, List.mem_filter,
        decide_eq_true_eq] at hv
      simp only [discardVotesBy_signers, trimRecents_signers, Finset.mem_erase]
      exact ⟨hv.2, h.signer v hv.1⟩

/-- The signers whose votes on an address count a change of the signer set, counted by the
number of votes on it. -/
theorem VoteInv.votesOn_le_supporters {n : Nat} (h : VoteInv cfg s n) (a : Address) :
    votesOn s.votes a ≤ (s.signers.filter fun z =>
      ∃ v ∈ s.votes, v.signer = z ∧ v.address = a ∧ v.authorize = decide (a ∉ s.signers)).card := by
  have hpairs : ((s.votes.filter fun v => v.address = a).map fun v => (v.signer, v.address)).Nodup :=
    h.nodup.sublist (List.filter_sublist.map _)
  -- two votes on the address by one signer would be one pair twice
  have hnd : ((s.votes.filter fun v => v.address = a).map Vote.signer).Nodup := by
    refine (List.Nodup.of_map _ hpairs).map_on fun v hv w hw hvw => ?_
    apply List.inj_on_of_nodup_map hpairs hv hw
    have hva := (List.mem_filter.mp hv).2
    have hwa := (List.mem_filter.mp hw).2
    simp only [decide_eq_true_eq] at hva hwa
    simp [hvw, hva, hwa]
  have hsub : ((s.votes.filter fun v => v.address = a).map Vote.signer).toFinset ⊆
      s.signers.filter fun z =>
        ∃ v ∈ s.votes, v.signer = z ∧ v.address = a ∧ v.authorize = decide (a ∉ s.signers) := by
    intro z hz
    simp only [List.mem_toFinset, List.mem_map] at hz
    obtain ⟨v, hv, rfl⟩ := hz
    obtain ⟨hvs, hva⟩ := List.mem_filter.mp hv
    simp only [decide_eq_true_eq] at hva
    refine Finset.mem_filter.mpr ⟨h.signer v hvs, v, hvs, rfl, hva, ?_⟩
    rw [← hva]
    exact h.authorize_eq hvs
  calc votesOn s.votes a = ((s.votes.filter fun v => v.address = a).map Vote.signer).length := by
        simp [votesOn, List.countP_eq_length_filter]
    _ = ((s.votes.filter fun v => v.address = a).map Vote.signer).toFinset.card :=
        (List.toFinset_card_of_nodup hnd).symm
    _ ≤ _ := Finset.card_le_card hsub

/-- An address enters or leaves the signer set only as the coinbase whose tally has passed, when
more than half of the signers hold a vote for the change. -/
theorem VoteInv.tallyUp_signers {n : Nat} (h : VoteInv cfg s n) {cb y : Address}
    (hy : ¬(y ∈ (s.tallyUp n cb).signers ↔ y ∈ s.signers)) :
    y = cb ∧ s.signers.card < 2 * (s.signers.filter fun z =>
      ∃ v ∈ s.votes, v.signer = z ∧ v.address = y ∧ v.authorize = decide (y ∉ s.signers)).card := by
  rcases tallyUp_cases n cb with heq | ⟨t, ht, hpass, hcase⟩
  · rw [heq] at hy
    exact absurd Iff.rfl hy
  · have hyc : y = cb := by
      by_contra hne
      apply hy
      rcases hcase with ⟨-, heq⟩ | ⟨-, heq⟩ <;> rw [heq] <;> simp [hne]
    subst hyc
    have hcount := (h.tally.count y t ht).1
    have hle := h.votesOn_le_supporters y
    exact ⟨rfl, by omega⟩

theorem applyHeader_ok {hd : Header} (h : s.applyHeader cfg hd = .ok s') :
    ∃ m x, s.recordVote cfg hd = .ok (m, x) ∧ s' = m.tallyUp hd.number hd.coinbase := by
  obtain ⟨⟨m, x⟩, hr, h⟩ := Except.bind_eq_ok h
  exact ⟨m, x, hr, (Except.ok.inj h).symm⟩

/-- One header keeps both invariants. Its signer signed none of the blocks the window behind it
covers: the gap to an earlier block of the same signer is at least the window's length. -/
theorem applyHeader_inv {m : Nat} {hist : List Header} {hd : Header} (hv : VoteInv cfg s m)
    (hr : RecentInv s m hist) (hn : hd.number = m + 1) (h : s.applyHeader cfg hd = .ok s') :
    (∀ h' ∈ hist, h'.sealer = hd.sealer → h'.number + s.signers.card / 2 + 1 ≤ hd.number) ∧
      VoteInv cfg s' hd.number ∧ RecentInv s' hd.number (hist ++ [hd]) := by
  obtain ⟨r, x, hrec, rfl⟩ := applyHeader_ok h
  obtain ⟨hsx, -, hfree, -⟩ := recordVote_ok hrec
  obtain ⟨hsig, -, hrecents⟩ := recordVote_frame hrec
  -- the signers of the blocks the window covers are still in the trimmed `Recents`
  have hwin : ∀ h' ∈ hist, ∀ y, h'.sealer = some y → m < h'.number + s.signers.card / 2 →
      (h'.number, y) ∈ ((s.checkpoint cfg hd.number).trimRecents hd.number).recents := by
    intro h' hh' y hy hlt
    apply mem_trimRecents
    · rw [checkpoint_recents]
      exact hr.recent h' hh' y hy hlt
    · rw [checkpoint_signers]
      omega
  have hcard : (r.tallyUp hd.number hd.coinbase).signers.card ≤ s.signers.card + 1 :=
    hsig ▸ tallyUp_card_le hd.number hd.coinbase
  refine ⟨fun h' hh' hseal => ?_, (hv.recordVote hn hrec).tallyUp hd.coinbase,
    fun h' hh' => ?_, fun h' hh' y hy hlt => ?_⟩
  · rw [hsx] at hseal
    by_contra hgap
    exact hfree _ (hwin h' hh' x hseal (by omega)) rfl
  · rcases List.mem_append.mp hh' with hh' | hh'
    · have := hr.past h' hh'
      omega
    · rw [List.mem_singleton.mp hh']
  · apply mem_tallyUp_recents _ (by omega)
    rw [hrecents]
    rcases List.mem_append.mp hh' with hh' | hh'
    · -- an older header, which the window of the block before still covered
      have hpast := hr.past h' hh'
      exact mem_setRecent_of_ne (hwin h' hh' y hy (by omega)) (by omega)
    · rw [List.mem_singleton.mp hh'] at hy ⊢
      rw [hsx, Option.some.injEq] at hy
      rw [← hy]
      exact mem_setRecent_self _ _

/-! ## The run -/

theorem applyAll_cons_ok {hd : Header} {hs : List Header} (h : s.applyAll cfg (hd :: hs) = .ok s') :
    ∃ s₁, s.applyHeader cfg hd = .ok s₁ ∧ s₁.applyAll cfg hs = .ok s' :=
  Except.bind_eq_ok h

theorem applyAll_append_ok : ∀ {s s' : Snapshot} {l₁ l₂ : List Header},
    s.applyAll cfg (l₁ ++ l₂) = .ok s' → ∃ s₁, s.applyAll cfg l₁ = .ok s₁ ∧ s₁.applyAll cfg l₂ = .ok s'
  | s, _, [], _, h => ⟨s, rfl, h⟩
  | _, _, _ :: _, _, h => by
    obtain ⟨s₀, h₀, h⟩ := applyAll_cons_ok h
    obtain ⟨s₁, h₁, h₂⟩ := applyAll_append_ok h
    exact ⟨s₁, by rw [applyAll, h₀]; exact h₁, h₂⟩

theorem applyAll_number : ∀ {s s' : Snapshot} {hs : List Header},
    s.applyAll cfg hs = .ok s' → s'.number = s.number
  | _, _, [], h => by cases h; rfl
  | _, _, _ :: _, h => by
    obtain ⟨s₁, h₁, h⟩ := applyAll_cons_ok h
    obtain ⟨r, x, hrec, rfl⟩ := applyHeader_ok h₁
    rw [applyAll_number h, tallyUp_number, (recordVote_frame hrec).2.1]

/-- The run over the headers keeps both invariants; the headers are numbered one after another. -/
theorem applyAll_inv : ∀ {s s' : Snapshot} {m : Nat} {hist hs : List Header},
    VoteInv cfg s m → RecentInv s m hist → Contiguous m hs = true → s.applyAll cfg hs = .ok s' →
      VoteInv cfg s' (m + hs.length) ∧ RecentInv s' (m + hs.length) (hist ++ hs)
  | _, _, _, _, [], hv, hr, _, h => by
    cases h
    simpa using ⟨hv, hr⟩
  | _, _, m, hist, hd :: hs, hv, hr, hc, h => by
    simp only [Contiguous, Bool.and_eq_true, decide_eq_true_eq] at hc
    obtain ⟨s₁, h₁, h⟩ := applyAll_cons_ok h
    obtain ⟨-, hv₁, hr₁⟩ := applyHeader_inv hv hr hc.1 h₁
    obtain ⟨hv', hr'⟩ := applyAll_inv hv₁ hr₁ hc.2 h
    have hlen : hd.number + hs.length = m + (hd :: hs).length := by
      rw [hc.1, List.length_cons]
      omega
    rw [hlen] at hv' hr'
    rw [List.append_assoc, List.singleton_append] at hr'
    exact ⟨hv', hr'⟩

theorem contiguous_append {l₁ l₂ : List Header} : ∀ {n : Nat},
    Contiguous n (l₁ ++ l₂) = true ↔ Contiguous n l₁ = true ∧ Contiguous (n + l₁.length) l₂ = true := by
  induction l₁ with
  | nil => simp [Contiguous]
  | cons hd l₁ ih =>
    intro n
    simp only [List.cons_append, Contiguous, Bool.and_eq_true, decide_eq_true_eq, ih,
      List.length_cons]
    have e : ∀ k, k = n + 1 → k + l₁.length = n + (l₁.length + 1) := by
      intro k hk
      omega
    constructor
    · rintro ⟨hn, h₁, h₂⟩
      exact ⟨⟨hn, h₁⟩, e _ hn ▸ h₂⟩
    · rintro ⟨⟨hn, h₁⟩, h₂⟩
      exact ⟨hn, h₁, (e _ hn).symm ▸ h₂⟩

theorem apply_ok {hs : List Header} (h : s.apply cfg hs = .ok s') :
    Contiguous s.number hs = true ∧
      ∃ snap, s.applyAll cfg hs = .ok snap ∧ s' = { snap with number := snap.number + hs.length } := by
  unfold apply at h
  cases hs with
  | nil =>
    cases h
    exact ⟨rfl, _, rfl, rfl⟩
  | cons hd hs =>
    by_cases hc : Contiguous s.number (hd :: hs) = true
    · simp only [List.isEmpty_cons, hc, Bool.not_true, Bool.false_eq_true, if_false] at h
      obtain ⟨snap, hrun, h⟩ := Except.bind_eq_ok h
      exact ⟨hc, snap, hrun, (Except.ok.inj h).symm⟩
    · simp [hc] at h

/-! ## `apply` -/

/-- `Snapshot.apply` from a genesis snapshot, over any headers it accepts. The final snapshot's
tally counts its votes, all in the tally's direction, and there is no tally without votes; every
vote was cast by a signer since the last checkpoint, and no signer has two votes on an address.
At each header `j`, with `sj` the snapshot before it and `m` the one after its vote is recorded,
an address enters or leaves the signer set only as the header's coinbase, when more than half
of the signers of `sj` hold a vote in `m` for the change; and an earlier header with the same
signer is at least `len(sj.Signers)/2 + 1` blocks behind it. -/
theorem apply_keeps_voting_invariant (cfg : CliqueConfig) (number : Nat)
    (signers : Finset Address) (headers : List Header) (s' : Snapshot)
    (h : (new number signers).apply cfg headers = .ok s') :
    (∀ a t, s'.tally a = some t →
      t.votes = votesOn s'.votes a ∧ ∀ v ∈ s'.votes, v.address = a → v.authorize = t.authorize) ∧
    (∀ a, votesOn s'.votes a = 0 → s'.tally a = none) ∧
    (∀ v ∈ s'.votes, v.signer ∈ s'.signers ∧ v.block ≤ s'.number ∧
      ∀ k, v.block < k → k ≤ s'.number → k % cfg.epoch ≠ 0) ∧
    (s'.votes.map fun v => (v.signer, v.address)).Nodup ∧
    (∀ j (hj : j < headers.length) sj m x,
      (new number signers).applyAll cfg (headers.take j) = .ok sj →
      sj.recordVote cfg headers[j] = .ok (m, x) → ∀ y,
      ¬(y ∈ (m.tallyUp headers[j].number headers[j].coinbase).signers ↔ y ∈ sj.signers) →
      y = headers[j].coinbase ∧ sj.signers.card < 2 * (sj.signers.filter fun z =>
        ∃ v ∈ m.votes, v.signer = z ∧ v.address = y ∧ v.authorize = decide (y ∉ sj.signers)).card) ∧
    (∀ i j (hij : i < j) (hj : j < headers.length) sj,
      (new number signers).applyAll cfg (headers.take j) = .ok sj →
      headers[i].sealer = headers[j].sealer →
      headers[i].number + sj.signers.card / 2 + 1 ≤ headers[j].number) := by
  obtain ⟨hc, snap, hrun, rfl⟩ := apply_ok h
  have hnum : snap.number = number := applyAll_number hrun
  obtain ⟨hv, -⟩ := applyAll_inv (VoteInv.new number signers) (RecentInv.nil _ _) hc hrun
  -- the snapshot before header `j` keeps the invariants, at the block before the header's
  have hpre : ∀ j (hj : j < headers.length) sj,
      (new number signers).applyAll cfg (headers.take j) = .ok sj →
      VoteInv cfg sj (number + j) ∧ RecentInv sj (number + j) (headers.take j) ∧
        headers[j].number = number + j + 1 := by
    intro j hj sj hsj
    have hc' := hc
    rw [← List.take_append_drop j headers, contiguous_append] at hc'
    have hlen : (headers.take j).length = j := List.length_take_of_le (Nat.le_of_lt hj)
    rw [hlen, List.drop_eq_getElem_cons hj] at hc'
    simp only [Contiguous, Bool.and_eq_true, decide_eq_true_eq] at hc'
    obtain ⟨hvj, hrj⟩ := applyAll_inv (VoteInv.new number signers) (RecentInv.nil _ _) hc'.1 hsj
    rw [hlen] at hvj hrj
    exact ⟨hvj, by simpa using hrj, hc'.2.1⟩
  refine ⟨fun a t ht => ⟨(hv.tally.count a t ht).1, fun v hv' hva => hv.tally.authorize_eq ht hv' hva⟩,
    fun a ha => hv.tally.eq_none ha, fun v hv' => ?_, hv.nodup, ?_, ?_⟩
  · -- the final snapshot is at the last header's block
    obtain ⟨hle, hk⟩ := hv.block v hv'
    have hlast : snap.number + headers.length = number + headers.length := by rw [hnum]
    exact ⟨hv.signer v hv', hlast ▸ hle, hlast ▸ hk⟩
  · intro j hj sj m x hsj hrec y hy
    obtain ⟨hvj, -, hnj⟩ := hpre j hj sj hsj
    have hsig := (recordVote_frame hrec).1
    rw [← hsig] at hy
    have := (hvj.recordVote hnj hrec).tallyUp_signers hy
    rwa [hsig] at this
  · intro i j hij hj sj hsj hseal
    obtain ⟨hvj, hrj, hnj⟩ := hpre j hj sj hsj
    -- the run goes on through header `j`
    rw [← List.take_append_drop j headers, List.drop_eq_getElem_cons hj] at hrun
    obtain ⟨s₁, h₁, h₂⟩ := applyAll_append_ok hrun
    rw [hsj, Except.ok.injEq] at h₁
    subst h₁
    obtain ⟨s₂, h₂, -⟩ := applyAll_cons_ok h₂
    obtain ⟨hgap, -, -⟩ := applyHeader_inv hvj hrj hnj h₂
    have hmem : headers[i] ∈ headers.take j := by
      rw [List.mem_iff_getElem]
      exact ⟨i, by simp; omega, List.getElem_take⟩
    exact hgap _ hmem hseal

/-- A checkpoint every four blocks. -/
def cfgFour : CliqueConfig := ⟨4, by decide⟩

/-- Signers 1 and 2 vote 4 in at blocks 1 and 2; then 3, 4 (at the checkpoint block 4, which
clears 3's vote), 1 itself and 2 vote to drop 1, which passes at block 6. -/
def dropRun : List Header :=
  [⟨1, 4, nonceAuthVote, some 1⟩, ⟨2, 4, nonceAuthVote, some 2⟩, ⟨3, 1, nonceDropVote, some 3⟩,
    ⟨4, 1, nonceDropVote, some 4⟩, ⟨5, 1, nonceDropVote, some 1⟩, ⟨6, 1, nonceDropVote, some 2⟩]

theorem apply_keeps_voting_invariant_dropRun :
    ∃ s', (new 0 {1, 2, 3}).apply cfgFour dropRun = .ok s' ∧ s'.signers = {2, 3, 4} ∧
      ∃ s₄, (new 0 {1, 2, 3}).applyAll cfgFour (dropRun.take 4) = .ok s₄ ∧
        s₄.signers.card = 4 ∧ 1 + s₄.signers.card / 2 + 1 ≤ 5 := by
  obtain ⟨-, -, -, -, -, hgap⟩ := apply_keeps_voting_invariant cfgFour 0 {1, 2, 3} dropRun _ rfl
  exact ⟨_, rfl, by decide, _, rfl, by decide, hgap 0 4 (by decide) (by decide) _ rfl rfl⟩

end Snapshot

end GoGaia.Clique
