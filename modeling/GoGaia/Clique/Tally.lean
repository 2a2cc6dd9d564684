import GoGaia.Clique.Snapshot

/-!
# The tally counts the votes

`Snapshot` keeps its tally next to the chronological list of votes, and `cast` and `uncast`
repair it by one vote at a time. `TallyOf tally vs` says that the tally counts the list: the
tally on an address holds the number of votes on it, at least one, and every vote has a tally on
its address in its own direction. This module proves what each repair does to that relation:
`uncast` of a vote of the list counts the list without it, `cast` of a vote in the tally's
direction counts the list with it, and so do the removals `apply` makes (`discardVote`,
`discardVotesBy`, and the votes on an address whose tally is deleted).
-/

namespace GoGaia.Clique

/-- The number of votes on an address. -/
def votesOn (vs : List Vote) (a : Address) : Nat := vs.countP fun v => v.address = a

@[simp] theorem votesOn_nil (a : Address) : votesOn [] a = 0 := rfl

@[simp] theorem votesOn_append (vs ws : List Vote) (a : Address) :
    votesOn (vs ++ ws) a = votesOn vs a + votesOn ws a := List.countP_append

@[simp] theorem votesOn_cons (v : Vote) (vs : List Vote) (a : Address) :
    votesOn (v :: vs) a = votesOn vs a + if v.address = a then 1 else 0 := by
  simp [votesOn, List.countP_cons]

/-- The tally counts the votes `vs`. -/
structure TallyOf (tally : Address → Option Tally) (vs : List Vote) : Prop where
  count : ∀ a t, tally a = some t → t.votes = votesOn vs a ∧ 0 < t.votes
  dir : ∀ v ∈ vs, ∃ t, tally v.address = some t ∧ t.authorize = v.authorize

theorem TallyOf.empty : TallyOf (fun _ => none) [] where
  count _ _ h := by cases h
  dir _ h := by cases h

/-- An address without a tally has no votes. -/
theorem TallyOf.votesOn_eq_zero {tally : Address → Option Tally} {vs : List Vote} {a : Address}
    (h : TallyOf tally vs) (ha : tally a = none) : votesOn vs a = 0 := by
  rw [votesOn, List.countP_eq_zero]
  intro v hv hva
  obtain ⟨t, ht, -⟩ := h.dir v hv
  simp only [decide_eq_true_eq] at hva
  rw [hva, ha] at ht
  cases ht

/-- The votes on an address with a tally are in its direction. -/
theorem TallyOf.authorize_eq {tally : Address → Option Tally} {vs : List Vote} {a : Address}
    {t : Tally} {v : Vote} (h : TallyOf tally vs) (ht : tally a = some t) (hv : v ∈ vs)
    (hva : v.address = a) : v.authorize = t.authorize := by
  obtain ⟨t', ht', hdir⟩ := h.dir v hv
  rw [hva, ht, Option.some.injEq] at ht'
  rw [← hdir, ht']

/-- An address without votes has no tally. -/
theorem TallyOf.eq_none {tally : Address → Option Tally} {vs : List Vote} {a : Address}
    (h : TallyOf tally vs) (ha : votesOn vs a = 0) : tally a = none := by
  cases ht : tally a with
  | none => rfl
  | some t =>
    have := h.count a t ht
    omega

/-- Deleting the tally on an address counts the votes on other addresses. -/
theorem TallyOf.forget {tally : Address → Option Tally} {vs : List Vote} (h : TallyOf tally vs)
    (a : Address) : TallyOf (Function.update tally a none) (vs.filter fun v => v.address ≠ a) where
  count a' t ha' := by
    by_cases h' : a' = a
    · subst h'
      simp at ha'
    · rw [Function.update_of_ne h'] at ha'
      have hcount : votesOn (vs.filter fun v => v.address ≠ a) a' = votesOn vs a' := by
        simp only [votesOn, List.countP_filter]
        congr 1
        funext v
        by_cases hv : v.address = a' <;> simp [hv, h']
      rw [hcount]
      exact h.count a' t ha'
  dir v hv := by
    simp only [List.mem_filter, decide_eq_true_eq] at hv
    rw [Function.update_of_ne hv.2]
    exact h.dir v hv.1

namespace Snapshot

variable {s : Snapshot}

@[simp] theorem uncast_votes (a : Address) (d : Bool) : (s.uncast a d).2.votes = s.votes := by
  unfold uncast
  split
  · rfl
  · split_ifs <;> rfl

@[simp] theorem uncast_signers (a : Address) (d : Bool) : (s.uncast a d).2.signers = s.signers := by
  unfold uncast
  split
  · rfl
  · split_ifs <;> rfl

@[simp] theorem uncast_recents (a : Address) (d : Bool) : (s.uncast a d).2.recents = s.recents := by
  unfold uncast
  split
  · rfl
  · split_ifs <;> rfl

@[simp] theorem cast_votes (a : Address) (d : Bool) : (s.cast a d).2.votes = s.votes := by
  unfold cast
  split
  · rfl
  · split <;> rfl

@[simp] theorem cast_signers (a : Address) (d : Bool) : (s.cast a d).2.signers = s.signers := by
  unfold cast
  split
  · rfl
  · split <;> rfl

@[simp] theorem cast_recents (a : Address) (d : Bool) : (s.cast a d).2.recents = s.recents := by
  unfold cast
  split
  · rfl
  · split <;> rfl

@[simp] theorem uncast_number (a : Address) (d : Bool) : (s.uncast a d).2.number = s.number := by
  unfold uncast
  split
  · rfl
  · split_ifs <;> rfl

@[simp] theorem cast_number (a : Address) (d : Bool) : (s.cast a d).2.number = s.number := by
  unfold cast
  split
  · rfl
  · split <;> rfl

/-- `uncast` of a vote of the list, from its tally, counts the list without it. -/
theorem tallyOf_uncast {ws vs : List Vote} {v : Vote} (h : TallyOf s.tally (ws ++ v :: vs)) :
    TallyOf (s.uncast v.address v.authorize).2.tally (ws ++ vs) := by
  obtain ⟨t, ht, hdir⟩ := h.dir v (by simp)
  obtain ⟨hcount, hpos⟩ := h.count _ _ ht
  -- the vote counts once, on its own address
  have hsplit : ∀ a, votesOn (ws ++ v :: vs) a = votesOn (ws ++ vs) a + if v.address = a then 1 else 0 := by
    intro a
    simp only [votesOn_append, votesOn_cons]
    omega
  have hmem : ∀ w ∈ ws ++ vs, w ∈ ws ++ v :: vs := by
    intro w hw
    simp only [List.mem_append, List.mem_cons] at hw ⊢
    tauto
  have hother : ∀ a, a ≠ v.address → votesOn (ws ++ vs) a = votesOn (ws ++ v :: vs) a := by
    intro a ha
    rw [hsplit a, if_neg (Ne.symm ha), Nat.add_zero]
  unfold uncast
  rw [ht]
  simp only [hdir, ne_eq, not_true_eq_false, if_false]
  split_ifs with hgt
  · -- the tally loses one vote
    dsimp only
    refine ⟨fun a t' ha => ?_, fun w hw => ?_⟩
    · by_cases hav : a = v.address
      · subst hav
        simp only [Function.update_self, Option.some.injEq] at ha
        subst ha
        have := hsplit v.address
        simp only [if_true] at this
        constructor <;> simp only <;> omega
      · rw [Function.update_of_ne hav] at ha
        rw [hother a hav]
        exact h.count a t' ha
    · obtain ⟨t'', ht'', hd''⟩ := h.dir w (hmem w hw)
      by_cases hwv : w.address = v.address
      · rw [hwv, ht] at ht''
        cases ht''
        exact ⟨⟨v.authorize, t.votes - 1⟩, by rw [hwv, Function.update_self], by rw [← hdir, hd'']⟩
      · exact ⟨t'', by rw [Function.update_of_ne hwv, ht''], hd''⟩
  · -- it was the last vote on the address: the tally goes
    dsimp only
    refine ⟨fun a t' ha => ?_, fun w hw => ?_⟩
    · by_cases hav : a = v.address
      · subst hav
        simp at ha
      · rw [Function.update_of_ne hav] at ha
        rw [hother a hav]
        exact h.count a t' ha
    · have hwv : w.address ≠ v.address := by
        intro hwv
        have hone : 0 < votesOn (ws ++ vs) v.address := by
          rw [votesOn, List.countP_pos_iff]
          exact ⟨w, hw, by simp [hwv]⟩
        have := hsplit v.address
        simp only [if_true] at this
        omega
      obtain ⟨t'', ht'', hd''⟩ := h.dir w (hmem w hw)
      exact ⟨t'', by rw [Function.update_of_ne hwv, ht''], hd''⟩

/-- `cast` of a valid vote in the direction of the tally on its address counts the list with
it. -/
theorem tallyOf_cast {vs : List Vote} {a : Address} {d : Bool} (h : TallyOf s.tally vs)
    (hvalid : s.validVote a d = true) (hdir : ∀ t, s.tally a = some t → t.authorize = d)
    (x : Address) (b : Nat) :
    (s.cast a d).1 = true ∧ TallyOf (s.cast a d).2.tally (vs ++ [⟨x, b, a, d⟩]) := by
  have hsplit : ∀ a', votesOn (vs ++ [⟨x, b, a, d⟩]) a' = votesOn vs a' + if a = a' then 1 else 0 := by
    intro a'
    simp
  unfold cast
  simp only [hvalid, Bool.not_true, Bool.false_eq_true, if_false]
  cases hta : s.tally a with
  | some old =>
    dsimp only
    refine ⟨rfl, fun a' t' ha' => ?_, fun w hw => ?_⟩
    · by_cases haa : a' = a
      · subst haa
        simp only [Function.update_self, Option.some.injEq] at ha'
        subst ha'
        have := (h.count _ _ hta).1
        rw [hsplit, if_pos rfl]
        constructor <;> simp only <;> omega
      · rw [Function.update_of_ne haa] at ha'
        rw [hsplit, if_neg (Ne.symm haa), Nat.add_zero]
        exact h.count a' t' ha'
    · rcases List.mem_append.mp hw with hw | hw
      · obtain ⟨t'', ht'', hd''⟩ := h.dir w hw
        by_cases hwa : w.address = a
        · rw [hwa, hta] at ht''
          cases ht''
          exact ⟨⟨old.authorize, old.votes + 1⟩, by rw [hwa, Function.update_self], hd''⟩
        · exact ⟨t'', by rw [Function.update_of_ne hwa, ht''], hd''⟩
      · simp only [List.mem_singleton] at hw
        subst hw
        exact ⟨_, Function.update_self _ _ _, hdir old hta⟩
  | none =>
    have hzero := h.votesOn_eq_zero hta
    dsimp only
    refine ⟨rfl, fun a' t' ha' => ?_, fun w hw => ?_⟩
    · by_cases haa : a' = a
      · subst haa
        simp only [Function.update_self, Option.some.injEq] at ha'
        subst ha'
        rw [hsplit, if_pos rfl, hzero]
        simp
      · rw [Function.update_of_ne haa] at ha'
        rw [hsplit, if_neg (Ne.symm haa), Nat.add_zero]
        exact h.count a' t' ha'
    · rcases List.mem_append.mp hw with hw | hw
      · obtain ⟨t'', ht'', hd''⟩ := h.dir w hw
        have hwa : w.address ≠ a := by
          intro hwa
          rw [hwa, hta] at ht''
          cases ht''
        exact ⟨t'', by rw [Function.update_of_ne hwa, ht''], hd''⟩
      · simp only [List.mem_singleton] at hw
        subst hw
        exact ⟨_, Function.update_self _ _ _, rfl⟩

/-- A tally after `uncast` was there before it, in the same direction. -/
theorem uncast_tally_some {a b : Address} {d : Bool} {t : Tally}
    (h : (s.uncast a d).2.tally b = some t) :
    ∃ t', s.tally b = some t' ∧ t'.authorize = t.authorize := by
  unfold uncast at h
  split at h
  · exact ⟨t, h, rfl⟩
  · next old hold =>
    by_cases hb : b = a
    · subst hb
      split_ifs at h
      · exact ⟨t, h, rfl⟩
      · simp only [Function.update_self, Option.some.injEq] at h
        exact ⟨old, hold, by rw [← h]⟩
      · simp at h
    · split_ifs at h <;> simp only [Function.update_of_ne hb] at h <;> exact ⟨t, h, rfl⟩

/-- A tally after `cast` was there before it in the same direction, or is the new one on the
address in the vote's direction. -/
theorem cast_tally_some {a b : Address} {d : Bool} {t : Tally}
    (h : (s.cast a d).2.tally b = some t) :
    (∃ t', s.tally b = some t' ∧ t'.authorize = t.authorize) ∨ (b = a ∧ t.authorize = d) := by
  unfold cast at h
  split_ifs at h
  · exact .inl ⟨t, h, rfl⟩
  · by_cases hb : b = a
    · subst hb
      split at h
      · next old hold =>
        simp only [Function.update_self, Option.some.injEq] at h
        exact .inl ⟨old, hold, by rw [← h]⟩
      · simp only [Function.update_self, Option.some.injEq] at h
        exact .inr ⟨rfl, by rw [← h]⟩
    · split at h <;> simp only [Function.update_of_ne hb] at h <;> exact .inl ⟨t, h, rfl⟩

/-- A vote that is not valid is not cast. -/
theorem cast_of_not_valid {a : Address} {d : Bool} (h : s.validVote a d = false) :
    s.cast a d = (false, s) := by
  simp [cast, h]

/-- `discardVote` either finds no vote of the signer on the address and keeps the snapshot, or
uncasts the first such vote and removes it from the list. -/
theorem discardVote_cases (x a : Address) :
    (s.discardVote x a = s ∧ ∀ v ∈ s.votes, ¬(v.signer = x ∧ v.address = a)) ∨
      ∃ v l₁ l₂, s.votes = l₁ ++ v :: l₂ ∧ (∀ w ∈ l₁, ¬(w.signer = x ∧ w.address = a)) ∧
        v.signer = x ∧ v.address = a ∧
        s.discardVote x a = { (s.uncast v.address v.authorize).2 with votes := l₁ ++ l₂ } := by
  unfold discardVote
  split
  · next v hf =>
    obtain ⟨v', l₁, l₂, hnot, hpv, hvotes, herase⟩ :=
      List.exists_of_eraseP (List.mem_of_find?_eq_some hf) (List.find?_some hf)
    -- the vote found is the first one the predicate holds of
    have hv : v = v' := by
      rw [hvotes, List.find?_append, List.find?_eq_none.mpr hnot, Option.none_or] at hf
      simp only [List.find?_cons, hpv, Option.some.injEq] at hf
      exact hf.symm
    subst hv
    simp only [decide_eq_true_eq] at hnot hpv
    exact .inr ⟨v, l₁, l₂, hvotes, hnot, hpv.1, hpv.2, by rw [herase]⟩
  · next hf =>
    exact .inl ⟨rfl, fun v hv => by simpa using List.find?_eq_none.mp hf v hv⟩

/-- Discarding the signer's vote on an address keeps the tally counting the votes. -/
theorem tallyOf_discardVote {x a : Address} (h : TallyOf s.tally s.votes) :
    TallyOf (s.discardVote x a).tally (s.discardVote x a).votes := by
  rcases discardVote_cases x a with ⟨heq, -⟩ | ⟨v, l₁, l₂, hvotes, -, -, -, heq⟩
  · rw [heq]
    exact h
  · rw [heq]
    rw [hvotes] at h
    exact tallyOf_uncast h

/-- A tally after uncasting a list of votes was there before, in the same direction. -/
theorem foldl_uncast_tally_some : ∀ (vs : List Vote) (s : Snapshot) {b : Address} {t : Tally},
    (vs.foldl (fun s v => (s.uncast v.address v.authorize).2) s).tally b = some t →
      ∃ t', s.tally b = some t' ∧ t'.authorize = t.authorize
  | [], _, _, t, h => ⟨t, h, rfl⟩
  | v :: vs, s, _, _, h => by
    obtain ⟨t₁, h₁, hd₁⟩ := foldl_uncast_tally_some vs _ h
    obtain ⟨t₂, h₂, hd₂⟩ := uncast_tally_some h₁
    exact ⟨t₂, h₂, hd₂.trans hd₁⟩

/-- Uncasting the votes of one signer, in order, counts the others. -/
theorem tallyOf_foldl_uncast (x : Address) :
    ∀ (vs ws : List Vote) (s : Snapshot), TallyOf s.tally (ws ++ vs) →
      TallyOf ((vs.filter fun v => v.signer = x).foldl
        (fun s v => (s.uncast v.address v.authorize).2) s).tally
        (ws ++ vs.filter fun v => v.signer ≠ x)
  | [], ws, s, h => by simpa using h
  | v :: vs, ws, s, h => by
    by_cases hv : v.signer = x
    · -- the signer's vote is uncast and left out
      have h' := tallyOf_uncast h
      simpa [List.filter_cons, hv] using tallyOf_foldl_uncast x vs ws _ h'
    · -- another signer's vote is kept
      have h' : TallyOf s.tally ((ws ++ [v]) ++ vs) := by simpa using h
      simpa [List.filter_cons, hv] using tallyOf_foldl_uncast x vs (ws ++ [v]) s h'

/-- Discarding a signer's votes keeps the tally counting the votes. -/
theorem tallyOf_discardVotesBy {x : Address} (h : TallyOf s.tally s.votes) :
    TallyOf (s.discardVotesBy x).tally (s.discardVotesBy x).votes := by
  have := tallyOf_foldl_uncast x s.votes [] s (by simpa using h)
  simpa [discardVotesBy] using this

end Snapshot

end GoGaia.Clique
