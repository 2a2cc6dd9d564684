import Mathlib
import GoGaia.Les.WrsSlots

/-!
# weightedRandomSelect

The set keeps its items in a `wrsNode` tree and the position of each item in `idx`. What it
stands for is a list of slots with an index (`Indexes`): `idx` gives the position of exactly the
items stored there, and the weight of an item is that of its slot (`weightIn`). setWeight on a
stored item rewrites its slot, on a new item with a positive weight it adds a level to a full
root and inserts the item into a free slot, and it does nothing for a new item and weight 0.
From a new set, every run of update, remove and setWeight calls with non-negative int64 weights
keeps the tree well-formed and the index exact (`Inv`, `run_inv`), and the set holds for each
item the weight of the last call on it (`weightOf_run`).
-/

namespace GoGaia.Les

open WrsNode CumSelect IntBits

variable {α : Type}

/-! ## Slots with an index -/

/-- `idx` gives the position of exactly the items stored in `ss`. -/
def Indexes (idx : α → Option Nat) (ss : List (Option α × Int)) : Prop :=
  ∀ a p, idx a = some p ↔ ∃ x, ss[p]? = some (some a, x)

/-- The weight `ss` stores for `a`, found through `idx`; 0 for an item it does not hold. -/
def weightIn (idx : α → Option Nat) (ss : List (Option α × Int)) (a : α) : Int :=
  match idx a with
  | some p => ((ss[p]?).map Prod.snd).getD 0
  | none => 0

section Indexes

variable {idx : α → Option Nat} {ss : List (Option α × Int)}

theorem Indexes.of_slot (h : Indexes idx ss) {a : α} {p : Nat} {x : Int}
    (hp : ss[p]? = some (some a, x)) : idx a = some p :=
  (h a p).mpr ⟨x, hp⟩

/-- Free slots appended at the end hold nothing the index names. -/
theorem Indexes.append_free (h : Indexes idx ss) (k : Nat) :
    Indexes idx (ss ++ List.replicate k (none, 0)) := by
  intro a p
  rw [h a p]
  by_cases hp : p < ss.length
  · rw [List.getElem?_append_left hp]
  · rw [List.getElem?_append_right (by omega), List.getElem?_replicate,
      List.getElem?_eq_none (by omega)]
    split <;> simp

theorem weightIn_append_free (h : Indexes idx ss) (k : Nat) :
    weightIn idx (ss ++ List.replicate k (none, 0)) = weightIn idx ss := by
  funext a
  unfold weightIn
  split
  · rename_i p hp
    obtain ⟨x, hx⟩ := (h a p).mp hp
    rw [List.getElem?_append_left (List.getElem?_eq_some_iff.mp hx).1]
  · rfl

variable [DecidableEq α]

/-- Rewriting the slot of a stored item keeps the index, once an item set to weight 0 leaves
it. -/
theorem Indexes.set (h : Indexes idx ss) {p : Nat} {a₀ : α} {x₀ : Int}
    (hp : ss[p]? = some (some a₀, x₀)) (w : Int) :
    Indexes (if w = 0 then Function.update idx a₀ none else idx) (ss.set p (setSlot a₀ w)) := by
  have hlt := (List.getElem?_eq_some_iff.mp hp).1
  have hpa := h.of_slot hp
  intro a q
  rw [List.getElem?_set]
  by_cases hq : p = q
  · subst hq
    simp only [if_true, hlt, setSlot, Option.some.injEq, Prod.mk.injEq]
    by_cases hw : w = 0
    · simp only [hw, if_true, reduceCtorEq, false_and, exists_false, iff_false]
      by_cases ha : a = a₀
      · subst ha
        simp
      · rw [Function.update_of_ne ha]
        intro hap
        obtain ⟨x, hx⟩ := (h a p).mp hap
        rw [hp] at hx
        cases hx
        exact ha rfl
    · simp only [hw, if_false, Option.some.injEq]
      constructor
      · intro hap
        obtain ⟨x, hx⟩ := (h a p).mp hap
        rw [hp] at hx
        cases hx
        exact ⟨w, rfl, rfl⟩
      · rintro ⟨x, rfl, -⟩
        exact hpa
  · simp only [hq, if_false]
    by_cases ha : a = a₀
    · subst ha
      -- the item is stored only at `p`, so neither side holds at `q`
      have hno : ¬∃ x, ss[q]? = some (some a, x) := by
        rintro ⟨x, hx⟩
        exact hq (Option.some.inj (hpa.symm.trans (h.of_slot hx)))
      split
      · simp [hno]
      · rw [hpa]
        simp [hq, hno]
    · split
      · rw [Function.update_of_ne ha, h a q]
      · exact h a q

theorem weightIn_set (h : Indexes idx ss) {p : Nat} {a₀ : α} {x₀ : Int}
    (hp : ss[p]? = some (some a₀, x₀)) (w : Int) :
    weightIn (if w = 0 then Function.update idx a₀ none else idx) (ss.set p (setSlot a₀ w)) =
      Function.update (weightIn idx ss) a₀ w := by
  have hlt := (List.getElem?_eq_some_iff.mp hp).1
  have hpa := h.of_slot hp
  funext a
  by_cases ha : a = a₀
  · subst ha
    rw [Function.update_self]
    by_cases hw : w = 0
    · simp [weightIn, hw]
    · simp [weightIn, hw, hpa, List.getElem?_set_self hlt, setSlot]
  · rw [Function.update_of_ne ha]
    have hidx : (if w = 0 then Function.update idx a₀ none else idx) a = idx a := by
      split
      · exact Function.update_of_ne ha _ _
      · rfl
    unfold weightIn
    rw [hidx]
    split
    · rename_i q hq
      obtain ⟨x, hx⟩ := (h a q).mp hq
      have hpq : p ≠ q := fun hpq => by
        subst hpq
        rw [hp] at hx
        cases hx
        exact ha rfl
      rw [List.getElem?_set_ne hpq]
    · rfl

/-- Putting a new item into a free slot adds it to the index. -/
theorem Indexes.insert (h : Indexes idx ss) {a₀ : α} (ha₀ : idx a₀ = none) {p : Nat}
    (hp : ss[p]? = some (none, 0)) (w : Int) :
    Indexes (Function.update idx a₀ (some p)) (ss.set p (some a₀, w)) := by
  have hlt := (List.getElem?_eq_some_iff.mp hp).1
  intro a q
  rw [List.getElem?_set]
  by_cases ha : a = a₀
  · subst ha
    rw [Function.update_self]
    by_cases hq : p = q
    · subst hq
      simp [hlt]
    · simp only [hq, if_false, Option.some.injEq, false_iff]
      rintro ⟨x, hx⟩
      rw [h.of_slot hx] at ha₀
      cases ha₀
  · rw [Function.update_of_ne ha]
    by_cases hq : p = q
    · subst hq
      simp only [if_true, hlt, Option.some.injEq, Prod.mk.injEq]
      constructor
      · intro hap
        obtain ⟨x, hx⟩ := (h a p).mp hap
        rw [hp] at hx
        cases hx
      · rintro ⟨x, hx, -⟩
        exact absurd hx.symm ha
    · simp only [hq, if_false]
      exact h a q

theorem weightIn_insert (h : Indexes idx ss) {a₀ : α} (ha₀ : idx a₀ = none) {p : Nat}
    (hp : ss[p]? = some (none, 0)) (w : Int) :
    weightIn (Function.update idx a₀ (some p)) (ss.set p (some a₀, w)) =
      Function.update (weightIn idx ss) a₀ w := by
  have hlt := (List.getElem?_eq_some_iff.mp hp).1
  funext a
  by_cases ha : a = a₀
  · subst ha
    simp [weightIn, List.getElem?_set_self hlt]
  · rw [Function.update_of_ne ha]
    unfold weightIn
    rw [Function.update_of_ne ha]
    split
    · rename_i q hq
      obtain ⟨x, hx⟩ := (h a q).mp hq
      have hpq : p ≠ q := fun hpq => by
        subst hpq
        rw [hp] at hx
        cases hx
      rw [List.getElem?_set_ne hpq]
    · rfl

end Indexes

/-! ## The model -/

/-- weightedRandomSelect: the tree and the position of each item in it. -/
structure WeightedRandomSelect (α : Type) where
  root : WrsNode α
  idx : α → Option Nat

/-- newWeightedRandomSelect: an empty leaf as the root, and an empty index. -/
def newWeightedRandomSelect : WeightedRandomSelect α :=
  ⟨WrsNode.empty 0 wrsBranches, fun _ => none⟩

/-- The root setWeight inserts a new item into: a full root gets a new level above it. -/
def insertRoot (root : WrsNode α) : WrsNode α :=
  if root.itemCnt = root.maxItems then root.addLevel else root

/-- The root a new item goes into is well-formed and not full, and covers the old root's slots
and then free ones. -/
theorem insertRoot_spec {root : WrsNode α} (h : root.WF root.level) :
    (insertRoot root).WF (insertRoot root).level ∧
      (insertRoot root).itemCnt < (insertRoot root).maxItems ∧
      ∃ k, WrsNode.slots (insertRoot root).level (insertRoot root) =
        WrsNode.slots root.level root ++ List.replicate k (none, 0) := by
  have hs := h.shape
  unfold insertRoot
  split
  · rename_i hfull
    have hlv : root.addLevel.level = root.level + 1 := rfl
    rw [hlv]
    refine ⟨wf_addLevel h, ?_, _, slots_addLevel h⟩
    show root.itemCnt < root.maxItems * wrsBranches
    have := pow_pos (by decide : 0 < wrsBranches) (root.level + 1)
    rw [hfull, hs.maxItems]
    simp only [wrsBranches] at this ⊢
    omega
  · rename_i hfull
    refine ⟨h, ?_, 0, by simp⟩
    have := count_le_length (WrsNode.slots root.level root)
    rw [h.length_slots, ← hs.itemCnt, ← hs.maxItems] at this
    omega

namespace WeightedRandomSelect

/-- The leaf slots of the set's tree. -/
def slots (w : WeightedRandomSelect α) : List (Option α × Int) := WrsNode.slots w.root.level w.root

/-- The weight the set holds for an item, 0 if it does not hold it. -/
def weightOf (w : WeightedRandomSelect α) : α → Int := weightIn w.idx w.slots

/-- A reachable set: a well-formed tree and an exact index. -/
structure Inv (w : WeightedRandomSelect α) : Prop where
  wf : w.root.WF w.root.level
  idx : Indexes w.idx w.slots

theorem inv_new : (newWeightedRandomSelect : WeightedRandomSelect α).Inv := by
  have hwf : (WrsNode.empty 0 wrsBranches : WrsNode α).WF 0 := by
    simpa using @wf_empty α 0
  refine ⟨hwf, fun a p => ?_⟩
  have hslots : WrsNode.slots 0 (WrsNode.empty 0 wrsBranches : WrsNode α) =
      List.replicate wrsBranches (none, 0) := by
    simpa using @slots_empty α 0
  simp only [slots, newWeightedRandomSelect, reduceCtorEq, false_iff]
  show ¬∃ x, (WrsNode.slots 0 (WrsNode.empty 0 wrsBranches : WrsNode α))[p]? = some (some a, x)
  rw [hslots, List.getElem?_replicate]
  split <;> simp

/-- A call on the set; an update carries the items' Weight method at the time of the call. -/
inductive Call (α : Type) where
  | update (item : α) (Weight : α → Int)
  | remove (item : α)
  | setWeight (item : α) (weight : Int)

/-- The item of a call. -/
def Call.item : Call α → α
  | .update item _ => item
  | .remove item => item
  | .setWeight item _ => item

/-- The weight a call sets. -/
def Call.weight : Call α → Int
  | .update item Weight => Weight item
  | .remove _ => 0
  | .setWeight _ weight => weight

section Calls

variable [DecidableEq α]

/-- weightedRandomSelect.setWeight: `none` is a panic of the tree. -/
def setWeight (w : WeightedRandomSelect α) (item : α) (weight : Int) :
    Option (WeightedRandomSelect α) :=
  match w.idx item with
  | some idx =>
    match w.root.setWeight idx weight with
    | none => none
    | some (root, _) =>
      some { root, idx := if weight = 0 then Function.update w.idx item none else w.idx }
  | none =>
    if weight ≠ 0 then
      match (insertRoot w.root).insert item weight with
      | none => none
      | some (root', i) => some { root := root', idx := Function.update w.idx item (some i) }
    else some w

/-- weightedRandomSelect.update: the item's weight set to what its Weight method reports. -/
def update (w : WeightedRandomSelect α) (item : α) (Weight : α → Int) :
    Option (WeightedRandomSelect α) :=
  w.setWeight item (Weight item)

/-- weightedRandomSelect.remove. -/
def remove (w : WeightedRandomSelect α) (item : α) : Option (WeightedRandomSelect α) :=
  w.setWeight item 0

/-- One call. -/
def apply (w : WeightedRandomSelect α) : Call α → Option (WeightedRandomSelect α)
  | .update item Weight => w.update item Weight
  | .remove item => w.remove item
  | .setWeight item weight => w.setWeight item weight

/-- A run of calls on a new set. -/
def run (cs : List (Call α)) : Option (WeightedRandomSelect α) :=
  cs.foldlM apply newWeightedRandomSelect

theorem apply_eq (w : WeightedRandomSelect α) (c : Call α) :
    w.apply c = w.setWeight c.item c.weight := by
  cases c <;> rfl


/-! ## Runs -/

/-- One setWeight with a non-negative int64 weight never panics, keeps the invariant and sets
the item's weight. -/
theorem Inv.setWeight {w : WeightedRandomSelect α} (h : w.Inv) (item : α) {weight : Int}
    (h0 : 0 ≤ weight) (h1 : weight < 2 ^ 63) :
    ∃ w', w.setWeight item weight = some w' ∧ w'.Inv ∧
      w'.weightOf = Function.update w.weightOf item weight := by
  cases hi : w.idx item with
  | some p =>
    -- a stored item: setWeight rewrites its slot
    obtain ⟨x₀, hp⟩ := (h.idx item p).mp hi
    obtain ⟨n', hrun, hn', hslots, -⟩ := setWeightAt_spec w.root.level h.wf hp h0 h1
    have hlv : n'.level = w.root.level := hn'.shape.level.trans h.wf.shape.level.symm
    have hslots' : WrsNode.slots n'.level n' = w.slots.set p (setSlot item weight) := by
      rw [hlv, hslots]
      rfl
    refine ⟨⟨n', if weight = 0 then Function.update w.idx item none else w.idx⟩, ?_,
      ⟨by rw [hlv]; exact hn', ?_⟩, ?_⟩
    · simp only [WeightedRandomSelect.setWeight, hi, WrsNode.setWeight, hrun]
    · show Indexes _ (WrsNode.slots n'.level n')
      rw [hslots']
      exact h.idx.set hp weight
    · show weightIn _ (WrsNode.slots n'.level n') = _
      rw [hslots']
      exact weightIn_set h.idx hp weight
  | none =>
    by_cases hw : weight = 0
    · -- a new item with weight 0: nothing happens, and its weight was 0 already
      subst hw
      refine ⟨w, by simp [WeightedRandomSelect.setWeight, hi], h, ?_⟩
      funext a
      by_cases ha : a = item
      · subst ha
        simp [weightOf, weightIn, hi]
      · rw [Function.update_of_ne ha]
    · -- a new item: it goes into a free slot of the (grown) root
      obtain ⟨hwf₁, hfree₁, k, hslots₁⟩ := insertRoot_spec h.wf
      obtain ⟨n', p, hrun, hn', hp, hslots, -⟩ :=
        insertAt_spec (insertRoot w.root).level item hwf₁ hfree₁ (by omega) h1
      have hlv : n'.level = (insertRoot w.root).level :=
        hn'.shape.level.trans hwf₁.shape.level.symm
      have hidx₁ := h.idx.append_free k
      have hp' : (w.slots ++ List.replicate k (none, 0))[p]? = some (none, 0) := by
        rw [show w.slots = WrsNode.slots w.root.level w.root from rfl, ← hslots₁]
        exact hp
      have hslots' : WrsNode.slots n'.level n' =
          (w.slots ++ List.replicate k (none, 0)).set p (some item, weight) := by
        rw [hlv, hslots, hslots₁]
        rfl
      refine ⟨⟨n', Function.update w.idx item (some p)⟩, ?_, ⟨by rw [hlv]; exact hn', ?_⟩, ?_⟩
      · simp only [WeightedRandomSelect.setWeight, hi, ne_eq, hw, not_false_eq_true, if_true,
          WrsNode.insert, hrun]
      · show Indexes _ (WrsNode.slots n'.level n')
        rw [hslots']
        exact hidx₁.insert hi hp' weight
      · show weightIn _ (WrsNode.slots n'.level n') = _
        rw [hslots', weightIn_insert hidx₁ hi hp' weight, weightIn_append_free h.idx k]
        rfl

/-- A run of calls with non-negative int64 weights from any reachable set never panics, keeps
the invariant, and leaves each item with the weight of the last call on it. -/
theorem Inv.foldlM {w : WeightedRandomSelect α} (h : w.Inv) :
    ∀ cs : List (Call α), (∀ c ∈ cs, 0 ≤ c.weight ∧ c.weight < 2 ^ 63) →
      ∃ w', cs.foldlM apply w = some w' ∧ w'.Inv ∧
        w'.weightOf = cs.foldl (fun f c => Function.update f c.item c.weight) w.weightOf
  | [], _ => ⟨w, rfl, h, rfl⟩
  | c :: cs, hcs => by
    have hc := hcs c List.mem_cons_self
    obtain ⟨w₁, h₁, hinv₁, hwo₁⟩ := h.setWeight c.item hc.1 hc.2
    obtain ⟨w', h₂, hinv', hwo'⟩ :=
      hinv₁.foldlM cs fun c' hc' => hcs c' (List.mem_cons_of_mem _ hc')
    refine ⟨w', ?_, hinv', ?_⟩
    · rw [List.foldlM_cons, apply_eq, h₁]
      exact h₂
    · rw [hwo', hwo₁]
      rfl

/-- Every run from a new set with non-negative int64 weights is reachable. -/
theorem run_inv (cs : List (Call α)) (hcs : ∀ c ∈ cs, 0 ≤ c.weight ∧ c.weight < 2 ^ 63) :
    ∃ w, run cs = some w ∧ w.Inv ∧
      w.weightOf = cs.foldl (fun f c => Function.update f c.item c.weight) fun _ => 0 := by
  obtain ⟨w, hrun, hinv, hwo⟩ := inv_new.foldlM cs hcs
  refine ⟨w, hrun, hinv, ?_⟩
  rw [hwo]
  rfl

end Calls

/-! ## choose -/

theorem getElem_map_snd {ss : List (Option α × Int)} {p : Nat} {a : Option α} {x : Int}
    (hp : ss[p]? = some (a, x)) :
    ∃ hlt : p < (ss.map Prod.snd).length, (ss.map Prod.snd)[p] = x := by
  have hlt := (List.getElem?_eq_some_iff.mp hp).1
  refine ⟨by simpa using hlt, ?_⟩
  have := (List.getElem?_eq_some_iff.mp hp).2
  simp [this]

section Choose

variable {w : WeightedRandomSelect α}

/-- With the total weight below 2^63, choose v for 0 ≤ v < sumWeight returns the item of the
slot whose interval of the cumulative slot weights holds v, with its weight. -/
theorem Inv.choose (h : w.Inv) (ht : total w.slots < 2 ^ 63) {v : Int} (hv0 : 0 ≤ v)
    (hv1 : v < w.root.sumWeight) :
    ∃ p a x, w.slots[p]? = some (some a, x) ∧ ((w.slots.map Prod.snd).take p).sum ≤ v ∧
      v < ((w.slots.map Prod.snd).take p).sum + x ∧ w.root.choose v = some (a, x) := by
  have hsum := h.wf.sumWeight_eq_total ht
  obtain ⟨p, r, a, x, hsel, hp, hch⟩ := chooseAt_spec w.root.level h.wf ht hv0 (hsum ▸ hv1)
  obtain ⟨h1, h2, -⟩ := (select_eq_some_iff h.wf.nonneg hv0).mp hsel
  obtain ⟨hplt, hx⟩ := getElem_map_snd hp
  rw [List.sum_take_succ _ _ hplt, hx] at h2
  exact ⟨p, a, x, hp, h1, h2, hch⟩

/-- choose, for the values it is given, returns stored items only, and of them an item
stored at `p` exactly for the values whose slot `select` picks is `p`. -/
theorem Inv.choose_eq_iff (h : w.Inv) (ht : total w.slots < 2 ^ 63) {v : Int}
    (hv : v ∈ Finset.Ico 0 w.root.sumWeight) (a : α) :
    (w.root.choose v).map Prod.fst = some a ↔
      ∃ p x, w.slots[p]? = some (some a, x) ∧
        (select (w.slots.map Prod.snd) v).map Prod.fst = some p := by
  rw [Finset.mem_Ico, h.wf.sumWeight_eq_total ht] at hv
  obtain ⟨q, r, a', x', hsel, hq, hch⟩ := chooseAt_spec w.root.level h.wf ht hv.1 hv.2
  rw [WrsNode.choose, hch, show select (w.slots.map Prod.snd) v = some (q, r) from hsel]
  simp only [Option.map_some, Option.some.injEq]
  constructor
  · rintro rfl
    exact ⟨q, x', hq, rfl⟩
  · rintro ⟨p, x, hp, rfl⟩
    exact Option.some.inj (Prod.mk.inj (Option.some.inj (hq.symm.trans hp))).1

/-- Of the values below the root's sumWeight, exactly `x` choose an item stored with
weight `x`, when the total weight is below 2^63. -/
theorem Inv.card_choose [DecidableEq α] (h : w.Inv) (ht : total w.slots < 2 ^ 63) {p : Nat} {a : α} {x : Int}
    (hp : w.slots[p]? = some (some a, x)) :
    ((Finset.Ico 0 w.root.sumWeight).filter fun v =>
      (w.root.choose v).map Prod.fst = some a).card = x.toNat := by
  obtain ⟨hplt, hx⟩ := getElem_map_snd hp
  have hfilter : ((Finset.Ico 0 w.root.sumWeight).filter fun v =>
      (w.root.choose v).map Prod.fst = some a) =
      (Finset.Ico 0 (w.slots.map Prod.snd).sum).filter fun v =>
        (select (w.slots.map Prod.snd) v).map Prod.fst = some p := by
    rw [show (w.slots.map Prod.snd).sum = w.root.sumWeight from
      (h.wf.sumWeight_eq_total ht).symm]
    apply Finset.filter_congr
    intro v hv
    rw [h.choose_eq_iff ht hv a]
    constructor
    · rintro ⟨q, x', hq, hsel⟩
      -- an item is stored at one slot only
      rwa [Option.some.inj ((h.idx.of_slot hq).symm.trans (h.idx.of_slot hp))] at hsel
    · intro hsel
      exact ⟨p, x, hp, hsel⟩
  rw [hfilter, ← hx]
  exact card_select h.wf.nonneg hplt

/-- No value chooses an item the set does not hold. -/
theorem Inv.card_choose_of_idx_none [DecidableEq α] (h : w.Inv) (ht : total w.slots < 2 ^ 63) {a : α}
    (ha : w.idx a = none) :
    ((Finset.Ico 0 w.root.sumWeight).filter fun v =>
      (w.root.choose v).map Prod.fst = some a).card = 0 := by
  rw [Finset.card_eq_zero, Finset.filter_eq_empty_iff]
  intro v hv hch
  obtain ⟨p, x, hp, -⟩ := (h.choose_eq_iff ht hv a).mp hch
  rw [h.idx.of_slot hp] at ha
  cases ha

end Choose

section Runs

variable [DecidableEq α]

/-- For every run of update, remove and setWeight calls with non-negative int64 weights: the
run never panics; every node keeps its facts in Go's int64 arithmetic; `idx` gives the
position of exactly the stored items, and setWeight at that position rewrites exactly that
slot; and when the total stored weight is below 2^63, the sums are exact, choose returns the
stored item whose interval of the cumulative weights holds the value, and exactly `x` of the
values below the root's sumWeight choose an item stored with weight `x`. -/
theorem weighted_select_consistent (cs : List (Call α))
    (hcs : ∀ c ∈ cs, 0 ≤ c.weight ∧ c.weight < 2 ^ 63) :
    ∃ w, run cs = some w ∧
      AllNodes (NodeOK int64) w.root.level w.root ∧
      (∀ a p, w.idx a = some p ↔ ∃ x, w.slots[p]? = some (some a, x)) ∧
      (∀ a p, w.idx a = some p → ∀ weight, 0 ≤ weight → weight < 2 ^ 63 →
        ∃ root' diff, w.root.setWeight p weight = some (root', diff) ∧
          WrsNode.slots w.root.level root' = w.slots.set p (setSlot a weight)) ∧
      (total w.slots < 2 ^ 63 →
        AllNodes (NodeOK id) w.root.level w.root ∧
        (∀ v, 0 ≤ v → v < w.root.sumWeight → ∃ (p : Nat) (a : α) (x : Int),
          w.slots[p]? = some (some a, x) ∧
          ((w.slots.map Prod.snd).take p).sum ≤ v ∧ v < ((w.slots.map Prod.snd).take p).sum + x ∧
          w.root.choose v = some (a, x)) ∧
        ∀ (a : α) (p : Nat) (x : Int), w.slots[p]? = some (some a, x) →
          ((Finset.Ico 0 w.root.sumWeight).filter fun v =>
            (w.root.choose v).map Prod.fst = some a).card = x.toNat) := by
  obtain ⟨w, hrun, h, -⟩ := run_inv cs hcs
  refine ⟨w, hrun, h.wf.allNodes (B := total w.slots) (fun _ _ hn _ => hn.nodeOK_int64) le_rfl,
    h.idx, ?reach, fun ht => ⟨?exact, fun v hv0 hv1 => h.choose ht hv0 hv1,
      fun a p x hp => h.card_choose ht hp⟩⟩
  case reach =>
    intro a p hp weight h0 h1
    obtain ⟨x₀, hx⟩ := (h.idx a p).mp hp
    obtain ⟨n', hrun', -, hslots, -⟩ := setWeightAt_spec w.root.level h.wf hx h0 h1
    exact ⟨n', _, hrun', hslots⟩
  case exact =>
    exact h.wf.allNodes (fun _ _ hn hB => hn.nodeOK_exact (lt_of_le_of_lt hB ht)) le_rfl

theorem weighted_select_consistent_two :
    (∀ c ∈ [Call.setWeight (1 : Nat) 5, .setWeight 2 3, .remove 1],
      0 ≤ c.weight ∧ c.weight < 2 ^ 63) ∧
    ∃ w, run [Call.setWeight (1 : Nat) 5, .setWeight 2 3, .remove 1] = some w ∧
      ∀ a p, w.idx a = some p ↔ ∃ x, w.slots[p]? = some (some a, x) := by
  refine ⟨by decide, ?_⟩
  obtain ⟨w, hrun, -, hidx, -⟩ := weighted_select_consistent
    [Call.setWeight (1 : Nat) 5, .setWeight 2 3, .remove 1] (by decide)
  exact ⟨w, hrun, hidx⟩

/-- Three items whose weights sum past 2^64: the root's int64 sumWeight wraps to 5, so the
values choose is given are 0 to 4, and each of them chooses the first item; the item stored
with weight 7 is chosen by none. -/
theorem choose_wraps_past_int64 :
    ∃ w, run [Call.setWeight (0 : Nat) (2 ^ 63 - 1), .setWeight 1 (2 ^ 63 - 1), .setWeight 2 7] =
        some w ∧ w.slots[2]? = some (some 2, 7) ∧ w.root.sumWeight = 5 ∧
      ((Finset.Ico 0 w.root.sumWeight).filter fun v =>
        (w.root.choose v).map Prod.fst = some 2).card = 0 := by
  refine ⟨_, rfl, by decide, by decide, by decide⟩

/-- The set is a weight map sampled by weight: after every run of calls with non-negative int64
weights it holds for each item the weight of the last call on it (0 once removed), and when the
total is below 2^63 exactly that many of the values below the root's sumWeight choose it. -/
theorem run_samples_by_weight (cs : List (Call α))
    (hcs : ∀ c ∈ cs, 0 ≤ c.weight ∧ c.weight < 2 ^ 63) :
    ∃ w, run cs = some w ∧
      w.weightOf = cs.foldl (fun f c => Function.update f c.item c.weight) (fun _ => 0) ∧
      (total w.slots < 2 ^ 63 → ∀ a,
        ((Finset.Ico 0 w.root.sumWeight).filter fun v =>
          (w.root.choose v).map Prod.fst = some a).card = (w.weightOf a).toNat) := by
  obtain ⟨w, hrun, h, hwo⟩ := run_inv cs hcs
  refine ⟨w, hrun, hwo, fun ht a => ?_⟩
  cases ha : w.idx a with
  | none =>
    rw [h.card_choose_of_idx_none ht ha]
    simp [weightOf, weightIn, ha]
  | some p =>
    obtain ⟨x, hp⟩ := (h.idx a p).mp ha
    rw [h.card_choose ht hp]
    simp [weightOf, weightIn, ha, hp]

theorem run_samples_by_weight_three :
    (∀ c ∈ [Call.setWeight (1 : Nat) 5, .setWeight 2 3, .remove 1],
      0 ≤ c.weight ∧ c.weight < 2 ^ 63) ∧
    ∃ w, run [Call.setWeight (1 : Nat) 5, .setWeight 2 3, .remove 1] = some w ∧
      w.weightOf 1 = 0 ∧ w.weightOf 2 = 3 := by
  refine ⟨by decide, ?_⟩
  obtain ⟨w, hrun, hwo, -⟩ := run_samples_by_weight
    [Call.setWeight (1 : Nat) 5, .setWeight 2 3, .remove 1] (by decide)
  exact ⟨w, hrun, by rw [hwo]; decide, by rw [hwo]; decide⟩

end Runs

end WeightedRandomSelect

end GoGaia.Les
