import Mathlib

/-!
# Selection by cumulative weight

A loop that walks a list of weights, stops at the first weight that exceeds what is left of a
value and subtracts every weight it passes (`select`), picks the slot whose interval
`[w₀ + … + wᵢ₋₁, w₀ + … + wᵢ)` of the cumulative sums holds the value, when the weights are
non-negative (`select_eq_some_iff`). So of the values `0 ≤ v < w₀ + … + wₙ`, exactly `wᵢ` pick
slot `i` (`card_select`): the loop samples a slot with probability proportional to its weight.

A list cut into blocks is walked the same way block by block: selecting a block by the blocks'
sums and then a slot inside it selects that slot of the concatenation (`select_flatten`). When
the blocks have one length `m`, slot `r` of block `b` is slot `b * m + r` of the concatenation,
both to read (`getElem?_flatten_blocks`) and to overwrite (`flatten_set_blocks`); overwriting
one slot changes the sum of the weights by the difference (`sum_set_of_getElem?`).
-/

namespace CumSelect

/-- The loop: the first slot whose weight exceeds what is left of `v` after the weights before
it are subtracted, with what is left. -/
def select : List Int → Int → Option (Nat × Int)
  | [], _ => none
  | w :: ws, v => if v < w then some (0, v) else (select ws (v - w)).map fun (i, r) => (i + 1, r)

/-- Weights that are all non-negative. -/
def Nonneg (ws : List Int) : Prop := ∀ w ∈ ws, 0 ≤ w

@[simp] theorem select_nil (v : Int) : select [] v = none := rfl

theorem select_cons (w : Int) (ws : List Int) (v : Int) :
    select (w :: ws) v = if v < w then some (0, v) else
      (select ws (v - w)).map fun (i, r) => (i + 1, r) := rfl

theorem Nonneg.cons {w : Int} {ws : List Int} (h : Nonneg (w :: ws)) : 0 ≤ w ∧ Nonneg ws :=
  ⟨h w List.mem_cons_self, fun x hx => h x (List.mem_cons_of_mem _ hx)⟩

theorem Nonneg.sum_nonneg {ws : List Int} (h : Nonneg ws) : 0 ≤ ws.sum :=
  List.sum_nonneg h

theorem Nonneg.take {ws : List Int} (h : Nonneg ws) (i : Nat) : Nonneg (ws.take i) :=
  fun w hw => h w (List.mem_of_mem_take hw)

theorem select_lt_length : ∀ {ws : List Int} {v : Int} {i : Nat} {r : Int},
    select ws v = some (i, r) → i < ws.length
  | [], _, _, _, h => by simp at h
  | w :: ws, v, i, r, h => by
    rw [select_cons] at h
    split at h
    · cases h
      simp
    · obtain ⟨⟨j, r'⟩, hj, he⟩ := Option.map_eq_some_iff.mp h
      cases he
      simpa using select_lt_length hj

/-- The loop passes a prefix it does not stop in with all of the prefix subtracted. -/
theorem select_append (l r : List Int) (v : Int) :
    select (l ++ r) v =
      (select l v).or ((select r (v - l.sum)).map fun (i, x) => (i + l.length, x)) := by
  induction l generalizing v with
  | nil => simp
  | cons w l ih =>
    rw [List.cons_append, select_cons, select_cons, ih]
    by_cases hv : v < w
    · simp [hv]
    · have hsub : v - w - l.sum = v - (w + l.sum) := by omega
      simp only [hv, if_false, Option.map_or, Option.map_map, List.sum_cons, List.length_cons,
        hsub]
      congr 2

/-- Non-negative weights that sum to at most `v` let the loop run off the end. -/
theorem select_eq_none_of_sum_le : ∀ {ws : List Int} {v : Int}, Nonneg ws → ws.sum ≤ v →
    select ws v = none
  | [], _, _, _ => rfl
  | w :: ws, v, h, hv => by
    obtain ⟨hw, hws⟩ := h.cons
    have hsum := hws.sum_nonneg
    rw [List.sum_cons] at hv
    rw [select_cons, if_neg (by omega), select_eq_none_of_sum_le hws (by omega), Option.map_none]

/-- Over non-negative weights the loop picks slot `i` exactly for the values in its interval of
the cumulative sums, and leaves the offset of the value in it. -/
theorem select_eq_some_iff : ∀ {ws : List Int} {v : Int} {i : Nat} {r : Int}, Nonneg ws → 0 ≤ v →
    (select ws v = some (i, r) ↔
      (ws.take i).sum ≤ v ∧ v < (ws.take (i + 1)).sum ∧ r = v - (ws.take i).sum)
  | [], v, i, r, _, hv => by simp; omega
  | w :: ws, v, 0, r, _, hv => by
    rw [select_cons]
    split
    · simp only [Option.some.injEq, Prod.mk.injEq, true_and, List.take_zero, List.sum_nil,
        zero_add, List.take_succ_cons, List.sum_cons, sub_zero]
      constructor
      · rintro rfl
        simp_all
      · rintro ⟨-, -, rfl⟩
        rfl
    · simp only [Option.map_eq_some_iff, Prod.exists, Prod.mk.injEq, List.take_zero,
        List.sum_nil, List.take_succ_cons, List.sum_cons]
      constructor
      · rintro ⟨_, _, _, h, -⟩
        omega
      · rintro ⟨-, h, -⟩
        omega
  | w :: ws, v, i + 1, r, h, hv => by
    obtain ⟨hw, hws⟩ := h.cons
    have hpre := (hws.take i).sum_nonneg
    rw [select_cons]
    simp only [List.take_succ_cons, List.sum_cons]
    split
    · refine iff_of_false (by simp) ?_
      rintro ⟨h1, -⟩
      omega
    · have ih := @select_eq_some_iff ws (v - w) i r hws (by omega)
      simp only [Option.map_eq_some_iff, Prod.exists, Prod.mk.injEq, Nat.add_right_cancel_iff]
      constructor
      · rintro ⟨j, x, hsel, rfl, rfl⟩
        have := ih.mp hsel
        omega
      · rintro ⟨h1, h2, rfl⟩
        exact ⟨i, _, ih.mpr ⟨by omega, by omega, by omega⟩, rfl, rfl⟩

/-- Every value below the total of non-negative weights picks a slot. -/
theorem select_exists : ∀ {ws : List Int} {v : Int}, Nonneg ws → 0 ≤ v → v < ws.sum →
    ∃ i r, select ws v = some (i, r)
  | [], _, _, _, hlt => by simp at hlt; omega
  | w :: ws, v, h, hv, hlt => by
    rw [select_cons]
    split
    · exact ⟨0, v, rfl⟩
    · rw [List.sum_cons] at hlt
      obtain ⟨i, r, hs⟩ := select_exists (v := v - w) h.cons.2 (by omega) (by omega)
      exact ⟨i + 1, r, by rw [hs]; rfl⟩

/-- The slot the loop picks has a weight above the offset it leaves. -/
theorem select_weight {ws : List Int} {v : Int} {i : Nat} {r : Int} (h : Nonneg ws) (hv : 0 ≤ v)
    (hs : select ws v = some (i, r)) : ∃ w, ws[i]? = some w ∧ 0 ≤ r ∧ r < w := by
  have hi := select_lt_length hs
  obtain ⟨h1, h2, rfl⟩ := (select_eq_some_iff h hv).mp hs
  rw [List.sum_take_succ _ _ hi] at h2
  exact ⟨ws[i], by simp, by omega, by omega⟩

/-- Of the values below the total of non-negative weights, exactly `wᵢ` pick slot `i`. -/
theorem card_select {ws : List Int} (h : Nonneg ws) {i : Nat} (hi : i < ws.length) :
    ((Finset.Ico 0 ws.sum).filter fun v => (select ws v).map Prod.fst = some i).card =
      ws[i].toNat := by
  have hlo := (h.take i).sum_nonneg
  have hhi : (ws.take (i + 1)).sum ≤ ws.sum := by
    have hdrop : 0 ≤ (ws.drop (i + 1)).sum :=
      Nonneg.sum_nonneg fun w hw => h w (List.mem_of_mem_drop hw)
    calc (ws.take (i + 1)).sum ≤ (ws.take (i + 1)).sum + (ws.drop (i + 1)).sum := by omega
      _ = ws.sum := by rw [← List.sum_append, List.take_append_drop]
  have hfst : ∀ v, (select ws v).map Prod.fst = some i ↔ ∃ r, select ws v = some (i, r) := by
    intro v
    cases select ws v with
    | none => simp
    | some s => simp [Prod.ext_iff, eq_comm]
  have hset : ((Finset.Ico 0 ws.sum).filter fun v => (select ws v).map Prod.fst = some i) =
      Finset.Ico (ws.take i).sum (ws.take (i + 1)).sum := by
    ext v
    simp only [Finset.mem_filter, Finset.mem_Ico, hfst]
    constructor
    · rintro ⟨⟨hv0, -⟩, r, hsel⟩
      have := (select_eq_some_iff h hv0).mp hsel
      omega
    · rintro ⟨h1, h2⟩
      exact ⟨⟨by omega, by omega⟩, _, (select_eq_some_iff h (by omega)).mpr ⟨h1, h2, rfl⟩⟩
  rw [hset, Int.card_Ico, List.sum_take_succ _ _ hi]
  congr 1
  omega

/-- Selecting a block by the blocks' sums, then a slot inside it, selects that slot of the
concatenation: the loop over the concatenation passes the blocks before it whole. -/
theorem select_flatten : ∀ {L : List (List Int)} {v : Int} {b : Nat} {r : Int} {p : Nat} {x : Int},
    (∀ l ∈ L, Nonneg l) → select (L.map List.sum) v = some (b, r) →
    select (L.getD b []) r = some (p, x) →
    select L.flatten v = some (((L.take b).map List.length).sum + p, x)
  | [], _, _, _, _, _, _, hb, _ => by simp at hb
  | l :: L, v, b, r, p, x, hL, hb, hp => by
    rw [List.flatten_cons, select_append]
    rw [List.map_cons, select_cons] at hb
    split at hb
    · cases hb
      simp only [List.getD_cons_zero] at hp
      simp [hp]
    · obtain ⟨⟨b', r'⟩, hb', he⟩ := Option.map_eq_some_iff.mp hb
      cases he
      have hnone : select l v = none :=
        select_eq_none_of_sum_le (hL l List.mem_cons_self) (by omega)
      have ih := select_flatten (fun l' hl' => hL l' (List.mem_cons_of_mem _ hl')) hb'
        (by simpa using hp)
      rw [hnone, ih]
      simp only [Option.map_some, Option.none_or, List.take_succ_cons, List.map_cons,
        List.sum_cons]
      congr 2
      omega

section Blocks
variable {β : Type} {m : Nat}

/-- Blocks of one length `m` take `b * m` slots before block `b`. -/
theorem sum_map_length_take {L : List (List β)} (hL : ∀ l ∈ L, l.length = m) {b : Nat}
    (hb : b ≤ L.length) : ((L.take b).map List.length).sum = b * m := by
  have : (L.take b).map List.length = List.replicate b m := by
    rw [List.eq_replicate_iff]
    refine ⟨by simp [hb], fun n hn => ?_⟩
    obtain ⟨l, hl, rfl⟩ := List.mem_map.mp hn
    exact hL l (List.mem_of_mem_take hl)
  simp [this]

/-- Slot `r` of block `b` is slot `b * m + r` of the concatenation. -/
theorem getElem?_flatten_blocks : ∀ {L : List (List β)}, (∀ l ∈ L, l.length = m) →
    ∀ {b r : Nat}, r < m → L.flatten[b * m + r]? = (L[b]?).bind (·[r]?)
  | [], _, _, _, _ => by simp
  | l :: L, hL, b, r, hr => by
    have hl : l.length = m := hL l List.mem_cons_self
    rw [List.flatten_cons]
    cases b with
    | zero =>
      rw [List.getElem?_append_left (by omega)]
      simp
    | succ b =>
      rw [List.getElem?_append_right (by rw [hl, Nat.succ_mul]; omega),
        show (b + 1) * m + r - l.length = b * m + r by rw [hl, Nat.succ_mul]; omega]
      simpa using getElem?_flatten_blocks (fun l' hl' => hL l' (List.mem_cons_of_mem _ hl')) hr

/-- Overwriting slot `r` of block `b` overwrites slot `b * m + r` of the concatenation. -/
theorem flatten_set_blocks : ∀ {L : List (List β)}, (∀ l ∈ L, l.length = m) →
    ∀ {b r : Nat} {l : List β} (x : β), L[b]? = some l → r < m →
      (L.set b (l.set r x)).flatten = L.flatten.set (b * m + r) x
  | [], _, _, _, _, _, hb, _ => by simp at hb
  | l' :: L, hL, b, r, l, x, hb, hr => by
    have hl' : l'.length = m := hL l' List.mem_cons_self
    cases b with
    | zero =>
      simp only [List.getElem?_cons_zero, Option.some.injEq] at hb
      subst hb
      rw [List.set_cons_zero, List.flatten_cons, List.flatten_cons,
        List.set_append_left _ _ (by omega)]
      simp
    | succ b =>
      rw [List.set_cons_succ, List.flatten_cons, List.flatten_cons,
        List.set_append_right _ _ (by rw [hl', Nat.succ_mul]; omega),
        show (b + 1) * m + r - l'.length = b * m + r by rw [hl', Nat.succ_mul]; omega,
        flatten_set_blocks (fun l'' hl'' => hL l'' (List.mem_cons_of_mem _ hl'')) x
          (by simpa using hb) hr]

end Blocks

section Overwrite

/-- Overwriting one position of both lists overwrites it in their `zipWith`. -/
theorem zipWith_set_set {β γ δ : Type} (f : β → γ → δ) (l₁ : List β) (l₂ : List γ) (i : Nat)
    (a : β) (b : γ) :
    List.zipWith f (l₁.set i a) (l₂.set i b) = (List.zipWith f l₁ l₂).set i (f a b) := by
  apply List.ext_getElem?
  intro j
  simp only [List.getElem?_zipWith, List.getElem?_set, List.length_zipWith]
  by_cases hij : i = j
  · subst hij
    by_cases h1 : i < l₁.length <;> by_cases h2 : i < l₂.length <;> simp [*]
  · simp [hij]

/-- Overwriting `y` by `x` changes the sum by `x - y`. -/
theorem sum_set_of_getElem? {G : Type} [AddCommGroup G] :
    ∀ {l : List G} {i : Nat} {y : G} (x : G), l[i]? = some y → (l.set i x).sum = l.sum - y + x
  | [], _, _, _, h => by simp at h
  | z :: l, 0, y, x, h => by
    simp only [List.getElem?_cons_zero, Option.some.injEq] at h
    subst h
    simp only [List.set_cons_zero, List.sum_cons]
    abel
  | z :: l, i + 1, y, x, h => by
    simp only [List.getElem?_cons_succ] at h
    simp only [List.set_cons_succ, List.sum_cons, sum_set_of_getElem? x h]
    abel

/-- Modifying a position that holds `x` writes `f x` there. -/
theorem modify_eq_set_of_getElem? {β : Type} {l : List β} {i : Nat} {x : β} (f : β → β)
    (h : l[i]? = some x) : l.modify i f = l.set i (f x) := by
  obtain ⟨hlt, hx⟩ := List.getElem?_eq_some_iff.mp h
  apply List.ext_getElem?
  intro j
  rw [List.getElem?_modify, List.getElem?_set]
  by_cases hij : i = j
  · subst hij
    simp [hlt, hx]
  · simp [hij]

end Overwrite

end CumSelect
