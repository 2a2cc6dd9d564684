import Mathlib

/-!
# Cutting a range of naturals into segments

A program that walks a range `[b, e]` one fixed-size segment at a time visits the segments
`s = b / S, …, e / S`, each clipped to the range: from `max b (s * S)` to `min e (s * S + S - 1)`.
Laid end to end they are the range again, in order (`flatMap_segments`). The telescoping argument
behind it holds for the images of consecutive numbers under any monotone map
(`flatMap_range'_monotone`). A scan of a range that steps over numbers it knows to fail a test
finds what the filter finds (`filter_range'_skip`).

A stage that drops some elements of a list contributes nothing for them to a later `flatMap` if
what it drops would have contributed nothing anyway (`flatMap_filterMap`). A map that may fail
(`mapM` into `Option`) keeps the length of the list and maps each element on its own when it
succeeds (`length_of_mapM_eq_some`, `any_of_mapM_eq_some`). A loop that may fail (`foldlM` into
`Option`) and succeeds computed the plain fold of what its body computes (`foldlM_eq_some_foldl`).
-/

namespace Segments

/-- Consecutive segments `[f k, f (k + 1))` of a monotone `f` make up `[f s, f (s + n))`. -/
theorem flatMap_range'_monotone {f : Nat → Nat} (hf : Monotone f) (s n : Nat) :
    (List.range' s n).flatMap (fun k => List.range' (f k) (f (k + 1) - f k)) =
      List.range' (f s) (f (s + n) - f s) := by
  induction n generalizing s with
  | zero => simp
  | succ n ih =>
    have h1 : f s ≤ f (s + 1) := hf (Nat.le_succ s)
    have h2 : f (s + 1) ≤ f (s + 1 + n) := hf (Nat.le_add_right _ _)
    have happ := List.range'_append_1 (s := f s) (m := f (s + 1) - f s)
      (n := f (s + 1 + n) - f (s + 1))
    rw [show f s + (f (s + 1) - f s) = f (s + 1) by omega] at happ
    rw [List.range'_succ, List.flatMap_cons, ih (s + 1), happ, show s + (n + 1) = s + 1 + n by omega]
    congr 1
    omega

/-- The range `[b, e]` walked in segments of `S`, each clipped to the range, is the range. -/
theorem flatMap_segments {S : Nat} (hS : 0 < S) (b e : Nat) :
    (List.range' (b / S) (e / S + 1 - b / S)).flatMap
        (fun s => List.range' (max b (s * S)) (min e (s * S + S - 1) + 1 - max b (s * S))) =
      List.range' b (e + 1 - b) := by
  -- each segment is the step of the clamp `g` between two multiples of `S`
  let g : Nat → Nat := fun t => min (e + 1) (max b t)
  have hmono : Monotone fun k => g (k * S) := fun x y hxy =>
    min_le_min_left _ (max_le_max_left _ (Nat.mul_le_mul_right _ hxy))
  have hb : b < b / S * S + S := by
    have := Nat.lt_div_mul_add (a := b) hS
    omega
  have he : e < e / S * S + S := by
    have := Nat.lt_div_mul_add (a := e) hS
    omega
  have hseg : ∀ s ∈ List.range' (b / S) (e / S + 1 - b / S),
      List.range' (max b (s * S)) (min e (s * S + S - 1) + 1 - max b (s * S)) =
        List.range' (g (s * S)) (g ((s + 1) * S) - g (s * S)) := by
    intro s hs
    have hsb : b / S * S ≤ s * S := Nat.mul_le_mul_right _ (List.mem_range'_1.mp hs).1
    have hsucc : (s + 1) * S = s * S + S := Nat.succ_mul s S
    simp only [g, hsucc]
    by_cases hfit : max b (s * S) ≤ e + 1
    · congr 1 <;> omega
    · rw [List.range'_eq_nil_iff.mpr (by omega), List.range'_eq_nil_iff.mpr (by omega)]
  rw [List.flatMap_congr hseg, flatMap_range'_monotone hmono]
  have hlo : g (b / S * S) = min (e + 1) b := by
    simp only [g]
    have := Nat.div_mul_le_self b S
    omega
  have hhi : g ((b / S + (e / S + 1 - b / S)) * S) = e + 1 := by
    by_cases hbe : b / S ≤ e / S + 1
    · rw [show b / S + (e / S + 1 - b / S) = e / S + 1 by omega, Nat.succ_mul]
      simp only [g]
      omega
    · have hgt : e < b := by
        by_contra hle
        exact hbe (Nat.le_succ_of_le (Nat.div_le_div_right (by omega)))
      simp only [g]
      omega
  rw [hlo, hhi]
  by_cases hbe : b ≤ e + 1
  · rw [min_eq_right hbe]
  · rw [min_eq_left (by omega), List.range'_eq_nil_iff.mpr (by omega),
      List.range'_eq_nil_iff.mpr (by omega)]

/-- Numbers that fail the test can be stepped over: a filtered range may start after the first
`k` of them. -/
theorem filter_range'_skip {p : Nat → Bool} (i m k : Nat)
    (h : ∀ n, i ≤ n → n < i + k → p n = false) :
    (List.range' i m).filter p = (List.range' (i + k) (m - k)).filter p := by
  induction k generalizing i m with
  | zero => rfl
  | succ k ih =>
    cases m with
    | zero => simp
    | succ m =>
      rw [List.range'_succ, List.filter_cons_of_neg (by simp [h i le_rfl (by omega)]),
        ih (i + 1) m (fun n h1 h2 => h n (by omega) (by omega)),
        show i + 1 + k = i + (k + 1) by omega, show m - k = m + 1 - (k + 1) by omega]

/-- Dropping elements that would contribute nothing does not change a `flatMap`. -/
theorem flatMap_filterMap {α β γ : Type} {f : α → Option β} {F : β → List γ} {G : α → List γ}
    (l : List α) (hsome : ∀ x ∈ l, ∀ y, f x = some y → F y = G x)
    (hnone : ∀ x ∈ l, f x = none → G x = []) :
    (l.filterMap f).flatMap F = l.flatMap G := by
  induction l with
  | nil => rfl
  | cons x xs ih =>
    have ih' := ih (fun y hy => hsome y (List.mem_cons_of_mem _ hy))
      (fun y hy => hnone y (List.mem_cons_of_mem _ hy))
    cases hx : f x with
    | none => simp [hx, hnone x (by simp) hx, ih']
    | some y => simp [hx, hsome x (by simp) y hx, ih']

/-! ## Maps that may fail -/

section
variable {α β : Type} {f : α → Option β}

theorem mapM_cons_eq_some {a : α} {l : List α} {l' : List β} (h : (a :: l).mapM f = some l') :
    ∃ b bs, f a = some b ∧ l.mapM f = some bs ∧ l' = b :: bs := by
  rw [List.mapM_cons] at h
  cases ha : f a with
  | none => simp [ha] at h
  | some b =>
    cases hl : l.mapM f with
    | none => simp [ha, hl] at h
    | some bs =>
      simp only [ha, hl, Option.bind_eq_bind, Option.bind_some, Option.pure_def, Option.some.injEq] at h
      exact ⟨b, bs, rfl, rfl, h.symm⟩

theorem length_of_mapM_eq_some : ∀ {l : List α} {l' : List β}, l.mapM f = some l' →
    l'.length = l.length
  | [], l', h => by
    simp only [List.mapM_nil, Option.pure_def, Option.some.injEq] at h
    subst h
    rfl
  | a :: l, l', h => by
    obtain ⟨b, bs, -, hl, rfl⟩ := mapM_cons_eq_some h
    rw [List.length_cons, List.length_cons, length_of_mapM_eq_some hl]

theorem exists_of_mem_mapM : ∀ {l : List α} {l' : List β}, l.mapM f = some l' →
    ∀ b ∈ l', ∃ a ∈ l, f a = some b
  | [], l', h, b, hb => by
    simp only [List.mapM_nil, Option.pure_def, Option.some.injEq] at h
    rw [← h] at hb
    cases hb
  | a :: l, l', h, b, hb => by
    obtain ⟨b', bs, ha, hl, rfl⟩ := mapM_cons_eq_some h
    rcases List.mem_cons.mp hb with rfl | hbs
    · exact ⟨a, List.mem_cons_self, ha⟩
    · obtain ⟨a', ha', hfa'⟩ := exists_of_mem_mapM hl b hbs
      exact ⟨a', List.mem_cons_of_mem _ ha', hfa'⟩

/-- A map that succeeds at every element succeeds with the list of the results. -/
theorem mapM_eq_some_map {g : α → β} :
    ∀ {l : List α}, (∀ a ∈ l, f a = some (g a)) → l.mapM f = some (l.map g)
  | [], _ => rfl
  | a :: l, h => by
    rw [List.mapM_cons, h a List.mem_cons_self,
      mapM_eq_some_map (fun b hb => h b (List.mem_cons_of_mem _ hb))]
    rfl

/-- A map fails exactly when it fails at some element. -/
theorem mapM_eq_none_iff : ∀ {l : List α}, l.mapM f = none ↔ ∃ a ∈ l, f a = none
  | [] => by simp
  | a :: l => by
    have ih := mapM_eq_none_iff (l := l)
    rw [List.mapM_cons]
    cases ha : f a with
    | none => simp [ha]
    | some b =>
      cases hl : l.mapM f with
      | none => simp [ha, hl] at ih ⊢; exact ih
      | some bs => simp [ha, hl] at ih ⊢; exact ih

/-- A test of some element of a successful map is a test of some element of the list. -/
theorem any_of_mapM_eq_some (P : β → Bool) (Q : α → Bool) (hPQ : ∀ a b, f a = some b → P b = Q a) :
    ∀ {l : List α} {l' : List β}, l.mapM f = some l' → l'.any P = l.any Q
  | [], l', h => by
    simp only [List.mapM_nil, Option.pure_def, Option.some.injEq] at h
    rw [← h]
    rfl
  | a :: l, l', h => by
    obtain ⟨b, bs, ha, hl, rfl⟩ := mapM_cons_eq_some h
    rw [List.any_cons, List.any_cons, hPQ a b ha, any_of_mapM_eq_some P Q hPQ hl]

end

/-! ## Loops that may fail -/

section
variable {α β : Type}

/-- A loop in `Option` whose body either fails or computes `g`: when it succeeds it computed the
fold of `g`. -/
theorem foldlM_eq_some_foldl {f : β → α → Option β} {g : β → α → β} (l : List α) :
    ∀ {b b' : β}, (∀ b, ∀ a ∈ l, f b a = none ∨ f b a = some (g b a)) →
      l.foldlM f b = some b' → b' = l.foldl g b := by
  induction l with
  | nil =>
    intro b b' _ h
    exact (Option.some.inj h).symm
  | cons a l ih =>
    intro b b' hfg h
    rw [List.foldlM_cons] at h
    rcases hfg b a List.mem_cons_self with hnone | hsome
    · rw [hnone] at h
      cases h
    · rw [hsome, Option.bind_eq_bind, Option.bind_some] at h
      exact ih (fun b' a' ha' => hfg b' a' (List.mem_cons_of_mem _ ha')) h

/-- A loop in `Option` whose body computes `g` on every element, from every state of an invariant
that `g` keeps, succeeds with the fold of `g`. -/
theorem foldlM_eq_some_of_forall {f : β → α → Option β} {g : β → α → β} (P : β → Prop)
    (l : List α) : ∀ {b : β}, P b → (∀ b, P b → ∀ a ∈ l, f b a = some (g b a) ∧ P (g b a)) →
      l.foldlM f b = some (l.foldl g b) := by
  induction l with
  | nil =>
    intro b _ _
    rfl
  | cons a l ih =>
    intro b hb hfg
    obtain ⟨hstep, hinv⟩ := hfg b hb a List.mem_cons_self
    rw [List.foldlM_cons, hstep, Option.bind_eq_bind, Option.bind_some, List.foldl_cons,
      ih hinv (fun b' hb' a' ha' => hfg b' hb' a' (List.mem_cons_of_mem _ ha'))]

theorem isSome_bind {o : Option β} {f : β → Option α} (ho : o.isSome) (hf : ∀ b, (f b).isSome) :
    (o.bind f).isSome := by
  obtain ⟨b, rfl⟩ := Option.isSome_iff_exists.mp ho
  exact hf b

/-- A loop in `Option` whose body succeeds on every element succeeds. -/
theorem foldlM_isSome {f : β → α → Option β} (l : List α) :
    ∀ {b : β}, (∀ b, ∀ a ∈ l, (f b a).isSome) → (l.foldlM f b).isSome := by
  induction l with
  | nil =>
    intro b _
    rfl
  | cons a l ih =>
    intro b hf
    obtain ⟨c, hc⟩ := Option.isSome_iff_exists.mp (hf b a List.mem_cons_self)
    rw [List.foldlM_cons, hc, Option.bind_eq_bind, Option.bind_some]
    exact ih (fun b' a' ha' => hf b' a' (List.mem_cons_of_mem _ ha'))

/-- Two loops whose bodies agree on the elements they run over agree. -/
theorem foldlM_congr {m : Type → Type} [Monad m] {f g : β → α → m β} (l : List α) :
    ∀ {b : β}, (∀ b, ∀ a ∈ l, f b a = g b a) → l.foldlM f b = l.foldlM g b := by
  induction l with
  | nil =>
    intro b _
    rfl
  | cons a l ih =>
    intro b hfg
    rw [List.foldlM_cons, List.foldlM_cons, hfg b a List.mem_cons_self]
    congr 1
    funext b'
    exact ih (fun b'' a' ha' => hfg b'' a' (List.mem_cons_of_mem _ ha'))

end

end Segments
