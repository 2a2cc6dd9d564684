import Mathlib

/-!
# Evaluating `EStateM` computations

Equations that run the operations of an `EStateM ε σ` computation on a state, as the simp set of
a model whose stateful methods are written in `do` notation, and the inversion of a successful
`bind` that peels a computation apart step by step.

`Raises P x` says that every error `x` can raise satisfies `P`, from any state; its rules follow
the syntax of a `do` block, so that a property of a method's errors is proved by composing the
rules for the operations it is made of.

For plain `Except`, the same inversion of a successful `bind`, and the simp lemmas that
discard what follows a `throw`. `Ends Q P x` says that `x` ends in a value of `P` or an error of
`Q`; its rules, a loop's invariant rule among them, follow the syntax of a `do` block too.

`Except.decEqError` decides whether a computation ended in a given error, also for result types
without decidable equality, so that a run on a fixed input can be checked by `decide`.
-/

namespace EStateM

variable {ε σ α β : Type}

@[simp] theorem pure_apply (a : α) (s : σ) : (pure a : EStateM ε σ α) s = .ok a s := rfl

@[simp] theorem get_apply (s : σ) : (get : EStateM ε σ σ) s = .ok s s := rfl

@[simp] theorem set_apply (s s' : σ) : (set s' : EStateM ε σ PUnit) s = .ok ⟨⟩ s' := rfl

@[simp] theorem modify_apply (f : σ → σ) (s : σ) :
    (modify f : EStateM ε σ PUnit) s = .ok ⟨⟩ (f s) := rfl

@[simp] theorem throw_apply (e : ε) (s : σ) : (throw e : EStateM ε σ α) s = .error e s := rfl

theorem bind_apply (x : EStateM ε σ α) (f : α → EStateM ε σ β) (s : σ) :
    (x >>= f) s = match x s with
      | .ok a s' => f a s'
      | .error e s' => .error e s' := rfl

theorem map_apply (f : α → β) (x : EStateM ε σ α) (s : σ) :
    (f <$> x) s = match x s with
      | .ok a s' => .ok (f a) s'
      | .error e s' => .error e s' := rfl

theorem bind_of_ok {x : EStateM ε σ α} {s s' : σ} {a : α} (f : α → EStateM ε σ β)
    (h : x s = .ok a s') : (x >>= f) s = f a s' := by
  rw [bind_apply, h]

theorem bind_of_error {x : EStateM ε σ α} {s s' : σ} {e : ε} (f : α → EStateM ε σ β)
    (h : x s = .error e s') : (x >>= f) s = .error e s' := by
  rw [bind_apply, h]

theorem map_of_ok {x : EStateM ε σ α} {s s' : σ} {a : α} (f : α → β)
    (h : x s = .ok a s') : (f <$> x) s = .ok (f a) s' := by
  rw [map_apply, h]

theorem tryCatch_of_ok {x : EStateM ε σ α} {s s' : σ} {a : α} (g : ε → EStateM ε σ α)
    (h : x s = .ok a s') : (tryCatch x g : EStateM ε σ α) s = .ok a s' := by
  show EStateM.tryCatch x g s = _
  simp only [EStateM.tryCatch, h]

/-- A handler runs on the state the computation failed in: nothing is rolled back. -/
theorem tryCatch_of_error {x : EStateM ε σ α} {s s' : σ} {e : ε} (g : ε → EStateM ε σ α)
    (h : x s = .error e s') : (tryCatch x g : EStateM ε σ α) s = g e s' := by
  show EStateM.tryCatch x g s = _
  simp only [EStateM.tryCatch, h]
  rfl

/-- A successful `bind` ran its first computation successfully. -/
theorem bind_eq_ok {x : EStateM ε σ α} {f : α → EStateM ε σ β} {s s'' : σ} {b : β}
    (h : (x >>= f) s = .ok b s'') : ∃ a s', x s = .ok a s' ∧ f a s' = .ok b s'' := by
  rw [bind_apply] at h
  split at h
  · next a s' hx => exact ⟨a, s', hx, h⟩
  · cases h

/-- A failed `bind` failed in its first computation or in its second. -/
theorem bind_eq_error {x : EStateM ε σ α} {f : α → EStateM ε σ β} {s s'' : σ} {e : ε}
    (h : (x >>= f) s = .error e s'') :
    x s = .error e s'' ∨ ∃ a s', x s = .ok a s' ∧ f a s' = .error e s'' := by
  rw [bind_apply] at h
  split at h
  · next a s' hx => exact .inr ⟨a, s', hx, h⟩
  · next e' s' hx =>
    obtain ⟨rfl, rfl⟩ := Result.error.inj h
    exact .inl hx

/-! ## The errors a computation can raise -/

/-- Every error that `x` raises, from any state, satisfies `P`. -/
def Raises (P : ε → Prop) (x : EStateM ε σ α) : Prop :=
  ∀ s e s', x s = .error e s' → P e

namespace Raises

variable {P : ε → Prop}

theorem pure (a : α) : Raises P (Pure.pure a : EStateM ε σ α) := by
  intro s e s' h
  cases h

theorem bind {x : EStateM ε σ α} {f : α → EStateM ε σ β} (hx : Raises P x)
    (hf : ∀ a, Raises P (f a)) : Raises P (x >>= f) := by
  intro s e s'' h
  rw [bind_apply] at h
  split at h
  · next a s' _ => exact hf a s' e s'' h
  · next e' s' hxe =>
    obtain ⟨rfl, rfl⟩ := Result.error.inj h
    exact hx s e' s' hxe

theorem ite {c : Prop} [Decidable c] {x y : EStateM ε σ α} (hx : Raises P x) (hy : Raises P y) :
    Raises P (if c then x else y) := by
  split
  · exact hx
  · exact hy

end Raises

end EStateM

namespace Except

variable {ε α β : Type}

@[simp] theorem throw_bind (e : ε) (f : α → Except ε β) : (throw e >>= f : Except ε β) = throw e :=
  rfl

@[simp] theorem ok_bind (a : α) (f : α → Except ε β) : (Except.ok a >>= f : Except ε β) = f a :=
  rfl

@[simp] theorem error_bind (e : ε) (f : α → Except ε β) :
    (Except.error e >>= f : Except ε β) = .error e :=
  rfl

@[simp] theorem throw_ne_ok (e : ε) (a : α) : (throw e : Except ε α) ≠ .ok a := nofun

theorem bind_eq_ok {x : Except ε α} {f : α → Except ε β} {b : β} (h : x >>= f = .ok b) :
    ∃ a, x = .ok a ∧ f a = .ok b := by
  cases x with
  | error e => cases h
  | ok a => exact ⟨a, rfl, h⟩

/-! ## What a computation ends in -/

/-- `x` ends in a value that satisfies `P` or in an error that satisfies `Q`. -/
def Ends (Q : ε → Prop) (P : α → Prop) : Except ε α → Prop
  | .ok a => P a
  | .error e => Q e

namespace Ends

variable {Q : ε → Prop} {P : α → Prop}

theorem of_eq_ok {x : Except ε α} {a : α} (h : Ends Q P x) (hx : x = .ok a) : P a := by
  subst hx
  exact h

theorem of_eq_error {x : Except ε α} {e : ε} (h : Ends Q P x) (hx : x = .error e) : Q e := by
  subst hx
  exact h

theorem throw {e : ε} (h : Q e) : Ends Q P (MonadExcept.throw e : Except ε α) := h

theorem bind {R : β → Prop} {x : Except ε β} {f : β → Except ε α} (hx : Ends Q R x)
    (hf : ∀ b, R b → Ends Q P (f b)) : Ends Q P (x >>= f) := by
  cases x with
  | error e => exact hx
  | ok b => exact hf b hx

theorem ite {c : Prop} [Decidable c] {x y : Except ε α} (hx : c → Ends Q P x)
    (hy : ¬c → Ends Q P y) : Ends Q P (if c then x else y) := by
  by_cases h : c
  · rw [if_pos h]
    exact hx h
  · rw [if_neg h]
    exact hy h

/-- The invariant rule of a loop that may fail: a state of `P` is kept by every step, or the
step fails with an error of `Q`. -/
theorem foldlM {f : α → β → Except ε α} (l : List β) :
    ∀ {a : α}, P a → (∀ a, P a → ∀ b ∈ l, Ends Q P (f a b)) → Ends Q P (l.foldlM f a) := by
  induction l with
  | nil => exact fun ha _ => ha
  | cons b l ih =>
    intro a ha hf
    rw [List.foldlM_cons]
    exact bind (hf a ha b List.mem_cons_self)
      fun a' ha' => ih ha' fun a'' ha'' b' hb' => hf a'' ha'' b' (List.mem_cons_of_mem _ hb')

end Ends

/-- A loop each of whose rounds fails with `e` exactly at the elements of `bad`, and goes on by
`g` elsewhere: it fails when some element is bad, and is the plain loop of `g` otherwise. -/
theorem foldlM_eq_ite {f : β → α → Except ε β} {g : β → α → β} (bad : α → Prop)
    [DecidablePred bad] (e : ε) (hf : ∀ b a, f b a = if bad a then .error e else .ok (g b a)) :
    ∀ (l : List α) (b : β),
      l.foldlM f b = if ∃ a ∈ l, bad a then .error e else .ok (l.foldl g b) := by
  intro l
  induction l with
  | nil => intro b; rfl
  | cons a l ih =>
    intro b
    rw [List.foldlM_cons, hf]
    by_cases ha : bad a
    · rw [if_pos ha, if_pos ⟨a, List.mem_cons_self, ha⟩]
      rfl
    · rw [if_neg ha, ok_bind, ih, List.foldl_cons]
      congr 1
      apply propext
      constructor
      · exact fun ⟨a', ha', hbad⟩ => ⟨a', List.mem_cons_of_mem _ ha', hbad⟩
      · rintro ⟨a', ha', hbad⟩
        rcases List.mem_cons.mp ha' with rfl | ha'
        · exact absurd hbad ha
        · exact ⟨a', ha', hbad⟩

/-- A map each of whose calls succeeds with `g` is the plain map of `g`. -/
theorem mapM_eq_ok_map {f : α → Except ε β} {g : α → β} :
    ∀ l : List α, (∀ a ∈ l, f a = .ok (g a)) → l.mapM f = .ok (l.map g) := by
  intro l
  induction l with
  | nil => intro _; rfl
  | cons a l ih =>
    intro hf
    have hhead := hf a List.mem_cons_self
    have htail := ih fun a' ha' => hf a' (List.mem_cons_of_mem _ ha')
    rw [List.mapM_cons, hhead, ok_bind, htail, ok_bind, List.map_cons]
    rfl

end Except

/-- Whether `x` is the error `e`; only the errors need decidable equality. -/
instance Except.decEqError {ε α : Type} [DecidableEq ε] (x : Except ε α) (e : ε) :
    Decidable (x = .error e) :=
  match x with
  | .error e' =>
    if h : e' = e then isTrue (h ▸ rfl) else isFalse fun h' => h (Except.error.inj h')
  | .ok _ => isFalse nofun
