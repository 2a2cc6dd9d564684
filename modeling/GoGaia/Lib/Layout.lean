import Mathlib

/-!
# Laying items out end to end

A loop that hands out consecutive ranges, each item taking `size a` places from where the one
before it ended, gives the items of a list the ranges `layout size o l` lists: each item with the
start of its range. The ranges follow each other (`isChain_layout`), start at `o`
(`head?_layout`) and lie between `o` and `o` plus the total (`mem_layout`).

In a type of machine words the starts wrap around; as long as the total fits, they are the
starts of the ranges of naturals (`layout_toNat`).
-/

namespace Layout

variable {α β : Type}

/-- The items of `l`, each with the start of its range, the first at `o`. -/
def layout [Add β] (size : α → β) : β → List α → List (α × β)
  | _, [] => []
  | o, a :: as => (a, o) :: layout size (o + size a) as

section
variable [Add β] (size : α → β)

@[simp] theorem layout_nil (o : β) : layout size o [] = [] := rfl

@[simp] theorem layout_cons (o : β) (a : α) (as : List α) :
    layout size o (a :: as) = (a, o) :: layout size (o + size a) as := rfl

@[simp] theorem map_fst_layout (o : β) (l : List α) : (layout size o l).map Prod.fst = l := by
  induction l generalizing o with
  | nil => rfl
  | cons a as ih => simp [ih]

theorem exists_mem_layout (o : β) {l : List α} {a : α} (h : a ∈ l) :
    ∃ s, (a, s) ∈ layout size o l := by
  rw [← map_fst_layout size o l] at h
  obtain ⟨⟨b, s⟩, hbs, rfl⟩ := List.mem_map.mp h
  exact ⟨s, hbs⟩

theorem head?_layout (o : β) (l : List α) :
    (layout size o l).head?.map Prod.snd = l.head?.map fun _ => o := by
  cases l <;> rfl

/-- Each range starts where the one before it ends. -/
theorem isChain_layout (o : β) (l : List α) :
    (layout size o l).IsChain (fun p q => q.2 = p.2 + size p.1) := by
  induction l generalizing o with
  | nil => exact .nil
  | cons a as ih =>
    cases as with
    | nil => exact .singleton _
    | cons b bs => exact .cons_cons rfl (ih (o + size a))

/-- Renaming the items, with sizes read through the renaming, renames the layout. -/
theorem layout_map {γ : Type} (f : α → γ) (size' : γ → β) (hsize : ∀ a, size a = size' (f a))
    (o : β) (l : List α) :
    (layout size o l).map (fun p => (f p.1, p.2)) = layout size' o (l.map f) := by
  induction l generalizing o with
  | nil => rfl
  | cons a as ih => simp [ih, hsize]

end

section
variable (size : α → Nat)

/-- Every range lies between the start and the start plus the total. -/
theorem mem_layout {o : Nat} {l : List α} {a : α} {s : Nat} (h : (a, s) ∈ layout size o l) :
    o ≤ s ∧ s + size a ≤ o + (l.map size).sum := by
  induction l generalizing o with
  | nil => cases h
  | cons b bs ih =>
    simp only [layout_cons, List.mem_cons, Prod.mk.injEq] at h
    simp only [List.map_cons, List.sum_cons]
    rcases h with ⟨rfl, rfl⟩ | h
    · omega
    · have := ih h
      omega

/-- Two different ranges of a layout do not overlap. -/
theorem disjoint_layout {o : Nat} {l : List α} {p q : α × Nat} (hp : p ∈ layout size o l)
    (hq : q ∈ layout size o l) (hne : p ≠ q) : p.2 + size p.1 ≤ q.2 ∨ q.2 + size q.1 ≤ p.2 := by
  induction l generalizing o with
  | nil => cases hp
  | cons a as ih =>
    simp only [layout_cons, List.mem_cons] at hp hq
    rcases hp with rfl | hp <;> rcases hq with rfl | hq
    · exact absurd rfl hne
    · exact .inl (mem_layout size hq).1
    · exact .inr (mem_layout size hp).1
    · exact ih hp hq

end

/-! ## Machine words -/

/-- While the total fits in 64 bits, the starts of the ranges of 64-bit sizes are those of the
ranges of their values. -/
theorem layout_toNat (size : α → UInt64) :
    ∀ (o : UInt64) (l : List α), o.toNat + (l.map fun a => (size a).toNat).sum < 2 ^ 64 →
      (layout size o l).map (fun p => (p.1, p.2.toNat)) =
        layout (fun a => (size a).toNat) o.toNat l
  | _, [], _ => rfl
  | o, a :: as, h => by
    simp only [List.map_cons, List.sum_cons] at h
    have hfit : (o + size a).toNat = o.toNat + (size a).toNat := by
      rw [UInt64.toNat_add]
      omega
    have ih := layout_toNat size (o + size a) as (by omega)
    rw [hfit] at ih
    simp [ih]

end Layout
