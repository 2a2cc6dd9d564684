import Mathlib

/-!
# Writes into a slice at an offset

Go's `copy(dst[off:], src)` overwrites the elements of `dst` from `off` on with those of `src`, as
many as fit, and leaves the others (`copyAt`). A position is reached by such a write when it lies
in `[off, off + len(src))` and inside `dst` (`Covers`).

Writers that run concurrently land their writes in some order. When every write that reaches a
position puts the same value there, the order does not matter: after any sequence of the writes a
position holds that value if one of them reaches it, and its old value if none does
(`getElem?_foldl_copyAt`).
-/

namespace Slice

variable {α : Type*}

/-- `copy(dst[off:], src)`: the contents of `dst` afterwards. -/
def copyAt (dst : List α) (off : Nat) (src : List α) : List α :=
  dst.mapIdx fun p x => if off ≤ p then src.getD (p - off) x else x

/-- A write of `src` at `off` reaches position `p`. -/
def Covers (off : Nat) (src : List α) (p : Nat) : Prop := off ≤ p ∧ p < off + src.length

instance (off : Nat) (src : List α) (p : Nat) : Decidable (Covers off src p) :=
  inferInstanceAs (Decidable (_ ∧ _))

@[simp] theorem length_copyAt (dst : List α) (off : Nat) (src : List α) :
    (copyAt dst off src).length = dst.length := List.length_mapIdx

theorem getElem?_copyAt (dst : List α) (off : Nat) (src : List α) (p : Nat) :
    (copyAt dst off src)[p]? =
      if p < dst.length ∧ Covers off src p then src[p - off]? else dst[p]? := by
  rw [copyAt, List.getElem?_mapIdx]
  by_cases hp : p < dst.length
  · rw [List.getElem?_eq_getElem hp, Option.map_some]
    by_cases hc : Covers off src p
    · have hlt : p - off < src.length := by
        unfold Covers at hc
        omega
      rw [if_pos hc.1, if_pos (show p < dst.length ∧ Covers off src p from ⟨hp, hc⟩),
        List.getD_eq_getElem _ _ hlt, List.getElem?_eq_getElem hlt]
    · rw [if_neg (show ¬(p < dst.length ∧ Covers off src p) from fun h => hc h.2)]
      by_cases hoff : off ≤ p
      · have hge : src.length ≤ p - off := by
          unfold Covers at hc
          omega
        rw [if_pos hoff, List.getD_eq_default _ _ hge]
      · rw [if_neg hoff]
  · rw [List.getElem?_eq_none (by omega), if_neg (fun h => hp h.1)]
    rfl

@[simp] theorem length_foldl_copyAt {ι : Type*} (off : ι → Nat) (data : ι → List α) (ws : List ι)
    (init : List α) : (ws.foldl (fun d w => copyAt d (off w) (data w)) init).length = init.length := by
  induction ws generalizing init with
  | nil => rfl
  | cons w ws ih => rw [List.foldl_cons, ih, length_copyAt]

/-- Writes that agree where they overlap, in any order: a position that one of them reaches holds
the value they agree on, and any other keeps its old value. -/
theorem getElem?_foldl_copyAt {ι : Type*} (off : ι → Nat) (data : ι → List α) (p : Nat) (v : α) :
    ∀ (ws : List ι) (init : List α),
      (∀ w ∈ ws, Covers (off w) (data w) p → (data w)[p - off w]? = some v) →
      (ws.foldl (fun d w => copyAt d (off w) (data w)) init)[p]? =
        if p < init.length ∧ ∃ w ∈ ws, Covers (off w) (data w) p then some v else init[p]? := by
  intro ws
  induction ws with
  | nil =>
    intro init _
    simp
  | cons w ws ih =>
    intro init hv
    rw [List.foldl_cons, ih _ (fun w' hw' => hv w' (List.mem_cons_of_mem _ hw')),
      length_copyAt, getElem?_copyAt]
    -- the first write either reaches `p`, and puts the agreed value there, or leaves it
    by_cases hw : Covers (off w) (data w) p
    · have hfirst := hv w List.mem_cons_self hw
      by_cases hp : p < init.length
      · simp [hp, hw, hfirst]
      · simp [hp]
    · simp [hw]

end Slice
