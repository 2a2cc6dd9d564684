import Mathlib

/-!
# Go's container/heap on a slice

`container/heap` keeps a heap by the `Less` of its `heap.Interface` in a slice: position `j` has
its parent at `(j - 1) / 2`. Its sifts swap a position with its parent (`up`) or with the lesser
of its children (`down`); `Init` sifts down every parent from the last one back to the root,
`Fix` sifts a changed position down or else up, and `Pop` swaps the root with the last position,
sifts down what is before it and takes the last element off with the interface's own `Pop`.
Here the slice is a list and `Less` a relation `lt` on its elements, read at two positions by
`less`; the interface's `Pop` removes the last element, as every slice-backed heap in Go writes
it.

What `lt` must be is a strict weak order (`LessOrder`): asymmetric, with a transitive negation.
Then, in the order this module proves it:

* a sift down from a position whose only disorder is below it (`DownInv`) leaves the positions
  it covers a heap (`heapFrom_downFrom`), moving one step by `DownInv.swap` and stopping by
  `DownInv.stop`;
* `Init` makes a heap (`isHeap_init`); `Fix` at the root after the root was overwritten makes a
  heap again (`isHeap_fix_set_zero`); `Pop` takes off the root and leaves a heap of the rest
  (`pop_spec`); each is a permutation of what it was given;
* nothing in a heap is less than its root (`root_min`).
-/

namespace BinaryHeap

variable {α : Type} (lt : α → α → Bool)

/-! ## The functions of container/heap -/

/-- `Less(i, j)`, read off the slice at two positions; out of range, where Go panics and where
no call below reaches, it is false. -/
def less (h : List α) (i j : Nat) : Bool :=
  match h[i]?, h[j]? with
  | some x, some y => lt x y
  | _, _ => false

/-- The parent of position `j`, `(j - 1) / 2`: the root is its own parent. -/
def parent (j : Nat) : Nat := (j - 1) / 2

/-- `up`: swap position `j` with its parent while it is less than the parent. -/
def up (h : List α) (j : Nat) : List α :=
  if parent j = j then h
  else if less lt h j (parent j) then up (h.swap (parent j) j) (parent j) else h
termination_by j
decreasing_by simp only [parent] at *; omega

/-- The child `down` compares position `i` with: the right one, `2 * i + 2`, if it is among the
first `n` and less than the left one, and otherwise the left one. -/
def child (h : List α) (n i : Nat) : Nat :=
  if 2 * i + 2 < n ∧ less lt h (2 * i + 2) (2 * i + 1) = true then 2 * i + 2 else 2 * i + 1

/-- The loop of `down` over the first `n` positions: swap position `i` with its child while the
child is less than it; the slice and the position it stopped at. -/
def downFrom (n : Nat) (h : List α) (i : Nat) : List α × Nat :=
  if n ≤ 2 * i + 1 then (h, i)
  else if less lt h (child lt h n i) i then downFrom n (h.swap i (child lt h n i)) (child lt h n i)
  else (h, i)
termination_by n - i
decreasing_by simp only [child]; split <;> omega

/-- `down`: the loop from `i0`, and whether it moved. -/
def down (h : List α) (i0 n : Nat) : List α × Bool :=
  ((downFrom lt n h i0).1, decide (i0 < (downFrom lt n h i0).2))

/-- `Init`: `down` at every parent, from `n / 2 - 1` back to the root, over the `n` positions of
the slice. -/
def init (h : List α) : List α :=
  let n := h.length
  (List.range (n / 2)).reverse.foldl (fun h i => (down lt h i n).1) h

/-- `Fix`: `down` at `i`, and `up` if that did not move it. -/
def fix (h : List α) (i : Nat) : List α :=
  if (down lt h i h.length).2 then (down lt h i h.length).1 else up lt (down lt h i h.length).1 i

/-- `Pop`: swap the root with the last position, `down` from the root over the others, then the
interface's `Pop`, the last element and the slice without it. `none` where Go panics, on an
empty slice. -/
def pop (h : List α) : Option (α × List α) :=
  match h.length with
  | 0 => none
  | n + 1 => ((down lt (h.swap 0 n) 0 n).1)[n]?.map fun x => (x, ((down lt (h.swap 0 n) 0 n).1).take n)

/-! ## The heap order -/

/-- What the proofs need of `Less`: a strict weak order, asymmetric with a transitive
negation. -/
structure LessOrder : Prop where
  asymm : ∀ x y, lt x y = true → lt y x = false
  not_trans : ∀ x y z, lt x y = false → lt y z = false → lt x z = false

/-- The heap order over the first `n` positions, at the parents from `lo` on. -/
def HeapFrom (h : List α) (lo n : Nat) : Prop :=
  ∀ k, 0 < k → k < n → lo ≤ parent k → less lt h k (parent k) = false

/-- A heap: the order at every parent. -/
def IsHeap (h : List α) : Prop := HeapFrom lt h 0 h.length

/-- What `downFrom` needs at position `i`: the order holds at every parent from `lo` on but `i`,
and if `i` has its parent from `lo` on, `i`'s children are not less than that parent. -/
structure DownInv (h : List α) (lo i n : Nat) : Prop where
  le : lo ≤ i
  off : ∀ k, 0 < k → k < n → lo ≤ parent k → parent k ≠ i → less lt h k (parent k) = false
  grand : 0 < i → lo ≤ parent i →
    ∀ c, 0 < c → c < n → parent c = i → less lt h c (parent i) = false

/-! ## Positions -/

theorem parent_lt {k : Nat} (hk : 0 < k) : parent k < k := by
  simp only [parent]; omega

/-- The children of `i` are `2 * i + 1` and `2 * i + 2`. -/
theorem parent_eq_iff {k i : Nat} (hk : 0 < k) : parent k = i ↔ k = 2 * i + 1 ∨ k = 2 * i + 2 := by
  simp only [parent]; omega

theorem child_eq (h : List α) (n i : Nat) :
    child lt h n i = 2 * i + 1 ∨ child lt h n i = 2 * i + 2 := by
  unfold child; split <;> simp

theorem parent_child (h : List α) (n i : Nat) : parent (child lt h n i) = i := by
  rcases child_eq lt h n i with hc | hc <;> rw [hc] <;> simp only [parent] <;> omega

theorem child_lt {h : List α} {n i : Nat} (hn : 2 * i + 1 < n) : child lt h n i < n := by
  unfold child; split <;> omega

/-! ## `less` -/

section Order

variable {lt} (hlt : LessOrder lt)
include hlt

theorem less_self (h : List α) (i : Nat) : less lt h i i = false := by
  unfold less
  split
  · rename_i x y hx hy
    rw [hx] at hy
    cases hy
    cases hxx : lt x x
    · rfl
    · exact absurd (hlt.asymm x x hxx) (by simp [hxx])
  · rfl

theorem less_asymm {h : List α} {i j : Nat} (hij : less lt h i j = true) : less lt h j i = false := by
  unfold less at *
  split at hij
  · rename_i x y hx hy
    rw [hx, hy]
    exact hlt.asymm x y hij
  · cases hij

theorem less_trans {h : List α} {a b c : Nat} (hab : less lt h a b = false)
    (hbc : less lt h b c = false) (hb : b < h.length) : less lt h a c = false := by
  obtain ⟨y, hy⟩ : ∃ y, h[b]? = some y := ⟨h[b], List.getElem?_eq_getElem hb⟩
  unfold less at *
  rw [hy] at hab hbc
  split
  · rename_i x z hx hz
    rw [hx] at hab
    rw [hz] at hbc
    exact hlt.not_trans x y z hab hbc
  · rfl

/-- The child `down` picks is not greater than either child of `i`. -/
theorem less_child {h : List α} {n i c : Nat} (hc : 0 < c) (hcn : c < n) (hpc : parent c = i) :
    less lt h c (child lt h n i) = false := by
  rcases (parent_eq_iff hc).mp hpc with rfl | rfl
  · unfold child
    split
    · next hr => exact less_asymm hlt hr.2
    · exact less_self hlt h _
  · unfold child
    split
    · exact less_self hlt h _
    · next hr =>
      -- the right child is in range, so it was not picked for not being less than the left
      simp only [not_and, Bool.not_eq_true] at hr
      exact hr hcn

end Order

/-! ## Swaps -/

/-- Where a swap of `i` and `j` takes the element at `k` from. -/
def swapIdx (i j k : Nat) : Nat := if k = i then j else if k = j then i else k

theorem getElem?_swap {h : List α} {i j : Nat} (hi : i < h.length) (hj : j < h.length) (k : Nat) :
    (h.swap i j)[k]? = h[swapIdx i j k]? := by
  rw [List.swap_eq_of_lt hi hj]
  unfold swapIdx
  by_cases hkj : k = j
  · subst hkj
    by_cases hki : k = i
    · subst hki
      simp
    · simp [hki, hj]
  · by_cases hki : k = i
    · subst hki
      simp [Ne.symm hkj, hi]
    · simp [hkj, hki, Ne.symm hkj, Ne.symm hki]

theorem less_swap {h : List α} {i j : Nat} (hi : i < h.length) (hj : j < h.length) (a b : Nat) :
    less lt (h.swap i j) a b = less lt h (swapIdx i j a) (swapIdx i j b) := by
  simp only [less, getElem?_swap hi hj]

theorem swapIdx_of_ne {i j k : Nat} (hi : k ≠ i) (hj : k ≠ j) : swapIdx i j k = k := by
  simp [swapIdx, hi, hj]

@[simp] theorem swapIdx_left (i j : Nat) : swapIdx i j i = j := by simp [swapIdx]

theorem swapIdx_right {i j : Nat} (h : j ≠ i) : swapIdx i j j = i := by simp [swapIdx, h]

/-! ## The sift down -/

theorem downFrom_perm (n : Nat) (h : List α) (i : Nat) : (downFrom lt n h i).1.Perm h := by
  fun_induction downFrom lt n h i with
  | case1 => exact .refl _
  | case2 h i _ _ ih => exact ih.trans (List.swap_perm _ _ _)
  | case3 => exact .refl _

theorem length_downFrom (n : Nat) (h : List α) (i : Nat) :
    (downFrom lt n h i).1.length = h.length :=
  (downFrom_perm lt n h i).length_eq

/-- The sift down over the first `n` positions leaves the others as they are. -/
theorem getElem?_downFrom_of_le {n : Nat} {h : List α} {i k : Nat} (hn : n ≤ h.length)
    (hk : n ≤ k) : (downFrom lt n h i).1[k]? = h[k]? := by
  fun_induction downFrom lt n h i with
  | case1 => rfl
  | case2 h i hgo _ ih =>
    have hjn := child_lt lt (h := h) (show 2 * i + 1 < n by omega)
    have hij : i < child lt h n i := by rcases child_eq lt h n i with e | e <;> omega
    rw [ih (by simpa using hn), getElem?_swap (by omega) (by omega),
      swapIdx_of_ne (by omega) (by omega)]
  | case3 => rfl

/-- `Init` starts from no order at all: no position among the first `n` has its parent at
`n / 2` or later. -/
theorem heapFrom_half (h : List α) (n : Nat) : HeapFrom lt h (n / 2) n := by
  intro k hk hkn hlo
  simp only [parent] at hlo
  omega

section Sift

variable {lt} (hlt : LessOrder lt)
include hlt

/-- At a position with no child less than it, the sift stops with the order in place. -/
theorem DownInv.stop {h : List α} {lo i n : Nat} (hd : DownInv lt h lo i n) (hn : n ≤ h.length)
    (hstop : n ≤ 2 * i + 1 ∨ less lt h (child lt h n i) i = false) : HeapFrom lt h lo n := by
  intro k hk hkn hlo
  by_cases hpk : parent k = i
  · -- a child of `i`: then `i` has children among the first `n`, which the loop compared
    have hci : 2 * i + 1 < n := by
      have := (parent_eq_iff hk).mp hpk
      omega
    rcases hstop with hs | hs
    · omega
    rw [hpk]
    exact less_trans hlt (less_child hlt hk hkn hpk) hs (by have := child_lt lt (h := h) hci; omega)
  · exact hd.off k hk hkn hlo hpk

/-- Swapping a position with its child that is less than it moves the disorder to the child. -/
theorem DownInv.swap {h : List α} {lo i n : Nat} (hd : DownInv lt h lo i n) (hn : n ≤ h.length)
    (hc : 2 * i + 1 < n) (hless : less lt h (child lt h n i) i = true) :
    DownInv lt (h.swap i (child lt h n i)) lo (child lt h n i) n := by
  have hpj : parent (child lt h n i) = i := parent_child lt h n i
  have hij : i < child lt h n i := by rcases child_eq lt h n i with e | e <;> omega
  have hjn : child lt h n i < n := child_lt lt hc
  set j := child lt h n i
  have hji : j ≠ i := by omega
  have hswap := less_swap lt (h := h) (i := i) (j := j) (by omega) (by omega)
  refine ⟨by have := hd.le; omega, ?_, ?_⟩
  · intro k hk hkn hlo hkj
    rw [hswap]
    by_cases hki : k = i
    · -- `i` now holds the child's element, against its own parent, which the swap left
      subst hki
      have hpk := parent_lt hk
      rw [swapIdx_left, swapIdx_of_ne (by omega) (by omega)]
      exact hd.grand hk hlo j (by omega) hjn hpj
    · by_cases hkc : k = j
      · -- the child now holds `i`'s element, under the child's element
        subst hkc
        rw [swapIdx_right hji, hpj, swapIdx_left]
        exact less_asymm hlt hless
      · rw [swapIdx_of_ne hki hkc]
        by_cases hpk : parent k = i
        · -- the other child of `i`, under the lesser child's element
          rw [hpk, swapIdx_left]
          exact less_child hlt hk hkn hpk
        · rw [swapIdx_of_ne hpk hkj]
          exact hd.off k hk hkn hlo hpk
  · intro _ hlo c hc0 hcn hpc
    -- a child of `j`: below both swapped positions
    have hcj : j < c := by rw [← hpc]; exact parent_lt hc0
    rw [hswap, hpj, swapIdx_of_ne (by omega) (by omega), swapIdx_left]
    have := hd.off c hc0 hcn (by omega) (by omega)
    rwa [hpc] at this

/-- The sift down from a position whose only disorder is below it leaves a heap. -/
theorem heapFrom_downFrom {n : Nat} {h : List α} {lo i : Nat} (hd : DownInv lt h lo i n)
    (hn : n ≤ h.length) : HeapFrom lt (downFrom lt n h i).1 lo n := by
  fun_induction downFrom lt n h i with
  | case1 h i hstop => exact hd.stop hlt hn (.inl hstop)
  | case2 h i hgo hless ih => exact ih (hd.swap hlt hn (by omega) hless) (by simpa using hn)
  | case3 h i hgo hless => exact hd.stop hlt hn (.inr (by simpa using hless))

/-- `Init`'s invariant: after `down` at the parents from `m` on, the order holds there. -/
theorem heapFrom_foldl_down {n : Nat} : ∀ (m : Nat) (h : List α), h.length = n →
    HeapFrom lt h m n →
    HeapFrom lt ((List.range m).reverse.foldl (fun h i => (down lt h i n).1) h) 0 n
  | 0, _, _, hh => hh
  | m + 1, h, hl, hh => by
    rw [List.range_succ, List.reverse_append, List.reverse_singleton, List.singleton_append,
      List.foldl_cons]
    have hd : DownInv lt h m m n :=
      ⟨le_rfl, fun k hk hkn hlo hkm => hh k hk hkn (by omega),
        fun hm hlo => absurd hlo (by have := parent_lt hm; omega)⟩
    exact heapFrom_foldl_down m _ (by rw [down, length_downFrom, hl])
      (heapFrom_downFrom hlt hd (by omega))

end Sift

/-! ## `Init`, `Fix` and `Pop` -/

theorem init_perm (h : List α) : (init lt h).Perm h := by
  have hfold : ∀ (is : List Nat) (g : List α),
      (is.foldl (fun g i => (down lt g i h.length).1) g).Perm g := by
    intro is
    induction is with
    | nil => exact fun g => .refl g
    | cons i is ih => exact fun g => (ih _).trans (downFrom_perm lt _ g i)
  exact hfold _ h

theorem up_zero (h : List α) : up lt h 0 = h := by
  rw [up]
  simp [parent]

/-- `Fix` at the root is the sift down from the root: `up` does not move the root. -/
theorem fix_zero (h : List α) : fix lt h 0 = (downFrom lt h.length h 0).1 := by
  simp only [fix, down, up_zero, ite_self]

theorem fix_zero_perm (h : List α) : (fix lt h 0).Perm h := by
  rw [fix_zero]
  exact downFrom_perm lt _ h 0

theorem less_set {h : List α} {i a b : Nat} (x : α) (ha : a ≠ i) (hb : b ≠ i) :
    less lt (h.set i x) a b = less lt h a b := by
  simp only [less, List.getElem?_set_ne (Ne.symm ha), List.getElem?_set_ne (Ne.symm hb)]

theorem less_take {h : List α} {n a b : Nat} (ha : a < n) (hb : b < n) :
    less lt (h.take n) a b = less lt h a b := by
  simp only [less, List.getElem?_take, ha, hb, if_true]

/-- `Pop` leaves the old root last, where its sift down does not reach. -/
theorem getElem?_pop_last (x : α) (xs : List α) :
    (downFrom lt xs.length ((x :: xs).swap 0 xs.length) 0).1[xs.length]? = some x := by
  rw [getElem?_downFrom_of_le lt (by simp) le_rfl, getElem?_swap (by simp) (by simp)]
  unfold swapIdx
  split <;> simp_all

theorem pop_eq (x : α) (xs : List α) :
    pop lt (x :: xs) =
      some (x, (downFrom lt xs.length ((x :: xs).swap 0 xs.length) 0).1.take xs.length) := by
  simp only [pop, List.length_cons, down, getElem?_pop_last, Option.map_some]

/-- What `Pop` leaves is a permutation of all but the root. -/
theorem pop_perm (x : α) (xs : List α) :
    ((downFrom lt xs.length ((x :: xs).swap 0 xs.length) 0).1.take xs.length).Perm xs := by
  set h2 := (downFrom lt xs.length ((x :: xs).swap 0 xs.length) 0).1
  have hl2 : (h2.drop xs.length).length = 1 := by simp [h2, length_downFrom]
  have hdrop : h2.drop xs.length = [x] := by
    obtain ⟨y, hy⟩ := List.length_eq_one_iff.mp hl2
    have hy0 : (h2.drop xs.length)[0]? = some x := by
      rw [List.getElem?_drop, Nat.add_zero]
      exact getElem?_pop_last lt x xs
    rw [hy] at hy0 ⊢
    simp only [List.getElem?_cons_zero, Option.some.injEq] at hy0
    rw [hy0]
  have hperm : (h2.take xs.length ++ [x]).Perm (x :: xs) := by
    rw [← hdrop, List.take_append_drop]
    exact (downFrom_perm lt _ _ 0).trans (List.swap_perm _ _ _)
  exact ((List.perm_append_singleton x _).symm.trans hperm).cons_inv

section Heap

variable {lt} (hlt : LessOrder lt)
include hlt

/-- `Init` makes a heap. -/
theorem isHeap_init (h : List α) : IsHeap lt (init lt h) := by
  unfold IsHeap
  rw [(init_perm lt h).length_eq]
  exact heapFrom_foldl_down hlt _ h rfl (heapFrom_half lt h h.length)

/-- `Fix` at the root makes a heap again after the root of a heap was overwritten. -/
theorem isHeap_fix_set_zero {h : List α} (hh : IsHeap lt h) (x : α) :
    IsHeap lt (fix lt (h.set 0 x) 0) := by
  unfold IsHeap
  rw [(fix_zero_perm lt _).length_eq, fix_zero, List.length_set]
  refine heapFrom_downFrom hlt ⟨le_rfl, ?_, fun h0 => absurd h0 (lt_irrefl 0)⟩ (by simp)
  intro k hk hkn _ hpk
  -- neither position of the pair is the root, the one position the overwrite changed
  rw [less_set lt x (by omega) hpk]
  exact hh k hk hkn (Nat.zero_le _)

/-- `Pop` takes off the root of a heap and leaves a heap of the rest. -/
theorem pop_spec {x : α} {xs : List α} (hh : IsHeap lt (x :: xs)) :
    ∃ rest, pop lt (x :: xs) = some (x, rest) ∧ IsHeap lt rest ∧ rest.Perm xs := by
  refine ⟨_, pop_eq lt x xs, ?_, pop_perm lt x xs⟩
  have hsw : ((x :: xs).swap 0 xs.length).length = xs.length + 1 := by simp
  -- the sift down from the root over all but the last position, where the swap put the root
  have hheap : HeapFrom lt (downFrom lt xs.length ((x :: xs).swap 0 xs.length) 0).1 0 xs.length := by
    refine heapFrom_downFrom hlt ⟨le_rfl, ?_, fun h0 => absurd h0 (lt_irrefl 0)⟩ (by omega)
    intro k hk hkn _ hpk
    have hp := parent_lt hk
    rw [less_swap lt (by simp) (by simp), swapIdx_of_ne (by omega) (by omega),
      swapIdx_of_ne hpk (by omega)]
    exact hh k hk (by simp; omega) (Nat.zero_le _)
  unfold IsHeap
  rw [List.length_take, length_downFrom, hsw, min_eq_left (by omega)]
  intro k hk hkn hlo
  rw [less_take lt hkn (by have := parent_lt hk; omega)]
  exact hheap k hk hkn hlo

/-- Nothing in a heap is less than its root. -/
theorem root_min {h : List α} (hh : IsHeap lt h) : ∀ k, k < h.length → less lt h k 0 = false := by
  intro k
  induction k using Nat.strongRecOn with
  | ind k ih =>
    intro hk
    rcases Nat.eq_zero_or_pos k with rfl | hpos
    · exact less_self hlt h 0
    · -- through the parent, which is nearer the root
      have hp := parent_lt hpos
      exact less_trans hlt (hh k hpos hk (Nat.zero_le _)) (ih _ hp (by omega)) (by omega)

theorem mem_root_min {x y : α} {xs : List α} (hh : IsHeap lt (x :: xs)) (hy : y ∈ x :: xs) :
    lt y x = false := by
  obtain ⟨k, hk, rfl⟩ := List.getElem_of_mem hy
  have := root_min hlt hh k hk
  simpa [less, List.getElem?_eq_getElem hk] using this

end Heap

end BinaryHeap
