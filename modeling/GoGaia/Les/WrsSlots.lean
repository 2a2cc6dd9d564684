import Mathlib
import GoGaia.Lib.CumSelect
import GoGaia.Les.WrsNode

/-!
# The leaf slots of a wrsNode and its invariant

The leaf slots below a node (`slots`) are what the tree stands for: position `p` holds the item
stored there, if any, and its weight. `WF ℓ` is what a node of level ℓ is in every reachable
state (see `GoGaia.Les.WrsNode`). This module proves what each operation does to the slots of a
well-formed node: `insertAt_spec`, `setWeightAt_spec`, `slots_addLevel` and `chooseAt_spec`.
-/

namespace GoGaia.Les

namespace WrsNode

open CumSelect IntBits

variable {α : Type}

/-- The item a branch holds at the leaves. -/
def leafItem : Option (α ⊕ WrsNode α) → Option α
  | some (.inl a) => some a
  | _ => none

/-- The leaf slots below a node of level ℓ, in position order. An empty branch above the leaves
covers `maxItems / wrsBranches` free slots. -/
def slots : Nat → WrsNode α → List (Option α × Int)
  | 0, n => List.zipWith (fun e w => (leafItem e, w)) n.items n.weights
  | ℓ + 1, n => (n.items.map fun e => match e with
      | some (.inr c) => slots ℓ c
      | _ => List.replicate (n.maxItems / wrsBranches) (none, 0)).flatten

/-- The slots branch `e` of a node of level ℓ + 1 covers, `m` being the node's slots per branch. -/
def block (ℓ m : Nat) : Option (α ⊕ WrsNode α) → List (Option α × Int)
  | some (.inr c) => slots ℓ c
  | _ => List.replicate m (none, 0)

theorem slots_zero (n : WrsNode α) :
    slots 0 n = List.zipWith (fun e w => (leafItem e, w)) n.items n.weights := rfl

theorem slots_succ (ℓ : Nat) (n : WrsNode α) :
    slots (ℓ + 1) n = (n.items.map (block ℓ (n.maxItems / wrsBranches))).flatten := by
  simp only [slots]
  congr 2

/-! ## Lists of slots -/

/-- The number of items in a list of slots. -/
def count (ss : List (Option α × Int)) : Nat := ss.countP fun s => s.1.isSome

/-- The total weight of a list of slots. -/
def total (ss : List (Option α × Int)) : Int := (ss.map Prod.snd).sum

/-- A slot as the tree keeps it: free with weight 0, or an item of positive int64 weight. -/
def GoodSlot : Option α × Int → Prop
  | (none, w) => w = 0
  | (some _, w) => 0 < w ∧ w < 2 ^ 63

theorem count_set {ss : List (Option α × Int)} {p : Nat} {s : Option α × Int}
    (hp : ss[p]? = some s) (s' : Option α × Int) :
    count (ss.set p s') + (if s.1.isSome then 1 else 0) =
      count ss + (if s'.1.isSome then 1 else 0) := by
  obtain ⟨hlt, hs⟩ := List.getElem?_eq_some_iff.mp hp
  have hpos : (if s.1.isSome then 1 else 0) ≤ count ss := by
    split
    · exact List.countP_pos_iff.mpr ⟨s, hs ▸ List.getElem_mem hlt, by simpa⟩
    · exact Nat.zero_le _
  simp only [count, List.countP_set hlt, hs] at hpos ⊢
  split <;> split <;> simp_all

theorem total_set {ss : List (Option α × Int)} {p : Nat} {s : Option α × Int}
    (hp : ss[p]? = some s) (s' : Option α × Int) :
    total (ss.set p s') = total ss - s.2 + s'.2 := by
  simp only [total, List.map_set]
  exact sum_set_of_getElem? _ (by simp [hp])

theorem count_le_length (ss : List (Option α × Int)) : count ss ≤ ss.length :=
  List.countP_le_length

theorem total_flatten (L : List (List (Option α × Int))) :
    total L.flatten = (L.map total).sum := by
  simp only [total, List.map_flatten, List.sum_flatten, List.map_map]
  rfl

@[simp] theorem count_append (l l' : List (Option α × Int)) :
    count (l ++ l') = count l + count l' := List.countP_append

@[simp] theorem total_append (l l' : List (Option α × Int)) :
    total (l ++ l') = total l + total l' := by
  simp [total]

@[simp] theorem count_replicate_free (m : Nat) : count (List.replicate m ((none : Option α), (0 : Int))) = 0 := by
  simp [count]

@[simp] theorem total_replicate_free (m : Nat) : total (List.replicate m ((none : Option α), (0 : Int))) = 0 := by
  simp [total]

/-- A list with fewer items than slots has a free slot. -/
theorem exists_free_of_count_lt {ss : List (Option α × Int)} (h : count ss < ss.length) :
    ∃ (p : Nat) (w : Int), ss[p]? = some (none, w) := by
  obtain ⟨⟨x, w⟩, hs, hx⟩ : ∃ s ∈ ss, s.1.isSome = false := by
    by_contra hne
    simp only [not_exists, not_and, Bool.not_eq_false] at hne
    have := List.countP_eq_length.mpr hne
    simp only [count] at h
    omega
  obtain ⟨p, hp, hpe⟩ := List.getElem_of_mem hs
  simp only [Option.isSome_eq_false_iff, Option.isNone_iff_eq_none] at hx
  exact ⟨p, w, by rw [List.getElem?_eq_getElem hp, hpe, hx]⟩

/-! ## The invariant -/

/-- A node's own fields against the slots below it. -/
structure Shape (ℓ : Nat) (n : WrsNode α) : Prop where
  level : n.level = ℓ
  maxItems : n.maxItems = wrsBranches ^ (ℓ + 1)
  length_items : n.items.length = wrsBranches
  length_weights : n.weights.length = wrsBranches
  itemCnt : n.itemCnt = count (slots ℓ n)
  sumWeight : n.sumWeight = int64 (total (slots ℓ n))

/-- What branch `e` of weight `w` may hold: nothing with weight 0, at the leaves an item of
positive int64 weight, above them a node `c` with `P c` whose `sumWeight` is the weight. -/
def BranchOK (leaf : Bool) (P : WrsNode α → Prop) : Option (α ⊕ WrsNode α) → Int → Prop
  | none, w => w = 0
  | some (.inl _), w => leaf = true ∧ 0 < w ∧ w < 2 ^ 63
  | some (.inr c), w => leaf = false ∧ P c ∧ w = c.sumWeight

/-- Every branch of the node is as `BranchOK` says. -/
def Branches (leaf : Bool) (P : WrsNode α → Prop) (n : WrsNode α) : Prop :=
  ∀ (b : Nat) e w, n.items[b]? = some e → n.weights[b]? = some w → BranchOK leaf P e w

/-- A node of level ℓ as the tree keeps it. -/
def WF : Nat → WrsNode α → Prop
  | 0, n => Shape 0 n ∧ Branches true (fun _ => False) n
  | ℓ + 1, n => Shape (ℓ + 1) n ∧ Branches false (WF ℓ) n

theorem WF.shape : ∀ {ℓ : Nat} {n : WrsNode α}, WF ℓ n → Shape ℓ n
  | 0, _, h => h.1
  | _ + 1, _, h => h.1

theorem Shape.length_weights_eq {ℓ : Nat} {n : WrsNode α} (h : Shape ℓ n) :
    n.weights.length = n.items.length := h.length_weights.trans h.length_items.symm

/-- A branch of a well-formed node has a weight beside it. -/
theorem Shape.weight_of_item {ℓ : Nat} {n : WrsNode α} (h : Shape ℓ n) {b : Nat}
    {e : Option (α ⊕ WrsNode α)} (hb : n.items[b]? = some e) : ∃ w, n.weights[b]? = some w := by
  have hlt : b < n.weights.length := by
    rw [h.length_weights_eq]
    exact (List.getElem?_eq_some_iff.mp hb).1
  exact ⟨n.weights[b], by simp⟩

theorem Branches.ok {leaf : Bool} {P : WrsNode α → Prop} {n : WrsNode α} (h : Branches leaf P n)
    {b : Nat} {e : Option (α ⊕ WrsNode α)} {w : Int} (hi : n.items[b]? = some e)
    (hw : n.weights[b]? = some w) : BranchOK leaf P e w := by
  unfold Branches at h
  exact h b e w hi hw

/-- Replacing what one branch holds, with the branch's new contents as `BranchOK` says, keeps
`Branches`. -/
theorem Branches.update {leaf : Bool} {P : WrsNode α → Prop} {n n' : WrsNode α} {b : Nat}
    (h : Branches leaf P n) (hi : ∀ j, j ≠ b → n'.items[j]? = n.items[j]?)
    (hw : ∀ j, j ≠ b → n'.weights[j]? = n.weights[j]?)
    (hnew : ∀ e w, n'.items[b]? = some e → n'.weights[b]? = some w → BranchOK leaf P e w) :
    Branches leaf P n' := fun j e w he hw' => by
  by_cases hj : j = b
  · subst hj
    exact hnew e w he hw'
  · rw [hi j hj] at he
    rw [hw j hj] at hw'
    exact h.ok he hw'

theorem Shape.div_maxItems {ℓ : Nat} {n : WrsNode α} (h : Shape (ℓ + 1) n) :
    n.maxItems / wrsBranches = wrsBranches ^ (ℓ + 1) := by
  rw [h.maxItems, pow_succ, Nat.mul_div_cancel _ (by decide)]

/-- A branch of a well-formed node above the leaves holds nothing with weight 0 or a well-formed
node whose `sumWeight` is the branch's weight. -/
theorem WF.branch {ℓ : Nat} {n : WrsNode α} (h : WF (ℓ + 1) n) {b : Nat}
    {e : Option (α ⊕ WrsNode α)} (hb : n.items[b]? = some e) :
    ∃ w, n.weights[b]? = some w ∧ BranchOK false (WF ℓ) e w := by
  obtain ⟨w, hw⟩ := h.1.weight_of_item hb
  exact ⟨w, hw, h.2.ok hb hw⟩

/-- The leaf counterpart of `WF.branch`. -/
theorem WF.leaf {n : WrsNode α} (h : WF 0 n) {b : Nat} {e : Option (α ⊕ WrsNode α)}
    (hb : n.items[b]? = some e) : ∃ w, n.weights[b]? = some w ∧ BranchOK true (fun _ => False) e w := by
  obtain ⟨w, hw⟩ := h.1.weight_of_item hb
  exact ⟨w, hw, h.2.ok hb hw⟩

/-- What holds of the free block and of the slots of every well-formed node of level ℓ holds of
every block of a well-formed node of level ℓ + 1. -/
theorem WF.blocks {ℓ : Nat} {n : WrsNode α} (h : WF (ℓ + 1) n) {Q : List (Option α × Int) → Prop}
    (hfree : Q (List.replicate (wrsBranches ^ (ℓ + 1)) (none, 0)))
    (hnode : ∀ c : WrsNode α, WF ℓ c → Q (slots ℓ c)) :
    ∀ l ∈ n.items.map (block ℓ (n.maxItems / wrsBranches)), Q l := by
  intro l hl
  obtain ⟨e, he, rfl⟩ := List.mem_map.mp hl
  obtain ⟨b, hb', rfl⟩ := List.getElem_of_mem he
  obtain ⟨w, -, hok⟩ := h.branch (List.getElem?_eq_getElem hb')
  revert hok
  rcases n.items[b] with _ | _ | c
  · intro _
    simpa [block, h.1.div_maxItems] using hfree
  · simp [BranchOK]
  · rintro ⟨-, hc, -⟩
    exact hnode c hc

/-- Above the leaves every branch covers `m` slots, all as the tree keeps them. -/
theorem WF.block_good : ∀ {ℓ : Nat} {n : WrsNode α}, WF ℓ n →
    (slots ℓ n).length = wrsBranches ^ (ℓ + 1) ∧ ∀ s ∈ slots ℓ n, GoodSlot s
  | 0, n, h => by
    obtain ⟨hs, hb⟩ := h
    refine ⟨by simp [slots_zero, hs.length_items, hs.length_weights, wrsBranches], ?_⟩
    intro s hmem
    obtain ⟨p, hp, rfl⟩ := List.getElem_of_mem hmem
    have hp' := hp
    simp only [slots_zero, List.length_zipWith] at hp'
    have hok := hb.ok (List.getElem?_eq_getElem (l := n.items) (i := p) (by omega))
      (List.getElem?_eq_getElem (l := n.weights) (i := p) (by omega))
    simp only [slots_zero, List.getElem_zipWith]
    revert hok
    generalize n.items[p] = e
    rcases e with _ | _ | _ <;> simp [BranchOK, GoodSlot, leafItem]
  | ℓ + 1, n, h => by
    have hblk : ∀ l ∈ n.items.map (block ℓ (n.maxItems / wrsBranches)),
        l.length = wrsBranches ^ (ℓ + 1) ∧ ∀ s ∈ l, GoodSlot s :=
      h.blocks ⟨by simp, fun s hs => by rw [List.eq_of_mem_replicate hs]; rfl⟩
        fun c hc => WF.block_good hc
    rw [slots_succ]
    refine ⟨?_, fun s hmem => ?_⟩
    · have hlen := sum_map_length_take (fun l hl => (hblk l hl).1)
        (le_refl (n.items.map (block ℓ (n.maxItems / wrsBranches))).length)
      rw [List.take_length] at hlen
      rw [List.length_flatten, hlen, List.length_map, h.1.length_items, pow_succ _ (ℓ + 1),
        Nat.mul_comm]
    · obtain ⟨l, hl, hs'⟩ := List.mem_flatten.mp hmem
      exact (hblk l hl).2 s hs'

theorem WF.length_slots {ℓ : Nat} {n : WrsNode α} (h : WF ℓ n) :
    (slots ℓ n).length = wrsBranches ^ (ℓ + 1) := h.block_good.1

theorem WF.good {ℓ : Nat} {n : WrsNode α} (h : WF ℓ n) {s : Option α × Int}
    (hs : s ∈ slots ℓ n) : GoodSlot s := h.block_good.2 s hs

/-- The blocks of a well-formed node above the leaves all have `8^(ℓ+1)` slots. -/
theorem WF.length_block {ℓ : Nat} {n : WrsNode α} (h : WF (ℓ + 1) n) :
    ∀ l ∈ n.items.map (block ℓ (n.maxItems / wrsBranches)), l.length = wrsBranches ^ (ℓ + 1) :=
  h.blocks (by simp) fun _ hc => hc.length_slots

/-- Slot `r` of branch `b` is slot `b * 8^(ℓ+1) + r` of a node of level ℓ + 1. -/
theorem WF.getElem?_slots_succ {ℓ : Nat} {n : WrsNode α} (h : WF (ℓ + 1) n) {b r : Nat}
    (hr : r < wrsBranches ^ (ℓ + 1)) {e : Option (α ⊕ WrsNode α)} (hb : n.items[b]? = some e) :
    (slots (ℓ + 1) n)[b * wrsBranches ^ (ℓ + 1) + r]? =
      (block ℓ (wrsBranches ^ (ℓ + 1)) e)[r]? := by
  rw [slots_succ, getElem?_flatten_blocks h.length_block hr, List.getElem?_map, hb,
    h.1.div_maxItems]
  rfl

/-- Putting into branch `b` a node whose slots are the branch's block with slot `r` overwritten
overwrites slot `b * 8^(ℓ+1) + r` of the node. -/
theorem WF.slots_set_succ {ℓ : Nat} {n n' : WrsNode α} (h : WF (ℓ + 1) n) {b r : Nat}
    (hr : r < wrsBranches ^ (ℓ + 1)) {e : Option (α ⊕ WrsNode α)} (hb : n.items[b]? = some e)
    {c' : WrsNode α} {x : Option α × Int}
    (hc' : slots ℓ c' = (block ℓ (wrsBranches ^ (ℓ + 1)) e).set r x)
    (hi : n'.items = n.items.set b (some (.inr c'))) (hm : n'.maxItems = n.maxItems) :
    slots (ℓ + 1) n' = (slots (ℓ + 1) n).set (b * wrsBranches ^ (ℓ + 1) + r) x := by
  have hblock : block ℓ (n.maxItems / wrsBranches) (some (.inr c')) =
      (block ℓ (wrsBranches ^ (ℓ + 1)) e).set r x := hc'
  rw [slots_succ, slots_succ, hi, hm, List.map_set, hblock, ← flatten_set_blocks h.length_block x
    (by rw [List.getElem?_map, hb, h.1.div_maxItems]; rfl) hr, h.1.div_maxItems]

/-! ## A fresh node -/

theorem slots_empty (ℓ : Nat) :
    slots ℓ (empty ℓ (wrsBranches ^ (ℓ + 1)) : WrsNode α) =
      List.replicate (wrsBranches ^ (ℓ + 1)) (none, 0) := by
  cases ℓ with
  | zero => rfl
  | succ ℓ =>
    rw [slots_succ]
    simp only [empty, List.map_replicate, wrsBranches, block]
    rw [List.flatten_replicate_replicate, pow_succ 8 (ℓ + 1), Nat.mul_div_cancel _ (by decide),
      Nat.mul_comm]

theorem wf_empty (ℓ : Nat) : WF ℓ (empty ℓ (wrsBranches ^ (ℓ + 1)) : WrsNode α) := by
  have hshape : Shape ℓ (empty ℓ (wrsBranches ^ (ℓ + 1)) : WrsNode α) :=
    ⟨rfl, rfl, by simp [empty], by simp [empty], by rw [slots_empty]; simp; rfl,
      by rw [slots_empty]; simp; rfl⟩
  have hbr : ∀ leaf P, Branches leaf P (WrsNode.empty ℓ (wrsBranches ^ (ℓ + 1)) : WrsNode α) := by
    intro leaf P b e w he hw
    simp only [WrsNode.empty, List.getElem?_replicate] at he hw
    by_cases hb : b < wrsBranches
    · simp only [hb, if_true, Option.some.injEq] at he hw
      subst he hw
      rfl
    · simp [hb] at he
  cases ℓ with
  | zero => exact ⟨hshape, hbr _ _⟩
  | succ ℓ => exact ⟨hshape, hbr _ _⟩

/-! ## The shape after one slot changes -/

/-- A node whose slot `p` changes from `s` to `s'`, and whose own fields change the way the
source changes them, keeps its shape. -/
theorem Shape.set {ℓ p : Nat} {n n' : WrsNode α} {s s' : Option α × Int} (h : Shape ℓ n)
    (hp : (slots ℓ n)[p]? = some s) (hs : slots ℓ n' = (slots ℓ n).set p s')
    (hl : n'.level = n.level) (hm : n'.maxItems = n.maxItems)
    (hi : n'.items.length = n.items.length) (hw : n'.weights.length = n.weights.length)
    (hc : n'.itemCnt + (if s.1.isSome then 1 else 0) = n.itemCnt + (if s'.1.isSome then 1 else 0))
    (hsum : n'.sumWeight = int64 (n.sumWeight + (s'.2 - s.2))) : Shape ℓ n' where
  level := hl.trans h.level
  maxItems := hm.trans h.maxItems
  length_items := hi.trans h.length_items
  length_weights := hw.trans h.length_weights
  itemCnt := by
    have := count_set hp s'
    rw [hs]
    rw [h.itemCnt] at hc
    omega
  sumWeight := by
    rw [hsum, hs, total_set hp, h.sumWeight, int64_add_int64]
    congr 1
    ring

/-! ## insert -/

/-- insert's loop stops at the first branch it does not pass, if no branch before it panics. -/
theorem insertBranch_eq_some {n : WrsNode α} : ∀ {es : List (Option (α ⊕ WrsNode α))} {i : Nat},
    (∀ e ∈ es, n.passes e ≠ none) → (∃ e ∈ es, n.passes e = some false) →
    ∃ j e, n.insertBranch es i = some (i + j) ∧ es[j]? = some e ∧ n.passes e = some false
  | [], _, _, hs => by simp at hs
  | e :: es, i, hv, hs => by
    rw [insertBranch]
    match hpe : n.passes e with
    | none => exact absurd hpe (hv e List.mem_cons_self)
    | some false => exact ⟨0, e, rfl, rfl, hpe⟩
    | some true =>
      have hs' : ∃ e' ∈ es, n.passes e' = some false := by
        obtain ⟨e', he', hf⟩ := hs
        rcases List.mem_cons.mp he' with rfl | h
        · rw [hpe] at hf
          cases hf
        · exact ⟨e', h, hf⟩
      obtain ⟨j, e', h1, h2, h3⟩ :=
        insertBranch_eq_some (i := i + 1) (fun e' h => hv e' (List.mem_cons_of_mem _ h)) hs'
      exact ⟨j + 1, e', by rw [h1, show i + 1 + j = i + (j + 1) by omega], by simpa using h2, h3⟩

/-- At the leaves insert's loop never panics, and it passes exactly the branches that hold
something. -/
theorem passes_leaf {n : WrsNode α} (h : n.level = 0) (e : Option (α ⊕ WrsNode α)) :
    n.passes e = some e.isSome := by
  rcases e with _ | _ | _ <;> simp [passes, h]

/-- Above the leaves insert's loop stops at an empty branch and at a node that is not full. -/
theorem passes_node {n : WrsNode α} (h : n.level ≠ 0) (c : WrsNode α) :
    n.passes (some (.inr c)) = some (decide (c.itemCnt = c.maxItems)) := by
  simp [passes, h]

theorem getElem?_slots_zero {n : WrsNode α} {p : Nat} {e : Option (α ⊕ WrsNode α)} {w : Int}
    (he : n.items[p]? = some e) (hw : n.weights[p]? = some w) :
    (slots 0 n)[p]? = some (leafItem e, w) := by
  simp [slots_zero, List.getElem?_zipWith, he, hw]

theorem exists_of_getElem?_slots_zero {n : WrsNode α} {p : Nat} {s : Option α × Int}
    (h : (slots 0 n)[p]? = some s) :
    ∃ e w, n.items[p]? = some e ∧ n.weights[p]? = some w ∧ s = (leafItem e, w) := by
  rw [slots_zero, List.getElem?_zipWith] at h
  split at h
  · cases h
    exact ⟨_, _, ‹_›, ‹_›, rfl⟩
  · cases h

/-- A list of slots with a free slot holds fewer items than it has slots. -/
theorem count_lt_of_free {ss : List (Option α × Int)} {p : Nat} {w : Int}
    (h : ss[p]? = some (none, w)) : count ss < ss.length := by
  have hne : count ss ≠ ss.length := fun heq => by
    have := List.countP_eq_length.mp heq _ (List.mem_of_getElem? h)
    simp at this
  exact lt_of_le_of_ne (count_le_length ss) hne

/-- insert at the leaves puts the item into the first empty branch. -/
theorem insertAt_leaf {n : WrsNode α} (fuel : Nat) (a : α) {w : Int} (h : WF 0 n)
    (hfree : n.itemCnt < n.maxItems) (hw0 : 0 < w) (hw1 : w < 2 ^ 63) :
    ∃ n' p, insertAt fuel n a w = some (n', p) ∧ WF 0 n' ∧ (slots 0 n)[p]? = some (none, 0) ∧
      slots 0 n' = (slots 0 n).set p (some a, w) ∧ n'.sumWeight = int64 (n.sumWeight + w) := by
  have hs := h.1
  have hex : ∃ e ∈ n.items, n.passes e = some false := by
    have hlt : count (slots 0 n) < (slots 0 n).length := by
      rw [h.length_slots, ← hs.itemCnt, ← hs.maxItems]
      exact hfree
    obtain ⟨p, w', hp⟩ := exists_free_of_count_lt hlt
    obtain ⟨e, w'', he, -, hs'⟩ := exists_of_getElem?_slots_zero hp
    obtain ⟨w₁, -, hok⟩ := h.leaf he
    refine ⟨e, List.mem_of_getElem? he, ?_⟩
    rw [passes_leaf hs.level]
    revert hok hs'
    rcases e with _ | _ | _ <;> simp [leafItem, BranchOK]
  obtain ⟨j, e, hj, hje, hpe⟩ :=
    insertBranch_eq_some (i := 0) (fun e _ => by simp [passes_leaf hs.level e]) hex
  rw [passes_leaf hs.level, Option.some.injEq, Option.isSome_eq_false_iff,
    Option.isNone_iff_eq_none] at hpe
  subst hpe
  obtain ⟨wj, hwj, hok⟩ := h.leaf hje
  simp only [BranchOK] at hok
  subst hok
  have hj' : j < n.items.length := (List.getElem?_eq_some_iff.mp hje).1
  have hint : int64 (0 + w) = w := by
    rw [Int.zero_add]
    exact int64_of_inInt64 ⟨by omega, by omega⟩
  have hweights : n.weights.modify j (fun x => int64 (x + w)) = n.weights.set j w := by
    rw [modify_eq_set_of_getElem? _ hwj, hint]
  have hrun : insertAt fuel n a w = some ({ n with
      itemCnt := n.itemCnt + 1
      sumWeight := int64 (n.sumWeight + w)
      weights := n.weights.set j w
      items := n.items.set j (some (.inl a)) }, j) := by
    rw [insertAt, hj, Nat.zero_add]
    simp only [hs.level, if_true, hweights]
  have hpj : (slots 0 n)[j]? = some (none, 0) := getElem?_slots_zero hje hwj
  have hslots : slots 0 { n with
      itemCnt := n.itemCnt + 1
      sumWeight := int64 (n.sumWeight + w)
      weights := n.weights.set j w
      items := n.items.set j (some (.inl a)) } = (slots 0 n).set j (some a, w) := by
    rw [slots_zero, slots_zero, zipWith_set_set]
    rfl
  refine ⟨_, j, hrun, ⟨Shape.set hs hpj hslots rfl rfl (List.length_set ..) (List.length_set ..)
    (by simp) (by simp), Branches.update h.2 (b := j) (fun k hk => List.getElem?_set_ne (Ne.symm hk))
      (fun k hk => List.getElem?_set_ne (Ne.symm hk)) ?_⟩, hpj, hslots, rfl⟩
  intro e' w' he' hw'
  rw [List.getElem?_set_self hj', Option.some.injEq] at he'
  rw [List.getElem?_set_self (by rw [hs.length_weights_eq]; exact hj'),
    Option.some.injEq] at hw'
  subst he' hw'
  exact ⟨rfl, hw0, hw1⟩

/-- A free slot of a well-formed node above the leaves lies in an empty branch or in a node that
is not full. -/
theorem WF.exists_open_branch {ℓ : Nat} {n : WrsNode α} (h : WF (ℓ + 1) n)
    (hfree : n.itemCnt < n.maxItems) : ∃ e ∈ n.items, n.passes e = some false := by
  have hs := h.1
  have hlv : n.level ≠ 0 := by rw [hs.level]; omega
  have hlt : count (slots (ℓ + 1) n) < (slots (ℓ + 1) n).length := by
    rw [h.length_slots, ← hs.itemCnt, ← hs.maxItems]
    exact hfree
  obtain ⟨p, w', hp⟩ := exists_free_of_count_lt hlt
  have hm : 0 < wrsBranches ^ (ℓ + 1) := pow_pos (by decide) _
  have hplt : p < wrsBranches ^ (ℓ + 1 + 1) := by
    rw [← h.length_slots]
    exact (List.getElem?_eq_some_iff.mp hp).1
  have hb : p / wrsBranches ^ (ℓ + 1) < n.items.length := by
    rw [hs.length_items, Nat.div_lt_iff_lt_mul hm, ← pow_succ']
    exact hplt
  obtain ⟨e, he⟩ : ∃ e, n.items[p / wrsBranches ^ (ℓ + 1)]? = some e :=
    ⟨_, List.getElem?_eq_getElem hb⟩
  have hblk := h.getElem?_slots_succ (Nat.mod_lt p hm) he
  rw [Nat.div_add_mod', hp] at hblk
  refine ⟨e, List.mem_of_getElem? he, ?_⟩
  obtain ⟨w, -, hok⟩ := h.branch he
  cases e with
  | none => rfl
  | some x =>
    cases x with
    | inl _ => simp [BranchOK] at hok
    | inr c =>
    have hc := hok.2.1
    have hlt' := count_lt_of_free hblk.symm
    rw [block, hc.length_slots, ← hc.shape.itemCnt, ← hc.shape.maxItems] at hlt'
    rw [passes_node hlv, decide_eq_false (Nat.ne_of_lt hlt')]

/-- insert fills a free slot of a node that is not full, and adds the weight to its
`sumWeight`. -/
theorem insertAt_spec : ∀ (ℓ : Nat) {n : WrsNode α} (a : α) {w : Int}, WF ℓ n →
    n.itemCnt < n.maxItems → 0 < w → w < 2 ^ 63 →
    ∃ n' p, insertAt ℓ n a w = some (n', p) ∧ WF ℓ n' ∧ (slots ℓ n)[p]? = some (none, 0) ∧
      slots ℓ n' = (slots ℓ n).set p (some a, w) ∧ n'.sumWeight = int64 (n.sumWeight + w)
  | 0, _, a, _, h, hfree, hw0, hw1 => insertAt_leaf 0 a h hfree hw0 hw1
  | ℓ + 1, n, a, w, h, hfree, hw0, hw1 => by
    have hs := h.1
    have hlv : n.level ≠ 0 := by rw [hs.level]; omega
    have hnp : ∀ e ∈ n.items, n.passes e ≠ none := by
      intro e he
      obtain ⟨b, hb, rfl⟩ := List.getElem_of_mem he
      obtain ⟨w, -, hok⟩ := h.branch (List.getElem?_eq_getElem hb)
      revert hok
      rcases n.items[b] with _ | _ | c <;> simp [passes, hlv, BranchOK]
    obtain ⟨j, e, hj, hje, hpe⟩ := insertBranch_eq_some (i := 0) hnp (h.exists_open_branch hfree)
    obtain ⟨wj, hwj, hok⟩ := h.branch hje
    have hj' : j < n.items.length := (List.getElem?_eq_some_iff.mp hje).1
    -- the node the loop stopped at: a fresh one for an empty branch, else the branch's node
    obtain ⟨c, hc, hcfree, hblk, hcw, hsub⟩ : ∃ c, WF ℓ c ∧ c.itemCnt < c.maxItems ∧
        block ℓ (wrsBranches ^ (ℓ + 1)) e = slots ℓ c ∧ wj = c.sumWeight ∧
        n.subNode j = c := by
      rcases e with _ | _ | c
      · refine ⟨empty ℓ (wrsBranches ^ (ℓ + 1)), wf_empty ℓ, ?_, (slots_empty ℓ).symm, hok, ?_⟩
        · simpa [empty] using pow_pos (by decide : 0 < wrsBranches) (ℓ + 1)
        · simp [subNode, List.getD_eq_getElem?_getD, hje, hs.level, hs.div_maxItems]
      · simp [BranchOK] at hok
      · obtain ⟨-, hc, rfl⟩ := hok
        refine ⟨c, hc, ?_, rfl, rfl, by simp [subNode, List.getD_eq_getElem?_getD, hje]⟩
        rw [passes_node hlv, Option.some.injEq, decide_eq_false_iff_not] at hpe
        have := count_le_length (slots ℓ c)
        rw [hc.length_slots, ← hc.shape.itemCnt, ← hc.shape.maxItems] at this
        omega
    obtain ⟨c', r, hrun, hc', hr, hslots, hsum⟩ := insertAt_spec ℓ a hc hcfree hw0 hw1
    have hrlt : r < wrsBranches ^ (ℓ + 1) := by
      rw [← hc.length_slots]
      exact (List.getElem?_eq_some_iff.mp hr).1
    have hweights : n.weights.modify j (fun x => int64 (x + w)) =
        n.weights.set j (int64 (c.sumWeight + w)) := by
      rw [modify_eq_set_of_getElem? _ hwj, hcw]
    let n' : WrsNode α := { n with
      itemCnt := n.itemCnt + 1
      sumWeight := int64 (n.sumWeight + w)
      weights := n.weights.set j (int64 (c.sumWeight + w))
      items := n.items.set j (some (.inr c')) }
    have hpos : c'.maxItems * j + r = j * wrsBranches ^ (ℓ + 1) + r := by
      rw [hc'.shape.maxItems, Nat.mul_comm]
    have hrun' : insertAt (ℓ + 1) n a w = some (n', j * wrsBranches ^ (ℓ + 1) + r) := by
      rw [insertAt, hj, Nat.zero_add]
      simp only [hlv, if_false, hweights, hsub, hrun, hpos]
      rfl
    have hpj : (slots (ℓ + 1) n)[j * wrsBranches ^ (ℓ + 1) + r]? = some (none, 0) := by
      rw [h.getElem?_slots_succ hrlt hje, hblk, hr]
    have hslots' : slots (ℓ + 1) n' = (slots (ℓ + 1) n).set (j * wrsBranches ^ (ℓ + 1) + r)
        (some a, w) :=
      h.slots_set_succ hrlt hje (by rw [hslots, hblk]) rfl rfl
    refine ⟨n', _, hrun', ⟨Shape.set hs hpj hslots' rfl rfl (List.length_set ..)
      (List.length_set ..) (by simp [n']) (by simp [n']), Branches.update h.2 (b := j)
        (fun k hk => List.getElem?_set_ne (Ne.symm hk))
        (fun k hk => List.getElem?_set_ne (Ne.symm hk)) ?_⟩, hpj, hslots', rfl⟩
    intro e' w' he' hw'
    rw [List.getElem?_set_self hj', Option.some.injEq] at he'
    rw [List.getElem?_set_self (by rw [hs.length_weights_eq]; exact hj'),
      Option.some.injEq] at hw'
    subst he' hw'
    exact ⟨rfl, hc', hsum.symm⟩

/-! ## setWeight -/

/-- A stored item of a well-formed node above the leaves lies in the node of branch
`p / 8^(ℓ+1)`, at position `p % 8^(ℓ+1)` there: where setWeight's index arithmetic goes. -/
theorem WF.stored_succ {ℓ : Nat} {n : WrsNode α} (h : WF (ℓ + 1) n) {p : Nat} {a : α} {w₀ : Int}
    (hp : (slots (ℓ + 1) n)[p]? = some (some a, w₀)) :
    ∃ c, n.items[p / wrsBranches ^ (ℓ + 1)]? = some (some (.inr c)) ∧ WF ℓ c ∧
      n.weights[p / wrsBranches ^ (ℓ + 1)]? = some c.sumWeight ∧
      (slots ℓ c)[p % wrsBranches ^ (ℓ + 1)]? = some (some a, w₀) := by
  have hm : 0 < wrsBranches ^ (ℓ + 1) := pow_pos (by decide) _
  have hplt : p < wrsBranches ^ (ℓ + 1 + 1) := by
    rw [← h.length_slots]
    exact (List.getElem?_eq_some_iff.mp hp).1
  have hb : p / wrsBranches ^ (ℓ + 1) < n.items.length := by
    rw [h.1.length_items, Nat.div_lt_iff_lt_mul hm, ← pow_succ']
    exact hplt
  obtain ⟨e, he⟩ : ∃ e, n.items[p / wrsBranches ^ (ℓ + 1)]? = some e :=
    ⟨_, List.getElem?_eq_getElem hb⟩
  have hblk := h.getElem?_slots_succ (Nat.mod_lt p hm) he
  rw [Nat.div_add_mod', hp] at hblk
  obtain ⟨w, hw, hok⟩ := h.branch he
  cases e with
  | none =>
    simp only [block, List.getElem?_replicate] at hblk
    split at hblk <;> cases hblk
  | some x =>
    cases x with
    | inl _ => simp [BranchOK] at hok
    | inr c =>
      obtain ⟨-, hc, rfl⟩ := hok
      exact ⟨c, he, hc, hw, hblk.symm⟩

/-- setWeight's new slot: the item with its new weight, or a free slot for weight 0. -/
def setSlot (a : α) (w : Int) : Option α × Int := (if w = 0 then none else some a, w)

/-- The node's `itemCnt` after setWeight against the count of its slots. -/
theorem itemCnt_setSlot {ℓ p : Nat} {n : WrsNode α} {a : α} {w₀ : Int} (hs : Shape ℓ n)
    (hp : (slots ℓ n)[p]? = some (some a, w₀)) (w : Int) :
    (if w = 0 then n.itemCnt - 1 else n.itemCnt) + (if (some a).isSome then 1 else 0) =
      n.itemCnt + (if (setSlot a w).1.isSome then 1 else 0) := by
  have hpos : 1 ≤ n.itemCnt := by
    rw [hs.itemCnt]
    exact List.countP_pos_iff.mpr ⟨_, List.mem_of_getElem? hp, rfl⟩
  by_cases hw : w = 0
  · simp only [hw, if_true, setSlot, Option.isSome_some, Option.isSome_none, if_false,
      Bool.false_eq_true]
    omega
  · simp [setSlot, hw]

/-- setWeight's new branch at the leaves. -/
theorem BranchOK.setSlot {P : WrsNode α → Prop} (a : α) {w : Int} (hw0 : 0 ≤ w)
    (hw1 : w < 2 ^ 63) :
    BranchOK true P (if w = 0 then none else some (.inl a)) w := by
  by_cases hw : w = 0
  · simp [hw, BranchOK]
  · simp only [hw, if_false, BranchOK, true_and]
    exact ⟨by omega, hw1⟩

/-- setWeight at the leaves rewrites the branch it is given. -/
theorem setWeightAt_leaf {n : WrsNode α} (fuel : Nat) {p : Nat} {a : α} {w₀ w : Int}
    (h : WF 0 n) (hp : (slots 0 n)[p]? = some (some a, w₀)) (hw0 : 0 ≤ w) (hw1 : w < 2 ^ 63) :
    ∃ n', setWeightAt fuel n p w = some (n', int64 (w - w₀)) ∧ WF 0 n' ∧
      slots 0 n' = (slots 0 n).set p (setSlot a w) ∧
      n'.sumWeight = int64 (n.sumWeight + int64 (w - w₀)) := by
  have hs := h.1
  obtain ⟨e, w', he, hw', hs'⟩ := exists_of_getElem?_slots_zero hp
  obtain ⟨hae, rfl⟩ := Prod.mk.inj hs'
  have hea : e = some (.inl a) := by
    rcases e with _ | _ | _ <;> simp_all [leafItem]
  subst hea
  have hplt : p < n.items.length := (List.getElem?_eq_some_iff.mp he).1
  have hitems : (if w = 0 then n.items.set p none else n.items) =
      n.items.set p (if w = 0 then none else some (.inl a)) := by
    by_cases hw : w = 0
    · simp [hw]
    · simp only [hw, if_false]
      exact (List.set_getElem_self hplt).symm.trans (by rw [(List.getElem?_eq_some_iff.mp he).2])
  let n' : WrsNode α := { n with
    weights := n.weights.set p w
    sumWeight := int64 (n.sumWeight + int64 (w - w₀))
    items := n.items.set p (if w = 0 then none else some (.inl a))
    itemCnt := if w = 0 then n.itemCnt - 1 else n.itemCnt }
  have hrun : setWeightAt fuel n p w = some (n', int64 (w - w₀)) := by
    rw [setWeightAt.eq_def]
    simp only [if_pos hs.level, hw', hitems]
    rfl
  have hslots : slots 0 n' = (slots 0 n).set p (setSlot a w) := by
    rw [slots_zero, slots_zero, zipWith_set_set]
    by_cases hw : w = 0 <;> simp [setSlot, hw, leafItem]
  refine ⟨n', hrun, ⟨Shape.set hs hp hslots rfl rfl (List.length_set ..) (List.length_set ..)
    (itemCnt_setSlot hs hp w) (by simp [n', setSlot, int64_add_int64_right]),
    Branches.update h.2 (b := p) (fun k hk => List.getElem?_set_ne (Ne.symm hk))
      (fun k hk => List.getElem?_set_ne (Ne.symm hk)) ?_⟩, hslots, rfl⟩
  intro e' w'' he' hw''
  rw [List.getElem?_set_self hplt, Option.some.injEq] at he'
  rw [List.getElem?_set_self (by rw [hs.length_weights_eq]; exact hplt),
    Option.some.injEq] at hw''
  subst he' hw''
  exact BranchOK.setSlot a hw0 hw1

/-- setWeight at the position of a stored item rewrites that slot (`setSlot`), adds the change
of weight to `sumWeight` and returns it. -/
theorem setWeightAt_spec : ∀ (ℓ : Nat) {n : WrsNode α} {p : Nat} {a : α} {w₀ w : Int}, WF ℓ n →
    (slots ℓ n)[p]? = some (some a, w₀) → 0 ≤ w → w < 2 ^ 63 →
    ∃ n', setWeightAt ℓ n p w = some (n', int64 (w - w₀)) ∧ WF ℓ n' ∧
      slots ℓ n' = (slots ℓ n).set p (setSlot a w) ∧
      n'.sumWeight = int64 (n.sumWeight + int64 (w - w₀))
  | 0, _, _, _, _, _, h, hp, hw0, hw1 => setWeightAt_leaf 0 h hp hw0 hw1
  | ℓ + 1, n, p, a, w₀, w, h, hp, hw0, hw1 => by
    have hs := h.1
    have hlv : n.level ≠ 0 := by rw [hs.level]; omega
    have hm : 0 < wrsBranches ^ (ℓ + 1) := pow_pos (by decide) _
    obtain ⟨c, hb, hc, hwb, hr⟩ := h.stored_succ hp
    obtain ⟨c', hrun, hc', hslots, hsum⟩ := setWeightAt_spec ℓ hc hr hw0 hw1
    have hidx : p - p / wrsBranches ^ (ℓ + 1) * wrsBranches ^ (ℓ + 1) =
        p % wrsBranches ^ (ℓ + 1) := by
      exact Nat.sub_eq_of_eq_add (by rw [Nat.add_comm, Nat.div_add_mod'])
    have hweights : n.weights.modify (p / wrsBranches ^ (ℓ + 1)) (fun x => int64 (x + int64 (w - w₀))) =
        n.weights.set (p / wrsBranches ^ (ℓ + 1)) c'.sumWeight := by
      rw [modify_eq_set_of_getElem? _ hwb, hsum]
    let n' : WrsNode α := { n with
      items := n.items.set (p / wrsBranches ^ (ℓ + 1)) (some (.inr c'))
      weights := n.weights.set (p / wrsBranches ^ (ℓ + 1)) c'.sumWeight
      sumWeight := int64 (n.sumWeight + int64 (w - w₀))
      itemCnt := if w = 0 then n.itemCnt - 1 else n.itemCnt }
    have hrun' : setWeightAt (ℓ + 1) n p w = some (n', int64 (w - w₀)) := by
      rw [setWeightAt]
      simp only [hlv, if_false, hs.div_maxItems, hb, hidx, hrun, hweights]
      rfl
    have hslots' : slots (ℓ + 1) n' = (slots (ℓ + 1) n).set p (setSlot a w) := by
      have : slots (ℓ + 1) n' = (slots (ℓ + 1) n).set
          (p / wrsBranches ^ (ℓ + 1) * wrsBranches ^ (ℓ + 1) + p % wrsBranches ^ (ℓ + 1))
          (setSlot a w) := h.slots_set_succ (Nat.mod_lt p hm) hb hslots rfl rfl
      rwa [Nat.div_add_mod'] at this
    have hblt : p / wrsBranches ^ (ℓ + 1) < n.items.length :=
      (List.getElem?_eq_some_iff.mp hb).1
    refine ⟨n', hrun', ⟨Shape.set hs hp hslots' rfl rfl (List.length_set ..)
      (List.length_set ..) (itemCnt_setSlot hs hp w)
      (by simp [n', setSlot, int64_add_int64_right]),
      Branches.update h.2 (b := p / wrsBranches ^ (ℓ + 1))
        (fun k hk => List.getElem?_set_ne (Ne.symm hk))
        (fun k hk => List.getElem?_set_ne (Ne.symm hk)) ?_⟩, hslots', rfl⟩
    intro e' w'' he' hw''
    rw [List.getElem?_set_self hblt, Option.some.injEq] at he'
    rw [List.getElem?_set_self (by rw [hs.length_weights_eq]; exact hblt),
      Option.some.injEq] at hw''
    subst he' hw''
    exact ⟨rfl, hc', rfl⟩

/-! ## A new root -/

/-- The root weightedRandomSelect.setWeight puts above a full root covers the old root's slots,
then free ones. -/
theorem slots_addLevel {ℓ : Nat} {n : WrsNode α} (h : WF ℓ n) :
    slots (ℓ + 1) n.addLevel =
      slots ℓ n ++ List.replicate ((wrsBranches - 1) * wrsBranches ^ (ℓ + 1)) (none, 0) := by
  have hm : n.addLevel.maxItems / wrsBranches = wrsBranches ^ (ℓ + 1) := by
    simp only [addLevel]
    rw [Nat.mul_div_cancel _ (by decide), h.shape.maxItems]
  rw [slots_succ, hm]
  simp only [addLevel, List.map_cons, List.map_replicate, List.flatten_cons, block]
  rw [List.flatten_replicate_replicate]

theorem wf_addLevel {ℓ : Nat} {n : WrsNode α} (h : WF ℓ n) : WF (ℓ + 1) n.addLevel := by
  have hs := h.shape
  refine ⟨⟨by simp [addLevel, hs.level], by simp [addLevel, hs.maxItems, pow_succ],
    by simp [addLevel, wrsBranches], by simp [addLevel, wrsBranches], ?_, ?_⟩, ?_⟩
  · rw [slots_addLevel h, count_append, count_replicate_free, Nat.add_zero, ← hs.itemCnt]
    rfl
  · rw [slots_addLevel h, total_append, total_replicate_free, Int.add_zero, ← hs.sumWeight]
    rfl
  · intro b e w he hw
    cases b with
    | zero =>
      simp only [addLevel, List.getElem?_cons_zero, Option.some.injEq] at he hw
      subst he hw
      exact ⟨rfl, h, rfl⟩
    | succ b =>
      simp only [addLevel, List.getElem?_cons_succ, List.getElem?_replicate] at he hw
      split at he
      · simp only [Option.some.injEq, ‹b < wrsBranches - 1›, if_true] at he hw
        subst he hw
        rfl
      · cases he

/-! ## choose -/

/-- Well-formed slots have non-negative weights. -/
theorem WF.nonneg {ℓ : Nat} {n : WrsNode α} (h : WF ℓ n) : Nonneg ((slots ℓ n).map Prod.snd) := by
  intro w hw
  obtain ⟨⟨x, w'⟩, hs, rfl⟩ := List.mem_map.mp hw
  have := h.good hs
  rcases x with _ | _
  · simp_all [GoodSlot]
  · simp only [GoodSlot] at this
    omega

theorem WF.total_nonneg {ℓ : Nat} {n : WrsNode α} (h : WF ℓ n) : 0 ≤ total (slots ℓ n) :=
  h.nonneg.sum_nonneg

/-- With a total weight below 2^63 no sum of the node wraps. -/
theorem WF.sumWeight_eq_total {ℓ : Nat} {n : WrsNode α} (h : WF ℓ n)
    (ht : total (slots ℓ n) < 2 ^ 63) : n.sumWeight = total (slots ℓ n) := by
  rw [h.shape.sumWeight, int64_of_inInt64 ⟨by have := h.total_nonneg; omega, ht⟩]

theorem map_snd_slots_zero {n : WrsNode α} (hs : Shape 0 n) :
    (slots 0 n).map Prod.snd = n.weights := by
  apply List.ext_getElem?
  intro i
  rw [List.getElem?_map, slots_zero, List.getElem?_zipWith]
  by_cases hi : i < wrsBranches
  · rw [List.getElem?_eq_getElem (hs.length_items ▸ hi),
      List.getElem?_eq_getElem (hs.length_weights ▸ hi)]
    rfl
  · rw [List.getElem?_eq_none (by rw [hs.length_items]; omega),
      List.getElem?_eq_none (by rw [hs.length_weights]; omega)]
    rfl

/-- The blocks of a well-formed node have non-negative totals. -/
theorem WF.total_block_nonneg {ℓ : Nat} {n : WrsNode α} (h : WF (ℓ + 1) n) :
    ∀ l ∈ n.items.map (block ℓ (n.maxItems / wrsBranches)), 0 ≤ total l :=
  h.blocks (Q := fun l => 0 ≤ total l) (by simp) fun _ hc => hc.total_nonneg

/-- A block's total is at most the node's total. -/
theorem WF.total_block_le {ℓ : Nat} {n : WrsNode α} (h : WF (ℓ + 1) n) :
    ∀ l ∈ n.items.map (block ℓ (n.maxItems / wrsBranches)), total l ≤ total (slots (ℓ + 1) n) := by
  intro l hl
  rw [slots_succ, total_flatten]
  refine List.single_le_sum (fun x hx => ?_) _ (List.mem_map_of_mem hl)
  obtain ⟨l', hl', rfl⟩ := List.mem_map.mp hx
  exact h.total_block_nonneg l' hl'

/-- Above the leaves the weights of a node are the totals of its blocks, in int64 arithmetic. -/
theorem WF.weights_eq_int64_totals {ℓ : Nat} {n : WrsNode α} (h : WF (ℓ + 1) n) :
    n.weights = (n.items.map (block ℓ (n.maxItems / wrsBranches))).map fun l => int64 (total l) := by
  apply List.ext_getElem?
  intro b
  rw [List.getElem?_map, List.getElem?_map]
  cases hb : n.items[b]? with
  | none =>
    rw [List.getElem?_eq_none (by
      have := List.getElem?_eq_none_iff.mp hb
      rw [h.1.length_weights_eq]; exact this)]
    rfl
  | some e =>
    obtain ⟨w, hw, hok⟩ := h.branch hb
    rw [hw]
    cases e with
    | none =>
      simp only [BranchOK] at hok
      simp [hok, block]
      rfl
    | some x =>
      cases x with
      | inl _ => simp [BranchOK] at hok
      | inr c =>
        obtain ⟨-, hc, rfl⟩ := hok
        rw [hc.shape.sumWeight]
        rfl

/-- When no sum wraps, the weights of a node above the leaves are the totals of its blocks. -/
theorem WF.weights_eq_totals {ℓ : Nat} {n : WrsNode α} (h : WF (ℓ + 1) n)
    (ht : total (slots (ℓ + 1) n) < 2 ^ 63) :
    n.weights = (n.items.map (block ℓ (n.maxItems / wrsBranches))).map total := by
  rw [h.weights_eq_int64_totals]
  refine List.map_congr_left fun l hl => int64_of_inInt64 ⟨?_, ?_⟩
  · have := h.total_block_nonneg l hl
    omega
  · have := h.total_block_le l hl
    omega

/-- choose's loop is `select` when the weights are non-negative and the value is a
non-negative int64: then no subtraction wraps. -/
theorem chooseBranch_eq : ∀ {ws : List Int} (i : Nat) {v : Int}, Nonneg ws → 0 ≤ v → v < 2 ^ 63 →
    chooseBranch ws i v = (select ws v).map fun (j, r) => (j + i, r)
  | [], _, _, _, _, _ => rfl
  | w :: ws, i, v, h, hv0, hv1 => by
    rw [chooseBranch, select_cons]
    split
    · simp
    · obtain ⟨hw, hws⟩ := h.cons
      rw [int64_of_inInt64 ⟨by omega, by omega⟩, chooseBranch_eq (i + 1) hws (by omega) (by omega),
        Option.map_map]
      congr 1
      funext ⟨j, r⟩
      simp only [Function.comp_apply]
      congr 1
      omega

/-- When no sum wraps, choose returns the item of the slot whose interval of the cumulative slot
weights holds the value, with its weight. -/
theorem chooseAt_spec : ∀ (ℓ : Nat) {n : WrsNode α} {v : Int}, WF ℓ n →
    total (slots ℓ n) < 2 ^ 63 → 0 ≤ v → v < total (slots ℓ n) →
    ∃ p r a w, select ((slots ℓ n).map Prod.snd) v = some (p, r) ∧
      (slots ℓ n)[p]? = some (some a, w) ∧ chooseAt ℓ n v = some (a, w)
  | 0, n, v, h, ht, hv0, hv1 => by
    have hs := h.1
    have hws := map_snd_slots_zero hs
    have hnn : Nonneg n.weights := hws ▸ h.nonneg
    have hsum : n.weights.sum = total (slots 0 n) := by rw [total, hws]
    obtain ⟨i, r, hsel⟩ := select_exists hnn hv0 (by omega)
    obtain ⟨wi, hwi, hr0, hr1⟩ := select_weight hnn hv0 hsel
    obtain ⟨e, he⟩ : ∃ e, n.items[i]? = some e := by
      have := (List.getElem?_eq_some_iff.mp hwi).1
      exact ⟨_, List.getElem?_eq_getElem (by rw [← hs.length_weights_eq]; exact this)⟩
    obtain ⟨wi', hwi', hok⟩ := h.leaf he
    rw [hwi] at hwi'
    cases hwi'
    cases e with
    | none => simp only [BranchOK] at hok; omega
    | some x =>
      cases x with
      | inr _ => simp [BranchOK] at hok
      | inl a =>
        refine ⟨i, r, a, wi, by rw [hws]; exact hsel, getElem?_slots_zero he hwi, ?_⟩
        rw [chooseAt, chooseBranch_eq 0 hnn hv0 (by omega), hsel]
        simp [hs.level, List.getD_eq_getElem?_getD, he, hwi]
  | ℓ + 1, n, v, h, ht, hv0, hv1 => by
    have hs := h.1
    have hlv : n.level ≠ 0 := by rw [hs.level]; omega
    have hws := h.weights_eq_totals ht
    have hnn : Nonneg n.weights := by
      rw [hws]
      intro x hx
      obtain ⟨l, hl, rfl⟩ := List.mem_map.mp hx
      exact h.total_block_nonneg l hl
    have hsum : n.weights.sum = total (slots (ℓ + 1) n) := by
      rw [hws, slots_succ, total_flatten]
    obtain ⟨b, r, hsel⟩ := select_exists hnn hv0 (by omega)
    obtain ⟨wb, hwb, hr0, hr1⟩ := select_weight hnn hv0 hsel
    obtain ⟨e, he⟩ : ∃ e, n.items[b]? = some e := by
      have := (List.getElem?_eq_some_iff.mp hwb).1
      exact ⟨_, List.getElem?_eq_getElem (by rw [← hs.length_weights_eq]; exact this)⟩
    obtain ⟨wb', hwb', hok⟩ := h.branch he
    rw [hwb] at hwb'
    cases hwb'
    cases e with
    | none => simp only [BranchOK] at hok; omega
    | some x =>
      cases x with
      | inl _ => simp [BranchOK] at hok
      | inr c =>
        obtain ⟨-, hc, rfl⟩ := hok
        have htc : total (slots ℓ c) < 2 ^ 63 := by
          have := h.total_block_le (block ℓ (n.maxItems / wrsBranches) (some (.inr c)))
            (List.mem_map_of_mem (List.mem_of_getElem? he))
          simp only [block] at this
          omega
        have hcs := hc.sumWeight_eq_total htc
        obtain ⟨p, r', a, w, hsel', hp, hch⟩ := chooseAt_spec ℓ hc htc hr0 (by omega)
        have hplt : p < wrsBranches ^ (ℓ + 1) := by
          rw [← hc.length_slots]
          exact (List.getElem?_eq_some_iff.mp hp).1
        refine ⟨b * wrsBranches ^ (ℓ + 1) + p, r', a, w, ?_, ?_, ?_⟩
        · have hL : ∀ l ∈ (n.items.map (block ℓ (n.maxItems / wrsBranches))).map
              (List.map Prod.snd), Nonneg l := by
            intro l hl
            obtain ⟨l', hl', rfl⟩ := List.mem_map.mp hl
            exact h.blocks (Q := fun l => Nonneg (l.map Prod.snd))
              (fun x hx => by simp at hx; omega) (fun c hc => hc.nonneg) l' hl'
          have hsel0 : select (((n.items.map (block ℓ (n.maxItems / wrsBranches))).map
              (List.map Prod.snd)).map List.sum) v = some (b, r) := by
            rw [List.map_map]
            exact hws ▸ hsel
          have hget : (((n.items.map (block ℓ (n.maxItems / wrsBranches))).map
              (List.map Prod.snd)).getD b []) = (slots ℓ c).map Prod.snd := by
            simp [List.getD_eq_getElem?_getD, he, block]
          have := select_flatten hL hsel0 (hget ▸ hsel')
          rw [slots_succ, List.map_flatten]
          rw [this, sum_map_length_take (m := wrsBranches ^ (ℓ + 1))]
          · intro l hl
            obtain ⟨l', hl', rfl⟩ := List.mem_map.mp hl
            rw [List.length_map]
            exact h.length_block l' hl'
          · have := (List.getElem?_eq_some_iff.mp he).1
            simp only [List.length_map]
            omega
        · rw [h.getElem?_slots_succ hplt he]
          exact hp
        · rw [chooseAt, chooseBranch_eq 0 hnn hv0 (by omega), hsel]
          simp [hlv, List.getD_eq_getElem?_getD, he, hch]

/-! ## Every node -/

/-- `P` holds at a node of level ℓ and at every node below it. -/
def AllNodes (P : WrsNode α → Prop) : Nat → WrsNode α → Prop
  | 0, n => P n
  | ℓ + 1, n => P n ∧ ∀ c, some (.inr c) ∈ n.items → AllNodes P ℓ c

/-- What holds at every well-formed node whose total is at most `B` holds at every node of a
well-formed tree whose total is at most `B`. -/
theorem WF.allNodes {P : WrsNode α → Prop} {B : Int}
    (hP : ∀ ℓ (n : WrsNode α), WF ℓ n → total (slots ℓ n) ≤ B → P n) :
    ∀ {ℓ : Nat} {n : WrsNode α}, WF ℓ n → total (slots ℓ n) ≤ B → AllNodes P ℓ n
  | 0, n, h, hB => hP 0 n h hB
  | ℓ + 1, n, h, hB => by
    refine ⟨hP _ n h hB, fun c hc => ?_⟩
    obtain ⟨b, hb, hbc⟩ := List.getElem_of_mem hc
    have hib : n.items[b]? = some (some (.inr c)) := by rw [List.getElem?_eq_getElem hb, hbc]
    obtain ⟨w, -, -, hc', -⟩ := h.branch hib
    have hle := h.total_block_le (block ℓ (n.maxItems / wrsBranches) (some (.inr c)))
      (List.mem_map_of_mem (List.mem_of_getElem? hib))
    exact WF.allNodes hP hc' (hle.trans hB)

/-- The facts the tree keeps at a node, its sums read in the arithmetic `sum`: `sumWeight` is
the sum of the weights, a branch holding a node weighs that node's `sumWeight`, and `itemCnt`
is the number of items stored below the node, at most `maxItems = 8^(level+1)`. -/
def NodeOK (sum : Int → Int) (n : WrsNode α) : Prop :=
  n.sumWeight = sum n.weights.sum ∧
    (∀ (b : Nat) (c : WrsNode α), n.items[b]? = some (some (.inr c)) →
      n.weights[b]? = some c.sumWeight) ∧
    n.itemCnt = count (slots n.level n) ∧ n.itemCnt ≤ n.maxItems ∧
    n.maxItems = wrsBranches ^ (n.level + 1)

/-- A well-formed node keeps the facts of `NodeOK` other than its sum. -/
theorem WF.nodeOK {sum : Int → Int} {ℓ : Nat} {n : WrsNode α} (h : WF ℓ n)
    (hsum : n.sumWeight = sum n.weights.sum) : NodeOK sum n := by
  have hs := h.shape
  refine ⟨hsum, fun b c hb => ?_, by rw [hs.level]; exact hs.itemCnt, ?_, by rw [hs.level]; exact hs.maxItems⟩
  · cases ℓ with
    | zero =>
      obtain ⟨w, -, hok⟩ := h.leaf hb
      simp [BranchOK] at hok
    | succ ℓ =>
      obtain ⟨w, hw, -, -, rfl⟩ := h.branch hb
      exact hw
  · rw [hs.itemCnt, hs.maxItems, ← h.length_slots]
    exact count_le_length _

/-- In int64 arithmetic the facts hold at every well-formed node. -/
theorem WF.nodeOK_int64 {ℓ : Nat} {n : WrsNode α} (h : WF ℓ n) : NodeOK int64 n := by
  refine h.nodeOK ?_
  rw [h.shape.sumWeight]
  cases ℓ with
  | zero => rw [total, map_snd_slots_zero h.1]
  | succ ℓ =>
    have hmap : ((n.items.map (block ℓ (n.maxItems / wrsBranches))).map fun l => int64 (total l)) =
        ((n.items.map (block ℓ (n.maxItems / wrsBranches))).map total).map int64 := by
      simp only [List.map_map]
      rfl
    rw [h.weights_eq_int64_totals, hmap, int64_sum_map_int64, slots_succ, total_flatten]

/-- When no sum wraps they hold in plain arithmetic. -/
theorem WF.nodeOK_exact {ℓ : Nat} {n : WrsNode α} (h : WF ℓ n)
    (ht : total (slots ℓ n) < 2 ^ 63) : NodeOK id n := by
  refine h.nodeOK ?_
  rw [h.sumWeight_eq_total ht, id]
  cases ℓ with
  | zero => rw [total, map_snd_slots_zero h.1]
  | succ ℓ => rw [h.weights_eq_totals ht, slots_succ, total_flatten]

end WrsNode

end GoGaia.Les
