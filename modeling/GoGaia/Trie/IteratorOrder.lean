import GoGaia.Trie.Hash
import GoGaia.Trie.Iterator

/-!
# The iterators list a trie's contents in order

`Visits tr n p V`: a pre-order walk from node `n` at path `p`, resolving hash nodes from `tr`'s
database, visits the nodes of `V`, with their paths, in order. The node iterator is such a walk
made step by step: `Pending tr stack path L` says that the states of the stack still have the
visits `L` to make below them, the top state's children first. One call of `Next` makes the first
of them and keeps the rest pending (`next_upcoming`), and ends the iteration once none is left
(`next_done`).

Below a canonical node the walk exists, its paths increase, and the paths that end with the
terminator are those of the values of the node's contents (`Canon.visits`). The key-value
`Iterator` reports the visits at such paths, so on a trie standing for contents `m` it yields the
entries of `m`, each once, in the order of their HEX keys (`iterator_yields_contents`).
-/

namespace GoGaia.Patricia

/-! ## The children of a full node from an index on -/

section
variable {α : Type}

/-- The lists of children `i` to 16 of a full node, one after the other. -/
def restVisits (Ls : Fin 17 → List α) (i : Nat) : List α :=
  if h : i < 17 then Ls ⟨i, h⟩ ++ restVisits Ls (i + 1) else []
termination_by 17 - i

theorem restVisits_of_nil {Ls : Fin 17 → List α} {i : Nat}
    (hL : ∀ j : Fin 17, i ≤ j.val → Ls j = []) : restVisits Ls i = [] := by
  induction i using restVisits.induct with
  | case1 i h ih =>
    rw [restVisits, dif_pos h, hL ⟨i, h⟩ le_rfl, ih fun j hj => hL j (by omega), List.append_nil]
  | case2 i h => rw [restVisits, dif_neg h]

/-- The lists from `i` on are the one of the first child from `i` on with a non-empty list, and
those after it. -/
theorem restVisits_of_lt (Ls : Fin 17 → List α) (j : Fin 17) :
    restVisits Ls j.val = Ls j ++ restVisits Ls (j.val + 1) := by
  rw [restVisits, dif_pos j.isLt]

theorem restVisits_split {Ls : Fin 17 → List α} {i : Nat} {j : Fin 17} (hij : i ≤ j.val)
    (hskip : ∀ k : Fin 17, i ≤ k.val → k.val < j.val → Ls k = []) :
    restVisits Ls i = Ls j ++ restVisits Ls (j.val + 1) := by
  induction i using restVisits.induct with
  | case1 i h ih =>
    rw [restVisits, dif_pos h]
    rcases Nat.lt_or_eq_of_le hij with hlt | heq
    · rw [hskip ⟨i, h⟩ le_rfl hlt, List.nil_append]
      exact ih hlt fun k hk hkj => hskip k (by omega) hkj
    · subst heq
      rfl
  | case2 i h => exact absurd (lt_of_le_of_lt hij j.isLt) h

theorem mem_restVisits {Ls : Fin 17 → List α} {i : Nat} {x : α} :
    x ∈ restVisits Ls i ↔ ∃ j : Fin 17, i ≤ j.val ∧ x ∈ Ls j := by
  induction i using restVisits.induct with
  | case1 i h ih =>
    rw [restVisits, dif_pos h, List.mem_append, ih]
    constructor
    · rintro (hx | ⟨j, hj, hx⟩)
      · exact ⟨⟨i, h⟩, le_rfl, hx⟩
      · exact ⟨j, by omega, hx⟩
    · rintro ⟨j, hj, hx⟩
      rcases Nat.lt_or_eq_of_le hj with hlt | heq
      · exact .inr ⟨j, hlt, hx⟩
      · exact .inl (by rw [show (⟨i, h⟩ : Fin 17) = j from Fin.ext heq]; exact hx)
  | case2 i h =>
    rw [restVisits, dif_neg h]
    simp only [List.not_mem_nil, false_iff, not_exists, not_and]
    intro j hj
    exact absurd (lt_of_le_of_lt hj j.isLt) h

/-- The lists one after the other are sorted when each is, and all of an earlier child's come
before all of a later one's. -/
theorem restVisits_pairwise {r : α → α → Prop} {Ls : Fin 17 → List α} {i : Nat}
    (hsorted : ∀ j, (Ls j).Pairwise r)
    (hcross : ∀ j k : Fin 17, j < k → ∀ x ∈ Ls j, ∀ y ∈ Ls k, r x y) :
    (restVisits Ls i).Pairwise r := by
  induction i using restVisits.induct with
  | case1 i h ih =>
    rw [restVisits, dif_pos h, List.pairwise_append]
    refine ⟨hsorted _, ih, fun x hx y hy => ?_⟩
    obtain ⟨k, hk, hy⟩ := mem_restVisits.mp hy
    exact hcross ⟨i, h⟩ k (Fin.mk_lt_of_lt_val hk) x hx y hy
  | case2 i h =>
    rw [restVisits, dif_neg h]
    exact List.Pairwise.nil

end

theorem firstChildFrom_none {cs : Fin 17 → Node} {i : Nat} (h : firstChildFrom cs i = none) :
    ∀ j : Fin 17, i ≤ j.val → (cs j).isNil := by
  induction i using firstChildFrom.induct cs with
  | case1 i hi hnil ih =>
    rw [firstChildFrom, dif_pos hi, if_pos hnil] at h
    intro j hj
    rcases Nat.lt_or_eq_of_le hj with hlt | heq
    · exact ih h j hlt
    · rwa [show j = ⟨i, hi⟩ from Fin.ext heq.symm]
  | case2 i hi hnil =>
    rw [firstChildFrom, dif_pos hi, if_neg hnil] at h
    cases h
  | case3 i hi => exact fun j hj => absurd (lt_of_le_of_lt hj j.isLt) hi

theorem firstChildFrom_some {cs : Fin 17 → Node} {i : Nat} {j : Fin 17}
    (h : firstChildFrom cs i = some j) :
    i ≤ j.val ∧ (cs j).isNil = false ∧ ∀ k : Fin 17, i ≤ k.val → k.val < j.val → (cs k).isNil := by
  induction i using firstChildFrom.induct cs with
  | case1 i hi hnil ih =>
    rw [firstChildFrom, dif_pos hi, if_pos hnil] at h
    obtain ⟨hij, hj, hskip⟩ := ih h
    refine ⟨by omega, hj, fun k hk hkj => ?_⟩
    rcases Nat.lt_or_eq_of_le hk with hlt | heq
    · exact hskip k hlt hkj
    · rwa [show k = ⟨i, hi⟩ from Fin.ext heq.symm]
  | case2 i hi hnil =>
    rw [firstChildFrom, dif_pos hi, if_neg hnil, Option.some.injEq] at h
    subst h
    exact ⟨le_rfl, by simpa using hnil,
      fun k hk hkj => absurd (lt_of_le_of_lt hk hkj) (lt_irrefl i)⟩
  | case3 i hi =>
    rw [firstChildFrom, dif_neg hi] at h
    cases h

/-! ## Pre-order walks -/

/-- The visits of a pre-order walk from node `n` at path `p`: `n` itself, or the node a hash node
resolves to in `tr`'s database, then the walks from its children, in the order of their indices,
at the paths through them. -/
inductive Visits (tr : Trie) : Node → List UInt8 → List (List UInt8 × Node) → Prop where
  | nil (p : List UInt8) : Visits tr .nil p [(p, .nil)]
  | value (v p : List UInt8) : Visits tr (.value v) p [(p, .value v)]
  | short (k : List UInt8) (c : Node) (f : NodeFlag) (p : List UInt8)
      {L : List (List UInt8 × Node)} (hc : Visits tr c (p ++ k) L) :
      Visits tr (.short k c f) p ((p, .short k c f) :: L)
  | full (cs : Fin 17 → Node) (f : NodeFlag) (p : List UInt8)
      (Ls : Fin 17 → List (List UInt8 × Node)) (hnil : ∀ i, (cs i).isNil → Ls i = [])
      (hcs : ∀ i, (cs i).isNil = false → Visits tr (cs i) (p ++ [UInt8.ofNat i.val]) (Ls i)) :
      Visits tr (.full cs f) p ((p, .full cs f) :: restVisits Ls 0)
  | hash (h p : List UInt8) {n : Node} {L : List (List UInt8 × Node)}
      (hres : tr.resolveHash h p = .ok n) (hn : n.hashOf? = none) (hv : Visits tr n p L) :
      Visits tr (.hash h) p L

/-- The children's walks of a full node `cs` at path `p`, one list for each child. -/
structure ChildWalks (tr : Trie) (cs : Fin 17 → Node) (p : List UInt8)
    (Ls : Fin 17 → List (List UInt8 × Node)) : Prop where
  nil : ∀ i, (cs i).isNil → Ls i = []
  walk : ∀ i, (cs i).isNil = false → Visits tr (cs i) (p ++ [UInt8.ofNat i.val]) (Ls i)

/-- The visits still to come below a state of node `n` and index `idx` at path `p`: the walks from
the children after `idx`. -/
def ChildVisits (tr : Trie) (n : Node) (idx : Int) (p : List UInt8)
    (L : List (List UInt8 × Node)) : Prop :=
  match n with
  | .full cs _ => ∃ Ls, ChildWalks tr cs p Ls ∧ L = restVisits Ls (idx + 1).toNat
  | .short k c _ => if idx < 0 then Visits tr c (p ++ k) L else L = []
  | _ => L = []

/-- The visits still to come from a stack of states with the current path `p`: those below the
top state, then those below each state under it, at the path cut back to its length. -/
def Pending (tr : Trie) : List NodeIteratorState → List UInt8 → List (List UInt8 × Node) → Prop
  | [], _, L => L = []
  | st :: rest, p, L => -1 ≤ st.index ∧ st.pathlen ≤ p.length ∧
      ∃ L₁ L₂, ChildVisits tr st.node st.index p L₁ ∧ Pending tr rest (p.take st.pathlen) L₂ ∧
        L = L₁ ++ L₂

section
variable {tr : Trie}

theorem Visits.ne_nil {n : Node} {p : List UInt8} {L : List (List UInt8 × Node)}
    (hv : Visits tr n p L) : L ≠ [] := by
  induction hv with
  | hash _ _ _ _ _ ih => exact ih
  | _ => exact List.cons_ne_nil _ _

/-- A walk from a node other than a hash node visits it first, then what is below it. -/
theorem Visits.cons {n : Node} {p : List UInt8} {L : List (List UInt8 × Node)}
    (hv : Visits tr n p L) (hn : n.hashOf? = none) :
    ∃ L', L = (p, n) :: L' ∧ ChildVisits tr n (-1) p L' := by
  cases hv with
  | nil => exact ⟨[], rfl, rfl⟩
  | value => exact ⟨[], rfl, rfl⟩
  | short k c f p hc => exact ⟨_, rfl, hc⟩
  | full cs f p Ls hnil hcs => exact ⟨_, rfl, Ls, ⟨hnil, hcs⟩, rfl⟩
  | hash => cases hn

/-- The paths a walk from `p` visits go through `p`. -/
theorem Visits.extends_path {n : Node} {p : List UInt8} {L : List (List UInt8 × Node)}
    (hv : Visits tr n p L) : ∀ x ∈ L, p <+: x.1 := by
  induction hv with
  | nil p | value _ p => simp
  | short k c f p hc ih =>
    intro x hx
    rcases List.mem_cons.mp hx with rfl | hx
    · exact List.prefix_refl p
    · exact (List.prefix_append p k).trans (ih x hx)
  | full cs f p Ls hnil hcs ih =>
    intro x hx
    rcases List.mem_cons.mp hx with rfl | hx
    · exact List.prefix_refl p
    · obtain ⟨j, -, hx⟩ := mem_restVisits.mp hx
      cases hj : (cs j).isNil with
      | true => rw [hnil j hj] at hx; cases hx
      | false => exact (List.prefix_append p _).trans (ih j hj x hx)
  | hash h p hres hn hv ih => exact ih

/-- So do the paths still to come below a state at path `p`. -/
theorem ChildVisits.extends_path {n : Node} {idx : Int} {p : List UInt8} {L : List (List UInt8 × Node)}
    (hc : ChildVisits tr n idx p L) : ∀ x ∈ L, p <+: x.1 := by
  intro x hx
  cases n with
  | full cs f =>
    obtain ⟨Ls, hw, rfl⟩ := hc
    obtain ⟨j, -, hx⟩ := mem_restVisits.mp hx
    cases hj : (cs j).isNil with
    | true => rw [hw.nil j hj] at hx; cases hx
    | false => exact (List.prefix_append p _).trans ((hw.walk j hj).extends_path x hx)
  | short k c f =>
    simp only [ChildVisits] at hc
    split at hc
    · exact (List.prefix_append p k).trans (hc.extends_path x hx)
    · subst hc
      cases hx
  | nil | value | hash =>
    simp only [ChildVisits] at hc
    subst hc
    cases hx

/-- A full node's walks below its children from `from` on: none when no child is left, and
otherwise the walk from the first child left, then those after it. -/
theorem restVisits_cases {cs : Fin 17 → Node} {p : List UInt8}
    {Ls : Fin 17 → List (List UInt8 × Node)} (hw : ChildWalks tr cs p Ls) (i : Nat) :
    (firstChildFrom cs i = none ∧ restVisits Ls i = []) ∨
      ∃ j, firstChildFrom cs i = some j ∧ (cs j).isNil = false ∧
        restVisits Ls i = Ls j ++ restVisits Ls (j.val + 1) := by
  cases hf : firstChildFrom cs i with
  | none =>
    exact .inl ⟨rfl, restVisits_of_nil fun j hj => hw.nil j (firstChildFrom_none hf j hj)⟩
  | some j =>
    obtain ⟨hij, hj, hskip⟩ := firstChildFrom_some hf
    exact .inr ⟨j, rfl, hj, restVisits_split hij fun k hk hkj => hw.nil k (hskip k hk hkj)⟩

end

/-! ## One step of the node iterator -/

section
variable {tr : Trie}

namespace NodeIterator

/-- A state with no visit left below it has no next child. -/
theorem nextChild_none {F : NodeIteratorState} {p : List UInt8}
    (hF : ChildVisits tr F.node F.index p []) (anc : List UInt8) :
    nextChild p F anc = (F, none) := by
  obtain ⟨hash, node, parent, index, pathlen⟩ := F
  cases node with
  | full cs f =>
    obtain ⟨Ls, hw, hL⟩ := hF
    rcases restVisits_cases hw (index + 1).toNat with ⟨hf, -⟩ | ⟨j, -, hj, hsplit⟩
    · simp only [nextChild, hf]
    · rw [← hL] at hsplit
      exact absurd (List.append_eq_nil_iff.mp hsplit.symm).1 (hw.walk j hj).ne_nil
  | short k c f =>
    simp only [ChildVisits] at hF
    split at hF
    · exact absurd rfl hF.ne_nil
    · simp only [nextChild, if_neg ‹¬ index < 0›]
  | nil | value | hash => rfl

/-- The next child of a state with visits left below it: the first of them are the walk from the
child, and the state, its index moved on by `push`, has the others below it. -/
theorem nextChild_some {F : NodeIteratorState} {p : List UInt8} {L : List (List UInt8 × Node)}
    (hF : ChildVisits tr F.node F.index p L) (hidx : -1 ≤ F.index) (hne : L ≠ [])
    (anc : List UInt8) :
    ∃ F' st cp V L', nextChild p F anc = (F', some (st, cp)) ∧ F'.node = F.node ∧
      F'.pathlen = F.pathlen ∧ -1 ≤ F'.index ∧ ChildVisits tr F.node F'.index p L ∧
      st.index = -1 ∧ st.pathlen = p.length ∧ cp.take p.length = p ∧ p.length ≤ cp.length ∧
      Visits tr st.node cp V ∧ ChildVisits tr F.node (F'.index + 1) p L' ∧ L = V ++ L' := by
  obtain ⟨hash, node, parent, index, pathlen⟩ := F
  dsimp only at hidx
  cases node with
  | full cs f =>
    obtain ⟨Ls, hw, hL⟩ := hF
    rcases restVisits_cases hw (index + 1).toNat with ⟨-, hnil⟩ | ⟨j, hf, hj, hsplit⟩
    · exact absurd (hL.trans hnil) hne
    refine ⟨⟨hash, .full cs f, parent, (j.val : Int) - 1, pathlen⟩,
      ⟨bytesToHash ((cs j).cache.1.getD []), cs j, anc, -1, p.length⟩, p ++ [UInt8.ofNat j.val],
      Ls j, restVisits Ls (j.val + 1), by simp only [nextChild, hf], rfl, rfl,
      show (-1 : Int) ≤ (j.val : Int) - 1 by omega, ⟨Ls, hw, ?_⟩, rfl, rfl, by simp, by simp,
      hw.walk j hj, ⟨Ls, hw, ?_⟩, hL.trans hsplit⟩
    · -- before the child: its walk is still to come
      rw [hL, hsplit, show ((j.val : Int) - 1 + 1).toNat = j.val by omega, restVisits_of_lt]
    · show restVisits Ls (j.val + 1) = restVisits Ls ((j.val : Int) - 1 + 1 + 1).toNat
      congr 1
      omega
  | short k c f =>
    simp only [ChildVisits] at hF
    split at hF
    · next hlt =>
      refine ⟨⟨hash, .short k c f, parent, index, pathlen⟩,
        ⟨bytesToHash (c.cache.1.getD []), c, anc, -1, p.length⟩, p ++ k, L, [],
        by simp only [nextChild, if_pos hlt], rfl, rfl, hidx, ?_, rfl, rfl, by simp, by simp, hF, ?_,
        (List.append_nil L).symm⟩
      · show ChildVisits tr (.short k c f) index p L
        simp only [ChildVisits, if_pos hlt]
        exact hF
      · show ChildVisits tr (.short k c f) (index + 1) p []
        simp only [ChildVisits, if_neg (show ¬ (index + 1 < 0) by omega)]
    · exact absurd hF hne
  | nil | value | hash => exact absurd hF hne

end NodeIterator

namespace NodeIteratorState

/-- Resolving the state of a node the walk visits succeeds, with a node that is not a hash node
and has the same walk. -/
theorem resolve_visits {st : NodeIteratorState} {cp : List UInt8} {V : List (List UInt8 × Node)}
    (hv : Visits tr st.node cp V) :
    ∃ st', st.resolve tr cp = .ok st' ∧ st'.index = st.index ∧ st'.pathlen = st.pathlen ∧
      st'.node.hashOf? = none ∧ Visits tr st'.node cp V := by
  obtain ⟨hash, node, parent, index, pathlen⟩ := st
  cases node with
  | hash h =>
    cases hv with
    | @hash _ _ n _ hres hn hv' =>
      exact ⟨⟨bytesToHash h, n, parent, index, pathlen⟩, by simp only [resolve, hres], rfl, rfl, hn,
        hv'⟩
  | nil | value | short | full => exact ⟨_, rfl, rfl, rfl, rfl, hv⟩

end NodeIteratorState

namespace NodeIterator

/-- The loop of `peek` makes the first visit pending: it pops the states with none left, and
`push` leaves the rest pending below the new state. -/
theorem peekLoop_pending {stack : List NodeIteratorState} {p q : List UInt8} {n : Node}
    {L : List (List UInt8 × Node)} (hp : Pending tr stack p ((q, n) :: L)) :
    ∃ F rest p' st, peekLoop tr stack p = (F :: rest, p', .ok (st, q)) ∧ st.node = n ∧
      Pending tr (F :: rest) p' ((q, n) :: L) ∧
      Pending tr (st :: { F with index := F.index + 1 } :: rest) q L := by
  induction stack generalizing p with
  | nil => cases hp
  | cons F rest ih =>
    obtain ⟨hidx, hlen, L₁, L₂, hc, hr, hL⟩ := hp
    cases L₁ with
    | nil =>
      -- nothing left below the top state: it is popped
      rw [List.nil_append] at hL
      subst hL
      obtain ⟨F', rest', p', st, hloop, hst, hpend₀, hpend⟩ := ih hr
      refine ⟨F', rest', p', st, ?_, hst, hpend₀, hpend⟩
      rw [peekLoop, nextChild_none hc]
      exact hloop
    | cons x L₁ =>
      obtain ⟨F', st, cp, V, L', hnc, hnode, hpl, hidx', hc₀, hsi, hsl, htake, hcl, hv, hc', hL₁⟩ :=
        nextChild_some hc hidx (List.cons_ne_nil x L₁) _
      obtain ⟨st', hres, hsi', hsl', hsh, hv'⟩ := NodeIteratorState.resolve_visits hv
      obtain ⟨V', rfl, hcv⟩ := hv'.cons hsh
      have hpend₀ : Pending tr (F' :: rest) p ((x :: L₁) ++ L₂) :=
        ⟨hidx', hpl ▸ hlen, x :: L₁, L₂, hnode ▸ hc₀, hpl ▸ hr, rfl⟩
      simp only [hL₁, List.cons_append, List.cons.injEq, Prod.mk.injEq] at hL
      obtain ⟨⟨rfl, rfl⟩, rfl⟩ := hL
      refine ⟨F', rest, p, st', by rw [peekLoop, hnc]; simp only [hres], rfl, ?_, ?_⟩
      · simpa [hL₁] using hpend₀
      refine ⟨by omega, by omega, V', L' ++ L₂, hsi' ▸ hsi ▸ hcv, ?_, by simp⟩
      rw [hsl', hsl, htake]
      exact ⟨show (-1 : Int) ≤ F'.index + 1 by omega, hpl ▸ hlen, L', L₂, hnode ▸ hc', hpl ▸ hr, rfl⟩

/-- With no visit left, the loop of `peek` pops every state and ends the iteration. -/
theorem peekLoop_done {stack : List NodeIteratorState} {p : List UInt8}
    (hp : Pending tr stack p []) : ∃ p', peekLoop tr stack p = ([], p', .error .iteratorEnd) := by
  induction stack generalizing p with
  | nil => exact ⟨p, rfl⟩
  | cons F rest ih =>
    obtain ⟨-, -, L₁, L₂, hc, hr, hL⟩ := hp
    obtain ⟨rfl, rfl⟩ := List.append_eq_nil_iff.mp hL.symm
    obtain ⟨p', hloop⟩ := ih hr
    exact ⟨p', by rw [peekLoop, nextChild_none hc]; exact hloop⟩

end NodeIterator

end

/-! ## Calls of `Next` -/

namespace NodeIterator

variable (keccak : List UInt8 → List UInt8) in
/-- The visits the calls of `Next` still have to make, in order: from the root of the trie as
hashing leaves it, before the first call, and otherwise those pending on the stack. -/
def Upcoming (it : NodeIterator) (L : List (List UInt8 × Node)) : Prop :=
  it.err = none ∧ ∃ tr, it.trie = some tr ∧
    ((it.stack = [] ∧ Visits (tr.Hash keccak).2 (tr.Hash keccak).2.root [] L) ∨
      (it.stack ≠ [] ∧ Pending tr it.stack it.path L))

variable {keccak : List UInt8 → List UInt8}

theorem Next_of_err_none {it : NodeIterator} (h : it.err = none) (fuel : Nat) (descend : Bool) :
    it.Next keccak fuel descend = Next.step keccak descend it := by
  simp only [Next, h]

/-- A call of `Next` makes the first visit to come: the current state is then the visited node's,
at its path, and the other visits are still to come. -/
theorem next_upcoming {it : NodeIterator} {q : List UInt8} {n : Node}
    {L : List (List UInt8 × Node)} (hu : Upcoming keccak it ((q, n) :: L)) (fuel : Nat) :
    ∃ it' st rest, it.Next keccak fuel true = .ok (true, it') ∧ it'.stack = st :: rest ∧
      st.node = n ∧ it'.path = q ∧ Upcoming keccak it' L := by
  obtain ⟨herr, tr, htr, ⟨hst, hv⟩ | ⟨hst, hp⟩⟩ := hu
  · -- the first call: the root of the hashed trie, resolved
    obtain ⟨st, hres, hsi, hsl, hsh, hv'⟩ := NodeIteratorState.resolve_visits
      (show Visits _ (NodeIteratorState.node ⟨if (tr.Hash keccak).1 ≠ emptyRoot then
        (tr.Hash keccak).1 else zeroHash, (tr.Hash keccak).2.root, zeroHash, -1, 0⟩) [] _ from hv)
    obtain ⟨L', hL, hcv⟩ := hv'.cons hsh
    simp only [List.cons.injEq, Prod.mk.injEq] at hL
    obtain ⟨⟨rfl, rfl⟩, rfl⟩ := hL
    have hnext : it.Next keccak fuel true = .ok (true, ⟨some (tr.Hash keccak).2, [st], [], none⟩) := by
      rw [Next_of_err_none herr]
      simp only [Next.step, peek, htr, hst, hres, push]
      rfl
    have hpend : Pending (tr.Hash keccak).2 [st] [] L :=
      ⟨by rw [hsi], by rw [hsl]; exact le_rfl, _, [], hsi ▸ hcv, rfl, (List.append_nil _).symm⟩
    exact ⟨_, st, [], hnext, rfl, rfl, rfl, rfl, _, rfl, .inr ⟨List.cons_ne_nil _ _, hpend⟩⟩
  · obtain ⟨top, rest, hstack⟩ := List.exists_cons_of_ne_nil hst
    rw [hstack] at hp
    obtain ⟨F, rest', p', st, hloop, hsn, -, hpend⟩ := peekLoop_pending hp
    have hnext : it.Next keccak fuel true =
        .ok (true, ⟨some tr, st :: { F with index := F.index + 1 } :: rest', q, none⟩) := by
      rw [Next_of_err_none herr]
      simp only [Next.step, peek, htr, hstack, if_true, hloop, push]
    exact ⟨_, st, _, hnext, rfl, hsn, rfl, rfl, tr, rfl, .inr ⟨List.cons_ne_nil _ _, hpend⟩⟩

/-- Once no visit is left, a call of `Next` ends the iteration. -/
theorem next_done {it : NodeIterator} (hu : Upcoming keccak it []) (fuel : Nat) :
    ∃ it', it.Next keccak fuel true = .ok (false, it') ∧ it'.err = some .iteratorEnd := by
  obtain ⟨herr, tr, htr, ⟨-, hv⟩ | ⟨hst, hp⟩⟩ := hu
  · exact absurd rfl hv.ne_nil
  · obtain ⟨top, rest, hstack⟩ := List.exists_cons_of_ne_nil hst
    rw [hstack] at hp
    obtain ⟨p', hloop⟩ := peekLoop_done hp
    refine ⟨⟨some tr, [], p', some .iteratorEnd⟩, ?_, rfl⟩
    rw [Next_of_err_none herr]
    simp only [Next.step, peek, htr, hstack, if_true, hloop]

end NodeIterator

/-! ## Walks of canonical tries -/

theorem lt_append_of_ne_nil {p k : List UInt8} (hk : k ≠ []) : p < p ++ k := by
  obtain ⟨x, k, rfl⟩ := List.exists_cons_of_ne_nil hk
  simpa using List.Lex.append_left (· < ·) (List.Lex.nil : List.Lex (· < ·) [] (x :: k)) p

/-- A path through a longer path below `p` comes after `p`. -/
theorem lt_of_append_prefix {p q y : List UInt8} (hq : q ≠ []) (hy : p ++ q <+: y) : p < y := by
  obtain ⟨r, rfl⟩ := hy
  rw [List.append_assoc]
  exact lt_append_of_ne_nil (by simp [hq])

/-- Paths through two children of one node come in the order of the children's nibbles. -/
theorem lt_of_prefix_lt {p x y : List UInt8} {a b : UInt8} (hx : p ++ [a] <+: x)
    (hy : p ++ [b] <+: y) (hab : a < b) : x < y := by
  obtain ⟨r, rfl⟩ := hx
  obtain ⟨s, rfl⟩ := hy
  simp only [List.append_assoc, List.singleton_append]
  exact List.Lex.append_left _ (List.Lex.rel hab) p

/-- A path through `p`, where `p` comes before `key` and is not on the way to it, comes before
`key` too. -/
theorem lt_of_prefix_of_lt {p x key : List UInt8} (hpx : p <+: x) (hlt : p < key)
    (hnp : ¬ p <+: key) : x < key := by
  induction p generalizing x key with
  | nil => exact absurd List.nil_prefix hnp
  | cons a p ih =>
    obtain ⟨r, rfl⟩ := hpx
    cases hlt with
    | rel h => exact List.Lex.rel h
    | cons h =>
      have hnp' : ¬ p <+: _ := fun hk => hnp (List.cons_prefix_cons.mpr ⟨rfl, hk⟩)
      exact List.Lex.cons (ih (List.prefix_append p r) h hnp')

theorem nibbles_append_nibble {p : List UInt8} (hp : Nibbles p) (j : Fin 16) :
    Nibbles (p ++ [nibble j.castSucc]) := by
  simp [hp, UInt8.lt_iff_toNat_lt]

/-- What a walk from path `p` lists for a node standing for contents `m`: paths below `p`, each
after the one before, of which the terminated ones are those of the values of `m`, at `p`
followed by their keys. -/
structure VisitsOk (p : List UInt8) (m : Contents) (V : List (List UInt8 × Node)) : Prop where
  below : ∀ x ∈ V, p <+: x.1
  sorted : V.Pairwise fun x y => x.1 < y.1
  leaf : ∀ x ∈ V, hasTerm x.1 → ∃ k v, x = (p ++ k, .value v) ∧ m k = some v
  complete : ∀ k v, m k = some v → (p ++ k, .value v) ∈ V

theorem visitsOk_empty (p : List UInt8) : VisitsOk p emptyMap [] where
  below := by simp
  sorted := List.Pairwise.nil
  leaf := by simp
  complete _ _ h := by simp [emptyMap] at h

theorem visitsOk_value (p k v : List UInt8) : VisitsOk p (leafMap k v) [(p ++ k, .value v)] where
  below := by simp
  sorted := List.pairwise_singleton _ _
  leaf x hx _ := ⟨k, v, List.eq_of_mem_singleton hx, leafMap_self k v⟩
  complete k' v' h := by
    by_cases hk : k' = k
    · subst hk
      simp only [leafMap, if_true, Option.some.injEq] at h
      simp [h]
    · simp [leafMap, hk] at h

/-- The node itself comes first in its walk: its path has no terminator, and the paths below it
come after it. -/
theorem VisitsOk.cons {p : List UInt8} {m : Contents} {V : List (List UInt8 × Node)}
    (hV : VisitsOk p m V) (hp : Nibbles p) (hlt : ∀ x ∈ V, p < x.1) (n : Node) :
    VisitsOk p m ((p, n) :: V) where
  below x hx := by
    rcases List.mem_cons.mp hx with rfl | hx
    · exact List.prefix_refl p
    · exact hV.below x hx
  sorted := List.Pairwise.cons hlt hV.sorted
  leaf x hx ht := by
    rcases List.mem_cons.mp hx with rfl | hx
    · simp [hasTerm_nibbles hp] at ht
    · exact hV.leaf x hx ht
  complete k v h := List.mem_cons_of_mem _ (hV.complete k v h)

/-- The walk of an extension's child, at the path through the extension's key, is one for the
extension's contents. -/
theorem VisitsOk.ext {p ns : List UInt8} {mc : Contents} {V : List (List UInt8 × Node)}
    (hV : VisitsOk (p ++ ns) mc V) : VisitsOk p (extMap ns mc) V where
  below x hx := (List.prefix_append p ns).trans (hV.below x hx)
  sorted := hV.sorted
  leaf x hx ht := by
    obtain ⟨k, v, rfl, hk⟩ := hV.leaf x hx ht
    exact ⟨ns ++ k, v, by rw [List.append_assoc], by rw [extMap_append]; exact hk⟩
  complete k v h := by
    obtain ⟨k', rfl⟩ := prefix_of_extMap h
    rw [extMap_append] at h
    simpa using hV.complete k' v h

section
variable {p : List UInt8} {ms : Fin 16 → Contents} {v16 : Option (List UInt8)}
  {Ls : Fin 17 → List (List UInt8 × Node)}
  (hLs : ∀ j : Fin 16, VisitsOk (p ++ [nibble j.castSucc]) (ms j) (Ls j.castSucc))
  (h16 : Ls 16 = v16.elim [] fun v => [(p ++ [16], .value v)])
include hLs h16

/-- The paths of a full node's children's walks go through the children's nibbles. -/
theorem children_below : ∀ j, ∀ x ∈ Ls j, p ++ [nibble j] <+: x.1 := by
  intro j
  induction j using Fin.lastCases with
  | last => cases v16 <;> simp [h16]
  | cast j => exact (hLs j).below

/-- The walks of a full node's children one after the other, each at the path through its nibble,
and the value slot's, are one for the full node's contents. -/
theorem VisitsOk.full : VisitsOk p (fullMap ms v16) (restVisits Ls 0) := by
  have hbelow := children_below hLs h16
  have hsorted : ∀ j, (Ls j).Pairwise fun x y => x.1 < y.1 := by
    intro j
    induction j using Fin.lastCases with
    | last => cases v16 <;> simp [h16]
    | cast j => exact (hLs j).sorted
  refine ⟨fun x hx => ?_, restVisits_pairwise hsorted fun j k hjk x hx y hy => ?_,
    fun x hx ht => ?_, fun k v h => ?_⟩
  · obtain ⟨j, -, hx⟩ := mem_restVisits.mp hx
    exact (List.prefix_append p _).trans (hbelow j x hx)
  · -- children in the order of their nibbles
    have hnib : nibble j < nibble k := by
      rw [UInt8.lt_iff_toNat_lt, toNat_nibble, toNat_nibble]
      exact hjk
    exact lt_of_prefix_lt (hbelow j x hx) (hbelow k y hy) hnib
  · obtain ⟨j, -, hx⟩ := mem_restVisits.mp hx
    induction j using Fin.lastCases with
    | last =>
      cases v16 with
      | none => simp [h16] at hx
      | some v =>
        simp only [show Fin.last 16 = 16 from rfl, h16, Option.elim_some, List.mem_singleton] at hx
        exact ⟨[16], v, hx, fullMap_slot ms _⟩
    | cast j =>
      obtain ⟨k, v, rfl, hk⟩ := (hLs j).leaf x hx ht
      exact ⟨nibble j.castSucc :: k, v, by simp, by rw [fullMap_child]; exact hk⟩
  · cases k with
    | nil => simp [fullMap] at h
    | cons x rest =>
      simp only [fullMap] at h
      split at h
      · next hx =>
        have hmem := (hLs ⟨x.toNat, hx⟩).complete rest v h
        rw [nibble_castSucc_ofNat hx] at hmem
        exact mem_restVisits.mpr ⟨_, Nat.zero_le _, by simpa using hmem⟩
      · split at h
        · next hx =>
          obtain ⟨rfl, rfl⟩ := hx
          exact mem_restVisits.mpr ⟨Fin.last 16, Nat.zero_le _, by simp [h16, h]⟩
        · cases h

end

section
variable {keccak : List UInt8 → List UInt8} {db : MemDatabase} {tr : Trie}

/-- Below a canonical node, the walk from any path of nibbles exists, and lists the node's
contents in the order of their paths. -/
theorem Canon.visits (hdb : tr.db.getD .empty = db) {b : Bool} {n : Node} {m : Contents}
    (hc : Canon keccak db b n m) : ∀ p, Nibbles p → ∃ V, Visits tr n p V ∧ VisitsOk p m V := by
  induction hc with
  | nil => exact fun p hp => ⟨_, .nil p, (visitsOk_empty p).cons hp (by simp) _⟩
  | leaf _ ns _ v _ f =>
    intro p hp
    refine ⟨_, .short _ _ f p (.value v _), (visitsOk_value p _ v).cons hp ?_ _⟩
    intro x hx
    rw [List.eq_of_mem_singleton hx]
    exact lt_append_of_ne_nil (by simp)
  | ext _ ns hns hne c mc _ _ f _ ih =>
    intro p hp
    obtain ⟨V, hv, hV⟩ := ih (p ++ ns) (nibbles_append.mpr ⟨hp, hns⟩)
    exact ⟨_, .short ns c f p hv,
      hV.ext.cons hp (fun x hx => lt_of_append_prefix hne (hV.below x hx)) _⟩
  | full _ cs ms hcs v16 h16 _ _ f _ ih =>
    intro p hp
    choose Vs hVs hOk using fun j : Fin 16 => ih j (p ++ [nibble j.castSucc]) (nibbles_append_nibble hp j)
    -- the nil children have no walk; the value slot's is its value's
    let Ls : Fin 17 → List (List UInt8 × Node) := Fin.lastCases
      (v16.elim [] fun v => [(p ++ [16], .value v)]) fun j => if (cs j.castSucc).isNil then [] else Vs j
    have hL16 : Ls 16 = v16.elim [] fun v => [(p ++ [16], .value v)] := Fin.lastCases_last ..
    have hLc : ∀ j : Fin 16, Ls j.castSucc = if (cs j.castSucc).isNil then [] else Vs j :=
      fun j => Fin.lastCases_castSucc ..
    have hnil : ∀ i, (cs i).isNil → Ls i = [] := by
      intro i
      induction i using Fin.lastCases with
      | last => cases v16 <;> simp [hL16, h16, Node.isNil]
      | cast j => intro hj; rw [hLc, if_pos hj]
    have hwalk : ∀ i, (cs i).isNil = false → Visits tr (cs i) (p ++ [UInt8.ofNat i.val]) (Ls i) := by
      intro i
      induction i using Fin.lastCases with
      | last =>
        cases v16 with
        | none => simp [h16, Node.isNil]
        | some v =>
          intro _
          simp only [hL16, Option.elim_some, show Fin.last 16 = 16 from rfl, h16]
          exact .value v _
      | cast j =>
        intro hj
        rw [hLc, if_neg (by simp [hj])]
        exact hVs j
    have hLs : ∀ j : Fin 16, VisitsOk (p ++ [nibble j.castSucc]) (ms j) (Ls j.castSucc) := by
      intro j
      by_cases hj : (cs j.castSucc).isNil
      · -- a nil child stands for no contents
        have hcj : cs j.castSucc = .nil := by
          cases h' : cs j.castSucc <;> simp [h', Node.isNil] at hj ⊢
        have hmj : ms j = emptyMap := by
          have hc := hcs j
          rw [hcj] at hc
          exact hc.nil_contents
        rw [hLc, if_pos hj, hmj]
        exact visitsOk_empty _
      · rw [hLc, if_neg hj]
        exact hOk j
    have hV := VisitsOk.full hLs hL16
    refine ⟨_, .full cs f p Ls hnil hwalk, hV.cons hp (fun x hx => ?_) _⟩
    obtain ⟨j, -, hx⟩ := mem_restVisits.mp hx
    exact lt_of_append_prefix (List.cons_ne_nil _ _) (children_below hLs hL16 j x hx)
  | hash _ hh _ hget _ m dec hdec _ ih =>
    intro p hp
    obtain ⟨V, hv, hV⟩ := ih tr.cachegen p hp
    exact ⟨V, .hash hh p (Trie.resolveHash_eq tr hdb hget hdec p) (decodeNode_hashOf (hdec _)) hv, hV⟩

end

/-! ## The key-value iterator -/

/-- The entry the key-value iterator reports at a visit: at a terminated path of a value node,
the path's key as bytes and the value. -/
def leafEntry (x : List UInt8 × Node) : Option (List UInt8 × List UInt8) :=
  if hasTerm x.1 then
    match x.2 with
    | .value v => (hexToKeybytes x.1).map fun key => (key, v)
    | _ => none
  else none

/-- The visits at terminated paths are at value nodes, and their paths are HEX keys of byte keys. -/
def LeafOk (L : List (List UInt8 × Node)) : Prop :=
  ∀ x ∈ L, hasTerm x.1 → ∃ key v, x = (keybytesToHex key, .value v)

theorem hasTerm_keybytesToHex (key : List UInt8) : hasTerm (keybytesToHex key) = true :=
  hasTerm_term _

theorem leafEntry_keybytesToHex (key v : List UInt8) :
    leafEntry (keybytesToHex key, .value v) = some (key, v) := by
  simp only [leafEntry, hasTerm_keybytesToHex, if_true, hexToKeybytes_keybytesToHex, Option.map_some]

theorem LeafOk.leafEntry_eq {L : List (List UInt8 × Node)} (hL : LeafOk L) {x : List UInt8 × Node}
    (hx : x ∈ L) {e : List UInt8 × List UInt8} (he : leafEntry x = some e) :
    x = (keybytesToHex e.1, .value e.2) := by
  have ht : hasTerm x.1 := by
    by_contra ht
    simp [leafEntry, ht] at he
  obtain ⟨key, v, rfl⟩ := hL x hx ht
  rw [leafEntry_keybytesToHex, Option.some.injEq] at he
  rw [← he]

variable (keccak : List UInt8 → List UInt8) in
/-- The entries a key-value iterator yields: the key and value after each call of `Next` with
`fuel` that returns true, until a call returns false with no error. -/
inductive Yields (fuel : Nat) : Iterator → List (List UInt8 × List UInt8) → Prop where
  | done {it it' : Iterator} (h : it.Next keccak fuel = .ok (false, it')) (herr : it'.Err = none) :
      Yields fuel it []
  | next {it it' : Iterator} {E : List (List UInt8 × List UInt8)}
      (h : it.Next keccak fuel = .ok (true, it')) (hE : Yields fuel it' E) :
      Yields fuel it ((it'.Key, it'.Value) :: E)

section
variable {keccak : List UInt8 → List UInt8}

/-- One call of the key-value iterator's `Next`, with fuel for every visit left: it makes the
visits up to the first at a leaf and reports that leaf's entry, or makes them all and ends with no
error when no leaf is left. -/
theorem Iterator.next_upcoming {L : List (List UInt8 × Node)} (hL : LeafOk L) :
    ∀ {it : Iterator} {fuel : Nat}, NodeIterator.Upcoming keccak it.nodeIt L → L.length < fuel →
      (L.filterMap leafEntry = [] ∧ ∃ it', it.Next keccak fuel = .ok (false, it') ∧ it'.Err = none) ∨
      ∃ key v L', L.filterMap leafEntry = (key, v) :: L'.filterMap leafEntry ∧
        L'.length < L.length ∧ LeafOk L' ∧
        ∃ it', it.Next keccak fuel = .ok (true, it') ∧ it'.Key = key ∧ it'.Value = v ∧
          NodeIterator.Upcoming keccak it'.nodeIt L' := by
  induction L with
  | nil =>
    intro it fuel hu hf
    obtain ⟨f, rfl⟩ : ∃ f, fuel = f + 1 := ⟨fuel - 1, by simp at hf; omega⟩
    obtain ⟨it', hnext, herr⟩ := NodeIterator.next_done hu (f + 1)
    refine .inl ⟨rfl, { it with nodeIt := it', Key := [], Value := [], Err := it'.Error }, ?_, ?_⟩
    · simp only [Iterator.Next, hnext]
    · simp only [NodeIterator.Error, herr]
  | cons x L ih =>
    intro it fuel hu hf
    obtain ⟨q, n⟩ := x
    obtain ⟨f, rfl⟩ : ∃ f, fuel = f + 1 := ⟨fuel - 1, by simp at hf; omega⟩
    have hL' : LeafOk L := fun y hy => hL y (List.mem_cons_of_mem _ hy)
    obtain ⟨it', st, rest, hnext, hst, hsn, hpath, hu'⟩ := NodeIterator.next_upcoming hu (f + 1)
    by_cases ht : hasTerm q
    · -- a leaf: its entry is reported
      obtain ⟨key, v, hx⟩ := hL (q, n) List.mem_cons_self ht
      simp only [Prod.mk.injEq] at hx
      obtain ⟨rfl, rfl⟩ := hx
      refine .inr ⟨key, v, L, by rw [List.filterMap_cons_some (leafEntry_keybytesToHex key v)],
        by simp, hL', { it with nodeIt := it', Key := key, Value := v }, ?_, rfl, rfl, hu'⟩
      simp [Iterator.Next, hnext, NodeIterator.Leaf, hpath, ht, NodeIterator.LeafKey,
        NodeIterator.LeafBlob, hst, hsn, hexToKeybytes_keybytesToHex]
    · -- an inner node: the loop goes on to the next visit
      have hentry : leafEntry (q, n) = none := by simp [leafEntry, ht]
      have hrec : it.Next keccak (f + 1) = Iterator.Next keccak f { it with nodeIt := it' } := by
        simp [Iterator.Next, hnext, NodeIterator.Leaf, hpath, ht]
      rw [List.filterMap_cons_none hentry, hrec]
      rcases @ih hL' { it with nodeIt := it' } f hu' (by simp at hf; omega) with h | ⟨key, v, L', hE, hlt, hL'', h⟩
      · exact .inl h
      · exact .inr ⟨key, v, L', hE, by simp; omega, hL'', h⟩

/-- With fuel for every visit left, the key-value iterator yields the entries of the leaves among
the visits, in order. -/
theorem yields_upcoming {fuel : Nat} {L : List (List UInt8 × Node)} {it : Iterator}
    (hu : NodeIterator.Upcoming keccak it.nodeIt L) (hL : LeafOk L) (hf : L.length < fuel) :
    Yields keccak fuel it (L.filterMap leafEntry) := by
  -- on the number of visits left, which each reported entry lowers
  induction hn : L.length using Nat.strong_induction_on generalizing L it with
  | _ n ih =>
    rcases Iterator.next_upcoming hL hu hf with
      ⟨hE, it', hnext, herr⟩ | ⟨key, v, L', hE, hlt, hL', it', hnext, hk, hv, hu'⟩
    · rw [hE]
      exact .done hnext herr
    · rw [hE, ← hk, ← hv]
      exact .next hnext (ih L'.length (hn ▸ hlt) hu' hL' (by omega) rfl)

end

/-! ## Seeking -/

namespace NodeIterator

variable {keccak : List UInt8 → List UInt8}

/-- The loop of `seek`, from a state pushed before `key`, with the visits `L` to come: it makes
the visits before `key`, skipping the walks below the states whose paths are not on the way to
`key`, and stops just before the first visit at `key` or after it, with the visits from there on
still to come; it ends the iteration when there is none. -/
theorem seekLoop_pending (pfx key : List UInt8) {tr : Trie} :
    ∀ (fuel : Nat) {it : NodeIterator} {L : List (List UInt8 × Node)},
      it.err = none → it.trie = some tr → it.stack ≠ [] → Pending tr it.stack it.path L →
      it.path < key → L.Pairwise (fun x y => x.1 < y.1) → L.length < fuel →
      (L.filter (fun x => ¬ x.1 < key) = [] ∧
        ∃ it', seekLoop keccak pfx key fuel it = .ok (some .iteratorEnd, it')) ∨
      ∃ it', seekLoop keccak pfx key fuel it = .ok (none, it') ∧
        Upcoming keccak it' (L.filter fun x => ¬ x.1 < key) := by
  intro fuel
  induction fuel with
  | zero => exact fun _ _ _ _ _ _ hf => absurd hf (Nat.not_lt_zero _)
  | succ f ih =>
    intro it L herr htr hst hp hlt hsorted hf
    obtain ⟨top, rest, hstack⟩ := List.exists_cons_of_ne_nil hst
    rw [hstack] at hp
    -- the loop of `peek` starts below the current state, or after it when its path is not on
    -- the way to `key`: the visits it passes over then come before `key`
    obtain ⟨S, P, D, L', hSP, rfl, hD, hp'⟩ : ∃ S P D L',
        (if decide (it.path <+: key) = true then (top :: rest, it.path)
          else (rest, it.path.take top.pathlen)) = (S, P) ∧
        L = D ++ L' ∧ (∀ x ∈ D, x.1 < key) ∧ Pending tr S P L' := by
      by_cases hd : it.path <+: key
      · exact ⟨_, _, [], L, by simp [hd], rfl, by simp, hp⟩
      · obtain ⟨-, -, L₁, L₂, hc, hr, rfl⟩ := hp
        exact ⟨_, _, L₁, L₂, by simp [hd], rfl,
          fun x hx => lt_of_prefix_of_lt (hc.extends_path x hx) hlt hd, hr⟩
    have hdrop : (D ++ L').filter (fun x => ¬ x.1 < key) = L'.filter (fun x => ¬ x.1 < key) := by
      rw [List.filter_append, List.filter_eq_nil_iff.mpr (fun x hx => by simp [hD x hx]),
        List.nil_append]
    have hsorted' : L'.Pairwise (fun x y => x.1 < y.1) := (List.pairwise_append.mp hsorted).2.1
    rw [hdrop]
    cases L' with
    | nil =>
      obtain ⟨p', hloop⟩ := peekLoop_done hp'
      refine .inl ⟨rfl, ⟨it.trie, [], p', it.err⟩, ?_⟩
      simp only [seekLoop, peek, htr, hstack, hSP, hloop]
    | cons x L₀ =>
      obtain ⟨q, n⟩ := x
      obtain ⟨F, rest', p', st, hloop, -, hpend₀, hpend⟩ := peekLoop_pending hp'
      by_cases hq : q < key
      · -- a visit before `key`: it is pushed and the loop goes on
        have hstep : seekLoop keccak pfx key (f + 1) it = seekLoop keccak pfx key f
            ⟨it.trie, st :: { F with index := F.index + 1 } :: rest', q, it.err⟩ := by
          simp only [seekLoop, peek, htr, hstack, hSP, hloop, hq, not_true_eq_false, if_false, push,
            if_true]
        have hskip : ((q, n) :: L₀).filter (fun x => ¬ x.1 < key) =
            L₀.filter (fun x => ¬ x.1 < key) := by simp [hq]
        rw [hstep, hskip]
        exact ih herr htr (List.cons_ne_nil _ _) hpend hq (List.pairwise_cons.mp hsorted').2
          (by simp at hf; omega)
      · -- the first visit at `key` or after it: the loop stops just before it, and the visits
        -- after it, being after it, are not before `key` either
        have hall : ((q, n) :: L₀).filter (fun x => ¬ x.1 < key) = (q, n) :: L₀ := by
          refine List.filter_eq_self.mpr fun y hy => ?_
          rcases List.mem_cons.mp hy with rfl | hy
          · simpa using hq
          · have hqy := (List.pairwise_cons.mp hsorted').1 y hy
            simpa using fun hyk => hq (List.lt_trans hqy hyk)
        rw [hall]
        refine .inr ⟨⟨it.trie, F :: rest', p', it.err⟩, ?_, herr, tr, htr,
          .inr ⟨List.cons_ne_nil _ _, hpend₀⟩⟩
        simp only [seekLoop, peek, htr, hstack, hSP, hloop, hq, not_false_eq_true, if_true]

end NodeIterator

/-! ## The iterators over a trie -/

variable (keccak : List UInt8 → List UInt8) in
/-- With enough fuel, the key-value iterator over the node iterator of `t` from `start` yields
`entries`. -/
def YieldsFrom (t : Trie) (start : List UInt8) (entries : List (List UInt8 × List UInt8)) : Prop :=
  ∃ N, ∀ fuel, N ≤ fuel → ∃ it t', t.NodeIterator keccak fuel start = .ok (it, t') ∧
    Yields keccak fuel (NewIterator it) entries

section
variable {keccak : List UInt8 → List UInt8} {m : Contents}

/-- The visits of a walk over byte keys are leaf visits of their keys. -/
theorem VisitsOk.leafOk {V : List (List UInt8 × Node)} (hV : VisitsOk [] m V)
    (hbytes : ∀ k v, m k = some v → ∃ key, k = keybytesToHex key) : LeafOk V := by
  intro x hx ht
  obtain ⟨k, v, rfl, hk⟩ := hV.leaf x hx ht
  obtain ⟨key, rfl⟩ := hbytes k v hk
  exact ⟨key, v, by simp⟩

/-- The entries reported along a walk from the root, from `k₀` on, are those of the contents
whose HEX keys are not before `k₀`. -/
theorem VisitsOk.mem_filterMap {V : List (List UInt8 × Node)} (hV : VisitsOk [] m V)
    (hL : LeafOk V) (k₀ key v : List UInt8) :
    (key, v) ∈ (V.filter fun x => ¬ x.1 < k₀).filterMap leafEntry ↔
      m (keybytesToHex key) = some v ∧ ¬ keybytesToHex key < k₀ := by
  constructor
  · intro he
    obtain ⟨x, hx, hxe⟩ := List.mem_filterMap.mp he
    obtain ⟨hx, hxk₀⟩ := List.mem_filter.mp hx
    have hxk := hL.leafEntry_eq hx hxe
    dsimp only at hxk
    obtain ⟨k, w, hkw, hk⟩ := hV.leaf x hx (by rw [hxk]; exact hasTerm_keybytesToHex key)
    rw [hxk] at hkw hxk₀
    simp only [List.nil_append, Prod.mk.injEq, Node.value.injEq] at hkw
    rw [hkw.1, hkw.2]
    exact ⟨hk, by simpa [hkw.1] using hxk₀⟩
  · rintro ⟨hm, hk₀⟩
    exact List.mem_filterMap.mpr ⟨_, List.mem_filter.mpr ⟨hV.complete _ v hm, by simpa using hk₀⟩,
      leafEntry_keybytesToHex key v⟩

/-- The entries reported along a walk from the root come in the order of their HEX keys. -/
theorem VisitsOk.pairwise_filterMap {V : List (List UInt8 × Node)} (hV : VisitsOk [] m V)
    (hL : LeafOk V) (k₀ : List UInt8) :
    ((V.filter fun x => ¬ x.1 < k₀).filterMap leafEntry).Pairwise
      fun a b => keybytesToHex a.1 < keybytesToHex b.1 := by
  have hsorted := List.Pairwise.and_mem.mp (hV.sorted.filter fun x => ¬ x.1 < k₀)
  refine List.Pairwise.filterMap leafEntry ?_ hsorted
  intro x y ⟨hx, hy, hxy⟩ a ha b hb
  rw [hL.leafEntry_eq (List.mem_of_mem_filter hx) ha,
    hL.leafEntry_eq (List.mem_of_mem_filter hy) hb] at hxy
  exact hxy

/-- Once the node iterator has ended the iteration, the key-value iterator stops with no error. -/
theorem Iterator.next_of_iteratorEnd {it : Iterator} (h : it.nodeIt.err = some .iteratorEnd)
    (fuel : Nat) : ∃ it', it.Next keccak (fuel + 1) = .ok (false, it') ∧ it'.Err = none := by
  refine ⟨{ it with Key := [], Value := [], Err := none }, ?_, rfl⟩
  simp [Iterator.Next, NodeIterator.Next, h, NodeIterator.Error]

/-- Creating the node iterator from the first key hashes the trie, and its seek resolves the root
and stops before it: the iterator starts at the root of the trie hashed once more. -/
theorem newNodeIterator_start {t : Trie} (hs : t.Stands keccak m)
    (hne : (t.Hash keccak).1 ≠ keccak []) (fuel : Nat) :
    t.NodeIterator keccak (fuel + 1) [] =
      .ok (⟨some ((t.Hash keccak).2.Hash keccak).2, [], [], none⟩, ((t.Hash keccak).2.Hash keccak).2) := by
  have hs₂ := (Trie.hash_stands (Trie.hash_stands hs).1).1
  obtain ⟨V, hv, -⟩ := hs₂.visits rfl [] nibbles_nil
  obtain ⟨st, hres, -⟩ := NodeIteratorState.resolve_visits
    (show Visits _ (NodeIteratorState.node ⟨if ((t.Hash keccak).2.Hash keccak).1 ≠ emptyRoot then
      ((t.Hash keccak).2.Hash keccak).1 else zeroHash, ((t.Hash keccak).2.Hash keccak).2.root,
      zeroHash, -1, 0⟩) [] V from hv)
  simp only [ne_eq, ite_not] at hres
  simp [Trie.NodeIterator, newNodeIterator, hne, NodeIterator.seek, NodeIterator.seekLoop,
    NodeIterator.peek, hres, keybytesToHex]

/-- From the first key, the iterator yields the entries of a walk of the trie hashed three times:
the first call of `Next` hashes it once more. -/
theorem yieldsFrom_nil {t : Trie} (hs : t.Stands keccak m)
    (hbytes : ∀ k v, m k = some v → ∃ key, k = keybytesToHex key)
    (hne : (t.Hash keccak).1 ≠ keccak []) :
    ∃ V, VisitsOk [] m V ∧ YieldsFrom keccak t []
      ((V.filter fun x => ¬ x.1 < (keybytesToHex []).dropLast).filterMap leafEntry) := by
  have hs₃ := (Trie.hash_stands (Trie.hash_stands (Trie.hash_stands hs).1).1).1
  obtain ⟨V, hv, hV⟩ := hs₃.visits rfl [] nibbles_nil
  -- no path is before the empty one
  have hall : (V.filter fun x => ¬ x.1 < (keybytesToHex []).dropLast) = V :=
    List.filter_eq_self.mpr fun x _ => by simp [keybytesToHex, List.not_lt_nil]
  refine ⟨V, hV, V.length + 1, fun fuel hf => ?_⟩
  obtain ⟨f, rfl⟩ : ∃ f, fuel = f + 1 := ⟨fuel - 1, by omega⟩
  rw [hall]
  exact ⟨_, _, newNodeIterator_start hs hne f,
    yields_upcoming ⟨rfl, _, rfl, .inl ⟨rfl, hv⟩⟩ (hV.leafOk hbytes) (by omega)⟩

/-- From any other start, the seek hashes the trie and pushes the root, which is before the
start's path, and then skips what is before it: the iterator yields the entries of a walk of the
trie hashed twice from the start's path on. -/
theorem yieldsFrom_seek {t : Trie} (hs : t.Stands keccak m)
    (hbytes : ∀ k v, m k = some v → ∃ key, k = keybytesToHex key)
    (hne : (t.Hash keccak).1 ≠ keccak []) {start : List UInt8} (hstart : start ≠ []) :
    ∃ V, VisitsOk [] m V ∧ YieldsFrom keccak t start
      ((V.filter fun x => ¬ x.1 < (keybytesToHex start).dropLast).filterMap leafEntry) := by
  have hkey : [] < (keybytesToHex start).dropLast := by
    obtain ⟨b, bs, rfl⟩ := List.exists_cons_of_ne_nil hstart
    simp [keybytesToHex, List.nil_lt_cons]
  have hs₂ := (Trie.hash_stands (Trie.hash_stands hs).1).1
  obtain ⟨V, hv, hV⟩ := hs₂.visits rfl [] nibbles_nil
  have hL := hV.leafOk hbytes
  obtain ⟨st, hres, hsi, hsl, hsh, hv'⟩ := NodeIteratorState.resolve_visits
    (show Visits _ (NodeIteratorState.node ⟨if ((t.Hash keccak).2.Hash keccak).1 ≠ emptyRoot then
      ((t.Hash keccak).2.Hash keccak).1 else zeroHash, ((t.Hash keccak).2.Hash keccak).2.root,
      zeroHash, -1, 0⟩) [] V from hv)
  simp only [ne_eq, ite_not] at hres
  obtain ⟨V', hVV', hcv⟩ := hv'.cons hsh
  -- the root is before the start's path: the seek's first round pushes it
  have hroot : (V.filter fun x => ¬ x.1 < (keybytesToHex start).dropLast) =
      V'.filter fun x => ¬ x.1 < (keybytesToHex start).dropLast := by
    rw [hVV', List.filter_cons_of_neg]
    simp only [hkey, not_true_eq_false, decide_false, Bool.false_eq_true, not_false_eq_true]
  have hpend : Pending (((t.Hash keccak).2.Hash keccak).2) [st] [] V' :=
    ⟨by rw [hsi], by rw [hsl]; exact le_rfl, V', [], hsi ▸ hcv, rfl, (List.append_nil _).symm⟩
  have hsorted : V'.Pairwise (fun x y => x.1 < y.1) := by
    have := hV.sorted
    rw [hVV'] at this
    exact (List.pairwise_cons.mp this).2
  refine ⟨V, hV, V'.length + 2, fun fuel hf => ?_⟩
  obtain ⟨f, rfl⟩ : ∃ f, fuel = f + 1 := ⟨fuel - 1, by omega⟩
  have hfirst : NodeIterator.seekLoop keccak start (keybytesToHex start).dropLast (f + 1)
      ⟨some (t.Hash keccak).2, [], [], none⟩ = NodeIterator.seekLoop keccak start
        (keybytesToHex start).dropLast f ⟨some ((t.Hash keccak).2.Hash keccak).2, [st], [], none⟩ := by
    simp [NodeIterator.seekLoop, NodeIterator.peek, hres, hkey, NodeIterator.push]
  rw [hroot]
  rcases @NodeIterator.seekLoop_pending keccak start _ _ f ⟨some ((t.Hash keccak).2.Hash keccak).2,
      [st], [], none⟩ _ rfl rfl (List.cons_ne_nil _ _) hpend hkey hsorted (by omega) with ⟨hnil, it', hseek⟩ | ⟨it', hseek, hu⟩
  · -- nothing at the start's path or after it: the iteration has ended
    rw [hnil]
    refine ⟨{ it' with err := some .iteratorEnd }, it'.trie.getD (t.Hash keccak).2, ?_, ?_⟩
    · simp [Trie.NodeIterator, newNodeIterator, hne, NodeIterator.seek, hfirst, hseek]
    · obtain ⟨it'', hnext, herr⟩ :=
        @Iterator.next_of_iteratorEnd keccak (NewIterator { it' with err := some .iteratorEnd }) rfl f
      exact .done hnext herr
  · have hL' : LeafOk (V'.filter fun x => ¬ x.1 < (keybytesToHex start).dropLast) :=
      fun x hx => hL x (by rw [hVV']; exact List.mem_cons_of_mem _ (List.mem_of_mem_filter hx))
    refine ⟨{ it' with err := none }, it'.trie.getD (t.Hash keccak).2, ?_,
      yields_upcoming ⟨rfl, hu.2⟩ hL' ?_⟩
    · simp [Trie.NodeIterator, newNodeIterator, hne, NodeIterator.seek, hfirst, hseek]
    · have := List.length_filter_le (fun x => decide ¬ x.1 < (keybytesToHex start).dropLast) V'
      omega

/-- The key-value iterator over a trie standing for contents `m` with byte keys, whose root hash is
not that of the empty trie, started at `start`, yields every entry of `m` whose HEX key is not
before the path of `start` once, in the order of the HEX keys (where a key comes after the longer
keys it is a prefix of), and then stops with no error. -/
theorem iterator_yields_from {t : Trie} (hs : t.Stands keccak m)
    (hbytes : ∀ k v, m k = some v → ∃ key, k = keybytesToHex key)
    (hne : (t.Hash keccak).1 ≠ keccak []) (start : List UInt8) :
    ∃ entries : List (List UInt8 × List UInt8),
      entries.Pairwise (fun a b => keybytesToHex a.1 < keybytesToHex b.1) ∧
      (∀ key v, (key, v) ∈ entries ↔
        m (keybytesToHex key) = some v ∧ ¬ keybytesToHex key < (keybytesToHex start).dropLast) ∧
      YieldsFrom keccak t start entries := by
  obtain ⟨V, hV, hyields⟩ : ∃ V, VisitsOk [] m V ∧ YieldsFrom keccak t start
      ((V.filter fun x => ¬ x.1 < (keybytesToHex start).dropLast).filterMap leafEntry) := by
    by_cases hstart : start = []
    · subst hstart
      exact yieldsFrom_nil hs hbytes hne
    · exact yieldsFrom_seek hs hbytes hne hstart
  have hL := hV.leafOk hbytes
  exact ⟨_, hV.pairwise_filterMap hL _, hV.mem_filterMap hL _, hyields⟩

end

/-- The iterator from the key [1] over the trie of one dirty leaf at that key, with a hash
function that keeps the first 32 bytes of the zero-padded input. -/
theorem iterator_yields_from_leaf :
    ∃ entries : List (List UInt8 × List UInt8),
      entries.Pairwise (fun a b => keybytesToHex a.1 < keybytesToHex b.1) ∧
      (∀ key v, (key, v) ∈ entries ↔ leafMap [0, 1, 16] [5] (keybytesToHex key) = some v ∧
        ¬ keybytesToHex key < (keybytesToHex [1]).dropLast) ∧
      YieldsFrom (fun x => (x ++ List.replicate 32 0).take 32)
        ⟨.short [0, 1, 16] (.value [5]) ⟨none, 0, true⟩, some .empty, zeroHash, 0, 0⟩ [1] entries :=
  iterator_yields_from
    (t := ⟨.short [0, 1, 16] (.value [5]) ⟨none, 0, true⟩, some .empty, zeroHash, 0, 0⟩)
    (.leaf true [0, 1] (by simp) [5] (by simp) _ (flagsOk_of_dirty rfl rfl))
    (fun k v h => ⟨[1], by by_cases hk : k = [0, 1, 16] <;> simp_all [leafMap, keybytesToHex]⟩)
    (by decide) [1]

end GoGaia.Patricia
