import GoGaia.Core.Transaction
import GoGaia.Lib.BinaryHeap

/-!
# Transactions by price and nonce

`TransactionsByPriceAndNonce` (`core/types/transaction.go`) hands a block builder the pending
transactions of many accounts, the best paying first and each account's in its own order. It
keeps one head for each account in a price heap (`TxByPrice`, whose `Less` puts the higher price
first) on `container/heap` (`Lib/BinaryHeap`) and the rest of each account's transactions in a
map under the sender. `Peek` reads the root of the heap, `Shift` puts the next transaction of the
root's sender in its place and fixes the heap, and `Pop` drops the root and its sender with it.

What the set is for is said by two views of it: the transactions still to come (`pending`) and
those of one account (`queue`). From the constructor (`new_spec`) through every `Shift` and `Pop`
(`shift_spec`, `pop_spec`) the heads are a heap of distinct senders, each with the rest it sent
(`Inv`). So `Peek` returns a transaction that pays at least every head (`Inv.peek_max`), `Shift`
takes it off its account's queue, `Pop` empties that queue, and peeking and shifting until `Peek`
returns nil yields every pending transaction once, each account's in the order of its queue
(`drain_spec`).

The map is given as its entries in the order `range` visits them, and each iteration reads the
entry as the map holds it then. The sender is the one `types.Sender` computes (`senderAddr`); the
cache that `Sender` writes into a transaction is left out, since a later call with the same
signer reads back the address it would compute.
-/

namespace GoGaia.Types

open BinaryHeap

/-! ## Lists of distinct keys -/

section Keyed

variable {α β : Type} [DecidableEq β] (key : α → β)

/-- With distinct keys, at most one element has a given key. -/
theorem length_filter_key_le_one {l : List α} (hl : (l.map key).Nodup) (b : β) :
    (l.filter fun x => key x = b).length ≤ 1 := by
  induction l with
  | nil => simp
  | cons x xs ih =>
    rw [List.map_cons, List.nodup_cons] at hl
    rw [List.filter_cons]
    split
    · next hx =>
      have hnil : (xs.filter fun x => key x = b) = [] := by
        rw [List.filter_eq_nil_iff]
        intro y hy hyb
        simp only [decide_eq_true_eq] at hx hyb
        exact hl.1 (List.mem_map.mpr ⟨y, hy, hyb.trans hx.symm⟩)
      simp [hnil]
    · exact ih hl.2

/-- With distinct keys, a permutation keeps the element of each key. -/
theorem filter_key_of_perm {l l' : List α} (hp : l.Perm l') (hl : (l.map key).Nodup) (b : β) :
    (l.filter fun x => key x = b) = l'.filter fun x => key x = b := by
  have hperm := hp.filter fun x => key x = b
  rcases Nat.le_one_iff_eq_zero_or_eq_one.mp (length_filter_key_le_one key hl b) with h0 | h1
  · rw [List.length_eq_zero_iff.mp h0] at hperm ⊢
    exact (List.perm_nil.mp hperm.symm).symm
  · obtain ⟨x, hx⟩ := List.length_eq_one_iff.mp h1
    rw [hx] at hperm ⊢
    exact (List.perm_singleton.mp hperm.symm).symm

/-- With distinct keys, the element of a key is the only one with it. -/
theorem filter_key_eq_singleton {l : List α} (hl : (l.map key).Nodup) {x : α} (hx : x ∈ l) :
    (l.filter fun y => key y = key x) = [x] := by
  have hmem : x ∈ l.filter fun y => key y = key x := List.mem_filter.mpr ⟨hx, by simp⟩
  rcases Nat.le_one_iff_eq_zero_or_eq_one.mp (length_filter_key_le_one key hl (key x)) with h0 | h1
  · rw [List.length_eq_zero_iff.mp h0] at hmem
    cases hmem
  · obtain ⟨y, hy⟩ := List.length_eq_one_iff.mp h1
    rw [hy] at hmem ⊢
    rw [List.mem_singleton.mp hmem]

/-- In a list of distinct keys, `lookup` finds the entry of each key. -/
theorem lookup_of_mem {γ : Type} {es : List (β × γ)} (hn : (es.map Prod.fst).Nodup) {e : β × γ}
    (he : e ∈ es) : es.lookup e.1 = some e.2 := by
  induction es with
  | nil => cases he
  | cons e' es ih =>
    obtain ⟨k, v⟩ := e'
    rw [List.map_cons, List.nodup_cons] at hn
    rcases List.mem_cons.mp he with rfl | he'
    · simp
    · have hne : (e.1 == k) = false :=
        beq_false_of_ne fun h => hn.1 (h ▸ List.mem_map.mpr ⟨e, he', rfl⟩)
      simp [List.lookup_cons, hne, ih hn.2 he']

end Keyed

/-! ## The model -/

variable {Key : Type} (c : Crypto Key)

/-- `common.Address{}`, what `Sender` returns with an error. -/
def zeroAddress : Address := ⟨List.replicate 20 0, by simp⟩

/-- The address of `types.Sender`, whose error the callers here drop: the zero address then. -/
def senderAddr (signer : Signer) (tx : Transaction) : Address :=
  match (sender c signer tx).1 with
  | .ok a => a
  | .error _ => zeroAddress

/-- `TxByPrice.Less`: the higher price first. -/
def TxByPrice.less (a b : Transaction) : Bool := a.data.price > b.data.price

/-- `TransactionsByPriceAndNonce`: the rest of each account's transactions under its address
(`none` where the map has no entry), the heads in a price heap, and the signer. -/
structure TransactionsByPriceAndNonce where
  txs : Address → Option (List Transaction)
  heads : List Transaction
  signer : Signer

/-- One iteration of the loop of `NewTransactionsByPriceAndNonce`, at the key `acc`: the head of
the entry's transactions joins the heads, and the rest is stored under the head's sender. Go
panics on an empty list; that is `none`. -/
def newStep (signer : Signer) (st : List Transaction × (Address → Option (List Transaction)))
    (acc : Address) : Option (List Transaction × (Address → Option (List Transaction))) :=
  match st.2 acc with
  | some (tx :: rest) =>
    some (st.1 ++ [tx], Function.update st.2 (senderAddr c signer tx) (some rest))
  | _ => none

/-- `NewTransactionsByPriceAndNonce`, over the entries of the map in the order `range` visits
them: the loop, then `heap.Init` of the heads. -/
def newTransactionsByPriceAndNonce (signer : Signer) (txs : List (Address × List Transaction)) :
    Option TransactionsByPriceAndNonce :=
  ((txs.map Prod.fst).foldlM (newStep c signer) ([], fun a => txs.lookup a)).map
    fun st => ⟨st.2, init TxByPrice.less st.1, signer⟩

namespace TransactionsByPriceAndNonce

/-- `Peek`: the root of the heap, `nil` when it is empty. -/
def peek (t : TransactionsByPriceAndNonce) : Option Transaction := t.heads.head?

/-- `Shift`: the next transaction of the root's sender replaces the root and the heap is fixed,
or the root is popped when the sender has none left. Go panics on an empty heap: `none`. -/
def shift (t : TransactionsByPriceAndNonce) : Option TransactionsByPriceAndNonce :=
  match t.heads with
  | [] => none
  | h0 :: _ =>
    match t.txs (senderAddr c t.signer h0) with
    | some (tx :: rest) =>
      some { t with
        heads := fix TxByPrice.less (t.heads.set 0 tx) 0
        txs := Function.update t.txs (senderAddr c t.signer h0) (some rest) }
    | _ => (BinaryHeap.pop TxByPrice.less t.heads).map fun p => { t with heads := p.2 }

/-- `Pop`: the root is popped; its sender's other transactions stay in the map, where nothing
reads them again. Go panics on an empty heap: `none`. -/
def pop (t : TransactionsByPriceAndNonce) : Option TransactionsByPriceAndNonce :=
  (BinaryHeap.pop TxByPrice.less t.heads).map fun p => { t with heads := p.2 }

/-- The loop a block builder runs over the set: `Peek`, and while it returns a transaction,
`Shift`. The transactions `Peek` returned; `none` if `fuel` runs out first. -/
def drain : Nat → TransactionsByPriceAndNonce → Option (List Transaction)
  | 0, _ => none
  | fuel + 1, t =>
    match t.peek with
    | none => some []
    | some tx =>
      match t.shift c with
      | none => none
      | some t' => (drain fuel t').map (tx :: ·)

/-- The state of that loop after `i` rounds, each a `Shift`; `none` if a `Shift` panics first. -/
def shifts : Nat → TransactionsByPriceAndNonce → Option TransactionsByPriceAndNonce
  | 0, t => some t
  | i + 1, t => (t.shift c).bind (shifts i)

/-- The transactions still to come: each head, and the rest kept under its sender. -/
def pending (t : TransactionsByPriceAndNonce) : List Transaction :=
  t.heads.flatMap fun h => h :: (t.txs (senderAddr c t.signer h)).getD []

/-- The transactions still to come from the account `a`. -/
def queue (t : TransactionsByPriceAndNonce) (a : Address) : List Transaction :=
  (t.heads.filter fun h => senderAddr c t.signer h = a).flatMap fun h => h :: (t.txs a).getD []

/-- What the set keeps: the heads are a price heap of distinct senders, and what is kept under a
head's sender was sent by it. -/
structure Inv (t : TransactionsByPriceAndNonce) : Prop where
  heap : IsHeap TxByPrice.less t.heads
  nodup : (t.heads.map (senderAddr c t.signer)).Nodup
  signed : ∀ h ∈ t.heads, ∀ tx ∈ (t.txs (senderAddr c t.signer h)).getD [],
    senderAddr c t.signer tx = senderAddr c t.signer h

/-- The states a set reaches by `Shift` and `Pop`. -/
inductive Reachable : TransactionsByPriceAndNonce → TransactionsByPriceAndNonce → Prop
  | refl (t : TransactionsByPriceAndNonce) : Reachable t t
  | shift {t t' t'' : TransactionsByPriceAndNonce} : Reachable t t' → t'.shift c = some t'' →
      Reachable t t''
  | pop {t t' t'' : TransactionsByPriceAndNonce} : Reachable t t' → t'.pop = some t'' →
      Reachable t t''

end TransactionsByPriceAndNonce

/-! ## The price heap -/

theorem txByPrice_lessOrder : LessOrder TxByPrice.less where
  asymm x y h := by
    simp only [TxByPrice.less, decide_eq_true_eq, decide_eq_false_iff_not] at *
    omega
  not_trans x y z h1 h2 := by
    simp only [TxByPrice.less, decide_eq_false_iff_not] at *
    omega

namespace TransactionsByPriceAndNonce

variable {c}

theorem heads_of_peek {t : TransactionsByPriceAndNonce} {tx : Transaction}
    (hp : t.peek = some tx) : ∃ hs, t.heads = tx :: hs :=
  List.head?_eq_some_iff.mp hp

/-- `Peek` returns a transaction that pays at least every head. -/
theorem Inv.peek_max {t : TransactionsByPriceAndNonce} (hi : t.Inv c) {tx : Transaction}
    (hp : t.peek = some tx) : ∀ h ∈ t.heads, h.data.price ≤ tx.data.price := by
  obtain ⟨hs, hh⟩ := heads_of_peek hp
  intro h hmem
  rw [hh] at hmem
  have := mem_root_min txByPrice_lessOrder (hh ▸ hi.heap) hmem
  simpa [TxByPrice.less] using this

/-! ## The root's account -/

section Root

variable {t : TransactionsByPriceAndNonce} (hi : t.Inv c) {tx : Transaction}
  {hs : List Transaction} (hh : t.heads = tx :: hs)
include hi hh

/-- No other head has the root's sender. -/
theorem Inv.filter_rest : (hs.filter fun h => senderAddr c t.signer h = senderAddr c t.signer tx) = [] := by
  have hn := hi.nodup
  rw [hh, List.map_cons, List.nodup_cons] at hn
  rw [List.filter_eq_nil_iff]
  intro h hmem he
  simp only [decide_eq_true_eq] at he
  exact hn.1 (List.mem_map.mpr ⟨h, hmem, he⟩)

theorem Inv.queue_root :
    t.queue c (senderAddr c t.signer tx) = tx :: (t.txs (senderAddr c t.signer tx)).getD [] := by
  simp [queue, hh, hi.filter_rest hh]

omit hi in
theorem queue_other {b : Address} (hb : senderAddr c t.signer tx ≠ b) :
    t.queue c b = (hs.filter fun h => senderAddr c t.signer h = b).flatMap
      fun h => h :: (t.txs b).getD [] := by
  simp [queue, hh, hb]

omit hi in
theorem pending_root :
    t.pending c = tx :: ((t.txs (senderAddr c t.signer tx)).getD [] ++
      hs.flatMap fun h => h :: (t.txs (senderAddr c t.signer h)).getD []) := by
  simp [pending, hh]

/-- The set with its root dropped from the heads, the rest of them in any heap order. -/
theorem Inv.drop_root {heads' : List Transaction} (hheap : IsHeap TxByPrice.less heads')
    (hp : heads'.Perm hs) : ({ t with heads := heads' } : TransactionsByPriceAndNonce).Inv c := by
  have hn := hi.nodup
  rw [hh, List.map_cons, List.nodup_cons] at hn
  exact ⟨hheap, ((hp.map _).nodup_iff).mpr hn.2,
    fun h hm => hi.signed h (hh ▸ List.mem_cons_of_mem _ (hp.subset hm))⟩

theorem queue_drop_root {heads' : List Transaction} (hp : heads'.Perm hs) (b : Address) :
    ({ t with heads := heads' } : TransactionsByPriceAndNonce).queue c b =
      if senderAddr c t.signer tx = b then [] else t.queue c b := by
  have hn := hi.nodup
  rw [hh, List.map_cons, List.nodup_cons] at hn
  have hfilter := filter_key_of_perm (senderAddr c t.signer) hp.symm hn.2 b
  simp only [queue]
  rw [← hfilter]
  split
  · next he =>
    subst he
    rw [hi.filter_rest hh]
    rfl
  · next he =>
    simp [hh, he]

/-- `Pop` takes the root off the heads and leaves the rest a heap. -/
theorem Inv.pop_root : ∃ heads', t.pop = some { t with heads := heads' } ∧
    IsHeap TxByPrice.less heads' ∧ heads'.Perm hs := by
  obtain ⟨rest, hpop, hheap, hperm⟩ := BinaryHeap.pop_spec txByPrice_lessOrder (hh ▸ hi.heap)
  exact ⟨rest, by simp [pop, hh, hpop], hheap, hperm⟩

/-- `Shift` when the root's sender has more: its next transaction takes the root's place. -/
theorem Inv.shift_next {tx' : Transaction} {rest : List Transaction}
    (htx : t.txs (senderAddr c t.signer tx) = some (tx' :: rest)) :
    ∃ t', t.shift c = some t' ∧ t'.signer = t.signer ∧ t'.Inv c ∧
      (t.pending c).Perm (tx :: t'.pending c) ∧
      ∀ b, t.queue c b =
        if senderAddr c t.signer tx = b then tx :: t'.queue c b else t'.queue c b := by
  set a := senderAddr c t.signer tx with ha
  let t' : TransactionsByPriceAndNonce :=
    ⟨Function.update t.txs a (some rest), fix TxByPrice.less (tx' :: hs) 0, t.signer⟩
  have hshift : t.shift c = some t' := by
    simp only [shift, hh, ← ha, htx, List.set_cons_zero]
    rfl
  have hs' : senderAddr c t.signer tx' = a :=
    hi.signed tx (by rw [hh]; exact List.mem_cons_self) tx' (by rw [htx]; exact List.mem_cons_self)
  have hperm : t'.heads.Perm (tx' :: hs) := fix_zero_perm _ _
  have hn := hi.nodup
  rw [hh, List.map_cons, List.nodup_cons] at hn
  have hn' : (t'.heads.map (senderAddr c t.signer)).Nodup := by
    refine ((hperm.map _).nodup_iff).mpr ?_
    rw [List.map_cons, List.nodup_cons, hs']
    exact hn
  have hheap : IsHeap TxByPrice.less t'.heads := by
    have := isHeap_fix_set_zero txByPrice_lessOrder hi.heap tx'
    rwa [hh, List.set_cons_zero] at this
  -- the other heads keep what is kept under their senders
  have htxs : ∀ h ∈ hs, t'.txs (senderAddr c t.signer h) = t.txs (senderAddr c t.signer h) := by
    intro h hm
    exact Function.update_of_ne (fun he => hn.1 (List.mem_map.mpr ⟨h, hm, he⟩)) _ _
  have hinv : t'.Inv c := by
    refine ⟨hheap, hn', fun h hm y hy => ?_⟩
    rcases List.mem_cons.mp (hperm.subset hm) with rfl | hm'
    · have hy' : y ∈ rest := by simpa [t', hs'] using hy
      exact (hi.signed tx (by rw [hh]; exact List.mem_cons_self) y
        (by rw [htx]; exact List.mem_cons_of_mem _ hy')).trans hs'.symm
    · rw [htxs h hm'] at hy
      exact hi.signed h (by rw [hh]; exact List.mem_cons_of_mem _ hm') y hy
  have hpending : (t'.pending c).Perm ((tx' :: rest) ++
      hs.flatMap fun h => h :: (t.txs (senderAddr c t.signer h)).getD []) := by
    refine (hperm.flatMap_right _).trans ?_
    simp only [List.flatMap_cons, List.cons_append]
    rw [List.flatMap_congr fun h hm => by rw [htxs h hm]]
    simp [t', hs']
  refine ⟨t', hshift, rfl, hinv, ?_, fun b => ?_⟩
  · rw [pending_root hh, htx]
    exact (hpending.symm.cons tx)
  · have hfilter := filter_key_of_perm (senderAddr c t.signer) hperm hn' b
    have ht'q : t'.queue c b = ((tx' :: hs).filter fun h => senderAddr c t.signer h = b).flatMap
        fun h => h :: (t'.txs b).getD [] := by
      simp only [queue]
      rw [hfilter]
    split
    · next hb =>
      subst hb
      have hrest := hi.filter_rest hh
      rw [← ha] at hrest
      rw [hi.queue_root hh, htx, ht'q, List.filter_cons, if_pos (by simpa using hs'), hrest]
      simp [t']
    · next hb =>
      rw [queue_other hh hb, ht'q, List.filter_cons, if_neg (by simpa [hs'] using hb)]
      simp [t', Function.update_of_ne (Ne.symm hb)]

/-- `Shift` when the root's sender has nothing more: the root is popped. -/
theorem Inv.shift_last (hlast : (t.txs (senderAddr c t.signer tx)).getD [] = []) :
    ∃ t', t.shift c = some t' ∧ t'.signer = t.signer ∧ t'.Inv c ∧
      (t.pending c).Perm (tx :: t'.pending c) ∧
      ∀ b, t.queue c b =
        if senderAddr c t.signer tx = b then tx :: t'.queue c b else t'.queue c b := by
  obtain ⟨heads', hpop, hheap, hperm⟩ := hi.pop_root hh
  have hshift : t.shift c = t.pop := by
    cases htx : t.txs (senderAddr c t.signer tx) with
    | none => simp [shift, pop, hh, htx]
    | some l =>
      rw [htx] at hlast
      obtain rfl : l = [] := hlast
      simp [shift, pop, hh, htx]
  refine ⟨_, hshift.trans hpop, rfl, hi.drop_root hh hheap hperm, ?_, fun b => ?_⟩
  · rw [pending_root hh, hlast, List.nil_append]
    exact (hperm.flatMap_right _).symm.cons tx
  · rw [queue_drop_root hi hh hperm b]
    split
    · next hb =>
      subst hb
      rw [hi.queue_root hh, hlast]
    · rfl

end Root

theorem peek_of_shift {t t' : TransactionsByPriceAndNonce} (hs : t.shift c = some t') :
    ∃ tx, t.peek = some tx := by
  cases hh : t.heads with
  | nil => simp [shift, hh] at hs
  | cons h _ => exact ⟨h, by simp [peek, hh]⟩

theorem peek_of_pop {t t' : TransactionsByPriceAndNonce} (hs : t.pop = some t') :
    ∃ tx, t.peek = some tx := by
  cases hh : t.heads with
  | nil => simp [pop, BinaryHeap.pop, hh] at hs
  | cons h _ => exact ⟨h, by simp [peek, hh]⟩

/-- `Shift` takes `Peek`'s transaction off its account's queue and keeps the invariant. -/
theorem Inv.shift_spec {t : TransactionsByPriceAndNonce} (hi : t.Inv c) {tx : Transaction}
    (hp : t.peek = some tx) :
    ∃ t', t.shift c = some t' ∧ t'.signer = t.signer ∧ t'.Inv c ∧
      (t.pending c).Perm (tx :: t'.pending c) ∧
      ∀ b, t.queue c b =
        if senderAddr c t.signer tx = b then tx :: t'.queue c b else t'.queue c b := by
  obtain ⟨hs, hh⟩ := heads_of_peek hp
  cases htx : t.txs (senderAddr c t.signer tx) with
  | none => exact hi.shift_last hh (by rw [htx]; rfl)
  | some l =>
    cases l with
    | nil => exact hi.shift_last hh (by rw [htx]; rfl)
    | cons tx' rest => exact hi.shift_next hh htx

/-- `Pop` empties the queue of `Peek`'s account, leaves the others and keeps the invariant. -/
theorem Inv.pop_spec {t : TransactionsByPriceAndNonce} (hi : t.Inv c) {tx : Transaction}
    (hp : t.peek = some tx) :
    ∃ t', t.pop = some t' ∧ t'.signer = t.signer ∧ t'.Inv c ∧
      (t.pending c).Perm (t.queue c (senderAddr c t.signer tx) ++ t'.pending c) ∧
      ∀ b, t'.queue c b = if senderAddr c t.signer tx = b then [] else t.queue c b := by
  obtain ⟨hs, hh⟩ := heads_of_peek hp
  obtain ⟨heads', hpop, hheap, hperm⟩ := hi.pop_root hh
  refine ⟨_, hpop, rfl, hi.drop_root hh hheap hperm, ?_, queue_drop_root hi hh hperm⟩
  rw [pending_root hh, hi.queue_root hh, List.cons_append]
  exact ((hperm.flatMap_right _).symm.append_left _).cons tx

/-- Peeking and shifting until `Peek` returns nil, with more fuel than transactions to come,
yields each of them once, each account's in the order of its queue. -/
theorem drain_spec : ∀ (fuel : Nat) (t : TransactionsByPriceAndNonce), t.Inv c →
    (t.pending c).length < fuel →
    ∃ ys, drain c fuel t = some ys ∧ ys.Perm (t.pending c) ∧
      ∀ a, (ys.filter fun x => senderAddr c t.signer x = a) = t.queue c a
  | 0, _, _, hlen => absurd hlen (Nat.not_lt_zero _)
  | fuel + 1, t, hi, hlen => by
    cases hp : t.peek with
    | none =>
      have hh : t.heads = [] := List.head?_eq_none_iff.mp hp
      exact ⟨[], by simp [drain, hp], by simp [pending, hh], fun a => by simp [queue, hh]⟩
    | some tx =>
      obtain ⟨t', hshift, hsig, hi', hperm, hq⟩ := hi.shift_spec hp
      have hlen' : (t'.pending c).length < fuel := by
        have := hperm.length_eq
        simp only [List.length_cons] at this
        omega
      obtain ⟨ys, hys, hyperm, hyq⟩ := drain_spec fuel t' hi' hlen'
      refine ⟨tx :: ys, by simp [drain, hp, hshift, hys], (hyperm.cons tx).trans hperm.symm,
        fun a => ?_⟩
      have hya := hyq a
      rw [hsig] at hya
      rw [List.filter_cons, hq a, hya]
      by_cases ha : senderAddr c t.signer tx = a <;> simp [ha]

/-- Every state reached by `Shift` and `Pop` keeps the invariant and the signer, and has no more
transactions to come. -/
theorem Reachable.inv {t t' : TransactionsByPriceAndNonce} (hr : Reachable c t t')
    (hi : t.Inv c) :
    t'.Inv c ∧ t'.signer = t.signer ∧ (t'.pending c).length ≤ (t.pending c).length := by
  induction hr with
  | refl => exact ⟨hi, rfl, le_rfl⟩
  | shift _ hs ih =>
    obtain ⟨hi', hsig, hlen⟩ := ih
    obtain ⟨tx, hp⟩ := peek_of_shift hs
    obtain ⟨t₂, hs₂, hsig₂, hi₂, hperm, -⟩ := hi'.shift_spec hp
    rw [hs, Option.some.injEq] at hs₂
    subst hs₂
    refine ⟨hi₂, hsig₂.trans hsig, ?_⟩
    have := hperm.length_eq
    simp only [List.length_cons] at this
    omega
  | pop _ hs ih =>
    obtain ⟨hi', hsig, hlen⟩ := ih
    obtain ⟨tx, hp⟩ := peek_of_pop hs
    obtain ⟨t₂, hs₂, hsig₂, hi₂, hperm, -⟩ := hi'.pop_spec hp
    rw [hs, Option.some.injEq] at hs₂
    subst hs₂
    refine ⟨hi₂, hsig₂.trans hsig, ?_⟩
    have := hperm.length_eq
    simp only [List.length_append] at this
    omega

/-- A `Shift` in front of a run is a run. -/
theorem Reachable.of_shift {t t₁ t' : TransactionsByPriceAndNonce} (hs : t.shift c = some t₁)
    (hr : Reachable c t₁ t') : Reachable c t t' := by
  induction hr with
  | refl => exact .shift (.refl t) hs
  | shift _ h ih => exact .shift ih h
  | pop _ h ih => exact .pop ih h

/-- The `i`-th transaction the loop yields is what `Peek` returns at the loop's state after `i`
rounds. -/
theorem drain_shifts : ∀ (fuel : Nat) (t : TransactionsByPriceAndNonce) (ys : List Transaction),
    drain c fuel t = some ys → ∀ i (hi : i < ys.length),
      ∃ tᵢ, shifts c i t = some tᵢ ∧ tᵢ.peek = some ys[i]
  | 0, _, _, h => by simp [drain] at h
  | fuel + 1, t, ys, h => by
    cases hp : t.peek with
    | none =>
      simp only [drain, hp, Option.some.injEq] at h
      subst h
      intro i hi
      simp at hi
    | some tx =>
      cases hs : t.shift c with
      | none => simp [drain, hp, hs] at h
      | some t₁ =>
        simp only [drain, hp, hs, Option.map_eq_some_iff] at h
        obtain ⟨ys', hys', rfl⟩ := h
        intro i hi
        cases i with
        | zero => exact ⟨t, rfl, hp⟩
        | succ j =>
          -- the later rounds are the loop's rounds from the shifted state
          obtain ⟨tⱼ, hj, hpj⟩ := drain_shifts fuel t₁ ys' hys' j (by simpa using hi)
          exact ⟨tⱼ, by simp [shifts, hs, hj], by simpa using hpj⟩

/-- The loop's states are reached by `Shift`. -/
theorem shifts_reachable : ∀ (i : Nat) {t t' : TransactionsByPriceAndNonce},
    shifts c i t = some t' → Reachable c t t'
  | 0, t, _, h => by
    rw [shifts, Option.some.injEq] at h
    subst h
    exact .refl t
  | i + 1, t, t', h => by
    simp only [shifts, Option.bind_eq_some_iff] at h
    obtain ⟨t₁, hs, hi⟩ := h
    exact (shifts_reachable i hi).of_shift hs

end TransactionsByPriceAndNonce

/-! ## The constructor -/

section New

variable {c}

/-- What the constructor assumes of the map: non-empty lists, each sent by its key. -/
def SentBy (signer : Signer) (entries : List (Address × List Transaction)) : Prop :=
  ∀ e ∈ entries, e.2 ≠ [] ∧ ∀ tx ∈ e.2, senderAddr c signer tx = e.1

/-- The constructor's loop over distinct keys: the heads of the lists in order, and each list's
rest stored under its key. -/
theorem foldlM_newStep (signer : Signer) : ∀ (es : List (Address × List Transaction))
    (heads : List Transaction) (m : Address → Option (List Transaction)),
    (es.map Prod.fst).Nodup → SentBy (c := c) signer es → (∀ e ∈ es, m e.1 = some e.2) →
    (es.map Prod.fst).foldlM (newStep c signer) (heads, m) =
      some (heads ++ es.flatMap (fun e => e.2.take 1),
        fun a => if a ∈ es.map Prod.fst then (m a).map List.tail else m a)
  | [], heads, m, _, _, _ => by simp
  | e :: es, heads, m, hn, hsent, hm => by
    obtain ⟨hne, hsnd⟩ := hsent e List.mem_cons_self
    obtain ⟨tx, rest, hl⟩ := List.exists_cons_of_ne_nil hne
    rw [List.map_cons, List.nodup_cons] at hn
    have hstep : newStep c signer (heads, m) e.1 =
        some (heads ++ [tx], Function.update m e.1 (some rest)) := by
      simp only [newStep, hm e List.mem_cons_self, hl,
        hsnd tx (by rw [hl]; exact List.mem_cons_self)]
    have hm' : ∀ e' ∈ es, Function.update m e.1 (some rest) e'.1 = some e'.2 := by
      intro e' he'
      have hne' : e'.1 ≠ e.1 := fun h => hn.1 (h ▸ List.mem_map.mpr ⟨e', he', rfl⟩)
      rw [Function.update_of_ne hne', hm e' (List.mem_cons_of_mem _ he')]
    rw [List.map_cons, List.foldlM_cons, hstep]
    simp only [Option.bind_eq_bind, Option.bind_some]
    rw [foldlM_newStep signer es _ _ hn.2 (fun e' he' => hsent e' (List.mem_cons_of_mem _ he')) hm']
    congr 2
    · simp [hl]
    · funext a
      by_cases ha : a = e.1
      · subst ha
        simp [hn.1, hm e List.mem_cons_self, hl]
      · rw [Function.update_of_ne ha]
        by_cases hmem : a ∈ es.map Prod.fst
        · rw [if_pos hmem, if_pos (List.mem_cons_of_mem _ hmem)]
        · rw [if_neg hmem, if_neg (by simp [ha, hmem])]

theorem map_senderAddr_heads (signer : Signer) : ∀ (es : List (Address × List Transaction)),
    SentBy (c := c) signer es →
    (es.flatMap fun e => e.2.take 1).map (senderAddr c signer) = es.map Prod.fst
  | [], _ => rfl
  | e :: es, hsent => by
    obtain ⟨hne, hsnd⟩ := hsent e List.mem_cons_self
    obtain ⟨tx, rest, hl⟩ := List.exists_cons_of_ne_nil hne
    have hrest := map_senderAddr_heads signer es fun e' he' => hsent e' (List.mem_cons_of_mem _ he')
    simp only [List.flatMap_cons, hl, List.take_succ_cons, List.take_zero, List.singleton_append,
      List.map_cons, hrest, hsnd tx (by rw [hl]; exact List.mem_cons_self)]

theorem mem_heads {signer : Signer} {es : List (Address × List Transaction)}
    (hsent : SentBy (c := c) signer es) {h : Transaction}
    (hm : h ∈ es.flatMap fun e => e.2.take 1) : ∃ e ∈ es, e.2 = h :: e.2.tail := by
  obtain ⟨e, he, hmem⟩ := List.mem_flatMap.mp hm
  obtain ⟨tx, rest, hl⟩ := List.exists_cons_of_ne_nil (hsent e he).1
  refine ⟨e, he, ?_⟩
  rw [hl] at hmem ⊢
  rw [List.take_succ_cons, List.take_zero, List.mem_singleton] at hmem
  rw [hmem]
  rfl

/-- The constructor, on a map of non-empty lists each sent by its key: the invariant holds, the
transactions to come are those of the lists, and each account's queue is its list. -/
theorem new_spec (signer : Signer) {entries : List (Address × List Transaction)}
    (hkeys : (entries.map Prod.fst).Nodup) (hsent : SentBy (c := c) signer entries) :
    ∃ t, newTransactionsByPriceAndNonce c signer entries = some t ∧ t.signer = signer ∧
      t.Inv c ∧ (t.pending c).Perm (entries.flatMap Prod.snd) ∧
      ∀ e ∈ entries, t.queue c e.1 = e.2 := by
  have hfold := foldlM_newStep signer entries [] (fun a => entries.lookup a) hkeys hsent
    (fun e he => lookup_of_mem hkeys he)
  set H := entries.flatMap fun e => e.2.take 1 with hH
  set M : Address → Option (List Transaction) := fun a =>
    if a ∈ entries.map Prod.fst then (entries.lookup a).map List.tail else entries.lookup a
    with hM
  let t : TransactionsByPriceAndNonce := ⟨M, init TxByPrice.less H, signer⟩
  have hnew : newTransactionsByPriceAndNonce c signer entries = some t := by
    simp only [newTransactionsByPriceAndNonce, hfold, List.nil_append, Option.map_some]
    rfl
  have hMe : ∀ e ∈ entries, M e.1 = some e.2.tail := by
    intro e he
    simp only [hM, List.mem_map.mpr ⟨e, he, rfl⟩, if_true, lookup_of_mem hkeys he,
      Option.map_some]
  have hperm : (init TxByPrice.less H).Perm H := init_perm _ H
  have hkeysH : H.map (senderAddr c signer) = entries.map Prod.fst :=
    map_senderAddr_heads signer entries hsent
  have hnodup : ((init TxByPrice.less H).map (senderAddr c signer)).Nodup :=
    ((hperm.map _).nodup_iff).mpr (hkeysH ▸ hkeys)
  -- each entry's head and the rest stored under its key give back the entry's list
  have hG : ∀ e ∈ entries,
      (e.2.take 1).flatMap (fun h => h :: (M (senderAddr c signer h)).getD []) = e.2 := by
    intro e he
    obtain ⟨tx, rest, hl⟩ := List.exists_cons_of_ne_nil (hsent e he).1
    have hs := (hsent e he).2 tx (by rw [hl]; exact List.mem_cons_self)
    have hme := hMe e he
    rw [hl] at hme ⊢
    simp [hs, hme]
  refine ⟨t, hnew, rfl, ⟨isHeap_init txByPrice_lessOrder H, hnodup, ?_⟩, ?_, fun e he => ?_⟩
  · intro h hm y hy
    obtain ⟨e, he, hl⟩ := mem_heads hsent (hperm.subset hm)
    have hs := (hsent e he).2 h (by rw [hl]; exact List.mem_cons_self)
    change y ∈ (M (senderAddr c signer h)).getD [] at hy
    rw [hs, hMe e he] at hy
    change senderAddr c signer y = senderAddr c signer h
    rw [hs]
    exact (hsent e he).2 y (by rw [hl]; exact List.mem_cons_of_mem _ hy)
  · refine (hperm.flatMap_right _).trans ?_
    rw [hH, List.flatMap_assoc, List.flatMap_congr hG]
  · obtain ⟨tx, rest, hl⟩ := List.exists_cons_of_ne_nil (hsent e he).1
    have hs := (hsent e he).2 tx (by rw [hl]; exact List.mem_cons_self)
    have htxH : tx ∈ H := List.mem_flatMap.mpr ⟨e, he, by rw [hl]; simp⟩
    have hsingle := filter_key_eq_singleton (senderAddr c signer) (hkeysH ▸ hkeys) htxH
    rw [hs] at hsingle
    change ((init TxByPrice.less H).filter fun h => senderAddr c signer h = e.1).flatMap
      (fun h => h :: (M e.1).getD []) = e.2
    rw [filter_key_of_perm _ hperm hnodup, hsingle, hMe e he, hl]
    simp

end New

namespace TransactionsByPriceAndNonce

/-- Over a map whose lists are non-empty, in increasing nonce order and sent by their keys,
peeking and shifting until `Peek` returns nil yields every transaction once, each account's in
nonce order. The `i`-th is what `Peek` returns at the loop's state after `i` rounds, and it pays at
least every head of that state. `Pop` at any state of the loop drops exactly what is left of that
account, and the loop then yields the rest of the others. -/
theorem price_and_nonce_order (signer : Signer) (entries : List (Address × List Transaction))
    (hkeys : (entries.map Prod.fst).Nodup)
    (hlists : ∀ e ∈ entries, e.2 ≠ [] ∧
      e.2.Pairwise (fun a b => a.data.accountNonce < b.data.accountNonce) ∧
      ∀ tx ∈ e.2, (sender c signer tx).1 = .ok e.1) :
    ∃ t, newTransactionsByPriceAndNonce c signer entries = some t ∧
      (∃ ys, t.drain c ((entries.flatMap Prod.snd).length + 1) = some ys ∧
        ys.Perm (entries.flatMap Prod.snd) ∧
        (∀ e ∈ entries, (ys.filter fun x => senderAddr c signer x = e.1) = e.2 ∧
          (ys.filter fun x => senderAddr c signer x = e.1).Pairwise
            (fun a b => a.data.accountNonce < b.data.accountNonce)) ∧
        ∀ i (hi : i < ys.length), ∃ tᵢ, shifts c i t = some tᵢ ∧ tᵢ.peek = some ys[i] ∧
          ∀ h ∈ tᵢ.heads, h.data.price ≤ ys[i].data.price) ∧
      ∀ t', Reachable c t t' → ∀ tx, t'.peek = some tx →
        ∃ t'', t'.pop = some t'' ∧
          (t'.pending c).Perm (t'.queue c (senderAddr c signer tx) ++ t''.pending c) ∧
          ∃ ys, t''.drain c ((entries.flatMap Prod.snd).length + 1) = some ys ∧
            ∀ a, (ys.filter fun x => senderAddr c signer x = a) =
              if senderAddr c signer tx = a then [] else t'.queue c a := by
  have hsent : SentBy (c := c) signer entries := fun e he =>
    ⟨(hlists e he).1, fun tx htx => by simp only [senderAddr, (hlists e he).2.2 tx htx]⟩
  obtain ⟨t, hnew, hsig, hi, hperm, hq⟩ := new_spec signer hkeys hsent
  have hlen : (t.pending c).length < (entries.flatMap Prod.snd).length + 1 := by
    rw [hperm.length_eq]
    omega
  obtain ⟨ys, hys, hyperm, hyq⟩ := drain_spec _ t hi hlen
  rw [hsig] at hyq
  refine ⟨t, hnew, ⟨ys, hys, hyperm.trans hperm, fun e he => ?_, fun i hlt => ?_⟩,
    fun t' hr tx hp => ?_⟩
  · rw [hyq, hq e he]
    exact ⟨rfl, (hlists e he).2.1⟩
  · -- the loop's state after `i` rounds keeps the invariant, so its root is the dearest head
    obtain ⟨tᵢ, hsh, hp⟩ := drain_shifts _ t ys hys i hlt
    exact ⟨tᵢ, hsh, hp, ((shifts_reachable i hsh).inv hi).1.peek_max hp⟩
  · -- the state the loop reached keeps the invariant, so `Pop` is specified there
    obtain ⟨hi', hsig', hlen'⟩ := hr.inv hi
    obtain ⟨t'', hpop, hsig'', hi'', hpperm, hpq⟩ := hi'.pop_spec hp
    rw [hsig', hsig] at hpperm hpq
    have hlen'' : (t''.pending c).length < (entries.flatMap Prod.snd).length + 1 := by
      have := hpperm.length_eq
      rw [List.length_append] at this
      omega
    obtain ⟨ys', hys', -, hyq'⟩ := drain_spec _ t'' hi'' hlen''
    rw [hsig'', hsig', hsig] at hyq'
    refine ⟨t'', hpop, hpperm, ys', hys', fun a => ?_⟩
    rw [hyq' a]
    exact hpq a

/-- Two accounts, the first with a cheap transaction before a dear one, each transaction with
its sender cached under the signer: the hypotheses hold, and the loop yields all three. -/
theorem price_and_nonce_order_two_accounts :
    ∃ t, newTransactionsByPriceAndNonce unitCrypto .frontier
        [(bytesToAddress [1],
          [⟨⟨0, 1, 21000, none, 0, [], 0, 0, 0⟩, some (.frontier, bytesToAddress [1])⟩,
           ⟨⟨1, 5, 21000, none, 0, [], 0, 0, 0⟩, some (.frontier, bytesToAddress [1])⟩]),
         (bytesToAddress [2],
          [⟨⟨0, 3, 21000, none, 0, [], 0, 0, 0⟩, some (.frontier, bytesToAddress [2])⟩])]
        = some t ∧
      ∃ ys, t.drain unitCrypto 4 = some ys ∧
        ys.Perm [⟨⟨0, 1, 21000, none, 0, [], 0, 0, 0⟩, some (.frontier, bytesToAddress [1])⟩,
          ⟨⟨1, 5, 21000, none, 0, [], 0, 0, 0⟩, some (.frontier, bytesToAddress [1])⟩,
          ⟨⟨0, 3, 21000, none, 0, [], 0, 0, 0⟩, some (.frontier, bytesToAddress [2])⟩] := by
  obtain ⟨t, ht, ⟨ys, hys, hperm, -⟩, -⟩ := price_and_nonce_order unitCrypto .frontier
    [(bytesToAddress [1],
      [⟨⟨0, 1, 21000, none, 0, [], 0, 0, 0⟩, some (.frontier, bytesToAddress [1])⟩,
       ⟨⟨1, 5, 21000, none, 0, [], 0, 0, 0⟩, some (.frontier, bytesToAddress [1])⟩]),
     (bytesToAddress [2],
      [⟨⟨0, 3, 21000, none, 0, [], 0, 0, 0⟩, some (.frontier, bytesToAddress [2])⟩])]
    (by decide) (by decide)
  exact ⟨t, ht, ys, hys, hperm⟩

end TransactionsByPriceAndNonce

end GoGaia.Types
