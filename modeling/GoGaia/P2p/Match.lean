import GoGaia.P2p.Peer
import GoGaia.Lib.Layout

/-!
# Matching subprotocols and routing their messages

What `matchProtocols` computes, in closed form: of the caps sorted by name and version, those
that name a local protocol, the last of each name (`select`, the highest version), each given the
next range of codes from `baseProtocolLength` on (`Layout.layout`). The fold reaches it because a
later version of a name always comes right after the earlier one, whose codes it takes back
(`matchCap_matchCap_same`), and a cap no protocol has changes nothing
(`foldl_matchCap_filter`).

Two peers whose advertised caps are those of their protocols select the caps both run, whichever
side computes it (`select_common_eq`), so they agree on the protocols, their versions and their
offsets. While the codes fit in 64 bits, the ranges are disjoint and above the base protocol's,
and a message written through a protocol on one side is delivered to the same protocol on the
other with its code (`handle_writeMsg`).
-/

namespace GoGaia.P2p

/-! ## Caps in order -/

/-- The cap a protocol runs. -/
def Protocol.cap (p : Protocol) : Cap := ⟨p.name, p.version⟩

/-- The key caps are sorted by: the name, then the version. -/
def Cap.key (c : Cap) : String ×ₗ Nat := toLex (c.name, c.version)

theorem Cap.key_injective : Function.Injective Cap.key := by
  intro a b h
  cases a
  cases b
  simp only [Cap.key, toLex_inj, Prod.mk.injEq] at h
  obtain ⟨rfl, rfl⟩ := h
  rfl

instance : LinearOrder Cap := LinearOrder.lift' Cap.key Cap.key_injective

theorem Cap.lt_iff {a b : Cap} :
    a < b ↔ a.name < b.name ∨ (a.name = b.name ∧ a.version < b.version) := by
  show a.key < b.key ↔ _
  simp [Cap.key, Prod.Lex.toLex_lt_toLex]

theorem Cap.version_le_of_le {a b : Cap} (h : a ≤ b) (hname : a.name = b.name) :
    a.version ≤ b.version := by
  rcases h.lt_or_eq with h | rfl
  · rcases Cap.lt_iff.mp h with h | ⟨-, h⟩
    · exact absurd hname h.ne
    · exact h.le
  · exact le_rfl

theorem Cap.name_le_of_le {a b : Cap} (h : a ≤ b) : a.name ≤ b.name := by
  rcases h.lt_or_eq with h | rfl
  · rcases Cap.lt_iff.mp h with h | ⟨h, -⟩
    · exact h.le
    · exact h.le
  · exact le_rfl

/-- `capsByNameAndVersion.Less` is the order on caps. -/
theorem Cap.less_iff (a b : Cap) : a.less b = true ↔ a < b := by
  simp [Cap.less, Cap.lt_iff]

theorem sortCaps_eq (caps : List Cap) : sortCaps caps = caps.mergeSort fun a b => decide (a ≤ b) := by
  unfold sortCaps
  congr
  funext a b
  rw [Bool.eq_iff_iff, Bool.not_eq_true', Bool.eq_false_iff, decide_eq_true_iff, ne_eq,
    Cap.less_iff, not_lt]

theorem pairwise_sortCaps (caps : List Cap) : (sortCaps caps).Pairwise (· ≤ ·) := by
  rw [sortCaps_eq]
  exact List.pairwise_mergeSort' (· ≤ ·) caps

theorem perm_sortCaps (caps : List Cap) : (sortCaps caps).Perm caps := List.mergeSort_perm _ _

/-! ## One cap -/

/-- The protocol a cap names: the first with its name and version. -/
def lookupCap (protocols : List Protocol) (cap : Cap) : Option Protocol :=
  protocols.find? fun proto => proto.name == cap.name && proto.version == cap.version

theorem lookupCap_cap {protocols : List Protocol} {cap : Cap} {p : Protocol}
    (h : lookupCap protocols cap = some p) : p ∈ protocols ∧ p.cap = cap := by
  have hp := List.find?_some h
  simp only [Bool.and_eq_true, beq_iff_eq] at hp
  refine ⟨List.mem_of_find?_eq_some h, ?_⟩
  cases cap
  simp [Protocol.cap, hp.1, hp.2]

theorem lookupCap_isSome_iff {protocols : List Protocol} {cap : Cap} :
    (lookupCap protocols cap).isSome ↔ cap ∈ protocols.map Protocol.cap := by
  simp only [lookupCap, List.find?_isSome, Bool.and_eq_true, beq_iff_eq, List.mem_map]
  constructor
  · rintro ⟨p, hp, hn, hv⟩
    exact ⟨p, hp, by cases cap; simp [Protocol.cap, hn, hv]⟩
  · rintro ⟨p, hp, rfl⟩
    exact ⟨p, hp, rfl, rfl⟩

/-- The offset a cap's protocol gets: the codes of an earlier version of its name are taken
back. -/
def takeBack (R : String → Option ProtoRW) (name : String) (offset : UInt64) : UInt64 :=
  match R name with
  | some old => offset - old.proto.length
  | none => offset

theorem matchCap_of_none {protocols : List Protocol} {cap : Cap}
    (h : lookupCap protocols cap = none) (st : (String → Option ProtoRW) × UInt64) :
    matchCap protocols st cap = st := by
  unfold matchCap
  rw [show protocols.find? _ = none from h]

theorem matchCap_of_some {protocols : List Protocol} {cap : Cap} {p : Protocol}
    (h : lookupCap protocols cap = some p) (R : String → Option ProtoRW) (o : UInt64) :
    matchCap protocols (R, o) cap =
      (Function.update R cap.name (some ⟨p, takeBack R cap.name o⟩),
        takeBack R cap.name o + p.length) := by
  unfold matchCap
  rw [show protocols.find? _ = some p from h]
  rfl

/-- A later version of the same name, right after an earlier one, takes the earlier one's codes
back: the two turns do what the second does alone. -/
theorem matchCap_matchCap_same {protocols : List Protocol} {c d : Cap} {p q : Protocol}
    (hc : lookupCap protocols c = some p) (hd : lookupCap protocols d = some q)
    (hname : c.name = d.name) {R : String → Option ProtoRW} (hR : R c.name = none) (o : UInt64) :
    matchCap protocols (matchCap protocols (R, o) c) d = matchCap protocols (R, o) d := by
  have hR' : R d.name = none := hname ▸ hR
  rw [matchCap_of_some hc, matchCap_of_some hd, matchCap_of_some hd]
  simp only [takeBack, hR', hname, Function.update_self, Function.update_idem,
    UInt64.add_sub_cancel]

/-! ## Caps no protocol has -/

/-- A cap that names no local protocol changes nothing. -/
theorem foldl_matchCap_filter (protocols : List Protocol) :
    ∀ (l : List Cap) (st : (String → Option ProtoRW) × UInt64),
      l.foldl (matchCap protocols) st =
        (l.filter fun c => (lookupCap protocols c).isSome).foldl (matchCap protocols) st
  | [], _ => rfl
  | c :: l, st => by
    cases h : lookupCap protocols c with
    | none =>
      rw [List.filter_cons_of_neg (by simp [h]), List.foldl_cons, matchCap_of_none h]
      exact foldl_matchCap_filter protocols l st
    | some p =>
      rw [List.filter_cons_of_pos (by simp [h]), List.foldl_cons, List.foldl_cons]
      exact foldl_matchCap_filter protocols l _

/-! ## The last version of each name -/

/-- Of caps sorted by name and version, the last cap of each name. -/
def select : List Cap → List Cap
  | [] => []
  | [c] => [c]
  | c :: d :: rest => if c.name = d.name then select (d :: rest) else c :: select (d :: rest)

theorem select_sublist : ∀ l : List Cap, (select l).Sublist l
  | [] => .slnil
  | [c] => .refl _
  | c :: d :: rest => by
    unfold select
    split
    · exact (select_sublist (d :: rest)).cons c
    · exact (select_sublist (d :: rest)).cons_cons c

/-- In sorted caps, a name after the first one's is greater than the first one's from there on. -/
theorem name_lt_of_pairwise {c d : Cap} {rest : List Cap} (hs : (c :: d :: rest).Pairwise (· ≤ ·))
    (hne : c.name ≠ d.name) : ∀ e ∈ d :: rest, c.name < e.name := by
  intro e he
  have hcd : c.name ≤ d.name := Cap.name_le_of_le (List.rel_of_pairwise_cons hs (by simp))
  have hde : d.name ≤ e.name := by
    rcases List.mem_cons.mp he with rfl | he
    · exact le_rfl
    · exact Cap.name_le_of_le (List.rel_of_pairwise_cons hs.of_cons he)
  exact lt_of_lt_of_le (lt_of_le_of_ne hcd hne) hde

/-- The caps `select` keeps of sorted caps: those no cap of the same name sorts after. -/
theorem mem_select : ∀ {l : List Cap}, l.Pairwise (· ≤ ·) → ∀ {x : Cap},
    x ∈ select l ↔ x ∈ l ∧ ∀ e ∈ l, e.name = x.name → e ≤ x
  | [], _, x => by simp [select]
  | [c], _, x => by
    simp only [select, List.mem_singleton]
    constructor
    · rintro rfl
      exact ⟨rfl, fun e he _ => le_of_eq he⟩
    · exact fun h => h.1
  | c :: d :: rest, hs, x => by
    have ih := @mem_select (d :: rest) hs.of_cons x
    have hcd : c ≤ d := List.rel_of_pairwise_cons hs (by simp)
    unfold select
    split
    · next hname =>
      rw [ih]
      constructor
      · rintro ⟨hx, hmax⟩
        refine ⟨List.mem_cons_of_mem c hx, fun e he hex => ?_⟩
        rcases List.mem_cons.mp he with rfl | he
        · -- the earlier version sorts before the later one, which is no later than `x`
          exact le_trans hcd (hmax _ (by simp) (hname ▸ hex))
        · exact hmax e he hex
      · rintro ⟨hx, hmax⟩
        rcases List.mem_cons.mp hx with rfl | hx
        · -- the two versions sort both ways, so they are one cap
          have hdx : d = x := le_antisymm (hmax d (by simp) hname.symm) hcd ▸ rfl
          subst hdx
          exact ⟨by simp, fun e he hex => hmax e (List.mem_cons_of_mem _ he) hex⟩
        · exact ⟨hx, fun e he hex => hmax e (List.mem_cons_of_mem _ he) hex⟩
    · next hname =>
      have hlt := name_lt_of_pairwise hs hname
      rw [List.mem_cons, ih]
      constructor
      · rintro (rfl | ⟨hx, hmax⟩)
        · refine ⟨by simp, fun e he hex => ?_⟩
          rcases List.mem_cons.mp he with rfl | he
          · exact le_rfl
          · exact absurd hex (hlt e he).ne'
        · refine ⟨List.mem_cons_of_mem c hx, fun e he hex => ?_⟩
          rcases List.mem_cons.mp he with rfl | he
          · exact absurd hex (hlt x hx).ne
          · exact hmax e he hex
      · rintro ⟨hx, hmax⟩
        rcases List.mem_cons.mp hx with rfl | hx
        · exact .inl rfl
        · exact .inr ⟨hx, fun e he hex => hmax e (List.mem_cons_of_mem _ he) hex⟩

/-- Every cap of sorted caps has a cap of its name that `select` keeps, sorting no earlier. -/
theorem exists_select_of_mem : ∀ {l : List Cap}, l.Pairwise (· ≤ ·) → ∀ {c : Cap}, c ∈ l →
    ∃ x ∈ select l, x.name = c.name ∧ c ≤ x
  | [], _, c, h => by cases h
  | [d], _, c, h => by
    rw [List.mem_singleton] at h
    subst h
    exact ⟨c, by simp [select], rfl, le_rfl⟩
  | d :: e :: rest, hs, c, h => by
    have hde : d ≤ e := List.rel_of_pairwise_cons hs (by simp)
    unfold select
    split
    · next hname =>
      rcases List.mem_cons.mp h with rfl | h
      · obtain ⟨x, hx, hxn, hex⟩ := exists_select_of_mem hs.of_cons (List.mem_cons_self ..)
        exact ⟨x, hx, hxn.trans hname.symm, le_trans hde hex⟩
      · exact exists_select_of_mem hs.of_cons h
    · rcases List.mem_cons.mp h with rfl | h
      · exact ⟨c, List.mem_cons_self .., rfl, le_rfl⟩
      · obtain ⟨x, hx, hxn, hcx⟩ := exists_select_of_mem hs.of_cons h
        exact ⟨x, List.mem_cons_of_mem _ hx, hxn, hcx⟩

/-- The caps `select` keeps of sorted caps have names in increasing order. -/
theorem pairwise_select : ∀ {l : List Cap}, l.Pairwise (· ≤ ·) →
    (select l).Pairwise (fun a b => a.name < b.name)
  | [], _ => .nil
  | [c], _ => List.pairwise_singleton _ c
  | c :: d :: rest, hs => by
    unfold select
    split
    · exact pairwise_select hs.of_cons
    · next hname =>
      have hlt := name_lt_of_pairwise hs hname
      exact .cons (fun e he => hlt e ((select_sublist _).subset he)) (pairwise_select hs.of_cons)

/-! ## The fold in closed form -/

/-- The protocols caps name. -/
def namedProtocols (protocols : List Protocol) (l : List Cap) : List Protocol :=
  l.filterMap (lookupCap protocols)

/-- The map `R` with a matched protocol for each of `entries`, at its offset. -/
def assign (R : String → Option ProtoRW) (entries : List (Protocol × UInt64)) :
    String → Option ProtoRW :=
  entries.foldl (fun R e => Function.update R e.1.name (some ⟨e.1, e.2⟩)) R

/-- From a map with no entry for their names, sorted caps that all name a local protocol give
the last protocol of each name the next range of codes. By recursion on the caps as `select`
takes them: an earlier version is undone by the next one (`matchCap_matchCap_same`), and a new
name takes the codes from the offset on. -/
theorem foldl_matchCap_fresh (protocols : List Protocol) : ∀ (l : List Cap)
    (R : String → Option ProtoRW) (o : UInt64), l.Pairwise (· ≤ ·) →
    (∀ c ∈ l, (lookupCap protocols c).isSome) → (∀ c ∈ l, R c.name = none) →
    l.foldl (matchCap protocols) (R, o) =
      (assign R (Layout.layout Protocol.length o (namedProtocols protocols (select l))),
        o + ((namedProtocols protocols (select l)).map Protocol.length).sum)
  | [], R, o, _, _, _ => by simp [select, namedProtocols, assign]
  | [c], R, o, _, hl, hR => by
    obtain ⟨p, hp⟩ := Option.isSome_iff_exists.mp (hl c (by simp))
    have hname : p.name = c.name := congrArg Cap.name (lookupCap_cap hp).2
    simp [select, namedProtocols, hp, assign, matchCap_of_some hp, takeBack, hR c, hname]
  | c :: d :: rest, R, o, hs, hl, hR => by
    obtain ⟨p, hp⟩ := Option.isSome_iff_exists.mp (hl c (by simp))
    obtain ⟨q, hq⟩ := Option.isSome_iff_exists.mp (hl d (by simp))
    have hl' : ∀ e ∈ d :: rest, (lookupCap protocols e).isSome :=
      fun e he => hl e (List.mem_cons_of_mem c he)
    by_cases hname : c.name = d.name
    · -- the next cap has the same name: it undoes this one
      have hstep := matchCap_matchCap_same hp hq hname (hR c (by simp)) o
      rw [List.foldl_cons, List.foldl_cons, hstep, ← List.foldl_cons,
        foldl_matchCap_fresh protocols (d :: rest) R o hs.of_cons hl'
          (fun e he => hR e (List.mem_cons_of_mem c he))]
      simp only [select, hname, if_true]
    · -- a new name: this cap's protocol takes the codes from `o` on
      have hpn : p.name = c.name := congrArg Cap.name (lookupCap_cap hp).2
      have hlt := name_lt_of_pairwise hs hname
      have hR' : ∀ e ∈ d :: rest,
          Function.update R c.name (some ⟨p, o⟩) e.name = none := fun e he => by
        rw [Function.update_of_ne (hlt e he).ne']
        exact hR e (List.mem_cons_of_mem c he)
      rw [List.foldl_cons, matchCap_of_some hp, takeBack, hR c (by simp)]
      dsimp only
      rw [foldl_matchCap_fresh protocols (d :: rest) _ _ hs.of_cons hl' hR']
      simp only [select, hname, if_false, namedProtocols, List.filterMap_cons, hp,
        Layout.layout_cons, assign, List.foldl_cons, hpn, List.map_cons, List.sum_cons,
        UInt64.add_assoc]

/-- The caps a side matches: those the other side advertises that name a local protocol, in
order. -/
def common (protocols : List Protocol) (caps : List Cap) : List Cap :=
  (sortCaps caps).filter fun c => (lookupCap protocols c).isSome

theorem mem_common {protocols : List Protocol} {caps : List Cap} {c : Cap} :
    c ∈ common protocols caps ↔ c ∈ caps ∧ c ∈ protocols.map Protocol.cap := by
  rw [common, List.mem_filter, (perm_sortCaps caps).mem_iff, lookupCap_isSome_iff]

theorem pairwise_common (protocols : List Protocol) (caps : List Cap) :
    (common protocols caps).Pairwise (· ≤ ·) :=
  (pairwise_sortCaps caps).filter _

/-- The protocols a side matches: those of the last version of each name in the caps it
matches. -/
def selected (protocols : List Protocol) (caps : List Cap) : List Protocol :=
  namedProtocols protocols (select (common protocols caps))

/-- The protocols a side matches, each with the start of its codes. -/
def entries (protocols : List Protocol) (caps : List Cap) : List (Protocol × UInt64) :=
  Layout.layout Protocol.length baseProtocolLength (selected protocols caps)

/-- `matchProtocols` in closed form: of the caps sorted, those that name a local protocol, the
last of each name, their protocols given consecutive ranges of codes from
`baseProtocolLength` on. -/
theorem matchProtocols_eq (protocols : List Protocol) (caps : List Cap) :
    matchProtocols protocols caps = assign (fun _ => none) (entries protocols caps) := by
  unfold matchProtocols entries selected common
  rw [foldl_matchCap_filter, foldl_matchCap_fresh protocols _ _ _
    ((pairwise_sortCaps caps).filter _) (fun c hc => by simpa using (List.mem_filter.mp hc).2)
    (fun _ _ => rfl)]

/-! ## Looking up the matched protocols -/

theorem assign_of_not_mem : ∀ {entries : List (Protocol × UInt64)} (R : String → Option ProtoRW)
    {name : String}, name ∉ entries.map (·.1.name) → assign R entries name = R name
  | [], _, _, _ => rfl
  | e :: es, R, name, h => by
    simp only [List.map_cons, List.mem_cons, not_or] at h
    rw [assign, List.foldl_cons, ← assign, assign_of_not_mem _ h.2, Function.update_of_ne h.1]

/-- With entries of distinct names, each name maps to its entry. -/
theorem assign_of_mem : ∀ {entries : List (Protocol × UInt64)} (R : String → Option ProtoRW),
    (entries.map (·.1.name)).Nodup → ∀ {p : Protocol} {o : UInt64}, (p, o) ∈ entries →
      assign R entries p.name = some ⟨p, o⟩
  | [], _, _, _, _, h => by cases h
  | e :: es, R, hd, p, o, h => by
    simp only [List.map_cons, List.nodup_cons] at hd
    rw [assign, List.foldl_cons, ← assign]
    rcases List.mem_cons.mp h with rfl | h
    · rw [assign_of_not_mem _ hd.1, Function.update_self]
    · exact assign_of_mem _ hd.2 h

/-- The matched protocol of a name, in a map made from entries of distinct names. -/
theorem assign_eq_some_iff {entries : List (Protocol × UInt64)}
    (hd : (entries.map (·.1.name)).Nodup) {name : String} {rw : ProtoRW} :
    assign (fun _ => none) entries name = some rw ↔
      (rw.proto, rw.offset) ∈ entries ∧ rw.proto.name = name := by
  constructor
  · intro h
    by_cases hn : name ∈ entries.map (·.1.name)
    · obtain ⟨⟨p, o⟩, hpo, rfl⟩ := List.mem_map.mp hn
      rw [assign_of_mem _ hd hpo, Option.some.injEq] at h
      subst h
      exact ⟨hpo, rfl⟩
    · rw [assign_of_not_mem _ hn] at h
      cases h
  · rintro ⟨h, rfl⟩
    exact assign_of_mem _ hd h

/-- The names of the matched protocols increase along the list. -/
theorem pairwise_selected (protocols : List Protocol) (caps : List Cap) :
    (selected protocols caps).Pairwise (fun a b => a.name < b.name) := by
  unfold selected namedProtocols
  refine List.Pairwise.filterMap _ (fun a b hab p hp q hq => ?_)
    (pairwise_select (pairwise_common protocols caps))
  have hpa : p.name = a.name := congrArg Cap.name (lookupCap_cap hp).2
  have hqb : q.name = b.name := congrArg Cap.name (lookupCap_cap hq).2
  rw [hpa, hqb]
  exact hab

theorem mem_selected {protocols : List Protocol} {caps : List Cap} {p : Protocol}
    (h : p ∈ selected protocols caps) :
    ∃ c ∈ select (common protocols caps), lookupCap protocols c = some p :=
  List.mem_filterMap.mp h

theorem mem_selected_of_mem_entries {protocols : List Protocol} {caps : List Cap}
    {e : Protocol × UInt64} (h : e ∈ entries protocols caps) : e.1 ∈ selected protocols caps := by
  rw [← Layout.map_fst_layout Protocol.length baseProtocolLength (selected protocols caps)]
  exact List.mem_map_of_mem h

/-- The names of the entries increase along the list. -/
theorem pairwise_entries (protocols : List Protocol) (caps : List Cap) :
    (entries protocols caps).Pairwise (fun a b => a.1.name < b.1.name) := by
  have := congrArg (List.Pairwise fun a b : Protocol => a.name < b.name)
    (Layout.map_fst_layout Protocol.length baseProtocolLength (selected protocols caps))
  rw [List.pairwise_map] at this
  exact this.mpr (pairwise_selected protocols caps)

theorem nodup_entries (protocols : List Protocol) (caps : List Cap) :
    ((entries protocols caps).map (·.1.name)).Nodup :=
  List.pairwise_map.mpr ((pairwise_entries protocols caps).imp ne_of_lt)

/-- The matched protocol of a name: an entry of that name. -/
theorem matchProtocols_eq_some_iff {protocols : List Protocol} {caps : List Cap} {name : String}
    {rw : ProtoRW} : matchProtocols protocols caps name = some rw ↔
      (rw.proto, rw.offset) ∈ entries protocols caps ∧ rw.proto.name = name := by
  rw [matchProtocols_eq]
  exact assign_eq_some_iff (nodup_entries protocols caps)

theorem assign_eq_find {entries : List (Protocol × UInt64)} (hd : (entries.map (·.1.name)).Nodup)
    (name : String) :
    assign (fun _ => none) entries name =
      (entries.find? fun e => e.1.name == name).map fun e => ⟨e.1, e.2⟩ := by
  cases h : entries.find? fun e => e.1.name == name with
  | some e =>
    have he := List.find?_some h
    simp only [beq_iff_eq] at he
    rw [← he]
    exact assign_of_mem _ hd (List.mem_of_find?_eq_some h)
  | none =>
    refine assign_of_not_mem _ fun hn => ?_
    obtain ⟨e, he, rfl⟩ := List.mem_map.mp hn
    have := List.find?_eq_none.mp h e he
    simp at this

/-- The protocol matched for a name runs one of the caps advertised, of that name, and no local
protocol of the name with an advertised cap has a higher version. -/
theorem matchProtocols_eq_some {protocols : List Protocol} {caps : List Cap} {name : String}
    {rw : ProtoRW} (h : matchProtocols protocols caps name = some rw) :
    rw.proto ∈ protocols ∧ rw.proto.cap ∈ caps ∧ rw.proto.name = name ∧
      ∀ p ∈ protocols, p.cap ∈ caps → p.name = name → p.version ≤ rw.proto.version := by
  obtain ⟨hmem, hname⟩ := matchProtocols_eq_some_iff.mp h
  obtain ⟨c, hc, hlook⟩ := mem_selected (mem_selected_of_mem_entries hmem)
  obtain ⟨hproto, hcap⟩ := lookupCap_cap hlook
  have hcs := (mem_select (pairwise_common protocols caps)).mp hc
  refine ⟨hproto, hcap ▸ (mem_common.mp hcs.1).1, hname, fun p hp hpc hpn => ?_⟩
  have hpcom : p.cap ∈ common protocols caps := mem_common.mpr ⟨hpc, List.mem_map_of_mem hp⟩
  have hpn' : p.cap.name = c.name := by
    rw [← hcap]
    exact hpn.trans hname.symm
  have := Cap.version_le_of_le (hcs.2 _ hpcom hpn') hpn'
  rw [← hcap] at this
  exact this

/-- No protocol is matched for a name exactly when no local protocol of the name has an
advertised cap. -/
theorem matchProtocols_eq_none {protocols : List Protocol} {caps : List Cap} {name : String} :
    matchProtocols protocols caps name = none ↔
      ∀ p ∈ protocols, p.cap ∈ caps → p.name ≠ name := by
  constructor
  · intro h p hp hpc hpn
    have hpcom : p.cap ∈ common protocols caps := mem_common.mpr ⟨hpc, List.mem_map_of_mem hp⟩
    obtain ⟨x, hx, hxn, -⟩ := exists_select_of_mem (pairwise_common protocols caps) hpcom
    obtain ⟨q, hq⟩ := Option.isSome_iff_exists.mp
      (lookupCap_isSome_iff.mpr (mem_common.mp ((select_sublist _).subset hx)).2)
    have hqn : q.name = name := by
      rw [← hpn]
      exact (congrArg Cap.name (lookupCap_cap hq).2).trans hxn
    obtain ⟨o, ho⟩ := Layout.exists_mem_layout Protocol.length baseProtocolLength
      (show q ∈ selected protocols caps from List.mem_filterMap.mpr ⟨x, hx, hq⟩)
    have := matchProtocols_eq_some_iff.mpr (show ((⟨q, o⟩ : ProtoRW).proto, o) ∈ _ ∧ _ from
      ⟨ho, hqn⟩)
    rw [h] at this
    cases this
  · intro h
    cases hm : matchProtocols protocols caps name with
    | none => rfl
    | some rw =>
      obtain ⟨hp, hpc, hpn, -⟩ := matchProtocols_eq_some hm
      exact absurd hpn (h _ hp hpc)

/-! ## The codes of the matched protocols -/

/-- The total length of the matched protocols, above the base protocol's codes. -/
def codeSpace (protocols : List Protocol) (caps : List Cap) : Nat :=
  baseProtocolLength.toNat + ((selected protocols caps).map fun p => p.length.toNat).sum

/-- The matched protocols are some of the local ones, each once. -/
theorem sum_selected_le (protocols : List Protocol) (caps : List Cap) :
    ((selected protocols caps).map fun p => p.length.toNat).sum ≤
      (protocols.map fun p => p.length.toNat).sum := by
  have hnd : (selected protocols caps).Nodup :=
    (pairwise_selected protocols caps).imp fun h e => h.ne (congrArg Protocol.name e)
  have hsub : selected protocols caps ⊆ protocols := fun p hp => by
    obtain ⟨c, -, hc⟩ := mem_selected hp
    exact (lookupCap_cap hc).1
  obtain ⟨l, hperm, hl⟩ := List.subperm_of_subset hnd hsub
  rw [← (hperm.map _).sum_eq]
  exact (hl.map _).sum_le_sum fun _ _ => Nat.zero_le _

section
variable {protocols : List Protocol} {caps : List Cap}

/-- While the codes fit in 64 bits, the entries are the layout of the lengths in naturals. -/
theorem entries_toNat (hfit : codeSpace protocols caps < 2 ^ 64) :
    (entries protocols caps).map (fun e => (e.1, e.2.toNat)) =
      Layout.layout (fun p => p.length.toNat) baseProtocolLength.toNat
        (selected protocols caps) :=
  Layout.layout_toNat _ _ _ hfit

theorem mem_layout_of_mem_entries (hfit : codeSpace protocols caps < 2 ^ 64)
    {e : Protocol × UInt64} (he : e ∈ entries protocols caps) :
    (e.1, e.2.toNat) ∈ Layout.layout (fun p => p.length.toNat) baseProtocolLength.toNat
      (selected protocols caps) := by
  rw [← entries_toNat hfit]
  exact List.mem_map_of_mem he

/-- A matched protocol's codes are above the base protocol's and below 2^64. -/
theorem range_of_mem_entries (hfit : codeSpace protocols caps < 2 ^ 64)
    {e : Protocol × UInt64} (he : e ∈ entries protocols caps) :
    baseProtocolLength.toNat ≤ e.2.toNat ∧ e.2.toNat + e.1.length.toNat < 2 ^ 64 := by
  have := Layout.mem_layout _ (mem_layout_of_mem_entries hfit he)
  unfold codeSpace at hfit
  omega

/-- Two matched protocols have disjoint codes. -/
theorem disjoint_of_mem_entries (hfit : codeSpace protocols caps < 2 ^ 64)
    {e e' : Protocol × UInt64} (he : e ∈ entries protocols caps)
    (he' : e' ∈ entries protocols caps) (hne : e ≠ e') :
    e.2.toNat + e.1.length.toNat ≤ e'.2.toNat ∨ e'.2.toNat + e'.1.length.toNat ≤ e.2.toNat :=
  Layout.disjoint_layout _ (mem_layout_of_mem_entries hfit he)
    (mem_layout_of_mem_entries hfit he') fun h =>
      hne (Prod.ext (Prod.mk.inj h).1 (UInt64.toNat_inj.mp (Prod.mk.inj h).2))

end

/-! ## Routing -/

/-- The running protocols of a side, listed in the order Go iterates over its map. -/
def Enumerates (running : List ProtoRW) (M : String → Option ProtoRW) : Prop :=
  ∀ rw, rw ∈ running ↔ ∃ name, M name = some rw

/-- `find?` finds the one element that passes. -/
theorem find?_eq_some_of_unique {α : Type} {l : List α} {p : α → Bool} {x : α} (hx : x ∈ l)
    (hp : p x = true) (hu : ∀ y ∈ l, p y = true → y = x) : l.find? p = some x := by
  cases h : l.find? p with
  | none => exact absurd hp (by simpa using List.find?_eq_none.mp h x hx)
  | some y => rw [hu y (List.mem_of_find?_eq_some h) (List.find?_some h)]

section
variable {protocols : List Protocol} {caps : List Cap}

/-- `getProto`'s test on a matched protocol, in naturals. -/
theorem inRange_iff (hfit : codeSpace protocols caps < 2 ^ 64) {name : String} {rw : ProtoRW}
    (h : matchProtocols protocols caps name = some rw) (code : UInt64) :
    (code ≥ rw.offset && code < rw.offset + rw.proto.length) = true ↔
      rw.offset.toNat ≤ code.toNat ∧ code.toNat < rw.offset.toNat + rw.proto.length.toNat := by
  have hr := range_of_mem_entries hfit (matchProtocols_eq_some_iff.mp h).1
  dsimp only at hr
  have hadd : (rw.offset + rw.proto.length).toNat = rw.offset.toNat + rw.proto.length.toNat := by
    rw [UInt64.toNat_add]
    omega
  simp only [Bool.and_eq_true, decide_eq_true_eq, ge_iff_le, UInt64.le_iff_toNat_le,
    UInt64.lt_iff_toNat_lt, hadd]

/-- A code in the range of a matched protocol is that protocol's, in whatever order the running
protocols are listed: the ranges are disjoint. -/
theorem getProto_of_range (hfit : codeSpace protocols caps < 2 ^ 64) {running : List ProtoRW}
    (hrun : Enumerates running (matchProtocols protocols caps)) {name : String} {rw : ProtoRW}
    (h : matchProtocols protocols caps name = some rw) {code : UInt64}
    (hlo : rw.offset.toNat ≤ code.toNat)
    (hhi : code.toNat < rw.offset.toNat + rw.proto.length.toNat) :
    getProto running code = .ok rw := by
  unfold getProto
  rw [find?_eq_some_of_unique ((hrun rw).mpr ⟨name, h⟩) ((inRange_iff hfit h code).mpr ⟨hlo, hhi⟩)
    fun y hy hpy => ?_]
  obtain ⟨n', hn'⟩ := (hrun y).mp hy
  have hy' := (inRange_iff hfit hn' code).mp hpy
  by_contra hne
  have hne' : (y.proto, y.offset) ≠ (rw.proto, rw.offset) := fun he => by
    obtain ⟨e₁, e₂⟩ := Prod.mk.inj he
    exact hne (by cases y; cases rw; simp_all)
  rcases disjoint_of_mem_entries hfit (matchProtocols_eq_some_iff.mp hn').1
    (matchProtocols_eq_some_iff.mp h).1 hne' with hd | hd <;> (dsimp only at hd; omega)

/-- `handle` rejects a subprotocol code outside every matched protocol's codes. -/
theorem handle_outside {running : List ProtoRW}
    (hrun : Enumerates running (matchProtocols protocols caps)) {code : UInt64}
    (hbase : baseProtocolLength ≤ code)
    (hout : ∀ name rw, matchProtocols protocols caps name = some rw →
      ¬ (rw.offset ≤ code ∧ code < rw.offset + rw.proto.length)) :
    handle running code = .error (.msgCodeOutOfRange code) := by
  have hnone : running.find?
      (fun proto => code ≥ proto.offset && code < proto.offset + proto.proto.length) = none := by
    refine List.find?_eq_none.mpr fun y hy hpy => ?_
    obtain ⟨n, hn⟩ := (hrun y).mp hy
    simp only [Bool.and_eq_true, decide_eq_true_eq, ge_iff_le] at hpy
    exact hout n y hn hpy
  have h16 : ¬ code < baseProtocolLength := by
    rw [UInt64.lt_iff_toNat_lt]
    exact not_lt.mpr (UInt64.le_iff_toNat_le.mp hbase)
  have h2 : code ≠ pingMsg := fun h => by subst h; exact absurd hbase (by decide)
  have h1 : code ≠ discMsg := fun h => by subst h; exact absurd hbase (by decide)
  simp only [handle, getProto, hnone, h2, h1, h16, if_false]

end

/-! ## Both sides of a connection -/

/-- Caps advertised for protocols: the protocols' caps, in any order and with any repeats. -/
def Advertises (caps : List Cap) (protocols : List Protocol) : Prop :=
  ∀ c, c ∈ caps ↔ c ∈ protocols.map Protocol.cap

/-- The cap and length of a protocol: what two sides of a connection compare. -/
def Protocol.shape (p : Protocol) : Cap × UInt64 := (p.cap, p.length)

section
variable {PA PB : List Protocol} {CA CB : List Cap}

theorem mem_common_comm (hCA : Advertises CA PA) (hCB : Advertises CB PB) {c : Cap} :
    c ∈ common PA CB ↔ c ∈ common PB CA := by
  rw [mem_common, mem_common, hCB, hCA, and_comm]

/-- Both sides select the same caps: the last version of each name both run. -/
theorem select_common_eq (hCA : Advertises CA PA) (hCB : Advertises CB PB) :
    select (common PA CB) = select (common PB CA) := by
  have hlt : ∀ {l : List Cap}, l.Pairwise (· ≤ ·) → (select l).Pairwise (· < ·) := fun hs =>
    (pairwise_select hs).imp fun h => Cap.lt_iff.mpr (.inl h)
  refine List.Pairwise.eq_of_mem_iff (hlt (pairwise_common PA CB))
    (hlt (pairwise_common PB CA)) fun x => ?_
  rw [mem_select (pairwise_common PA CB), mem_select (pairwise_common PB CA)]
  simp only [mem_common_comm hCA hCB]

/-- The protocols both sides name for caps both run have the same caps and lengths. -/
theorem namedProtocols_shape
    (hlen : ∀ pa ∈ PA, ∀ pb ∈ PB, pa.cap = pb.cap → pa.length = pb.length) :
    ∀ {l : List Cap}, (∀ c ∈ l, c ∈ PA.map Protocol.cap ∧ c ∈ PB.map Protocol.cap) →
      (namedProtocols PA l).map Protocol.shape = (namedProtocols PB l).map Protocol.shape
  | [], _ => rfl
  | c :: l, h => by
    obtain ⟨hA, hB⟩ := h c (by simp)
    obtain ⟨pa, hpa⟩ := Option.isSome_iff_exists.mp (lookupCap_isSome_iff.mpr hA)
    obtain ⟨pb, hpb⟩ := Option.isSome_iff_exists.mp (lookupCap_isSome_iff.mpr hB)
    obtain ⟨hpaA, hpac⟩ := lookupCap_cap hpa
    obtain ⟨hpbB, hpbc⟩ := lookupCap_cap hpb
    have hshape : pa.shape = pb.shape := by
      rw [Protocol.shape, Protocol.shape, hpac, hpbc, hlen pa hpaA pb hpbB (hpac.trans hpbc.symm)]
    simp only [namedProtocols, List.filterMap_cons, hpa, hpb, List.map_cons] at h ⊢
    rw [hshape]
    exact congrArg _ (namedProtocols_shape hlen fun c hc => h c (List.mem_cons_of_mem _ hc))

/-- Both sides match protocols of the same caps and lengths, in the same order. -/
theorem selected_shape (hCA : Advertises CA PA) (hCB : Advertises CB PB)
    (hlen : ∀ pa ∈ PA, ∀ pb ∈ PB, pa.cap = pb.cap → pa.length = pb.length) :
    (selected PA CB).map Protocol.shape = (selected PB CA).map Protocol.shape := by
  unfold selected
  rw [select_common_eq hCA hCB]
  refine namedProtocols_shape hlen fun c hc => ?_
  obtain ⟨hc, hcB⟩ := mem_common.mp ((select_sublist _).subset hc)
  exact ⟨(hCA c).mp hc, hcB⟩

/-- Both sides give the same caps, with the same lengths, the same codes. -/
theorem entries_shape (hCA : Advertises CA PA) (hCB : Advertises CB PB)
    (hlen : ∀ pa ∈ PA, ∀ pb ∈ PB, pa.cap = pb.cap → pa.length = pb.length) :
    (entries PA CB).map (fun e => (e.1.shape, e.2)) =
      (entries PB CA).map (fun e => (e.1.shape, e.2)) := by
  unfold entries
  rw [Layout.layout_map Protocol.length Protocol.shape Prod.snd (fun _ => rfl),
    Layout.layout_map Protocol.length Protocol.shape Prod.snd (fun _ => rfl),
    selected_shape hCA hCB hlen]

/-- The two sides match the same protocols for each name, with the same versions, lengths and
offsets. -/
theorem matchProtocols_agree (hCA : Advertises CA PA) (hCB : Advertises CB PB)
    (hlen : ∀ pa ∈ PA, ∀ pb ∈ PB, pa.cap = pb.cap → pa.length = pb.length) (name : String) :
    (matchProtocols PA CB name).map (fun rw => (rw.proto.shape, rw.offset)) =
      (matchProtocols PB CA name).map (fun rw => (rw.proto.shape, rw.offset)) := by
  -- what a side finds for the name is what it finds in the shapes of its entries
  have hfind : ∀ l : List (Protocol × UInt64),
      ((l.find? fun e => e.1.name == name).map fun e => (⟨e.1, e.2⟩ : ProtoRW)).map
          (fun rw => (rw.proto.shape, rw.offset)) =
        (l.map fun e => (e.1.shape, e.2)).find? fun s => s.1.1.name == name := by
    intro l
    rw [Option.map_map, List.find?_map]
    rfl
  rw [matchProtocols_eq, matchProtocols_eq, assign_eq_find (nodup_entries PA CB),
    assign_eq_find (nodup_entries PB CA), hfind, hfind, entries_shape hCA hCB hlen]

/-- The two sides have the same code space. -/
theorem codeSpace_eq (hCA : Advertises CA PA) (hCB : Advertises CB PB)
    (hlen : ∀ pa ∈ PA, ∀ pb ∈ PB, pa.cap = pb.cap → pa.length = pb.length) :
    codeSpace PA CB = codeSpace PB CA := by
  have h := congrArg (List.map fun s : Cap × UInt64 => s.2.toNat) (selected_shape hCA hCB hlen)
  simp only [List.map_map] at h
  unfold codeSpace
  exact congrArg _ (congrArg List.sum h)

/-- A message written with a code of a protocol matched on one side is delivered by the other
side's `handle` to the protocol it matched for the name, which reads the code back. -/
theorem handle_writeMsg (hCA : Advertises CA PA) (hCB : Advertises CB PB)
    (hlen : ∀ pa ∈ PA, ∀ pb ∈ PB, pa.cap = pb.cap → pa.length = pb.length)
    (hfit : codeSpace PA CB < 2 ^ 64) {running : List ProtoRW}
    (hrun : Enumerates running (matchProtocols PB CA)) {name : String} {rwA : ProtoRW}
    (hA : matchProtocols PA CB name = some rwA) {code : UInt64} (hc : code < rwA.proto.length) :
    ∃ rwB, matchProtocols PB CA name = some rwB ∧ rwB.proto.shape = rwA.proto.shape ∧
      rwA.writeMsg code = .ok (code + rwA.offset) ∧
      handle running (code + rwA.offset) = .ok (.delivered rwB) ∧
      rwB.readMsg (code + rwA.offset) = code := by
  -- the other side matched the same protocol for the name, at the same offset
  have hagree := matchProtocols_agree hCA hCB hlen name
  rw [hA] at hagree
  obtain ⟨rwB, hB, hsame⟩ : ∃ rwB, matchProtocols PB CA name = some rwB ∧
      (rwB.proto.shape, rwB.offset) = (rwA.proto.shape, rwA.offset) := by
    cases hB : matchProtocols PB CA name with
    | none => rw [hB] at hagree; cases hagree
    | some rwB => rw [hB] at hagree; exact ⟨rwB, rfl, (Option.some.inj hagree).symm⟩
  obtain ⟨hshape, hoff⟩ := Prod.mk.inj hsame
  have hlenB : rwB.proto.length = rwA.proto.length := congrArg Prod.snd hshape
  -- the code sent, in naturals
  have hrA := range_of_mem_entries hfit (matchProtocols_eq_some_iff.mp hA).1
  dsimp only at hrA
  have hcn : code.toNat < rwA.proto.length.toNat := UInt64.lt_iff_toNat_lt.mp hc
  have hsent : (code + rwA.offset).toNat = code.toNat + rwA.offset.toNat := by
    rw [UInt64.toNat_add]
    omega
  have hfitB : codeSpace PB CA < 2 ^ 64 := codeSpace_eq hCA hCB hlen ▸ hfit
  have hget : getProto running (code + rwA.offset) = .ok rwB :=
    getProto_of_range hfitB hrun hB (by rw [hoff, hsent]; omega)
      (by rw [hoff, hlenB, hsent]; omega)
  have hbase : ¬ code + rwA.offset < baseProtocolLength := by
    rw [UInt64.lt_iff_toNat_lt, hsent]
    omega
  have h2 : code + rwA.offset ≠ pingMsg := fun h => hbase (h ▸ by decide)
  have h1 : code + rwA.offset ≠ discMsg := fun h => hbase (h ▸ by decide)
  have hwrite : ¬ code ≥ rwA.proto.length := by
    rw [ge_iff_le, UInt64.le_iff_toNat_le]
    omega
  refine ⟨rwB, hB, hshape, if_neg hwrite, ?_, ?_⟩
  · simp only [handle, hget, h2, h1, hbase, if_false]
  · rw [ProtoRW.readMsg, hoff, UInt64.add_sub_cancel]

/-- The codes of the local protocols fit in 64 bits: so do those of the matched ones. -/
theorem codeSpace_lt (hfit : baseProtocolLength.toNat + (PA.map fun p => p.length.toNat).sum < 2 ^ 64) :
    codeSpace PA CB < 2 ^ 64 := by
  have := sum_selected_le PA CB
  unfold codeSpace
  omega

/-- Two peers whose advertised caps are those of their protocols, protocols of one name and
version having one length on both sides, and whose local codes fit in 64 bits: both sides match,
for each name both run, the highest version both run, at the same offset; the matched protocols,
in name order, take consecutive ranges of codes from `baseProtocolLength` on, disjoint and below
2^64; a message written with a code of a matched protocol on either side is delivered by the other
side's `handle` to the protocol it matched for the name and read back with its code, in whatever
order the other side lists its running protocols; and a code above the base protocol's outside
every range is rejected. -/
theorem match_protocols_agree_and_route (hCA : Advertises CA PA) (hCB : Advertises CB PB)
    (hlen : ∀ pa ∈ PA, ∀ pb ∈ PB, pa.cap = pb.cap → pa.length = pb.length)
    (hfit : baseProtocolLength.toNat + (PA.map fun p => p.length.toNat).sum < 2 ^ 64) :
    -- the same protocol of the highest common version, at the same offset, on both sides
    (∀ name, (matchProtocols PA CB name).map (fun rw => (rw.proto.shape, rw.offset)) =
      (matchProtocols PB CA name).map (fun rw => (rw.proto.shape, rw.offset))) ∧
    (∀ name rw, matchProtocols PA CB name = some rw →
      rw.proto ∈ PA ∧ rw.proto.cap ∈ PB.map Protocol.cap ∧ rw.proto.name = name ∧
        ∀ p ∈ PA, p.cap ∈ PB.map Protocol.cap → p.name = name → p.version ≤ rw.proto.version) ∧
    (∀ name, matchProtocols PA CB name = none ↔
      ∀ p ∈ PA, p.cap ∈ PB.map Protocol.cap → p.name ≠ name) ∧
    -- consecutive ranges in name order from `baseProtocolLength` on, disjoint and below 2^64
    (∃ L : List (Protocol × UInt64),
      (∀ name rw, matchProtocols PA CB name = some rw ↔
        (rw.proto, rw.offset) ∈ L ∧ rw.proto.name = name) ∧
      L.Pairwise (fun a b => a.1.name < b.1.name) ∧
      (∀ e, L.head? = some e → e.2 = baseProtocolLength) ∧
      L.IsChain (fun a b => b.2 = a.2 + a.1.length)) ∧
    (∀ name₁ name₂ rw₁ rw₂, matchProtocols PA CB name₁ = some rw₁ →
      matchProtocols PA CB name₂ = some rw₂ → name₁ ≠ name₂ →
        rw₁.offset.toNat + rw₁.proto.length.toNat ≤ rw₂.offset.toNat ∨
          rw₂.offset.toNat + rw₂.proto.length.toNat ≤ rw₁.offset.toNat) ∧
    (∀ name rw, matchProtocols PA CB name = some rw →
      baseProtocolLength ≤ rw.offset ∧ rw.offset.toNat + rw.proto.length.toNat < 2 ^ 64) ∧
    -- routing, both ways
    (∀ running, Enumerates running (matchProtocols PB CA) → ∀ name rwA code,
      matchProtocols PA CB name = some rwA → code < rwA.proto.length →
        ∃ rwB, matchProtocols PB CA name = some rwB ∧ rwB.proto.shape = rwA.proto.shape ∧
          rwA.writeMsg code = .ok (code + rwA.offset) ∧
          handle running (code + rwA.offset) = .ok (.delivered rwB) ∧
          rwB.readMsg (code + rwA.offset) = code) ∧
    (∀ running, Enumerates running (matchProtocols PA CB) → ∀ name rwB code,
      matchProtocols PB CA name = some rwB → code < rwB.proto.length →
        ∃ rwA, matchProtocols PA CB name = some rwA ∧ rwA.proto.shape = rwB.proto.shape ∧
          rwB.writeMsg code = .ok (code + rwB.offset) ∧
          handle running (code + rwB.offset) = .ok (.delivered rwA) ∧
          rwA.readMsg (code + rwB.offset) = code) ∧
    -- a code of no range is rejected
    (∀ running, Enumerates running (matchProtocols PB CA) → ∀ code, baseProtocolLength ≤ code →
      (∀ name rw, matchProtocols PB CA name = some rw →
        ¬ (rw.offset ≤ code ∧ code < rw.offset + rw.proto.length)) →
      handle running code = .error (.msgCodeOutOfRange code)) := by
  have hspace : codeSpace PA CB < 2 ^ 64 := codeSpace_lt hfit
  have hlen' : ∀ pb ∈ PB, ∀ pa ∈ PA, pb.cap = pa.cap → pb.length = pa.length :=
    fun pb hpb pa hpa h => (hlen pa hpa pb hpb h.symm).symm
  refine ⟨matchProtocols_agree hCA hCB hlen, fun name rw h => ?_, fun name => ?_,
    ⟨entries PA CB, fun name rw => matchProtocols_eq_some_iff, pairwise_entries PA CB,
      fun e he => ?_, Layout.isChain_layout _ _ _⟩, fun n₁ n₂ r₁ r₂ h₁ h₂ hne => ?_,
    fun name rw h => ?_, fun running hrun name rwA code hA hc =>
      handle_writeMsg hCA hCB hlen hspace hrun hA hc,
    fun running hrun name rwB code hB hc =>
      handle_writeMsg hCB hCA hlen' (codeSpace_eq hCA hCB hlen ▸ hspace) hrun hB hc,
    fun running hrun code hbase hout => handle_outside hrun hbase hout⟩
  · -- the highest common version
    obtain ⟨hp, hpc, hpn, hmax⟩ := matchProtocols_eq_some h
    exact ⟨hp, (hCB _).mp hpc, hpn, fun p hp' hpc' => hmax p hp' ((hCB _).mpr hpc')⟩
  · rw [matchProtocols_eq_none]
    exact forall₂_congr fun p _ => by rw [hCB]
  · -- the first range starts at `baseProtocolLength`
    have := Layout.head?_layout Protocol.length baseProtocolLength (selected PA CB)
    rw [show (Layout.layout Protocol.length baseProtocolLength (selected PA CB)).head? = some e
      from he] at this
    cases hs : (selected PA CB).head? with
    | none => rw [hs] at this; cases this
    | some p => rw [hs] at this; exact (Option.some.inj this)
  · have hne' : (r₁.proto, r₁.offset) ≠ (r₂.proto, r₂.offset) := fun he =>
      hne ((matchProtocols_eq_some_iff.mp h₁).2.symm.trans
        ((congrArg (·.1.name) he).trans (matchProtocols_eq_some_iff.mp h₂).2))
    exact disjoint_of_mem_entries hspace (matchProtocols_eq_some_iff.mp h₁).1
      (matchProtocols_eq_some_iff.mp h₂).1 hne'
  · have hr := range_of_mem_entries hspace (matchProtocols_eq_some_iff.mp h).1
    exact ⟨UInt64.le_iff_toNat_le.mpr hr.1, hr.2⟩

end

/-- Peers running eth/62 and eth/63, and eth/63 and les/1: both sides match the same protocol
for eth. -/
theorem match_protocols_agree_and_route_eth :
    (matchProtocols [⟨"eth", 62, 8⟩, ⟨"eth", 63, 17⟩] [⟨"eth", 63⟩, ⟨"les", 1⟩] "eth").map
        (fun rw => (rw.proto.shape, rw.offset)) =
      (matchProtocols [⟨"eth", 63, 17⟩, ⟨"les", 1, 15⟩] [⟨"eth", 62⟩, ⟨"eth", 63⟩] "eth").map
        (fun rw => (rw.proto.shape, rw.offset)) :=
  (@match_protocols_agree_and_route [⟨"eth", 62, 8⟩, ⟨"eth", 63, 17⟩]
    [⟨"eth", 63, 17⟩, ⟨"les", 1, 15⟩] [⟨"eth", 62⟩, ⟨"eth", 63⟩] [⟨"eth", 63⟩, ⟨"les", 1⟩]
    (fun _ => Iff.rfl) (fun _ => Iff.rfl) (by decide) (by decide)).1 "eth"

/-- A protocol of 2^64 - 1 codes on both sides: its codes are matched from offset 16 on, but the
range wraps around, and the other side's `handle` rejects the message of code 0, sent as 16. -/
theorem match_protocols_wrapping_length :
    matchProtocols [⟨"a", 1, 0xFFFFFFFFFFFFFFFF⟩] [⟨"a", 1⟩] "a" =
        some ⟨⟨"a", 1, 0xFFFFFFFFFFFFFFFF⟩, 16⟩ ∧
      (∀ name, name ≠ "a" → matchProtocols [⟨"a", 1, 0xFFFFFFFFFFFFFFFF⟩] [⟨"a", 1⟩] name = none) ∧
      (⟨⟨"a", 1, 0xFFFFFFFFFFFFFFFF⟩, 16⟩ : ProtoRW).writeMsg 0 = .ok 16 ∧
      handle [⟨⟨"a", 1, 0xFFFFFFFFFFFFFFFF⟩, 16⟩] 16 = .error (.msgCodeOutOfRange 16) := by
  refine ⟨?_, fun name hname => ?_, by decide, by decide⟩
  · simp [matchProtocols, sortCaps, matchCap, baseProtocolLength]
  · simp [matchProtocols, sortCaps, matchCap, Function.update_of_ne hname]

end GoGaia.P2p
