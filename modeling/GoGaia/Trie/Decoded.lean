import GoGaia.Trie.Hash
import GoGaia.Trie.Stored

/-!
# Stored nodes read back

A commit writes each node it hashes under its hash, marks it clean, and may later replace a clean
node by a hash node (`trie/hasher.go:54`); a walk resolves the hash node again from the database
(`resolveHash`). This module shows that the round trip keeps a trie canonical.

The encoding of a clean canonical node decodes to `(collapse keccak n).decoded` (the codec round
trip of `Stored`), and that node is canonical for the same contents (`Canon.decoded`): a child
stored under its hash comes back as a hash node, an embedded child is decoded in turn, and a nil
child as nil, and the decoded node's flags keep their promises. A hash node for a clean node
stored under its cached hash is therefore canonical (`Canon.hash_of_stored`).

The proof follows `Canon`; the children are the work of `Canon.refDecoded`, which uses the
induction hypothesis for a child stored under its hash as well as for an embedded one. Canonical
nodes stay canonical over a database that agrees with theirs (`Canon.mono`), as a commit's
database does once no two writes collide.
-/

namespace GoGaia.Patricia

section
variable {keccak : List UInt8 → List UInt8} {db db' : MemDatabase}

/-! ## A larger database -/

theorem FlagsOk.mono (hag : Agrees db db') {b : Bool} {n : Node} {f : NodeFlag}
    (hf : FlagsOk keccak db b n f) : FlagsOk keccak db' b n f :=
  ⟨hf.hash_eq, hf.hash_size, fun hd hh h => hag _ _ (hf.stored hd hh h), hf.embedded,
    hf.clean_children⟩

/-- A canonical node over a database is canonical over every database that agrees with it. -/
theorem Canon.mono (hag : Agrees db db') {b : Bool} {n : Node} {m : Contents}
    (hc : Canon keccak db b n m) : Canon keccak db' b n m := by
  induction hc with
  | nil b => exact .nil b
  | leaf b ns hns w hw f hf => exact .leaf b ns hns w hw f (hf.mono hag)
  | ext b ns hns hne c mc _ hbr f hf ih => exact .ext b ns hns hne c mc ih hbr f (hf.mono hag)
  | full b cs ms _ v16 h16 hv16 hcount f hf ih =>
    exact .full b cs ms ih v16 h16 hv16 hcount f (hf.mono hag)
  | hash b hh blob hget hsize m dec hdec _ ih => exact .hash b hh blob (hag _ _ hget) hsize m dec hdec ih

/-! ## The flags of a canonical node -/

/-- A clean canonical node with a cached hash is stored under it, with 32 bytes or more below the
root. -/
theorem Canon.stored {b : Bool} {n : Node} {m : Contents} (hc : Canon keccak db b n m)
    (hclean : n.Clean) {hh : List UInt8} (hcache : n.cache.1 = some hh) :
    db.get hh = some (encodeNode (collapse keccak n)) ∧
      (b = false → 32 ≤ (encodeNode (collapse keccak n)).length) := by
  cases hc with
  | nil => cases hcache
  | hash => cases hcache
  | leaf _ _ _ _ _ f hf => exact ⟨hf.stored hclean hh hcache, hf.hash_size hh hcache⟩
  | ext _ _ _ _ _ _ _ _ f hf => exact ⟨hf.stored hclean hh hcache, hf.hash_size hh hcache⟩
  | full _ _ _ _ _ _ _ _ f hf => exact ⟨hf.stored hclean hh hcache, hf.hash_size hh hcache⟩

/-- A clean canonical short or full node with nothing cached is embedded below the root. -/
theorem Canon.embedded {b : Bool} {n : Node} {m : Contents} (hc : Canon keccak db b n m)
    (hclean : n.Clean) (hcache : n.cache.1 = none) (hn : n.isNil = false)
    (hh : n.hashOf? = none) : b = false ∧ (encodeNode (collapse keccak n)).length < 32 := by
  cases hc with
  | nil => cases hn
  | hash => cases hh
  | leaf _ _ _ _ _ f hf => exact hf.embedded hclean hcache
  | ext _ _ _ _ _ _ _ _ f hf => exact hf.embedded hclean hcache
  | full _ _ _ _ _ _ _ _ f hf => exact hf.embedded hclean hcache

end

/-! ## Decoded nodes -/

theorem decoded_leaf {ns : List UInt8} (hns : Nibbles ns) (w : List UInt8) (f : NodeFlag)
    (gen : UInt16) (h : Option (List UInt8)) :
    (Node.short (hexToCompact (ns ++ [16])) (.value w) f).decoded gen h =
      .short (ns ++ [16]) (.value w) ⟨h, gen, false⟩ := by
  simp [Node.decoded, compactToHex_hexToCompact ⟨ns, hns, .inr rfl⟩, hasTerm_term]

/-- A decoded short or full node: clean, with the hash it was decoded under. -/
theorem cache_decoded {c : Node} (hn : c.isNil = false) (hh : c.hashOf? = none)
    (hv : c.isValue = false) (gen : UInt16) (h : Option (List UInt8)) :
    (c.decoded gen h).cache = (h, false) := by
  cases c with
  | short => rfl
  | full => rfl
  | nil => cases hn
  | hash => cases hh
  | value => cases hv

theorem isNil_decoded (c : Node) (gen : UInt16) (h : Option (List UInt8)) :
    (c.decoded gen h).isNil = c.isNil := by
  cases c <;> rfl

theorem isValue_decoded (c : Node) (gen : UInt16) (h : Option (List UInt8)) :
    (c.decoded gen h).isValue = c.isValue := by
  cases c <;> rfl

theorem hashOf_decoded (c : Node) (gen : UInt16) (h : Option (List UInt8)) :
    (c.decoded gen h).hashOf? = c.hashOf? := by
  cases c <;> rfl

/-- Decoded nodes are clean. -/
theorem clean_decoded (c : Node) (gen : UInt16) (h : Option (List UInt8)) :
    (c.decoded gen h).Clean := by
  cases c <;> first | exact rfl | trivial

theorem isValue_collapse (keccak : List UInt8 → List UInt8) (n : Node) :
    (collapse keccak n).isValue = n.isValue := by
  cases n with
  | short key val flags => rw [collapse_short]; rfl
  | full cs flags => rw [collapse_full]; rfl
  | _ => rfl

/-- `decodeRef` decodes an embedded reference as the node. -/
theorem refDecoded_of_node {r : Node} (hn : r.isNil = false) (hh : r.hashOf? = none)
    (hv : r.isValue = false) (rec : Node) : Node.refDecoded r rec = rec := by
  cases r with
  | short => rfl
  | full => rfl
  | nil => cases hn
  | hash => cases hh
  | value => cases hv

section
variable {keccak : List UInt8 → List UInt8} {db : MemDatabase}

variable (keccak db) in
/-- What reading back the encoding of a clean node `n` standing for bounded contents `m` gives, in
any generation: a canonical node for `m` whose collapsed form encodes the same. -/
def DecodedOk (b : Bool) (n : Node) (m : Contents) : Prop :=
  Bounded m → n.Clean → n.hashOf? = none → ∀ gen,
    Canon keccak db b ((collapse keccak n).decoded gen n.cache.1) m ∧
      (collapse keccak ((collapse keccak n).decoded gen n.cache.1)).toItem =
        (collapse keccak n).toItem

theorem decodedOk_leaf {b : Bool} {ns : List UInt8} (hns : Nibbles ns) {w : List UInt8}
    (hw : w ≠ []) {f : NodeFlag} (hf : FlagsOk keccak db b (.short (ns ++ [16]) (.value w) f) f) :
    DecodedOk keccak db b (.short (ns ++ [16]) (.value w) f) (leafMap (ns ++ [16]) w) := by
  intro _ hclean _ gen
  have hD : (collapse keccak (.short (ns ++ [16]) (.value w) f)).decoded gen f.hash =
      .short (ns ++ [16]) (.value w) ⟨f.hash, gen, false⟩ := by
    rw [collapse_short]
    exact decoded_leaf hns w f gen f.hash
  have hcol := toItem_collapse_short_flags keccak (ns ++ [16]) (.value w) f ⟨f.hash, gen, false⟩
  show Canon keccak db b ((collapse keccak _).decoded gen f.hash) _ ∧
    (collapse keccak ((collapse keccak _).decoded gen f.hash)).toItem = _
  rw [hD]
  exact ⟨.leaf b ns hns w hw _ (hf.congr hcol rfl hclean.symm fun _ _ => trivial), hcol⟩

/-- The value slot of a canonical full node, collapsed and read back, is itself. -/
theorem slotDecoded_emptyIfNil {v16 : Option (List UInt8)} (hv16 : v16 ≠ some []) :
    Node.slotDecoded (emptyIfNil (v16.elim .nil .value)) = v16.elim .nil .value := by
  rw [emptyIfNil_slot]
  cases v16 with
  | none => rfl
  | some w =>
    have hw : 0 < w.length := List.length_pos_of_ne_nil fun h => hv16 (h ▸ rfl)
    simp [Node.slotDecoded, hw]

variable (hk : ∀ x, (keccak x).length = 32) (hkeyed : Keyed keccak db)
include hk hkeyed

/-- A hash node for a clean canonical node stored under its cached hash is canonical for the same
contents, since the stored encoding reads back. -/
theorem canon_hash_of_decoded {b : Bool} {n : Node} {m : Contents} (hc : Canon keccak db b n m)
    (hm : Bounded m) (hclean : n.Clean) {hh : List UInt8} (hcache : n.cache.1 = some hh)
    (hdec : DecodedOk keccak db b n m) : Canon keccak db b (.hash hh) m := by
  have hnh : n.hashOf? = none := by cases n <;> first | rfl | cases hcache
  have hnil : n.isNil = false := by cases n <;> first | rfl | cases hcache
  obtain ⟨hget, hsize⟩ := hc.stored hclean hcache
  have hcol := hc.collapsed hk hkeyed hm hnh hnil
  refine .hash b hh _ hget hsize m (fun gen => (collapse keccak n).decoded gen (some hh))
    (fun gen => ?_) (fun gen => ?_)
  · have := decodeNode_encodeNode _ hcol le_rfl (some hh) [] gen
    rwa [List.append_nil] at this
  · rw [← hcache]
    exact (hdec hm hclean hnh gen).1

/-- The child a decoded node holds for a clean canonical child `c`: a hash node for a child stored
under its hash, the child's encoding read back for an embedded one, and a hash node as it is. It
is canonical for `c`'s contents and takes `c`'s place. -/
theorem Canon.refDecoded {c : Node} {mc : Contents} (hc : Canon keccak db false c mc)
    (hm : Bounded mc) (hn : c.isNil = false) (hclean : c.Clean) (ih : DecodedOk keccak db false c mc)
    (gen : UInt16) :
    Canon keccak db false (Node.refDecoded (ref keccak c) ((ref keccak c).decoded gen none)) mc ∧
      RefSame keccak c (Node.refDecoded (ref keccak c) ((ref keccak c).decoded gen none)) := by
  have hv := hc.isValue_eq_false
  cases hh : c.hashOf? with
  | some x =>
    obtain rfl : c = .hash x := by cases c <;> cases hh; rfl
    exact ⟨hc, RefSame.refl rfl rfl⟩
  | none =>
    cases hcache : c.cache.1 with
    | some x =>
      -- stored under its hash: read back as a hash node
      rw [ref_of_cache keccak hcache]
      exact ⟨canon_hash_of_decoded hk hkeyed hc hm hclean hcache ih,
        ⟨hn, rfl, hv, rfl, by
          show (ref keccak (.hash x)).toItem = _
          rw [ref_hash, ref_of_cache keccak hcache], fun _ => trivial⟩⟩
    | none =>
      -- embedded: its encoding is read back in place
      obtain ⟨-, hlen⟩ := hc.embedded hclean hcache hn hh
      have hcn : (collapse keccak c).isNil = false := by rw [isNil_collapse]; exact hn
      have hch : (collapse keccak c).hashOf? = none := by rw [hashOf_collapse]; exact hh
      have hcv : (collapse keccak c).isValue = false := by rw [isValue_collapse]; exact hv
      obtain ⟨hdc, hcol⟩ := ih hm hclean hh gen
      rw [hcache] at hdc hcol
      have href : ref keccak c = collapse keccak c := by
        rw [ref_of_no_cache keccak hcache hh, storedRef, if_pos hlen]
      have hdn : ((collapse keccak c).decoded gen none).isNil = false := by
        rw [isNil_decoded]; exact hcn
      have hdh : ((collapse keccak c).decoded gen none).hashOf? = none := by
        rw [hashOf_decoded]; exact hch
      have hdv : ((collapse keccak c).decoded gen none).isValue = false := by
        rw [isValue_decoded]; exact hcv
      have hdcache := cache_decoded hcn hch hcv gen none
      rw [href, refDecoded_of_node hcn hch hcv]
      refine ⟨hdc, ⟨hn, hdn, hv, hdv, ?_, fun _ => ?_⟩⟩
      · rw [ref_of_no_cache keccak (congrArg Prod.fst hdcache) hdh,
          ref_of_no_cache keccak hcache hh]
        exact toItem_storedRef_congr hcol
      · exact clean_decoded _ gen none

theorem decodedOk_ext {b : Bool} {ns : List UInt8} (hns : Nibbles ns) (hne : ns ≠ [])
    {c : Node} {mc : Contents} (hc : Canon keccak db false c mc) (hbr : Branching mc)
    (ih : DecodedOk keccak db false c mc) {f : NodeFlag}
    (hf : FlagsOk keccak db b (.short ns c f) f) :
    DecodedOk keccak db b (.short ns c f) (extMap ns mc) := by
  intro hm hclean _ gen
  have hmc : Bounded mc := drop_extMap ns mc ▸ hm.drop ns
  obtain ⟨k, -, v, -, hkv, -⟩ := id hbr
  have hn : c.isNil = false := hc.isNil_eq_false hkv
  obtain ⟨hdc, hr⟩ := hc.refDecoded hk hkeyed hmc hn (hf.clean_children hclean 0) ih gen
  have hD : (collapse keccak (.short ns c f)).decoded gen f.hash =
      .short ns (Node.refDecoded (ref keccak c) ((ref keccak c).decoded gen none))
        ⟨f.hash, gen, false⟩ := by
    rw [collapse_short, hc.isValue_eq_false]
    simp only [Bool.false_eq_true, if_false, emptyIfNil, isNil_ref, hn]
    exact decoded_ext hns _ f gen f.hash
  have hcol := toItem_collapse_short ns hr f ⟨f.hash, gen, false⟩
  show Canon keccak db b ((collapse keccak _).decoded gen f.hash) _ ∧
    (collapse keccak ((collapse keccak _).decoded gen f.hash)).toItem = _
  rw [hD]
  exact ⟨.ext b ns hns hne _ mc hdc hbr _
    (hf.congr hcol rfl hclean.symm fun hd _ => hr.clean (hf.clean_children hd 0)), hcol⟩

theorem decodedOk_full {b : Bool} {cs : Fin 17 → Node} {ms : Fin 16 → Contents}
    (hcs : ∀ i : Fin 16, Canon keccak db false (cs i.castSucc) (ms i))
    (ih : ∀ i : Fin 16, DecodedOk keccak db false (cs i.castSucc) (ms i))
    {v16 : Option (List UInt8)} (h16 : cs 16 = v16.elim .nil .value) (hv16 : v16 ≠ some [])
    (hcount : 2 ≤ Node.nonNilCount cs) {f : NodeFlag} (hf : FlagsOk keccak db b (.full cs f) f) :
    DecodedOk keccak db b (.full cs f) (fullMap ms v16) := by
  intro hm hclean _ gen
  -- the children of the collapsed node, and what the decoder makes of them
  set col : Fin 17 → Node := fun i => if i.val < 16 then
    (if (cs i).isNil then .value [] else ref keccak (cs i)) else emptyIfNil (cs i) with hcol_def
  set dcs : Fin 17 → Node := fun i => if i.val < 16 then
    Node.refDecoded (col i) ((col i).decoded gen none) else Node.slotDecoded (col (Fin.last 16))
    with hdcs_def
  have hD : (collapse keccak (.full cs f)).decoded gen f.hash = .full dcs ⟨f.hash, gen, false⟩ := by
    rw [collapse_full]
    rfl
  -- below each nibble: nil stays nil, and a child comes back canonical, in its child's place
  have hslot : ∀ i : Fin 16, Canon keccak db false (dcs i.castSucc) (ms i) ∧
      SlotSame keccak i.castSucc (cs i.castSucc) (dcs i.castSucc) := by
    intro i
    have hi : (i.castSucc : Fin 17).val < 16 := i.isLt
    have hmi : Bounded (ms i) := drop_fullMap_child ms v16 i ▸ hm.drop _
    cases hn : (cs i.castSucc).isNil with
    | true =>
      have hnil : cs i.castSucc = .nil := Node.eq_nil_of_isNil hn
      have hd : dcs i.castSucc = cs i.castSucc := by
        simp only [hdcs_def, hcol_def, hi, if_true, hn]
        rw [hnil]
        rfl
      rw [hd]
      exact ⟨hcs i, .inl rfl⟩
    | false =>
      have hd : dcs i.castSucc = Node.refDecoded (ref keccak (cs i.castSucc))
          ((ref keccak (cs i.castSucc)).decoded gen none) := by
        simp only [hdcs_def, hcol_def, hi, if_true, hn, Bool.false_eq_true, if_false]
      obtain ⟨hdc, hr⟩ := (hcs i).refDecoded hk hkeyed hmi hn
        (hf.clean_children hclean i.castSucc) (ih i) gen
      rw [hd]
      exact ⟨hdc, .inr ⟨hi, hr⟩⟩
  have h16' : dcs 16 = v16.elim .nil .value := by
    simp only [hdcs_def, hcol_def, show ¬ ((16 : Fin 17).val < 16) by decide, if_false]
    rw [show Fin.last 16 = 16 from rfl, h16]
    exact slotDecoded_emptyIfNil hv16
  have hsame : ∀ j, SlotSame keccak j (cs j) (dcs j) := by
    intro j
    by_cases hj : j.val < 16
    · exact (hslot ⟨j.val, hj⟩).2
    · have : j = 16 := Fin.ext (by omega)
      subst this
      rw [h16', h16]
      exact .inl rfl
  have hcol := toItem_collapse_full_congr hsame f ⟨f.hash, gen, false⟩
  show Canon keccak db b ((collapse keccak _).decoded gen f.hash) _ ∧
    (collapse keccak ((collapse keccak _).decoded gen f.hash)).toItem = _
  rw [hD]
  refine ⟨.full b dcs ms (fun i => (hslot i).1) v16 h16' hv16
    ((nonNilCount_congr fun j => (hsame j).isNil).symm ▸ hcount) _ ?_, hcol⟩
  exact hf.congr hcol rfl hclean.symm fun hd j => (hsame j).clean (hf.clean_children hd j)

/-- Reading back the encoding of a clean canonical node with bounded contents gives a canonical
node for the same contents, whose collapsed form encodes the same. -/
theorem Canon.decoded {b : Bool} {n : Node} {m : Contents} (hc : Canon keccak db b n m) :
    DecodedOk keccak db b n m := by
  induction hc with
  | nil b => exact fun _ _ _ _ => ⟨.nil b, rfl⟩
  | leaf b ns hns w hw f hf => exact decodedOk_leaf hns hw hf
  | ext b ns hns hne c mc hc hbr f hf ih => exact decodedOk_ext hk hkeyed hns hne hc hbr ih hf
  | full b cs ms hcs v16 h16 hv16 hcount f hf ih =>
    exact decodedOk_full hk hkeyed hcs ih h16 hv16 hcount hf
  | hash => exact fun _ _ hh => by cases hh

/-- A hash node for a clean canonical node with bounded contents, stored under its cached hash,
is canonical for the same contents. -/
theorem Canon.hash_of_stored {b : Bool} {n : Node} {m : Contents} (hc : Canon keccak db b n m)
    (hm : Bounded m) (hclean : n.Clean) {hh : List UInt8} (hcache : n.cache.1 = some hh) :
    Canon keccak db b (.hash hh) m :=
  canon_hash_of_decoded hk hkeyed hc hm hclean hcache (hc.decoded hk hkeyed)

end

end GoGaia.Patricia
