import GoGaia.Trie.Hasher

/-!
# The node codec

A collapsed node (`Collapsed`), as `hashChildren` builds it, is a short node with a compact key
and a value or a child reference, or a full node with sixteen child references and a value slot.
A child reference (`CollapsedRef`) is an empty string (a nil child), a 32-byte hash, or an
embedded collapsed node of fewer than 32 bytes.

`decodeNode` reads the encoding of a collapsed node back as `Node.decoded`: the keys in HEX form,
empty references as nil, hashes as hash nodes, embedded nodes decoded in turn, and the value slot
kept only when it is not empty (`decodeNode_encodeNode`).
-/

namespace GoGaia.Patricia

open GoGaia.Rlp (Item encItem encItems)

namespace Node

/-- What `decodeRef` makes of a child reference `r`, given the node `rec` that `decodeNode`
makes of it as an embedded node. -/
def refDecoded (r rec : Node) : Node :=
  match r with
  | .value [] => .nil
  | .hash h => .hash h
  | _ => rec

/-- What `decodeFull` makes of the value slot. -/
def slotDecoded : Node → Node
  | .value v => if v.length > 0 then .value v else .nil
  | _ => .nil

/-- The node `decodeNode` reads from the encoding of the collapsed node `c`, cached under
`hash`, in generation `gen`. -/
def decoded (gen : UInt16) (hash : Option (List UInt8)) : Node → Node
  | .short ck v _ =>
    let key := (compactToHex ck).getD []
    .short key (if hasTerm key then v else refDecoded v (decoded gen none v)) ⟨hash, gen, false⟩
  | .full cs _ =>
    .full (fun i => if i.val < 16 then refDecoded (cs i) (decoded gen none (cs i))
      else slotDecoded (cs (Fin.last 16))) ⟨hash, gen, false⟩
  | n => n

end Node

/-- The bound on key and value lengths under which every header of a node's encoding is
canonical. -/
def sizeBound : Nat := 2 ^ 62

mutual

/-- A collapsed node, as `hashChildren` makes it from a node of a trie. -/
inductive Collapsed : Node → Prop where
  | leaf (ns : List UInt8) (hns : Nibbles ns) (hk : ns.length < sizeBound) (v : List UInt8)
      (hv : v.length < sizeBound) (f : NodeFlag) :
      Collapsed (.short (hexToCompact (ns ++ [16])) (.value v) f)
  | ext (ns : List UInt8) (hns : Nibbles ns) (hk : ns.length < sizeBound) (r : Node)
      (hr : CollapsedRef r) (f : NodeFlag) :
      Collapsed (.short (hexToCompact ns) r f)
  | full (cs : Fin 17 → Node) (hcs : ∀ i : Fin 16, CollapsedRef (cs i.castSucc)) (v : List UInt8)
      (hv : v.length < sizeBound) (h16 : cs 16 = .value v) (f : NodeFlag) :
      Collapsed (.full cs f)

/-- A child reference in a collapsed node. -/
inductive CollapsedRef : Node → Prop where
  | empty : CollapsedRef (.value [])
  | hash (h : List UInt8) (hl : h.length = 32) : CollapsedRef (.hash h)
  | embedded (c : Node) (hc : Collapsed c) (hsmall : (encodeNode c).length < 32) :
      CollapsedRef c

end

theorem encodeNode_eq (n : Node) : encodeNode n = encItem n.toItem := Rlp.encodeToBytes_eq _

/-! ## Sizes of encodings -/

theorem header_size (t : Item) : t.header.2.2 = t.size := by
  rw [← Rlp.length_content]
  cases t <;> rfl

theorem header_tag_le (t : Item) : t.header.2.1 ≤ Rlp.headsize t.size := by
  cases t with
  | bytes b =>
    simp only [Rlp.Item.header, Rlp.Item.size]
    split
    · exact Nat.zero_le _
    · exact le_rfl
  | list l => exact le_rfl

theorem headsize_le {s : Nat} (h : s < 2 ^ 64) : Rlp.headsize s ≤ 9 := by
  unfold Rlp.headsize
  split
  · omega
  · have := (Rlp.Stream.intsize_bounds h).2
    omega

/-- An encoding is at most nine bytes longer than the value it encodes. -/
theorem length_encItem_le (t : Item) (h : t.size < 2 ^ 64) : (encItem t).length ≤ t.size + 9 := by
  rw [Rlp.length_encItem_header, header_size]
  have := header_tag_le t
  have := headsize_le h
  omega

/-- A child reference is encoded in at most 33 bytes. -/
theorem length_encItem_ref {r : Node} (hr : CollapsedRef r) : (encItem r.toItem).length ≤ 33 := by
  cases hr with
  | empty => simp [Node.toItem, Rlp.encItem_bytes, Rlp.IsSingleByte, Rlp.puthead]
  | hash h hl =>
    rw [Node.toItem, Rlp.encItem_bytes, if_neg (by simp [Rlp.IsSingleByte, hl])]
    simp [hl, Rlp.headsize]
  | embedded c hc hs => rw [← encodeNode_eq]; omega

/-! ## Decoding child references -/

theorem decodeRef_empty (dec : List UInt8 → Except NodeError Node) (rest : List UInt8) :
    decodeRef dec (encItem (.bytes []) ++ rest) = .ok (.nil, rest) := by
  have hs := Rlp.split_encItem (.bytes []) rest (by simp [Rlp.Item.size])
  simp only [decodeRef, hs, Rlp.Item.header, Rlp.Item.content]
  simp [Rlp.IsSingleByte]

theorem decodeRef_hash (dec : List UInt8 → Except NodeError Node) {h : List UInt8}
    (hl : h.length = 32) (rest : List UInt8) :
    decodeRef dec (encItem (.bytes h) ++ rest) = .ok (.hash h, rest) := by
  have hs := Rlp.split_encItem (.bytes h) rest (by simp [Rlp.Item.size, hl])
  simp only [decodeRef, hs, Rlp.Item.header, Rlp.Item.content]
  simp [Rlp.IsSingleByte, hl]

/-- A collapsed node is encoded as a list. -/
theorem Collapsed.toItem_list {c : Node} (hc : Collapsed c) : ∃ l, c.toItem = .list l := by
  cases hc with
  | leaf => exact ⟨_, rfl⟩
  | ext => exact ⟨_, rfl⟩
  | full => exact ⟨_, rfl⟩

theorem decodeRef_embedded (dec : List UInt8 → Except NodeError Node) {c : Node}
    (hc : Collapsed c) (hsmall : (encodeNode c).length < 32) (rest : List UInt8) {d : Node}
    (hdec : dec (encodeNode c ++ rest) = .ok d) :
    decodeRef dec (encodeNode c ++ rest) = .ok (d, rest) := by
  obtain ⟨l, hl⟩ := hc.toItem_list
  rw [encodeNode_eq, hl] at hsmall hdec ⊢
  have hsize : (encItems l).length < 2 ^ 64 := by
    rw [Rlp.encItem_list, List.length_append] at hsmall
    omega
  have hs := Rlp.split_encItem (.list l) rest hsize
  have hlen : ¬ (encItem (.list l) ++ rest).length - rest.length > hashLen := by
    simp only [List.length_append, hashLen]
    omega
  simp only [decodeRef, hs, Rlp.Item.header, if_true, hlen, if_false, hdec]
  rfl

/-- `decodeRef` reads a child reference, given that `dec` reads it when it is an embedded node. -/
theorem decodeRef_ref (dec : List UInt8 → Except NodeError Node) {r : Node} (hr : CollapsedRef r)
    (rest : List UInt8) (gen : UInt16)
    (hdec : Collapsed r → (encodeNode r).length < 32 →
      dec (encodeNode r ++ rest) = .ok (r.decoded gen none)) :
    decodeRef dec (encItem r.toItem ++ rest) = .ok (Node.refDecoded r (r.decoded gen none), rest) := by
  cases hr with
  | empty => exact decodeRef_empty dec rest
  | hash h hl => exact decodeRef_hash dec hl rest
  | embedded c hc hs =>
    rw [← encodeNode_eq, decodeRef_embedded dec hc hs rest (hdec hc hs)]
    cases hc <;> rfl

/-- The loop of `decodeFull` reads the child references of a full node in order. -/
theorem decodeChildren_refs (dec : List UInt8 → Except NodeError Node) (gen : UInt16) :
    ∀ (rs : List Node) (i : Nat) (rest : List UInt8), (∀ r ∈ rs, CollapsedRef r) →
      (∀ r ∈ rs, ∀ rest', Collapsed r → (encodeNode r).length < 32 →
        dec (encodeNode r ++ rest') = .ok (r.decoded gen none)) →
      decodeChildren dec rs.length i (encItems (rs.map Node.toItem) ++ rest) =
        .ok (rs.map (fun r => Node.refDecoded r (r.decoded gen none)), rest)
  | [], _, rest, _, _ => rfl
  | r :: rs, i, rest, hrs, hdec => by
    have hr := hrs r (List.mem_cons_self ..)
    have hd := decodeRef_ref dec hr (encItems (rs.map Node.toItem) ++ rest) gen
      (hdec r (List.mem_cons_self ..) _)
    have ih := decodeChildren_refs dec gen rs (i + 1) rest
      (fun r' h' => hrs r' (List.mem_cons_of_mem r h'))
      (fun r' h' => hdec r' (List.mem_cons_of_mem r h'))
    simp only [List.map_cons, List.length_cons, Rlp.encItems_cons, List.append_assoc]
    simp only [decodeChildren, hd, ih]
    rfl

/-- The payload of a list is shorter than its encoding. -/
theorem length_encItems_lt (l : List Item) :
    (encItems l).length < (encItem (.list l)).length := by
  rw [Rlp.encItem_list, List.length_append, Rlp.length_puthead]
  have := Rlp.headsize_pos (encItems l).length
  omega

theorem encItems_append (l₁ l₂ : List Item) : encItems (l₁ ++ l₂) = encItems l₁ ++ encItems l₂ := by
  induction l₁ with
  | nil => simp
  | cons t ts ih => simp [ih]

/-- The two values of a short node's payload: its key and its child. -/
private theorem short_payload (ck : List UInt8) (child : Item) :
    encItems [.bytes ck, child] = encItem (.bytes ck) ++ (encItem child ++ []) := by
  simp

/-- The sixteen child references of a full node, in order. -/
def nibbleRefs (cs : Fin 17 → Node) : List Node := (List.finRange 16).map fun i => cs i.castSucc

theorem length_nibbleRefs (cs : Fin 17 → Node) : (nibbleRefs cs).length = 16 := by
  simp [nibbleRefs]

theorem getD_nibbleRefs (cs : Fin 17 → Node) (g : Node → Node) {i : Nat} (hi : i < 16) :
    ((nibbleRefs cs).map g).getD i .nil = g (cs ⟨i, by omega⟩) := by
  simp [nibbleRefs, List.getD_eq_getElem?_getD, hi]

/-! ## Decoding nodes -/

section
variable {fuel : Nat} {h : Option (List UInt8)} {rest : List UInt8} {gen : UInt16}

/-- `decodeNode` reads a collapsed leaf. -/
theorem decodeNode_leaf {ns : List UInt8} (hns : Nibbles ns) (hk : ns.length < sizeBound)
    {v : List UInt8} (hv : v.length < sizeBound) (f : NodeFlag) :
    decodeNode (fuel + 1) h (encodeNode (.short (hexToCompact (ns ++ [16])) (.value v) f) ++ rest)
      gen = .ok (.short (ns ++ [16]) (.value v) ⟨h, gen, false⟩) := by
  have hck : (hexToCompact (ns ++ [16])).length < sizeBound := by
    rw [length_hexToCompact, hasTerm_term]
    simp [sizeBound] at hk ⊢
    omega
  have hsz : (encItems [.bytes (hexToCompact (ns ++ [16])), .bytes v]).length < 2 ^ 64 := by
    have h1 := length_encItem_le (.bytes (hexToCompact (ns ++ [16])))
      (by simp [Rlp.Item.size, sizeBound] at hck ⊢; omega)
    have h2 := length_encItem_le (.bytes v) (by simp [Rlp.Item.size, sizeBound] at hv ⊢; omega)
    simp only [Rlp.encItems_cons, Rlp.encItems_nil, List.append_nil, List.length_append,
      Rlp.Item.size] at h1 h2 ⊢
    simp [sizeBound] at hck hv
    omega
  have hcount : Rlp.countValues (encItems [.bytes (hexToCompact (ns ++ [16])), .bytes v]) =
      .ok 2 := by
    apply Rlp.countValues_encItems
    intro t ht
    simp only [List.mem_cons, List.not_mem_nil, or_false] at ht
    rcases ht with rfl | rfl <;> simp [Rlp.Item.size, sizeBound] at hck hv ⊢ <;> omega
  have hnil : encItem (Node.toItem (.short (hexToCompact (ns ++ [16])) (.value v) f)) ++ rest ≠ [] :=
    by simp [Rlp.encItem_ne_nil]
  rw [encodeNode_eq]
  simp only [Node.toItem] at hnil ⊢
  simp only [decodeNode, List.length_eq_zero_iff, hnil, if_false, Rlp.splitList_list _ rest hsz,
    hcount]
  simp only [Except.toOption, Option.getD_some, decodeShort, short_payload]
  rw [Rlp.splitString_bytes _ _ (by simp [sizeBound] at hck; omega)]
  simp only [compactToHex_hexToCompact ⟨ns, hns, .inr rfl⟩, hasTerm_term, if_true]
  rw [Rlp.splitString_bytes _ _ (by simp [sizeBound] at hv; omega)]
  rfl

/-- `decodeNode` reads a collapsed short node without a value, given that the nested call reads
its child when it is an embedded node. -/
theorem decodeNode_ext {ns : List UInt8} (hns : Nibbles ns) (hk : ns.length < sizeBound)
    {r : Node} (hr : CollapsedRef r) (f : NodeFlag)
    (hdec : Collapsed r → (encodeNode r).length < 32 →
      decodeNode fuel none (encodeNode r ++ []) gen = .ok (r.decoded gen none)) :
    decodeNode (fuel + 1) h (encodeNode (.short (hexToCompact ns) r f) ++ rest) gen =
      .ok (.short ns (Node.refDecoded r (r.decoded gen none)) ⟨h, gen, false⟩) := by
  have hck : (hexToCompact ns).length < sizeBound := by
    rw [length_hexToCompact, hasTerm_nibbles hns]
    simp [sizeBound] at hk ⊢
    omega
  have hr33 := length_encItem_ref hr
  have hrsize : r.toItem.size < 2 ^ 64 := by
    have := Rlp.length_encItem_header r.toItem
    rw [header_size] at this
    omega
  have hsz : (encItems [.bytes (hexToCompact ns), r.toItem]).length < 2 ^ 64 := by
    have h1 := length_encItem_le (.bytes (hexToCompact ns))
      (by simp [Rlp.Item.size, sizeBound] at hck ⊢; omega)
    simp only [Rlp.encItems_cons, Rlp.encItems_nil, List.append_nil, List.length_append,
      Rlp.Item.size] at h1 ⊢
    simp [sizeBound] at hck
    omega
  have hcount : Rlp.countValues (encItems [.bytes (hexToCompact ns), r.toItem]) = .ok 2 := by
    apply Rlp.countValues_encItems
    intro t ht
    simp only [List.mem_cons, List.not_mem_nil, or_false] at ht
    rcases ht with rfl | rfl
    · simp [Rlp.Item.size, sizeBound] at hck ⊢
      omega
    · exact hrsize
  have hnil : encItem (Node.toItem (.short (hexToCompact ns) r f)) ++ rest ≠ [] := by
    simp [Rlp.encItem_ne_nil]
  rw [encodeNode_eq]
  simp only [Node.toItem] at hnil ⊢
  simp only [decodeNode, List.length_eq_zero_iff, hnil, if_false, Rlp.splitList_list _ rest hsz,
    hcount]
  simp only [Except.toOption, Option.getD_some, decodeShort, short_payload]
  rw [Rlp.splitString_bytes _ _ (by simp [sizeBound] at hck; omega)]
  simp only [compactToHex_hexToCompact ⟨ns, hns, .inl rfl⟩, hasTerm_nibbles hns]
  rw [decodeRef_ref _ hr [] gen hdec]
  rfl

/-- The children of a full node, as a list: sixteen references and the value slot. -/
private theorem finRange_children (cs : Fin 17 → Node) :
    (List.finRange 17).map (fun i => (cs i).toItem) =
      (nibbleRefs cs).map Node.toItem ++ [(cs 16).toItem] := by
  rw [List.finRange_succ_last]
  simp [nibbleRefs, Function.comp_def]

/-- `decodeNode` reads a collapsed full node, given that the nested call reads its children
that are embedded nodes. -/
theorem decodeNode_full {cs : Fin 17 → Node} (hcs : ∀ i : Fin 16, CollapsedRef (cs i.castSucc))
    {v : List UInt8} (hv : v.length < sizeBound) (h16 : cs 16 = .value v) (f : NodeFlag)
    (hdec : ∀ i : Fin 16, ∀ rest', Collapsed (cs i.castSucc) →
      (encodeNode (cs i.castSucc)).length < 32 →
      decodeNode fuel none (encodeNode (cs i.castSucc) ++ rest') gen =
        .ok ((cs i.castSucc).decoded gen none)) :
    decodeNode (fuel + 1) h (encodeNode (.full cs f) ++ rest) gen =
      .ok ((Node.full cs f).decoded gen h) := by
  have hrefs : ∀ r ∈ nibbleRefs cs, CollapsedRef r := by
    intro r hr
    simp only [nibbleRefs, List.mem_map, List.mem_finRange, true_and] at hr
    obtain ⟨i, rfl⟩ := hr
    exact hcs i
  have hrefs33 : (encItems ((nibbleRefs cs).map Node.toItem)).length ≤ 16 * 33 := by
    have : ∀ l : List Node, (∀ r ∈ l, CollapsedRef r) →
        (encItems (l.map Node.toItem)).length ≤ l.length * 33 := by
      intro l hl
      induction l with
      | nil => simp
      | cons r l ih =>
        have h1 := length_encItem_ref (hl r (List.mem_cons_self ..))
        have h2 := ih (fun r' h' => hl r' (List.mem_cons_of_mem r h'))
        simp only [List.map_cons, Rlp.encItems_cons, List.length_append, List.length_cons]
        omega
    have := this _ hrefs
    rwa [length_nibbleRefs] at this
  have hitem : (Node.full cs f).toItem = .list ((nibbleRefs cs).map Node.toItem ++ [.bytes v]) := by
    simp only [Node.toItem, finRange_children, h16]
  have hpayload : encItems ((nibbleRefs cs).map Node.toItem ++ [.bytes v]) =
      encItems ((nibbleRefs cs).map Node.toItem) ++ (encItem (.bytes v) ++ []) := by
    simp [encItems_append]
  have hvsize : (Item.bytes v).size < 2 ^ 64 := by
    simp [Rlp.Item.size, sizeBound] at hv ⊢
    omega
  have hsz : (encItems ((nibbleRefs cs).map Node.toItem ++ [.bytes v])).length < 2 ^ 64 := by
    have := length_encItem_le _ hvsize
    rw [hpayload, List.length_append, List.append_nil]
    simp [Rlp.Item.size, sizeBound] at this hv
    omega
  have hcount : Rlp.countValues (encItems ((nibbleRefs cs).map Node.toItem ++ [.bytes v])) =
      .ok 17 := by
    rw [Rlp.countValues_encItems]
    · simp [length_nibbleRefs]
    · intro t ht
      simp only [List.mem_append, List.mem_map, List.mem_singleton] at ht
      rcases ht with ⟨r, hr, rfl⟩ | rfl
      · have := length_encItem_ref (hrefs r hr)
        have := Rlp.length_encItem_header r.toItem
        rw [header_size] at this
        omega
      · exact hvsize
  have hnil : encItem (Node.full cs f).toItem ++ rest ≠ [] := by simp [Rlp.encItem_ne_nil]
  have hchildren := decodeChildren_refs (fun b => decodeNode fuel none b gen) gen (nibbleRefs cs) 0
    (encItem (.bytes v) ++ []) hrefs (by
      intro r hr rest' hc hs
      simp only [nibbleRefs, List.mem_map, List.mem_finRange, true_and] at hr
      obtain ⟨i, rfl⟩ := hr
      exact hdec i rest' hc hs)
  rw [length_nibbleRefs] at hchildren
  rw [encodeNode_eq]
  rw [hitem] at hnil ⊢
  simp only [decodeNode, List.length_eq_zero_iff, hnil, if_false, Rlp.splitList_list _ rest hsz,
    hcount]
  simp only [Except.toOption, Option.getD_some, decodeFull, hpayload, hchildren]
  rw [Rlp.splitString_bytes _ _ (by simp [sizeBound] at hv; omega)]
  simp only [Except.mapError, Node.decoded]
  congr 2
  funext i
  simp only [fullChildren]
  by_cases hi : i.val < 16
  · rw [if_pos hi, if_pos hi, getD_nibbleRefs cs _ hi]
  · rw [if_neg hi, if_neg hi]
    have hv16 : i.val = 16 := by omega
    have : i = 16 := Fin.ext hv16
    subst this
    simp [h16, Node.slotDecoded]

end

theorem decoded_ext {ns : List UInt8} (hns : Nibbles ns) (r : Node) (f : NodeFlag) (gen : UInt16)
    (h : Option (List UInt8)) :
    (Node.short (hexToCompact ns) r f).decoded gen h =
      .short ns (Node.refDecoded r (r.decoded gen none)) ⟨h, gen, false⟩ := by
  simp [Node.decoded, compactToHex_hexToCompact ⟨ns, hns, .inl rfl⟩, hasTerm_nibbles hns]

theorem length_encodeNode_short_child (ck : List UInt8) (r : Node) (f : NodeFlag) :
    (encodeNode r).length < (encodeNode (.short ck r f)).length := by
  have := length_encItems_lt [.bytes ck, r.toItem]
  simp only [encodeNode_eq, Node.toItem] at this ⊢
  simp only [Rlp.encItems_cons, Rlp.encItems_nil, List.append_nil, List.length_append] at this
  omega

theorem length_encodeNode_full_child (cs : Fin 17 → Node) (f : NodeFlag) (i : Fin 17) :
    (encodeNode (cs i)).length < (encodeNode (.full cs f)).length := by
  have hle : (encItem (cs i).toItem).length ≤
      (encItems ((List.finRange 17).map fun j => (cs j).toItem)).length := by
    have hmem : (cs i).toItem ∈ (List.finRange 17).map fun j => (cs j).toItem :=
      List.mem_map.mpr ⟨i, List.mem_finRange i, rfl⟩
    have : ∀ (l : List Item) t, t ∈ l → (encItem t).length ≤ (encItems l).length := by
      intro l t ht
      induction l with
      | nil => simp at ht
      | cons u l ih =>
        simp only [List.mem_cons] at ht
        simp only [Rlp.encItems_cons, List.length_append]
        rcases ht with rfl | ht
        · omega
        · have := ih ht; omega
    exact this _ _ hmem
  have := length_encItems_lt ((List.finRange 17).map fun j => (cs j).toItem)
  simp only [encodeNode_eq, Node.toItem] at this ⊢
  omega

/-- `decodeNode` reads the encoding of a collapsed node, followed by any bytes, as
`Node.decoded`, given as much fuel as the encoding has bytes. -/
theorem decodeNode_encodeNode : ∀ (fuel : Nat) {c : Node}, Collapsed c →
    (encodeNode c).length ≤ fuel → ∀ (h : Option (List UInt8)) (rest : List UInt8) (gen : UInt16),
      decodeNode fuel h (encodeNode c ++ rest) gen = .ok (c.decoded gen h)
  | 0, c, _, hlen, _, _, _ => by
    have := Rlp.length_encItem_pos c.toItem
    rw [encodeNode_eq] at hlen
    omega
  | fuel + 1, c, hc, hlen, h, rest, gen => by
    cases hc with
    | leaf ns hns hk v hv f =>
      rw [decodeNode_leaf hns hk hv f]
      simp [Node.decoded, compactToHex_hexToCompact ⟨ns, hns, .inr rfl⟩, hasTerm_term]
    | ext ns hns hk r hr f =>
      rw [decodeNode_ext hns hk hr f, decoded_ext hns]
      intro hc' _
      have := length_encodeNode_short_child (hexToCompact ns) r f
      exact decodeNode_encodeNode fuel hc' (by omega) none [] gen
    | full cs hcs v hv h16 f =>
      refine decodeNode_full hcs hv h16 f fun i rest' hc' _ => ?_
      have := length_encodeNode_full_child cs f i.castSucc
      exact decodeNode_encodeNode fuel hc' (by omega) none rest' gen

end GoGaia.Patricia
