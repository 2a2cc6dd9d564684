import GoGaia.Trie.Codec

/-!
# What the hasher computes when it only hashes

`Trie.Hash` runs `hasher.hash` without a database (`trie/hasher.go:54`); so does the part of a
commit that decides what a parent stores for a child. In this mode the database stays `nil`
(`hash_none_db`) and the generation and limit of the hasher play no part (`hash_none_keccak`), so
its results are functions of Keccak and the node: `ref`, what a parent stores for a node, and
`collapse`, the node with compact key and its children replaced by their references.

Their closed forms are what the trie proofs use: a node with a cached hash is referenced by it
(`ref_of_cache`), any other node but a hash node by its collapsed form when that is shorter than
32 bytes and by the hash of its encoding otherwise (`ref_of_no_cache`), and a collapsed short or
full node holds the references of its children, with empty value nodes for nil children
(`collapse_short`, `collapse_full`).
-/

namespace GoGaia.Patricia

namespace Node

/-- The child `i` of a node; a short node's child is its only one, at every index. -/
def child (n : Node) (i : Fin 17) : Node :=
  match n with
  | .short _ val _ => val
  | .full cs _ => cs i
  | _ => .nil

end Node

/-- The hasher when only hashing: generation and limit play no part then. -/
def hashMode (keccak : List UInt8 → List UInt8) : Hasher := ⟨keccak, 0, 0⟩

/-- The reference a parent stores for a node: what `hash` returns for it when only hashing. -/
def ref (keccak : List UInt8 → List UInt8) (n : Node) : Node :=
  ((hashMode keccak).hash n none false).1.1

/-- The collapsed node: what `hashChildren` returns when only hashing. -/
def collapse (keccak : List UInt8 → List UInt8) (n : Node) : Node :=
  (Hasher.hashChildren (fun i db => (hashMode keccak).hash (n.child i) db false) n none).1.1

/-- What `hashChildren` stores for a child: an empty value node for a nil one. -/
def emptyIfNil (n : Node) : Node := if n.isNil then .value [] else n

/-- What `store` makes of a collapsed node with no cached hash, below the root: the node itself
when its encoding is shorter than 32 bytes, the hash of its encoding otherwise. -/
def storedRef (keccak : List UInt8 → List UInt8) (c : Node) : Node :=
  if (encodeNode c).length < 32 then c else .hash (keccak (encodeNode c))

/-! ## `hashChildren` without a database -/

theorem mem_nibbleIndices (i : Fin 17) : i ∈ Hasher.nibbleIndices ↔ i.val < 16 := by
  simp only [Hasher.nibbleIndices, List.mem_map, List.mem_finRange, true_and]
  constructor
  · rintro ⟨j, rfl⟩
    exact j.isLt
  · intro hi
    exact ⟨⟨i.val, hi⟩, Fin.ext rfl⟩

/-- `hashChildren` of a full node from the result of its loop over the sixteen nibbles: the value
slot is kept, as an empty value node when it is nil. -/
theorem hashChildren_full_of_loop
    {hashChild : Fin 17 → Option MemDatabase → (Node × Node) × Option MemDatabase}
    {cs R cached' : Fin 17 → Node} {db db' : Option MemDatabase} (flags : NodeFlag)
    (hloop : Hasher.hashFullChildren hashChild cs Hasher.nibbleIndices cs cs db =
      ((fun i => if i ∈ Hasher.nibbleIndices then (if (cs i).isNil then .value [] else R i) else cs i,
        cached'), db')) :
    Hasher.hashChildren hashChild (.full cs flags) db =
      ((.full (fun i => if i.val < 16 then (if (cs i).isNil then .value [] else R i)
          else emptyIfNil (cs i)) flags, .full cached' flags), db') := by
  have h16 : ¬ ((16 : Fin 17).val < 16) := by decide
  simp only [Hasher.hashChildren, hloop, mem_nibbleIndices, h16, if_false]
  congr 3
  funext i
  by_cases hi : i.val < 16
  · have : i ≠ 16 := fun h => by subst h; exact h16 hi
    by_cases hn : (cs 16).isNil <;> simp [hi, this, hn]
  · have : i = 16 := Fin.ext (by omega)
    subst this
    by_cases hn : (cs 16).isNil <;> simp [hn, emptyIfNil]

private theorem eq_of_snd_none {α : Type} {p : α × Option MemDatabase} (h : p.2 = none) :
    p = (p.1, none) :=
  Prod.ext rfl h

section
variable (hashChild : Fin 17 → Option MemDatabase → (Node × Node) × Option MemDatabase)
  (hhc : ∀ i, (hashChild i none).2 = none)
include hhc

/-- Without a database, the loop of `hashChildren` replaces each child `i` of `is` by what
`hashChild` returns for it, and nil children by empty value nodes in the collapsed node. -/
theorem hashFullChildren_none (cs : Fin 17 → Node) :
    ∀ (is : List (Fin 17)) (collapsed cached : Fin 17 → Node),
      Hasher.hashFullChildren hashChild cs is collapsed cached none =
        ((fun i => if i ∈ is then (if (cs i).isNil then .value [] else (hashChild i none).1.1)
            else collapsed i,
          fun i => if i ∈ is ∧ (cs i).isNil = false then (hashChild i none).1.2 else cached i),
          none)
  | [], collapsed, cached => by simp [Hasher.hashFullChildren]
  | j :: is, collapsed, cached => by
    rw [Hasher.hashFullChildren]
    split
    · next hj =>
      rw [hashFullChildren_none cs is]
      congr 2 <;> funext i <;> by_cases hi : i = j
      · subst hi; simp [hj]
      · simp [hi]
      · subst hi; simp [hj]
      · simp [hi]
    · next hj =>
      rw [eq_of_snd_none (hhc j)]
      simp only
      rw [hashFullChildren_none cs is]
      congr 2 <;> funext i <;> by_cases hi : i = j
      · subst hi; simp [hj]
      · simp [hi]
      · subst hi; simp [hj]
      · simp [hi]

theorem hashChildren_none_short (key : List UInt8) (val : Node) (flags : NodeFlag) :
    Hasher.hashChildren hashChild (.short key val flags) none =
      ((.short (hexToCompact key) (emptyIfNil (if val.isValue then val else (hashChild 0 none).1.1))
          flags,
        .short key (if val.isValue then val else (hashChild 0 none).1.2) flags), none) := by
  simp only [Hasher.hashChildren]
  split
  · rfl
  · rw [eq_of_snd_none (hhc 0)]
    rfl

theorem hashChildren_none_full (cs : Fin 17 → Node) (flags : NodeFlag) :
    Hasher.hashChildren hashChild (.full cs flags) none =
      ((.full (fun i => if i.val < 16 then (if (cs i).isNil then .value [] else (hashChild i none).1.1)
            else emptyIfNil (cs i)) flags,
        .full (fun i => if i.val < 16 ∧ (cs i).isNil = false then (hashChild i none).1.2 else cs i)
          flags), none) := by
  rw [hashChildren_full_of_loop flags (hashFullChildren_none hashChild hhc cs _ cs cs)]
  simp only [mem_nibbleIndices]

end

/-! ## The database stays `nil` -/

section
variable (h : Hasher)

/-- `hash` is `hashWith` with the hashing of the node's children. -/
theorem hash_eq_hashWith (n : Node) (db : Option MemDatabase) (force : Bool) :
    h.hash n db force = h.hashWith (fun i db => h.hash (n.child i) db false) n db force := by
  cases n with
  | short key val flags => rw [Hasher.hash]; rfl
  | full cs flags => rw [Hasher.hash]; rfl
  | nil | hash | value => rfl

theorem store_none_db (c : Node) (force : Bool) : (h.store c none force).2 = none := by
  unfold Hasher.store
  split
  · rfl
  · rfl
  · dsimp only
    split <;> rfl

theorem hashChildren_none_db (hashChild : Fin 17 → Option MemDatabase → (Node × Node) × Option MemDatabase)
    (hhc : ∀ i, (hashChild i none).2 = none) (n : Node) :
    (Hasher.hashChildren hashChild n none).2 = none := by
  cases n with
  | short key val flags => rw [hashChildren_none_short hashChild hhc]
  | full cs flags => rw [hashChildren_none_full hashChild hhc]
  | _ => rfl

/-- `hashWith` without a database: the cache's answer, or the stored collapsed node and the node
to keep with the hash cached, and still no database. -/
theorem hashWith_none (hashChild : Fin 17 → Option MemDatabase → (Node × Node) × Option MemDatabase)
    (hhc : ∀ i, (hashChild i none).2 = none) (n : Node) (force : Bool) :
    h.hashWith hashChild n none force =
      match h.fromCache n false with
      | some r => (r, none)
      | none =>
        let r := Hasher.hashChildren hashChild n none
        let hashed := (h.store r.1.1 none force).1
        ((hashed, Node.setCache r.1.2 hashed.hashOf? false), none) := by
  unfold Hasher.hashWith
  simp only [Option.isSome_none]
  cases h.fromCache n false with
  | some r => rfl
  | none =>
    simp only
    rw [eq_of_snd_none (hashChildren_none_db hashChild hhc n),
      eq_of_snd_none (store_none_db h (Hasher.hashChildren hashChild n none).1.1 force)]
    rfl

/-- Hashing without a database writes nothing. -/
theorem hash_none_db : ∀ (n : Node) (force : Bool), (h.hash n none force).2 = none := by
  intro n
  induction n with
  | short key val flags ih =>
    intro force
    rw [hash_eq_hashWith, hashWith_none h _ (fun _ => ih false)]
    split <;> rfl
  | full cs flags ih =>
    intro force
    rw [hash_eq_hashWith, hashWith_none h _ (fun i => ih i false)]
    split <;> rfl
  | nil | hash | value =>
    intro force
    rw [hash_eq_hashWith, hashWith_none h _ (fun _ => rfl)]
    split <;> rfl

end

theorem hashChildren_congr_none
    (hashChild hashChild' : Fin 17 → Option MemDatabase → (Node × Node) × Option MemDatabase)
    (hhc : ∀ i, (hashChild i none).2 = none) (heq : ∀ i, hashChild i none = hashChild' i none)
    (n : Node) : Hasher.hashChildren hashChild n none = Hasher.hashChildren hashChild' n none := by
  have hhc' : ∀ i, (hashChild' i none).2 = none := fun i => heq i ▸ hhc i
  cases n with
  | short key val flags =>
    rw [hashChildren_none_short _ hhc, hashChildren_none_short _ hhc', heq 0]
  | full cs flags =>
    rw [hashChildren_none_full _ hhc, hashChildren_none_full _ hhc']
    simp only [heq]
  | _ => rfl

private theorem hash_none_keccak_step (h : Hasher) (n : Node) (force : Bool)
    (hchild : ∀ i, h.hash (n.child i) none false = (hashMode h.keccak).hash (n.child i) none false) :
    h.hash n none force = (hashMode h.keccak).hash n none force := by
  have hcache : h.fromCache n false = (hashMode h.keccak).fromCache n false := by
    unfold Hasher.fromCache
    split <;> rfl
  rw [hash_eq_hashWith, hash_eq_hashWith, hashWith_none h _ (fun i => hash_none_db h _ false),
    hashWith_none _ _ (fun i => hash_none_db _ _ false), hcache,
    hashChildren_congr_none _ (fun i db => (hashMode h.keccak).hash (n.child i) db false)
      (fun i => hash_none_db h _ false) hchild]
  rfl

/-- Without a database, `hash` depends on the hasher only through Keccak. -/
theorem hash_none_keccak (h : Hasher) (n : Node) :
    ∀ force, h.hash n none force = (hashMode h.keccak).hash n none force := by
  induction n with
  | short key val flags ih => exact fun force => hash_none_keccak_step h _ force fun _ => ih false
  | full cs flags ih => exact fun force => hash_none_keccak_step h _ force fun i => ih i false
  | nil | hash | value => exact fun force => hash_none_keccak_step h _ force fun _ => rfl

/-! ## References and collapsed nodes -/

section
variable (keccak : List UInt8 → List UInt8)

theorem hash_child_none_db (n : Node) (i : Fin 17) :
    ((hashMode keccak).hash (n.child i) none false).2 = none :=
  hash_none_db _ _ false

/-- `store` of a node with no cached hash below the root: `storedRef`. A nil node is not stored,
and its encoding is short. -/
theorem store_of_no_cache (h : Hasher) {c : Node} (hc : c.cache.1 = none) (hh : c.hashOf? = none)
    (db : Option MemDatabase) : (h.store c db false).1 = storedRef h.keccak c := by
  cases c with
  | nil => rfl
  | hash => simp [Node.hashOf?] at hh
  | short | full | value =>
    simp only [Hasher.store, storedRef, Bool.not_false, and_true]
    split <;> simp_all [Node.cache]

@[simp] theorem ref_nil : ref keccak .nil = .nil := rfl

@[simp] theorem ref_hash (hh : List UInt8) : ref keccak (.hash hh) = .hash hh := rfl

/-- A collapsed short node: the compact key, and the value or the reference of the child. -/
theorem collapse_short (key : List UInt8) (val : Node) (flags : NodeFlag) :
    collapse keccak (.short key val flags) =
      .short (hexToCompact key) (emptyIfNil (if val.isValue then val else ref keccak val)) flags := by
  rw [collapse, hashChildren_none_short _ (hash_child_none_db keccak _)]
  rfl

/-- A collapsed full node: the references of the sixteen children, empty value nodes for the nil
ones, and the value slot. -/
theorem collapse_full (cs : Fin 17 → Node) (flags : NodeFlag) :
    collapse keccak (.full cs flags) =
      .full (fun i => if i.val < 16 then (if (cs i).isNil then .value [] else ref keccak (cs i))
        else emptyIfNil (cs i)) flags := by
  rw [collapse, hashChildren_none_full _ (hash_child_none_db keccak _)]
  rfl

theorem cache_collapse (n : Node) : (collapse keccak n).cache = n.cache := by
  cases n with
  | short key val flags => rw [collapse_short]; rfl
  | full cs flags => rw [collapse_full]; rfl
  | _ => rfl

theorem hashOf_collapse (n : Node) : (collapse keccak n).hashOf? = n.hashOf? := by
  cases n with
  | short key val flags => rw [collapse_short]; rfl
  | full cs flags => rw [collapse_full]; rfl
  | _ => rfl

theorem isNil_collapse (n : Node) : (collapse keccak n).isNil = n.isNil := by
  cases n with
  | short key val flags => rw [collapse_short]; rfl
  | full cs flags => rw [collapse_full]; rfl
  | _ => rfl

/-- A node with a cached hash is referenced by it. -/
theorem ref_of_cache {n : Node} {hh : List UInt8} (hc : n.cache.1 = some hh) :
    ref keccak n = .hash hh := by
  rw [ref, hash_eq_hashWith, hashWith_none _ _ (hash_child_none_db keccak n)]
  have : n.cache = (some hh, n.cache.2) := Prod.ext hc rfl
  unfold Hasher.fromCache
  rw [this]
  rfl

/-- A node without a cached hash, other than a hash node, is referenced by what `store` makes of
its collapsed form. -/
theorem ref_of_no_cache {n : Node} (hc : n.cache.1 = none) (hh : n.hashOf? = none) :
    ref keccak n = storedRef keccak (collapse keccak n) := by
  rw [ref, hash_eq_hashWith, hashWith_none _ _ (hash_child_none_db keccak n)]
  have : n.cache = (none, n.cache.2) := Prod.ext hc rfl
  unfold Hasher.fromCache
  rw [this]
  have hc' : (collapse keccak n).cache.1 = none := by rw [cache_collapse]; exact hc
  have hh' : (collapse keccak n).hashOf? = none := by rw [hashOf_collapse]; exact hh
  exact store_of_no_cache _ hc' hh' _

theorem isNil_storedRef (c : Node) : (storedRef keccak c).isNil = c.isNil := by
  unfold storedRef
  split
  · rfl
  · next hlen =>
    cases c with
    | nil => exact absurd (by decide) hlen
    | _ => rfl

theorem isNil_ref (n : Node) : (ref keccak n).isNil = n.isNil := by
  cases hc : n.cache.1 with
  | some hh =>
    rw [ref_of_cache keccak hc]
    cases n <;> simp_all [Node.cache, Node.isNil]
  | none =>
    cases n with
    | hash hh => rfl
    | _ => rw [ref_of_no_cache keccak hc rfl, isNil_storedRef, isNil_collapse]

end

end GoGaia.Patricia
