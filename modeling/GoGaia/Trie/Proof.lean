import GoGaia.Trie.Commit

/-!
# Merkle proofs

`Prove` (`trie/proof.go:38`) walks the path of a key from the root, resolving hash nodes on the
way, and writes to a proof database, under their hashes, the encodings of the nodes it passed that
their parent references by hash, and the root's. `VerifyProof` (`trie/proof.go:96`) reads the
root's encoding back under the root hash and follows the key through the decoded node (`get`,
`trie/proof.go:122`) to a value, to the end of the key's path, or to a hash reference, whose node
it reads next.

`verifyProof_prove` is the completeness of the pair: on a trie standing for contents `m`, `Prove`
succeeds and writes only values under their hashes, and, when no two values written have one hash,
`VerifyProof` under the trie's root hash answers what `m` holds at the key, present or absent.

The steps, and the lemma that carries each:
* the writes of `Prove`'s second loop are `proveEntries` of the walked nodes (`proveLoop_puts`),
  each under the hash of its value (`proveEntries_keyed`);
* one round of `VerifyProof` on a node read back from the proof database goes on as `get` on that
  node says (`Found`, `verifyLoop_of_found`);
* the walk below a canonical node collects nodes whose collapsed encoding, read back, leads `get`
  to what the node's contents hold (`ProveOk`), one lemma for each constructor of `Canon`; a child
  referenced by hash is the first node the walk below it writes (`found_child`).
-/

namespace GoGaia.Patricia

/-! ## The model -/

namespace Trie

variable (t : Trie)

/-- The first loop of `Prove`: the short and full nodes on the path of `key` below `tn`, with the
hash nodes met resolved in place. The loop stops at the end of the key or at a nil node. -/
def proveWalk (fuel : Nat) (tn : Node) (key : List UInt8) : Except TrieError (List Node) :=
  if key.length = 0 ∨ tn.isNil then .ok []
  else
    match fuel with
    | 0 => .error .outOfFuel
    | fuel + 1 =>
      match tn with
      | .short nkey val flags =>
        if key.length < nkey.length ∨ nkey ≠ key.take nkey.length then
          -- the trie does not contain the key
          match proveWalk fuel .nil key with
          | .error err => .error err
          | .ok nodes => .ok (.short nkey val flags :: nodes)
        else
          match proveWalk fuel val (key.drop nkey.length) with
          | .error err => .error err
          | .ok nodes => .ok (.short nkey val flags :: nodes)
      | .full cs flags =>
        match key[0]?.bind childIndex with
        | none => .error .indexOutOfRange
        | some i =>
          match proveWalk fuel (cs i) (key.drop 1) with
          | .error err => .error err
          | .ok nodes => .ok (.full cs flags :: nodes)
      | .hash h =>
        match t.resolveHash h [] with
        | .error err => .error err
        | .ok n => proveWalk fuel n key
      | _ => .error .invalidNode

end Trie

/-- The second loop of `Prove`, from the `first` node on, with `fromLevel` proof nodes still to
skip: each node is collapsed by a hasher of generation 0 without a database, and its encoding
written under its hash when its parent references it by hash, or when it is the root. -/
def proveLoop (keccak : List UInt8 → List UInt8) :
    Bool → Nat → List Node → MemDatabase → MemDatabase
  | _, _, [], proofDb => proofDb
  | first, fromLevel, n :: nodes, proofDb =>
    let n := collapse keccak n
    let hn := ((hashMode keccak).store n none false).1
    if hn.hashOf?.isSome || first then
      if fromLevel > 0 then proveLoop keccak false (fromLevel - 1) nodes proofDb
      else
        let enc := encodeNode n
        proveLoop keccak false fromLevel nodes (proofDb.put (hn.hashOf?.getD (keccak enc)) enc)
    else proveLoop keccak false fromLevel nodes proofDb

/-- `Prove`: writes a Merkle proof of `key` to `proofDb`, leaving out the `fromLevel` topmost
proof nodes. -/
def Trie.Prove (t : Trie) (keccak : List UInt8 → List UInt8) (key : List UInt8) (fromLevel : Nat)
    (proofDb : MemDatabase) : Except TrieError MemDatabase :=
  let key := keybytesToHex key
  match t.proveWalk (maxDepth key) t.root key with
  | .error err => .error err
  | .ok nodes => .ok (proveLoop keccak true fromLevel nodes proofDb)

namespace Proof

/-- `get` of `trie/proof.go`: follows `key` through a decoded node to a hash node, with the rest of
the key, to a nil node, or to a value. A full node at the end of the key is Go's index panic. -/
def get : Node → List UInt8 → Except TrieError (List UInt8 × Node)
  | .short nkey val _, key =>
    if key.length < nkey.length ∨ nkey ≠ key.take nkey.length then .ok ([], .nil)
    else get val (key.drop nkey.length)
  | .full cs _, key =>
    match key[0]?.bind childIndex with
    | none => .error .indexOutOfRange
    | some i => get (cs i) (key.drop 1)
  | .hash h, key => .ok (key, .hash h)
  | .nil, key => .ok (key, .nil)
  | .value v, _ => .ok ([], .value v)

end Proof

/-- The errors of `VerifyProof`: a missing proof node, with its index and the hash it was looked
up under, and a proof node that does not decode. `indexOutOfRange` is the panic of `get`, and
`outOfFuel` not a Go error: the model's bound on the loop ran out. -/
inductive ProofError where
  | missing (i : Nat) (hash : List UInt8)
  | badNode (i : Nat) (err : NodeError)
  | indexOutOfRange
  | outOfFuel
deriving Repr, DecidableEq

/-- The loop of `VerifyProof` from proof node `i` on, reading the node of hash `wantHash` with
`key` left to follow. It returns the value found, `none` for Go's `nil`, and the number of proof
nodes read. -/
def verifyLoop (proofDb : MemDatabase) :
    Nat → Nat → List UInt8 → List UInt8 → Except ProofError (Option (List UInt8) × Nat)
  | 0, _, _, _ => .error .outOfFuel
  | fuel + 1, i, wantHash, key =>
    match proofDb.get wantHash with
    | none => .error (.missing i wantHash)
    | some buf =>
      match decodeNode buf.length (some wantHash) buf 0 with
      | .error err => .error (.badNode i err)
      | .ok n =>
        match Proof.get n key with
        | .error _ => .error .indexOutOfRange
        -- the trie does not contain the key
        | .ok (_, .nil) => .ok (none, i)
        | .ok (keyrest, .hash cld) => verifyLoop proofDb fuel (i + 1) cld keyrest
        | .ok (_, .value cld) => .ok (some cld, i + 1)
        -- no case of the switch: the loop reads the same node again
        | .ok _ => verifyLoop proofDb fuel (i + 1) wantHash key

/-- `VerifyProof`: the value the proof in `proofDb` gives for `key` in the trie of root hash
`rootHash`, and the number of proof nodes read; Go's loop is unbounded, the model's runs `fuel`
rounds. -/
def VerifyProof (fuel : Nat) (rootHash key : List UInt8) (proofDb : MemDatabase) :
    Except ProofError (Option (List UInt8) × Nat) :=
  verifyLoop proofDb fuel 0 rootHash (keybytesToHex key)

/-! ## The writes of `Prove` -/

section
variable {keccak : List UInt8 → List UInt8}

variable (keccak) in
/-- The entries the second loop of `Prove` writes when it skips nothing, in order. -/
def proveEntries : Bool → List Node → List (List UInt8 × List UInt8)
  | _, [] => []
  | first, n :: nodes =>
    let n := collapse keccak n
    let hn := ((hashMode keccak).store n none false).1
    if hn.hashOf?.isSome || first then
      (hn.hashOf?.getD (keccak (encodeNode n)), encodeNode n) :: proveEntries false nodes
    else proveEntries false nodes

/-- The second loop of `Prove` writes the entries below the `fromLevel` topmost ones: the counter
goes down at the nodes that are written when nothing is skipped, and only there. -/
theorem proveLoop_puts (first : Bool) (fromLevel : Nat) (nodes : List Node)
    (proofDb : MemDatabase) :
    (proveLoop keccak first fromLevel nodes proofDb).puts =
      ((proveEntries keccak first nodes).drop fromLevel).reverse ++ proofDb.puts := by
  induction nodes generalizing first fromLevel proofDb with
  | nil => simp [proveLoop, proveEntries]
  | cons n nodes ih =>
    simp only [proveLoop, proveEntries]
    split
    · cases fromLevel with
      | zero => simp [ih, MemDatabase.put]
      | succ k => simp [ih]
    · exact ih false fromLevel proofDb

/-- What `store` makes of a node: the node itself, or a hash node of its cached hash or, without
one, of the hash of its encoding. -/
theorem store_cases (h : Hasher) (c : Node) (db : Option MemDatabase) (force : Bool) :
    (h.store c db force).1 = c ∨
      (h.store c db force).1 = .hash (c.cache.1.getD (h.keccak (encodeNode c))) := by
  unfold Hasher.store
  split
  · exact .inl rfl
  · exact .inl rfl
  · dsimp only
    split
    · exact .inl rfl
    · exact .inr rfl

/-- With force, `store` makes every node other than nil and hash nodes a hash node. -/
theorem store_force_cache (h : Hasher) {c : Node} (hn : c.isNil = false) (hh : c.hashOf? = none)
    (db : Option MemDatabase) :
    (h.store c db true).1 = .hash (c.cache.1.getD (h.keccak (encodeNode c))) := by
  cases c with
  | nil => cases hn
  | hash => cases hh
  | short | full | value => simp [Hasher.store]

variable (keccak) in
/-- A node `Prove` may write: not a hash node, with a cached hash, if any, that is the hash of its
collapsed encoding. -/
def ProofNode (n : Node) : Prop :=
  n.hashOf? = none ∧ ∀ h, n.cache.1 = some h → h = keccak (encodeNode (collapse keccak n))

/-- The hash `store` gives a proof node's collapsed form is the hash of its encoding. -/
theorem ProofNode.cache_getD {n : Node} (hn : ProofNode keccak n) :
    (collapse keccak n).cache.1.getD (keccak (encodeNode (collapse keccak n))) =
      keccak (encodeNode (collapse keccak n)) := by
  rw [cache_collapse]
  cases hc : n.cache.1 with
  | none => rfl
  | some h => exact hn.2 h hc

/-- A proof node is written under the hash of its encoding. -/
theorem ProofNode.key_eq {n : Node} (hn : ProofNode keccak n) :
    ((hashMode keccak).store (collapse keccak n) none false).1.hashOf?.getD
      (keccak (encodeNode (collapse keccak n))) = keccak (encodeNode (collapse keccak n)) := by
  rcases store_cases (hashMode keccak) (collapse keccak n) none false with hs | hs
  · rw [hs, hashOf_collapse, hn.1]
    rfl
  · rw [hs]
    exact hn.cache_getD

/-- A reference by hash to a proof node is by the hash of its collapsed encoding. -/
theorem ProofNode.ref_hash {n : Node} (hn : ProofNode keccak n) {h : List UInt8}
    (hr : ref keccak n = .hash h) : h = keccak (encodeNode (collapse keccak n)) := by
  cases hc : n.cache.1 with
  | some h' =>
    rw [ref_of_cache keccak hc, Node.hash.injEq] at hr
    exact hr ▸ hn.2 h' hc
  | none =>
    rw [ref_of_no_cache keccak hc hn.1] at hr
    unfold storedRef at hr
    split at hr
    · have := congrArg Node.hashOf? hr
      rw [hashOf_collapse, hn.1] at this
      cases this
    · exact (Node.hash.injEq _ _ ▸ hr).symm

theorem proveEntries_keyed {nodes : List Node} (h : ∀ x ∈ nodes, ProofNode keccak x) (first : Bool) :
    ∀ e ∈ proveEntries keccak first nodes, e.1 = keccak e.2 := by
  induction nodes generalizing first with
  | nil => exact fun _ he => absurd he List.not_mem_nil
  | cons n nodes ih =>
    have ih' := ih fun x hx => h x (List.mem_cons_of_mem n hx)
    simp only [proveEntries]
    split
    · intro e he
      rcases List.mem_cons.mp he with rfl | he
      · exact (h n List.mem_cons_self).key_eq
      · exact ih' false e he
    · exact ih' false

/-- The entries written below the first node are written whether the first node is the root or
not. -/
theorem proveEntries_tail {n : Node} {nodes : List Node} {e : List UInt8 × List UInt8}
    (first : Bool) (he : e ∈ proveEntries keccak false nodes) :
    e ∈ proveEntries keccak first (n :: nodes) := by
  simp only [proveEntries]
  split
  · exact List.mem_cons_of_mem _ he
  · exact he

/-- The root writes what a node below the root would, and more. -/
theorem proveEntries_root {nodes : List Node} {e : List UInt8 × List UInt8}
    (he : e ∈ proveEntries keccak false nodes) : e ∈ proveEntries keccak true nodes := by
  cases nodes with
  | nil => exact he
  | cons n nodes =>
    simp only [proveEntries, Bool.or_false, Bool.or_true, if_true] at he ⊢
    split at he
    · exact he
    · exact List.mem_cons_of_mem _ he

/-- The first node is written under its hash when its parent references it by hash, and the root
under the hash of its encoding. -/
theorem proveEntries_head {n : Node} {nodes : List Node} {h : List UInt8} (first : Bool)
    (hs : ((hashMode keccak).store (collapse keccak n) none false).1 = .hash h) :
    (h, encodeNode (collapse keccak n)) ∈ proveEntries keccak first (n :: nodes) := by
  simp only [proveEntries, hs, Node.hashOf?, Option.isSome_some, Bool.true_or, if_true,
    Option.getD_some]
  exact List.mem_cons_self

theorem proveEntries_root_head {n : Node} (hn : ProofNode keccak n) (nodes : List Node) :
    (keccak (encodeNode (collapse keccak n)), encodeNode (collapse keccak n)) ∈
      proveEntries keccak true (n :: nodes) := by
  simp only [proveEntries, Bool.or_true, if_true, hn.key_eq]
  exact List.mem_cons_self

end

/-! ## Reading a proof -/

section
variable {P : MemDatabase}

/-- `proofDb` answers every entry of `es`. -/
def Answers (proofDb : MemDatabase) (es : List (List UInt8 × List UInt8)) : Prop :=
  ∀ e ∈ es, proofDb.get e.1 = some e.2

/-- What `VerifyProof` makes of a result of `get` on the proof node it read for `key`, when it is
to find `v`: no value or the value at once, or, at a hash reference with a shorter rest of the
key, a loop from the referenced node that finds `v` with fuel above the rest's length. -/
def Found (proofDb : MemDatabase) (v : Option (List UInt8)) (key : List UInt8) :
    Except TrieError (List UInt8 × Node) → Prop
  | .ok (_, .nil) => v = none
  | .ok (_, .value w) => v = some w
  | .ok (rest, .hash h) => rest.length < key.length ∧
      ∀ fuel i, rest.length < fuel → ∃ j, verifyLoop proofDb fuel i h rest = .ok (v, j)
  | _ => False

theorem Found.mono {v : Option (List UInt8)} {key key' : List UInt8}
    {r : Except TrieError (List UInt8 × Node)} (hf : Found P v key' r)
    (hle : key'.length ≤ key.length) : Found P v key r := by
  rcases r with _ | ⟨rest, _ | _ | _ | h | _⟩
  all_goals try exact hf
  exact ⟨lt_of_lt_of_le hf.1 hle, hf.2⟩

/-- A round of `VerifyProof` at a node of the proof database: with fuel above the length of the
key, it finds what `get` on the decoded node leads to. -/
theorem verifyLoop_of_found {h enc key : List UInt8} {D : Node} {v : Option (List UInt8)}
    (hget : P.get h = some enc) (hdec : decodeNode enc.length (some h) enc 0 = .ok D)
    (hf : Found P v key (Proof.get D key)) {fuel : Nat} (hfuel : key.length < fuel) (i : Nat) :
    ∃ j, verifyLoop P fuel i h key = .ok (v, j) := by
  obtain ⟨fuel, rfl⟩ : ∃ f, fuel = f + 1 := ⟨fuel - 1, by omega⟩
  rcases hr : Proof.get D key with err | ⟨rest, n⟩
  · rw [hr] at hf
    exact hf.elim
  · rw [hr] at hf
    cases n with
    | nil =>
      obtain rfl : v = none := hf
      exact ⟨i, by simp only [verifyLoop, hget, hdec, hr]⟩
    | value w =>
      obtain rfl : v = some w := hf
      exact ⟨i + 1, by simp only [verifyLoop, hget, hdec, hr]⟩
    | hash h' =>
      -- the loop goes on at the referenced node, with a shorter rest of the key
      obtain ⟨hlt, hloop⟩ := hf
      obtain ⟨j, hj⟩ := hloop fuel (i + 1) (by omega)
      exact ⟨j, by simp only [verifyLoop, hget, hdec, hr, hj]⟩
    | short | full => exact hf.elim

end

/-! ## `get` on collapsed nodes read back -/

namespace Proof

theorem get_short_match {nkey rest : List UInt8} (val : Node) (f : NodeFlag) :
    get (.short nkey val f) (nkey ++ rest) = get val rest := by
  simp [get]

theorem get_short_mismatch {nkey key : List UInt8} (val : Node) (f : NodeFlag)
    (hp : ¬ nkey <+: key) : get (.short nkey val f) key = .ok ([], .nil) := by
  have hcond : key.length < nkey.length ∨ nkey ≠ key.take nkey.length := by
    by_contra h
    simp only [not_or, not_lt, ne_eq, not_not] at h
    exact hp (List.prefix_iff_eq_take.mpr h.2)
  simp only [get, hcond, if_true]

theorem get_full {cs : Fin 17 → Node} (f : NodeFlag) {x : UInt8} {i : Fin 17}
    (hi : childIndex x = some i) (rest : List UInt8) :
    get (.full cs f) (x :: rest) = get (cs i) rest := by
  simp [get, hi]

end Proof

section
variable {keccak : List UInt8 → List UInt8}

/-- An extension over a child that is neither nil nor a value, collapsed and read back: the child
is its reference, read back in turn when it is embedded. -/
theorem decoded_collapse_ext {ns : List UInt8} (hns : Nibbles ns) {c : Node}
    (hn : c.isNil = false) (hv : c.isValue = false) (f : NodeFlag) (gen : UInt16)
    (h : Option (List UInt8)) :
    (collapse keccak (.short ns c f)).decoded gen h =
      .short ns (Node.refDecoded (ref keccak c) ((ref keccak c).decoded gen none))
        ⟨h, gen, false⟩ := by
  rw [collapse_short, hv]
  simp only [Bool.false_eq_true, if_false, emptyIfNil, isNil_ref, hn]
  exact decoded_ext hns _ f gen h

/-- A full node, collapsed and read back, at the child of a nibble: a nil child is nil, another
is its reference, read back in turn when it is embedded. -/
theorem get_decoded_full (cs : Fin 17 → Node) (f : NodeFlag) (gen : UInt16)
    (h : Option (List UInt8)) {x : UInt8} {i : Fin 17} (hi : childIndex x = some i)
    (hlt : i.val < 16) (rest : List UInt8) :
    Proof.get ((collapse keccak (.full cs f)).decoded gen h) (x :: rest) =
      Proof.get (if (cs i).isNil then .nil
        else Node.refDecoded (ref keccak (cs i)) ((ref keccak (cs i)).decoded gen none)) rest := by
  rw [collapse_full]
  simp only [Node.decoded, Proof.get_full _ hi, hlt, if_true]
  split <;> rfl

/-- A full node, collapsed and read back, at the terminator: its value slot. -/
theorem get_decoded_full_slot (cs : Fin 17 → Node) (f : NodeFlag) (gen : UInt16)
    (h : Option (List UInt8)) :
    Proof.get ((collapse keccak (.full cs f)).decoded gen h) [16] =
      Proof.get (Node.slotDecoded (emptyIfNil (cs 16))) [] := by
  rw [collapse_full]
  simp only [Node.decoded]
  rw [Proof.get_full _ (childIndex_of_lt (by decide))]
  rfl

end

/-! ## The walk -/

section
variable {keccak : List UInt8 → List UInt8} {db : MemDatabase}

/-- A canonical node other than a hash node is a node `Prove` may write. -/
theorem Canon.proofNode {b : Bool} {n : Node} {m : Contents} (hc : Canon keccak db b n m)
    (hh : n.hashOf? = none) : ProofNode keccak n := by
  refine ⟨hh, fun h hcache => ?_⟩
  cases hc with
  | nil => cases hcache
  | hash => cases hcache
  | leaf _ _ _ _ _ f hf => exact hf.hash_eq h hcache
  | ext _ _ _ _ _ _ _ _ f hf => exact hf.hash_eq h hcache
  | full _ _ _ _ _ _ _ _ f hf => exact hf.hash_eq h hcache

/-- Hashing a canonical node other than a hash node stores its collapsed form, with force at the
root only. -/
theorem Canon.hash_eq_store {b : Bool} {n : Node} {m : Contents} (hc : Canon keccak db b n m)
    (hh : n.hashOf? = none) :
    ((hashMode keccak).hash n none b).1.1 = ((hashMode keccak).store (collapse keccak n) none b).1 := by
  cases hc with
  | nil => rfl
  | hash => cases hh
  | leaf _ _ _ _ _ f hf => exact hash_fst_eq_store rfl hf
  | ext _ _ _ _ _ _ _ _ f hf => exact hash_fst_eq_store rfl hf
  | full _ _ _ _ _ _ _ _ f hf => exact hash_fst_eq_store rfl hf

namespace Trie

variable (t : Trie)

theorem proveWalk_stop {fuel : Nat} {tn : Node} {key : List UInt8}
    (h : key.length = 0 ∨ tn.isNil) : t.proveWalk fuel tn key = .ok [] := by
  unfold proveWalk
  rw [if_pos h]

theorem proveWalk_short_match (fuel : Nat) {nkey rest : List UInt8} {val : Node} {f : NodeFlag}
    {nodes : List Node} (hne : nkey ++ rest ≠ [])
    (hrec : t.proveWalk fuel val rest = .ok nodes) :
    t.proveWalk (fuel + 1) (.short nkey val f) (nkey ++ rest) = .ok (.short nkey val f :: nodes) := by
  rw [proveWalk, if_neg (by simpa [Node.isNil] using hne)]
  simp [hrec]

theorem proveWalk_short_mismatch (fuel : Nat) {nkey key : List UInt8} {val : Node} {f : NodeFlag}
    (hne : key ≠ []) (hp : ¬ nkey <+: key) :
    t.proveWalk (fuel + 1) (.short nkey val f) key = .ok [.short nkey val f] := by
  have hcond : key.length < nkey.length ∨ nkey ≠ key.take nkey.length := by
    by_contra h
    simp only [not_or, not_lt, ne_eq, not_not] at h
    exact hp (List.prefix_iff_eq_take.mpr h.2)
  rw [proveWalk, if_neg (by simpa [Node.isNil] using hne)]
  simp only [hcond, if_true, proveWalk_stop t (.inr rfl : key.length = 0 ∨ Node.nil.isNil)]

theorem proveWalk_full (fuel : Nat) {cs : Fin 17 → Node} {f : NodeFlag} {x : UInt8}
    {rest : List UInt8} {i : Fin 17} (hi : childIndex x = some i) {nodes : List Node}
    (hrec : t.proveWalk fuel (cs i) rest = .ok nodes) :
    t.proveWalk (fuel + 1) (.full cs f) (x :: rest) = .ok (.full cs f :: nodes) := by
  unfold proveWalk
  simp [Node.isNil, hi, hrec]

theorem proveWalk_hash (fuel : Nat) {hh key : List UInt8} {n : Node}
    (hres : t.resolveHash hh [] = .ok n) (hne : key ≠ []) :
    t.proveWalk (fuel + 1) (.hash hh) key = t.proveWalk fuel n key := by
  rw [proveWalk, if_neg (by simpa [Node.isNil] using hne)]
  simp only [hres]

variable (keccak db) in
/-- What the walk of `Prove` collected below a node `n` standing for `m`, at `key`: nodes headed by
a canonical node for `m` (`n` itself, or the node a hash node resolves to) of `n`'s reference, all
of which `Prove` may write, such that the head's collapsed encoding, read back under any hash in
any generation, leads `get` to what `m` holds at `key` over a proof database that answers what the
walk writes below the head. -/
structure Walked (b : Bool) (n : Node) (m : Contents) (key : List UInt8) (nodes : List Node) :
    Prop where
  canon : Canon keccak db b (nodes.headD .nil) m
  hashOf_head : (nodes.headD .nil).hashOf? = none
  head_eq : n.hashOf? = none → nodes.headD .nil = n
  ref_head : ref keccak (nodes.headD .nil) = ref keccak n
  proofNodes : ∀ x ∈ nodes, ProofNode keccak x
  found : ∀ P, Answers P (proveEntries keccak false nodes) → ∀ gen h,
    Found P (m key) key (Proof.get ((collapse keccak (nodes.headD .nil)).decoded gen h) key)

variable (keccak db) in
/-- What the walk of `Prove` does below `n` standing for bounded contents `m`, at a key: with
enough fuel it succeeds, and what it collected is `Walked`. -/
def ProveOk (b : Bool) (n : Node) (m : Contents) : Prop :=
  Bounded m → ∀ {fuel : Nat} {key : List UInt8}, IsKey key → n.walkCost key ≤ fuel →
    ∃ nodes, t.proveWalk fuel n key = .ok nodes ∧ Walked keccak db b n m key nodes

/-- The walk of a node other than nil is headed by a node other than nil. -/
theorem Walked.exists_cons {b : Bool} {n : Node} {m : Contents} {key : List UInt8}
    {nodes : List Node} (hw : Walked keccak db b n m key nodes) (hn : n.isNil = false) :
    ∃ c' rest, nodes = c' :: rest ∧ c'.isNil = false := by
  have hhead : (nodes.headD .nil).isNil = false := by
    rw [← isNil_ref keccak, hw.ref_head, isNil_ref]
    exact hn
  cases nodes with
  | nil => cases hhead
  | cons c' rest => exact ⟨c', rest, rfl, hhead⟩

theorem proveOk_nil (b : Bool) : ProveOk keccak db t b .nil emptyMap := by
  intro _ fuel key _ _
  exact ⟨[], proveWalk_stop t (.inr rfl), ⟨.nil b, rfl, fun _ => rfl, rfl,
    fun _ h => absurd h List.not_mem_nil, fun _ _ _ _ => rfl⟩⟩

/-- A leaf: the walk stops below it, and `get` on it finds its value at its key and nothing at
another. -/
theorem proveOk_leaf {b : Bool} {ns w : List UInt8} (hns : Nibbles ns) (hw : w ≠ [])
    {f : NodeFlag} (hf : FlagsOk keccak db b (.short (ns ++ [16]) (.value w) f) f) :
    ProveOk keccak db t b (.short (ns ++ [16]) (.value w) f) (leafMap (ns ++ [16]) w) := by
  have hc := Canon.leaf b ns hns w hw f hf
  intro _ fuel key hk hfuel
  have hfuel' : 2 * key.length + 1 ≤ fuel := by
    simpa [Node.walkCost, Node.hashOf?] using hfuel
  obtain ⟨fuel, rfl⟩ : ∃ f, fuel = f + 1 := ⟨fuel - 1, by omega⟩
  have hD : ∀ gen h, (collapse keccak (.short (ns ++ [16]) (.value w) f)).decoded gen h =
      .short (ns ++ [16]) (.value w) ⟨h, gen, false⟩ := by
    intro gen h
    rw [collapse_short]
    exact decoded_leaf hns w f gen h
  by_cases hp : ns ++ [16] <+: key
  · -- the key is the leaf's: the walk ends at the value, where `get` finds it
    have hkey : key = ns ++ [16] ++ [] := by
      rw [List.append_nil]
      exact (IsKey.eq_of_prefix ⟨ns, hns, rfl⟩ hk hp).symm
    subst hkey
    refine ⟨_, proveWalk_short_match t fuel hk.ne_nil (proveWalk_stop t (.inl rfl)),
      ⟨hc, rfl, fun _ => rfl, rfl, ?_, fun P _ gen h => ?_⟩⟩
    · intro x hx
      rw [List.mem_singleton.mp hx]
      exact hc.proofNode rfl
    · rw [List.headD_cons, hD gen h, Proof.get_short_match, List.append_nil, leafMap_self]
      rfl
  · refine ⟨_, proveWalk_short_mismatch t fuel hk.ne_nil hp,
      ⟨hc, rfl, fun _ => rfl, rfl, ?_, fun P _ gen h => ?_⟩⟩
    · intro x hx
      rw [List.mem_singleton.mp hx]
      exact hc.proofNode rfl
    · rw [List.headD_cons, hD gen h, Proof.get_short_mismatch _ _ hp]
      exact leafMap_of_ne w fun h => hp (h ▸ List.prefix_refl _)

/-- A hash node: the walk resolves it and goes on at the node it stands for, which heads the walk
and carries the hash it was read under. -/
theorem proveOk_hash (hdb : t.db.getD .empty = db) {b : Bool} {hh blob : List UInt8}
    (hget : db.get hh = some blob) {m : Contents} {dec : UInt16 → Node}
    (hdec : ∀ gen, decodeNode blob.length (some hh) blob gen = .ok (dec gen))
    (ih : ProveOk keccak db t b (dec t.cachegen) m) : ProveOk keccak db t b (.hash hh) m := by
  intro hm fuel key hk hfuel
  have hfuel' : 2 * key.length + 2 ≤ fuel := by
    simpa [Node.walkCost, Node.hashOf?] using hfuel
  obtain ⟨fuel, rfl⟩ : ∃ f, fuel = f + 1 := ⟨fuel - 1, by omega⟩
  have hn : (dec t.cachegen).hashOf? = none := decodeNode_hashOf (hdec _)
  have hlen : (dec t.cachegen).walkCost key ≤ fuel := by
    simp only [Node.walkCost, hn, Option.isSome_none, Bool.false_eq_true, if_false]
    omega
  obtain ⟨nodes, hrec, hw⟩ := ih hm hk hlen
  refine ⟨nodes, (proveWalk_hash t fuel (resolveHash_eq t hdb hget hdec []) hk.ne_nil).trans hrec,
    ⟨hw.canon, hw.hashOf_head, fun h => by simp [Node.hashOf?] at h, ?_, hw.proofNodes, hw.found⟩⟩
  -- the resolved node carries the hash it was read under
  rw [hw.ref_head, ref_of_cache keccak (congrArg Prod.fst (decodeNode_cache (hdec _))), ref_hash]

variable (hk : ∀ x, (keccak x).length = 32) (hkeyed : Keyed keccak db)
include hk hkeyed

/-- The reference a proof node holds for a canonical child `c`, at the rest `key'` of a longer key:
a hash reference to the first node the walk below `c` writes, or `c`'s collapsed form in place.
Either way `get` through it finds what `c`'s contents hold. -/
theorem found_child {c : Node} {mc : Contents} (hn : c.isNil = false) (hm : Bounded mc)
    {key' : List UInt8} {nodes : List Node} (hw : Walked keccak db false c mc key' nodes)
    {P : MemDatabase} (hP : Answers P (proveEntries keccak false nodes)) {key : List UInt8}
    (hlt : key'.length < key.length) (gen : UInt16) :
    Found P (mc key') key
      (Proof.get (Node.refDecoded (ref keccak c) ((ref keccak c).decoded gen none)) key') := by
  obtain ⟨c', rest, rfl, hc'n⟩ := hw.exists_cons hn
  have hc' : Canon keccak db false c' mc := hw.canon
  have hh' : c'.hashOf? = none := hw.hashOf_head
  have hr' : ref keccak c' = ref keccak c := hw.ref_head
  have hstore : ref keccak c' = ((hashMode keccak).store (collapse keccak c') none false).1 :=
    hc'.hash_eq_store hh'
  rcases store_cases (hashMode keccak) (collapse keccak c') none false with hs | hs
  · -- embedded: the child is the head itself, read back in place
    have hcol : ref keccak c = collapse keccak c' := by rw [← hr', hstore, hs]
    have hcc : c.hashOf? = none := by
      cases c with
      | hash h =>
        have := congrArg Node.hashOf? hcol
        rw [ref_hash, hashOf_collapse, hh'] at this
        cases this
      | _ => rfl
    obtain rfl : c' = c := hw.head_eq hcc
    rw [hcol, refDecoded_of_node (by rw [isNil_collapse]; exact hc'n)
      (by rw [hashOf_collapse]; exact hh') (by rw [isValue_collapse]; exact hc'.isValue_eq_false)]
    exact (hw.found P hP gen none).mono hlt.le
  · -- by hash: the head is written under it, and the loop goes on there
    obtain ⟨H, hs⟩ : ∃ H, ((hashMode keccak).store (collapse keccak c') none false).1 = .hash H :=
      ⟨_, hs⟩
    rw [← hr', hstore, hs]
    show key'.length < key.length ∧
      ∀ fuel i, key'.length < fuel → ∃ j, verifyLoop P fuel i H key' = .ok (mc key', j)
    refine ⟨hlt, fun fuel i hfuel => ?_⟩
    have hget : P.get H = some (encodeNode (collapse keccak c')) := hP _ (proveEntries_head false hs)
    have hdec := decodeNode_encodeNode _ (hc'.collapsed hk hkeyed hm hh' hc'n) le_rfl (some H) [] 0
    rw [List.append_nil] at hdec
    exact verifyLoop_of_found hget hdec (hw.found P hP 0 (some H)) hfuel i

/-- An extension: the walk goes on into the child for a key through the extension's key, and stops
below it for another, where `get` finds nothing. -/
theorem proveOk_ext {b : Bool} {ns : List UInt8} (hns : Nibbles ns) (hne : ns ≠ [])
    {c : Node} {mc : Contents} (hc : Canon keccak db false c mc) (hbr : Branching mc)
    (ih : ProveOk keccak db t false c mc) {f : NodeFlag}
    (hf : FlagsOk keccak db b (.short ns c f) f) :
    ProveOk keccak db t b (.short ns c f) (extMap ns mc) := by
  have hcn := Canon.ext b ns hns hne c mc hc hbr f hf
  intro hm fuel key hkey hfuel
  have hmc : Bounded mc := drop_extMap ns mc ▸ hm.drop ns
  have hn : c.isNil = false := by
    obtain ⟨k, -, v, -, hkv, -⟩ := id hbr
    exact hc.isNil_eq_false hkv
  have hD := @decoded_collapse_ext keccak _ hns _ hn hc.isValue_eq_false f
  have hfuel' : 2 * key.length + 1 ≤ fuel := by
    simpa [Node.walkCost, Node.hashOf?] using hfuel
  obtain ⟨fuel, rfl⟩ : ∃ f, fuel = f + 1 := ⟨fuel - 1, by omega⟩
  by_cases hp : ns <+: key
  · obtain ⟨key', rfl⟩ := hp
    have hk' : IsKey key' := hkey.of_append hns
    have hlt : key'.length < (ns ++ key').length := by
      have : 0 < ns.length := List.length_pos_of_ne_nil hne
      rw [List.length_append]
      omega
    have hlen : c.walkCost key' ≤ fuel := by
      unfold Node.walkCost
      split <;> omega
    obtain ⟨nodes, hrec, hw⟩ := ih hmc hk' hlen
    refine ⟨_, proveWalk_short_match t fuel hkey.ne_nil hrec,
      ⟨hcn, rfl, fun _ => rfl, rfl, ?_, fun P hP gen h => ?_⟩⟩
    · intro x hx
      rcases List.mem_cons.mp hx with rfl | hx
      · exact hcn.proofNode rfl
      · exact hw.proofNodes x hx
    · rw [List.headD_cons, hD gen h, Proof.get_short_match, extMap_append]
      exact found_child hk hkeyed hn hmc hw (fun e he => hP e (proveEntries_tail false he)) hlt gen
  · refine ⟨_, proveWalk_short_mismatch t fuel hkey.ne_nil hp,
      ⟨hcn, rfl, fun _ => rfl, rfl, ?_, fun P _ gen h => ?_⟩⟩
    · intro x hx
      rw [List.mem_singleton.mp hx]
      exact hcn.proofNode rfl
    · rw [List.headD_cons, hD gen h, Proof.get_short_mismatch _ _ hp]
      show extMap ns mc key = none
      exact if_neg fun ht => hp (List.prefix_iff_eq_take.mpr ht.symm)

/-- A full node: the walk stops below it at the terminator and at a nil child, where `get` finds
the value slot or nothing, and goes on into the child at the key's nibble otherwise. -/
theorem proveOk_full {b : Bool} {cs : Fin 17 → Node} {ms : Fin 16 → Contents}
    (hcs : ∀ i : Fin 16, Canon keccak db false (cs i.castSucc) (ms i))
    (ih : ∀ i : Fin 16, ProveOk keccak db t false (cs i.castSucc) (ms i))
    {v16 : Option (List UInt8)} (h16 : cs 16 = v16.elim .nil .value) (hv16 : v16 ≠ some [])
    (hcount : 2 ≤ Node.nonNilCount cs) {f : NodeFlag} (hf : FlagsOk keccak db b (.full cs f) f) :
    ProveOk keccak db t b (.full cs f) (fullMap ms v16) := by
  have hc := Canon.full b cs ms hcs v16 h16 hv16 hcount f hf
  have hsingle : ∀ x ∈ [Node.full cs f], ProofNode keccak x := by
    intro x hx
    rw [List.mem_singleton.mp hx]
    exact hc.proofNode rfl
  intro hm fuel key hkey hfuel
  have hfuel' : 2 * key.length + 1 ≤ fuel := by
    simpa [Node.walkCost, Node.hashOf?] using hfuel
  obtain ⟨fuel, rfl⟩ : ∃ f, fuel = f + 1 := ⟨fuel - 1, by omega⟩
  obtain ⟨x, rest, rfl⟩ := List.exists_cons_of_ne_nil hkey.ne_nil
  obtain ⟨i, hi, hival⟩ : ∃ i : Fin 17, childIndex x = some i ∧ i.val = x.toNat :=
    ⟨_, childIndex_of_lt hkey.head_le, rfl⟩
  rcases hkey.cons_cases with ⟨rfl, rfl⟩ | ⟨hx16, hr⟩
  · -- the terminator: `get` reads the value slot
    obtain rfl : i = 16 := Fin.ext hival
    refine ⟨_, proveWalk_full t fuel hi (proveWalk_stop t (.inl rfl)),
      ⟨hc, rfl, fun _ => rfl, rfl, hsingle, fun P _ gen h => ?_⟩⟩
    rw [List.headD_cons, get_decoded_full_slot, h16, slotDecoded_emptyIfNil hv16, fullMap_slot]
    cases v16 <;> rfl
  · have hlt : i.val < 16 := hival ▸ UInt8.lt_iff_toNat_lt.mp hx16
    obtain ⟨j, rfl⟩ : ∃ j : Fin 16, i = j.castSucc := ⟨⟨i.val, hlt⟩, Fin.ext rfl⟩
    have hchild : fullMap ms v16 (x :: rest) = ms j rest := by
      rw [← nibble_of_childIndex hi, fullMap_child]
    cases hnil : (cs j.castSucc).isNil with
    | true =>
      -- a nil child: the walk stops, and `get` finds nothing
      have hmj : ms j = emptyMap := by
        have := hcs j
        rw [Node.eq_nil_of_isNil hnil] at this
        exact this.nil_contents
      refine ⟨_, proveWalk_full t fuel hi (proveWalk_stop t (.inr hnil)),
        ⟨hc, rfl, fun _ => rfl, rfl, hsingle, fun P _ gen h => ?_⟩⟩
      rw [List.headD_cons, get_decoded_full cs f gen h hi hlt, if_pos hnil, hchild, hmj]
      rfl
    | false =>
      have hmj : Bounded (ms j) := drop_fullMap_child ms v16 j ▸ hm.drop _
      have hlen : (cs j.castSucc).walkCost rest ≤ fuel := by
        simp only [List.length_cons] at hfuel'
        unfold Node.walkCost
        split <;> omega
      obtain ⟨nodes, hrec, hw⟩ := ih j hmj hr hlen
      refine ⟨_, proveWalk_full t fuel hi hrec,
        ⟨hc, rfl, fun _ => rfl, rfl, ?_, fun P hP gen h => ?_⟩⟩
      · intro y hy
        rcases List.mem_cons.mp hy with rfl | hy
        · exact hc.proofNode rfl
        · exact hw.proofNodes y hy
      · rw [List.headD_cons, get_decoded_full cs f gen h hi hlt, if_neg (by rw [hnil]; decide),
          hchild]
        exact found_child hk hkeyed hnil hmj hw (fun e he => hP e (proveEntries_tail false he))
          (by simp) gen

/-- The walk of `Prove` below a canonical node succeeds with enough fuel, and what it collects
leads `get` to what the node's contents hold. -/
theorem prove_canon (hdb : t.db.getD .empty = db) {b : Bool} {n : Node} {m : Contents}
    (hc : Canon keccak db b n m) : ProveOk keccak db t b n m := by
  induction hc with
  | nil b => exact proveOk_nil t b
  | leaf b ns hns w hw f hf => exact proveOk_leaf t hns hw hf
  | ext b ns hns hne c mc hc hbr f hf ih => exact proveOk_ext t hk hkeyed hns hne hc hbr ih hf
  | full b cs ms hcs v16 h16 hv16 hcount f hf ih =>
    exact proveOk_full t hk hkeyed hcs ih h16 hv16 hcount hf
  | hash b hh blob hget hsize m dec hdec hcd ih => exact proveOk_hash t hdb hget hdec (ih _)

omit hk hkeyed in
/-- The root hashed with force is the hash of the encoding of the walk's head: the root itself, or
the node a root hash node resolves to. -/
theorem hash_root_head {n : Node} {m : Contents} {key : List UInt8} {nodes : List Node}
    (hw : Walked keccak db true n m key nodes) (hn : n.isNil = false) :
    ((hashMode keccak).hash n none true).1.1 =
      .hash (keccak (encodeNode (collapse keccak (nodes.headD .nil)))) := by
  have hp := hw.canon.proofNode hw.hashOf_head
  cases hh : n.hashOf? with
  | none =>
    have hhead : (nodes.headD .nil).isNil = false := by rw [hw.head_eq hh]; exact hn
    rw [← hw.head_eq hh, hw.canon.hash_eq_store hw.hashOf_head,
      store_force_cache _ (by rw [isNil_collapse]; exact hhead) (by rw [hashOf_collapse]; exact hw.hashOf_head)]
    exact congrArg Node.hash hp.cache_getD
  | some H =>
    obtain rfl : n = .hash H := by
      cases n <;> cases hh
      rfl
    rw [← hp.ref_hash (hw.ref_head.trans (ref_hash _ H))]
    rfl

end Trie

end

section
variable {keccak : List UInt8 → List UInt8}

/-- On an empty trie the walk of `Prove` does not start, and `Prove` writes no node, the root
included. -/
theorem prove_of_root_nil {t : Trie} (hnil : t.root = .nil) (key : List UInt8) (fromLevel : Nat)
    (proofDb : MemDatabase) : t.Prove keccak key fromLevel proofDb = .ok proofDb := by
  simp only [Trie.Prove, hnil, @Trie.proveWalk_stop t _ .nil _ (Or.inr rfl), proveLoop]

/-- `Prove` and `VerifyProof` agree on a non-empty trie: on a trie standing for bounded contents
`m`, over a database keyed by Keccak-256 of 32 bytes, `Prove` succeeds and only adds values under
their hashes to the proof database; when no two values there have one hash, `VerifyProof` under
the trie's root hash finds what `m` holds at the key, with fuel above the length of the key's HEX
form. -/
theorem verifyProof_prove_of_ne_nil (hk : ∀ x, (keccak x).length = 32) {t : Trie} {m : Contents}
    (hs : t.Stands keccak m) (hkeyed : Keyed keccak (t.db.getD .empty)) (hm : Bounded m)
    (hne : t.root ≠ .nil) (key : List UInt8) {db₀ : MemDatabase} (hkeyed₀ : Keyed keccak db₀) :
    ∃ proofDb, t.Prove keccak key 0 db₀ = .ok proofDb ∧ KeyedExtends keccak db₀ proofDb ∧
      (CollisionFree keccak proofDb → ∀ fuel, (keybytesToHex key).length < fuel →
        ∃ nodes, VerifyProof fuel (t.Hash keccak).1 key proofDb =
          .ok (m (keybytesToHex key), nodes)) := by
  obtain ⟨nodes, hwalk, hw⟩ := Trie.prove_canon t hk hkeyed rfl hs hm
    (isKey_keybytesToHex key) (t.root.walkCost_le _)
  have hrn : t.root.isNil = false := by
    cases h : t.root with
    | nil => exact absurd h hne
    | _ => rfl
  obtain ⟨R, rest, rfl, hRn⟩ := hw.exists_cons hrn
  have hR : ProofNode keccak R := hw.canon.proofNode hw.hashOf_head
  -- the root hash is the hash of the first proof node's encoding
  have hroot : (t.Hash keccak).1 = keccak (encodeNode (collapse keccak R)) := by
    show bytesToHash ((t.hashRoot keccak none).1.1.hashOf?.getD []) = _
    rw [Trie.hashRoot_of_ne_nil hne, hash_none_keccak, Trie.hash_root_head hw hrn]
    exact bytesToHash_of_length (hk _)
  have hputs := @proveLoop_puts keccak true 0 (R :: rest) db₀
  rw [List.drop_zero] at hputs
  have hext : KeyedExtends keccak db₀ (proveLoop keccak true 0 (R :: rest) db₀) :=
    ⟨_, hputs, fun p hp => proveEntries_keyed hw.proofNodes true p (List.mem_reverse.mp hp)⟩
  refine ⟨_, by simp only [Trie.Prove, hwalk], hext, fun hcf fuel hfuel => ?_⟩
  -- with no collision, the proof database answers every entry `Prove` wrote
  have hfun := (hext.keyed hkeyed₀).functional hcf
  have hans : Answers (proveLoop keccak true 0 (R :: rest) db₀) (proveEntries keccak true (R :: rest)) :=
    fun e he => hfun.get_of_mem (by rw [hputs]; exact List.mem_append_left _ (List.mem_reverse.mpr he))
  have hdec := decodeNode_encodeNode _ (hw.canon.collapsed hk hkeyed hm hw.hashOf_head hRn) le_rfl
    (some (keccak (encodeNode (collapse keccak R)))) [] 0
  rw [List.append_nil] at hdec
  obtain ⟨j, hj⟩ := verifyLoop_of_found (hans _ (proveEntries_root_head hR rest)) hdec
    (hw.found _ (fun e he => hans e (proveEntries_root he)) 0 _) hfuel 0
  exact ⟨j, by rw [VerifyProof, hroot]; exact hj⟩

/-- **Merkle proofs of a non-empty trie are complete.** On a trie standing for bounded contents
`m`, over a database keyed by Keccak-256 of 32 bytes, `Prove` succeeds and only adds values under
their hashes to the proof database. When the trie is not empty and no two values of the proof
database have one hash, `VerifyProof` under the trie's root hash finds what `m` holds at the key,
with fuel above the length of the key's HEX form. On the empty trie `Prove` writes nothing, not even
the root its comment promises, and `VerifyProof` reports the root node missing unless the database
already held a value under the empty root hash. -/
theorem verifyProof_prove (hk : ∀ x, (keccak x).length = 32) {t : Trie} {m : Contents}
    (hs : t.Stands keccak m) (hkeyed : Keyed keccak (t.db.getD .empty)) (hm : Bounded m)
    (key : List UInt8) {db₀ : MemDatabase} (hkeyed₀ : Keyed keccak db₀) :
    ∃ proofDb, t.Prove keccak key 0 db₀ = .ok proofDb ∧ KeyedExtends keccak db₀ proofDb ∧
      (t.root ≠ .nil → CollisionFree keccak proofDb → ∀ fuel, (keybytesToHex key).length < fuel →
        ∃ nodes, VerifyProof fuel (t.Hash keccak).1 key proofDb =
          .ok (m (keybytesToHex key), nodes)) ∧
      (t.root = .nil → proofDb = db₀ ∧ ∀ fuel, db₀.get (t.Hash keccak).1 = none →
        VerifyProof (fuel + 1) (t.Hash keccak).1 key proofDb =
          .error (.missing 0 (t.Hash keccak).1)) := by
  by_cases hnil : t.root = .nil
  · -- the empty trie: nothing is written, and the loop of `VerifyProof` finds no root
    refine ⟨db₀, prove_of_root_nil hnil key 0 db₀, ⟨[], by simp, by simp⟩, fun hne => absurd hnil hne,
      fun _ => ⟨rfl, fun fuel hget => ?_⟩⟩
    simp only [VerifyProof, verifyLoop, hget]
  · obtain ⟨proofDb, hprove, hext, hverify⟩ :=
      verifyProof_prove_of_ne_nil hk hs hkeyed hm hnil key hkeyed₀
    exact ⟨proofDb, hprove, hext, fun _ => hverify, fun h => absurd h hnil⟩

/-- `Prove` with `fromLevel` levels to skip fails as it does with none, and otherwise writes what it
writes with none to an empty database, less the `fromLevel` topmost proof nodes: the nodes skipped
are the root and the nodes referenced by hash, not the embedded ones. -/
theorem prove_fromLevel (t : Trie) (keccak : List UInt8 → List UInt8) (key : List UInt8)
    (fromLevel : Nat) (proofDb : MemDatabase) :
    (t.Prove keccak key fromLevel proofDb).map MemDatabase.puts =
      (t.Prove keccak key 0 .empty).map
        fun P => (P.puts.reverse.drop fromLevel).reverse ++ proofDb.puts := by
  unfold Trie.Prove
  dsimp only
  split
  · rfl
  · simp only [Except.map, proveLoop_puts, List.drop_zero, MemDatabase.empty, List.append_nil,
      List.reverse_reverse]

/-- A proof of the key `[1]` in the trie of one dirty leaf at its HEX form, written to an empty
proof database with a hash function of 32 bytes, and read back. -/
theorem verifyProof_prove_leaf :
    ∃ proofDb, (⟨.short [0, 1, 16] (.value [5]) ⟨none, 0, true⟩, some .empty, zeroHash, 0, 0⟩ :
        Trie).Prove (fun _ => List.replicate 32 7) [1] 0 .empty = .ok proofDb ∧
      KeyedExtends (fun _ => List.replicate 32 7) .empty proofDb ∧
      ((⟨.short [0, 1, 16] (.value [5]) ⟨none, 0, true⟩, some .empty, zeroHash, 0, 0⟩ :
          Trie).root ≠ .nil →
        CollisionFree (fun _ => List.replicate 32 7) proofDb →
        ∀ fuel, (keybytesToHex [1]).length < fuel →
          ∃ nodes, VerifyProof fuel
            ((⟨.short [0, 1, 16] (.value [5]) ⟨none, 0, true⟩, some .empty, zeroHash, 0, 0⟩ :
              Trie).Hash (fun _ => List.replicate 32 7)).1 [1] proofDb =
            .ok (leafMap [0, 1, 16] [5] (keybytesToHex [1]), nodes)) ∧
      ((⟨.short [0, 1, 16] (.value [5]) ⟨none, 0, true⟩, some .empty, zeroHash, 0, 0⟩ :
          Trie).root = .nil →
        proofDb = .empty ∧ ∀ fuel, MemDatabase.empty.get
          ((⟨.short [0, 1, 16] (.value [5]) ⟨none, 0, true⟩, some .empty, zeroHash, 0, 0⟩ :
            Trie).Hash (fun _ => List.replicate 32 7)).1 = none →
          VerifyProof (fuel + 1)
            ((⟨.short [0, 1, 16] (.value [5]) ⟨none, 0, true⟩, some .empty, zeroHash, 0, 0⟩ :
              Trie).Hash (fun _ => List.replicate 32 7)).1 [1] proofDb =
            .error (.missing 0
              ((⟨.short [0, 1, 16] (.value [5]) ⟨none, 0, true⟩, some .empty, zeroHash, 0, 0⟩ :
                Trie).Hash (fun _ => List.replicate 32 7)).1)) :=
  verifyProof_prove (fun _ => @List.length_replicate UInt8 32 7)
    (t := ⟨.short [0, 1, 16] (.value [5]) ⟨none, 0, true⟩, some .empty, zeroHash, 0, 0⟩)
    (.leaf true [0, 1] (by simp) [5] (by simp) _ (flagsOk_of_dirty rfl rfl))
    (fun _ h => absurd h List.not_mem_nil) (bounded_leafMap (by decide) (by decide)) [1]
    (fun _ h => absurd h List.not_mem_nil)

end

end GoGaia.Patricia
