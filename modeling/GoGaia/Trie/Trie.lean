import GoGaia.Trie.Hasher

/-!
# The Merkle Patricia trie

`trie/trie.go`. A `Trie` holds its root node, its database and its cache generation. Its
operations take keys as bytes and walk HEX keys (`keybytesToHex`): `tryGet`, `insert` and
`delete` follow the key through the nodes, resolving hash nodes from the database on the way
(`resolveHash`); `Hash` hashes the trie in memory and `Commit` writes it to its database.

The walks recurse into nodes they resolve from the database, so they are not structurally
recursive; the model bounds their depth by `maxDepth` of the key, two calls for each nibble (a
hash node and the node it resolves to) and two more for the end of the key. The trie theorems
show the bound is never reached. `outOfFuel`, Go's run-time panics and the nil-pointer panics of
a missing database are errors of the model (`TrieError`), so every function returns.

Methods that mutate the trie return the new trie with their result: `TryGet` keeps the nodes
it resolved, `TryUpdate` and `TryDelete` replace the root, `Commit` replaces the root and the
database and starts a new cache generation.
-/

namespace GoGaia.Patricia

/-- The errors of the trie functions. `missingNode` is `*MissingNodeError`; the others stand
for panics: `decodeFailure` is the panic of `mustDecodeNode`, `invalidNode` the one of the
`default` cases of `insert` and `delete`, `interfaceConversion` a failed type assertion,
`indexOutOfRange` a slice or array index out of range, `nilDatabase` a call on a nil
`Database`. `outOfFuel` is not a Go error: the depth bound of the model ran out. -/
inductive TrieError where
  | missingNode (nodeHash : List UInt8) (path : List UInt8)
  | decodeFailure (hash : List UInt8) (err : NodeError)
  | invalidNode
  | interfaceConversion
  | indexOutOfRange
  | nilDatabase
  | outOfFuel
deriving Repr, DecidableEq, Inhabited

/-- `common.BytesToHash`: the last 32 bytes, padded with zero bytes on the left. -/
def bytesToHash (b : List UInt8) : List UInt8 :=
  List.replicate (32 - b.length) 0 ++ b.drop (b.length - 32)

/-- `common.Hash{}`, the zero hash. -/
def zeroHash : List UInt8 := List.replicate 32 0

/-- `emptyRoot`: the known root hash of an empty trie,
`56e81f171bcc55a6ff8345e692c0f86e5b48e01b996cadc001622fb5e363b421`. -/
def emptyRoot : List UInt8 :=
  [0x56, 0xe8, 0x1f, 0x17, 0x1b, 0xcc, 0x55, 0xa6, 0xff, 0x83, 0x45, 0xe6, 0x92, 0xc0, 0xf8, 0x6e,
   0x5b, 0x48, 0xe0, 0x1b, 0x99, 0x6c, 0xad, 0xc0, 0x01, 0x62, 0x2f, 0xb5, 0xe3, 0x63, 0xb4, 0x21]

/-- `Trie`. `db` is `none` for a trie without a database. -/
structure Trie where
  root : Node
  db : Option MemDatabase
  originalRoot : List UInt8
  cachegen : UInt16
  cachelimit : UInt16

/-- The depth bound of the walks along `key`. -/
def maxDepth (key : List UInt8) : Nat := 2 * key.length + 2

/-- The index of an array of seventeen children, if the byte is below 17. -/
def childIndex (b : UInt8) : Option (Fin 17) :=
  if h : b.toNat < 17 then some ⟨b.toNat, h⟩ else none

/-- The scan at the end of `delete`'s full-node case: the index of the only non-nil child, `-1`
if there is none and `-2` if there are two or more. -/
def remainingPos (cs : Fin 17 → Node) : Int :=
  (List.finRange 17).foldl
    (fun pos i => if (cs i).isNil then pos else if pos = -1 then (i.val : Int) else -2) (-1)

namespace Trie

variable (t : Trie)

/-- `SetCacheLimit`. -/
def setCacheLimit (l : UInt16) : Trie := { t with cachelimit := l }

/-- `newFlag`: the flags of a node made in the current generation, dirty. -/
def newFlag : NodeFlag := ⟨none, t.cachegen, true⟩

/-- `resolveHash`: the node stored under `n`, decoded with `n` as its cached hash. -/
def resolveHash (n : List UInt8) (pfx : List UInt8) : Except TrieError Node :=
  match t.db with
  | none => .error .nilDatabase
  | some db =>
    match db.get n with
    | none => .error (.missingNode n pfx)
    | some enc =>
      match decodeNode enc.length (some n) enc t.cachegen with
      | .ok dec => .ok dec
      -- a run-time panic of the decoder unwinds past `mustDecodeNode`
      | .error .indexOutOfRange => .error .indexOutOfRange
      | .error err => .error (.decodeFailure n err)

/-- `resolve`: resolves a hash node, leaves any other node as it is. -/
def resolve (n : Node) (pfx : List UInt8) : Except TrieError Node :=
  match n with
  | .hash h => t.resolveHash h pfx
  | n => .ok n

/-- `tryGet`: the value at `key` below `origNode`, which sits at position `pos` of the key, and
the node with the nodes resolved on the way put in place when `didResolve`. -/
def tryGet : Nat → Node → List UInt8 → Nat → Except TrieError (Option (List UInt8) × Node × Bool)
  | 0, _, _, _ => .error .outOfFuel
  | fuel + 1, origNode, key, pos =>
    match origNode with
    | .nil => .ok (none, .nil, false)
    | .value v => .ok (some v, .value v, false)
    | .short nkey val flags =>
      if key.length - pos < nkey.length ∨ nkey ≠ (key.drop pos).take nkey.length then
        -- key not found in trie
        .ok (none, origNode, false)
      else
        match tryGet fuel val key (pos + nkey.length) with
        | .error err => .error err
        | .ok (value, newnode, didResolve) =>
          if didResolve then .ok (value, .short nkey newnode { flags with gen := t.cachegen }, true)
          else .ok (value, origNode, false)
    | .full cs flags =>
      match key[pos]?.bind childIndex with
      | none => .error .indexOutOfRange
      | some i =>
        match tryGet fuel (cs i) key (pos + 1) with
        | .error err => .error err
        | .ok (value, newnode, didResolve) =>
          if didResolve then
            .ok (value, .full (Function.update cs i newnode) { flags with gen := t.cachegen }, true)
          else .ok (value, origNode, false)
    | .hash h =>
      match t.resolveHash h (key.take pos) with
      | .error err => .error err
      | .ok child =>
        match tryGet fuel child key pos with
        | .error err => .error err
        | .ok (value, newnode, _) => .ok (value, newnode, true)

/-- `TryGet`: the value stored for `key`, `none` for Go's `nil`. -/
def TryGet (key : List UInt8) : Except TrieError (Option (List UInt8)) × Trie :=
  let key := keybytesToHex key
  match t.tryGet (maxDepth key) t.root key 0 with
  | .error err => (.error err, t)
  | .ok (value, newroot, didResolve) =>
    (.ok value, if didResolve then { t with root := newroot } else t)

/-- `insert`: the node `n` at `pfx` with `value` inserted at the rest `key` of the key, and
whether it changed. -/
def insert : Nat → Node → List UInt8 → List UInt8 → Node → Except TrieError (Bool × Node)
  | 0, _, _, _, _ => .error .outOfFuel
  | fuel + 1, n, pfx, key, value =>
    if key.length = 0 then
      match n with
      | .value v =>
        match value with
        | .value w => .ok (v != w, value)
        | _ => .error .interfaceConversion
      | _ => .ok (true, value)
    else
      match n with
      | .short nkey nval _ =>
        let matchlen := prefixLen key nkey
        -- if the whole key matches, keep this short node as is and only update the value
        if matchlen = nkey.length then
          match insert fuel nval (pfx ++ key.take matchlen) (key.drop matchlen) value with
          | .error err => .error err
          | .ok (dirty, nn) =>
            if !dirty then .ok (false, n) else .ok (true, .short nkey nn t.newFlag)
        else
          -- otherwise branch out at the index where they differ
          match nkey[matchlen]?.bind childIndex, key[matchlen]?.bind childIndex with
          | some i₁, some i₂ =>
            match insert fuel .nil (pfx ++ nkey.take (matchlen + 1)) (nkey.drop (matchlen + 1))
                nval with
            | .error err => .error err
            | .ok (_, c₁) =>
              match insert fuel .nil (pfx ++ key.take (matchlen + 1)) (key.drop (matchlen + 1))
                  value with
              | .error err => .error err
              | .ok (_, c₂) =>
                let branch : Node :=
                  .full (Function.update (Function.update (fun _ => .nil) i₁ c₁) i₂ c₂) t.newFlag
                -- replace this short node with the branch if it occurs at index 0
                if matchlen = 0 then .ok (true, branch)
                else .ok (true, .short (key.take matchlen) branch t.newFlag)
          | _, _ => .error .indexOutOfRange
      | .full cs _ =>
        match key[0]?.bind childIndex with
        | none => .error .indexOutOfRange
        | some i =>
          match insert fuel (cs i) (pfx ++ key.take 1) (key.drop 1) value with
          | .error err => .error err
          | .ok (dirty, nn) =>
            if !dirty then .ok (false, n) else .ok (true, .full (Function.update cs i nn) t.newFlag)
      | .nil => .ok (true, .short key value t.newFlag)
      | .hash h =>
        -- load the node and insert into it, leaving the nodes on the path in the trie
        match t.resolveHash h pfx with
        | .error err => .error err
        | .ok rn =>
          match insert fuel rn pfx key value with
          | .error err => .error err
          | .ok (dirty, nn) => if !dirty then .ok (false, rn) else .ok (true, nn)
      | .value _ => .error .invalidNode

/-- `delete`: the node `n` at `pfx` with the value at the rest `key` of the key removed, reduced
to minimal form on the way up, and whether it changed. -/
def delete : Nat → Node → List UInt8 → List UInt8 → Except TrieError (Bool × Node)
  | 0, _, _, _ => .error .outOfFuel
  | fuel + 1, n, pfx, key =>
    match n with
    | .short nkey nval _ =>
      let matchlen := prefixLen key nkey
      -- don't replace n on mismatch
      if matchlen < nkey.length then .ok (false, n)
      -- remove n entirely for whole matches
      else if matchlen = key.length then .ok (true, .nil)
      else
        match delete fuel nval (pfx ++ key.take nkey.length) (key.drop nkey.length) with
        | .error err => .error err
        | .ok (dirty, child) =>
          if !dirty then .ok (false, n)
          else
            match child with
            -- merge a short child into this node
            | .short ckey cval _ => .ok (true, .short (nkey ++ ckey) cval t.newFlag)
            | child => .ok (true, .short nkey child t.newFlag)
    | .full cs _ =>
      match key[0]?.bind childIndex with
      | none => .error .indexOutOfRange
      | some i =>
        match delete fuel (cs i) (pfx ++ key.take 1) (key.drop 1) with
        | .error err => .error err
        | .ok (dirty, nn) =>
          if !dirty then .ok (false, n)
          else
            let cs := Function.update cs i nn
            let pos := remainingPos cs
            if h : 0 ≤ pos ∧ pos < 17 then
              let p : Fin 17 := ⟨pos.toNat, by omega⟩
              -- a single remaining child replaces the node under a one-nibble key, and a short
              -- child gets the nibble tacked to the front of its own key
              if p.val ≠ 16 then
                match t.resolve (cs p) pfx with
                | .error err => .error err
                | .ok (.short ckey cval _) =>
                  .ok (true, .short (UInt8.ofNat p.val :: ckey) cval t.newFlag)
                | .ok _ => .ok (true, .short [UInt8.ofNat p.val] (cs p) t.newFlag)
              else .ok (true, .short [UInt8.ofNat p.val] (cs p) t.newFlag)
            -- n still contains at least two values and cannot be reduced
            else .ok (true, .full cs t.newFlag)
    | .value _ => .ok (true, .nil)
    | .nil => .ok (false, .nil)
    | .hash h =>
      -- load the node and delete from it, leaving the nodes on the path in the trie
      match t.resolveHash h pfx with
      | .error err => .error err
      | .ok rn =>
        match delete fuel rn pfx key with
        | .error err => .error err
        | .ok (dirty, nn) => if !dirty then .ok (false, rn) else .ok (true, nn)

/-- `TryUpdate`: associates `key` with `value`; an empty value deletes the key. -/
def TryUpdate (key value : List UInt8) : Except TrieError Unit × Trie :=
  let k := keybytesToHex key
  if value.length ≠ 0 then
    match t.insert (maxDepth k) t.root [] k (.value value) with
    | .error err => (.error err, t)
    | .ok (_, n) => (.ok (), { t with root := n })
  else
    match t.delete (maxDepth k) t.root [] k with
    | .error err => (.error err, t)
    | .ok (_, n) => (.ok (), { t with root := n })

/-- `TryDelete`: removes any existing value for `key`. -/
def TryDelete (key : List UInt8) : Except TrieError Unit × Trie :=
  let k := keybytesToHex key
  match t.delete (maxDepth k) t.root [] k with
  | .error err => (.error err, t)
  | .ok (_, n) => (.ok (), { t with root := n })

/-- `hashRoot`: the root hashed with `force`, and the root to keep. -/
def hashRoot (keccak : List UInt8 → List UInt8) (db : Option MemDatabase) :
    (Node × Node) × Option MemDatabase :=
  match t.root with
  | .nil => ((.hash emptyRoot, .nil), db)
  | root => (Hasher.mk keccak t.cachegen t.cachelimit).hash root db true

/-- `Hash`: the root hash, computed without writing to the database. -/
def Hash (keccak : List UInt8 → List UInt8) : List UInt8 × Trie :=
  let ((hash, cached), _) := t.hashRoot keccak none
  (bytesToHash (hash.hashOf?.getD []), { t with root := cached })

/-- `CommitTo`: writes the trie's nodes to `db` and starts a new cache generation. -/
def CommitTo (keccak : List UInt8 → List UInt8) (db : MemDatabase) :
    (List UInt8 × Trie) × MemDatabase :=
  let ((hash, cached), db') := t.hashRoot keccak (some db)
  ((bytesToHash (hash.hashOf?.getD []), { t with root := cached, cachegen := t.cachegen + 1 }),
    db'.getD db)

/-- `Commit`: writes the trie's nodes to its own database. -/
def Commit (keccak : List UInt8 → List UInt8) : Except TrieError (List UInt8 × Trie) :=
  match t.db with
  | none => .error .nilDatabase
  | some db =>
    let ((root, t'), db') := t.CommitTo keccak db
    .ok (root, { t' with db := some db' })

end Trie

/-- `New`: the trie with root `root` in `db`; the zero hash and `emptyRoot` open an empty trie.
-/
def New (root : List UInt8) (db : Option MemDatabase) : Except TrieError Trie :=
  let trie : Trie := ⟨.nil, db, root, 0, 0⟩
  if root ≠ zeroHash ∧ root ≠ emptyRoot then
    match db with
    | none => .error .nilDatabase
    | some _ =>
      match trie.resolveHash root [] with
      | .error err => .error err
      | .ok rootnode => .ok { trie with root := rootnode }
  else .ok trie

end GoGaia.Patricia
