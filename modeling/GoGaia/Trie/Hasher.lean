import GoGaia.Rlp.Encode
import GoGaia.Trie.Node

/-!
# The hasher

`trie/hasher.go`. `hash` collapses a node into what its parent stores: a hash node for a node
whose encoding has 32 bytes or more (or for the root, which is always hashed), the collapsed
node itself otherwise. It also returns the node to keep in memory, with the hashes of its
children and its own hash cached in its flags. In commit mode (a database is given) every
hashed node is written to the database under its hash and marked clean, and clean nodes old
enough are unloaded to their hash nodes.

The database is `fbcdb.MemDatabase` (`fbcdb/memory_database.go`), a map from keys to values. Its
model is the list of its writes, newest first: `get` reads the newest write of a key. Keccak-256
is a parameter of the hasher (`Hasher.keccak`).
-/

namespace GoGaia.Patricia

/-- `MemDatabase`: the writes made to the map, newest first. -/
structure MemDatabase where
  puts : List (List UInt8 × List UInt8)
deriving Inhabited

namespace MemDatabase

/-- `NewMemDatabase`. -/
def empty : MemDatabase := ⟨[]⟩

/-- `Get`: the value of the newest write of `key`; Go's "not found" error is `none`. -/
def get (db : MemDatabase) (key : List UInt8) : Option (List UInt8) :=
  (db.puts.find? (·.1 == key)).map (·.2)

/-- `Put`. -/
def put (db : MemDatabase) (key value : List UInt8) : MemDatabase := ⟨(key, value) :: db.puts⟩

end MemDatabase

/-- `hasher`: Keccak-256 and the cache generation and limit of the trie it hashes. -/
structure Hasher where
  keccak : List UInt8 → List UInt8
  cachegen : UInt16
  cachelimit : UInt16

namespace Node

/-- Whether a node is Go's `nil`. -/
def isNil : Node → Bool
  | .nil => true
  | _ => false

/-- Whether a node is a value node. -/
def isValue : Node → Bool
  | .value _ => true
  | _ => false

/-- The hash of a hash node: `hashed.(hashNode)`. -/
def hashOf? : Node → Option (List UInt8)
  | .hash h => some h
  | _ => none

/-- Caches `hash` in the flags of a full or short node, and marks it clean in commit mode. -/
def setCache (n : Node) (hash : Option (List UInt8)) (commit : Bool) : Node :=
  match n with
  | .short key val flags =>
    .short key val { flags with hash := hash, dirty := if commit then false else flags.dirty }
  | .full cs flags =>
    .full cs { flags with hash := hash, dirty := if commit then false else flags.dirty }
  | n => n

end Node

/-- `rlp.Encode(h.tmp, n)`: the encoding of a collapsed node. -/
def encodeNode (n : Node) : List UInt8 := Rlp.encodeToBytes n.toItem

namespace Hasher

variable (h : Hasher)

/-- The first block of `hash`: a node with a cached hash is its hash when only hashing; in commit
mode an unloadable node is replaced by its hash, and a clean one is kept. `none`: the node must
be hashed again. -/
def fromCache (n : Node) (commit : Bool) : Option (Node × Node) :=
  match n.cache with
  | (some hash, dirty) =>
    if !commit then some (.hash hash, n)
    else if n.canUnload h.cachegen h.cachelimit then some (.hash hash, .hash hash)
    else if !dirty then some (.hash hash, n)
    else none
  | (none, _) => none

/-- The loop of `hashChildren` over the full node's children `i` in `is`: a non-nil child is
replaced by its collapsed form in `collapsed` and its cached form in `cached`, a nil child by an
empty value node in `collapsed`. -/
def hashFullChildren (hashChild : Fin 17 → Option MemDatabase → (Node × Node) × Option MemDatabase)
    (cs : Fin 17 → Node) : List (Fin 17) → (Fin 17 → Node) → (Fin 17 → Node) → Option MemDatabase →
      ((Fin 17 → Node) × (Fin 17 → Node)) × Option MemDatabase
  | [], collapsed, cached, db => ((collapsed, cached), db)
  | i :: is, collapsed, cached, db =>
    if (cs i).isNil then
      hashFullChildren hashChild cs is (Function.update collapsed i (.value [])) cached db
    else
      let ((c₁, c₂), db) := hashChild i db
      hashFullChildren hashChild cs is (Function.update collapsed i c₁) (Function.update cached i c₂)
        db

/-- The first sixteen children of a full node, in order. -/
def nibbleIndices : List (Fin 17) := (List.finRange 16).map Fin.castSucc

/-- `hashChildren`: the collapsed node (compact key, children replaced by what `hash` returns
for them, nil children by empty value nodes) and the node to cache (children replaced by their
cached forms). `hashChild i` is `h.hash(child, db, false)` of the node's child `i`; a short
node's child is child `0`. -/
def hashChildren (hashChild : Fin 17 → Option MemDatabase → (Node × Node) × Option MemDatabase)
    (original : Node) (db : Option MemDatabase) : (Node × Node) × Option MemDatabase :=
  match original with
  | .short key val flags =>
    let ((cval, cachedVal), db) := if val.isValue then ((val, val), db) else hashChild 0 db
    -- nil children are encoded as empty strings
    let cval := if cval.isNil then .value [] else cval
    ((.short (hexToCompact key) cval flags, .short key cachedVal flags), db)
  | .full cs flags =>
    let ((collapsed, cached), db) := hashFullChildren hashChild cs nibbleIndices cs cs db
    let collapsed := if (collapsed 16).isNil then Function.update collapsed 16 (.value []) else collapsed
    ((.full collapsed flags, .full cached flags), db)
  | n => ((n, n), db)

/-- `store`: a collapsed node of at least 32 bytes (or any, with `force`) becomes its hash, and is
written to the database in commit mode; hash nodes and `nil` are not stored. -/
def store (n : Node) (db : Option MemDatabase) (force : Bool) : Node × Option MemDatabase :=
  match n with
  | .nil | .hash _ => (n, db)
  | _ =>
    let enc := encodeNode n
    -- nodes smaller than 32 bytes are stored inside their parent
    if enc.length < 32 ∧ !force then (n, db)
    else
      let hash := n.cache.1.getD (h.keccak enc)
      (.hash hash, db.map (·.put hash enc))

/-- The body of `hash`, with `hashChild i` hashing the node's child `i`: the cache answers if it
can; otherwise the children are hashed, the collapsed node is stored, and its hash is cached in
the node to keep. -/
def hashWith (hashChild : Fin 17 → Option MemDatabase → (Node × Node) × Option MemDatabase)
    (n : Node) (db : Option MemDatabase) (force : Bool) : (Node × Node) × Option MemDatabase :=
  match h.fromCache n db.isSome with
  | some r => (r, db)
  | none =>
    let ((collapsed, cached), db) := hashChildren hashChild n db
    let (hashed, db) := h.store collapsed db force
    ((hashed, Node.setCache cached hashed.hashOf? db.isSome), db)

/-- `hash`: the collapsed form of `n` (a hash node or an embedded node) and the node to keep in
its place, with its hash cached. `db` is the database of commit mode, `none` when only hashing.
The children are hashed with `force` off. -/
def hash (n : Node) (db : Option MemDatabase) (force : Bool) : (Node × Node) × Option MemDatabase :=
  match n with
  | .short _ val _ => h.hashWith (fun _ db => hash val db false) n db force
  | .full cs _ => h.hashWith (fun i db => hash (cs i) db false) n db force
  | _ => h.hashWith (fun _ db => ((.nil, .nil), db)) n db force

end Hasher

end GoGaia.Patricia
