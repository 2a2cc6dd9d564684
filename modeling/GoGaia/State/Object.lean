import Mathlib

/-!
# Accounts and state objects

The data of `core/state/state_object.go`: the consensus form of an account (`Account`), the live
object that caches and modifies it (`StateObject`), and what the objects read from: the account
tries, the committed storage tries and the code store (`World`). Addresses and hashes are
natural numbers; Keccak-256 and the root hashes of the tries are left abstract (`Env`).

Go maps are functions: a `map[K]V` is `K → Option V`, and a `Storage` map of hashes is
`Hash → Option Hash`. The account tries are the cells of a heap addressed by `Nat`, since a
`StateDB` holds its trie by reference and `Copy` shares it.
-/

namespace GoGaia.State

/-- `common.Address`. -/
abbrev Address := Nat

/-- `common.Hash`; `0` is the zero hash `common.Hash{}`. -/
abbrev Hash := Nat

/-- The precompiled contract at address 3, whose touch is never reverted (`ripemd`,
`core/state/journal.go:95`). -/
def ripemd : Address := 3

/-- `Account`, the consensus representation of an account in the account trie. -/
structure Account where
  nonce : Nat
  balance : Int
  root : Hash
  codeHash : Hash
deriving Repr, DecidableEq, Inhabited

/-- What the model does not compute: Keccak-256, the root hash of a storage trie and of an
account trie (functions of their contents), and `emptyRoot`, the root of the empty trie. -/
structure Env where
  keccak : List UInt8 → Hash
  storageRoot : (Hash → Hash) → Hash
  stateRoot : (Address → Option Account) → Hash
  emptyRoot : Hash

/-- `emptyCodeHash = crypto.Keccak256(nil)`. -/
def Env.emptyCodeHash (env : Env) : Hash := env.keccak []

/-- A log entry (`types.Log`): the fields the caller fills in, and those `AddLog` sets. -/
structure Log where
  address : Address
  topics : List Hash
  data : List UInt8
  txHash : Hash := 0
  blockHash : Hash := 0
  txIndex : Nat := 0
  index : Nat := 0
deriving Repr, DecidableEq, Inhabited

/-- `stateObject`. `trie` is the storage trie once opened, `code` the code once loaded (Go's
`nil` is `none`), and `onDirty` whether the callback that marks the object dirty in its
`StateDB` is still set; `dbErr` records that a database read failed. -/
structure StateObject where
  address : Address
  data : Account
  dbErr : Bool
  trie : Option (Hash → Hash)
  code : Option (List UInt8)
  cachedStorage : Hash → Option Hash
  dirtyStorage : Hash → Option Hash
  dirtyCode : Bool
  suicided : Bool
  touched : Bool
  deleted : Bool
  onDirty : Bool

/-- The account tries by reference, the committed storage tries by root and the code store by
code hash. -/
structure World where
  tries : Nat → Address → Option Account
  storage : Hash → Option (Hash → Hash)
  code : Hash → Option (List UInt8)

namespace StateObject

/-- `newObject`, with the object's account data already defaulted. -/
def new (address : Address) (data : Account) (onDirty : Bool) : StateObject where
  address := address
  data := data
  dbErr := false
  trie := none
  code := none
  cachedStorage := fun _ => none
  dirtyStorage := fun _ => none
  dirtyCode := false
  suicided := false
  touched := false
  deleted := false
  onDirty := onDirty

/-- `empty`: nonce zero, balance zero and no code (EIP-161). -/
def empty (env : Env) (o : StateObject) : Bool :=
  decide (o.data.nonce = 0 ∧ o.data.balance = 0 ∧ o.data.codeHash = env.emptyCodeHash)

/-- `getTrie`: the storage trie, opened from the object's root on first access. The zero hash
and `emptyRoot` open the empty trie; a root the database does not have opens the empty trie and
records the error. -/
def getTrie (env : Env) (w : World) (o : StateObject) : (Hash → Hash) × StateObject :=
  match o.trie with
  | some t => (t, o)
  | none =>
    if o.data.root = 0 ∨ o.data.root = env.emptyRoot then
      (fun _ => 0, { o with trie := some fun _ => 0 })
    else
      match w.storage o.data.root with
      | some t => (t, { o with trie := some t })
      | none => (fun _ => 0, { o with trie := some (fun _ => 0), dbErr := true })

/-- `GetState`: the cached value, else the trie's, which is cached when it is not zero. -/
def getState (env : Env) (w : World) (o : StateObject) (key : Hash) : Hash × StateObject :=
  match o.cachedStorage key with
  | some v => (v, o)
  | none =>
    let (t, o) := o.getTrie env w
    let v := t key
    if v ≠ 0 then (v, { o with cachedStorage := Function.update o.cachedStorage key (some v) })
    else (v, o)

/-- `updateTrie`: writes the dirty storage into the storage trie; a zero value deletes its key,
which the trie reads as zero. -/
def updateTrie (env : Env) (w : World) (o : StateObject) : StateObject :=
  let (t, o) := o.getTrie env w
  let t' := fun k => match o.dirtyStorage k with
    | some v => v
    | none => t k
  { o with trie := some t', dirtyStorage := fun _ => none }

/-- `updateRoot`: the storage trie updated, and its root hash recorded in the account. -/
def updateRoot (env : Env) (w : World) (o : StateObject) : StateObject :=
  let o := o.updateTrie env w
  { o with data := { o.data with root := env.storageRoot (o.trie.getD fun _ => 0) } }

@[simp] theorem getTrie_data (env : Env) (w : World) (o : StateObject) :
    (o.getTrie env w).2.data = o.data := by
  unfold getTrie
  split
  · rfl
  · split
    · rfl
    · split <;> rfl

@[simp] theorem updateTrie_data (env : Env) (w : World) (o : StateObject) :
    (o.updateTrie env w).data = o.data := by
  simp [updateTrie]

@[simp] theorem updateRoot_balance (env : Env) (w : World) (o : StateObject) :
    (o.updateRoot env w).data.balance = o.data.balance := by
  simp [updateRoot]

/-- `Code`: the loaded code, else none for the empty code hash, else the code store's, which
is then cached. -/
def loadCode (env : Env) (w : World) (o : StateObject) : Option (List UInt8) × StateObject :=
  match o.code with
  | some c => (some c, o)
  | none =>
    if o.data.codeHash = env.emptyCodeHash then (none, o)
    else
      match w.code o.data.codeHash with
      | some c => (some c, { o with code := some c })
      | none => (none, { o with dbErr := true })

/-- `deepCopy` into a `StateDB` whose callback is set: the storage trie is copied, the cached
storage is the dirty storage, and `touched` is not kept. -/
def deepCopy (o : StateObject) : StateObject :=
  { StateObject.new o.address o.data true with
    trie := o.trie
    code := o.code
    dirtyStorage := o.dirtyStorage
    cachedStorage := o.dirtyStorage
    suicided := o.suicided
    dirtyCode := o.dirtyCode
    deleted := o.deleted }

end StateObject

end GoGaia.State
