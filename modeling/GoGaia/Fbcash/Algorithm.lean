import Mathlib
import GoGaia.Lib.BigEndian
import GoGaia.Lib.LittleEndian
import GoGaia.Lib.Slice

/-!
# The proof-of-work dataset and `hashimoto`

`consensus/fbcash/algorithm.go`, `sealer.go` and `consensus.go`. A dataset item is generated from
the verification cache (`generateDatasetItem`): a cache row mixed with the index and hashed, then
mixed with 256 pseudo-randomly chosen rows by `fnv`, then hashed again. `hashimoto` mixes the header
hash and a nonce with 64 pseudo-randomly chosen pairs of dataset items, read through a `lookup`. A
miner reads the items from the whole dataset in memory (`hashimotoFull`), which `generateDataset`
filled; a verifier generates each item it needs from the cache (`hashimotoLight`).

`generateDataset` runs one writer per CPU, each over a segment of the item indices (`segment`), and
the writes land in an order the scheduler chooses: the model takes that order as an argument, and
its results hold for every order the segments can be interleaved in. The dataset is written through
its byte view, `dest` reinterpreted as bytes, which on a little-endian machine is the little-endian
encoding of its words; the byte swap of big-endian machines is left out. The integer types are the
source's: item indices, rows and offsets are `uint32` and wrap, sizes are `uint64`. A Go panic is
`none`: a zero number of rows, a progress step of zero, a slice bound past the end.

Keccak-512 and Keccak-256 are abstract; of Keccak-512 only its digest length is used.
-/

namespace GoGaia.Fbcash

/-- `mixBytes`: the width of the mix. -/
def mixBytes : Nat := 128

/-- `hashBytes`: the length of a hash, and of a dataset item. -/
def hashBytes : Nat := 64

/-- `hashWords`: the 32-bit words of a hash. -/
def hashWords : Nat := 16

/-- `datasetParents`: the cache rows mixed into a dataset item. -/
def datasetParents : Nat := 256

/-- `loopAccesses`: the pairs of dataset items `hashimoto` mixes in. -/
def loopAccesses : Nat := 64

/-- `epochLength`: the blocks of an epoch. -/
def epochLength : Nat := 30000

/-- `maxUint256`. -/
def maxUint256 : Int := 2 ^ 256 - 1

/-- A Keccak-512 hasher, `crypto.Keccak512` or a `makeHasher(sha3.NewKeccak512())` writing into a
64-byte buffer. -/
structure Keccak512 where
  hash : List UInt8 → List UInt8
  length_hash : ∀ data, (hash data).length = hashBytes

/-- `fnv`: the prime times the whole first word, xor the second. -/
def fnv (a b : UInt32) : UInt32 := a * 0x01000193 ^^^ b

/-- `fnvHash`: `mix[i] = mix[i]*0x01000193 ^ data[i]` over the words of the mix. -/
def fnvHash (mix data : List UInt32) : List UInt32 :=
  List.zipWith (fun m d => m * 0x01000193 ^^^ d) mix data

/-- `generateDatasetItem`: dataset item `index`, from 256 rows of the cache. -/
def generateDatasetItem (cache : List UInt32) (index : UInt32) (keccak512 : Keccak512) :
    Option (List UInt8) :=
  let rows : UInt32 := UInt32.ofNat (cache.length / hashWords)
  if rows = 0 then none
  else
    let row := index % rows * UInt32.ofNat hashWords
    let mix := LittleEndian.putUint32 (cache.getD row.toNat 0 ^^^ index) ++
      (List.range' 1 (hashWords - 1)).flatMap fun i =>
        LittleEndian.putUint32 (cache.getD (row + UInt32.ofNat i).toNat 0)
    let mix := keccak512.hash mix
    let intMix := LittleEndian.decodeWords mix
    let intMix := (List.range datasetParents).foldl (fun intMix i =>
      let parent := fnv (index ^^^ UInt32.ofNat i) (intMix.getD (i % 16) 0) % rows
      fnvHash intMix (cache.drop (parent * UInt32.ofNat hashWords).toNat)) intMix
    some (keccak512.hash (LittleEndian.encodeWords intMix))

/-- The item indices writer `id` of `threads` generates, in its order: `batch` of them from
`id * batch`, cut at the number of items. -/
def segment (size : UInt64) (threads id : Nat) : List UInt32 :=
  let batch : UInt32 := ((size + UInt64.ofNat hashBytes * UInt64.ofNat threads - 1) /
    (UInt64.ofNat hashBytes * UInt64.ofNat threads)).toUInt32
  let first : UInt32 := UInt32.ofNat id * batch
  let limit : UInt32 := first + batch
  let limit : UInt32 :=
    if limit > (size / UInt64.ofNat hashBytes).toUInt32 then (size / UInt64.ofNat hashBytes).toUInt32
    else limit
  (List.range (limit.toNat - first.toNat)).map fun k => first + UInt32.ofNat k

/-- The item indices of all the writers of `generateDataset`, writer by writer. -/
def datasetIndices (size : UInt64) (threads : Nat) : List UInt32 :=
  (List.range threads).flatMap (segment size threads)

/-- `generateDataset` when the writers' items land in the order `order`: each item is generated
and copied to `index*hashBytes` of the byte view of `dest`, and the progress counter is
reduced modulo `size/hashBytes/100`. -/
def generateDataset (keccak512 : Keccak512) (dest cache : List UInt32) (order : List UInt32) :
    Option (List UInt32) := do
  let size : UInt64 := UInt64.ofNat (dest.length * 4)
  let percent : UInt32 := (size / UInt64.ofNat hashBytes / 100).toUInt32
  let dataset ← order.foldlM (fun dataset index => do
      let item ← generateDatasetItem cache index keccak512
      let off := (index * UInt32.ofNat hashBytes).toNat
      guard (off ≤ dataset.length)
      guard (percent ≠ 0)
      pure (Slice.copyAt dataset off item)) (LittleEndian.encodeWords dest)
  pure (LittleEndian.decodeWords dataset)

/-- One access of the loop of `hashimoto`: the parent row from the mix, its two dataset items
copied into `temp`, and `temp` mixed into the mix. -/
def mixAccess (lookup : UInt32 → Option (List UInt32)) (rows seedHead : UInt32) (i : Nat)
    (mix temp : List UInt32) : Option (List UInt32 × List UInt32) := do
  guard (rows ≠ 0)
  let parent := fnv (UInt32.ofNat i ^^^ seedHead) (mix.getD (i % mix.length) 0) % rows
  let temp ← (List.range (mixBytes / hashBytes)).foldlM (fun temp j => do
      let data ← lookup (2 * parent + UInt32.ofNat j)
      pure (Slice.copyAt temp (j * hashWords) data)) temp
  pure (fnvHash mix temp, temp)

/-- The compression of `hashimoto`: each four words of the mix folded into one, in place, and the
mix cut to a quarter. -/
def compressMix (mix : List UInt32) : List UInt32 :=
  let mix' := (List.range ((mix.length + 3) / 4)).foldl (fun m k =>
    m.set k (fnv (fnv (fnv (m.getD (4 * k) 0) (m.getD (4 * k + 1) 0)) (m.getD (4 * k + 2) 0))
      (m.getD (4 * k + 3) 0))) mix
  mix'.take (mix'.length / 4)

/-- `hashimoto`: the mix digest and the result for a header hash and a nonce, over a dataset of
`size` bytes read through `lookup`. -/
def hashimoto (keccak512 : Keccak512) (keccak256 : List UInt8 → List UInt8) (hash : List UInt8)
    (nonce : UInt64) (size : UInt64) (lookup : UInt32 → Option (List UInt32)) :
    Option (List UInt8 × List UInt8) := do
  let rows : UInt32 := (size / UInt64.ofNat mixBytes).toUInt32
  let seed := Slice.copyAt (Slice.copyAt (List.replicate 40 0) 0 hash) 32
    (LittleEndian.putUint64 nonce)
  let seed := keccak512.hash seed
  let seedHead := LittleEndian.uint32 seed
  let mix := (List.range (mixBytes / 4)).map fun i => LittleEndian.uint32 (seed.drop (i % 16 * 4))
  let temp := List.replicate mix.length 0
  let (mix, _) ← (List.range loopAccesses).foldlM
    (fun (st : List UInt32 × List UInt32) i => mixAccess lookup rows seedHead i st.1 st.2) (mix, temp)
  let digest := LittleEndian.encodeWords (compressMix mix)
  pure (digest, keccak256 (seed ++ digest))

/-- The lookup of `hashimotoLight`: the item generated from the cache, as words. -/
def lightLookup (keccak512 : Keccak512) (cache : List UInt32) (index : UInt32) :
    Option (List UInt32) :=
  (generateDatasetItem cache index keccak512).map LittleEndian.decodeWords

/-- The lookup of `hashimotoFull`: `dataset[offset : offset+hashWords]` at
`offset := index * hashWords`. -/
def fullLookup (dataset : List UInt32) (index : UInt32) : Option (List UInt32) :=
  let offset := index * UInt32.ofNat hashWords
  let high := offset + UInt32.ofNat hashWords
  if offset ≤ high ∧ high.toNat ≤ dataset.length then
    some (dataset.extract offset.toNat high.toNat)
  else none

/-- `hashimotoLight`. -/
def hashimotoLight (keccak512 : Keccak512) (keccak256 : List UInt8 → List UInt8) (size : UInt64)
    (cache : List UInt32) (hash : List UInt8) (nonce : UInt64) : Option (List UInt8 × List UInt8) :=
  hashimoto keccak512 keccak256 hash nonce size (lightLookup keccak512 cache)

/-- `hashimotoFull`. -/
def hashimotoFull (keccak512 : Keccak512) (keccak256 : List UInt8 → List UInt8)
    (dataset : List UInt32) (hash : List UInt8) (nonce : UInt64) : Option (List UInt8 × List UInt8) :=
  hashimoto keccak512 keccak256 hash nonce (UInt64.ofNat dataset.length * 4) (fullLookup dataset)

/-! ## Sealing and verifying a header -/

/-- The fields of a header that sealing reads and writes. -/
structure SealHeader where
  number : UInt64
  difficulty : Int
  hashNoNonce : List UInt8
  nonce : UInt64
  mixDigest : List UInt8

/-- The errors of `VerifySeal`. -/
inductive SealError where
  | nonceOutOfRange
  | invalidDifficulty
  | invalidMixDigest
  | invalidPoW
deriving DecidableEq, Repr

/-- The target a result must not exceed: `maxUint256 / difficulty`. -/
def powTarget (difficulty : Int) : Int := maxUint256 / difficulty

/-- `mine`'s test of one nonce: the sealed header, when the result of the full dataset meets the
target. -/
def mineNonce (keccak512 : Keccak512) (keccak256 : List UInt8 → List UInt8)
    (dataset : List UInt32) (header : SealHeader) (nonce : UInt64) : Option (Option SealHeader) :=
  (hashimotoFull keccak512 keccak256 dataset header.hashNoNonce nonce).map fun r =>
    if (BigEndian.value r.2 : Int) ≤ powTarget header.difficulty then
      some { header with nonce := nonce, mixDigest := r.1 }
    else none

/-- `VerifySeal` of a real proof of work: the epoch of the header within the table of cache sizes,
a positive difficulty, then the digest and the result recomputed from the cache of the header's
epoch, over a dataset of `datasetSize` bytes. -/
def verifySeal (keccak512 : Keccak512) (keccak256 : List UInt8 → List UInt8) (cacheEpochs : Nat)
    (cacheOf : UInt64 → List UInt32) (datasetSize : UInt64 → UInt64) (header : SealHeader) :
    Option (Except SealError Unit) :=
  if cacheEpochs ≤ header.number.toNat / epochLength then some (.error .nonceOutOfRange)
  else if header.difficulty ≤ 0 then some (.error .invalidDifficulty)
  else
    (hashimotoLight keccak512 keccak256 (datasetSize header.number) (cacheOf header.number)
        header.hashNoNonce header.nonce).map fun r =>
      if header.mixDigest ≠ r.1 then .error .invalidMixDigest
      else if (BigEndian.value r.2 : Int) > powTarget header.difficulty then .error .invalidPoW
      else .ok ()

end GoGaia.Fbcash
