import GoGaia.Lib.BigEndian
import GoGaia.Lib.EState
import GoGaia.Lib.StateRun
import GoGaia.Rlp.Item
import GoGaia.Rlp.Encode
import GoGaia.Rlp.Stream
import GoGaia.Rlp.StreamSpec
import GoGaia.Rlp.Decode
import GoGaia.Rlp.Codec
import GoGaia.Rlp.Typed
import GoGaia.Rlp.Raw
import GoGaia.State.Object
import GoGaia.State.StateDB
import GoGaia.State.Spec
import GoGaia.State.Runs
import GoGaia.TxPool.List
import GoGaia.TxPool.Pool
import GoGaia.TxPool.Consistency
import GoGaia.Trie.Encoding
import GoGaia.Trie.Node
import GoGaia.Trie.Hasher
import GoGaia.Trie.Trie
import GoGaia.Trie.Codec
import GoGaia.Trie.Collapse
import GoGaia.Trie.Contents
import GoGaia.Trie.Database
import GoGaia.Trie.Canon
import GoGaia.Vm.Memory
import GoGaia.Vm.Analysis
import GoGaia.Rlp.Serialise
import GoGaia.Abi.Codec
import GoGaia.Core.Chain
import GoGaia.Clique.Snapshot
import GoGaia.Clique.Tally
import GoGaia.Clique.Voting
import GoGaia.Core.Bloom
import GoGaia.Lib.ByteBits
import GoGaia.Lib.Segments
import GoGaia.Common.Bitutil
import GoGaia.Bloombits.Generator
import GoGaia.Bloombits.Matcher
import GoGaia.Bloombits.Session
import GoGaia.Abi.Bounds
import GoGaia.Clique.Engine
import GoGaia.Common.Math
import GoGaia.Vm.Arith
import GoGaia.Fbcash.Algorithm
import GoGaia.Fbcash.Dataset
import GoGaia.Common.Compress
import GoGaia.Compression.Rle
import GoGaia.Common.Hexutil
import GoGaia.Rlp.Struct
import GoGaia.Core.Signing
import GoGaia.Core.Transaction
import GoGaia.Lib.CumSelect
import GoGaia.Les.WrsNode
import GoGaia.Les.WrsSlots
import GoGaia.Les.RandSelect
import GoGaia.Lib.BinaryHeap
import GoGaia.Core.PriceNonce
import GoGaia.Trie.Insert
import GoGaia.Trie.Delete
import GoGaia.Trie.Runs
import GoGaia.Trie.Stored
import GoGaia.Lib.Layout
import GoGaia.P2p.Match
import GoGaia.Trie.Get
import GoGaia.Trie.Hash
import GoGaia.Trie.Decoded
import GoGaia.Trie.Commit
import GoGaia.Trie.RandTest
import GoGaia.Trie.Proof
import GoGaia.Trie.Iterator
import GoGaia.Trie.IteratorOrder
