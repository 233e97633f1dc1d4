import TempoRollup.Lib.Bits
import TempoRollup.Lib.Primality
import TempoRollup.Lib.Merkle
import TempoRollup.Lib.Constraint
import TempoRollup.Lib.Exec
import TempoRollup.Lib.Runs
import TempoRollup.Lib.Indexed
import TempoRollup.Lib.RingBuffer
import TempoRollup.Lib.Codec
import TempoRollup.Lib.ByteOrder
import TempoRollup.Lib.Pages
import TempoRollup.Lib.Lowest
import TempoRollup.Lib.Positional
import TempoRollup.Lib.Base58
import TempoRollup.Lib.HashChain
import TempoRollup.Lib.HighWater
import TempoRollup.Lib.Tally
import TempoRollup.Element
import TempoRollup.Primitives.Pool
import TempoRollup.Primitives.Numeric
import TempoRollup.Primitives.HashBytes
import TempoRollup.Circuits.Chips
import TempoRollup.Circuits.Note
import TempoRollup.Circuits.Utxo
import TempoRollup.Circuits.MintBurn
import TempoRollup.Circuits.Insert
import TempoRollup.Circuits.Decomposition
import TempoRollup.Circuits.Run
import TempoRollup.Circuits.Aggregate
import TempoRollup.Circuits.Prove
import TempoRollup.Circuits.PublicInputs
import TempoRollup.Circuits.Accumulated
import TempoRollup.Circuits.Points
import TempoRollup.Circuits.Compliance
import TempoRollup.Circuits.NoteUrl
import TempoRollup.Smirk.Node
import TempoRollup.Smirk.Tree
import TempoRollup.Smirk.Insertion
import TempoRollup.Smirk.Sequence
import TempoRollup.Smirk.Storage
import TempoRollup.Smirk.HashCache
import TempoRollup.Smirk.Callbacks
import TempoRollup.Smirk.Records
import TempoRollup.Smirk.Marked
import TempoRollup.Smirk.KnownHashes
import TempoRollup.Smirk.Database
import TempoRollup.Circuits.Paths
import TempoRollup.Contract.Rollup
import TempoRollup.Contract.Token
import TempoRollup.Contract.Solvency
import TempoRollup.Contract.Refinement
import TempoRollup.Contract.Journal
import TempoRollup.Contract.Lifecycle
import TempoRollup.Contract.Substitution
import TempoRollup.Node.Block
import TempoRollup.Node.ListTxns
import TempoRollup.Contract.Block
import TempoRollup.Contract.Signatures
import TempoRollup.Contract.Aggregate
import TempoRollup.Contract.Vault
import TempoRollup.Contract.Digest
import TempoRollup.Prover.Batch
import TempoRollup.Node.Mempool
import TempoRollup.Node.Waiters
import TempoRollup.Node.Doomslug
import TempoRollup.Node.DoomslugTimer
import TempoRollup.Node.DoomslugTrackers
import TempoRollup.Node.DoomslugReadiness
import TempoRollup.Node.Cache
import TempoRollup.Node.State
import TempoRollup.Node.Transaction
import TempoRollup.Node.Settlement
import TempoRollup.Contract.Backing
import TempoRollup.Node.Commit
import TempoRollup.Node.Binding
import TempoRollup.Node.TxnHash
import TempoRollup.Node.Chain
import TempoRollup.Node.Stream
import TempoRollup.Node.Proposal
import TempoRollup.Node.Sync
import TempoRollup.Node.Tick
import TempoRollup.Node.Agreement
import TempoRollup.Node.Load
import TempoRollup.Node.SyncWorker
import TempoRollup.Node.Network
import TempoRollup.Node.Snapshot
import TempoRollup.Node.Elements
import TempoRollup.Node.Ledger
import TempoRollup.Node.Replication
import TempoRollup.Node.Cluster
import TempoRollup.Node.RollUp
import TempoRollup.Prover.Aggregate
import TempoRollup.Node.Listener
import TempoRollup.Node.Substitutor
import TempoRollup.Node.ProverRun
import TempoRollup.Node.Pagination
import TempoRollup.Store.Keys
import TempoRollup.Store.BlockStore
import TempoRollup.Store.List
import TempoRollup.Store.Migration
import TempoRollup.Node.TxnPages
import TempoRollup.Node.Delivery
import TempoRollup.Node.LeaseBatch
import TempoRollup.Contract.LedgerBacking
import TempoRollup.Circuits.Spend
import TempoRollup.Node.Spending
