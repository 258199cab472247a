import UnitE.Lib.Except
import UnitE.Lib.Merkle
import UnitE.Lib.FinmapSum
import UnitE.Spec.Types
import UnitE.Spec.Ufp64
import UnitE.Spec.Params
import UnitE.Spec.State
import UnitE.Spec.Validate
import UnitE.Spec.Process
import UnitE.Spec.Epoch
import UnitE.Spec.Commits
import UnitE.Spec.Transaction
import UnitE.Spec.Interpreter
import UnitE.Spec.Checks
import UnitE.Spec.Block
import UnitE.Spec.CommitsHandler
import UnitE.Spec.Coins
import UnitE.Spec.WalletExtension
import UnitE.Spec.Snapshot
import UnitE.Spec.VoteRecorder
import UnitE.Spec.Staking
import UnitE.Spec.Iblt
import UnitE.Spec.Graphene
import UnitE.Spec.Undo
import UnitE.Proofs.Authentication
import UnitE.Proofs.CommitsRoot
import UnitE.Proofs.CommitsSync
import UnitE.Proofs.Snapshot
import UnitE.Proofs.BlockCommits
import UnitE.Proofs.Voting
import UnitE.Proofs.Deposits
import UnitE.Proofs.Justification
import UnitE.Proofs.Slashing
import UnitE.Proofs.Staking
import UnitE.Proofs.Iblt
import UnitE.Proofs.Graphene
import UnitE.Proofs.Undo
import UnitE.Proofs.EpochTables
import UnitE.Lib.Finsum
import UnitE.Spec.CoinsView
import UnitE.Proofs.CoinsStack
import UnitE.Proofs.EpochStart
import UnitE.Lib.LittleEndian
import UnitE.Spec.Script
import UnitE.Proofs.VoteScript
import UnitE.Lib.TreeMap
import UnitE.Spec.ChainstateIterator
import UnitE.Proofs.ChainstateIterator
import UnitE.Spec.AdminCommand
import UnitE.Proofs.AdminCommand
import UnitE.Spec.CommitsLocator
import UnitE.Proofs.CommitsLocator
import UnitE.Proofs.RecommendedVote
import UnitE.Lib.ByteCodec
import UnitE.Spec.SnapshotIndexer
import UnitE.Proofs.SnapshotLayout
import UnitE.Proofs.SnapshotIndexer
import UnitE.Proofs.SnapshotIterator
import UnitE.Lib.Babylonian
import UnitE.Proofs.Sqrt
import UnitE.Lib.ListModify
import UnitE.Proofs.IbltSubtract
import UnitE.Spec.SnapshotIndex
import UnitE.Proofs.SnapshotIndex
import UnitE.Lib.RoundDown
import UnitE.Spec.Difficulty
import UnitE.Proofs.Compact
import UnitE.Proofs.Difficulty
import UnitE.Lib.Multimap
import UnitE.Spec.EmbargoMan
import UnitE.Lib.PrecededBy
import UnitE.Proofs.Embargo
import UnitE.Spec.LedgerAPDU
import UnitE.Proofs.LedgerAPDU
import UnitE.Lib.BigEndian
import UnitE.Spec.Mnemonic
import UnitE.Proofs.MnemonicWords
import UnitE.Proofs.Mnemonic
import UnitE.Spec.Coinbase
import UnitE.Proofs.Coinbase
import UnitE.Proofs.Ordering
import UnitE.Proofs.Admin
import UnitE.Spec.SnapshotDownload
import UnitE.Proofs.SnapshotDownload
