import Space.Codec.Authenticated
import Space.Codec.Compression
import Space.Codec.Encryption
import Space.Codec.Hybrid
import Space.Codec.Stored
import Space.Codec.StoredForm
import Space.Common.Error
import Space.Common.Primitives
import Space.Common.Types
import Space.Layout.Engine
import Space.Layout.Partition
import Space.Modular.Accounting
import Space.Modular.Collect
import Space.Modular.Counts
import Space.Modular.DeleteFailure
import Space.Modular.DeleteMemory
import Space.Modular.DeleteRegistry
import Space.Modular.EncryptedFlag
import Space.Modular.Encryptors
import Space.Modular.Interchange
import Space.Modular.Interface
import Space.Modular.Lengths
import Space.Modular.Mirror
import Space.Modular.OptOut
import Space.Modular.Pipeline
import Space.Modular.ReadBack
import Space.Modular.Reading
import Space.Modular.Registry
import Space.Modular.Sharing
import Space.Native.Agreement
import Space.Native.AsyncRunSpec
import Space.Native.AsyncSpec
import Space.Native.Atomic
import Space.Native.Audited
import Space.Native.Contents
import Space.Native.CrashSafe
import Space.Native.DedupBytes
import Space.Native.DeleteFailure
import Space.Native.Discipline
import Space.Native.Drawn
import Space.Native.EncryptedWrite
import Space.Native.Evolution
import Space.Native.Exact
import Space.Native.Faithful
import Space.Native.Holds
import Space.Native.Hybrid
import Space.Native.Integrity
import Space.Native.Invariant
import Space.Native.Labels
import Space.Native.Limits
import Space.Native.OptOut
import Space.Native.Profiles
import Space.Native.Read
import Space.Native.ReadSpec
import Space.Native.Reclaim
import Space.Native.ReclaimSpec
import Space.Native.ReconcileSpec
import Space.Native.Recovery
import Space.Native.Repair
import Space.Native.Rotation
import Space.Native.Sealed
import Space.Native.Service
import Space.Native.Session
import Space.Native.Shared
import Space.Native.Sharing
import Space.Native.SharingSpec
import Space.Native.Sizes
import Space.Native.Staging
import Space.Native.Steps
import Space.Native.StepsRegistry
import Space.Native.StepsTransaction
import Space.Native.Tamper
import Space.Native.Token
import Space.Native.Traces
import Space.Native.World
import Space.Native.Write
import Space.Native.WriteAsync
import Space.Native.WriteSpec
import Space.Native.Writing
import Space.Scaling.Agent
import Space.Scaling.Compiler
import Space.Scaling.Replication
import Space.Scaling.Selection
import Space.Scaling.Sovereignty
import Space.Scaling.Utilization
import Space.Security.AuditChain
import Space.Security.AuditLog
import Space.Security.AuditRetention
import Space.Security.AuditText
import Space.Security.Bloom
import Space.Security.Gateway
import Space.Store.CommitFailure
import Space.Store.ConcurrentSaves
import Space.Store.Faults
import Space.Store.Interface
import Space.Store.Lengths
import Space.Store.Nvram
import Space.Store.ReadYourWrites
import Space.Store.Registry
import Space.Store.Schedule
import Space.Store.SharedLog
import Space.Support.Conduct
import Space.Support.Custody
import Space.Support.Encoded
import Space.Support.Extent
import Space.Support.Failing
import Space.Support.FileTree
import Space.Support.Implementation
import Space.Support.Layers
import Space.Support.Linearizable
import Space.Support.Lines
import Space.Support.Lists
import Space.Support.Paired
import Space.Support.Paths
import Space.Support.Program
import Space.Support.Protocol
import Space.Support.Refinement
import Space.Support.Table
import Space.Support.Tiling
import Space.Views.AuditAccounts
import Space.Views.AuditCalls
import Space.Views.AuditTrail
import Space.Views.Block
import Space.Views.BlockCrash
import Space.Views.BlockLinear
import Space.Views.BlockOwnership
import Space.Views.FileSystem
import Space.Views.Nfs
import Space.Views.NfsCrash
import Space.Views.NfsFiles
import Space.Views.NfsOwnership
import Space.Views.NfsPaths
import Space.Views.NfsTree
import Space.Views.Pipeline
import Space.Views.RangeWrites
import Space.Views.Ranges
import Space.Views.S3
import Space.Views.S3Linear
import Space.Views.S3Pipeline
import Space.Views.S3Server
import Space.Views.SharedStore
