import S3Kinetic.Lib.ByteString
import S3Kinetic.Lib.OrdMap
import S3Kinetic.Lib.Decimal
import S3Kinetic.Kineticd
import S3Kinetic.Names
import S3Kinetic.Objects
import S3Kinetic.Listing
import S3Kinetic.Buckets
import S3Kinetic.Multipart
import S3Kinetic.System
import S3Kinetic.BucketDeletion
import S3Kinetic.Frame
import S3Kinetic.Completion
import S3Kinetic.EndToEnd
import S3Kinetic.Isolation
import S3Kinetic.Pagination
import S3Kinetic.Reading
import S3Kinetic.ObjectReads
import S3Kinetic.PartReads
import S3Kinetic.Pool
import S3Kinetic.Race
import S3Kinetic.PartHandler
import S3Kinetic.Orphans
import S3Kinetic.Integrity
import S3Kinetic.ObjectLock
import S3Kinetic.Iam
import S3Kinetic.BucketPolicy
import S3Kinetic.PostPolicy
import S3Kinetic.Lib.Joined
import S3Kinetic.Lib.Quorum
import S3Kinetic.Lifecycle
import S3Kinetic.Xl
import S3Kinetic.XlCommits
import S3Kinetic.XlOverwrite
import S3Kinetic.DecryptedRange
import S3Kinetic.LocalLocker
import S3Kinetic.DRWMutex
import S3Kinetic.Erasure
import S3Kinetic.ErasureDecode
import S3Kinetic.LockMaintenance
import S3Kinetic.NamespaceLock
import S3Kinetic.XlRead
import S3Kinetic.BucketLeftovers
import S3Kinetic.CompletionErrors
import S3Kinetic.DelimiterListing
import S3Kinetic.ETag
import S3Kinetic.EventStream
import S3Kinetic.GetObject
import S3Kinetic.MultipartCopy
import S3Kinetic.Walk
import S3Kinetic.ConnectionPool
import S3Kinetic.Ellipses
import S3Kinetic.EndpointSets
import S3Kinetic.KeyRangeDecoding
import S3Kinetic.Lib.MarkerPages
import S3Kinetic.MetadataCopy
import S3Kinetic.ParallelRead
import S3Kinetic.PartListing
import S3Kinetic.RangeHeader
import S3Kinetic.WildcardSimple
import S3Kinetic.Healing
import S3Kinetic.HealObject
import S3Kinetic.Lib.Counts
import S3Kinetic.Lib.GroupMerge
import S3Kinetic.ListingMerge
import S3Kinetic.QuorumUndo
import S3Kinetic.WalkPool
import S3Kinetic.FormatQuorum
import S3Kinetic.HealFormat
import S3Kinetic.IamGroups
import S3Kinetic.LifecycleRound
import S3Kinetic.Notification
import S3Kinetic.ObjectReader
import S3Kinetic.XlPartListing
import S3Kinetic.CacheQueue
import S3Kinetic.Config
import S3Kinetic.ConfigAliasing
import S3Kinetic.PartCodec
import S3Kinetic.QueueStore
import S3Kinetic.SelectLimit
import S3Kinetic.ShardOrder
import S3Kinetic.SkipLimit
import S3Kinetic.Tagging
