import FileMirror.LastWriter
import FileMirror.Manifest
import FileMirror.ManifestMerge
import FileMirror.LocalState
import FileMirror.LocalPaths
import FileMirror.LocalTree
import FileMirror.RemoteConflict
import FileMirror.LinearHistory
import FileMirror.Engine
import FileMirror.Scanner
import FileMirror.Deferral
import FileMirror.Apply
import FileMirror.WriteAhead
import FileMirror.Pass
import FileMirror.DeleteVersusEdit
import FileMirror.Compaction
import FileMirror.Transitions
import FileMirror.MergedView
import FileMirror.CompactionAlone
import FileMirror.CompactionShared
import FileMirror.PassEffects
import FileMirror.BaselineBehindLog
import FileMirror.BaseHashes
import FileMirror.HiddenConflict
import FileMirror.SettingAside
import FileMirror.ConflictOutlives
import FileMirror.DeviceRuns
import FileMirror.ConflictOnce
import FileMirror.Recreation
import FileMirror.Streaming
import FileMirror.LoggedContent
import FileMirror.RepositoryLock
import FileMirror.RacingEdits
import FileMirror.LogAfterPass
import FileMirror.MovedPlaceholders
import FileMirror.Eviction
import FileMirror.PassOrigins
import FileMirror.SparingPasses
import FileMirror.EvictionSafe
import FileMirror.HashCache
import FileMirror.AgreementRecorded
import FileMirror.DeltaClocks
import FileMirror.GarbageCollection
import FileMirror.StrandedPlaceholders
import FileMirror.BackupRun
import FileMirror.Flights
import FileMirror.WriteOrdering
import FileMirror.Outermost
import FileMirror.PathArchive
import FileMirror.SnapshotCoverage
import FileMirror.Prune
import FileMirror.IndexListings
import FileMirror.CopiedBlobs
import FileMirror.PruneSafety
import FileMirror.PruneMarks
import FileMirror.LockExclusion
import FileMirror.Deliveries
import FileMirror.SavedOnce
import FileMirror.FileArchive
import FileMirror.RecordedHashes
import FileMirror.UnchangedFiles
import FileMirror.LocalWrites
import FileMirror.WritesBelowRoot
import FileMirror.ArchivedContent
import FileMirror.StateArchived
import FileMirror.NormalizedPaths
import FileMirror.PartSizes
import FileMirror.Framing
import FileMirror.ResumedUploads
import FileMirror.StreamNonces
import FileMirror.ByteFields
import FileMirror.IndexFormat
import FileMirror.Retention
import FileMirror.Rollback
import FileMirror.PackFormat
import FileMirror.ReconcileLaw
import FileMirror.SortedLookup
import FileMirror.TreeFormat
import FileMirror.RestorePlans
import FileMirror.Journal
import FileMirror.UploadRecords
import FileMirror.PlaceholderText
import FileMirror.MirrorWalk
import FileMirror.ScannedNames
import FileMirror.PlaceholderFound
import FileMirror.ShortestPrefix
import FileMirror.SpaceEviction
import FileMirror.PackLengths
import FileMirror.WholeFile
import FileMirror.Control
import FileMirror.Displays
import FileMirror.WatchQueue
import FileMirror.Subscribers
import FileMirror.Attempts
import FileMirror.Disk
import FileMirror.DiskFacts
import FileMirror.Restore
import FileMirror.RestoreData
import FileMirror.VerifiedRestore
