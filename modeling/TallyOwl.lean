import TallyOwl.Store.Wal.Damaged
import TallyOwl.Store.Segmented.Scan
import TallyOwl.Store.Segmented.Watermark
import TallyOwl.Store.Segmented.OneCommit
import TallyOwl.Head.Lookup
import TallyOwl.Head.ErasedAgain
import TallyOwl.Cluster.CopiedOnce
import TallyOwl.Cluster.Epochs
import TallyOwl.Cluster.Marks
import TallyOwl.Cluster.CrashReplay
import TallyOwl.Cluster.SnapshotPoint
import TallyOwl.Cluster.VoteHold
import TallyOwl.Cluster.Placement
import TallyOwl.Cluster.ReadMark
import TallyOwl.Head.DownsampleDue
import TallyOwl.Store.Race
import TallyOwl.Store.Reconcile
import TallyOwl.Store.Compact.Retention
import TallyOwl.Store.Compact.Consolidate
import TallyOwl.Store.TombstoneSet
import TallyOwl.Store.ViewCache
import TallyOwl.Head.AlertRace
import TallyOwl.Head.PolicyRace
import TallyOwl.Collector.Edge
import TallyOwl.Collector.Scraped
import TallyOwl.Collector.Resolved
import TallyOwl.Collector.Delivered
import TallyOwl.Driver.Accounted
import TallyOwl.Head.TailDecisions
import TallyOwl.Head.ThreeValued
import TallyOwl.Store.Enrollment
import TallyOwl.Store.CborCalls
import TallyOwl.Store.CborCanonical
import TallyOwl.Store.Segment.HexText
import TallyOwl.Store.Located
import TallyOwl.Store.Segment.Whole
import TallyOwl.Cluster.Movement
import TallyOwl.Cluster.Decide
import TallyOwl.Head.Grouping
import TallyOwl.Head.Waterfall
import TallyOwl.Head.ConversionValue
import TallyOwl.Cluster.ForcedVoter
import TallyOwl.Head.ExactDecimal
import TallyOwl.Head.Ordered
import TallyOwl.Cluster.Transfer
import TallyOwl.Cluster.ClusterSnapshot
import TallyOwl.Head.InStep
import TallyOwl.Collector.ExactMerge
import TallyOwl.Collector.LedgerRun
import TallyOwl.Head.LongestWalk
import TallyOwl.Head.Retention
import TallyOwl.Head.PathTree
import TallyOwl.Head.SeriesKept
import TallyOwl.Wire.Scrubbed
