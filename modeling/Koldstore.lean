import Koldstore.Catalog.Activation
import Koldstore.Catalog.Following
import Koldstore.Cell.PlainDecimal
import Koldstore.Compaction.Hulls
import Koldstore.Compaction.Order
import Koldstore.Dml.Hydrate
import Koldstore.Dml.PkPredicate
import Koldstore.Feed.ColdColumns
import Koldstore.Feed.LastRows
import Koldstore.Feed.Resync
import Koldstore.Feed.Stream
import Koldstore.Flush.FilterPass
import Koldstore.Flush.ForcedJob
import Koldstore.Flush.KeySummary
import Koldstore.Flush.Policy
import Koldstore.Flush.Recovery
import Koldstore.Flush.TupleKeys
import Koldstore.Follower.PeerPrune
import Koldstore.Follower.ReapSafety
import Koldstore.Leader.FencingSafety
import Koldstore.Leader.LeaseSafety
import Koldstore.Leader.Publish
import Koldstore.Leader.TableKeys
import Koldstore.Leader.Tombstones
import Koldstore.Merge.HotPages
import Koldstore.Merge.OrderedEmit
import Koldstore.Merge.StableHash
import Koldstore.Mirror.Batches
import Koldstore.Mirror.CatchUp
import Koldstore.Mirror.IdBounds
import Koldstore.Mirror.Names
import Koldstore.Mirror.PendingFences
import Koldstore.Parquet.FooterBounds
import Koldstore.Parquet.TextArrays
import Koldstore.Scan.LateRead
import Koldstore.Scan.Qual
import Koldstore.Scan.Scopes
import Koldstore.SortKey.NumericOrder
import Koldstore.Storage.PathSegment
import Koldstore.Supervisor.FlushSlots
import Koldstore.Supervisor.Generations
import Koldstore.Supervisor.Registry
import Koldstore.Supervisor.Retry
