import DFTracer.Query.SubsumptionSound
import DFTracer.Indexing.PrunerSound
import DFTracer.Gzip.SliceLines
import DFTracer.Flame.MergeExact
import DFTracer.Reader.UniformMatch
import DFTracer.Frames.JoinExact
import DFTracer.Reader.SubChunkExact
import DFTracer.Tasks.GraphResults
import DFTracer.Tasks.SchedulerOutput
import DFTracer.Frames.UniqueResults
import DFTracer.Reader.SubChunkPrune
import DFTracer.Reader.FlatRecords
import DFTracer.Aggregation.SketchHistogram
import DFTracer.Indexing.BloomFamily
import DFTracer.Aggregation.AssociationSharding
import DFTracer.Output.StripedStream
import DFTracer.Cache.CacheResults
import DFTracer.Cache.EvictionLists
import DFTracer.Indexing.StoredHistogram
import DFTracer.Aggregation.DistinctTree
import DFTracer.Views.Filters
import DFTracer.Query.Numerals
import DFTracer.Keys.KeyFaithful
import DFTracer.Augmentation.Splitting
import DFTracer.Aggregation.TimeBounds
import DFTracer.Indexing.ColumnTypeCodec
import DFTracer.Indexing.BatchPruner
import DFTracer.Aggregation.Occupancy
import DFTracer.Aggregation.ApproxTopK
import DFTracer.Flame.CallTree
import DFTracer.Aggregation.ArgSlots
import DFTracer.Reader.LineFilling
import DFTracer.Aggregation.SketchPersistence
import DFTracer.Aggregation.ConfigHash
import DFTracer.Coro.CoroSemaphore
import DFTracer.Coro.MutexFairness
import DFTracer.Frames.ColumnsReturn
import DFTracer.Frames.PositionalExact
import DFTracer.Expr.CanonicalExact
import DFTracer.Kernels.DecimalExact
import DFTracer.Coro.SingleFlight
import DFTracer.Server.ViewDepths
import DFTracer.Server.HttpConnection
