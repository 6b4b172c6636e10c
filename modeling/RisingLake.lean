import RisingLake.Hummock.Proof.TableState
import RisingLake.Hummock.Proof.FrontendVersion
import RisingLake.Hummock.Proof.WatermarkRange
import RisingLake.Hummock.Proof.UserIterator
import RisingLake.Hummock.Proof.SplitSize
import RisingLake.Hummock.Proof.GroupSplit
import RisingLake.Hummock.Proof.CommitWatermark
import RisingLake.Hummock.Proof.MemTableSize
import RisingLake.Frontend.Proof.Simplify
import RisingLake.Hummock.Proof.Compaction
import RisingLake.Stream.Proof.ChunkBuilder
import RisingLake.Stream.Proof.CompactChunk
import RisingLake.Common.Proof.Vnode
import RisingLake.Common.Proof.ColumnAwareSerde
import RisingLake.Common.Proof.Interval
import RisingLake.Stream.Proof.DynamicFilter
import RisingLake.Stream.Proof.TopN
import RisingLake.Stream.Proof.HashJoinRun
import RisingLake.Delta.Proof.CheckpointChain
import RisingLake.Delta.Proof.RowTracking
import RisingLake.Delta.Proof.ExternalLogStore
import RisingLake.Delta.Proof.RoaringBitmapArray
