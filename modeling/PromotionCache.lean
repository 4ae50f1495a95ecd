import PromotionCache.Lib.Run
import PromotionCache.Tlb.SetLru
import PromotionCache.Tlb.SetLfu
import PromotionCache.Tlb.CacheSpec
import PromotionCache.Pcc.Tlbs
import PromotionCache.Pcc.Candidates
import PromotionCache.Pcc.MultiTlbs
import PromotionCache.Pcc.SinglePasses
import PromotionCache.Pcc.Isolation
import PromotionCache.Pcc.OneThread
import PromotionCache.Pin.RoiMt
import PromotionCache.Hawkeye.Buckets
import PromotionCache.Scripts.GetDemotions
import PromotionCache.Scripts.Replay
import PromotionCache.Apps.Bfs
import PromotionCache.Graph.BinRoundTrip
import PromotionCache.Graph.Reorder
import PromotionCache.Apps.Pagerank
import PromotionCache.Apps.SsspWorklist
import PromotionCache.Tlb.SetTies
import PromotionCache.Tlb.Offsets
import PromotionCache.Tlb.SetTrail
import PromotionCache.Pcc.PassEffect
import PromotionCache.Pcc.Tags
import PromotionCache.Pcc.Demotions
import PromotionCache.Pcc.LongPass
import PromotionCache.Scripts.Policies
import PromotionCache.Apps.SsspLaunch
import PromotionCache.Apps.PinBfs
import PromotionCache.Apps.ParallelSssp
import PromotionCache.Apps.ParallelPagerank
import PromotionCache.Tlb.Coverage
import PromotionCache.Pcc.Evictions
import PromotionCache.Hawkeye.ScanOrder
import PromotionCache.Scripts.PopOrder
import PromotionCache.Apps.LaunchCommon
import PromotionCache.Scripts.HawkeyeLog
import PromotionCache.Utils.Fragm
import PromotionCache.Reuse.Regions
import PromotionCache.Reuse.Compare
import PromotionCache.Graph.RemoveDups
import PromotionCache.Graph.Csc
import PromotionCache.Graph.SelfCheck
import PromotionCache.Lib.Decimal
import PromotionCache.Graph.EdgeListSpec
import PromotionCache.Graph.EdgeListWrites
import PromotionCache.Pcc.PageCuts
import PromotionCache.Tlb.Slots
import PromotionCache.Pin.Roi
import PromotionCache.Utils.BuddyinfoSpec
import PromotionCache.Dedup.Rabin
import PromotionCache.Dedup.Hashtable
import PromotionCache.Dedup.Stream
import PromotionCache.Dedup.Segments
import PromotionCache.Dedup.Decoder
import PromotionCache.Dedup.QueueSpec
import PromotionCache.Dedup.ReorderSpec
import PromotionCache.Dedup.Fragment
import PromotionCache.Dedup.PipelineSpec
