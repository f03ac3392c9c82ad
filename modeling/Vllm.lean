import Vllm.AdmissionCap
import Vllm.ArcEviction
import Vllm.ContextParallel
import Vllm.DelimitedReasoning
import Vllm.DraftRing
import Vllm.EagleRuns
import Vllm.EncoderAccounting
import Vllm.EventKeys
import Vllm.GlmChunking
import Vllm.IncrementalDecoder
import Vllm.KvEventRuns
import Vllm.LookupHits
import Vllm.MambaHybrid
import Vllm.NgramProposer
import Vllm.OffloadRuns
import Vllm.QueuePartition
import Vllm.ScannerOrder
import Vllm.ScheduleConsistency
import Vllm.StatePages
import Vllm.StopStrings
import Vllm.VisibleText
import Vllm.WindowFrees
import Vllm.WindowRetention
