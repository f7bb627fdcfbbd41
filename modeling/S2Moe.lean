import S2Moe.Alloc.Tiled
import S2Moe.Batch.Causal
import S2Moe.Context.DraftVocab
import S2Moe.Context.StateData
import S2Moe.Draft.Continuity
import S2Moe.Draft.Counters
import S2Moe.Draft.FanOut
import S2Moe.Draft.Length
import S2Moe.Draft.Replace
import S2Moe.Draft.Routing
import S2Moe.Draft.Trace
import S2Moe.Gguf.RoundTrip
import S2Moe.Gguf.Safety
import S2Moe.Grammar.Accept
import S2Moe.Grammar.Mask
import S2Moe.Grammar.Termination
import S2Moe.Grammar.Total
import S2Moe.Graph.Reuse
import S2Moe.Kv.Agreement
import S2Moe.Kv.NoCache
import S2Moe.Kv.Prepare
import S2Moe.Kv.StateFail
import S2Moe.Kv.StateSeq
import S2Moe.Kv.TokenRuns
import S2Moe.Kv.TreeAttention
import S2Moe.Kv.Window
import S2Moe.Lib.Bits
import S2Moe.Lib.Grammar
import S2Moe.Lib.Run
import S2Moe.Next.Accounting
import S2Moe.Next.Pruning
import S2Moe.Prune.ExpertSet
import S2Moe.Prune.RoutingNoise
import S2Moe.Recurrent.Restore
import S2Moe.Recurrent.RoundTrip
import S2Moe.Recurrent.Staging
import S2Moe.Router.Readback
import S2Moe.Router.Reuse
import S2Moe.Router.Selection
import S2Moe.Simple.Dataset
import S2Moe.Simple.NativeDraft
import S2Moe.Simple.Sampled
import S2Moe.Spec.Attribution
import S2Moe.Spec.Questions
import S2Moe.Spec.Update
import S2Moe.Ssd.Budget
import S2Moe.Ssd.MulMatId
import S2Moe.Ssd.Registry
import S2Moe.Ssd.Split
import S2Moe.Grammar.Operators
import S2Moe.Sampling.Optimistic
import S2Moe.Sampling.RingBuffer
import S2Moe.Graph.Captures
import S2Moe.Regex.Search
import S2Moe.Grammar.PartialChar
import S2Moe.Ngrams.Draft
import S2Moe.Regex.Exact
import S2Moe.Regex.Reversed
