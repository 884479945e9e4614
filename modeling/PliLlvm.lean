import PliLlvm.Runtime.RecordFile
import PliLlvm.Runtime.KeyedSidecar
import PliLlvm.Runtime.Area
import PliLlvm.Runtime.StreamInput
import PliLlvm.Compiler.PictureFold
import PliLlvm.Compiler.ListDirected
import PliLlvm.Compiler.CondNest
import PliLlvm.Compiler.CtlAnchorRuns
import PliLlvm.Compiler.CtlKeys
import PliLlvm.Compiler.StaticLinkRuns
import PliLlvm.Compiler.SymbolClash
import PliLlvm.Compiler.EditForms
import PliLlvm.Compiler.DefinedStorage
import PliLlvm.Compiler.SubstrTarget
import PliLlvm.Compiler.ScanLowering
import PliLlvm.Compiler.ModIndexRuns
import PliLlvm.Compiler.IndexLowering
import PliLlvm.Hir.EffectSoundness
import PliLlvm.Hir.WillReturn
import PliLlvm.Compiler.CtlHoist
import PliLlvm.Compiler.OnEscape
import PliLlvm.Compiler.OnExits
import PliLlvm.Compiler.DoIter
import PliLlvm.Compiler.RecordTransfer
import PliLlvm.Runtime.TimerQueue
import PliLlvm.Runtime.NextRunnable
import PliLlvm.Runtime.FiberPool
import PliLlvm.Runtime.RecycledFiber
import PliLlvm.Runtime.PriorityRuns
import PliLlvm.Runtime.StackArenaRuns
import PliLlvm.Runtime.FileBrokerRuns
import PliLlvm.Runtime.RtSchedSafe
import PliLlvm.Runtime.RtEventsSafe
import PliLlvm.Source.LexerPrint
import PliLlvm.Source.CondSound
import PliLlvm.Source.PPSkip
import PliLlvm.Source.PPSpans
import PliLlvm.Source.ExprPrint
import PliLlvm.Compiler.QuotientFastPath
import PliLlvm.Compiler.SliceMoves
import PliLlvm.Compiler.FieldLowering
import PliLlvm.Compiler.TranslateLowering
import PliLlvm.Compiler.TrimTally
import PliLlvm.Compiler.CharOrder
import PliLlvm.Compiler.BitTests
import PliLlvm.Hir.EffectRounds
import PliLlvm.Compiler.ConcatStore
import PliLlvm.Compiler.CharRoundTrip
import PliLlvm.Runtime.ColumnTrack
import PliLlvm.Runtime.EditFixed
import PliLlvm.Compiler.QuotientScale
import PliLlvm.Source.RecursionCheck
import PliLlvm.Source.PPGoto
