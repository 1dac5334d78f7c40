import BpfTv.Lifter.RegisterSemantics
import BpfTv.Lifter.MemorySemantics
import BpfTv.Lifter.TextMode
import BpfTv.Lifter.BytesMode
import BpfTv.Lifter.BytesTotal
import BpfTv.Lifter.UnspecifiedSites
import BpfTv.Lifter.CallSemantics
import BpfTv.Lifter.ReturnContract
import BpfTv.Lifter.ArgumentContract
import BpfTv.Lifter.FrameSlots
import BpfTv.Lifter.GlobalDefinitions
import BpfTv.Lifter.GlobalLayout
import BpfTv.Lifter.CalleeAgreement
import BpfTv.Lifter.StackSize
import BpfTv.Lifter.SymbolNames
import BpfTv.Lifter.SourceLocations
import BpfTv.Lifter.Immediates
import BpfTv.Mc.Alignment
import BpfTv.Driver.Plans
import BpfTv.Driver.Classify
import BpfTv.Driver.ApplyPlans
import BpfTv.Lifter.RunOff
import BpfTv.Lifter.HelperIdentity
import BpfTv.Bpf.Atomics
import BpfTv.Lifter.AtomicSemantics
import BpfTv.Driver.LineMap
import BpfTv.Lifter.DataContents
import BpfTv.Lib.Dominance
import BpfTv.Llvm.Exec
import BpfTv.Driver.RoundTrip
import BpfTv.Driver.Collapse
import BpfTv.Driver.CollapseRuns
import BpfTv.Llvm.Erase
import BpfTv.Llvm.Extend
import BpfTv.Driver.InlineAsm
import BpfTv.Driver.AsmStripping
import BpfTv.Driver.PtrLoadFlow
import BpfTv.Driver.StrippedRuns
import BpfTv.Driver.SourceRuns
import BpfTv.Driver.Attribution
import BpfTv.Lib.Placement
import BpfTv.Driver.FrameAddresses
import BpfTv.Driver.Comparisons
import BpfTv.Lib.Relocation
import BpfTv.Driver.SplitMemory
import BpfTv.Lib.Execution
import BpfTv.Lib.Filling
import BpfTv.Bpf.Machine
import BpfTv.Bpf.Footprint
import BpfTv.Lifter.ProgramInsns
import BpfTv.Lifter.GlobalNames
import BpfTv.Lifter.Requests
import BpfTv.Lifter.FunctionRuns
import BpfTv.Lifter.InsnRegions
import BpfTv.Lifter.EntryState
import BpfTv.Lifter.MachineRuns
import BpfTv.Lifter.ProgramRuns
import BpfTv.Lifter.AsmProgram
import BpfTv.Lifter.AsmRuns
import BpfTv.Conformance.Plugin
