import SymphonyPlus.ByteMemory
import SymphonyPlus.Machine
import SymphonyPlus.IsaTable
import SymphonyPlus.Emulator
import SymphonyPlus.IsaConformance
import SymphonyPlus.EmulatorRuns
import SymphonyPlus.Asm
import SymphonyPlus.InstructionLines
import SymphonyPlus.AsmPasses
import SymphonyPlus.AsmAccepted
import SymphonyPlus.ProcessHistory
import SymphonyPlus.Kernel
import SymphonyPlus.Exec
import SymphonyPlus.Process
import SymphonyPlus.ProcessTable
import SymphonyPlus.DispatchRuns
import SymphonyPlus.ProcessRecords
import SymphonyPlus.Waits
import SymphonyPlus.Reaping
import SymphonyPlus.Isolation
import SymphonyPlus.Results
import SymphonyPlus.Tokenize
import SymphonyPlus.ConstInt
import SymphonyPlus.Macros
import SymphonyPlus.Conditions
import SymphonyPlus.NestedGroups
import SymphonyPlus.Preprocess
import SymphonyPlus.LineExpansion
import SymphonyPlus.ConditionalGroups
import SymphonyPlus.Unparse
import SymphonyPlus.Stringize
import SymphonyPlus.StutterSimulation
import SymphonyPlus.Statements
import SymphonyPlus.StatementParser
import SymphonyPlus.StatementCode
import SymphonyPlus.StatementFlow
import SymphonyPlus.StatementSimulation
import SymphonyPlus.StatementBuild
import SymphonyPlus.StatementNumbers
import SymphonyPlus.StatementParts
import SymphonyPlus.StatementCorrect
import SymphonyPlus.StatementRuns
import SymphonyPlus.Zones
import SymphonyPlus.ZoneAllocation
import SymphonyPlus.ExecTransaction
import SymphonyPlus.LinkImage
import SymphonyPlus.SyscallTransparency
import SymphonyPlus.StructLayout
import SymphonyPlus.StraightCode
import SymphonyPlus.BitRanges
import SymphonyPlus.BitFields
import SymphonyPlus.AssignedValue
import SymphonyPlus.ExpressionMeaning
import SymphonyPlus.ExpressionMachine
import SymphonyPlus.ExpressionSteps
import SymphonyPlus.ExpressionCorrect
import SymphonyPlus.PointerArithmetic
import SymphonyPlus.CompoundAssignment
import SymphonyPlus.ExpressionRuns
import SymphonyPlus.VariableArguments
import SymphonyPlus.NumberLiterals
import SymphonyPlus.TokenizeBounds
import SymphonyPlus.DiskRequests
import SymphonyPlus.LinkStreams
import SymphonyPlus.TerminalQueue
import SymphonyPlus.TickClock
import SymphonyPlus.Convert
import SymphonyPlus.FormatStandard
import SymphonyPlus.KernelNumbersStandard
import SymphonyPlus.ShellLists
import SymphonyPlus.ShellParse
import SymphonyPlus.StreamsRefine
import SymphonyPlus.DirectoryRecords
import SymphonyPlus.BlockCopy
import SymphonyPlus.HeapRuns
