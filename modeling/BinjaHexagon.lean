import BinjaHexagon.Behaviour
import BinjaHexagon.BranchRun
import BinjaHexagon.BranchTail
import BinjaHexagon.BranchTarget
import BinjaHexagon.Bytes
import BinjaHexagon.CInt
import BinjaHexagon.CMacros
import BinjaHexagon.CondInterp
import BinjaHexagon.CondLines
import BinjaHexagon.Declared
import BinjaHexagon.Decode
import BinjaHexagon.DecodeSafe
import BinjaHexagon.DecodeShape
import BinjaHexagon.DecodeWords
import BinjaHexagon.Descent
import BinjaHexagon.DestRegs
import BinjaHexagon.DirectWrites
import BinjaHexagon.Exec
import BinjaHexagon.ExprGrouping
import BinjaHexagon.FieldExact
import BinjaHexagon.FieldLift
import BinjaHexagon.FieldMacros
import BinjaHexagon.FieldRows
import BinjaHexagon.FieldRun
import BinjaHexagon.Flow
import BinjaHexagon.FlowCode
import BinjaHexagon.FlowPath
import BinjaHexagon.GenIl
import BinjaHexagon.Grouping
import BinjaHexagon.IlUtil
import BinjaHexagon.Insn
import BinjaHexagon.InsnSyntax
import BinjaHexagon.InsnText
import BinjaHexagon.IntervalMap
import BinjaHexagon.LiftDests
import BinjaHexagon.LiftShape
import BinjaHexagon.LiftSizes
import BinjaHexagon.LiftValue
import BinjaHexagon.Llil
import BinjaHexagon.LoopEnd
import BinjaHexagon.LoopPacket
import BinjaHexagon.LoopRegs
import BinjaHexagon.LoopRun
import BinjaHexagon.Machine
import BinjaHexagon.MacroArith
import BinjaHexagon.MacroKeeps
import BinjaHexagon.MacroNesting
import BinjaHexagon.MacroSet
import BinjaHexagon.MacroValue
import BinjaHexagon.NewValue
import BinjaHexagon.NewValueFill
import BinjaHexagon.Opcodes
import BinjaHexagon.PacketAdd
import BinjaHexagon.PacketCache
import BinjaHexagon.PacketCommit
import BinjaHexagon.PacketDb
import BinjaHexagon.PacketDecode
import BinjaHexagon.PacketImage
import BinjaHexagon.PacketLines
import BinjaHexagon.PacketReport
import BinjaHexagon.PacketTemps
import BinjaHexagon.PacketText
import BinjaHexagon.PacketTiles
import BinjaHexagon.PacketWhole
import BinjaHexagon.PairRun
import BinjaHexagon.ParallelReads
import BinjaHexagon.Prepare
import BinjaHexagon.PrepareBounds
import BinjaHexagon.PrepareOrder
import BinjaHexagon.PreparedPacket
import BinjaHexagon.ProgramRun
import BinjaHexagon.RegFrame
import BinjaHexagon.SemanticsParser
import BinjaHexagon.ShufflePasses
import BinjaHexagon.SlotNumber
import BinjaHexagon.SlotSearch
import BinjaHexagon.TempClash
import BinjaHexagon.TempIndex
import BinjaHexagon.TempVars
import BinjaHexagon.TextRoundTrip
import BinjaHexagon.Transformer
import BinjaHexagon.VectorOrder
import BinjaHexagon.WriteBack
import BinjaHexagon.Dectree
import BinjaHexagon.DecodeOp
import BinjaHexagon.OperandBits
import BinjaHexagon.DecodeInsns
import BinjaHexagon.Assembled
import BinjaHexagon.AssembledPackets
import BinjaHexagon.OperandFaithful
import BinjaHexagon.Allotment
import BinjaHexagon.HvxResources
import BinjaHexagon.FlowReport
import BinjaHexagon.IndirectDest
import BinjaHexagon.CReadings
import BinjaHexagon.Comparisons
