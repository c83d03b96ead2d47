import Mos6502.Word
import Mos6502.AddrTable
import Mos6502.Text.Hex
import Mos6502.Cpu.Opcode
import Mos6502.Cpu.OpcodeTable
import Mos6502.Cpu.State
import Mos6502.Cpu.Alu
import Mos6502.Halt
import Mos6502.Config
import Mos6502.Memory.Basic
import Mos6502.Memory.Paged
import Mos6502.Memory.Watched
import Mos6502.Bus
import Mos6502.Interpreter
import Mos6502.Uop.Basic
import Mos6502.Uop.Text
import Mos6502.Error
import Mos6502.Record.Basic
import Mos6502.Record.Countdown
import Mos6502.Record.Check
import Mos6502.Record.Peephole
import Mos6502.Lowering
import Mos6502.HostCode.HostOp
import Mos6502.HostCode.Decode
import Mos6502.HostCode.Writer
import Mos6502.HostCode.Arena
import Mos6502.BlockMap
import Mos6502.Translator.Basic
import Mos6502.Translator.Gather
import Mos6502.Translator.Emit
import Mos6502.Translator.Compile
import Mos6502.Engine.CodeBus
import Mos6502.Engine.Native
import Mos6502.Engine.Basic
import Mos6502.Engine.Run
import Mos6502.Engine.Control
import Mos6502.Proofs.Block.Shape
import Mos6502.Proofs.Block.Stages
import Mos6502.Proofs.Block.Charging
import Mos6502.Proofs.HostCode.Contents
import Mos6502.Proofs.HostCode.Emission
import Mos6502.Proofs.Block.Layout
import Mos6502.Proofs.Block.Tables
import Mos6502.Proofs.Block.Compiled
import Mos6502.Proofs.Block.Forgetting
import Mos6502.Proofs.Block.Live
import Mos6502.Proofs.Block.Total
import Mos6502.Proofs.Block.Runs
import Mos6502.Proofs.Block.History
import Mos6502.Proofs.Block.Lifetime
import Mos6502.Proofs.Block.Costs
import Mos6502.Proofs.Bus.Program
import Mos6502.Proofs.Memory.Paged
import Mos6502.Proofs.Native.Along
import Mos6502.Proofs.Native.Parts
import Mos6502.Proofs.Native.Fallback
import Mos6502.Proofs.Native.Safe
import Mos6502.Proofs.Native.Spares
import Mos6502.Proofs.Native.Stops
import Mos6502.Proofs.Native.Refunds
import Mos6502.Proofs.Native.Attentive
import Mos6502.Proofs.Engine.Coherent
import Mos6502.Proofs.Engine.Spot
import Mos6502.Proofs.Engine.Turn
import Mos6502.Proofs.Engine.Consistent
import Mos6502.Proofs.Engine.Standing
import Mos6502.Proofs.Engine.Start
import Mos6502.Proofs.Engine.History
import Mos6502.Proofs.Native.Ops
import Mos6502.Proofs.Machine.Guest
import Mos6502.Proofs.Machine.Steps
import Mos6502.Proofs.Native.Bare
import Mos6502.Proofs.Native.Task
import Mos6502.Proofs.Native.Operand
import Mos6502.Proofs.Native.Main
import Mos6502.Proofs.Native.Reads
import Mos6502.Proofs.Native.Flow
import Mos6502.Proofs.Native.Record
import Mos6502.Proofs.Native.Known
import Mos6502.Proofs.Native.Peephole
import Mos6502.Proofs.Native.Simulation
import Mos6502.Proofs.Engine.Bounce
import Mos6502.Proofs.Machine.Fetch
import Mos6502.Proofs.Engine.Works
import Mos6502.Proofs.Engine.Outcome
import Mos6502.Proofs.Engine.Resume
import Mos6502.Proofs.Engine.Visits
import Mos6502.Proofs.Engine.WholeRun
import Mos6502.Proofs.Engine.Refinement
import Mos6502.Proofs.Engine.Transparent
import Mos6502.Proofs.Engine.NoFault
import Mos6502.Proofs.Engine.Reach
import Mos6502.Proofs.Engine.Slices
import Mos6502.Proofs.Engine.Identity
import Mos6502.Proofs.Engine.Attention
import Mos6502.Proofs.Engine.Solvent
import Mos6502.Proofs.Engine.Termination
import Mos6502.Proofs.Native.Shown
import Mos6502.Proofs.Engine.Observed
import Mos6502.Proofs.Native.Announced
import Mos6502.Proofs.Block.ReadBack
import Mos6502.Proofs.Block.Ranges
import Mos6502.Proofs.Engine.Repeat
import Mos6502.Proofs.Engine.Devices
import Mos6502.Proofs.Engine.Balance
import Mos6502.Proofs.Engine.Request
import Mos6502.Proofs.Machine.Returns
import Mos6502.Proofs.Native.Stack
import Mos6502.Proofs.Machine.Effects
import Mos6502.Proofs.Native.Effects
