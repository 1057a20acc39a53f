import Cpu6502.Cpu
import Cpu6502.FlatMemory
import Cpu6502.Proofs.Course
import Cpu6502.Proofs.Schedule
import Cpu6502.Proofs.Residue
import Cpu6502.Proofs.Turn
import Cpu6502.Proofs.Frame
import Cpu6502.Proofs.Accesses
import Cpu6502.Proofs.HiddenFlags
import Cpu6502.Proofs.Stack
import Cpu6502.Proofs.Interpretation
import Cpu6502.Proofs.Reach
import Cpu6502.Proofs.Code
import Cpu6502.Proofs.AddWithCarry
import Cpu6502.Proofs.LittleEndian
import Cpu6502.Proofs.LongArithmetic
import Cpu6502.Proofs.Subroutine
import Cpu6502.Proofs.Policy
import Cpu6502.Proofs.ProgramCounter
import Cpu6502.Proofs.Protection
import Cpu6502.Proofs.Iteration
import Cpu6502.Proofs.Faults
import Cpu6502.Proofs.Endings
import Cpu6502.Proofs.Calls
import Cpu6502.Proofs.Assignment
import Cpu6502.Proofs.StraightLine
import Cpu6502.Proofs.Displacement
import Cpu6502.Proofs.Termination
import Cpu6502.Proofs.Transcript
import Cpu6502.Proofs.Recurrence
import Cpu6502.Proofs.EffectiveAddress
import Cpu6502.Proofs.AccumulatorArithmetic
import Cpu6502.Proofs.OperandRoute
import Cpu6502.Proofs.Comparison
import Cpu6502.Proofs.ResultFlags
import Cpu6502.Proofs.Shift
import Cpu6502.Proofs.ShiftChain
import Cpu6502.Proofs.SavedStatus
import Cpu6502.Proofs.Loading
import Cpu6502.Proofs.CountedLoop
