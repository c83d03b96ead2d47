/-! What an instruction of the NMOS 6502 is: a mnemonic with an addressing mode.
The effect tables say how a mnemonic touches memory, control flow, registers and the carry. -/
namespace Mos6502

/-- The documented instructions, three undocumented ones, three host calls, and the rest. -/
inductive Mnemonic where
  | adc | and | asl | bcc | bcs | beq | bit | bmi | bne | bpl | brk | bvc | bvs
  | clc | cld | cli | clv | cmp | cpx | cpy | dec | dex | dey | eor | inc | inx | iny
  | jmp | jsr | lda | ldx | ldy | lsr | nop | ora | pha | php | pla | plp | rol | ror
  | rti | rts | sbc | sec | sed | sei | sta | stx | sty | tax | tay | tsx | txa | txs | tya
  /-- A = (A and immediate) shifted right. -/
  | alr
  /-- Shift memory left, then or it into A. -/
  | slo
  /-- Store A and X. -/
  | sax
  | exit
  | debugBreak
  | crash
  | unknown
  deriving DecidableEq

inductive AddrMode where
  | implied | accumulator | immediate
  | zeroPage | zeroPageX | zeroPageY
  | absolute | absoluteX | absoluteY
  /-- The jump through a pointer. -/
  | indirect
  /-- Through the zero-page pointer at operand + X. -/
  | indexedIndirect
  /-- Y past the zero-page pointer at the operand. -/
  | indirectIndexed
  | relative
  deriving DecidableEq

inductive MemUse where
  | none | read | write | readWrite
  deriving DecidableEq

inductive Branching where
  | never | always | conditional
  deriving DecidableEq

inductive Register where
  | none | a | x | y
  deriving DecidableEq

namespace AddrMode

def len : AddrMode → UInt8
  | implied | accumulator => 1
  | immediate | zeroPage | zeroPageX | zeroPageY | indexedIndirect | indirectIndexed
  | relative => 2
  | absolute | absoluteX | absoluteY | indirect => 3

def staysInPageZero : AddrMode → Bool
  | zeroPage | zeroPageX | zeroPageY => true
  | _ => false

def name : AddrMode → String
  | implied => "Nil" | accumulator => "Acc" | immediate => "Imm"
  | zeroPage => "Zpg" | zeroPageX => "Zpx" | zeroPageY => "Zpy"
  | absolute => "Abs" | absoluteX => "Abx" | absoluteY => "Aby"
  | indirect => "Ind" | indexedIndirect => "Idx" | indirectIndexed => "Idy"
  | relative => "Rel"

end AddrMode

namespace Mnemonic

def memUse : Mnemonic → MemUse
  | adc | and | bit | cmp | cpx | cpy | eor | lda | ldx | ldy | ora | sbc | nop | alr => .read
  | sta | stx | sty | sax => .write
  | asl | lsr | rol | ror | inc | dec | slo => .readWrite
  | _ => .none

def branch : Mnemonic → Branching
  | bcc | bcs | beq | bmi | bne | bpl | bvc | bvs => .conditional
  | brk | jmp | jsr | rti | rts | exit | debugBreak | crash | unknown => .always
  | _ => .never

/-- The register the mnemonic changes in every mode but accumulator mode. -/
def register : Mnemonic → Register
  | adc | and | eor | ora | lda | pla | sbc | txa | tya | alr | slo => .a
  | ldx | tax | tsx | inx | dex => .x
  | ldy | tay | iny | dey => .y
  | _ => .none

def touchesCarry : Mnemonic → Bool
  | adc | sbc | cmp | cpx | cpy | asl | lsr | rol | ror | plp | rti | alr | slo | clc | sec => true
  | _ => false

def name : Mnemonic → String
  | adc => "ADC" | and => "AND" | asl => "ASL" | bcc => "BCC" | bcs => "BCS"
  | beq => "BEQ" | bit => "BIT" | bmi => "BMI" | bne => "BNE" | bpl => "BPL"
  | brk => "BRK" | bvc => "BVC" | bvs => "BVS" | clc => "CLC" | cld => "CLD"
  | cli => "CLI" | clv => "CLV" | cmp => "CMP" | cpx => "CPX" | cpy => "CPY"
  | dec => "DEC" | dex => "DEX" | dey => "DEY" | eor => "EOR" | inc => "INC"
  | inx => "INX" | iny => "INY" | jmp => "JMP" | jsr => "JSR" | lda => "LDA"
  | ldx => "LDX" | ldy => "LDY" | lsr => "LSR" | nop => "NOP" | ora => "ORA"
  | pha => "PHA" | php => "PHP" | pla => "PLA" | plp => "PLP" | rol => "ROL"
  | ror => "ROR" | rti => "RTI" | rts => "RTS" | sbc => "SBC" | sec => "SEC"
  | sed => "SED" | sei => "SEI" | sta => "STA" | stx => "STX" | sty => "STY"
  | tax => "TAX" | tay => "TAY" | tsx => "TSX" | txa => "TXA" | txs => "TXS"
  | tya => "TYA" | alr => "ALR" | slo => "SLO" | sax => "SAX"
  | exit => "EXIT" | debugBreak => "BREAK" | crash => "CRASH" | unknown => "???"

end Mnemonic

namespace MemUse

def reads : MemUse → Bool
  | read | readWrite => true
  | _ => false

def writes : MemUse → Bool
  | write | readWrite => true
  | _ => false

def name : MemUse → String
  | none => "None" | read => "Read" | write => "Write" | readWrite => "Rw"

end MemUse

def Branching.name : Branching → String
  | .never => "No" | .always => "Yes" | .conditional => "Maybe"

def Register.name : Register → String
  | .none => "None" | .a => "A" | .x => "X" | .y => "Y"

structure Operation where
  mnemonic : Mnemonic
  mode : AddrMode
  /-- Base cycles, before page-crossing and taken-branch penalties. -/
  cycles : UInt8
  deriving DecidableEq

namespace Operation

def len (i : Operation) : UInt8 :=
  i.mode.len

def memUse (i : Operation) : MemUse :=
  i.mnemonic.memUse

def branch (i : Operation) : Branching :=
  i.mnemonic.branch

/-- The register written; in accumulator mode that is A, whatever the mnemonic. -/
def register (i : Operation) : Register :=
  if i.mode = .accumulator then .a else i.mnemonic.register

end Operation

def vectorNmi : UInt16 := 0xFFFA
def vectorReset : UInt16 := 0xFFFC
def vectorIrq : UInt16 := 0xFFFE

end Mos6502
