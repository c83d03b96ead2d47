import Mos6502.Cpu.Opcode

/-! The 256 opcode bytes: a row for each high digit, a column for each low digit. -/
namespace Mos6502

private def unused : Operation :=
  ⟨.unknown, .implied, 2⟩

def opcodeTable : Vector (Vector Operation 16) 16 :=
  #v[
    #v[⟨.brk, .implied, 7⟩, ⟨.ora, .indexedIndirect, 6⟩, ⟨.exit, .implied, 2⟩, unused, unused,
      ⟨.ora, .zeroPage, 3⟩, ⟨.asl, .zeroPage, 5⟩, ⟨.slo, .zeroPage, 5⟩, ⟨.php, .implied, 3⟩,
      ⟨.ora, .immediate, 2⟩, ⟨.asl, .accumulator, 2⟩, unused, ⟨.nop, .absolute, 4⟩,
      ⟨.ora, .absolute, 4⟩, ⟨.asl, .absolute, 6⟩, ⟨.slo, .absolute, 6⟩],
    #v[⟨.bpl, .relative, 2⟩, ⟨.ora, .indirectIndexed, 5⟩, ⟨.debugBreak, .implied, 2⟩, unused,
      unused, ⟨.ora, .zeroPageX, 4⟩, ⟨.asl, .zeroPageX, 6⟩, unused, ⟨.clc, .implied, 2⟩,
      ⟨.ora, .absoluteY, 4⟩, ⟨.nop, .implied, 2⟩, unused, unused, ⟨.ora, .absoluteX, 4⟩,
      ⟨.asl, .absoluteX, 7⟩, unused],
    #v[⟨.jsr, .absolute, 6⟩, ⟨.and, .indexedIndirect, 6⟩, unused, unused, ⟨.bit, .zeroPage, 3⟩,
      ⟨.and, .zeroPage, 3⟩, ⟨.rol, .zeroPage, 5⟩, unused, ⟨.plp, .implied, 4⟩,
      ⟨.and, .immediate, 2⟩, ⟨.rol, .accumulator, 2⟩, unused, ⟨.bit, .absolute, 4⟩,
      ⟨.and, .absolute, 4⟩, ⟨.rol, .absolute, 6⟩, unused],
    #v[⟨.bmi, .relative, 2⟩, ⟨.and, .indirectIndexed, 5⟩, unused, unused, unused,
      ⟨.and, .zeroPageX, 4⟩, ⟨.rol, .zeroPageX, 6⟩, unused, ⟨.sec, .implied, 2⟩,
      ⟨.and, .absoluteY, 4⟩, ⟨.nop, .implied, 2⟩, unused, unused, ⟨.and, .absoluteX, 4⟩,
      ⟨.rol, .absoluteX, 7⟩, unused],
    #v[⟨.rti, .implied, 6⟩, ⟨.eor, .indexedIndirect, 6⟩, unused, unused, ⟨.nop, .zeroPage, 3⟩,
      ⟨.eor, .zeroPage, 3⟩, ⟨.lsr, .zeroPage, 5⟩, unused, ⟨.pha, .implied, 3⟩,
      ⟨.eor, .immediate, 2⟩, ⟨.lsr, .accumulator, 2⟩, ⟨.alr, .immediate, 2⟩, ⟨.jmp, .absolute, 3⟩,
      ⟨.eor, .absolute, 4⟩, ⟨.lsr, .absolute, 6⟩, unused],
    #v[⟨.bvc, .relative, 2⟩, ⟨.eor, .indirectIndexed, 5⟩, unused, unused, unused,
      ⟨.eor, .zeroPageX, 4⟩, ⟨.lsr, .zeroPageX, 6⟩, unused, ⟨.cli, .implied, 2⟩,
      ⟨.eor, .absoluteY, 4⟩, ⟨.nop, .implied, 2⟩, unused, unused, ⟨.eor, .absoluteX, 4⟩,
      ⟨.lsr, .absoluteX, 7⟩, unused],
    #v[⟨.rts, .implied, 6⟩, ⟨.adc, .indexedIndirect, 6⟩, unused, unused, ⟨.nop, .zeroPage, 3⟩,
      ⟨.adc, .zeroPage, 3⟩, ⟨.ror, .zeroPage, 5⟩, unused, ⟨.pla, .implied, 4⟩,
      ⟨.adc, .immediate, 2⟩, ⟨.ror, .accumulator, 2⟩, unused, ⟨.jmp, .indirect, 5⟩,
      ⟨.adc, .absolute, 4⟩, ⟨.ror, .absolute, 6⟩, unused],
    #v[⟨.bvs, .relative, 2⟩, ⟨.adc, .indirectIndexed, 5⟩, unused, unused, unused,
      ⟨.adc, .zeroPageX, 4⟩, ⟨.ror, .zeroPageX, 6⟩, unused, ⟨.sei, .implied, 2⟩,
      ⟨.adc, .absoluteY, 4⟩, ⟨.nop, .implied, 2⟩, unused, unused, ⟨.adc, .absoluteX, 4⟩,
      ⟨.ror, .absoluteX, 7⟩, unused],
    #v[⟨.nop, .immediate, 2⟩, ⟨.sta, .indexedIndirect, 6⟩, unused, unused, ⟨.sty, .zeroPage, 3⟩,
      ⟨.sta, .zeroPage, 3⟩, ⟨.stx, .zeroPage, 3⟩, ⟨.sax, .zeroPage, 3⟩, ⟨.dey, .implied, 2⟩,
      unused, ⟨.txa, .implied, 2⟩, unused, ⟨.sty, .absolute, 4⟩, ⟨.sta, .absolute, 4⟩,
      ⟨.stx, .absolute, 4⟩, ⟨.sax, .absolute, 4⟩],
    #v[⟨.bcc, .relative, 2⟩, ⟨.sta, .indirectIndexed, 6⟩, unused, unused, ⟨.sty, .zeroPageX, 4⟩,
      ⟨.sta, .zeroPageX, 4⟩, ⟨.stx, .zeroPageY, 4⟩, unused, ⟨.tya, .implied, 2⟩,
      ⟨.sta, .absoluteY, 5⟩, ⟨.txs, .implied, 2⟩, unused, unused, ⟨.sta, .absoluteX, 5⟩, unused,
      unused],
    #v[⟨.ldy, .immediate, 2⟩, ⟨.lda, .indexedIndirect, 6⟩, ⟨.ldx, .immediate, 2⟩, unused,
      ⟨.ldy, .zeroPage, 3⟩, ⟨.lda, .zeroPage, 3⟩, ⟨.ldx, .zeroPage, 3⟩, unused,
      ⟨.tay, .implied, 2⟩, ⟨.lda, .immediate, 2⟩, ⟨.tax, .implied, 2⟩, unused,
      ⟨.ldy, .absolute, 4⟩, ⟨.lda, .absolute, 4⟩, ⟨.ldx, .absolute, 4⟩, unused],
    #v[⟨.bcs, .relative, 2⟩, ⟨.lda, .indirectIndexed, 5⟩, unused, unused, ⟨.ldy, .zeroPageX, 4⟩,
      ⟨.lda, .zeroPageX, 4⟩, ⟨.ldx, .zeroPageY, 4⟩, unused, ⟨.clv, .implied, 2⟩,
      ⟨.lda, .absoluteY, 4⟩, ⟨.tsx, .implied, 2⟩, unused, ⟨.ldy, .absoluteX, 4⟩,
      ⟨.lda, .absoluteX, 4⟩, ⟨.ldx, .absoluteY, 4⟩, unused],
    #v[⟨.cpy, .immediate, 2⟩, ⟨.cmp, .indexedIndirect, 6⟩, unused, unused, ⟨.cpy, .zeroPage, 3⟩,
      ⟨.cmp, .zeroPage, 3⟩, ⟨.dec, .zeroPage, 5⟩, unused, ⟨.iny, .implied, 2⟩,
      ⟨.cmp, .immediate, 2⟩, ⟨.dex, .implied, 2⟩, unused, ⟨.cpy, .absolute, 4⟩,
      ⟨.cmp, .absolute, 4⟩, ⟨.dec, .absolute, 6⟩, unused],
    #v[⟨.bne, .relative, 2⟩, ⟨.cmp, .indirectIndexed, 5⟩, unused, unused, unused,
      ⟨.cmp, .zeroPageX, 4⟩, ⟨.dec, .zeroPageX, 6⟩, unused, ⟨.cld, .implied, 2⟩,
      ⟨.cmp, .absoluteY, 4⟩, ⟨.nop, .implied, 2⟩, unused, unused, ⟨.cmp, .absoluteX, 4⟩,
      ⟨.dec, .absoluteX, 7⟩, unused],
    #v[⟨.cpx, .immediate, 2⟩, ⟨.sbc, .indexedIndirect, 6⟩, unused, unused, ⟨.cpx, .zeroPage, 3⟩,
      ⟨.sbc, .zeroPage, 3⟩, ⟨.inc, .zeroPage, 5⟩, unused, ⟨.inx, .implied, 2⟩,
      ⟨.sbc, .immediate, 2⟩, ⟨.nop, .implied, 2⟩, unused, ⟨.cpx, .absolute, 4⟩,
      ⟨.sbc, .absolute, 4⟩, ⟨.inc, .absolute, 6⟩, unused],
    #v[⟨.beq, .relative, 2⟩, ⟨.sbc, .indirectIndexed, 5⟩, ⟨.crash, .implied, 2⟩, unused, unused,
      ⟨.sbc, .zeroPageX, 4⟩, ⟨.inc, .zeroPageX, 6⟩, unused, ⟨.sed, .implied, 2⟩,
      ⟨.sbc, .absoluteY, 4⟩, ⟨.nop, .implied, 2⟩, unused, unused, ⟨.sbc, .absoluteX, 4⟩,
      ⟨.inc, .absoluteX, 7⟩, unused]
  ]

def operationOf (opcode : UInt8) : Operation :=
  have inside : opcode.toNat < 256 := opcode.toNat_lt
  have row : opcode.toNat / 16 < 16 := by omega
  have column : opcode.toNat % 16 < 16 := by omega
  opcodeTable[opcode.toNat / 16][opcode.toNat % 16]

theorem forall_opcode {p : UInt8 → Prop} (all : ∀ i : Fin 256, p (UInt8.ofNat i.val))
    (opcode : UInt8) : p opcode := by
  have inside : opcode.toNat < 256 := opcode.toNat_lt
  have here := all ⟨opcode.toNat, inside⟩
  simpa using here

end Mos6502
