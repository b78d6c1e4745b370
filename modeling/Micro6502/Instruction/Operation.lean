import Micro6502.Text.Basic

/-! What an instruction does, apart from how it finds its operand. -/

namespace Micro6502

/-- The operations of the processor, the byte directive of the assembler, and
the operation of opcodes that have no instruction. -/
inductive Operation where
  | adc | and | asl | bcc | bcs | beq | bit | bmi | bne | bpl | bvc | bvs
  | clc | cld | clv | cmp | cpx | cpy | dec | dex | dey | eor | inc | inx | iny
  | jmp | jsr | lda | ldx | ldy | lsr | nop | ora | pha | php | pla | plp
  | rol | ror | rts | sbc | sec | sed | sta | stx | sty
  | tax | tay | tsx | txa | txs | tya
  | dcb
  | invalid
  deriving DecidableEq

/-- The name of the operation in source text and in listings. -/
def Operation.mnemonic : Operation → Text
  | adc => "ADC".toList
  | and => "AND".toList
  | asl => "ASL".toList
  | bcc => "BCC".toList
  | bcs => "BCS".toList
  | beq => "BEQ".toList
  | bit => "BIT".toList
  | bmi => "BMI".toList
  | bne => "BNE".toList
  | bpl => "BPL".toList
  | bvc => "BVC".toList
  | bvs => "BVS".toList
  | clc => "CLC".toList
  | cld => "CLD".toList
  | clv => "CLV".toList
  | cmp => "CMP".toList
  | cpx => "CPX".toList
  | cpy => "CPY".toList
  | dec => "DEC".toList
  | dex => "DEX".toList
  | dey => "DEY".toList
  | eor => "EOR".toList
  | inc => "INC".toList
  | inx => "INX".toList
  | iny => "INY".toList
  | jmp => "JMP".toList
  | jsr => "JSR".toList
  | lda => "LDA".toList
  | ldx => "LDX".toList
  | ldy => "LDY".toList
  | lsr => "LSR".toList
  | nop => "NOP".toList
  | ora => "ORA".toList
  | pha => "PHA".toList
  | php => "PHP".toList
  | pla => "PLA".toList
  | plp => "PLP".toList
  | rol => "ROL".toList
  | ror => "ROR".toList
  | rts => "RTS".toList
  | sbc => "SBC".toList
  | sec => "SEC".toList
  | sed => "SED".toList
  | sta => "STA".toList
  | stx => "STX".toList
  | sty => "STY".toList
  | tax => "TAX".toList
  | tay => "TAY".toList
  | tsx => "TSX".toList
  | txa => "TXA".toList
  | txs => "TXS".toList
  | tya => "TYA".toList
  | dcb => "DCB".toList
  | invalid => "???".toList

end Micro6502
