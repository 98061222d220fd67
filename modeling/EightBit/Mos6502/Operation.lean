import EightBit.Mos6502.Addressing

/-!
# The 6502 instruction set

The documented instructions of the NMOS 6502 and their opcodes by addressing mode.

* `Mos6502.Operation`: the 56 instructions.
* `Mos6502.Operation.opcodes`: the opcode of each addressing mode that an instruction has.
-/

namespace EightBit.Mos6502

/-- An instruction of the 6502. -/
inductive Operation
  | adc | and | asl | bcc | bcs | beq | bit | bmi | bne | bpl | brk | bvc | bvs | clc
  | cld | cli | clv | cmp | cpx | cpy | dec | dex | dey | eor | inc | inx | iny | jmp
  | jsr | lda | ldx | ldy | lsr | nop | ora | pha | php | pla | plp | rol | ror | rti
  | rts | sbc | sec | sed | sei | sta | stx | sty | tax | tay | tsx | txa | txs | tya
deriving DecidableEq, Repr

namespace Operation

/-- All instructions, by name. -/
def all : List Operation := [
  adc, and, asl, bcc, bcs, beq, bit, bmi, bne, bpl, brk, bvc, bvs, clc, cld, cli, clv, cmp,
  cpx, cpy, dec, dex, dey, eor, inc, inx, iny, jmp, jsr, lda, ldx, ldy, lsr, nop, ora, pha,
  php, pla, plp, rol, ror, rti, rts, sbc, sec, sed, sei, sta, stx, sty, tax, tay, tsx, txa,
  txs, tya]

/-- The mnemonic of an instruction. -/
def name : Operation → Text
  | adc => "ADC"
  | and => "AND"
  | asl => "ASL"
  | bcc => "BCC"
  | bcs => "BCS"
  | beq => "BEQ"
  | bit => "BIT"
  | bmi => "BMI"
  | bne => "BNE"
  | bpl => "BPL"
  | brk => "BRK"
  | bvc => "BVC"
  | bvs => "BVS"
  | clc => "CLC"
  | cld => "CLD"
  | cli => "CLI"
  | clv => "CLV"
  | cmp => "CMP"
  | cpx => "CPX"
  | cpy => "CPY"
  | dec => "DEC"
  | dex => "DEX"
  | dey => "DEY"
  | eor => "EOR"
  | inc => "INC"
  | inx => "INX"
  | iny => "INY"
  | jmp => "JMP"
  | jsr => "JSR"
  | lda => "LDA"
  | ldx => "LDX"
  | ldy => "LDY"
  | lsr => "LSR"
  | nop => "NOP"
  | ora => "ORA"
  | pha => "PHA"
  | php => "PHP"
  | pla => "PLA"
  | plp => "PLP"
  | rol => "ROL"
  | ror => "ROR"
  | rti => "RTI"
  | rts => "RTS"
  | sbc => "SBC"
  | sec => "SEC"
  | sed => "SED"
  | sei => "SEI"
  | sta => "STA"
  | stx => "STX"
  | sty => "STY"
  | tax => "TAX"
  | tay => "TAY"
  | tsx => "TSX"
  | txa => "TXA"
  | txs => "TXS"
  | tya => "TYA"

/-- The instruction with a mnemonic, which is written in capitals. -/
def ofName? (name : Text) : Option Operation := all.find? fun op => op.name == name

/-- The opcode of an instruction in each addressing mode that it has. -/
def opcodes : Operation → List (Addressing × UInt8)
  | adc => [(.imm, 0x69), (.zpg, 0x65), (.zpx, 0x75), (.abs, 0x6D), (.abx, 0x7D), (.aby, 0x79),
      (.idx, 0x61), (.idy, 0x71)]
  | and => [(.imm, 0x29), (.zpg, 0x25), (.zpx, 0x35), (.abs, 0x2D), (.abx, 0x3D), (.aby, 0x39),
      (.idx, 0x21), (.idy, 0x31)]
  | asl => [(.acc, 0x0A), (.zpg, 0x06), (.zpx, 0x16), (.abs, 0x0E), (.abx, 0x1E)]
  | bcc => [(.rel, 0x90)]
  | bcs => [(.rel, 0xB0)]
  | beq => [(.rel, 0xF0)]
  | bit => [(.zpg, 0x24), (.abs, 0x2C)]
  | bmi => [(.rel, 0x30)]
  | bne => [(.rel, 0xD0)]
  | bpl => [(.rel, 0x10)]
  | brk => [(.imp, 0x00)]
  | bvc => [(.rel, 0x50)]
  | bvs => [(.rel, 0x70)]
  | clc => [(.imp, 0x18)]
  | cld => [(.imp, 0xD8)]
  | cli => [(.imp, 0x58)]
  | clv => [(.imp, 0xB8)]
  | cmp => [(.imm, 0xC9), (.zpg, 0xC5), (.zpx, 0xD5), (.abs, 0xCD), (.abx, 0xDD), (.aby, 0xD9),
      (.idx, 0xC1), (.idy, 0xD1)]
  | cpx => [(.imm, 0xE0), (.zpg, 0xE4), (.abs, 0xEC)]
  | cpy => [(.imm, 0xC0), (.zpg, 0xC4), (.abs, 0xCC)]
  | dec => [(.zpg, 0xC6), (.zpx, 0xD6), (.abs, 0xCE), (.abx, 0xDE)]
  | dex => [(.imp, 0xCA)]
  | dey => [(.imp, 0x88)]
  | eor => [(.imm, 0x49), (.zpg, 0x45), (.zpx, 0x55), (.abs, 0x4D), (.abx, 0x5D), (.aby, 0x59),
      (.idx, 0x41), (.idy, 0x51)]
  | inc => [(.zpg, 0xE6), (.zpx, 0xF6), (.abs, 0xEE), (.abx, 0xFE)]
  | inx => [(.imp, 0xE8)]
  | iny => [(.imp, 0xC8)]
  | jmp => [(.abs, 0x4C), (.ind, 0x6C)]
  | jsr => [(.abs, 0x20)]
  | lda => [(.imm, 0xA9), (.zpg, 0xA5), (.zpx, 0xB5), (.abs, 0xAD), (.abx, 0xBD), (.aby, 0xB9),
      (.idx, 0xA1), (.idy, 0xB1)]
  | ldx => [(.imm, 0xA2), (.zpg, 0xA6), (.zpy, 0xB6), (.abs, 0xAE), (.aby, 0xBE)]
  | ldy => [(.imm, 0xA0), (.zpg, 0xA4), (.zpx, 0xB4), (.abs, 0xAC), (.abx, 0xBC)]
  | lsr => [(.acc, 0x4A), (.zpg, 0x46), (.zpx, 0x56), (.abs, 0x4E), (.abx, 0x5E)]
  | nop => [(.imp, 0xEA)]
  | ora => [(.imm, 0x09), (.zpg, 0x05), (.zpx, 0x15), (.abs, 0x0D), (.abx, 0x1D), (.aby, 0x19),
      (.idx, 0x01), (.idy, 0x11)]
  | pha => [(.imp, 0x48)]
  | php => [(.imp, 0x08)]
  | pla => [(.imp, 0x68)]
  | plp => [(.imp, 0x28)]
  | rol => [(.acc, 0x2A), (.zpg, 0x26), (.zpx, 0x36), (.abs, 0x2E), (.abx, 0x3E)]
  | ror => [(.acc, 0x6A), (.zpg, 0x66), (.zpx, 0x76), (.abs, 0x6E), (.abx, 0x7E)]
  | rti => [(.imp, 0x40)]
  | rts => [(.imp, 0x60)]
  | sbc => [(.imm, 0xE9), (.zpg, 0xE5), (.zpx, 0xF5), (.abs, 0xED), (.abx, 0xFD), (.aby, 0xF9),
      (.idx, 0xE1), (.idy, 0xF1)]
  | sec => [(.imp, 0x38)]
  | sed => [(.imp, 0xF8)]
  | sei => [(.imp, 0x78)]
  | sta => [(.zpg, 0x85), (.zpx, 0x95), (.abs, 0x8D), (.abx, 0x9D), (.aby, 0x99), (.idx, 0x81),
      (.idy, 0x91)]
  | stx => [(.zpg, 0x86), (.zpy, 0x96), (.abs, 0x8E)]
  | sty => [(.zpg, 0x84), (.zpx, 0x94), (.abs, 0x8C)]
  | tax => [(.imp, 0xAA)]
  | tay => [(.imp, 0xA8)]
  | tsx => [(.imp, 0xBA)]
  | txa => [(.imp, 0x8A)]
  | txs => [(.imp, 0x9A)]
  | tya => [(.imp, 0x98)]

/-- The instruction with its opcodes. -/
def mnemonic (op : Operation) : Mnemonic where
  name := op.name
  opcodes := op.opcodes.map fun (a, opcode) => (a.mode, opcode)

end Operation

/-- The instruction table of the 6502. -/
def table : Table := (Table.build Addressing.modes (Operation.all.map Operation.mnemonic)).1

end EightBit.Mos6502
