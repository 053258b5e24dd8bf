import Frost32.Asm.Effects
import Frost32.Hdl.InstrDecoder

namespace Frost32.Asm

open Isa Hdl

/-!
# The instruction format

The words the assembler packs, read by the instruction decoder of the CPU.

* `ofBits_threeRegsToGen`, `ofBits_immToGen`, `ofBits_withSimm` — the packed structs of the
  CPU read every field back as the assembler put it in.
* `Oper` — the instructions as the enumerations of the CPU name them, and what the decoder is
  to say about each one.
* `InstrMap` — the maps of the assembler; `InstrMap.opers` says which instruction a mnemonic
  stands for.
* `map_eq_opers` — the two numberings agree.
* `instrDecoder_encode` — **the decoder recovers every instruction from its word**.
-/

/-! ### Fields of packed words -/

theorem extractLsb'_low_half {x : BitVec 64} {lo n : Nat} (h : lo + n ≤ 32) :
    (x.setWidth 32).extractLsb' lo n = x.extractLsb' lo n := by
  apply BitVec.eq_of_getLsbD_eq
  intro i hi
  have hlt : lo + i < 32 := by omega
  simp [BitVec.getLsbD_extractLsb', hlt]

theorem setWidth_operand {n : Nat} (h : n ≤ 64) (x : BitVec 32) :
    (x.setWidth 64).setWidth n = x.setWidth n :=
  BitVec.setWidth_setWidth_of_le x h

section Fields

variable (regA regB regC opcode immediate g : BitVec 32)

/-- **The fields of a word with three registers**; the fill is empty. -/
theorem ofBits_threeRegsToGen :
    IogRegsInstr.ofBits (threeRegsToGen regA regB regC opcode g) =
      { group := g.setWidth 4, raIndex := regA.setWidth 4, rbIndex := regB.setWidth 4,
        rcIndex := regC.setWidth 4, fill := 0, opcode := opcode.setWidth 4 } := by
  unfold IogRegsInstr.ofBits threeRegsToGen clearAndSetBitsWithRange
  simp (disch := omega) only [extractLsb'_low_half, BitField.extractLsb'_replaceBits_self,
    BitField.extractLsb'_replaceBits_of_disjoint, setWidth_operand]
  rfl

/-- **The fields of a word with a 16-bit immediate.** -/
theorem ofBits_immToGen :
    IogImmInstr.ofBits (immToGen regA regB opcode immediate g) =
      { group := g.setWidth 4, raIndex := regA.setWidth 4, rbIndex := regB.setWidth 4,
        opcode := opcode.setWidth 4, immVal := immediate.setWidth 16 } := by
  unfold IogImmInstr.ofBits immToGen clearAndSetBitsWithRange
  simp (disch := omega) only [extractLsb'_low_half, BitField.extractLsb'_replaceBits_self,
    BitField.extractLsb'_replaceBits_of_disjoint, setWidth_operand]

/-- **The fields of a load or store with a 12-bit immediate**; its third register is 0. -/
theorem ofBits_withSimm :
    Iog5Instr.ofBits (instrOpcodeGroup5WithSimm regA regB opcode immediate) =
      { group := 5, raIndex := regA.setWidth 4, rbIndex := regB.setWidth 4, rcIndex := 0,
        immVal12 := immediate.setWidth 12, opcode := opcode.setWidth 4 } := by
  unfold Iog5Instr.ofBits instrOpcodeGroup5WithSimm clearAndSetBitsWithRange
  simp (disch := omega) only [extractLsb'_low_half, BitField.extractLsb'_replaceBits_self,
    BitField.extractLsb'_replaceBits_of_disjoint, setWidth_operand]
  rfl

@[simp] theorem group_threeRegsToGen :
    group (threeRegsToGen regA regB regC opcode g) = g.setWidth 4 :=
  congrArg IogRegsInstr.group (ofBits_threeRegsToGen regA regB regC opcode g)

@[simp] theorem fieldA_threeRegsToGen :
    fieldA (threeRegsToGen regA regB regC opcode g) = regA.setWidth 4 :=
  congrArg IogRegsInstr.raIndex (ofBits_threeRegsToGen regA regB regC opcode g)

@[simp] theorem fieldB_threeRegsToGen :
    fieldB (threeRegsToGen regA regB regC opcode g) = regB.setWidth 4 :=
  congrArg IogRegsInstr.rbIndex (ofBits_threeRegsToGen regA regB regC opcode g)

@[simp] theorem fieldC_threeRegsToGen :
    fieldC (threeRegsToGen regA regB regC opcode g) = regC.setWidth 4 :=
  congrArg IogRegsInstr.rcIndex (ofBits_threeRegsToGen regA regB regC opcode g)

@[simp] theorem simm12_threeRegsToGen :
    simm12 (threeRegsToGen regA regB regC opcode g) = 0 :=
  congrArg IogRegsInstr.fill (ofBits_threeRegsToGen regA regB regC opcode g)

@[simp] theorem opcodeLow_threeRegsToGen :
    opcodeLow (threeRegsToGen regA regB regC opcode g) = opcode.setWidth 4 :=
  congrArg IogRegsInstr.opcode (ofBits_threeRegsToGen regA regB regC opcode g)

@[simp] theorem group_immToGen :
    group (immToGen regA regB opcode immediate g) = g.setWidth 4 :=
  congrArg IogImmInstr.group (ofBits_immToGen regA regB opcode immediate g)

@[simp] theorem fieldA_immToGen :
    fieldA (immToGen regA regB opcode immediate g) = regA.setWidth 4 :=
  congrArg IogImmInstr.raIndex (ofBits_immToGen regA regB opcode immediate g)

@[simp] theorem fieldB_immToGen :
    fieldB (immToGen regA regB opcode immediate g) = regB.setWidth 4 :=
  congrArg IogImmInstr.rbIndex (ofBits_immToGen regA regB opcode immediate g)

@[simp] theorem opcodeHigh_immToGen :
    opcodeHigh (immToGen regA regB opcode immediate g) = opcode.setWidth 4 :=
  congrArg IogImmInstr.opcode (ofBits_immToGen regA regB opcode immediate g)

@[simp] theorem imm16_immToGen :
    imm16 (immToGen regA regB opcode immediate g) = immediate.setWidth 16 :=
  congrArg IogImmInstr.immVal (ofBits_immToGen regA regB opcode immediate g)

@[simp] theorem group_withSimm :
    group (instrOpcodeGroup5WithSimm regA regB opcode immediate) = 5 :=
  congrArg Iog5Instr.group (ofBits_withSimm regA regB opcode immediate)

@[simp] theorem fieldA_withSimm :
    fieldA (instrOpcodeGroup5WithSimm regA regB opcode immediate) = regA.setWidth 4 :=
  congrArg Iog5Instr.raIndex (ofBits_withSimm regA regB opcode immediate)

@[simp] theorem fieldB_withSimm :
    fieldB (instrOpcodeGroup5WithSimm regA regB opcode immediate) = regB.setWidth 4 :=
  congrArg Iog5Instr.rbIndex (ofBits_withSimm regA regB opcode immediate)

@[simp] theorem fieldC_withSimm :
    fieldC (instrOpcodeGroup5WithSimm regA regB opcode immediate) = 0 :=
  congrArg Iog5Instr.rcIndex (ofBits_withSimm regA regB opcode immediate)

@[simp] theorem simm12_withSimm :
    simm12 (instrOpcodeGroup5WithSimm regA regB opcode immediate) = immediate.setWidth 12 :=
  congrArg Iog5Instr.immVal12 (ofBits_withSimm regA regB opcode immediate)

@[simp] theorem opcodeLow_withSimm :
    opcodeLow (instrOpcodeGroup5WithSimm regA regB opcode immediate) = opcode.setWidth 4 :=
  congrArg Iog5Instr.opcode (ofBits_withSimm regA regB opcode immediate)

end Fields

/-! ### The instructions of the CPU -/

/-- An enumerator of one of the opcode groups. -/
inductive Oper
  | iog0 (op : Iog0Oper)
  | iog1 (op : Iog1Oper)
  | iog2 (op : Iog2Oper)
  | iog3 (op : Iog3Oper)
  | iog4 (op : Iog4Oper)
  | iog5 (op : Iog5Oper)
  | iog6 (op : Iog6Oper)

namespace Oper

def opcode : Oper → BitVec 4
  | iog0 op => op.toBits
  | iog1 op => op.toBits
  | iog2 op => op.toBits
  | iog3 op => op.toBits
  | iog4 op => op.toBits
  | iog5 op => op.toBits
  | iog6 op => op.toBits

/-- The width, the signedness and the direction of a load or store. -/
def ldstType : Oper → LdstType
  | iog5 .ldrThreeRegsLdst | iog5 .ldriTwoRegsOneSimm12Ldst => .ld32
  | iog5 .ldhThreeRegsLdst | iog5 .ldhiTwoRegsOneSimm12Ldst => .ldU16
  | iog5 .ldshThreeRegsLdst | iog5 .ldshiTwoRegsOneSimm12Ldst => .ldS16
  | iog5 .ldbThreeRegsLdst | iog5 .ldbiTwoRegsOneSimm12Ldst => .ldU8
  | iog5 .ldsbThreeRegsLdst | iog5 .ldsbiTwoRegsOneSimm12Ldst => .ldS8
  | iog5 .strThreeRegsLdst | iog5 .striTwoRegsOneSimm12Ldst => .st32
  | iog5 .sthThreeRegsLdst | iog5 .sthiTwoRegsOneSimm12Ldst => .st16
  | iog5 .stbThreeRegsLdst | iog5 .stbiTwoRegsOneSimm12Ldst => .st8
  | _ => .ld32

/-- The condition of a branch, jump or call. -/
def conditionType : Oper → CondType
  | iog2 .bneTwoRegsOneSimm | iog3 .jneTwoRegsOneSimm | iog4 .cneTwoRegsOneSimm => .ctNe
  | iog2 .beqTwoRegsOneSimm | iog3 .jeqTwoRegsOneSimm | iog4 .ceqTwoRegsOneSimm => .ctEq
  | iog2 .bltuTwoRegsOneSimm | iog3 .jltuTwoRegsOneSimm | iog4 .cltuTwoRegsOneSimm => .ctLtu
  | iog2 .bgeuTwoRegsOneSimm | iog3 .jgeuTwoRegsOneSimm | iog4 .cgeuTwoRegsOneSimm => .ctGeu
  | iog2 .bleuTwoRegsOneSimm | iog3 .jleuTwoRegsOneSimm | iog4 .cleuTwoRegsOneSimm => .ctLeu
  | iog2 .bgtuTwoRegsOneSimm | iog3 .jgtuTwoRegsOneSimm | iog4 .cgtuTwoRegsOneSimm => .ctGtu
  | iog2 .bltsTwoRegsOneSimm | iog3 .jltsTwoRegsOneSimm | iog4 .cltsTwoRegsOneSimm => .ctLts
  | iog2 .bgesTwoRegsOneSimm | iog3 .jgesTwoRegsOneSimm | iog4 .cgesTwoRegsOneSimm => .ctGes
  | iog2 .blesTwoRegsOneSimm | iog3 .jlesTwoRegsOneSimm | iog4 .clesTwoRegsOneSimm => .ctLes
  | iog2 .bgtsTwoRegsOneSimm | iog3 .jgtsTwoRegsOneSimm | iog4 .cgtsTwoRegsOneSimm => .ctGts
  | _ => .ctNe

/-- The instructions that hold up the pipeline. -/
def causesStall : Oper → Bool
  | iog0 .mulThreeRegs | iog0 .udivThreeRegs | iog0 .sdivThreeRegs => true
  | iog1 .muliTwoRegsOneImm => true
  | iog2 _ | iog3 _ | iog4 _ | iog5 _ => true
  | iog6 .eiNoArgs | iog6 .diNoArgs | iog6 .retiNoArgs => true
  | iog6 .cpyOneIretaOneReg | iog6 .cpyOneIdstaOneReg => true
  | _ => false

end Oper

/-! ### The maps of the assembler -/

/-- The instruction maps, one for each form of operands. -/
inductive InstrMap
  | iog0ThreeRegs
  | iog1TwoRegsOneImm | iog1TwoRegsOneSimm | iog1OneRegOnePcOneSimm | iog1OneRegOneImm
  | iog2Branch | iog3Jump | iog4Call
  | iog5ThreeRegsLdst | iog5TwoRegsOneSimmLdst
  | iog6NoArgs | iog6OneIretaOneReg | iog6OneRegOneIreta | iog6OneIdstaOneReg
  | iog6OneRegOneIdsta

namespace InstrMap

def map : InstrMap → MapType
  | iog0ThreeRegs => iog0ThreeRegsMap
  | iog1TwoRegsOneImm => iog1TwoRegsOneImmMap
  | iog1TwoRegsOneSimm => iog1TwoRegsOneSimmMap
  | iog1OneRegOnePcOneSimm => iog1OneRegOnePcOneSimmMap
  | iog1OneRegOneImm => iog1OneRegOneImmMap
  | iog2Branch => iog2BranchMap
  | iog3Jump => iog3JumpMap
  | iog4Call => iog4CallMap
  | iog5ThreeRegsLdst => iog5ThreeRegsLdstMap
  | iog5TwoRegsOneSimmLdst => iog5TwoRegsOneSimmLdstMap
  | iog6NoArgs => iog6NoArgsMap
  | iog6OneIretaOneReg => iog6OneIretaOneRegMap
  | iog6OneRegOneIreta => iog6OneRegOneIretaMap
  | iog6OneIdstaOneReg => iog6OneIdstaOneRegMap
  | iog6OneRegOneIdsta => iog6OneRegOneIdstaMap

def group : InstrMap → BitVec 4
  | iog0ThreeRegs => 0
  | iog1TwoRegsOneImm | iog1TwoRegsOneSimm | iog1OneRegOnePcOneSimm | iog1OneRegOneImm => 1
  | iog2Branch => 2
  | iog3Jump => 3
  | iog4Call => 4
  | iog5ThreeRegsLdst | iog5TwoRegsOneSimmLdst => 5
  | iog6NoArgs | iog6OneIretaOneReg | iog6OneRegOneIreta | iog6OneIdstaOneReg
  | iog6OneRegOneIdsta => 6

/-- The instruction each mnemonic stands for. -/
def opers : InstrMap → List (String × Oper)
  | iog0ThreeRegs =>
    [("add", .iog0 .addThreeRegs), ("sub", .iog0 .subThreeRegs), ("sltu", .iog0 .sltuThreeRegs),
      ("slts", .iog0 .sltsThreeRegs), ("sgtu", .iog0 .sgtuThreeRegs),
      ("sgts", .iog0 .sgtsThreeRegs), ("mul", .iog0 .mulThreeRegs), ("and", .iog0 .andThreeRegs),
      ("orr", .iog0 .orrThreeRegs), ("xor", .iog0 .xorThreeRegs), ("nor", .iog0 .norThreeRegs),
      ("lsl", .iog0 .lslThreeRegs), ("lsr", .iog0 .lsrThreeRegs), ("asr", .iog0 .asrThreeRegs),
      ("udiv", .iog0 .udivThreeRegs), ("sdiv", .iog0 .sdivThreeRegs)]
  | iog1TwoRegsOneImm =>
    [("addi", .iog1 .addiTwoRegsOneImm), ("subi", .iog1 .subiTwoRegsOneImm),
      ("sltui", .iog1 .sltuiTwoRegsOneImm), ("sgtui", .iog1 .sgtuiTwoRegsOneImm),
      ("muli", .iog1 .muliTwoRegsOneImm), ("andi", .iog1 .andiTwoRegsOneImm),
      ("orri", .iog1 .orriTwoRegsOneImm), ("xori", .iog1 .xoriTwoRegsOneImm),
      ("nori", .iog1 .noriTwoRegsOneImm), ("lsli", .iog1 .lsliTwoRegsOneImm),
      ("lsri", .iog1 .lsriTwoRegsOneImm), ("asri", .iog1 .asriTwoRegsOneImm)]
  | iog1TwoRegsOneSimm =>
    [("sltsi", .iog1 .sltsiTwoRegsOneSimm), ("sgtsi", .iog1 .sgtsiTwoRegsOneSimm)]
  | iog1OneRegOnePcOneSimm => [("addsi", .iog1 .addsiOneRegOnePcOneSimm)]
  | iog1OneRegOneImm => [("cpyhi", .iog1 .cpyhiOneRegOneImm)]
  | iog2Branch =>
    [("bne", .iog2 .bneTwoRegsOneSimm), ("beq", .iog2 .beqTwoRegsOneSimm),
      ("bltu", .iog2 .bltuTwoRegsOneSimm), ("bgeu", .iog2 .bgeuTwoRegsOneSimm),
      ("bleu", .iog2 .bleuTwoRegsOneSimm), ("bgtu", .iog2 .bgtuTwoRegsOneSimm),
      ("blts", .iog2 .bltsTwoRegsOneSimm), ("bges", .iog2 .bgesTwoRegsOneSimm),
      ("bles", .iog2 .blesTwoRegsOneSimm), ("bgts", .iog2 .bgtsTwoRegsOneSimm)]
  | iog3Jump =>
    [("jne", .iog3 .jneTwoRegsOneSimm), ("jeq", .iog3 .jeqTwoRegsOneSimm),
      ("jltu", .iog3 .jltuTwoRegsOneSimm), ("jgeu", .iog3 .jgeuTwoRegsOneSimm),
      ("jleu", .iog3 .jleuTwoRegsOneSimm), ("jgtu", .iog3 .jgtuTwoRegsOneSimm),
      ("jlts", .iog3 .jltsTwoRegsOneSimm), ("jges", .iog3 .jgesTwoRegsOneSimm),
      ("jles", .iog3 .jlesTwoRegsOneSimm), ("jgts", .iog3 .jgtsTwoRegsOneSimm)]
  | iog4Call =>
    [("cne", .iog4 .cneTwoRegsOneSimm), ("ceq", .iog4 .ceqTwoRegsOneSimm),
      ("cltu", .iog4 .cltuTwoRegsOneSimm), ("cgeu", .iog4 .cgeuTwoRegsOneSimm),
      ("cleu", .iog4 .cleuTwoRegsOneSimm), ("cgtu", .iog4 .cgtuTwoRegsOneSimm),
      ("clts", .iog4 .cltsTwoRegsOneSimm), ("cges", .iog4 .cgesTwoRegsOneSimm),
      ("cles", .iog4 .clesTwoRegsOneSimm), ("cgts", .iog4 .cgtsTwoRegsOneSimm)]
  | iog5ThreeRegsLdst =>
    [("ldr", .iog5 .ldrThreeRegsLdst), ("ldh", .iog5 .ldhThreeRegsLdst),
      ("ldsh", .iog5 .ldshThreeRegsLdst), ("ldb", .iog5 .ldbThreeRegsLdst),
      ("ldsb", .iog5 .ldsbThreeRegsLdst), ("str", .iog5 .strThreeRegsLdst),
      ("sth", .iog5 .sthThreeRegsLdst), ("stb", .iog5 .stbThreeRegsLdst)]
  | iog5TwoRegsOneSimmLdst =>
    [("ldri", .iog5 .ldriTwoRegsOneSimm12Ldst), ("ldhi", .iog5 .ldhiTwoRegsOneSimm12Ldst),
      ("ldshi", .iog5 .ldshiTwoRegsOneSimm12Ldst), ("ldbi", .iog5 .ldbiTwoRegsOneSimm12Ldst),
      ("ldsbi", .iog5 .ldsbiTwoRegsOneSimm12Ldst), ("stri", .iog5 .striTwoRegsOneSimm12Ldst),
      ("sthi", .iog5 .sthiTwoRegsOneSimm12Ldst), ("stbi", .iog5 .stbiTwoRegsOneSimm12Ldst)]
  | iog6NoArgs => [("ei", .iog6 .eiNoArgs), ("di", .iog6 .diNoArgs), ("reti", .iog6 .retiNoArgs)]
  | iog6OneIretaOneReg => [("cpy", .iog6 .cpyOneIretaOneReg)]
  | iog6OneRegOneIreta => [("cpy", .iog6 .cpyOneRegOneIreta)]
  | iog6OneIdstaOneReg => [("cpy", .iog6 .cpyOneIdstaOneReg)]
  | iog6OneRegOneIdsta => [("cpy", .iog6 .cpyOneRegOneIdsta)]

/-- The word of the encoder for the form, with the immediate as the callers pass it. -/
def word (m : InstrMap) (regA regB regC op : BitVec 32) (imm : BitVec 64) : BitVec 32 :=
  match m with
  | iog0ThreeRegs => instrOpcodeGroup0 regA regB regC op
  | iog1TwoRegsOneImm | iog1TwoRegsOneSimm | iog1OneRegOnePcOneSimm | iog1OneRegOneImm =>
    instrOpcodeGroup1 regA regB op (imm.setWidth 32)
  | iog2Branch => instrOpcodeGroup2 regA regB op (imm.setWidth 32)
  | iog3Jump => instrOpcodeGroup3 regA regB regC op
  | iog4Call => instrOpcodeGroup4 regA regB regC op
  | iog5ThreeRegsLdst => instrOpcodeGroup5NoSimm regA regB regC op
  | iog5TwoRegsOneSimmLdst => instrOpcodeGroup5WithSimm regA regB op (imm.setWidth 32)
  | iog6NoArgs | iog6OneIretaOneReg | iog6OneRegOneIreta | iog6OneIdstaOneReg
  | iog6OneRegOneIdsta => instrOpcodeGroup6 regA regB regC op

/-- The word for a mnemonic and its operands, after the look-ups in the maps. -/
def encode (m : InstrMap) (name : String) (rA rB rC : TokReg) (imm : BitVec 64) :
    Except AsmError (BitVec 32) := do
  let regA ← regNamesMap.opcode rA.text
  let regB ← regNamesMap.opcode rB.text
  let regC ← regNamesMap.opcode rC.text
  return m.word regA regB regC (← m.map.opcode name) imm

/-- Forms with an immediate have no third register. -/
def rcIndex (m : InstrMap) (rC : TokReg) : RegIndex :=
  match m with
  | iog1TwoRegsOneImm | iog1TwoRegsOneSimm | iog1OneRegOnePcOneSimm | iog1OneRegOneImm
  | iog2Branch | iog5TwoRegsOneSimmLdst => 0
  | _ => rC.index

/-- The immediate as the CPU sees it. -/
def immVal (m : InstrMap) (imm : BitVec 64) : BitVec 16 :=
  match m with
  | iog1TwoRegsOneImm | iog1TwoRegsOneSimm | iog1OneRegOnePcOneSimm | iog1OneRegOneImm
  | iog2Branch => imm.setWidth 16
  | iog5TwoRegsOneSimmLdst => (imm.setWidth 12).signExtend 16
  | _ => 0

/-- What the decoder is to say about an instruction with its operands. -/
def decoded (m : InstrMap) (o : Oper) (rA rB rC : TokReg) (imm : BitVec 64) :
    PortOutInstrDecoder where
  group := m.group
  raIndex := rA.index
  rbIndex := rB.index
  rcIndex := m.rcIndex rC
  opcode := o.opcode
  immVal := m.immVal imm
  ldstType := o.ldstType
  causesStall := o.causesStall
  conditionType := o.conditionType

/-! ### The decoder recovers every instruction -/

/-- **The numbering of the assembler is that of the CPU**, map by map. -/
theorem map_eq_opers (m : InstrMap) :
    m.map = m.opers.map fun e => (e.1, e.2.opcode.setWidth 16) := by
  cases m <;> decide

theorem setWidth_index (r : TokReg) : r.num.setWidth 4 = r.index := by
  rw [TokReg.num, BitVec.setWidth_setWidth_of_le _ (by decide), BitVec.setWidth_eq]

/-- What the opcode alone decides is as the instruction asks for. -/
theorem outputs_of_opers (m : InstrMap) {e : String × Oper} (he : e ∈ m.opers) :
    (instrDecoder (m.word 0 0 0 (e.2.opcode.setWidth 32) 0)).ldstType = e.2.ldstType ∧
      (instrDecoder (m.word 0 0 0 (e.2.opcode.setWidth 32) 0)).causesStall = e.2.causesStall ∧
      (instrDecoder (m.word 0 0 0 (e.2.opcode.setWidth 32) 0)).conditionType =
        e.2.conditionType := by
  revert e
  cases m <;> decide

/-- The word of an instruction, as the decoder reads it. -/
theorem instrDecoder_word (m : InstrMap) {e : String × Oper} (he : e ∈ m.opers)
    (rA rB rC : TokReg) (imm : BitVec 64) :
    instrDecoder (m.word rA.num rB.num rC.num (e.2.opcode.setWidth 32) imm) =
      m.decoded e.2 rA rB rC imm := by
  obtain ⟨hldst, hstall, hcond⟩ := outputs_of_opers m he
  -- the outputs that depend on the opcode alone are those of the bare opcode word
  unfold decoded
  rw [← hldst, ← hstall, ← hcond]
  cases m
  case iog0ThreeRegs =>
    simp only [word, instrOpcodeGroup0]
    rw [instrDecoder_of_group0 (by simp), instrDecoder_of_group0 (by simp)]
    simp [setWidth_index, immVal, rcIndex, group]
  case iog1TwoRegsOneImm | iog1TwoRegsOneSimm | iog1OneRegOnePcOneSimm | iog1OneRegOneImm =>
    simp only [word, instrOpcodeGroup1]
    rw [instrDecoder_of_group1 (by simp), instrDecoder_of_group1 (by simp)]
    simp [setWidth_index, immVal, rcIndex, group]
  case iog2Branch =>
    simp only [word, instrOpcodeGroup2]
    rw [instrDecoder_of_group2 (by simp), instrDecoder_of_group2 (by simp)]
    simp [setWidth_index, immVal, rcIndex, group]
  case iog3Jump =>
    simp only [word, instrOpcodeGroup3]
    rw [instrDecoder_of_group3 (by simp), instrDecoder_of_group3 (by simp)]
    simp [setWidth_index, immVal, rcIndex, group]
  case iog4Call =>
    simp only [word, instrOpcodeGroup4]
    rw [instrDecoder_of_group4 (by simp), instrDecoder_of_group4 (by simp)]
    simp [setWidth_index, immVal, rcIndex, group]
  case iog5ThreeRegsLdst =>
    simp only [word, instrOpcodeGroup5NoSimm]
    rw [instrDecoder_of_group5 (by simp), instrDecoder_of_group5 (by simp)]
    simp [setWidth_index, immVal, rcIndex, group]
  case iog5TwoRegsOneSimmLdst =>
    simp only [word]
    rw [instrDecoder_of_group5 (by simp), instrDecoder_of_group5 (by simp)]
    simp [setWidth_index, immVal, rcIndex, group]
  case iog6NoArgs | iog6OneIretaOneReg | iog6OneRegOneIreta | iog6OneIdstaOneReg
      | iog6OneRegOneIdsta =>
    simp only [word, instrOpcodeGroup6]
    rw [instrDecoder_of_group6 (by simp), instrDecoder_of_group6 (by simp)]
    simp [setWidth_index, immVal, rcIndex, group]

/-- The word of an instruction, after the look-ups. -/
theorem encode_of_mem {m : InstrMap} {e : String × Oper} (he : e ∈ m.opers)
    (rA rB rC : TokReg) (imm : BitVec 64) :
    m.encode e.1 rA rB rC imm = .ok (m.word rA.num rB.num rC.num (e.2.opcode.setWidth 32) imm) := by
  have hall : ∀ e ∈ m.opers, m.map.lookup e.1 = some (e.2.opcode.setWidth 16) := by
    cases m <;> decide
  have hopcode : m.map.opcode e.1 = .ok (e.2.opcode.setWidth 32) := by
    rw [MapType.opcode, hall e he]
    simp
  unfold encode
  rw [regNamesMap_opcode, regNamesMap_opcode, regNamesMap_opcode, hopcode]
  rfl

/-- Every mnemonic of a map stands for an instruction. -/
theorem exists_oper {m : InstrMap} {name : String} (hname : name ∈ m.map.map Prod.fst) :
    ∃ e ∈ m.opers, e.1 = name := by
  rw [map_eq_opers, List.map_map] at hname
  exact List.mem_map.mp hname

/-- **The decoder recovers every instruction from its word**: each mnemonic of each map, with
    any registers and any immediate, has a word, and the decoder says of it what the
    instruction asks for. -/
theorem instrDecoder_encode (m : InstrMap) {name : String} (hname : name ∈ m.map.map Prod.fst)
    (rA rB rC : TokReg) (imm : BitVec 64) :
    ∃ o w, (name, o) ∈ m.opers ∧ m.encode name rA rB rC imm = .ok w ∧
      instrDecoder w = m.decoded o rA rB rC imm := by
  obtain ⟨e, he, rfl⟩ := exists_oper hname
  exact ⟨e.2, _, he, encode_of_mem he rA rB rC imm, instrDecoder_word m he rA rB rC imm⟩

/-- `sthi sp, [lr, -1]` is a store of 16 bits that stalls, at the address -1 from `lr`. -/
theorem instrDecoder_encode_sthi :
    "sthi" ∈ iog5TwoRegsOneSimmLdst.map.map Prod.fst ∧
      ∃ o w, ("sthi", o) ∈ iog5TwoRegsOneSimmLdst.opers ∧
        iog5TwoRegsOneSimmLdst.encode "sthi" .sp .lr .zero (-1) = .ok w ∧
        instrDecoder w = iog5TwoRegsOneSimmLdst.decoded o .sp .lr .zero (-1) ∧
        iog5TwoRegsOneSimmLdst.immVal (-1) = 0xffff := by
  have hname : "sthi" ∈ iog5TwoRegsOneSimmLdst.map.map Prod.fst := by decide
  obtain ⟨o, w, ho, hw, hdec⟩ :=
    instrDecoder_encode iog5TwoRegsOneSimmLdst hname .sp .lr .zero (-1)
  exact ⟨hname, o, w, ho, hw, hdec, by decide⟩

end InstrMap

end Frost32.Asm
