import Frost32.Lib.BitField

namespace Frost32.Asm

/-!
# `EncodingStuff` and the instruction words

The opcode maps of the assembler and the packing of fields into instruction words.

* `MapType` — a map from mnemonics to opcodes.  The keys are interned strings, so equal
  texts are equal keys; `at` throws for an unknown key.
* `iog0`, … — the mnemonics of each opcode group in the order of the constructor, which
  numbers them with one counter for all the maps of a group.
* `decodeRegName`, `getIog0InstrFromOpcode`, … — the reverse look-ups of the disassembler.
* `instrOpcodeGroup0`, … — the word each `encode_instr_opcode_group_*` passes to `gen_32`.
-/

/-! ### The maps -/

inductive ArgsType
  | threeRegs | twoRegs
  | twoRegsOneImm | twoRegsOneSimm | oneRegOnePcOneSimm | oneRegOneImm
  | branch
  | threeRegsLdst | twoRegsOneSimmLdst
  | noArgs | oneIretaOneReg | oneRegOneIreta | oneIdstaOneReg | oneRegOneIdsta
  | unknown
  deriving DecidableEq, Repr

abbrev MapType := List (String × BitVec 16)

/-- Number the entries of a group with `temp++`. -/
def numbered (entries : List (ArgsType × String)) : List (ArgsType × String × BitVec 16) :=
  entries.zipIdx.map fun e => (e.1.1, e.1.2, BitVec.ofNat 16 e.2)

/-- The entries of a group that go into the map of one form. -/
def mapFor (t : ArgsType) (entries : List (ArgsType × String)) : MapType :=
  (numbered entries).filterMap fun e => if e.1 = t then some e.2 else none

/-- The registers, numbered like a group. -/
def regNamesMap : MapType :=
  ["zero", "u0", "u1", "u2", "u3", "u4", "u5", "u6", "u7", "u8", "u9", "u10",
    "temp", "lr", "fp", "sp"].zipIdx.map fun e => (e.1, BitVec.ofNat 16 e.2)

/-- Instruction Opcode Group 0. -/
def iog0 : List (ArgsType × String) :=
  ["add", "sub", "sltu", "slts", "sgtu", "sgts", "mul", "and", "orr", "xor", "nor",
    "lsl", "lsr", "asr", "udiv", "sdiv"].map (.threeRegs, ·)

/-- Instruction Opcode Group 1. -/
def iog1 : List (ArgsType × String) :=
  [(.twoRegsOneImm, "addi"), (.twoRegsOneImm, "subi"), (.twoRegsOneImm, "sltui"),
    (.twoRegsOneSimm, "sltsi"), (.twoRegsOneImm, "sgtui"), (.twoRegsOneSimm, "sgtsi"),
    (.twoRegsOneImm, "muli"), (.twoRegsOneImm, "andi"), (.twoRegsOneImm, "orri"),
    (.twoRegsOneImm, "xori"), (.twoRegsOneImm, "nori"), (.twoRegsOneImm, "lsli"),
    (.twoRegsOneImm, "lsri"), (.twoRegsOneImm, "asri"), (.oneRegOnePcOneSimm, "addsi"),
    (.oneRegOneImm, "cpyhi")]

/-- Instruction Opcode Group 2 (branches). -/
def iog2 : List (ArgsType × String) :=
  ["bne", "beq", "bltu", "bgeu", "bleu", "bgtu", "blts", "bges", "bles", "bgts"].map (.branch, ·)

/-- Instruction Opcode Group 3 (jumps). -/
def iog3 : List (ArgsType × String) :=
  ["jne", "jeq", "jltu", "jgeu", "jleu", "jgtu", "jlts", "jges", "jles", "jgts"].map
    (.threeRegs, ·)

/-- Instruction Opcode Group 4 (calls). -/
def iog4 : List (ArgsType × String) :=
  ["cne", "ceq", "cltu", "cgeu", "cleu", "cgtu", "clts", "cges", "cles", "cgts"].map
    (.threeRegs, ·)

/-- Instruction Opcode Group 5 (loads and stores). -/
def iog5 : List (ArgsType × String) :=
  ["ldr", "ldh", "ldsh", "ldb", "ldsb", "str", "sth", "stb"].map (.threeRegsLdst, ·) ++
    ["ldri", "ldhi", "ldshi", "ldbi", "ldsbi", "stri", "sthi", "stbi"].map
      (.twoRegsOneSimmLdst, ·)

/-- Instruction Opcode Group 6 (interrupts stuff). -/
def iog6 : List (ArgsType × String) :=
  [(.noArgs, "ei"), (.noArgs, "di"), (.oneIretaOneReg, "cpy"), (.oneRegOneIreta, "cpy"),
    (.oneIdstaOneReg, "cpy"), (.oneRegOneIdsta, "cpy"), (.noArgs, "reti")]

def iog0ThreeRegsMap : MapType := mapFor .threeRegs iog0
def iog1TwoRegsOneImmMap : MapType := mapFor .twoRegsOneImm iog1
def iog1TwoRegsOneSimmMap : MapType := mapFor .twoRegsOneSimm iog1
def iog1OneRegOnePcOneSimmMap : MapType := mapFor .oneRegOnePcOneSimm iog1
def iog1OneRegOneImmMap : MapType := mapFor .oneRegOneImm iog1
def iog2BranchMap : MapType := mapFor .branch iog2
def iog3JumpMap : MapType := mapFor .threeRegs iog3
def iog4CallMap : MapType := mapFor .threeRegs iog4
def iog5ThreeRegsLdstMap : MapType := mapFor .threeRegsLdst iog5
def iog5TwoRegsOneSimmLdstMap : MapType := mapFor .twoRegsOneSimmLdst iog5
def iog6NoArgsMap : MapType := mapFor .noArgs iog6
def iog6OneIretaOneRegMap : MapType := mapFor .oneIretaOneReg iog6
def iog6OneRegOneIretaMap : MapType := mapFor .oneRegOneIreta iog6
def iog6OneIdstaOneRegMap : MapType := mapFor .oneIdstaOneReg iog6
def iog6OneRegOneIdstaMap : MapType := mapFor .oneRegOneIdsta iog6

/-! ### Reverse look-ups -/

/-- The key with a given value: `DECODE_ITERATION` and the loop of `decode_reg_name`. -/
def MapType.decode (m : MapType) (opcode : BitVec 32) : Option String :=
  (m.find? fun e => e.2.setWidth 32 == opcode).map Prod.fst

/-- None stands for the `Eek!` exit. -/
def decodeRegName (regIndex : BitVec 32) : Option String := regNamesMap.decode regIndex

/-- The first map of the list that knows the opcode gives the name and the form. -/
def getInstrFromOpcode (maps : List (MapType × ArgsType)) (opcode : BitVec 32) :
    String × ArgsType :=
  (maps.findSome? fun m => (m.1.decode opcode).map (·, m.2)).getD
    ("unknown_instruction", .unknown)

def getIog0InstrFromOpcode : BitVec 32 → String × ArgsType :=
  getInstrFromOpcode [(iog0ThreeRegsMap, .threeRegs)]
def getIog1InstrFromOpcode : BitVec 32 → String × ArgsType :=
  getInstrFromOpcode [(iog1TwoRegsOneImmMap, .twoRegsOneImm),
    (iog1TwoRegsOneSimmMap, .twoRegsOneSimm),
    (iog1OneRegOnePcOneSimmMap, .oneRegOnePcOneSimm), (iog1OneRegOneImmMap, .oneRegOneImm)]
def getIog2InstrFromOpcode : BitVec 32 → String × ArgsType :=
  getInstrFromOpcode [(iog2BranchMap, .branch)]
def getIog3InstrFromOpcode : BitVec 32 → String × ArgsType :=
  getInstrFromOpcode [(iog3JumpMap, .threeRegs)]
def getIog4InstrFromOpcode : BitVec 32 → String × ArgsType :=
  getInstrFromOpcode [(iog4CallMap, .threeRegs)]
def getIog5InstrFromOpcode : BitVec 32 → String × ArgsType :=
  getInstrFromOpcode [(iog5ThreeRegsLdstMap, .threeRegsLdst),
    (iog5TwoRegsOneSimmLdstMap, .twoRegsOneSimmLdst)]

/-! ### Packing and unpacking -/

/-- `to_change` with the bits of a range replaced by those of `val`. -/
def clearAndSetBitsWithRange (val : BitVec 64) (hi lo : Nat) (toChange : BitVec 64) :
    BitVec 64 :=
  BitField.replaceBits toChange val lo (hi - lo + 1)

/-- The bits of a range, moved down. -/
def getBitsWithRange {w : Nat} (x : BitVec w) (hi lo : Nat) : BitVec w :=
  (x &&& (BitField.lowMask w (hi - lo + 1) <<< lo)) >>> lo

section Words

variable (regAIndex regBIndex regCIndex opcode immediate : BitVec 32)

/-- The format of groups 0, 3, 4 and 6, and of group 5 without an immediate; group 0 has no
    statement for its group field, which is 0 anyway. -/
def threeRegsToGen (group : BitVec 32) : BitVec 32 :=
  ((0#64 |> clearAndSetBitsWithRange (group.setWidth 64) 31 28
    |> clearAndSetBitsWithRange (regAIndex.setWidth 64) 27 24
    |> clearAndSetBitsWithRange (regBIndex.setWidth 64) 23 20
    |> clearAndSetBitsWithRange (regCIndex.setWidth 64) 19 16
    |> clearAndSetBitsWithRange (opcode.setWidth 64) 3 0) : BitVec 64).setWidth 32

/-- The format of groups 1 and 2. -/
def immToGen (group : BitVec 32) : BitVec 32 :=
  ((0#64 |> clearAndSetBitsWithRange (group.setWidth 64) 31 28
    |> clearAndSetBitsWithRange (regAIndex.setWidth 64) 27 24
    |> clearAndSetBitsWithRange (regBIndex.setWidth 64) 23 20
    |> clearAndSetBitsWithRange (opcode.setWidth 64) 19 16
    |> clearAndSetBitsWithRange (immediate.setWidth 64) 15 0) : BitVec 64).setWidth 32

def instrOpcodeGroup0 : BitVec 32 := threeRegsToGen regAIndex regBIndex regCIndex opcode 0b0000
def instrOpcodeGroup1 : BitVec 32 := immToGen regAIndex regBIndex opcode immediate 0b0001
def instrOpcodeGroup2 : BitVec 32 := immToGen regAIndex regBIndex opcode immediate 0b0010
def instrOpcodeGroup3 : BitVec 32 := threeRegsToGen regAIndex regBIndex regCIndex opcode 0b0011
def instrOpcodeGroup4 : BitVec 32 := threeRegsToGen regAIndex regBIndex regCIndex opcode 0b0100
def instrOpcodeGroup5NoSimm : BitVec 32 :=
  threeRegsToGen regAIndex regBIndex regCIndex opcode 0b0101
def instrOpcodeGroup5WithSimm : BitVec 32 :=
  ((0#64 |> clearAndSetBitsWithRange 0b0101 31 28
    |> clearAndSetBitsWithRange (regAIndex.setWidth 64) 27 24
    |> clearAndSetBitsWithRange (regBIndex.setWidth 64) 23 20
    |> clearAndSetBitsWithRange (immediate.setWidth 64) 15 4
    |> clearAndSetBitsWithRange (opcode.setWidth 64) 3 0) : BitVec 64).setWidth 32
def instrOpcodeGroup6 : BitVec 32 := threeRegsToGen regAIndex regBIndex regCIndex opcode 0b0110

end Words

end Frost32.Asm
