import Frost32.Asm.Format
import Frost32.Asm.Scoping

namespace Frost32.Asm

open Isa Fallible

/-!
# The documented words

The encodings of the instruction set document, and what the assembler emits for a parsed line.

* `regsWord`, `immWord`, `ldstWord` — the documented encodings; `threeRegsToGen_eq` and its
  siblings: the assembler packs these words.
* `Instruction.word`, `PseudoInstruction.docWords` — the documented words of a line.
* `Instruction.warnings`, `PseudoInstruction.warnings` — the range checks of a line.
* `Instruction.encodesWith`, `PseudoInstruction.encodesWith` — **the assembler emits these words
  and prints these warnings**, unless the line is `Refused`.
-/

/-! ### The documented encodings -/

/-- `gggg aaaa bbbb cccc  0000 0000 0000 oooo`. -/
def regsWord (group : BitVec 4) (a b c : RegIndex) (opcode : BitVec 4) : Word :=
  group ++ a ++ b ++ c ++ 0#12 ++ opcode

/-- `gggg aaaa bbbb oooo  iiii iiii iiii iiii`. -/
def immWord (group : BitVec 4) (a b : RegIndex) (opcode : BitVec 4) (imm : BitVec 16) : Word :=
  group ++ a ++ b ++ opcode ++ imm

/-- `0101 aaaa bbbb cccc  iiii iiii iiii oooo`. -/
def ldstWord (a b c : RegIndex) (simm : BitVec 12) (opcode : BitVec 4) : Word :=
  0b0101#4 ++ a ++ b ++ c ++ simm ++ opcode

/-- A word is its fields, one after the other. -/
theorem append_fields (w : Word) :
    (w.extractLsb' 28 4 ++ w.extractLsb' 24 4 ++ w.extractLsb' 20 4 ++ w.extractLsb' 16 4 ++
      w.extractLsb' 4 12 ++ w.extractLsb' 0 4 : Word) = w := by
  have h₁ : w.extractLsb' 28 4 ++ w.extractLsb' 24 4 = w.extractLsb' 24 8 :=
    BitVec.extractLsb'_append_extractLsb'_eq_extractLsb' rfl
  have h₂ : w.extractLsb' 24 8 ++ w.extractLsb' 20 4 = w.extractLsb' 20 12 :=
    BitVec.extractLsb'_append_extractLsb'_eq_extractLsb' rfl
  have h₃ : w.extractLsb' 20 12 ++ w.extractLsb' 16 4 = w.extractLsb' 16 16 :=
    BitVec.extractLsb'_append_extractLsb'_eq_extractLsb' rfl
  have h₄ : w.extractLsb' 16 16 ++ w.extractLsb' 4 12 = w.extractLsb' 4 28 :=
    BitVec.extractLsb'_append_extractLsb'_eq_extractLsb' rfl
  have h₅ : w.extractLsb' 4 28 ++ w.extractLsb' 0 4 = w.extractLsb' 0 32 :=
    BitVec.extractLsb'_append_extractLsb'_eq_extractLsb' rfl
  rw [h₁, h₂, h₃, h₄, h₅, BitVec.extractLsb'_eq_self]

theorem append_immFields (w : Word) :
    (w.extractLsb' 28 4 ++ w.extractLsb' 24 4 ++ w.extractLsb' 20 4 ++ w.extractLsb' 16 4 ++
      w.extractLsb' 0 16 : Word) = w := by
  have h₁ : w.extractLsb' 28 4 ++ w.extractLsb' 24 4 = w.extractLsb' 24 8 :=
    BitVec.extractLsb'_append_extractLsb'_eq_extractLsb' rfl
  have h₂ : w.extractLsb' 24 8 ++ w.extractLsb' 20 4 = w.extractLsb' 20 12 :=
    BitVec.extractLsb'_append_extractLsb'_eq_extractLsb' rfl
  have h₃ : w.extractLsb' 20 12 ++ w.extractLsb' 16 4 = w.extractLsb' 16 16 :=
    BitVec.extractLsb'_append_extractLsb'_eq_extractLsb' rfl
  have h₄ : w.extractLsb' 16 16 ++ w.extractLsb' 0 16 = w.extractLsb' 0 32 :=
    BitVec.extractLsb'_append_extractLsb'_eq_extractLsb' rfl
  rw [h₁, h₂, h₃, h₄, BitVec.extractLsb'_eq_self]

section Fields

variable (g op : BitVec 4) (a b c : RegIndex) (imm : BitVec 16)

@[simp] theorem group_immWord : group (immWord g a b op imm) = g := by
  unfold group immWord
  rw [BitVec.extractLsb'_append_eq_of_le (by omega), BitVec.extractLsb'_append_eq_of_le (by omega),
    BitVec.extractLsb'_append_eq_of_le (by omega), BitVec.extractLsb'_append_eq_of_le (by omega)]
  exact BitVec.extractLsb'_eq_self

@[simp] theorem fieldA_immWord : fieldA (immWord g a b op imm) = a := by
  unfold fieldA immWord
  rw [BitVec.extractLsb'_append_eq_of_le (by omega), BitVec.extractLsb'_append_eq_of_le (by omega),
    BitVec.extractLsb'_append_eq_of_le (by omega)]
  exact BitVec.extractLsb'_append_eq_right

@[simp] theorem fieldB_immWord : fieldB (immWord g a b op imm) = b := by
  unfold fieldB immWord
  rw [BitVec.extractLsb'_append_eq_of_le (by omega), BitVec.extractLsb'_append_eq_of_le (by omega)]
  exact BitVec.extractLsb'_append_eq_right

@[simp] theorem opcodeHigh_immWord : opcodeHigh (immWord g a b op imm) = op := by
  unfold opcodeHigh immWord
  rw [BitVec.extractLsb'_append_eq_of_le (by omega)]
  exact BitVec.extractLsb'_append_eq_right

@[simp] theorem imm16_immWord : imm16 (immWord g a b op imm) = imm :=
  BitVec.extractLsb'_append_eq_right

variable (simm : BitVec 12)

@[simp] theorem group_ldstWord : group (ldstWord a b c simm op) = 5#4 := by
  unfold group ldstWord
  rw [BitVec.extractLsb'_append_eq_of_le (by omega), BitVec.extractLsb'_append_eq_of_le (by omega),
    BitVec.extractLsb'_append_eq_of_le (by omega), BitVec.extractLsb'_append_eq_of_le (by omega),
    BitVec.extractLsb'_append_eq_of_le (by omega)]
  exact BitVec.extractLsb'_eq_self

@[simp] theorem simm12_ldstWord : simm12 (ldstWord a b c simm op) = simm := by
  unfold simm12 ldstWord
  rw [BitVec.extractLsb'_append_eq_of_le (by omega)]
  exact BitVec.extractLsb'_append_eq_right

end Fields

section Words

variable (rA rB rC : TokReg) (op imm g : BitVec 32)

theorem threeRegsToGen_eq :
    threeRegsToGen rA.num rB.num rC.num op g =
      regsWord (g.setWidth 4) rA.index rB.index rC.index (op.setWidth 4) := by
  rw [← append_fields (threeRegsToGen rA.num rB.num rC.num op g)]
  show group _ ++ fieldA _ ++ fieldB _ ++ fieldC _ ++ simm12 _ ++ opcodeLow _ = _
  simp only [group_threeRegsToGen, fieldA_threeRegsToGen, fieldB_threeRegsToGen,
    fieldC_threeRegsToGen, simm12_threeRegsToGen, opcodeLow_threeRegsToGen,
    InstrMap.setWidth_index]
  rfl

theorem immToGen_eq :
    immToGen rA.num rB.num op imm g =
      immWord (g.setWidth 4) rA.index rB.index (op.setWidth 4) (imm.setWidth 16) := by
  rw [← append_immFields (immToGen rA.num rB.num op imm g)]
  show group _ ++ fieldA _ ++ fieldB _ ++ opcodeHigh _ ++ imm16 _ = _
  simp only [group_immToGen, fieldA_immToGen, fieldB_immToGen, opcodeHigh_immToGen,
    imm16_immToGen, InstrMap.setWidth_index]
  rfl

theorem withSimm_eq :
    instrOpcodeGroup5WithSimm rA.num rB.num op imm =
      ldstWord rA.index rB.index 0 (imm.setWidth 12) (op.setWidth 4) := by
  rw [← append_fields (instrOpcodeGroup5WithSimm rA.num rB.num op imm)]
  show group _ ++ fieldA _ ++ fieldB _ ++ fieldC _ ++ simm12 _ ++ opcodeLow _ = _
  simp only [group_withSimm, fieldA_withSimm, fieldB_withSimm, fieldC_withSimm, simm12_withSimm,
    opcodeLow_withSimm, InstrMap.setWidth_index]
  rfl

end Words

/-! ### The documented opcodes -/

def docGroup0 : List String :=
  ["add", "sub", "sltu", "slts", "sgtu", "sgts", "mul", "and", "orr", "xor", "nor", "lsl", "lsr",
    "asr", "udiv", "sdiv"]
/-- Without `addsi` and `cpyhi`, which have other operands. -/
def docGroup1 : List String :=
  ["addi", "subi", "sltui", "sltsi", "sgtui", "sgtsi", "muli", "andi", "orri", "xori", "nori",
    "lsli", "lsri", "asri"]
def docGroup2 : List String :=
  ["bne", "beq", "bltu", "bgeu", "bleu", "bgtu", "blts", "bges", "bles", "bgts"]
def docGroup3 : List String :=
  ["jne", "jeq", "jltu", "jgeu", "jleu", "jgtu", "jlts", "jges", "jles", "jgts"]
def docGroup4 : List String :=
  ["cne", "ceq", "cltu", "cgeu", "cleu", "cgtu", "clts", "cges", "cles", "cgts"]
def docGroup5 : List String :=
  ["ldr", "ldh", "ldsh", "ldb", "ldsb", "str", "sth", "stb"]
/-- These follow the ones without an immediate. -/
def docGroup5Simm : List String :=
  ["ldri", "ldhi", "ldshi", "ldbi", "ldsbi", "stri", "sthi", "stbi"]
def docGroup6 : List String :=
  ["ei", "di", "cpy ireta, rA", "cpy rA, ireta", "cpy idsta, rA", "cpy rA, idsta", "reti"]

/-- The opcodes are the positions in the document. -/
def docOpcode (names : List String) (name : String) : BitVec 4 := BitVec.ofNat 4 (names.idxOf name)

/-- The documented word of an instruction at `pc` with operand `n`. -/
def Instruction.word (pc n : BitVec 64) : Instruction → Word
  | instrOpGrp0ThreeRegs t rA rB rC =>
    regsWord 0 rA.index rB.index rC.index (docOpcode docGroup0 t.val.text)
  | instrOpGrp1TwoRegsOneImm t rA rB _ | instrOpGrp1TwoRegsOneSimm t rA rB _ =>
    immWord 1 rA.index rB.index (docOpcode docGroup1 t.val.text) (n.setWidth 16)
  | instrOpGrp1OneRegOnePcOneSimm rA _ => immWord 1 rA.index 0 0xe (n.setWidth 16)
  | instrOpGrp1OneRegOneImm rA _ => immWord 1 rA.index 0 0xf (n.setWidth 16)
  | instrOpGrp2Branch t rA rB _ =>
    immWord 2 rA.index rB.index (docOpcode docGroup2 t.val.text) ((n - pc - 4).setWidth 16)
  | instrOpGrp3Jump t rA rB rC =>
    regsWord 3 rA.index rB.index rC.index (docOpcode docGroup3 t.val.text)
  | instrOpGrp4Call t rA rB rC =>
    regsWord 4 rA.index rB.index rC.index (docOpcode docGroup4 t.val.text)
  | instrOpGrp5ThreeRegsLdst t rA rB rC =>
    ldstWord rA.index rB.index rC.index 0 (docOpcode docGroup5 t.val.text)
  | instrOpGrp5TwoRegsOneSimm12Ldst t rA rB _ =>
    ldstWord rA.index rB.index 0 (n.setWidth 12) (8 + docOpcode docGroup5Simm t.val.text)
  | instrOpGrp6NoArgs t => regsWord 6 0 0 0 (docOpcode docGroup6 t.val.text)
  | instrOpGrp6OneIretaOneReg rA => regsWord 6 rA.index 0 0 2
  | instrOpGrp6OneRegOneIreta rA => regsWord 6 rA.index 0 0 3
  | instrOpGrp6OneIdstaOneReg rA => regsWord 6 rA.index 0 0 4
  | instrOpGrp6OneRegOneIdsta rA => regsWord 6 rA.index 0 0 5

/-- `cpya`, as documented. -/
def docCpya (a : RegIndex) (n : BitVec 64) : List Word :=
  [immWord 1 a 0 0 (n.setWidth 16), immWord 1 a 0 0xf (n.extractLsb' 16 16)]

/-- The documented expansion of a pseudo-instruction at `pc` with operand `n`. -/
def PseudoInstruction.docWords (pc n : BitVec 64) : PseudoInstruction → List Word
  | pseudoInstrOpInv rA rB => [regsWord 0 rA.index rB.index 0 0xa]
  | pseudoInstrOpInvi rA _ => [immWord 1 rA.index 0 0xa (n.setWidth 16)]
  | pseudoInstrOpGrpCpy rA (some rB) => [regsWord 0 rA.index rB.index 0 0]
  | pseudoInstrOpGrpCpy rA none => [immWord 1 rA.index 0 0xe 0]
  | pseudoInstrOpCpyi rA _ => [immWord 1 rA.index 0 0 (n.setWidth 16)]
  | pseudoInstrOpCpya rA _ => docCpya rA.index n
  | pseudoInstrOpBra _ => [immWord 2 0 0 1 ((n - pc - 4).setWidth 16)]
  | pseudoInstrOpJmp rC => [regsWord 3 0 0 rC.index 1]
  | pseudoInstrOpCall rC => [regsWord 4 0 0 rC.index 1]
  | pseudoInstrOpJmpa _ => docCpya temp n ++ [regsWord 3 0 0 temp 1]
  | pseudoInstrOpCalla _ => docCpya temp n ++ [regsWord 4 0 0 temp 1]
  | pseudoInstrOpJmpaCallaConditional t rA rB _ =>
    docCpya temp n ++ [match t.val with
      | .jmpane => regsWord 3 rA.index rB.index temp 0
      | .jmpaeq => regsWord 3 rA.index rB.index temp 1
      | .callane => regsWord 4 rA.index rB.index temp 0
      | _ => regsWord 4 rA.index rB.index temp 1]
  | pseudoInstrOpIncDec t rA =>
    [immWord 1 rA.index rA.index (if t.val = .inc then 0 else 1) 1]
  | pseudoInstrOpAluOpTwoReg t rA rB =>
    [regsWord 0 rA.index rA.index rB.index (docOpcode docGroup0 t.val.text)]
  | pseudoInstrOpAluOpOneRegOneImm t rA _ | pseudoInstrOpAluOpOneRegOneSimm t rA _ =>
    [immWord 1 rA.index rA.index (docOpcode docGroup1 t.val.text) (n.setWidth 16)]

/-! ### What the assembler emits -/

/-- The value of the operand expression of a line, where it has one. -/
def operandValue (env : Env) : List Expr → Except AsmError (BitVec 64)
  | [] => .ok 0
  | e :: _ => e.eval env

/-- Words, with warnings that depend on the operand, wherever the operand has a value. -/
def Encodes (env : Env) (exprs : List Expr) (r : Except AsmError Effect)
    (words : BitVec 64 → List Word) : Prop :=
  ∃ warnings : BitVec 64 → List String, r = (operandValue env exprs).map fun n =>
    { warnings := warnings n, data := (words n).map .b32 }

/-- The same with the warnings given. -/
def EncodesWith (env : Env) (exprs : List Expr) (r : Except AsmError Effect)
    (warnings : BitVec 64 → List String) (words : BitVec 64 → List Word) : Prop :=
  r = (operandValue env exprs).map fun n =>
    { warnings := warnings n, data := (words n).map .b32 }

/-- The range check of an immediate form. -/
def aluOpImmWarnings (env : Env) (t : InstrTok) (n : BitVec 64) : List String :=
  if t ∈ Grammar.simmNames then simm16Warnings env n else imm16Warnings env n

/-- The warnings of an instruction with operand `n`. -/
def Instruction.warnings (env : Env) (n : BitVec 64) : Instruction → List String
  | instrOpGrp1TwoRegsOneImm t _ _ _ | instrOpGrp1TwoRegsOneSimm t _ _ _ =>
    aluOpImmWarnings env t.val n
  | instrOpGrp2Branch _ _ _ _ => branchWarnings env (n - env.pc - 4)
  | instrOpGrp5TwoRegsOneSimm12Ldst _ _ _ _ => simm12Warnings env n
  | _ => []

/-- The warnings of a pseudo-instruction with operand `n`. -/
def PseudoInstruction.warnings (env : Env) (n : BitVec 64) : PseudoInstruction → List String
  | pseudoInstrOpInvi _ _ => aluOpImmWarnings env .nori n
  | pseudoInstrOpCpyi _ _ => aluOpImmWarnings env .addi n
  | pseudoInstrOpBra _ => branchWarnings env (n - env.pc - 4)
  | pseudoInstrOpIncDec t _ => aluOpImmWarnings env (if t.val = .inc then .addi else .subi) 1
  | pseudoInstrOpAluOpOneRegOneImm t _ _ | pseudoInstrOpAluOpOneRegOneSimm t _ _ =>
    aluOpImmWarnings env t.val n
  | _ => []

/-- Three registers, and the assembler refuses the name: two names are spelled differently in
    the lexer, and the visitor of the form with three registers leaves one out. -/
def Instruction.Refused : Instruction → Prop
  | instrOpGrp0ThreeRegs t _ _ _ => t.val = .sgtu ∨ t.val = .sgts ∨ t.val = .nor
  | _ => False

def PseudoInstruction.Refused : PseudoInstruction → Prop
  | pseudoInstrOpAluOpTwoReg t _ _ => t.val = .sgtu ∨ t.val = .sgts
  | _ => False

section Effects

variable {env : Env} (rA rB rC : TokReg) {name : String} {op : BitVec 4}

theorem setWidth_opcode (op : BitVec 4) : (op.setWidth 32).setWidth 4 = op := by
  rw [BitVec.setWidth_setWidth_of_le _ (by decide), BitVec.setWidth_eq]

theorem setWidth_operand16 (n : BitVec 64) : (n.setWidth 32).setWidth 16 = n.setWidth 16 :=
  BitVec.setWidth_setWidth_of_le n (by decide)

theorem threeRegs_eq (g : BitVec 32) :
    threeRegsToGen rA.num rB.num rC.num (op.setWidth 32) g =
      regsWord (g.setWidth 4) rA.index rB.index rC.index op := by
  rw [threeRegsToGen_eq, setWidth_opcode]

theorem imm_eq (g : BitVec 32) (n : BitVec 64) :
    immToGen rA.num rB.num (op.setWidth 32) (n.setWidth 32) g =
      immWord (g.setWidth 4) rA.index rB.index op (n.setWidth 16) := by
  rw [immToGen_eq, setWidth_opcode, setWidth_operand16]

theorem aluOpThreeRegs_ok (h : iog0ThreeRegsMap.opcode name = .ok (op.setWidth 32)) :
    aluOpThreeRegsEffect rA.num rB.num rC.num name =
      .ok (.ofWords [regsWord 0 rA.index rB.index rC.index op]) := by
  rw [aluOpThreeRegsEffect, h]
  exact congrArg (fun w => Except.ok (Effect.ofWords [w])) (threeRegs_eq rA rB rC 0)

/-- One word, with warnings. -/
def withWord (warnings : List String) (w : Word) : Except AsmError Effect :=
  .ok { warnings := warnings, data := [.b32 w] }

/-- The two maps of immediate forms. -/
theorem aluOpTwoRegsOneImm_ok (env : Env) {t : InstrTok}
    (ht : t ∈ Grammar.aluOpOneRegOneImmNames ++ Grammar.simmNames) (n : BitVec 64) :
    aluOpTwoRegsOneImmEffect env rA.num rB.num t.text n =
      withWord (aluOpImmWarnings env t n)
        (immWord 1 rA.index rB.index (docOpcode docGroup1 t.text) (n.setWidth 16)) := by
  have hmaps : ∀ t ∈ Grammar.aluOpOneRegOneImmNames ++ Grammar.simmNames,
      (t.text ≠ "sltsi" ∧ t.text ≠ "sgtsi" ↔ t ∉ Grammar.simmNames) ∧
      if t ∈ Grammar.simmNames then
        iog1TwoRegsOneSimmMap.opcode t.text = .ok ((docOpcode docGroup1 t.text).setWidth 32)
      else iog1TwoRegsOneImmMap.opcode t.text =
        .ok ((docOpcode docGroup1 t.text).setWidth 32) := by decide
  obtain ⟨hname, hmap⟩ := hmaps t ht
  unfold aluOpImmWarnings aluOpTwoRegsOneImmEffect
  by_cases hs : t ∈ Grammar.simmNames
  · rw [if_pos hs] at hmap
    rw [if_pos hs, if_neg (fun h => hname.mp h hs), hmap]
    exact congrArg (withWord (simm16Warnings env n)) (imm_eq rA rB 1 n)
  · rw [if_neg hs] at hmap
    rw [if_neg hs, if_pos (hname.mpr hs), hmap]
    exact congrArg (withWord (imm16Warnings env n)) (imm_eq rA rB 1 n)

theorem relativeBranch_ok (env : Env) (h : iog2BranchMap.opcode name = .ok (op.setWidth 32))
    (n : BitVec 64) :
    relativeBranchEffect env rA.num rB.num name n =
      withWord (branchWarnings env (n - env.pc - 4))
        (immWord 2 rA.index rB.index op ((n - env.pc - 4).setWidth 16)) := by
  rw [relativeBranchEffect, h]
  exact congrArg (withWord (branchWarnings env (n - env.pc - 4))) (imm_eq rA rB 2 _)

theorem jumpWord_ok (h : iog3JumpMap.opcode name = .ok (op.setWidth 32)) :
    jumpWord rA.num rB.num rC.num name = .ok (regsWord 3 rA.index rB.index rC.index op) := by
  rw [jumpWord, h]
  exact congrArg Except.ok (threeRegs_eq rA rB rC 3)

theorem callWord_ok (h : iog4CallMap.opcode name = .ok (op.setWidth 32)) :
    callWord rA.num rB.num rC.num name = .ok (regsWord 4 rA.index rB.index rC.index op) := by
  rw [callWord, h]
  exact congrArg Except.ok (threeRegs_eq rA rB rC 4)

theorem ldstThreeRegs_ok (h : iog5ThreeRegsLdstMap.opcode name = .ok (op.setWidth 32)) :
    ldstThreeRegsEffect rA.num rB.num rC.num name =
      .ok (.ofWords [ldstWord rA.index rB.index rC.index 0 op]) := by
  rw [ldstThreeRegsEffect, h]
  exact congrArg (fun w => Except.ok (Effect.ofWords [w])) (threeRegs_eq rA rB rC 5)

theorem ldstTwoRegsOneSimm_ok (env : Env)
    (h : iog5TwoRegsOneSimmLdstMap.opcode name = .ok (op.setWidth 32)) (n : BitVec 64) :
    ldstTwoRegsOneSimmEffect env rA.num rB.num name n =
      withWord (simm12Warnings env n) (ldstWord rA.index rB.index 0 (n.setWidth 12) op) := by
  have hword : instrOpcodeGroup5WithSimm rA.num rB.num (op.setWidth 32) (n.setWidth 32) =
      ldstWord rA.index rB.index 0 (n.setWidth 12) op := by
    rw [withSimm_eq, setWidth_opcode, BitVec.setWidth_setWidth_of_le n (by decide)]
  rw [ldstTwoRegsOneSimmEffect, h]
  exact congrArg (withWord (simm12Warnings env n)) hword

theorem group6_ok {m : MapType} (h : m.opcode name = .ok (op.setWidth 32)) :
    group6Effect m name rA.num = .ok (.ofWords [regsWord 6 rA.index 0 0 op]) := by
  have hword : threeRegsToGen rA.num TokReg.zero.num TokReg.zero.num (op.setWidth 32) 6 =
      regsWord 6 rA.index 0 0 op := threeRegs_eq rA .zero .zero 6
  rw [group6Effect, h]
  exact congrArg (fun w => Except.ok (Effect.ofWords [w])) hword

/-- The second immediate of `cpya` is the high half of the operand. -/
theorem cpyaWords_ok (n : BitVec 64) : cpyaWords rA.num n = .ok (docCpya rA.index n) := by
  have hfirst : iog1TwoRegsOneImmMap.opcode "addi" = .ok ((0#4).setWidth 32) := by decide
  have hsecond : iog1OneRegOneImmMap.opcode "cpyhi" = .ok ((0xf#4).setWidth 32) := by decide
  have hhalf : (n.sshiftRight 16).setWidth 16 = n.extractLsb' 16 16 := by
    apply BitVec.eq_of_getLsbD_eq
    intro i hi
    have h64 : 16 + i < 64 := by omega
    have hle : ¬64 ≤ i := by omega
    simp [BitVec.getLsbD_sshiftRight, hi, h64, hle]
  have hlow : immToGen rA.num TokReg.zero.num ((0#4).setWidth 32) (n.setWidth 32) 1 =
      immWord 1 rA.index 0 0 (n.setWidth 16) := imm_eq rA .zero 1 n
  have hhigh : immToGen rA.num TokReg.zero.num ((0xf#4).setWidth 32)
      ((n.sshiftRight 16).setWidth 32) 1 = immWord 1 rA.index 0 0xf (n.extractLsb' 16 16) := by
    rw [← hhalf]
    exact imm_eq rA .zero 1 (n.sshiftRight 16)
  rw [cpyaWords, hfirst, hsecond]
  exact congrArg Except.ok (congrArg₂ (fun a b => [a, b]) hlow hhigh)

theorem EncodesWith.of_eq {e : Expr} {es : List Expr} {f : BitVec 64 → Except AsmError Effect}
    {warnings : BitVec 64 → List String} {words : BitVec 64 → List Word}
    (h : ∀ n, f n = .ok { warnings := warnings n, data := (words n).map .b32 }) :
    EncodesWith env (e :: es) (e.eval env >>= f) warnings words := by
  show _ = (e.eval env).map _
  cases e.eval env with
  | error err => rfl
  | ok n => exact h n

theorem EncodesWith.of_words {r : Except AsmError Effect} {words : List Word}
    (h : r = .ok (.ofWords words)) : EncodesWith env [] r (fun _ => []) fun _ => words := h

end Effects

/-- The effect for an operand that has a value. -/
theorem EncodesWith.eq_ok {env : Env} {exprs : List Expr} {r : Except AsmError Effect}
    {warnings : BitVec 64 → List String} {words : BitVec 64 → List Word} {n : BitVec 64}
    (h : EncodesWith env exprs r warnings words) (hn : operandValue env exprs = .ok n) :
    r = .ok { warnings := warnings n, data := (words n).map .b32 } := by
  rw [h, hn]
  rfl

/-- A chain of tokens that knows the token. -/
theorem EncodesWith.of_chain {chain : List InstrTok} {t : InstrTok} {eek : String}
    {exprs : List Expr} {f : String → Except AsmError Effect}
    {warnings : BitVec 64 → List String} {words : BitVec 64 → List Word} {env : Env}
    (ht : t ∈ chain) (h : EncodesWith env exprs (f t.text) warnings words) :
    EncodesWith env exprs (chainText chain t eek >>= f) warnings words := by
  rw [chainText, if_pos ht]
  exact h

/-- **Every instruction is emitted as documented**, with these warnings, but for those of three
    registers that are refused. -/
theorem Instruction.encodesWith (env : Env) (i : Instruction) (h : ¬i.Refused) :
    EncodesWith env i.exprs (i.effect env) (fun n => i.warnings env n)
      fun n => [i.word env.pc n] := by
  cases i with
  | instrOpGrp0ThreeRegs t rA rB rC =>
    -- the chain of the visitor and the map are checked token by token
    have hall : ∀ t ∈ Grammar.aluOpNames, t ≠ .sgtu → t ≠ .sgts → t ≠ .nor →
        t ∈ VisitChain.instrOpGrp0ThreeRegs ∧
          iog0ThreeRegsMap.opcode t.text = .ok ((docOpcode docGroup0 t.text).setWidth 32) := by
      decide
    obtain ⟨hu, hs, hn⟩ : t.val ≠ .sgtu ∧ t.val ≠ .sgts ∧ t.val ≠ .nor := by
      simpa [Refused] using h
    obtain ⟨hchain, hop⟩ := hall t.val t.property hu hs hn
    exact .of_chain hchain (.of_words (aluOpThreeRegs_ok rA rB rC hop))
  | instrOpGrp1TwoRegsOneImm t rA rB e =>
    have hall : ∀ t ∈ Grammar.grp1TwoRegsOneImmNames, t ∈ VisitChain.instrOpGrp1TwoRegsOneImm ∧
        t ∈ Grammar.aluOpOneRegOneImmNames ++ Grammar.simmNames := by decide
    obtain ⟨hchain, ht⟩ := hall t.val t.property
    exact .of_chain hchain (.of_eq (aluOpTwoRegsOneImm_ok rA rB env ht))
  | instrOpGrp1TwoRegsOneSimm t rA rB e =>
    have hall : ∀ t ∈ Grammar.simmNames, t ∈ VisitChain.instrOpGrp1TwoRegsOneSimm ∧
        t ∈ Grammar.aluOpOneRegOneImmNames ++ Grammar.simmNames := by decide
    obtain ⟨hchain, ht⟩ := hall t.val t.property
    exact .of_chain hchain (.of_eq (aluOpTwoRegsOneImm_ok rA rB env ht))
  | instrOpGrp1OneRegOnePcOneSimm rA e =>
    have hop : iog1OneRegOnePcOneSimmMap.opcode "addsi" = .ok ((0xe#4).setWidth 32) := by decide
    rw [Instruction.effect, hop]
    exact .of_eq fun n => congrArg (withWord []) (imm_eq rA .zero 1 n)
  | instrOpGrp1OneRegOneImm rA e =>
    have hop : iog1OneRegOneImmMap.opcode "cpyhi" = .ok ((0xf#4).setWidth 32) := by decide
    rw [Instruction.effect, hop]
    exact .of_eq fun n => congrArg (withWord []) (imm_eq rA .zero 1 n)
  | instrOpGrp2Branch t rA rB e =>
    have hall : ∀ t ∈ Grammar.grp2BranchNames, t ∈ VisitChain.instrOpGrp2Branch ∧
        iog2BranchMap.opcode t.text = .ok ((docOpcode docGroup2 t.text).setWidth 32) := by decide
    obtain ⟨hchain, hop⟩ := hall t.val t.property
    exact .of_chain hchain (.of_eq (relativeBranch_ok rA rB env hop))
  | instrOpGrp3Jump t rA rB rC =>
    have hall : ∀ t ∈ Grammar.grp3JumpNames, t ∈ VisitChain.instrOpGrp3Jump ∧
        iog3JumpMap.opcode t.text = .ok ((docOpcode docGroup3 t.text).setWidth 32) := by decide
    obtain ⟨hchain, hop⟩ := hall t.val t.property
    exact .of_chain hchain (.of_words (by rw [jumpWord_ok rA rB rC hop]; rfl))
  | instrOpGrp4Call t rA rB rC =>
    have hall : ∀ t ∈ Grammar.grp4CallNames, t ∈ VisitChain.instrOpGrp4Call ∧
        iog4CallMap.opcode t.text = .ok ((docOpcode docGroup4 t.text).setWidth 32) := by decide
    obtain ⟨hchain, hop⟩ := hall t.val t.property
    exact .of_chain hchain (.of_words (by rw [callWord_ok rA rB rC hop]; rfl))
  | instrOpGrp5ThreeRegsLdst t rA rB rC =>
    have hall : ∀ t ∈ Grammar.grp5ThreeRegsLdstNames, t ∈ VisitChain.instrOpGrp5ThreeRegsLdst ∧
        iog5ThreeRegsLdstMap.opcode t.text = .ok ((docOpcode docGroup5 t.text).setWidth 32) := by
      decide
    obtain ⟨hchain, hop⟩ := hall t.val t.property
    exact .of_chain hchain (.of_words (ldstThreeRegs_ok rA rB rC hop))
  | instrOpGrp5TwoRegsOneSimm12Ldst t rA rB e =>
    have hall : ∀ t ∈ Grammar.grp5TwoRegsOneSimm12LdstNames,
        t ∈ VisitChain.instrOpGrp5TwoRegsOneSimm12Ldst ∧ iog5TwoRegsOneSimmLdstMap.opcode t.text =
          .ok ((8 + docOpcode docGroup5Simm t.text).setWidth 32) := by decide
    obtain ⟨hchain, hop⟩ := hall t.val t.property
    exact .of_chain hchain (.of_eq (ldstTwoRegsOneSimm_ok rA rB env hop))
  | instrOpGrp6NoArgs t =>
    have hall : ∀ t ∈ Grammar.grp6NoArgsNames, t ∈ VisitChain.instrOpGrp6NoArgs ∧
        iog6NoArgsMap.opcode t.text = .ok ((docOpcode docGroup6 t.text).setWidth 32) := by decide
    obtain ⟨hchain, hop⟩ := hall t.val t.property
    exact .of_chain hchain (.of_words (group6_ok .zero hop))
  | instrOpGrp6OneIretaOneReg rA => exact .of_words (group6_ok rA (by decide))
  | instrOpGrp6OneRegOneIreta rA => exact .of_words (group6_ok rA (by decide))
  | instrOpGrp6OneIdstaOneReg rA => exact .of_words (group6_ok rA (by decide))
  | instrOpGrp6OneRegOneIdsta rA => exact .of_words (group6_ok rA (by decide))

theorem Instruction.encodes (env : Env) (i : Instruction) (h : ¬i.Refused) :
    Encodes env i.exprs (i.effect env) fun n => [i.word env.pc n] :=
  ⟨_, i.encodesWith env h⟩

/-- **Every pseudo-instruction is expanded as documented**, with these warnings, but for those
    that are refused. -/
theorem PseudoInstruction.encodesWith (env : Env) (p : PseudoInstruction) (h : ¬p.Refused) :
    EncodesWith env p.exprs (p.effect env) (fun n => p.warnings env n) (p.docWords env.pc) := by
  have himm : ∀ t ∈ Grammar.aluOpOneRegOneImmNames,
      t ∈ Grammar.aluOpOneRegOneImmNames ++ Grammar.simmNames :=
    fun t ht => List.mem_append_left _ ht
  -- the constant in `temp`, then one more word
  have hcpya : ∀ {rest : Except AsmError (BitVec 32)} {w : Word}, rest = .ok w →
      ∀ n : BitVec 64, (do
        let cpya ← cpyaWords TokReg.temp.num n
        return Effect.ofWords (cpya ++ [← rest]) : Except AsmError Effect) =
          .ok { data := (docCpya temp n ++ [w]).map .b32 } := by
    intro rest w hrest n
    rw [cpyaWords_ok, hrest]
    rfl
  cases p with
  | pseudoInstrOpInv rA rB => exact .of_words (aluOpThreeRegs_ok rA rB .zero (by decide))
  | pseudoInstrOpInvi rA e =>
    exact .of_eq (aluOpTwoRegsOneImm_ok rA .zero env (t := .nori) (by decide))
  | pseudoInstrOpGrpCpy rA rB =>
    cases rB with
    | some rB => exact .of_words (aluOpThreeRegs_ok rA rB .zero (by decide))
    | none =>
      -- `cpy rA, pc` is `addsi rA, pc, 0`
      have hop : iog1OneRegOnePcOneSimmMap.opcode "addsi" = .ok ((0xe#4).setWidth 32) := by decide
      rw [PseudoInstruction.effect, hop]
      exact .of_words (congrArg (fun w => Except.ok (Effect.ofWords [w])) (imm_eq rA .zero 1 0))
  | pseudoInstrOpCpyi rA e =>
    exact .of_eq (aluOpTwoRegsOneImm_ok rA .zero env (t := .addi) (by decide))
  | pseudoInstrOpCpya rA e =>
    exact .of_eq fun n => by rw [cpyaWords_ok]; rfl
  | pseudoInstrOpBra e => exact .of_eq (relativeBranch_ok .zero .zero env (by decide))
  | pseudoInstrOpJmp rC =>
    have hword : jumpWord 0x0 0x0 rC.num "jeq" = .ok (regsWord 3 0 0 rC.index 1) :=
      jumpWord_ok .zero .zero rC (by decide)
    exact .of_words (congrArg (fun r => r >>= fun w => Except.ok (Effect.ofWords [w])) hword)
  | pseudoInstrOpCall rC =>
    have hword : callWord 0x0 0x0 rC.num "ceq" = .ok (regsWord 4 0 0 rC.index 1) :=
      callWord_ok .zero .zero rC (by decide)
    exact .of_words (congrArg (fun r => r >>= fun w => Except.ok (Effect.ofWords [w])) hword)
  | pseudoInstrOpJmpa e =>
    exact .of_eq (hcpya (jumpWord_ok .zero .zero .temp (by decide)))
  | pseudoInstrOpCalla e =>
    exact .of_eq (hcpya (callWord_ok .zero .zero .temp (by decide)))
  | pseudoInstrOpJmpaCallaConditional t rA rB e =>
    obtain ⟨t, ht⟩ := t
    have hcases : t = .jmpane ∨ t = .jmpaeq ∨ t = .callane ∨ t = .callaeq := by
      simpa [Grammar.jmpaCallaConditionalNames] using ht
    rcases hcases with rfl | rfl | rfl | rfl
    · exact .of_eq (hcpya (jumpWord_ok rA rB .temp (by decide)))
    · exact .of_eq (hcpya (jumpWord_ok rA rB .temp (by decide)))
    · exact .of_eq (hcpya (callWord_ok rA rB .temp (by decide)))
    · exact .of_eq (hcpya (callWord_ok rA rB .temp (by decide)))
  | pseudoInstrOpIncDec t rA =>
    obtain ⟨t, ht⟩ := t
    have hcases : t = .inc ∨ t = .dec := by simpa [Grammar.incDecNames] using ht
    rcases hcases with rfl | rfl
    · exact aluOpTwoRegsOneImm_ok rA rA env (t := .addi) (by decide) 1
    · exact aluOpTwoRegsOneImm_ok rA rA env (t := .subi) (by decide) 1
  | pseudoInstrOpAluOpTwoReg t rA rB =>
    have hall : ∀ t ∈ Grammar.aluOpNames, t ≠ .sgtu → t ≠ .sgts →
        t ∈ VisitChain.pseudoInstrOpAluOpTwoReg ∧
          iog0ThreeRegsMap.opcode t.text = .ok ((docOpcode docGroup0 t.text).setWidth 32) := by
      decide
    obtain ⟨hu, hs⟩ := not_or.mp h
    obtain ⟨hchain, hop⟩ := hall t.val t.property hu hs
    exact .of_chain hchain (.of_words (aluOpThreeRegs_ok rA rA rB hop))
  | pseudoInstrOpAluOpOneRegOneImm t rA e =>
    exact .of_chain t.property (.of_eq (aluOpTwoRegsOneImm_ok rA rA env (himm t.val t.property)))
  | pseudoInstrOpAluOpOneRegOneSimm t rA e =>
    have hsimm := List.mem_append_right Grammar.aluOpOneRegOneImmNames t.property
    exact .of_chain t.property (.of_eq (aluOpTwoRegsOneImm_ok rA rA env hsimm))

theorem PseudoInstruction.encodes (env : Env) (p : PseudoInstruction) (h : ¬p.Refused) :
    Encodes env p.exprs (p.effect env) (p.docWords env.pc) :=
  ⟨_, p.encodesWith env h⟩

end Frost32.Asm
