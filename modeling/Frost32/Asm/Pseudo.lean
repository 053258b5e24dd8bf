import Frost32.Asm.Format
import Frost32.Asm.Scoping

namespace Frost32.Asm

open Isa Fallible

/-!
# What a pseudo-instruction means

The words a pseudo-instruction expands to, executed one after another.

* `exec_group0`, …, `exec_group4` — one packed word by the instruction set.
* `PseudoInstruction.meaningWith` — the documented effect; the conditional jumps and calls
  compare the registers of a given file.
* `execWords_cpya` — the two words that load a constant.
* `meaning_of_expansion` — **every expansion has the documented effect**, where the conditional
  forms compare `rA` and `rB` after the constant has been loaded into `temp`.
* `jmpaeq_temp` — with `temp` itself as an operand this is not the comparison of the registers
  as they were.
-/

/-- Execute words one after another. -/
def execWords (order : ByteOrder) (words : List Word) (a : Arch) : Arch :=
  words.foldl (fun a w => exec order w a) a

/-- Give a register a value and go on to the next instruction. -/
def setNext (r : RegIndex) (v : Word) (a : Arch) : Arch := { a.next with regs := a.regs.set r v }

/-! ### The documented effect -/

/-- What an arithmetic or logic instruction makes of its two operands. -/
def aluMeaning : InstrTok → Word → Word → Word
  | .add, b, c | .addi, b, c => b + c
  | .sub, b, c | .subi, b, c => b - c
  | .sltu, b, c | .sltui, b, c => flag (b.ult c)
  | .slts, b, c | .sltsi, b, c => flag (b.slt c)
  | .sgtu, b, c | .sgtui, b, c => flag (c.ult b)
  | .sgts, b, c | .sgtsi, b, c => flag (c.slt b)
  | .mul, b, c | .muli, b, c => b * c
  | .and, b, c | .andi, b, c => b &&& c
  | .orr, b, c | .orri, b, c => b ||| c
  | .xor, b, c | .xori, b, c => b ^^^ c
  | .nor, b, c | .nori, b, c => ~~~(b ||| c)
  | .lsl, b, c | .lsli, b, c => b <<< c.toNat
  | .lsr, b, c | .lsri, b, c => b >>> c.toNat
  | .asr, b, c | .asri, b, c => b.sshiftRight c.toNat
  | .udiv, b, c => b / c
  | .sdiv, b, c => b.sdiv c
  | _, b, _ => b

/-- The condition of `jmpane`, `jmpaeq`, `callane` and `callaeq`. -/
def conditionHolds : PseudoTok → Word → Word → Bool
  | .jmpane, x, y | .callane, x, y => x != y
  | _, x, y => x == y

def isCall : PseudoTok → Bool
  | .callane | .callaeq => true
  | _ => false

/-- The 16-bit immediate of an operand, zero extended. -/
def uimm (n : BitVec 64) : Word := (n.setWidth 16).setWidth 32

/-- The 16-bit immediate of an operand, sign extended. -/
def simm (n : BitVec 64) : Word := (n.setWidth 16).signExtend 32

/-- The documented effect of a pseudo-instruction with operand `n` on the machine; the
    conditional forms compare the registers of `compared`. -/
def PseudoInstruction.meaningWith (compared : Regs) (env : Env) (n : BitVec 64) (a : Arch) :
    PseudoInstruction → Arch
  | pseudoInstrOpInv rA rB => setNext rA.index (~~~a.regs.val rB.index) a
  | pseudoInstrOpInvi rA _ => setNext rA.index (~~~uimm n) a
  | pseudoInstrOpGrpCpy rA (some rB) => setNext rA.index (a.regs.val rB.index) a
  | pseudoInstrOpGrpCpy rA none => setNext rA.index a.pc a
  | pseudoInstrOpCpyi rA _ => setNext rA.index (uimm n) a
  | pseudoInstrOpCpya rA _ =>
    { a with regs := a.regs.set rA.index (n.setWidth 32), pc := a.pc + 8 }
  | pseudoInstrOpBra _ => { a with pc := a.pc + 4 + simm (n - env.pc - 4) }
  | pseudoInstrOpJmp rC => { a with pc := a.regs.val rC.index }
  | pseudoInstrOpCall rC =>
    { a with regs := a.regs.set lr (a.pc + 4), pc := a.regs.val rC.index }
  | pseudoInstrOpJmpa _ => { a with regs := a.regs.set temp (n.setWidth 32), pc := n.setWidth 32 }
  | pseudoInstrOpCalla _ =>
    { a with
      regs := (a.regs.set temp (n.setWidth 32)).set lr (a.pc + 12)
      pc := n.setWidth 32 }
  | pseudoInstrOpJmpaCallaConditional t rA rB _ =>
    let loaded := a.regs.set temp (n.setWidth 32)
    if conditionHolds t.val (compared.val rA.index) (compared.val rB.index) then
      { a with
        regs := if isCall t.val then loaded.set lr (a.pc + 12) else loaded
        pc := n.setWidth 32 }
    else { a with regs := loaded, pc := a.pc + 12 }
  | pseudoInstrOpIncDec t rA =>
    setNext rA.index
      (if t.val = .inc then a.regs.val rA.index + 1 else a.regs.val rA.index - 1) a
  | pseudoInstrOpAluOpTwoReg t rA rB =>
    setNext rA.index (aluMeaning t.val (a.regs.val rA.index) (a.regs.val rB.index)) a
  | pseudoInstrOpAluOpOneRegOneImm t rA _ =>
    setNext rA.index (aluMeaning t.val (a.regs.val rA.index) (uimm n)) a
  | pseudoInstrOpAluOpOneRegOneSimm t rA _ =>
    setNext rA.index (aluMeaning t.val (a.regs.val rA.index) (simm n)) a

/-! ### One word -/

section Exec

variable (order : ByteOrder) (rA rB rC : TokReg) (op imm : BitVec 32) (a : Arch)

theorem exec_group0 :
    exec order (instrOpcodeGroup0 rA.num rB.num rC.num op) a =
      setNext rA.index
        (aluOp (op.setWidth 4) (a.regs.val rB.index) (a.regs.val rC.index)) a := by
  unfold exec instrOpcodeGroup0 Arch.writeA setNext
  simp [InstrMap.setWidth_index]

theorem exec_group1 :
    exec order (instrOpcodeGroup1 rA.num rB.num op imm) a =
      setNext rA.index (immOp (op.setWidth 4) (imm.setWidth 16) a.pc (a.regs.val rA.index)
        (a.regs.val rB.index)) a := by
  unfold exec instrOpcodeGroup1 Arch.writeA setNext
  simp [InstrMap.setWidth_index]

theorem exec_group2 :
    exec order (instrOpcodeGroup2 rA.num rB.num op imm) a =
      if branchTaken (op.setWidth 4) (a.regs.val rA.index) (a.regs.val rB.index) a.ie then
        { a with pc := a.pc + 4 + (imm.setWidth 16).signExtend 32 }
      else a.next := by
  unfold exec instrOpcodeGroup2
  simp [InstrMap.setWidth_index]

theorem exec_group3 :
    exec order (instrOpcodeGroup3 rA.num rB.num rC.num op) a =
      if condHolds (op.setWidth 4) (a.regs.val rA.index) (a.regs.val rB.index) then
        { a with pc := a.regs.val rC.index }
      else a.next := by
  unfold exec instrOpcodeGroup3
  simp [InstrMap.setWidth_index]

theorem exec_group4 :
    exec order (instrOpcodeGroup4 rA.num rB.num rC.num op) a =
      if condHolds (op.setWidth 4) (a.regs.val rA.index) (a.regs.val rB.index) then
        { a with regs := a.regs.set lr (a.pc + 4), pc := a.regs.val rC.index }
      else a.next := by
  unfold exec instrOpcodeGroup4
  simp [InstrMap.setWidth_index]

end Exec

/-! ### The words of each form -/

section Words

variable (order : ByteOrder) (env : Env) (n : BitVec 64)

/-- The expansion generates these words, and they have this effect. -/
def Expands (r : Except AsmError Effect) (meaning : Arch → Arch) : Prop :=
  ∃ ef words, r = .ok ef ∧ ef.data = words.map .b32 ∧ ∀ a, execWords order words a = meaning a

theorem Expands.congr {r : Except AsmError Effect} {meaning meaning' : Arch → Arch}
    (h : Expands order r meaning) (heq : ∀ a, meaning a = meaning' a) :
    Expands order r meaning' := by
  obtain ⟨ef, words, hef, hdata, hexec⟩ := h
  exact ⟨ef, words, hef, hdata, fun a => (hexec a).trans (heq a)⟩

theorem setWidth_imm16 : (n.setWidth 32).setWidth 16 = n.setWidth 16 :=
  BitVec.setWidth_setWidth_of_le n (by decide)

/-- The opcode of an arithmetic or logic instruction of three registers stands for its
    operation. -/
theorem opcode_aluOp {t : InstrTok} (ht : t ∈ Grammar.aluOpNames) (hu : t ≠ .sgtu)
    (hs : t ≠ .sgts) :
    ∃ op, iog0ThreeRegsMap.opcode t.text = .ok op ∧
      ∀ b c, aluOp (op.setWidth 4) b c = aluMeaning t b c := by
  simp only [Grammar.aluOpNames, List.mem_cons, List.not_mem_nil, or_false] at ht
  rcases ht with rfl | rfl | rfl | rfl | rfl | rfl | rfl | rfl | rfl | rfl | rfl | rfl | rfl |
    rfl | rfl | rfl
  case inr.inr.inr.inr.inl => exact absurd rfl hu
  case inr.inr.inr.inr.inr.inl => exact absurd rfl hs
  all_goals exact ⟨_, rfl, fun _ _ => rfl⟩

theorem expands_aluOpThreeRegs {t : InstrTok} (ht : t ∈ Grammar.aluOpNames) (hu : t ≠ .sgtu)
    (hs : t ≠ .sgts) (rA rB rC : TokReg) :
    Expands order (aluOpThreeRegsEffect rA.num rB.num rC.num t.text) fun a =>
      setNext rA.index (aluMeaning t (a.regs.val rB.index) (a.regs.val rC.index)) a := by
  obtain ⟨op, hop, hmeaning⟩ := opcode_aluOp ht hu hs
  refine ⟨_, _, by rw [aluOpThreeRegsEffect, hop]; rfl, rfl, ?_⟩
  intro a
  simp only [← hmeaning]
  exact exec_group0 order rA rB rC op a

/-- An immediate form, with the operand extended as the operation asks for. -/
theorem expands_aluOpTwoRegsOneImm {t : InstrTok} {c : Word}
    (ht : (t ∈ Grammar.aluOpOneRegOneImmNames ∧ c = uimm n) ∨ t ∈ Grammar.simmNames ∧ c = simm n)
    (rA rB : TokReg) :
    Expands order (aluOpTwoRegsOneImmEffect env rA.num rB.num t.text n) fun a =>
      setNext rA.index (aluMeaning t (a.regs.val rB.index) c) a := by
  have hop : ∃ op ef, aluOpTwoRegsOneImmEffect env rA.num rB.num t.text n = .ok ef ∧
      ef.data = [.b32 (instrOpcodeGroup1 rA.num rB.num op (n.setWidth 32))] ∧
      ∀ pc a b, immOp (op.setWidth 4) (n.setWidth 16) pc a b = aluMeaning t b c := by
    rcases ht with ⟨ht, rfl⟩ | ⟨ht, rfl⟩
    · simp only [Grammar.aluOpOneRegOneImmNames, List.mem_cons, List.not_mem_nil, or_false] at ht
      rcases ht with rfl | rfl | rfl | rfl | rfl | rfl | rfl | rfl | rfl | rfl | rfl | rfl
      all_goals exact ⟨_, _, rfl, rfl, fun _ _ _ => rfl⟩
    · simp only [Grammar.simmNames, List.mem_cons, List.not_mem_nil, or_false] at ht
      rcases ht with rfl | rfl
      all_goals exact ⟨_, _, rfl, rfl, fun _ _ _ => rfl⟩
  obtain ⟨op, ef, hef, hdata, hmeaning⟩ := hop
  refine ⟨ef, [_], hef, hdata, ?_⟩
  intro a
  rw [execWords, List.foldl_cons, List.foldl_nil, exec_group1, setWidth_imm16, hmeaning]

/-- The two halves of a constant. -/
theorem halves_append :
    (((n.sshiftRight 16).setWidth 32).setWidth 16 ++ (uimm n).extractLsb' 0 16 : BitVec 32) =
      n.setWidth 32 := by
  apply BitVec.eq_of_getLsbD_eq
  intro i hi
  unfold uimm
  simp only [BitVec.getLsbD_append, BitVec.getLsbD_extractLsb', BitVec.getLsbD_setWidth,
    BitVec.getLsbD_sshiftRight]
  by_cases hlow : i < 16
  · simp [hlow, hi]
  · have h16 : i - 16 < 16 := by omega
    have h32 : i - 16 < 32 := by omega
    have h64 : ¬64 ≤ i - 16 := by omega
    have hin : 16 + (i - 16) = i := by omega
    have hlt : i < 64 := by omega
    simp [hlow, hi, h16, h32, h64, hin, hlt]

/-- **The two words that load a constant.** -/
theorem execWords_cpya (rA : TokReg) :
    ∃ words, cpyaWords rA.num n = .ok words ∧ ∀ a : Arch, execWords order words a =
      { a with regs := a.regs.set rA.index (n.setWidth 32), pc := a.pc + 8 } := by
  refine ⟨_, rfl, ?_⟩
  intro a
  -- `addi rA, zero` loads the low half, zero extended
  have hlow : exec order (instrOpcodeGroup1 rA.num TokReg.zero.num 0 (n.setWidth 32)) a =
      setNext rA.index (uimm n) a := by
    rw [exec_group1, setWidth_imm16]
    have hvalue : immOp (BitVec.setWidth 4 0#32) (n.setWidth 16) a.pc (a.regs.val rA.index)
        (a.regs.val 0#4) = uimm n := by
      show a.regs.val 0#4 + uimm n = uimm n
      rw [a.regs.zero]
      exact BitVec.zero_add (uimm n)
    rw [← hvalue]
    rfl
  -- `cpyhi rA` replaces the high one
  have hhigh : exec order (instrOpcodeGroup1 rA.num TokReg.zero.num 15
      ((n.sshiftRight 16).setWidth 32)) (setNext rA.index (uimm n) a) =
      { a with regs := a.regs.set rA.index (n.setWidth 32), pc := a.pc + 8 } := by
    rw [exec_group1]
    show Arch.mk ((a.regs.set rA.index (uimm n)).set rA.index
      (((n.sshiftRight 16).setWidth 32).setWidth 16 ++
        ((a.regs.set rA.index (uimm n)).val rA.index).extractLsb' 0 16))
      (a.pc + 4 + 4) _ _ _ _ = _
    rw [BitVec.add_assoc, Regs.set_set]
    -- `zero` stays 0 in both
    by_cases hzero : rA.index = 0#4
    · rw [hzero, Regs.set_zero, Regs.set_zero]
      rfl
    · rw [Regs.set_val_self hzero, halves_append]
      rfl
  show exec order _ (exec order _ a) = _
  rw [← hhigh, ← hlow]
  rfl

/-- An expansion that loads the operand into `temp` first. -/
theorem expands_cpya_then {r : Except AsmError (BitVec 32)} {w : Word} (hw : r = .ok w)
    {meaning : Arch → Arch}
    (hlast : ∀ a : Arch, exec order w
      { a with regs := a.regs.set temp (n.setWidth 32), pc := a.pc + 8 } = meaning a) :
    Expands order (do
      let cpya ← cpyaWords TokReg.temp.num n
      return .ofWords (cpya ++ [← r])) meaning := by
  obtain ⟨words, hwords, hexec⟩ := execWords_cpya order n .temp
  refine ⟨.ofWords (words ++ [w]), words ++ [w], by rw [hwords, hw]; rfl, rfl, ?_⟩
  intro a
  rw [← hlast, execWords, List.foldl_append]
  exact congrArg (exec order w) (hexec a)

end Words

/-! ### Every form -/

/-- Two arithmetic mnemonics are spelled differently in the lexer, and their spelling has no
    opcode. -/
def PseudoInstruction.HasOpcode : PseudoInstruction → Prop
  | pseudoInstrOpAluOpTwoReg t _ _ => t.val ≠ .sgtu ∧ t.val ≠ .sgts
  | _ => True

/-- The expression of a pseudo-instruction, where there is one, has the value `n`. -/
def PseudoInstruction.OperandIs (env : Env) (n : BitVec 64) (p : PseudoInstruction) : Prop :=
  ∀ e ∈ p.exprs, e.eval env = .ok n

section Forms

variable (order : ByteOrder) (env : Env) (n : BitVec 64)

theorem following_loaded (pc : Word) : pc + 8 + 4 = pc + 12 := BitVec.add_assoc pc 8 4

theorem val_loaded (regs : Regs) (v : Word) : (regs.set temp v).val TokReg.temp.index = v :=
  Regs.set_val_self (by decide) _ _

theorem next_loaded (a : Arch) (v : Word) :
    ({ a with regs := a.regs.set temp v, pc := a.pc + 8 } : Arch).next =
      { a with regs := a.regs.set temp v, pc := a.pc + 12 } := by
  show Arch.mk _ (a.pc + 8 + 4) _ _ _ _ = _
  rw [following_loaded]

/-- The conditional jumps and calls to a constant address. -/
theorem expands_jmpaCallaConditional (t : PseudoChoice Grammar.jmpaCallaConditionalNames)
    (rA rB : TokReg) (e : Expr) :
    Expands order (do
      let cpya ← cpyaWords TokReg.temp.num n
      return .ofWords (cpya ++ [← jmpaCallaConditionalWord t.val rA.num rB.num]))
      fun a => (PseudoInstruction.pseudoInstrOpJmpaCallaConditional t rA rB e).meaningWith
        (a.regs.set temp (n.setWidth 32)) env n a := by
  obtain ⟨t, ht⟩ := t
  have hcases : t = .jmpane ∨ t = .jmpaeq ∨ t = .callane ∨ t = .callaeq := by
    simpa [Grammar.jmpaCallaConditionalNames] using ht
  rcases hcases with rfl | rfl | rfl | rfl
  -- the jumps, then the calls
  case inl | inr.inl =>
    refine expands_cpya_then order n rfl ?_
    intro a
    rw [exec_group3, next_loaded, val_loaded]
    rfl
  all_goals
    refine expands_cpya_then order n rfl ?_
    intro a
    rw [exec_group4, next_loaded, val_loaded]
    simp only [following_loaded]
    rfl

theorem expands_inv (rA rB : TokReg) :
    Expands order (aluOpThreeRegsEffect rA.num rB.num TokReg.zero.num "nor") fun a =>
      (PseudoInstruction.pseudoInstrOpInv rA rB).meaningWith a.regs env n a := by
  refine (expands_aluOpThreeRegs order (t := .nor) (by decide) (by decide) (by decide)
    rA rB .zero).congr order ?_
  intro a
  show setNext rA.index (~~~(a.regs.val rB.index ||| a.regs.val 0#4)) a = _
  rw [a.regs.zero]
  exact congrArg (fun v => setNext rA.index (~~~v) a) BitVec.or_zero

theorem expands_invi (rA : TokReg) (e : Expr) :
    Expands order (aluOpTwoRegsOneImmEffect env rA.num TokReg.zero.num "nori" n) fun a =>
      (PseudoInstruction.pseudoInstrOpInvi rA e).meaningWith a.regs env n a := by
  refine (expands_aluOpTwoRegsOneImm order env n (t := .nori) (.inl ⟨by decide, rfl⟩)
    rA .zero).congr order ?_
  intro a
  show setNext rA.index (~~~(a.regs.val 0#4 ||| uimm n)) a = _
  rw [a.regs.zero]
  exact congrArg (fun v => setNext rA.index (~~~v) a) BitVec.zero_or

theorem expands_cpy (rA rB : TokReg) :
    Expands order (aluOpThreeRegsEffect rA.num rB.num TokReg.zero.num "add") fun a =>
      (PseudoInstruction.pseudoInstrOpGrpCpy rA (some rB)).meaningWith a.regs env n a := by
  refine (expands_aluOpThreeRegs order (t := .add) (by decide) (by decide) (by decide)
    rA rB .zero).congr order ?_
  intro a
  show setNext rA.index (a.regs.val rB.index + a.regs.val 0#4) a = _
  rw [a.regs.zero]
  exact congrArg (fun v => setNext rA.index v a) (BitVec.add_zero _)

theorem expands_cpyPc (rA : TokReg) :
    Expands order ((PseudoInstruction.pseudoInstrOpGrpCpy rA none).effect env) fun a =>
      (PseudoInstruction.pseudoInstrOpGrpCpy rA none).meaningWith a.regs env n a := by
  refine ⟨_, [_], rfl, rfl, ?_⟩
  intro a
  refine (exec_group1 order rA .zero 14 0 a).trans ?_
  exact congrArg (fun v => setNext rA.index v a) (BitVec.add_zero a.pc)

theorem expands_cpyi (rA : TokReg) (e : Expr) :
    Expands order (aluOpTwoRegsOneImmEffect env rA.num TokReg.zero.num "addi" n) fun a =>
      (PseudoInstruction.pseudoInstrOpCpyi rA e).meaningWith a.regs env n a := by
  refine (expands_aluOpTwoRegsOneImm order env n (t := .addi) (.inl ⟨by decide, rfl⟩)
    rA .zero).congr order ?_
  intro a
  show setNext rA.index (a.regs.val 0#4 + uimm n) a = _
  rw [a.regs.zero]
  exact congrArg (fun v => setNext rA.index v a) (BitVec.zero_add _)

theorem expands_cpya (rA : TokReg) (e : Expr) :
    Expands order (do return .ofWords (← cpyaWords rA.num n)) fun a =>
      (PseudoInstruction.pseudoInstrOpCpya rA e).meaningWith a.regs env n a := by
  obtain ⟨words, hwords, hexec⟩ := execWords_cpya order n rA
  exact ⟨.ofWords words, words, by rw [hwords]; rfl, rfl, hexec⟩

/-- The comparison of `zero` with itself always holds. -/
theorem expands_jmpa (e : Expr) :
    Expands order (do
      let cpya ← cpyaWords TokReg.temp.num n
      return .ofWords (cpya ++ [← jumpWord 0x0 0x0 TokReg.temp.num "jeq"])) fun a =>
        (PseudoInstruction.pseudoInstrOpJmpa e).meaningWith a.regs env n a := by
  refine expands_cpya_then order n rfl ?_
  intro a
  refine (exec_group3 order .zero .zero .temp 1 _).trans ?_
  refine (if_pos (beq_self_eq_true _)).trans ?_
  rw [val_loaded]
  rfl

theorem expands_calla (e : Expr) :
    Expands order (do
      let cpya ← cpyaWords TokReg.temp.num n
      return .ofWords (cpya ++ [← callWord 0x0 0x0 TokReg.temp.num "ceq"])) fun a =>
        (PseudoInstruction.pseudoInstrOpCalla e).meaningWith a.regs env n a := by
  refine expands_cpya_then order n rfl ?_
  intro a
  refine (exec_group4 order .zero .zero .temp 1 _).trans ?_
  refine (if_pos (beq_self_eq_true _)).trans ?_
  rw [val_loaded]
  simp only [following_loaded]
  rfl

theorem expands_incDec (t : PseudoChoice Grammar.incDecNames) (rA : TokReg) :
    Expands order ((PseudoInstruction.pseudoInstrOpIncDec t rA).effect env) fun a =>
      (PseudoInstruction.pseudoInstrOpIncDec t rA).meaningWith a.regs env n a := by
  obtain ⟨t, ht⟩ := t
  have hcases : t = .inc ∨ t = .dec := by simpa [Grammar.incDecNames] using ht
  rcases hcases with rfl | rfl
  · exact expands_aluOpTwoRegsOneImm order env 1 (t := .addi) (.inl ⟨by decide, rfl⟩) rA rA
  · exact expands_aluOpTwoRegsOneImm order env 1 (t := .subi) (.inl ⟨by decide, rfl⟩) rA rA

theorem expands_bra (e : Expr) :
    Expands order (relativeBranchEffect env 0x0 0x0 "beq" n) fun a =>
      (PseudoInstruction.pseudoInstrOpBra e).meaningWith a.regs env n a := by
  refine ⟨_, [_], rfl, rfl, ?_⟩
  intro a
  refine (exec_group2 order .zero .zero 1 _ a).trans ?_
  have htaken : branchTaken (BitVec.setWidth 4 (1 : BitVec 32)) (a.regs.val TokReg.zero.index)
      (a.regs.val TokReg.zero.index) a.ie = true := beq_self_eq_true _
  rw [if_pos htaken, setWidth_imm16]
  rfl

theorem expands_jmp (rC : TokReg) :
    Expands order (do return .ofWords [← jumpWord 0x0 0x0 rC.num "jeq"]) fun a =>
      (PseudoInstruction.pseudoInstrOpJmp rC).meaningWith a.regs env n a := by
  refine ⟨_, [_], rfl, rfl, ?_⟩
  intro a
  refine (exec_group3 order .zero .zero rC 1 a).trans ?_
  exact if_pos (beq_self_eq_true _)

theorem expands_call (rC : TokReg) :
    Expands order (do return .ofWords [← callWord 0x0 0x0 rC.num "ceq"]) fun a =>
      (PseudoInstruction.pseudoInstrOpCall rC).meaningWith a.regs env n a := by
  refine ⟨_, [_], rfl, rfl, ?_⟩
  intro a
  refine (exec_group4 order .zero .zero rC 1 a).trans ?_
  exact if_pos (beq_self_eq_true _)

end Forms

/-- **Every expansion has its documented effect**, where the conditional forms compare `rA` and
    `rB` once the constant is in `temp`. -/
theorem meaning_of_expansion (order : ByteOrder) {env : Env} {p : PseudoInstruction}
    {n : BitVec 64} (hn : p.OperandIs env n) (hop : p.HasOpcode) :
    Expands order (p.effect env) fun a =>
      p.meaningWith (a.regs.set temp (n.setWidth 32)) env n a := by
  cases p with
  | pseudoInstrOpInv rA rB => exact expands_inv order env n rA rB
  | pseudoInstrOpInvi rA e =>
    -- the operand is evaluated first
    show Expands order (e.eval env >>= _) _
    rw [hn e List.mem_cons_self]
    exact expands_invi order env n rA e
  | pseudoInstrOpGrpCpy rA rB =>
    cases rB with
    | some rB => exact expands_cpy order env n rA rB
    | none => exact expands_cpyPc order env n rA
  | pseudoInstrOpCpyi rA e =>
    show Expands order (e.eval env >>= _) _
    rw [hn e List.mem_cons_self]
    exact expands_cpyi order env n rA e
  | pseudoInstrOpCpya rA e =>
    show Expands order (e.eval env >>= _) _
    rw [hn e List.mem_cons_self]
    exact expands_cpya order env n rA e
  | pseudoInstrOpBra e =>
    show Expands order (e.eval env >>= _) _
    rw [hn e List.mem_cons_self]
    exact expands_bra order env n e
  | pseudoInstrOpJmp rC => exact expands_jmp order env n rC
  | pseudoInstrOpCall rC => exact expands_call order env n rC
  | pseudoInstrOpJmpa e =>
    show Expands order (e.eval env >>= _) _
    rw [hn e List.mem_cons_self]
    exact expands_jmpa order env n e
  | pseudoInstrOpCalla e =>
    show Expands order (e.eval env >>= _) _
    rw [hn e List.mem_cons_self]
    exact expands_calla order env n e
  | pseudoInstrOpJmpaCallaConditional t rA rB e =>
    show Expands order (e.eval env >>= _) _
    rw [hn e List.mem_cons_self]
    exact expands_jmpaCallaConditional order env n t rA rB e
  | pseudoInstrOpIncDec t rA => exact expands_incDec order env n t rA
  | pseudoInstrOpAluOpTwoReg t rA rB =>
    have hname : chainText VisitChain.pseudoInstrOpAluOpTwoReg t.val
        "visitPseudoInstrOpAluOpTwoReg():  Eek!" = .ok t.val.text := if_pos t.property
    show Expands order (chainText _ t.val _ >>= _) _
    rw [hname]
    exact expands_aluOpThreeRegs order t.property hop.1 hop.2 rA rA rB
  | pseudoInstrOpAluOpOneRegOneImm t rA e =>
    have hname : chainText VisitChain.pseudoInstrOpAluOpOneRegOneImm t.val
        "visitPseudoInstrOpAluOpOneRegOneImm():  Eek!" = .ok t.val.text := if_pos t.property
    show Expands order (chainText _ t.val _ >>= fun name => e.eval env >>= _) _
    rw [hname, hn e List.mem_cons_self]
    exact expands_aluOpTwoRegsOneImm order env n (.inl ⟨t.property, rfl⟩) rA rA
  | pseudoInstrOpAluOpOneRegOneSimm t rA e =>
    have hname : chainText VisitChain.pseudoInstrOpAluOpOneRegOneSimm t.val
        "visitPseudoInstrOpAluOpOneRegOneSimm():  Eek!" = .ok t.val.text := if_pos t.property
    show Expands order (chainText _ t.val _ >>= fun name => e.eval env >>= _) _
    rw [hname, hn e List.mem_cons_self]
    exact expands_aluOpTwoRegsOneImm order env n (.inr ⟨t.property, rfl⟩) rA rA

/-- `callane u0, temp, .` at address `0x10`. -/
theorem meaning_of_expansion_callane :
    let env := placementEnv 0x10
    let p := PseudoInstruction.pseudoInstrOpJmpaCallaConditional ⟨.callane, by decide⟩ .u0 .temp
      (.ofAtom .currPc)
    p.OperandIs env 0x10 ∧ p.HasOpcode ∧ Expands .bigEndian (p.effect env) fun a =>
      p.meaningWith (a.regs.set temp 0x10) env 0x10 a := by
  intro env p
  have hoperand : p.OperandIs env 0x10 := by
    intro e he
    rw [List.mem_singleton.mp he]
    rfl
  exact ⟨hoperand, trivial, meaning_of_expansion .bigEndian hoperand trivial⟩

/-- **The operands of a conditional form are not compared as they were before**: after
    `jmpaeq temp, u0, .` at address `0x10`, with 5 in both registers, control falls through. -/
theorem jmpaeq_temp :
    let env := placementEnv 0x10
    let p := PseudoInstruction.pseudoInstrOpJmpaCallaConditional ⟨.jmpaeq, by decide⟩ .temp .u0
      (.ofAtom .currPc)
    p.OperandIs env 0x10 ∧
      ¬Expands .bigEndian (p.effect env) fun a => p.meaningWith a.regs env 0x10 a := by
  intro env p
  constructor
  · intro e he
    rw [List.mem_singleton.mp he]
    rfl
  · rintro ⟨ef, words, hef, hdata, hexec⟩
    obtain ⟨ef', words', hef', hdata', hexec'⟩ :=
      expands_jmpaCallaConditional .bigEndian env 0x10 ⟨.jmpaeq, by decide⟩ .temp .u0
        (.ofAtom .currPc)
    cases hef.symm.trans hef'
    have hwords : words = words' :=
      List.map_injective_iff.mpr (fun _ _ h => Datum.b32.inj h) (hdata.symm.trans hdata')
    let regs : Regs := (Regs.cleared.set TokReg.temp.index 5).set TokReg.u0.index 5
    let a : Arch := { reset fun _ => 0 with regs := regs, pc := 0x10 }
    have hpc := congrArg Arch.pc ((hexec a).symm.trans (hwords ▸ hexec' a))
    exact absurd hpc (by decide)

end Frost32.Asm
