import Frost32.Asm.Branches
import Frost32.Asm.Pseudo

namespace Frost32.Asm

open Isa

/-!
# What a line of code means

The documented effect of each instruction by its mnemonic, and what the instruction set makes of
the words of a line.

* `Instruction.meaning`, `PseudoInstruction.meaning` — the effect of a line with an operand of
  a given value.
* `exec_aluWord`, …, `exec_interruptsWord` — a documented word of each group.
* `Line.execWords_words` — **the words of a line have the effect of the line**, where the target
  of a branch is in reach.
-/

/-! ### The effect of a line -/

/-- The condition that a jump or a call is named after. -/
def transferHolds (t : InstrTok) (a b : Word) : Bool :=
  match t with
  | .jne | .cne => decide (a ≠ b)
  | .jeq | .ceq => decide (a = b)
  | .jltu | .cltu => decide (a.toNat < b.toNat)
  | .jgeu | .cgeu => decide (b.toNat ≤ a.toNat)
  | .jleu | .cleu => decide (a.toNat ≤ b.toNat)
  | .jgtu | .cgtu => decide (b.toNat < a.toNat)
  | .jlts | .clts => decide (a.toInt < b.toInt)
  | .jges | .cges => decide (b.toInt ≤ a.toInt)
  | .jles | .cles => decide (a.toInt ≤ b.toInt)
  | .jgts | .cgts => decide (b.toInt < a.toInt)
  | _ => false

/-- The 12-bit immediate of an operand, sign extended. -/
def simm12Of (n : BitVec 64) : Word := (n.setWidth 12).signExtend 32

section Meaning

variable (bo : ByteOrder)

/-- A load or store of the register `r` at the address `addr`. -/
def ldstMeaning (t : InstrTok) (r : RegIndex) (addr : Word) (a : Arch) : Arch :=
  let old := a.mem (wordIndex addr)
  let store := fun v => { a.next with mem := Function.update a.mem (wordIndex addr) v }
  match t with
  | .ldr | .ldri => setNext r old a
  | .ldh | .ldhi => setNext r ((loadLane bo 2 addr old).setWidth 32) a
  | .ldsh | .ldshi => setNext r ((loadLane bo 2 addr old).signExtend 32) a
  | .ldb | .ldbi => setNext r ((loadLane bo 1 addr old).setWidth 32) a
  | .ldsb | .ldsbi => setNext r ((loadLane bo 1 addr old).signExtend 32) a
  | .str | .stri => store (a.regs.val r)
  | .sth | .sthi => store (storeLane bo 2 addr (a.regs.val r) old)
  | .stb | .stbi => store (storeLane bo 1 addr (a.regs.val r) old)
  | _ => a.next

/-- The documented effect of an instruction with an operand of value `n`. -/
def Instruction.meaning (n : BitVec 64) (a : Arch) : Instruction → Arch
  | instrOpGrp0ThreeRegs t rA rB rC =>
    setNext rA.index (aluMeaning t.val (a.regs.val rB.index) (a.regs.val rC.index)) a
  | instrOpGrp1TwoRegsOneImm t rA rB _ =>
    setNext rA.index (aluMeaning t.val (a.regs.val rB.index) (uimm n)) a
  | instrOpGrp1TwoRegsOneSimm t rA rB _ =>
    setNext rA.index (aluMeaning t.val (a.regs.val rB.index) (simm n)) a
  | instrOpGrp1OneRegOnePcOneSimm rA _ => setNext rA.index (a.pc + simm n) a
  | instrOpGrp1OneRegOneImm rA _ =>
    setNext rA.index (n.setWidth 16 ++ (a.regs.val rA.index).extractLsb' 0 16) a
  | instrOpGrp2Branch t rA rB _ =>
    if branchHolds t.val (a.regs.val rA.index) (a.regs.val rB.index) then
      { a with pc := n.setWidth 32 }
    else a.next
  | instrOpGrp3Jump t rA rB rC =>
    if transferHolds t.val (a.regs.val rA.index) (a.regs.val rB.index) then
      { a with pc := a.regs.val rC.index }
    else a.next
  | instrOpGrp4Call t rA rB rC =>
    if transferHolds t.val (a.regs.val rA.index) (a.regs.val rB.index) then
      { a with regs := a.regs.set lr (a.pc + 4), pc := a.regs.val rC.index }
    else a.next
  | instrOpGrp5ThreeRegsLdst t rA rB rC =>
    ldstMeaning bo t.val rA.index (a.regs.val rB.index + a.regs.val rC.index) a
  | instrOpGrp5TwoRegsOneSimm12Ldst t rA rB _ =>
    ldstMeaning bo t.val rA.index (a.regs.val rB.index + simm12Of n) a
  | instrOpGrp6NoArgs t =>
    match t.val with
    | .ei => { a.next with ie := true }
    | .di => { a.next with ie := false }
    | _ => { a with pc := a.ireta, ie := true }
  | instrOpGrp6OneIretaOneReg rA => { a.next with ireta := a.regs.val rA.index }
  | instrOpGrp6OneRegOneIreta rA => setNext rA.index a.ireta a
  | instrOpGrp6OneIdstaOneReg rA => { a.next with idsta := a.regs.val rA.index }
  | instrOpGrp6OneRegOneIdsta rA => setNext rA.index a.idsta a

/-- The effect of a pseudo-instruction: `bra` goes to its operand, and the conditional forms
    compare the registers with the operand in `temp`. -/
def PseudoInstruction.meaning (n : BitVec 64) (a : Arch) : PseudoInstruction → Arch
  | pseudoInstrOpBra _ => { a with pc := n.setWidth 32 }
  | p => p.meaningWith (a.regs.set temp (n.setWidth 32)) (placementEnv 0) n a

/-- The effect of a line of code. -/
def Line.meaning (n : BitVec 64) (a : Arch) : Line → Arch
  | .instruction i => i.meaning bo n a
  | .pseudoInstruction p => p.meaning n a
  | _ => a

end Meaning

/-- The documented words of a line of code at `pc`. -/
def Line.words (pc n : BitVec 64) : Line → List Word
  | .instruction i => [i.word pc n]
  | .pseudoInstruction p => p.docWords pc n
  | _ => []

/-- The assembler ends in an error at the line, whatever its operand is. -/
def Line.Refused : Line → Prop
  | .instruction i => i.Refused
  | .pseudoInstruction p => p.Refused
  | _ => False

/-- The target of a branch is in reach of a signed 16-bit offset. -/
def Line.Reaches (pc n : BitVec 64) (l : Line) : Prop :=
  l.target.isSome → -32768 ≤ (n - pc - 4).toInt ∧ (n - pc - 4).toInt ≤ 32767

instance (pc n : BitVec 64) (l : Line) : Decidable (l.Reaches pc n) :=
  inferInstanceAs (Decidable (_ → _))

/-! ### The fields of a word -/

section Fields

variable (g op : BitVec 4) (a b c : RegIndex) (simm : BitVec 12)

/-- The encoding of groups 0 and 3 to 6. -/
def fieldsWord : Word := g ++ a ++ b ++ c ++ simm ++ op

theorem regsWord_eq : regsWord g a b c op = fieldsWord g op a b c 0 := rfl

theorem ldstWord_eq : ldstWord a b c simm op = fieldsWord 5 op a b c simm := rfl

@[simp] theorem group_fieldsWord : group (fieldsWord g op a b c simm) = g := by
  unfold group fieldsWord
  rw [BitVec.extractLsb'_append_eq_of_le (by omega), BitVec.extractLsb'_append_eq_of_le (by omega),
    BitVec.extractLsb'_append_eq_of_le (by omega), BitVec.extractLsb'_append_eq_of_le (by omega),
    BitVec.extractLsb'_append_eq_of_le (by omega)]
  exact BitVec.extractLsb'_eq_self

@[simp] theorem fieldA_fieldsWord : fieldA (fieldsWord g op a b c simm) = a := by
  unfold fieldA fieldsWord
  rw [BitVec.extractLsb'_append_eq_of_le (by omega), BitVec.extractLsb'_append_eq_of_le (by omega),
    BitVec.extractLsb'_append_eq_of_le (by omega), BitVec.extractLsb'_append_eq_of_le (by omega)]
  exact BitVec.extractLsb'_append_eq_right

@[simp] theorem fieldB_fieldsWord : fieldB (fieldsWord g op a b c simm) = b := by
  unfold fieldB fieldsWord
  rw [BitVec.extractLsb'_append_eq_of_le (by omega), BitVec.extractLsb'_append_eq_of_le (by omega),
    BitVec.extractLsb'_append_eq_of_le (by omega)]
  exact BitVec.extractLsb'_append_eq_right

@[simp] theorem fieldC_fieldsWord : fieldC (fieldsWord g op a b c simm) = c := by
  unfold fieldC fieldsWord
  rw [BitVec.extractLsb'_append_eq_of_le (by omega), BitVec.extractLsb'_append_eq_of_le (by omega)]
  exact BitVec.extractLsb'_append_eq_right

@[simp] theorem simm12_fieldsWord : simm12 (fieldsWord g op a b c simm) = simm := by
  unfold simm12 fieldsWord
  rw [BitVec.extractLsb'_append_eq_of_le (by omega)]
  exact BitVec.extractLsb'_append_eq_right

@[simp] theorem opcodeLow_fieldsWord : opcodeLow (fieldsWord g op a b c simm) = op :=
  BitVec.extractLsb'_append_eq_right

end Fields

/-! ### One word -/

section Exec

variable (bo : ByteOrder) (rA rB rC : RegIndex) (op : BitVec 4) (imm : BitVec 16)
  (simm : BitVec 12) (a : Arch)

theorem exec_aluWord :
    exec bo (regsWord 0 rA rB rC op) a =
      setNext rA (aluOp op (a.regs.val rB) (a.regs.val rC)) a := by
  rw [regsWord_eq]
  simp [exec, Arch.writeA, setNext]

theorem exec_immWord :
    exec bo (immWord 1 rA rB op imm) a =
      setNext rA (immOp op imm a.pc (a.regs.val rA) (a.regs.val rB)) a := by
  simp [exec, Arch.writeA, setNext]

theorem exec_jumpWord :
    exec bo (regsWord 3 rA rB rC op) a =
      if condHolds op (a.regs.val rA) (a.regs.val rB) then { a with pc := a.regs.val rC }
      else a.next := by
  rw [regsWord_eq]
  simp [exec]

theorem exec_callWord :
    exec bo (regsWord 4 rA rB rC op) a =
      if condHolds op (a.regs.val rA) (a.regs.val rB) then
        { a with regs := a.regs.set lr (a.pc + 4), pc := a.regs.val rC }
      else a.next := by
  rw [regsWord_eq]
  simp [exec]

/-- A load or store, with its effective address. -/
def ldstEffect (op : BitVec 4) (r : RegIndex) (addr : Word) (a : Arch) : Arch :=
  let kind := op.extractLsb' 0 3
  let old := a.mem (wordIndex addr)
  match loadValue bo kind addr old, storeValue bo kind addr (a.regs.val r) old with
  | some v, _ => setNext r v a
  | _, some v => { a.next with mem := Function.update a.mem (wordIndex addr) v }
  | none, none => a.next

theorem exec_ldstWord :
    exec bo (ldstWord rA rB rC simm op) a =
      ldstEffect bo op rA (a.regs.val rB +
        (if op.getLsbD 3 then simm.signExtend 32 else a.regs.val rC)) a := by
  rw [ldstWord_eq]
  simp only [exec, execLdst, Arch.ldstAddress, Arch.writeA, group_fieldsWord, fieldA_fieldsWord,
    fieldB_fieldsWord, fieldC_fieldsWord, simm12_fieldsWord, opcodeLow_fieldsWord]
  rfl

theorem exec_interruptsWord :
    exec bo (regsWord 6 rA 0 0 op) a =
      match op with
      | 0#4 => { a.next with ie := true }
      | 1#4 => { a.next with ie := false }
      | 2#4 => { a.next with ireta := a.regs.val rA }
      | 3#4 => setNext rA a.ireta a
      | 4#4 => { a.next with idsta := a.regs.val rA }
      | 5#4 => setNext rA a.idsta a
      | 6#4 => { a with pc := a.ireta, ie := true }
      | _ => a.next := by
  rw [regsWord_eq]
  simp only [exec, execInterrupts, Arch.writeA, group_fieldsWord, fieldA_fieldsWord,
    opcodeLow_fieldsWord]
  rfl

end Exec

/-! ### The words of a line -/

/-- The conditions of jumps and calls, by their opcodes. -/
theorem condHolds_jump {t : InstrTok} (ht : t ∈ Grammar.grp3JumpNames) (a b : Word) :
    condHolds (docOpcode docGroup3 t.text) a b = transferHolds t a b := by
  simp only [Grammar.grp3JumpNames, List.mem_cons, List.not_mem_nil, or_false] at ht
  rcases ht with rfl | rfl | rfl | rfl | rfl | rfl | rfl | rfl | rfl | rfl
  case inl =>
    show (!decide (a = b)) = decide (¬a = b)
    exact decide_not.symm
  all_goals rfl

theorem condHolds_call {t : InstrTok} (ht : t ∈ Grammar.grp4CallNames) (a b : Word) :
    condHolds (docOpcode docGroup4 t.text) a b = transferHolds t a b := by
  simp only [Grammar.grp4CallNames, List.mem_cons, List.not_mem_nil, or_false] at ht
  rcases ht with rfl | rfl | rfl | rfl | rfl | rfl | rfl | rfl | rfl | rfl
  case inl =>
    show (!decide (a = b)) = decide (¬a = b)
    exact decide_not.symm
  all_goals rfl

section Opcodes

variable {t : InstrTok}

/-- The operations of group 0 that the assembler knows. -/
theorem aluOp_name (ht : t ∈ Grammar.aluOpNames) (hu : t ≠ .sgtu) (hs : t ≠ .sgts) (b c : Word) :
    aluOp (docOpcode docGroup0 t.text) b c = aluMeaning t b c := by
  simp only [Grammar.aluOpNames, List.mem_cons, List.not_mem_nil, or_false] at ht
  rcases ht with rfl | rfl | rfl | rfl | rfl | rfl | rfl | rfl | rfl | rfl | rfl | rfl | rfl |
    rfl | rfl | rfl
  case inr.inr.inr.inr.inl => exact absurd rfl hu
  case inr.inr.inr.inr.inr.inl => exact absurd rfl hs
  all_goals rfl

theorem immOp_name (ht : t ∈ Grammar.aluOpOneRegOneImmNames) (n : BitVec 64) (pc a b : Word) :
    immOp (docOpcode docGroup1 t.text) (n.setWidth 16) pc a b = aluMeaning t b (uimm n) := by
  simp only [Grammar.aluOpOneRegOneImmNames, List.mem_cons, List.not_mem_nil, or_false] at ht
  rcases ht with rfl | rfl | rfl | rfl | rfl | rfl | rfl | rfl | rfl | rfl | rfl | rfl
  all_goals rfl

theorem immOp_simmName (ht : t ∈ Grammar.simmNames) (n : BitVec 64) (pc a b : Word) :
    immOp (docOpcode docGroup1 t.text) (n.setWidth 16) pc a b = aluMeaning t b (simm n) := by
  simp only [Grammar.simmNames, List.mem_cons, List.not_mem_nil, or_false] at ht
  rcases ht with rfl | rfl
  all_goals rfl

theorem ldstEffect_name (bo : ByteOrder) (ht : t ∈ Grammar.grp5ThreeRegsLdstNames)
    (r : RegIndex) (addr : Word) (a : Arch) :
    (docOpcode docGroup5 t.text).getLsbD 3 = false ∧
      ldstEffect bo (docOpcode docGroup5 t.text) r addr a = ldstMeaning bo t r addr a := by
  simp only [Grammar.grp5ThreeRegsLdstNames, List.mem_cons, List.not_mem_nil, or_false] at ht
  rcases ht with rfl | rfl | rfl | rfl | rfl | rfl | rfl | rfl
  all_goals exact ⟨rfl, rfl⟩

theorem ldstEffect_simmName (bo : ByteOrder) (ht : t ∈ Grammar.grp5TwoRegsOneSimm12LdstNames)
    (r : RegIndex) (addr : Word) (a : Arch) :
    (8 + docOpcode docGroup5Simm t.text).getLsbD 3 = true ∧
      ldstEffect bo (8 + docOpcode docGroup5Simm t.text) r addr a =
        ldstMeaning bo t r addr a := by
  simp only [Grammar.grp5TwoRegsOneSimm12LdstNames, List.mem_cons, List.not_mem_nil,
    or_false] at ht
  rcases ht with rfl | rfl | rfl | rfl | rfl | rfl | rfl | rfl
  all_goals exact ⟨rfl, rfl⟩

end Opcodes

section Lines

variable (bo : ByteOrder) {pc n : BitVec 64} {a : Arch}

/-- **The word of an instruction has its effect.** -/
theorem Instruction.exec_word (i : Instruction) (h : ¬i.Refused) (hpc : a.pc = pc.setWidth 32)
    (hreach : (Line.instruction i).Reaches pc n) :
    exec bo (i.word pc n) a = i.meaning bo n a := by
  cases i with
  | instrOpGrp0ThreeRegs t rA rB rC =>
    obtain ⟨hu, hs, -⟩ : t.val ≠ .sgtu ∧ t.val ≠ .sgts ∧ t.val ≠ .nor := by
      simpa [Refused] using h
    rw [Instruction.word, exec_aluWord, aluOp_name t.property hu hs]
    rfl
  | instrOpGrp1TwoRegsOneImm t rA rB e =>
    have hall : ∀ t ∈ Grammar.grp1TwoRegsOneImmNames, t ∈ Grammar.aluOpOneRegOneImmNames := by
      decide
    rw [Instruction.word, exec_immWord, immOp_name (hall t.val t.property)]
    rfl
  | instrOpGrp1TwoRegsOneSimm t rA rB e =>
    rw [Instruction.word, exec_immWord, immOp_simmName t.property]
    rfl
  | instrOpGrp1OneRegOnePcOneSimm rA e =>
    rw [Instruction.word, exec_immWord]
    rfl
  | instrOpGrp1OneRegOneImm rA e =>
    rw [Instruction.word, exec_immWord]
    rfl
  | instrOpGrp2Branch t rA rB e =>
    obtain ⟨hop, hcond⟩ := condHolds_branch t.property
    rw [Instruction.word, exec_branchWord _ _ _ bo hop, hcond, hpc, branch_address (hreach rfl)]
    rfl
  | instrOpGrp3Jump t rA rB rC =>
    rw [Instruction.word, exec_jumpWord, condHolds_jump t.property]
    rfl
  | instrOpGrp4Call t rA rB rC =>
    rw [Instruction.word, exec_callWord, condHolds_call t.property]
    rfl
  | instrOpGrp5ThreeRegsLdst t rA rB rC =>
    have haddr := (ldstEffect_name bo t.property rA.index 0 a).1
    rw [Instruction.word, exec_ldstWord, haddr, (ldstEffect_name bo t.property _ _ _).2]
    rfl
  | instrOpGrp5TwoRegsOneSimm12Ldst t rA rB e =>
    have haddr := (ldstEffect_simmName bo t.property rA.index 0 a).1
    rw [Instruction.word, exec_ldstWord, haddr, (ldstEffect_simmName bo t.property _ _ _).2]
    rfl
  | instrOpGrp6NoArgs t =>
    obtain ⟨t, ht⟩ := t
    simp only [Grammar.grp6NoArgsNames, List.mem_cons, List.not_mem_nil, or_false] at ht
    rw [Instruction.word, exec_interruptsWord]
    rcases ht with rfl | rfl | rfl
    all_goals rfl
  | instrOpGrp6OneIretaOneReg rA | instrOpGrp6OneRegOneIreta rA
  | instrOpGrp6OneIdstaOneReg rA | instrOpGrp6OneRegOneIdsta rA =>
    rw [Instruction.word, exec_interruptsWord]
    rfl

theorem execWords_append (ws ws' : List Word) :
    execWords bo (ws ++ ws') a = execWords bo ws' (execWords bo ws a) :=
  List.foldl_append

/-- The two words that load a constant. -/
theorem execWords_docCpya (rA : TokReg) :
    execWords bo (docCpya rA.index n) a =
      { a with regs := a.regs.set rA.index (n.setWidth 32), pc := a.pc + 8 } := by
  obtain ⟨words, hwords, hexec⟩ := execWords_cpya bo n rA
  rw [cpyaWords_ok] at hwords
  rw [Except.ok.inj hwords]
  exact hexec a

/-- The constant in `temp`, and one more word. -/
theorem execWords_docCpya_concat (w : Word) :
    execWords bo (docCpya temp n ++ [w]) a =
      exec bo w { a with regs := a.regs.set temp (n.setWidth 32), pc := a.pc + 8 } := by
  rw [execWords_append]
  exact congrArg (exec bo w) (execWords_docCpya bo .temp)

/-- A condition on `zero` twice. -/
theorem condHolds_zero {v : Word} : condHolds 1#4 v v = true :=
  beq_self_eq_true _

/-- **The words of a pseudo-instruction have its effect.** -/
theorem PseudoInstruction.execWords_docWords (p : PseudoInstruction) (h : ¬p.Refused)
    (hpc : a.pc = pc.setWidth 32) (hreach : (Line.pseudoInstruction p).Reaches pc n) :
    execWords bo (p.docWords pc n) a = p.meaning n a := by
  cases p with
  | pseudoInstrOpInv rA rB =>
    refine (exec_aluWord bo rA.index rB.index 0 0xa a).trans ?_
    show setNext rA.index (~~~(a.regs.val rB.index ||| a.regs.val 0#4)) a = _
    rw [a.regs.zero]
    exact congrArg (fun v => setNext rA.index (~~~v) a) BitVec.or_zero
  | pseudoInstrOpInvi rA e =>
    refine (exec_immWord bo rA.index 0 0xa (n.setWidth 16) a).trans ?_
    show setNext rA.index (~~~(a.regs.val 0#4 ||| uimm n)) a = _
    rw [a.regs.zero]
    exact congrArg (fun v => setNext rA.index (~~~v) a) BitVec.zero_or
  | pseudoInstrOpGrpCpy rA rB =>
    cases rB with
    | some rB =>
      refine (exec_aluWord bo rA.index rB.index 0 0 a).trans ?_
      show setNext rA.index (a.regs.val rB.index + a.regs.val 0#4) a = _
      rw [a.regs.zero]
      exact congrArg (fun v => setNext rA.index v a) (BitVec.add_zero _)
    | none =>
      refine (exec_immWord bo rA.index 0 0xe 0 a).trans ?_
      exact congrArg (fun v => setNext rA.index v a) (BitVec.add_zero a.pc)
  | pseudoInstrOpCpyi rA e =>
    refine (exec_immWord bo rA.index 0 0 (n.setWidth 16) a).trans ?_
    show setNext rA.index (a.regs.val 0#4 + uimm n) a = _
    rw [a.regs.zero]
    exact congrArg (fun v => setNext rA.index v a) (BitVec.zero_add _)
  | pseudoInstrOpCpya rA e => exact execWords_docCpya bo rA
  | pseudoInstrOpBra e =>
    refine ((exec_branchWord 0 0 _ bo (by decide) a).trans (if_pos condHolds_zero)).trans ?_
    rw [hpc, branch_address (hreach rfl)]
    rfl
  | pseudoInstrOpJmp rC =>
    exact (exec_jumpWord bo 0 0 rC.index 1 a).trans (if_pos condHolds_zero)
  | pseudoInstrOpCall rC =>
    exact (exec_callWord bo 0 0 rC.index 1 a).trans (if_pos condHolds_zero)
  | pseudoInstrOpJmpa e =>
    refine (execWords_docCpya_concat bo _).trans ?_
    refine ((exec_jumpWord bo 0 0 temp 1 _).trans (if_pos condHolds_zero)).trans ?_
    rw [Regs.set_val_self (by decide)]
    rfl
  | pseudoInstrOpCalla e =>
    refine (execWords_docCpya_concat bo _).trans ?_
    refine ((exec_callWord bo 0 0 temp 1 _).trans (if_pos condHolds_zero)).trans ?_
    rw [Regs.set_val_self (by decide)]
    simp only [following_loaded]
    rfl
  | pseudoInstrOpJmpaCallaConditional t rA rB e =>
    obtain ⟨t, ht⟩ := t
    have hcases : t = .jmpane ∨ t = .jmpaeq ∨ t = .callane ∨ t = .callaeq := by
      simpa [Grammar.jmpaCallaConditionalNames] using ht
    refine (execWords_docCpya_concat bo _).trans ?_
    rcases hcases with rfl | rfl | rfl | rfl
    -- the jumps, then the calls
    case inl | inr.inl =>
      refine (exec_jumpWord bo _ _ _ _ _).trans ?_
      rw [next_loaded, Regs.set_val_self (by decide)]
      rfl
    all_goals
      refine (exec_callWord bo _ _ _ _ _).trans ?_
      rw [next_loaded, Regs.set_val_self (by decide)]
      simp only [following_loaded]
      rfl
  | pseudoInstrOpIncDec t rA =>
    obtain ⟨t, ht⟩ := t
    have hcases : t = .inc ∨ t = .dec := by simpa [Grammar.incDecNames] using ht
    rcases hcases with rfl | rfl
    · exact exec_immWord bo rA.index rA.index 0 1 a
    · exact exec_immWord bo rA.index rA.index 1 1 a
  | pseudoInstrOpAluOpTwoReg t rA rB =>
    obtain ⟨hu, hs⟩ := not_or.mp h
    refine (exec_aluWord bo rA.index rA.index rB.index _ a).trans ?_
    rw [aluOp_name t.property hu hs]
    rfl
  | pseudoInstrOpAluOpOneRegOneImm t rA e =>
    refine (exec_immWord bo rA.index rA.index _ (n.setWidth 16) a).trans ?_
    rw [immOp_name t.property]
    rfl
  | pseudoInstrOpAluOpOneRegOneSimm t rA e =>
    refine (exec_immWord bo rA.index rA.index _ (n.setWidth 16) a).trans ?_
    rw [immOp_simmName t.property]
    rfl

/-- **The words of a line have the effect of the line.** -/
theorem Line.execWords_words (l : Line) (h : ¬l.Refused) (hpc : a.pc = pc.setWidth 32)
    (hreach : l.Reaches pc n) : execWords bo (l.words pc n) a = l.meaning bo n a := by
  cases l with
  | instruction i => exact i.exec_word bo h hpc hreach
  | pseudoInstruction p => exact p.execWords_docWords bo h hpc hreach
  | scopedLines _ | label _ | directive _ | newline => rfl

end Lines

end Frost32.Asm
