import Frost32.Asm.DocWords

namespace Frost32.Asm

open Isa

/-!
# The documented instruction set in the assembler

Every form the instruction set document lists, from the text of its mnemonic to the words.

* `DocForm` — the forms of the document, with their tokens and their words.
* `Accepted` — a line with these tokens can be parsed and is emitted as documented.
* `NoOwnError` — a parsed line ends in no error but one of its operand.
* `comma_notMem` — an operand expression has no comma.
* `acceptance_iff` — **which forms are accepted, and which lines end in an error of their own**.
-/

/-! ### The forms of the document -/

abbrev DocName (names : List String) := { name : String // name ∈ names }

/-- The documented forms; `cpyPc` is `cpy rA, pc`, and `aluTwoRegs` and `aluOneRegOneImm` are
    the forms of groups 0 and 1 that name `rA` once. -/
inductive DocForm
  | group0 (name : DocName docGroup0)
  | group1 (name : DocName docGroup1)
  | addsi | cpyhi
  | group2 (name : DocName docGroup2)
  | group3 (name : DocName docGroup3)
  | group4 (name : DocName docGroup4)
  | group5 (name : DocName docGroup5)
  | group5Simm (name : DocName docGroup5Simm)
  | ei | di | cpyIretaReg | cpyRegIreta | cpyIdstaReg | cpyRegIdsta | reti
  | inv | invi | cpy | cpyPc | cpyi | cpya
  | bra | jmp | call | jmpa | calla
  | jmpane | jmpaeq | callane | callaeq
  | inc | dec
  | aluTwoRegs (name : DocName docGroup0)
  | aluOneRegOneImm (name : DocName docGroup1)

namespace DocForm

def mnemonic : DocForm → String
  | group0 name | aluTwoRegs name => name.val
  | group1 name | aluOneRegOneImm name => name.val
  | addsi => "addsi"
  | cpyhi => "cpyhi"
  | group2 name => name.val
  | group3 name => name.val
  | group4 name => name.val
  | group5 name => name.val
  | group5Simm name => name.val
  | ei => "ei"
  | di => "di"
  | cpyIretaReg | cpyRegIreta | cpyIdstaReg | cpyRegIdsta => "cpy"
  | reti => "reti"
  | inv => "inv"
  | invi => "invi"
  | cpy | cpyPc => "cpy"
  | cpyi => "cpyi"
  | cpya => "cpya"
  | bra => "bra"
  | jmp => "jmp"
  | call => "call"
  | jmpa => "jmpa"
  | calla => "calla"
  | jmpane => "jmpane"
  | jmpaeq => "jmpaeq"
  | callane => "callane"
  | callaeq => "callaeq"
  | inc => "inc"
  | dec => "dec"

variable (rA rB rC : TokReg) (e : Expr)

/-- The operands after the mnemonic; a jump or call to a register names it `rC`. -/
def operands : DocForm → List Tok
  | group0 _ | group3 _ | group4 _ => threeRegToks rA rB rC
  | group1 _ | group2 _ | jmpane | jmpaeq | callane | callaeq =>
    twoRegToks rA rB ++ .comma :: e.tokens
  | addsi => .reg rA :: .comma :: .pcReg :: .comma :: e.tokens
  | cpyhi | invi | cpyi | cpya | aluOneRegOneImm _ => .reg rA :: .comma :: e.tokens
  | group5 _ => .reg rA :: .comma :: .lBracket :: (twoRegToks rB rC ++ [.rBracket])
  | group5Simm _ => .reg rA :: .comma :: .lBracket :: .reg rB :: .comma :: (e.tokens ++ [.rBracket])
  | ei | di | reti => []
  | cpyIretaReg => [.iretaReg, .comma, .reg rA]
  | cpyRegIreta => [.reg rA, .comma, .iretaReg]
  | cpyIdstaReg => [.idstaReg, .comma, .reg rA]
  | cpyRegIdsta => [.reg rA, .comma, .idstaReg]
  | inv | cpy | aluTwoRegs _ => twoRegToks rA rB
  | cpyPc => [.reg rA, .comma, .pcReg]
  | bra | jmpa | calla => e.tokens
  | jmp | call => [.reg rC]
  | inc | dec => [.reg rA]

/-- The tokens of a line of this form. -/
def tokens (f : DocForm) : List Tok := lexWord f.mnemonic :: f.operands rA rB rC e

/-- The documented words at `pc` with operand `n`. -/
def words (a b c : RegIndex) (pc n : BitVec 64) : DocForm → List Word
  | group0 name => [regsWord 0 a b c (docOpcode docGroup0 name)]
  | group1 name => [immWord 1 a b (docOpcode docGroup1 name) (n.setWidth 16)]
  | addsi => [immWord 1 a 0 0xe (n.setWidth 16)]
  | cpyhi => [immWord 1 a 0 0xf (n.setWidth 16)]
  | group2 name => [immWord 2 a b (docOpcode docGroup2 name) ((n - pc - 4).setWidth 16)]
  | group3 name => [regsWord 3 a b c (docOpcode docGroup3 name)]
  | group4 name => [regsWord 4 a b c (docOpcode docGroup4 name)]
  | group5 name => [ldstWord a b c 0 (docOpcode docGroup5 name)]
  | group5Simm name => [ldstWord a b 0 (n.setWidth 12) (8 + docOpcode docGroup5Simm name)]
  | ei => [regsWord 6 0 0 0 0]
  | di => [regsWord 6 0 0 0 1]
  | cpyIretaReg => [regsWord 6 a 0 0 2]
  | cpyRegIreta => [regsWord 6 a 0 0 3]
  | cpyIdstaReg => [regsWord 6 a 0 0 4]
  | cpyRegIdsta => [regsWord 6 a 0 0 5]
  | reti => [regsWord 6 0 0 0 6]
  | inv => [regsWord 0 a b 0 0xa]
  | invi => [immWord 1 a 0 0xa (n.setWidth 16)]
  | cpy => [regsWord 0 a b 0 0]
  | cpyPc => [immWord 1 a 0 0xe 0]
  | cpyi => [immWord 1 a 0 0 (n.setWidth 16)]
  | cpya => docCpya a n
  | bra => [immWord 2 0 0 1 ((n - pc - 4).setWidth 16)]
  | jmp => [regsWord 3 0 0 c 1]
  | call => [regsWord 4 0 0 c 1]
  | jmpa => docCpya temp n ++ [regsWord 3 0 0 temp 1]
  | calla => docCpya temp n ++ [regsWord 4 0 0 temp 1]
  | jmpane => docCpya temp n ++ [regsWord 3 a b temp 0]
  | jmpaeq => docCpya temp n ++ [regsWord 3 a b temp 1]
  | callane => docCpya temp n ++ [regsWord 4 a b temp 0]
  | callaeq => docCpya temp n ++ [regsWord 4 a b temp 1]
  | inc => [immWord 1 a a 0 1]
  | dec => [immWord 1 a a 1 1]
  | aluTwoRegs name => [regsWord 0 a a b (docOpcode docGroup0 name)]
  | aluOneRegOneImm name => [immWord 1 a a (docOpcode docGroup1 name) (n.setWidth 16)]

/-- `sgtu` and `sgts` are spelled differently in the lexer, the visitor of the form with three
    registers leaves `nor` out, and the grammar leaves out `nori` with two registers. -/
def Unaccepted : DocForm → Prop
  | group0 name => name.val = "sgtu" ∨ name.val = "sgts" ∨ name.val = "nor"
  | group1 name => name.val = "nori"
  | aluTwoRegs name => name.val = "sgtu" ∨ name.val = "sgts"
  | _ => False

end DocForm

/-! ### Lines -/

/-- The line is an instruction or a pseudo-instruction with these tokens. -/
def Line.Derives (ts : List Tok) : Line → Prop
  | .instruction i => i.tokens = ts
  | .pseudoInstruction p => p.tokens = ts
  | _ => False

/-- The operand expression of an instruction or a pseudo-instruction. -/
def Line.operand : Line → List Expr
  | .instruction i => i.exprs
  | .pseudoInstruction p => p.exprs
  | _ => []

/-- In either pass, the line emits the words and does nothing else but warn, wherever its
    operand has a value. -/
def Line.Emits (words : (pc n : BitVec 64) → List Word) (l : Line) : Prop :=
  ∀ (s : Assembler) (n : BitVec 64), operandValue s.env l.operand = .ok n →
    ∃ warnings, (visitLine l).run s =
      .ok ((), s.perform { warnings := warnings, data := (words s.pc.curr n).map .b32 })

/-- A line of the form can be parsed and emits the documented words. -/
def Accepted (f : DocForm) (rA rB rC : TokReg) (e : Expr) : Prop :=
  ∃ l : Line, l.Derives (f.tokens rA rB rC e) ∧
    l.Emits fun pc n => f.words rA.index rB.index rC.index pc n

/-- Every error of the line is one of its operand: no look-up throws and no chain of tokens
    ends in `Eek`. -/
def NoOwnError (l : Line) : Prop :=
  ∀ (s : Assembler) (err : AsmError), (visitLine l).run s = .error err →
    ∃ e ∈ l.operand, e.eval s.env = .error err

section Lines

variable {l : Line} {r : Env → Except AsmError Effect}

theorem Line.Emits.of_encodes {w : BitVec 64 → BitVec 64 → List Word}
    (hrun : ∀ s : Assembler, (visitLine l).run s = performing s (r s.env))
    (h : ∀ env, Encodes env l.operand (r env) (w env.pc)) : l.Emits w := by
  intro s n hn
  obtain ⟨warnings, hr⟩ := h s.env
  refine ⟨warnings n, ?_⟩
  rw [hrun, hr, hn]
  rfl

theorem NoOwnError.of_encodes {w : BitVec 64 → BitVec 64 → List Word}
    (hrun : ∀ s : Assembler, (visitLine l).run s = performing s (r s.env))
    (h : ∀ env, Encodes env l.operand (r env) (w env.pc)) : NoOwnError l := by
  intro s err herr
  obtain ⟨warnings, hr⟩ := h s.env
  rw [hrun, hr] at herr
  -- a line without an operand never fails
  cases hops : l.operand with
  | nil =>
    rw [hops] at herr
    cases herr
  | cons e es =>
    refine ⟨e, List.mem_cons_self, ?_⟩
    rw [hops] at herr
    have herr : performing s ((e.eval s.env).map _) = .error err := herr
    cases heval : e.eval s.env with
    | error err' =>
      rw [heval] at herr
      cases herr
      rfl
    | ok n =>
      rw [heval] at herr
      cases herr

/-- A line without an operand that ends in an error. -/
theorem not_noOwnError {err : AsmError} (hops : l.operand = [])
    (h : (visitLine l).run (.init true) = .error err) : ¬NoOwnError l := by
  intro hown
  obtain ⟨e, he, -⟩ := hown _ err h
  rw [hops] at he
  cases he

end Lines

theorem visitLine_instruction (i : Instruction) (s : Assembler) :
    (visitLine (.instruction i)).run s = performing s (i.effect s.env) := by
  rw [visitLine]
  exact visitInstruction_run i s

theorem visitLine_pseudoInstruction (p : PseudoInstruction) (s : Assembler) :
    (visitLine (.pseudoInstruction p)).run s = performing s (p.effect s.env) := by
  rw [visitLine]
  exact visitPseudoInstruction_run p s

/-- The effect of an instruction or a pseudo-instruction. -/
def Line.effect (env : Env) : Line → Except AsmError Effect
  | .instruction i => i.effect env
  | .pseudoInstruction p => p.effect env
  | _ => .ok {}

/-- **Which instruction lines end in an error of their own.** -/
theorem noOwnError_instruction (i : Instruction) :
    NoOwnError (.instruction i) ↔ ¬i.Refused := by
  constructor
  · intro hown hrefused
    cases i with
    | instrOpGrp0ThreeRegs t rA rB rC =>
      obtain ⟨t, ht⟩ := t
      rcases hrefused with rfl | rfl | rfl
      all_goals exact not_noOwnError rfl (visitLine_instruction _ _) hown
    | _ => exact hrefused
  · intro h
    exact .of_encodes (r := fun env => i.effect env) (w := fun pc n => [i.word pc n])
      (visitLine_instruction i) fun env => i.encodes env h

theorem noOwnError_pseudoInstruction (p : PseudoInstruction) :
    NoOwnError (.pseudoInstruction p) ↔ ¬p.Refused := by
  constructor
  · intro hown hrefused
    cases p with
    | pseudoInstrOpAluOpTwoReg t rA rB =>
      obtain ⟨t, ht⟩ := t
      rcases hrefused with rfl | rfl
      all_goals exact not_noOwnError rfl (visitLine_pseudoInstruction _ _) hown
    | _ => exact hrefused
  · intro h
    exact .of_encodes (r := fun env => p.effect env) (w := fun pc n => p.docWords pc n)
      (visitLine_pseudoInstruction p) fun env => p.encodes env h

/-! ### Operand expressions have no comma -/

theorem comma_notMem_identName (n : IdentName) : Tok.comma ∉ n.tokens := by
  cases n <;> simp [IdentName.tokens]

theorem comma_notMem_numExpr (n : NumExpr) : Tok.comma ∉ n.tokens := by
  cases n <;> simp [NumExpr.tokens]

mutual

theorem Expr.comma_notMem : (e : Expr) → Tok.comma ∉ e.tokens
  | .exprLogical e => by simpa [Expr.tokens] using e.comma_notMem
  | .opLogical l op r => by simp [Expr.tokens, l.comma_notMem, r.comma_notMem]

theorem ExprLogical.comma_notMem : (e : ExprLogical) → Tok.comma ∉ e.tokens
  | .exprCompare e => by simpa [ExprLogical.tokens] using e.comma_notMem
  | .opCompare l op r => by simp [ExprLogical.tokens, l.comma_notMem, r.comma_notMem]

theorem ExprCompare.comma_notMem : (e : ExprCompare) → Tok.comma ∉ e.tokens
  | .exprAddSub e => by simpa [ExprCompare.tokens] using e.comma_notMem
  | .exprJustAdd l r => by simp [ExprCompare.tokens, l.comma_notMem, r.comma_notMem]
  | .exprJustSub l r => by simp [ExprCompare.tokens, l.comma_notMem, r.comma_notMem]

theorem ExprAddSub.comma_notMem : (e : ExprAddSub) → Tok.comma ∉ e.tokens
  | .exprMulDivModEtc e => by simpa [ExprAddSub.tokens] using e.comma_notMem
  | .opMulDivMod l op r => by simp [ExprAddSub.tokens, l.comma_notMem, r.comma_notMem]
  | .opBitwise l op r => by simp [ExprAddSub.tokens, l.comma_notMem, r.comma_notMem]

theorem ExprMulDivModEtc.comma_notMem : (e : ExprMulDivModEtc) → Tok.comma ∉ e.tokens
  | .exprUnary e => by simpa [ExprMulDivModEtc.tokens] using e.comma_notMem
  | .numExpr n => by simpa [ExprMulDivModEtc.tokens] using comma_notMem_numExpr n
  | .identName n => by simpa [ExprMulDivModEtc.tokens] using comma_notMem_identName n
  | .currPc => by simp [ExprMulDivModEtc.tokens]
  | .paren e => by simp [ExprMulDivModEtc.tokens, e.comma_notMem]

theorem ExprUnary.comma_notMem : (e : ExprUnary) → Tok.comma ∉ e.tokens
  | .exprBitInvert e => by simp [ExprUnary.tokens, e.comma_notMem]
  | .exprNegate e => by simp [ExprUnary.tokens, e.comma_notMem]
  | .exprLogNot e => by simp [ExprUnary.tokens, e.comma_notMem]

end

/-! ### The accepted forms -/

section Forms

variable {f : DocForm} {rA rB rC : TokReg} {e : Expr}

theorem DocForm.tokens_eq {tok : Tok} (hlex : lexWord f.mnemonic = tok) :
    f.tokens rA rB rC e = tok :: f.operands rA rB rC e := by
  rw [DocForm.tokens, hlex]

/-- A form whose mnemonic is lexed as `tok`, with which the instruction starts. -/
theorem Accepted.of_instruction {i : Instruction} {tok : Tok}
    (hlex : lexWord f.mnemonic = tok) (htokens : i.tokens = tok :: f.operands rA rB rC e)
    (h : ¬i.Refused)
    (hwords : ∀ pc n, [i.word pc n] = f.words rA.index rB.index rC.index pc n) :
    Accepted f rA rB rC e := by
  refine ⟨.instruction i, htokens.trans (DocForm.tokens_eq hlex).symm, ?_⟩
  simp only [← hwords]
  exact .of_encodes (r := fun env => i.effect env) (w := fun pc n => [i.word pc n])
    (visitLine_instruction i) fun env => i.encodes env h

theorem Accepted.of_pseudoInstruction {p : PseudoInstruction} {tok : Tok}
    (hlex : lexWord f.mnemonic = tok) (htokens : p.tokens = tok :: f.operands rA rB rC e)
    (h : ¬p.Refused)
    (hwords : ∀ pc n, p.docWords pc n = f.words rA.index rB.index rC.index pc n) :
    Accepted f rA rB rC e := by
  refine ⟨.pseudoInstruction p, htokens.trans (DocForm.tokens_eq hlex).symm, ?_⟩
  simp only [← hwords]
  exact .of_encodes (r := fun env => p.effect env) (w := fun pc n => p.docWords pc n)
    (visitLine_pseudoInstruction p) fun env => p.encodes env h

/-- A documented name that the lexer knows under this spelling, as one of the alternatives of
    a rule. -/
theorem exists_instrTok {names : List String} (alternatives : List InstrTok)
    (h : ∀ n ∈ names, ∃ t ∈ alternatives, lexWord n = .instrName t ∧ t.text = n)
    (name : DocName names) :
    ∃ t : InstrChoice alternatives, lexWord name = .instrName t ∧ t.val.text = name := by
  obtain ⟨t, ht, hlex, htext⟩ := h name.val name.property
  exact ⟨⟨t, ht⟩, hlex, htext⟩

/-- Each other name of group 0 is lexed as the mnemonic it is the text of. -/
theorem exists_aluOpName (name : DocName docGroup0) (hu : name.val ≠ "sgtu")
    (hs : name.val ≠ "sgts") :
    ∃ t ∈ Grammar.aluOpNames, (t ≠ .sgtu ∧ t ≠ .sgts) ∧
      lexWord name = .instrName t ∧ t.text = name := by
  have hall : ∀ n ∈ docGroup0, n ≠ "sgtu" → n ≠ "sgts" →
      ∃ t ∈ Grammar.aluOpNames, (t ≠ .sgtu ∧ t ≠ .sgts) ∧
        lexWord n = .instrName t ∧ t.text = n := by decide
  exact hall name.val name.property hu hs

/-- A form whose opcode is the number of its name, `word` being the word for each name: the
    visitor looks up the text of the token, which is the documented name. -/
theorem Accepted.of_named {i : Instruction} {t : InstrTok}
    (word : String → BitVec 64 → BitVec 64 → Word) (hlex : lexWord f.mnemonic = .instrName t)
    (htext : t.text = f.mnemonic) (htokens : i.tokens = .instrName t :: f.operands rA rB rC e)
    (h : ¬i.Refused) (hword : ∀ pc n, i.word pc n = word t.text pc n)
    (hwords : ∀ pc n,
      f.words rA.index rB.index rC.index pc n = [word f.mnemonic pc n]) :
    Accepted f rA rB rC e := by
  refine .of_instruction hlex htokens h ?_
  intro pc n
  rw [hword, htext, hwords]

theorem Accepted.of_named_pseudo {p : PseudoInstruction} {t : InstrTok}
    (word : String → BitVec 64 → BitVec 64 → Word) (hlex : lexWord f.mnemonic = .instrName t)
    (htext : t.text = f.mnemonic) (htokens : p.tokens = .instrName t :: f.operands rA rB rC e)
    (h : ¬p.Refused) (hword : ∀ pc n, p.docWords pc n = [word t.text pc n])
    (hwords : ∀ pc n,
      f.words rA.index rB.index rC.index pc n = [word f.mnemonic pc n]) :
    Accepted f rA rB rC e := by
  refine .of_pseudoInstruction hlex htokens h ?_
  intro pc n
  rw [hword, htext, hwords]

end Forms

theorem accepted_of_not_unaccepted (f : DocForm) (rA rB rC : TokReg) (e : Expr)
    (h : ¬f.Unaccepted) : Accepted f rA rB rC e := by
  cases f with
  | group0 name =>
    obtain ⟨hu, hs, hn⟩ : name.val ≠ "sgtu" ∧ name.val ≠ "sgts" ∧ name.val ≠ "nor" := by
      simpa [DocForm.Unaccepted] using h
    obtain ⟨t, ht, ⟨htu, hts⟩, hlex, htext⟩ := exists_aluOpName name hu hs
    have htn : t ≠ .nor := by
      rintro rfl
      exact hn htext.symm
    have hnr : ¬(Instruction.instrOpGrp0ThreeRegs ⟨t, ht⟩ rA rB rC).Refused := by
      simpa [Instruction.Refused] using ⟨htu, hts, htn⟩
    exact .of_named (fun s _ _ => regsWord 0 rA.index rB.index rC.index (docOpcode docGroup0 s))
      hlex htext rfl hnr (fun _ _ => rfl) fun _ _ => rfl
  | group1 name =>
    -- the grammar has the sign extended immediates under a rule of their own
    have hall : ∀ n ∈ docGroup1, n ≠ "nori" →
        (∃ t ∈ Grammar.grp1TwoRegsOneImmNames, lexWord n = .instrName t ∧ t.text = n) ∨
          ∃ t ∈ Grammar.simmNames, lexWord n = .instrName t ∧ t.text = n := by decide
    rcases hall name.val name.property h with ⟨t, ht, hlex, htext⟩ | ⟨t, ht, hlex, htext⟩
    · exact .of_named (i := .instrOpGrp1TwoRegsOneImm ⟨t, ht⟩ rA rB e)
        (fun s _ n => immWord 1 rA.index rB.index (docOpcode docGroup1 s) (n.setWidth 16))
        hlex htext rfl id (fun _ _ => rfl) fun _ _ => rfl
    · exact .of_named (i := .instrOpGrp1TwoRegsOneSimm ⟨t, ht⟩ rA rB e)
        (fun s _ n => immWord 1 rA.index rB.index (docOpcode docGroup1 s) (n.setWidth 16))
        hlex htext rfl id (fun _ _ => rfl) fun _ _ => rfl
  | group2 name =>
    obtain ⟨t, hlex, htext⟩ := exists_instrTok Grammar.grp2BranchNames (by decide) name
    exact .of_named (i := .instrOpGrp2Branch t rA rB e)
      (fun s pc n => immWord 2 rA.index rB.index (docOpcode docGroup2 s)
        ((n - pc - 4).setWidth 16))
      hlex htext rfl id (fun _ _ => rfl) fun _ _ => rfl
  | group3 name =>
    obtain ⟨t, hlex, htext⟩ := exists_instrTok Grammar.grp3JumpNames (by decide) name
    exact .of_named (i := .instrOpGrp3Jump t rA rB rC)
      (fun s _ _ => regsWord 3 rA.index rB.index rC.index (docOpcode docGroup3 s))
      hlex htext rfl id (fun _ _ => rfl) fun _ _ => rfl
  | group4 name =>
    obtain ⟨t, hlex, htext⟩ := exists_instrTok Grammar.grp4CallNames (by decide) name
    exact .of_named (i := .instrOpGrp4Call t rA rB rC)
      (fun s _ _ => regsWord 4 rA.index rB.index rC.index (docOpcode docGroup4 s))
      hlex htext rfl id (fun _ _ => rfl) fun _ _ => rfl
  | group5 name =>
    obtain ⟨t, hlex, htext⟩ := exists_instrTok Grammar.grp5ThreeRegsLdstNames (by decide) name
    exact .of_named (i := .instrOpGrp5ThreeRegsLdst t rA rB rC)
      (fun s _ _ => ldstWord rA.index rB.index rC.index 0 (docOpcode docGroup5 s))
      hlex htext rfl id (fun _ _ => rfl) fun _ _ => rfl
  | group5Simm name =>
    obtain ⟨t, hlex, htext⟩ :=
      exists_instrTok Grammar.grp5TwoRegsOneSimm12LdstNames (by decide) name
    exact .of_named (i := .instrOpGrp5TwoRegsOneSimm12Ldst t rA rB e)
      (fun s _ n => ldstWord rA.index rB.index 0 (n.setWidth 12) (8 + docOpcode docGroup5Simm s))
      hlex htext rfl id (fun _ _ => rfl) fun _ _ => rfl
  | aluTwoRegs name =>
    obtain ⟨hu, hs⟩ := not_or.mp h
    obtain ⟨t, ht, hspelled, hlex, htext⟩ := exists_aluOpName name hu hs
    exact .of_named_pseudo (p := .pseudoInstrOpAluOpTwoReg ⟨t, ht⟩ rA rB)
      (fun s _ _ => regsWord 0 rA.index rA.index rB.index (docOpcode docGroup0 s))
      hlex htext rfl (not_or.mpr hspelled) (fun _ _ => rfl) fun _ _ => rfl
  | aluOneRegOneImm name =>
    have hall : ∀ n ∈ docGroup1,
        (∃ t ∈ Grammar.aluOpOneRegOneImmNames, lexWord n = .instrName t ∧ t.text = n) ∨
          ∃ t ∈ Grammar.simmNames, lexWord n = .instrName t ∧ t.text = n := by decide
    rcases hall name.val name.property with ⟨t, ht, hlex, htext⟩ | ⟨t, ht, hlex, htext⟩
    · exact .of_named_pseudo (p := .pseudoInstrOpAluOpOneRegOneImm ⟨t, ht⟩ rA e)
        (fun s _ n => immWord 1 rA.index rA.index (docOpcode docGroup1 s) (n.setWidth 16))
        hlex htext rfl id (fun _ _ => rfl) fun _ _ => rfl
    · exact .of_named_pseudo (p := .pseudoInstrOpAluOpOneRegOneSimm ⟨t, ht⟩ rA e)
        (fun s _ n => immWord 1 rA.index rA.index (docOpcode docGroup1 s) (n.setWidth 16))
        hlex htext rfl id (fun _ _ => rfl) fun _ _ => rfl
  -- the other forms have one name each
  | addsi =>
    exact .of_instruction (i := .instrOpGrp1OneRegOnePcOneSimm rA e)
      (by decide) rfl id fun _ _ => rfl
  | cpyhi =>
    exact .of_instruction (i := .instrOpGrp1OneRegOneImm rA e)
      (by decide) rfl id fun _ _ => rfl
  | ei =>
    exact .of_instruction (i := .instrOpGrp6NoArgs ⟨.ei, by decide⟩)
      (by decide) rfl id fun _ _ => rfl
  | di =>
    exact .of_instruction (i := .instrOpGrp6NoArgs ⟨.di, by decide⟩)
      (by decide) rfl id fun _ _ => rfl
  | cpyIretaReg =>
    exact .of_instruction (i := .instrOpGrp6OneIretaOneReg rA)
      (by decide) rfl id fun _ _ => rfl
  | cpyRegIreta =>
    exact .of_instruction (i := .instrOpGrp6OneRegOneIreta rA)
      (by decide) rfl id fun _ _ => rfl
  | cpyIdstaReg =>
    exact .of_instruction (i := .instrOpGrp6OneIdstaOneReg rA)
      (by decide) rfl id fun _ _ => rfl
  | cpyRegIdsta =>
    exact .of_instruction (i := .instrOpGrp6OneRegOneIdsta rA)
      (by decide) rfl id fun _ _ => rfl
  | reti =>
    exact .of_instruction (i := .instrOpGrp6NoArgs ⟨.reti, by decide⟩)
      (by decide) rfl id fun _ _ => rfl
  | inv =>
    exact .of_pseudoInstruction (p := .pseudoInstrOpInv rA rB)
      (by decide) rfl id fun _ _ => rfl
  | invi =>
    exact .of_pseudoInstruction (p := .pseudoInstrOpInvi rA e)
      (by decide) rfl id fun _ _ => rfl
  | cpy =>
    exact .of_pseudoInstruction (p := .pseudoInstrOpGrpCpy rA (some rB))
      (by decide) rfl id fun _ _ => rfl
  | cpyPc =>
    exact .of_pseudoInstruction (p := .pseudoInstrOpGrpCpy rA none)
      (by decide) rfl id fun _ _ => rfl
  | cpyi =>
    exact .of_pseudoInstruction (p := .pseudoInstrOpCpyi rA e)
      (by decide) rfl id fun _ _ => rfl
  | cpya =>
    exact .of_pseudoInstruction (p := .pseudoInstrOpCpya rA e)
      (by decide) rfl id fun _ _ => rfl
  | bra =>
    exact .of_pseudoInstruction (p := .pseudoInstrOpBra e)
      (by decide) rfl id fun _ _ => rfl
  | jmp =>
    exact .of_pseudoInstruction (p := .pseudoInstrOpJmp rC)
      (by decide) rfl id fun _ _ => rfl
  | call =>
    exact .of_pseudoInstruction (p := .pseudoInstrOpCall rC)
      (by decide) rfl id fun _ _ => rfl
  | jmpa =>
    exact .of_pseudoInstruction (p := .pseudoInstrOpJmpa e)
      (by decide) rfl id fun _ _ => rfl
  | calla =>
    exact .of_pseudoInstruction (p := .pseudoInstrOpCalla e)
      (by decide) rfl id fun _ _ => rfl
  | jmpane =>
    exact .of_pseudoInstruction
      (p := .pseudoInstrOpJmpaCallaConditional ⟨.jmpane, by decide⟩ rA rB e)
      (by decide) rfl id fun _ _ => rfl
  | jmpaeq =>
    exact .of_pseudoInstruction
      (p := .pseudoInstrOpJmpaCallaConditional ⟨.jmpaeq, by decide⟩ rA rB e)
      (by decide) rfl id fun _ _ => rfl
  | callane =>
    exact .of_pseudoInstruction
      (p := .pseudoInstrOpJmpaCallaConditional ⟨.callane, by decide⟩ rA rB e)
      (by decide) rfl id fun _ _ => rfl
  | callaeq =>
    exact .of_pseudoInstruction
      (p := .pseudoInstrOpJmpaCallaConditional ⟨.callaeq, by decide⟩ rA rB e)
      (by decide) rfl id fun _ _ => rfl
  | inc =>
    exact .of_pseudoInstruction (p := .pseudoInstrOpIncDec ⟨.inc, by decide⟩ rA)
      (by decide) rfl id fun _ _ => rfl
  | dec =>
    exact .of_pseudoInstruction (p := .pseudoInstrOpIncDec ⟨.dec, by decide⟩ rA)
      (by decide) rfl id fun _ _ => rfl

/-! ### The forms that are not accepted -/

/-- No line starts with a name that is no mnemonic of the lexer. -/
theorem Line.not_derives_ident (l : Line) (name : String) (ts : List Tok) :
    ¬l.Derives (.ident name :: ts) := by
  intro h
  cases l with
  | instruction i =>
    have h : i.tokens = _ := h
    cases i <;> cases h
  | pseudoInstruction p =>
    have h : p.tokens = _ := h
    cases p with
    | pseudoInstrOpGrpCpy rA rB => cases rB <;> cases h
    | _ => cases h
  | _ => exact h

/-- The rule of a line lists its name. -/
theorem name_mem {names : List InstrTok} {t : InstrChoice names} {name : InstrTok}
    {ts ts' : List Tok} (h : .instrName t.val :: ts = Tok.instrName name :: ts') :
    name ∈ names :=
  Tok.instrName.inj (List.cons.inj h).1 ▸ t.property

/-- The only reading of `nor` with three registers. -/
theorem Line.eq_of_derives_nor {l : Line} {rA rB rC : TokReg}
    (h : l.Derives (.instrName .nor :: threeRegToks rA rB rC)) :
    l = .instruction (.instrOpGrp0ThreeRegs ⟨.nor, by decide⟩ rA rB rC) := by
  cases l with
  | instruction i =>
    have h : i.tokens = _ := h
    cases i with
    | instrOpGrp0ThreeRegs t r₁ r₂ r₃ =>
      obtain ⟨t, ht⟩ := t
      cases h
      rfl
    | instrOpGrp1TwoRegsOneImm | instrOpGrp1TwoRegsOneSimm | instrOpGrp2Branch | instrOpGrp3Jump
    | instrOpGrp4Call | instrOpGrp5ThreeRegsLdst | instrOpGrp5TwoRegsOneSimm12Ldst
    | instrOpGrp6NoArgs => exact absurd (name_mem h) (by decide)
    | _ => cases h
  | pseudoInstruction p =>
    have h : p.tokens = _ := h
    cases p with
    | pseudoInstrOpGrpCpy rA rB => cases rB <;> cases h
    | pseudoInstrOpAluOpTwoReg t r₁ r₂ =>
      obtain ⟨t, ht⟩ := t
      cases h
    | pseudoInstrOpAluOpOneRegOneImm | pseudoInstrOpAluOpOneRegOneSimm =>
      exact absurd (name_mem h) (by decide)
    | _ => cases h
  | _ => exact h.elim

/-- `nori` has one register in the grammar: what follows it would be an expression with a
    comma. -/
theorem Line.not_derives_nori (l : Line) (rA rB : TokReg) (e : Expr) :
    ¬l.Derives (.instrName .nori :: (twoRegToks rA rB ++ .comma :: e.tokens)) := by
  intro h
  cases l with
  | instruction i =>
    have h : i.tokens = _ := h
    cases i with
    | instrOpGrp0ThreeRegs | instrOpGrp1TwoRegsOneImm | instrOpGrp1TwoRegsOneSimm
    | instrOpGrp2Branch | instrOpGrp3Jump | instrOpGrp4Call | instrOpGrp5ThreeRegsLdst
    | instrOpGrp5TwoRegsOneSimm12Ldst | instrOpGrp6NoArgs =>
      exact absurd (name_mem h) (by decide)
    | _ => cases h
  | pseudoInstruction p =>
    have h : p.tokens = _ := h
    cases p with
    | pseudoInstrOpGrpCpy rA rB => cases rB <;> cases h
    | pseudoInstrOpAluOpOneRegOneImm t r₁ e' =>
      -- the expression would have to go on at the second register
      have htail : e'.tokens = .reg rB :: .comma :: e.tokens :=
        (List.cons.inj (List.cons.inj (List.cons.inj h).2).2).2
      apply e'.comma_notMem
      rw [htail]
      exact List.mem_cons_of_mem _ List.mem_cons_self
    | pseudoInstrOpAluOpTwoReg | pseudoInstrOpAluOpOneRegOneSimm =>
      exact absurd (name_mem h) (by decide)
    | _ => cases h
  | _ => exact h

theorem not_accepted_of_unaccepted (f : DocForm) (rA rB rC : TokReg) (e : Expr)
    (h : f.Unaccepted) : ¬Accepted f rA rB rC e := by
  rintro ⟨l, hderives, hemits⟩
  cases f with
  | group0 name =>
    obtain ⟨name, hname⟩ := name
    rcases h with rfl | rfl | rfl
    · exact l.not_derives_ident "sgtu" _ hderives
    · exact l.not_derives_ident "sgts" _ hderives
    · -- the only parse ends in the `Eek` of its visitor
      have hnor := Line.eq_of_derives_nor hderives
      subst hnor
      obtain ⟨warnings, hrun⟩ := hemits (.init true) 0 rfl
      rw [visitLine_instruction] at hrun
      cases hrun
  | group1 name =>
    obtain ⟨name, hname⟩ := name
    have h : name = "nori" := h
    subst h
    exact l.not_derives_nori rA rB e hderives
  | aluTwoRegs name =>
    obtain ⟨name, hname⟩ := name
    rcases h with rfl | rfl
    · exact l.not_derives_ident "sgtu" _ hderives
    · exact l.not_derives_ident "sgts" _ hderives
  | _ => exact h

/-- **The assembler accepts a documented form exactly where** its name is spelled in the lexer
    as in the document, it is not `nor` with three registers and not `nori` with two; **and a
    parsed line ends in no error of its own exactly where** it is none of the first two kinds. -/
theorem acceptance_iff (f : DocForm) (rA rB rC : TokReg) (e : Expr) (i : Instruction)
    (p : PseudoInstruction) :
    (Accepted f rA rB rC e ↔ ¬f.Unaccepted) ∧ (NoOwnError (.instruction i) ↔ ¬i.Refused) ∧
      (NoOwnError (.pseudoInstruction p) ↔ ¬p.Refused) := by
  refine ⟨?_, noOwnError_instruction i, noOwnError_pseudoInstruction p⟩
  constructor
  · intro haccepted hunaccepted
    exact not_accepted_of_unaccepted f rA rB rC e hunaccepted haccepted
  · exact accepted_of_not_unaccepted f rA rB rC e

/-- `sgtu u0, u1, u2` cannot be parsed, and `nor u0, u1, u2` ends in the visitor's `Eek`. -/
theorem sgtu_not_accepted :
    ¬Accepted (.group0 ⟨"sgtu", by decide⟩) .u0 .u1 .u2 (.ofAtom .currPc) ∧
      (visitLine (.instruction (.instrOpGrp0ThreeRegs ⟨.nor, by decide⟩ .u0 .u1 .u2))).run
        (.init true) = .error (.err "visitInstrOpGrp0ThreeRegs():  Eek!") := by
  refine ⟨?_, visitLine_instruction _ _⟩
  exact not_accepted_of_unaccepted _ _ _ _ _ (.inl rfl)

end Frost32.Asm
