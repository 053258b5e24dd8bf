import Frost32.Asm.Lexer
import Frost32.Asm.Parser
import Frost32.Asm.DisassembleWord
import Frost32.Asm.DocWords

namespace Frost32.Asm

open Grammar Isa

/-!
# The text of a listing as source

The lines that the disassembler prints, read by the lexer of the assembler.

* `hexExpr` — the constant that is printed for a number, and its value.
* `rowText` — a name, a space, and operands with `, ` between them; `spells_row` — **this spells
  the tokens of the row**.
* `Instruction.Listable`, `Instruction.listed` — the instructions that are listed as themselves,
  with the immediate that is shown.
* `Instruction.visitWord_word` — **the line for the word of such an instruction is its text.**
-/

/-! ### Constants -/

/-- The number as it is printed. -/
def hexDigits {w : Nat} (n : BitVec w) : Digits isHexDigit :=
  ⟨hexText n, Nat.toDigits_ne_nil,
    List.all_eq_true.mpr fun _ hc => isHexDigit_of_mem_toDigits hc⟩

def hexExpr {w : Nat} (n : BitVec w) : Expr := .ofAtom (.numExpr (.hexNum (hexDigits n)))

section HexExpr

variable {w : Nat} (n : BitVec w)

theorem hexExpr_tokens : (hexExpr n).tokens = [.hexNum (hexDigits n)] := rfl

theorem prefixesLast_hexExpr : PrefixesLast (hexExpr n).tokens := rfl

/-- Its value is the number, if 64 bits hold it. -/
theorem eval_hexExpr (env : Env) : (hexExpr n).eval env = .ok (n.setWidth 64) := by
  have hvalue : hexValue (0 : BitVec 64) (hexDigits n).val = some (BitVec.ofNat 64 n.toNat) :=
    hexValue_toDigits n.toNat
  have heval : (hexExpr n).eval env = NumExpr.eval (.hexNum (hexDigits n)) := rfl
  rw [heval, NumExpr.eval, hvalue]
  exact congrArg Except.ok (BitVec.ofNat_toNat 64 n)

end HexExpr

/-! ### Rows -/

/-- A name and its operands as they are printed. -/
def rowText (name : Tok) (operands : List (List Tok)) : List Char :=
  name.text ++ ' ' :: [',', ' '].intercalate (operands.map fun o => o.flatMap Tok.text)

/-- The texts of the tokens, one right after the other, are read before a comma and before a
    new line. -/
def ReadsTight (o : List Tok) : Prop :=
  ∀ c, c = ',' ∨ c = '\n' → ∀ {ts cs}, Spells ts (c :: cs) →
    Spells (o ++ ts) (o.flatMap Tok.text ++ c :: cs)

theorem Spells.cons {ts : List Tok} {cs : List Char} {c : Char} {t : Tok} (h : Spells ts (c :: cs))
    (ht : t.Lexical) (hc : t.joins c = false) : Spells (t :: ts) (t.text ++ c :: cs) := by
  refine .token t ht (fun x hx => ?_) h
  cases hx
  exact hc

/-- A character with which only its own text starts joins nothing. -/
theorem joinsFixed_alone {d : Char} (h : ∀ u ∈ fixedToks, u.text.head? = some d → u.text = [d])
    (hd : d ≠ '/' ∧ isIdentStart d = false) (c : Char) : joinsFixed [d] c = false := by
  have hno : ∀ u ∈ fixedToks, ¬[d] ++ [c] <+: u.text := by
    rintro u hu ⟨us, hus⟩
    have hone := h u hu (by rw [← hus]; rfl)
    rw [hone] at hus
    exact absurd (congrArg List.length hus) (by simp)
  simp only [joinsFixed, Bool.or_eq_false_iff, List.any_eq_false, List.isPrefixOf_iff_prefix]
  exact ⟨⟨hno, by simp [hd.1]⟩, by simp [hd.2]⟩

/-- Nothing joins a delimiter. -/
theorem joins_delimiter (c : Char) :
    Tok.joins c .newline = false ∧ Tok.joins c .comma = false ∧ Tok.joins c .lBracket = false ∧
      Tok.joins c .rBracket = false := by
  refine ⟨?_, ?_, ?_, ?_⟩
  · exact joinsFixed_alone (d := '\n') (by decide +kernel) (by decide) c
  · exact joinsFixed_alone (d := ',') (by decide +kernel) (by decide) c
  · exact joinsFixed_alone (d := '[') (by decide +kernel) (by decide) c
  · exact joinsFixed_alone (d := ']') (by decide +kernel) (by decide) c

/-- The characters that stand after an operand. -/
def isStop (c : Char) : Bool := c == ',' || c == '\n' || c == ']'

/-- Such a character joins no register. -/
theorem joins_reg (r : TokReg) {c : Char} (hc : isStop c = true) :
    Tok.joins c (.reg r) = false := by
  obtain ⟨x, xs, htext, hx⟩ : ∃ x xs, r.text.toList = x :: xs ∧ isIdentStart x = true := by
    cases r <;> exact ⟨_, _, rfl, by decide⟩
  have hrest : isIdentRest c = false := by
    simp only [isStop, Bool.or_eq_true, beq_iff_eq] at hc
    rcases hc with (rfl | rfl) | rfl <;> decide
  show joinsFixed r.text.toList c = false
  rw [htext]
  exact joinsFixed_of_word hx hrest

theorem joins_pcReg {c : Char} (hc : isStop c = true) : Tok.joins c .pcReg = false := by
  simp only [isStop, Bool.or_eq_true, beq_iff_eq] at hc
  show joinsFixed ['p', 'c'] c = false
  refine joinsFixed_of_word (by decide) ?_
  rcases hc with (rfl | rfl) | rfl <;> decide

theorem joins_hexNum (ds : Digits isHexDigit) {c : Char} (hc : isStop c = true) :
    Tok.joins c (.hexNum ds) = false := by
  simp only [isStop, Bool.or_eq_true, beq_iff_eq] at hc
  show isHexDigit c = false
  rcases hc with (rfl | rfl) | rfl <;> decide

/-! ### Operands -/

theorem isStop_of {c : Char} (hc : c = ',' ∨ c = '\n') : isStop c = true := by
  rcases hc with rfl | rfl <;> decide

theorem readsTight_single {t : Tok} (ht : t.Lexical)
    (hjoins : ∀ c, isStop c = true → t.joins c = false) : ReadsTight [t] := by
  intro c hc ts cs h
  have hone := h.cons ht (hjoins c (isStop_of hc))
  simpa using hone

/-- A register after an opening bracket. -/
theorem readsTight_open (r : TokReg) : ReadsTight [.lBracket, .reg r] := by
  intro c hc ts cs h
  have hreg := readsTight_single (t := .reg r) trivial (fun _ hc => joins_reg r hc) c hc h
  obtain ⟨x, xs, htext⟩ : ∃ x xs, r.text.toList = x :: xs := by
    cases r <;> exact ⟨_, _, rfl⟩
  have htoks : [Tok.reg r].flatMap Tok.text ++ c :: cs = x :: (xs ++ c :: cs) := by
    rw [List.flatMap_singleton]
    show r.text.toList ++ _ = _
    rw [htext]
    rfl
  rw [htoks] at hreg
  have hopen := hreg.cons (t := .lBracket) trivial (joins_delimiter x).2.2.1
  rw [← htoks] at hopen
  exact hopen

/-- A token before a closing bracket. -/
theorem readsTight_close {t : Tok} (ht : t.Lexical)
    (hjoins : ∀ c, isStop c = true → t.joins c = false) : ReadsTight [t, .rBracket] := by
  intro c hc ts cs h
  have hclose := h.cons (t := .rBracket) trivial (joins_delimiter c).2.2.2
  have hboth := Spells.cons (c := ']') hclose ht (hjoins ']' rfl)
  have htext : [t, .rBracket].flatMap Tok.text = t.text ++ [']'] := by
    rw [List.flatMap_cons, List.flatMap_singleton]
    rfl
  rw [htext, List.append_assoc]
  exact hboth

/-- **Operands with `, ` between them are read.** -/
theorem spells_operands {operands : List (List Tok)} (hops : ∀ o ∈ operands, ReadsTight o)
    (hne : operands ≠ []) {ts : List Tok} {cs : List Char} (h : Spells ts cs) :
    Spells ([Tok.comma].intercalate operands ++ .newline :: ts)
      ([',', ' '].intercalate (operands.map fun o => o.flatMap Tok.text) ++ '\n' :: cs) := by
  induction operands with
  | nil => exact absurd rfl hne
  | cons o operands ih =>
    have ho := hops o List.mem_cons_self
    cases operands with
    | nil =>
      have hline : Spells (.newline :: ts) ('\n' :: cs) :=
        .token .newline trivial (fun c _ => (joins_delimiter c).1) h
      rw [List.intercalate_singleton, List.map_singleton, List.intercalate_singleton]
      exact ho '\n' (.inr rfl) hline
    | cons o' operands =>
      have hrest := ih (fun x hx => hops x (List.mem_cons_of_mem _ hx)) (by simp)
      have hcomma := Spells.cons (c := ' ') (.blank ' ' (.inl rfl) hrest)
        (show Tok.comma.Lexical from trivial) (joins_delimiter ' ').2.1
      have hall := ho ',' (.inl rfl) hcomma
      rw [List.map_cons] at hall ⊢
      rw [List.map_cons, List.intercalate_cons_cons, List.intercalate_cons_cons]
      simpa using hall

/-- **A printed row is read.** -/
theorem spells_row (name : Tok) (hname : name.Lexical) {operands : List (List Tok)}
    (hops : ∀ o ∈ operands, ReadsTight o) (hne : operands ≠ []) {ts : List Tok} {cs : List Char}
    (h : Spells ts cs) :
    Spells (name :: [Tok.comma].intercalate operands ++ .newline :: ts)
      (rowText name operands ++ '\n' :: cs) := by
  have hblank := Spells.blank ' ' (.inl rfl) (spells_operands hops hne h)
  have hrow := hblank.cons hname (joins_blank name)
  rw [rowText, List.append_assoc]
  exact hrow

/-! ### The texts of operands -/

theorem flatMap_reg (r : TokReg) : [Tok.reg r].flatMap Tok.text = r.text.toList :=
  List.flatMap_singleton Tok.text (.reg r)

theorem flatMap_hexExpr {w : Nat} (n : BitVec w) :
    (hexExpr n).tokens.flatMap Tok.text = (hexNumText n).toList := by
  rw [hexExpr_tokens, List.flatMap_singleton, hexNumText, String.toList_append]
  exact congrArg (['0', 'x'] ++ ·) String.toList_ofList.symm

theorem flatMap_append_close (o : List Tok) :
    (o ++ [Tok.rBracket]).flatMap Tok.text = o.flatMap Tok.text ++ [']'] := by
  rw [List.flatMap_append, List.flatMap_singleton]
  rfl

theorem flatMap_open (r : TokReg) :
    [Tok.lBracket, .reg r].flatMap Tok.text = '[' :: r.text.toList := by
  rw [List.flatMap_cons, flatMap_reg]
  rfl

/-- The text of a row with two operands, and with three. -/
theorem rowText_two (t : InstrTok) (a b : List Tok) :
    rowText (.instrName t) [a, b] =
      t.text.toList ++ ' ' :: (a.flatMap Tok.text ++ ',' :: ' ' :: b.flatMap Tok.text) := by
  rw [rowText, List.map_cons, List.map_singleton, List.intercalate_cons_cons,
    List.intercalate_singleton, List.append_assoc]
  rfl

theorem rowText_three (t : InstrTok) (a b c : List Tok) :
    rowText (.instrName t) [a, b, c] =
      t.text.toList ++ ' ' :: (a.flatMap Tok.text ++ ',' :: ' ' ::
        (b.flatMap Tok.text ++ ',' :: ' ' :: c.flatMap Tok.text)) := by
  rw [rowText, List.map_cons, List.map_cons, List.map_singleton, List.intercalate_cons_cons,
    List.intercalate_cons_cons, List.intercalate_singleton, List.append_assoc, List.append_assoc]
  rfl

/-! ### Instructions -/

namespace Instruction

/-- The disassembler shows the word of the instruction as the instruction, and the assembler
    accepts what is shown: branches are shown with their offsets, and words of group 6 as
    calls. -/
def Listable : Instruction → Prop
  | instrOpGrp0ThreeRegs t _ _ _ => t.val ≠ .sgtu ∧ t.val ≠ .sgts ∧ t.val ≠ .nor
  | instrOpGrp2Branch _ _ _ _ => False
  | instrOpGrp6NoArgs _ => False
  | instrOpGrp6OneIretaOneReg _ => False
  | instrOpGrp6OneRegOneIreta _ => False
  | instrOpGrp6OneIdstaOneReg _ => False
  | instrOpGrp6OneRegOneIdsta _ => False
  | _ => True

/-- The instruction with the immediate that is shown. -/
def listed (i : Instruction) (shown : BitVec 32) : Instruction := i.mapExpr fun _ => hexExpr shown

/-- The form of a word, its mnemonic and its registers. -/
structure HasForm (i : Instruction) (m : InstrMap) (e : String × Oper) (rA rB rC : TokReg) :
    Prop where
  group : m.group ≠ 6
  mem : e ∈ m.opers
  word : ∀ pc n, i.word pc n = m.word rA.num rB.num rC.num (e.2.opcode.setWidth 32) n
  text : ∀ shown, (m.sourceText e.1 rA.text rB.text rC.text shown).toList =
    rowText (.instrName i.name) (i.listed shown).operands

/-- A mnemonic of a form, with its opcode. -/
theorem exists_mem_opers (m : InstrMap) {names : List InstrTok} (opcode : InstrTok → BitVec 4)
    (h : ∀ t ∈ names, (t.text, opcode t) ∈ m.opers.map fun e => (e.1, e.2.opcode))
    (t : { t // t ∈ names }) : ∃ e ∈ m.opers, e.1 = t.val.text ∧ e.2.opcode = opcode t.val := by
  obtain ⟨e, he, heq⟩ := List.mem_map.mp (h t.val t.property)
  obtain ⟨hname, hop⟩ := Prod.ext_iff.mp heq
  exact ⟨e, he, hname, hop⟩

/-- Three registers. -/
theorem hasForm_threeRegs {i : Instruction} {m : InstrMap} {t : InstrTok} {e : String × Oper}
    {rA rB rC : TokReg} (hm : m.group ≠ 6) (he : e ∈ m.opers) (hname : e.1 = t.text)
    (hword : ∀ pc n, i.word pc n = m.word rA.num rB.num rC.num (e.2.opcode.setWidth 32) n)
    (htext : ∀ shown, m.sourceText t.text rA.text rB.text rC.text shown =
      t.text ++ " " ++ rA.text ++ ", " ++ rB.text ++ ", " ++ rC.text)
    (hrow : ∀ shown, rowText (.instrName i.name) (i.listed shown).operands =
      rowText (.instrName t) [[.reg rA], [.reg rB], [.reg rC]]) : i.HasForm m e rA rB rC := by
  refine ⟨hm, he, hword, fun shown => ?_⟩
  rw [hname, htext, hrow, rowText_three]
  simp only [flatMap_reg, String.toList_append]
  simp

/-- Two registers and an immediate. -/
theorem sourceText_imm (t : InstrTok) (rA rB : TokReg) (shown : BitVec 32) :
    (t.text ++ " " ++ rA.text ++ ", " ++ rB.text ++ ", " ++ hexNumText shown).toList =
      rowText (.instrName t) [[.reg rA], [.reg rB], (hexExpr shown).tokens] := by
  rw [rowText_three, flatMap_reg, flatMap_reg, flatMap_hexExpr]
  simp

/-- An address in brackets. -/
theorem sourceText_ldst (t : InstrTok) (rA rB : TokReg) (o : List Tok) {c : String}
    (ho : o.flatMap Tok.text = c.toList) :
    (t.text ++ " " ++ rA.text ++ ", [" ++ rB.text ++ ", " ++ c ++ "]").toList =
      rowText (.instrName t) [[.reg rA], [.lBracket, .reg rB], o ++ [.rBracket]] := by
  rw [rowText_three, flatMap_reg, flatMap_open, flatMap_append_close, ho]
  simp

/-- **Every listable instruction has a form whose source text is its row.** -/
theorem exists_form {i : Instruction} (h : i.Listable) :
    ∃ m e rA rB rC, i.HasForm m e rA rB rC := by
  cases i with
  | instrOpGrp0ThreeRegs t rA rB rC =>
    have hall : ∀ t ∈ aluOpNames, t ≠ .sgtu → t ≠ .sgts → t ≠ .nor →
        ∃ e ∈ InstrMap.iog0ThreeRegs.opers, e.1 = t.text ∧
          e.2.opcode = docOpcode docGroup0 t.text := by decide
    obtain ⟨e, he, hname, hop⟩ := hall t.val t.property h.1 h.2.1 h.2.2
    refine ⟨.iog0ThreeRegs, e, rA, rB, rC, hasForm_threeRegs (t := t.val) (by decide) he hname
      (fun pc n => ?_) (fun _ => rfl) (fun _ => rfl)⟩
    rw [hop]
    exact (threeRegs_eq rA rB rC 0).symm
  | instrOpGrp1TwoRegsOneImm t rA rB e =>
    obtain ⟨e, he, hname, hop⟩ := exists_mem_opers .iog1TwoRegsOneImm
      (fun t => docOpcode docGroup1 t.text) (by decide) t
    refine ⟨.iog1TwoRegsOneImm, e, rA, rB, .zero, by decide, he, fun pc n => ?_, fun shown => ?_⟩
    · rw [hop]
      exact (imm_eq rA rB 1 n).symm
    · rw [hname]
      exact sourceText_imm t.val rA rB shown
  | instrOpGrp1TwoRegsOneSimm t rA rB e =>
    obtain ⟨e, he, hname, hop⟩ := exists_mem_opers .iog1TwoRegsOneSimm
      (fun t => docOpcode docGroup1 t.text) (by decide) t
    refine ⟨.iog1TwoRegsOneSimm, e, rA, rB, .zero, by decide, he, fun pc n => ?_, fun shown => ?_⟩
    · rw [hop]
      exact (imm_eq rA rB 1 n).symm
    · rw [hname]
      exact sourceText_imm t.val rA rB shown
  | instrOpGrp1OneRegOnePcOneSimm rA e =>
    refine ⟨.iog1OneRegOnePcOneSimm, _, rA, .zero, .zero, by decide, List.mem_singleton_self _,
      fun pc n => (imm_eq rA .zero 1 n).symm, fun shown => ?_⟩
    refine Eq.trans ?_ (rowText_three .addsi [.reg rA] [.pcReg] (hexExpr shown).tokens).symm
    rw [flatMap_hexExpr, flatMap_reg]
    simp [InstrMap.sourceText, show [Tok.pcReg].flatMap Tok.text = ['p', 'c'] from rfl,
      show InstrTok.addsi.text = "addsi" from rfl]
  | instrOpGrp1OneRegOneImm rA e =>
    refine ⟨.iog1OneRegOneImm, _, rA, .zero, .zero, by decide, List.mem_singleton_self _,
      fun pc n => (imm_eq rA .zero 1 n).symm, fun shown => ?_⟩
    refine Eq.trans ?_ (rowText_two .cpyhi [.reg rA] (hexExpr shown).tokens).symm
    rw [flatMap_hexExpr, flatMap_reg]
    simp [InstrMap.sourceText, show InstrTok.cpyhi.text = "cpyhi" from rfl]
  | instrOpGrp2Branch t rA rB e => exact h.elim
  | instrOpGrp3Jump t rA rB rC =>
    obtain ⟨e, he, hname, hop⟩ := exists_mem_opers .iog3Jump
      (fun t => docOpcode docGroup3 t.text) (by decide) t
    refine ⟨.iog3Jump, e, rA, rB, rC, hasForm_threeRegs (t := t.val) (by decide) he hname
      (fun pc n => ?_) (fun _ => rfl) (fun _ => rfl)⟩
    rw [hop]
    exact (threeRegs_eq rA rB rC 3).symm
  | instrOpGrp4Call t rA rB rC =>
    obtain ⟨e, he, hname, hop⟩ := exists_mem_opers .iog4Call
      (fun t => docOpcode docGroup4 t.text) (by decide) t
    refine ⟨.iog4Call, e, rA, rB, rC, hasForm_threeRegs (t := t.val) (by decide) he hname
      (fun pc n => ?_) (fun _ => rfl) (fun _ => rfl)⟩
    rw [hop]
    exact (threeRegs_eq rA rB rC 4).symm
  | instrOpGrp5ThreeRegsLdst t rA rB rC =>
    obtain ⟨e, he, hname, hop⟩ := exists_mem_opers .iog5ThreeRegsLdst
      (fun t => docOpcode docGroup5 t.text) (by decide) t
    refine ⟨.iog5ThreeRegsLdst, e, rA, rB, rC, by decide, he, fun pc n => ?_, fun shown => ?_⟩
    · rw [hop]
      exact (threeRegs_eq rA rB rC 5).symm
    · rw [hname]
      exact sourceText_ldst t.val rA rB [.reg rC] (flatMap_reg rC)
  | instrOpGrp5TwoRegsOneSimm12Ldst t rA rB e =>
    obtain ⟨e, he, hname, hop⟩ := exists_mem_opers .iog5TwoRegsOneSimmLdst
      (fun t => 8 + docOpcode docGroup5Simm t.text) (by decide) t
    refine ⟨.iog5TwoRegsOneSimmLdst, e, rA, rB, .zero, by decide, he, fun pc n => ?_,
      fun shown => ?_⟩
    · rw [hop]
      show _ = instrOpcodeGroup5WithSimm _ _ _ _
      rw [withSimm_eq, setWidth_opcode, BitVec.setWidth_setWidth_of_le n (by decide)]
      rfl
    · rw [hname]
      exact sourceText_ldst t.val rA rB (hexExpr shown).tokens (flatMap_hexExpr shown)
  | instrOpGrp6NoArgs t
  | instrOpGrp6OneIretaOneReg rA
  | instrOpGrp6OneRegOneIreta rA
  | instrOpGrp6OneIdstaOneReg rA
  | instrOpGrp6OneRegOneIdsta rA => exact h.elim

/-! ### What is shown for the word of an instruction -/

/-- A word does not depend on more of the immediate than its field. -/
theorem word_congr (m : InstrMap) (rA rB rC : TokReg) (op : BitVec 4) {x y : BitVec 64}
    (h : x.setWidth m.immWidth = y.setWidth m.immWidth) :
    m.word rA.num rB.num rC.num (op.setWidth 32) x =
      m.word rA.num rB.num rC.num (op.setWidth 32) y := by
  have himm : x.setWidth 16 = y.setWidth 16 →
      immToGen rA.num rB.num (op.setWidth 32) (x.setWidth 32) 1 =
        immToGen rA.num rB.num (op.setWidth 32) (y.setWidth 32) 1 := by
    intro h
    rw [imm_eq, imm_eq, h]
  cases m with
  | iog1TwoRegsOneImm | iog1TwoRegsOneSimm | iog1OneRegOnePcOneSimm | iog1OneRegOneImm =>
    exact himm h
  | iog2Branch =>
    show immToGen _ _ _ _ _ = immToGen _ _ _ _ _
    rw [imm_eq, imm_eq]
    exact congrArg _ h
  | iog5TwoRegsOneSimmLdst =>
    show instrOpcodeGroup5WithSimm _ _ _ _ = instrOpcodeGroup5WithSimm _ _ _ _
    rw [withSimm_eq, withSimm_eq, BitVec.setWidth_setWidth_of_le x (by decide),
      BitVec.setWidth_setWidth_of_le y (by decide)]
    exact congrArg (fun v => ldstWord _ _ 0 v _) h
  | _ => rfl

section Listed

variable {i : Instruction} (h : i.Listable) (shown : BitVec 32)

theorem word_listed (i : Instruction) (shown : BitVec 32) (pc n : BitVec 64) :
    (i.listed shown).word pc n = i.word pc n := by
  cases i <;> rfl

theorem name_listed (i : Instruction) (shown : BitVec 32) : (i.listed shown).name = i.name := by
  cases i <;> rfl

include h

/-- **The disassembler shows the word of the instruction as its text**, with an immediate that
    gives the same word. -/
theorem visitWord_word (pc n : BitVec 64) :
    ∃ (shown : BitVec 32) (text : String),
      visitWord (i.word pc n) = .ok (.instruction text) ∧
      text.toList = rowText (.instrName i.name) (i.listed shown).operands ∧
      ∀ pc', i.word pc' (shown.setWidth 64) = i.word pc n := by
  obtain ⟨m, e, rA, rB, rC, hform⟩ := exists_form h
  obtain ⟨line, hline, shown, himm, rfl⟩ :=
    InstrMap.shownBy_of_ne_group6 hform.group hform.mem rA rB rC n
  rw [← hform.word pc n] at hline
  refine ⟨shown, _, hline, hform.text shown, fun pc' => ?_⟩
  have hle : m.immWidth ≤ 32 := by cases m <;> decide
  rw [hform.word, hform.word]
  refine word_congr m rA rB rC e.2.opcode ?_
  rw [BitVec.setWidth_setWidth_of_le shown (by omega)]
  exact himm

theorem readsTight_operands : ∀ o ∈ (i.listed shown).operands, ReadsTight o := by
  have hreg : ∀ r, ReadsTight [.reg r] := fun r =>
    readsTight_single (t := .reg r) trivial fun _ hc => joins_reg r hc
  have himm : ReadsTight (hexExpr shown).tokens :=
    readsTight_single (t := .hexNum (hexDigits shown)) trivial fun _ hc => joins_hexNum _ hc
  have hlists : ∀ a b c : List Tok, ReadsTight a → ReadsTight b → ReadsTight c →
      ∀ o ∈ [a, b, c], ReadsTight o := by
    intro a b c ha hb hc o ho
    simp only [List.mem_cons, List.not_mem_nil, or_false] at ho
    rcases ho with rfl | rfl | rfl
    · exact ha
    · exact hb
    · exact hc
  cases i with
  | instrOpGrp0ThreeRegs t rA rB rC
  | instrOpGrp3Jump t rA rB rC
  | instrOpGrp4Call t rA rB rC => exact hlists _ _ _ (hreg rA) (hreg rB) (hreg rC)
  | instrOpGrp1TwoRegsOneImm t rA rB e
  | instrOpGrp1TwoRegsOneSimm t rA rB e => exact hlists _ _ _ (hreg rA) (hreg rB) himm
  | instrOpGrp1OneRegOnePcOneSimm rA e =>
    exact hlists _ _ _ (hreg rA)
      (readsTight_single (t := .pcReg) trivial fun _ hc => joins_pcReg hc) himm
  | instrOpGrp1OneRegOneImm rA e =>
    intro o ho
    refine hlists _ _ _ (hreg rA) himm himm o ?_
    have ho' : o ∈ [[.reg rA], (hexExpr shown).tokens] := ho
    simp only [List.mem_cons, List.not_mem_nil, or_false] at ho' ⊢
    rcases ho' with rfl | rfl
    · exact .inl rfl
    · exact .inr (.inl rfl)
  | instrOpGrp5ThreeRegsLdst t rA rB rC =>
    exact hlists _ _ _ (hreg rA) (readsTight_open rB)
      (readsTight_close (t := .reg rC) trivial fun _ hc => joins_reg rC hc)
  | instrOpGrp5TwoRegsOneSimm12Ldst t rA rB e =>
    exact hlists _ _ _ (hreg rA) (readsTight_open rB)
      (readsTight_close (t := .hexNum (hexDigits shown)) trivial fun _ hc => joins_hexNum _ hc)
  | instrOpGrp2Branch t rA rB e
  | instrOpGrp6NoArgs t
  | instrOpGrp6OneIretaOneReg rA
  | instrOpGrp6OneRegOneIreta rA
  | instrOpGrp6OneIdstaOneReg rA
  | instrOpGrp6OneRegOneIdsta rA => exact h.elim

/-- **The text of the instruction spells its tokens.** -/
theorem spells_listed {ts : List Tok} {cs : List Char} (hrest : Spells ts cs) :
    Spells ((i.listed shown).tokens ++ .newline :: ts)
      (rowText (.instrName i.name) (i.listed shown).operands ++ '\n' :: cs) := by
  have hne : (i.listed shown).operands ≠ [] := by
    cases i <;> simp [listed, mapExpr, operands]
  have hrow := spells_row (.instrName i.name) trivial (readsTight_operands h shown) hne
    hrest
  rw [tokens_eq, name_listed]
  exact hrow

/-- **It is assembled to the word with the immediate that is shown**, with a warning or not. -/
theorem effect_listed (env : Env) :
    ∃ warnings, (i.listed shown).effect env =
      .ok { warnings := warnings, data := [.b32 (i.word env.pc (shown.setWidth 64))] } := by
  have hrefused : ¬(i.listed shown).Refused := by
    cases i with
    | instrOpGrp0ThreeRegs t rA rB rC =>
      rintro (ht | ht | ht)
      · exact h.1 ht
      · exact h.2.1 ht
      · exact h.2.2 ht
    | _ => exact not_false
  have hencodes := (i.listed shown).encodesWith env hrefused
  have hexprs : (i.listed shown).exprs = i.exprs.map fun _ => hexExpr shown := exprs_mapExpr _ i
  rw [hexprs] at hencodes
  have hoperand : ∃ n, operandValue env (i.exprs.map fun _ => hexExpr shown) = .ok n ∧
      i.word env.pc n = i.word env.pc (shown.setWidth 64) := by
    cases hes : i.exprs with
    | nil =>
      refine ⟨0, rfl, ?_⟩
      cases i with
      | instrOpGrp2Branch t rA rB e => exact h.elim
      | _ => first | rfl | cases hes
    | cons e es => exact ⟨_, eval_hexExpr shown env, rfl⟩
  obtain ⟨n, hn, hword⟩ := hoperand
  rw [← hword, ← word_listed i shown]
  exact ⟨_, hencodes.eq_ok hn⟩

end Listed

end Instruction

end Frost32.Asm
