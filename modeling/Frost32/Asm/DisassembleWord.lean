import Frost32.Asm.Format
import Frost32.Asm.Listing

namespace Frost32.Asm

open Isa Hdl

/-!
# Instruction words in the disassembler

The words the assembler packs, read back by the disassembler.

* `InstrMap.sourceText` — how the source of an instruction is written.
* `visitWord_eq` — the line for a word in terms of its fields.
* `instrFromWord_word` — the look-ups of groups 0 to 5 undo the maps of the encoder.
* `InstrMap.shown_iff` — **a word is shown as the instruction it was made from unless it is
  in group 6**, which the disassembler reads with the table of group 4.
-/

/-! ### The source of an instruction -/

namespace InstrMap

def argsType : InstrMap → ArgsType
  | iog0ThreeRegs | iog3Jump | iog4Call => .threeRegs
  | iog1TwoRegsOneImm => .twoRegsOneImm
  | iog1TwoRegsOneSimm => .twoRegsOneSimm
  | iog1OneRegOnePcOneSimm => .oneRegOnePcOneSimm
  | iog1OneRegOneImm => .oneRegOneImm
  | iog2Branch => .branch
  | iog5ThreeRegsLdst => .threeRegsLdst
  | iog5TwoRegsOneSimmLdst => .twoRegsOneSimmLdst
  | iog6NoArgs => .noArgs
  | iog6OneIretaOneReg => .oneIretaOneReg
  | iog6OneRegOneIreta => .oneRegOneIreta
  | iog6OneIdstaOneReg => .oneIdstaOneReg
  | iog6OneRegOneIdsta => .oneRegOneIdsta

/-- The width of the immediate field; 0 where there is none. -/
def immWidth : InstrMap → Nat
  | iog1TwoRegsOneImm | iog1TwoRegsOneSimm | iog1OneRegOnePcOneSimm | iog1OneRegOneImm
  | iog2Branch => 16
  | iog5TwoRegsOneSimmLdst => 12
  | _ => 0

/-- The line of source text of an instruction: the mnemonic, a space, and the operands in the
    order of the grammar. -/
def sourceText (m : InstrMap) (name a b c : String) (imm : BitVec 32) : String :=
  match m with
  | iog0ThreeRegs | iog3Jump | iog4Call => name ++ " " ++ a ++ ", " ++ b ++ ", " ++ c
  | iog1TwoRegsOneImm | iog1TwoRegsOneSimm | iog2Branch =>
    name ++ " " ++ a ++ ", " ++ b ++ ", " ++ hexNumText imm
  | iog1OneRegOnePcOneSimm => name ++ " " ++ a ++ ", pc, " ++ hexNumText imm
  | iog1OneRegOneImm => name ++ " " ++ a ++ ", " ++ hexNumText imm
  | iog5ThreeRegsLdst => name ++ " " ++ a ++ ", [" ++ b ++ ", " ++ c ++ "]"
  | iog5TwoRegsOneSimmLdst => name ++ " " ++ a ++ ", [" ++ b ++ ", " ++ hexNumText imm ++ "]"
  | iog6NoArgs => name
  | iog6OneIretaOneReg => name ++ " ireta, " ++ a
  | iog6OneRegOneIreta => name ++ " " ++ a ++ ", ireta"
  | iog6OneIdstaOneReg => name ++ " idsta, " ++ a
  | iog6OneRegOneIdsta => name ++ " " ++ a ++ ", idsta"

/-- The line shows the instruction: its mnemonic, its operands, and an immediate that agrees
    with the given one in the bits of its field. -/
def ShownBy (m : InstrMap) (name : String) (rA rB rC : TokReg) (imm : BitVec 64)
    (line : ListingLine) : Prop :=
  ∃ shown : BitVec 32, shown.setWidth m.immWidth = imm.setWidth m.immWidth ∧
    line = .instruction (m.sourceText name rA.text rB.text rC.text shown)

end InstrMap

/-- The 8 hexadecimal digits of a word. -/
def wordDigits (w : BitVec 32) : List Char := (Datum.b32 w).bytes.flatMap byteText

/-! ### The line for a word -/

section Fields

variable (w : BitVec 32)

theorem getBits_group : getBitsWithRange w 31 28 = (group w).setWidth 32 :=
  getBitsWithRange_eq w (by decide)

theorem getBits_fieldA : getBitsWithRange w 27 24 = (fieldA w).setWidth 32 :=
  getBitsWithRange_eq w (by decide)

theorem getBits_fieldB : getBitsWithRange w 23 20 = (fieldB w).setWidth 32 :=
  getBitsWithRange_eq w (by decide)

/-- The third register and the opcode of groups 1 and 2 share their bits. -/
theorem getBits_fieldC : getBitsWithRange w 19 16 = (fieldC w).setWidth 32 :=
  getBitsWithRange_eq w (by decide)

theorem getBits_opcodeLow : getBitsWithRange w 3 0 = (opcodeLow w).setWidth 32 :=
  getBitsWithRange_eq w (by decide)

theorem getBits_imm16 : getBitsWithRange w 15 0 = (imm16 w).setWidth 32 :=
  getBitsWithRange_eq w (by decide)

theorem getBits_simm12 : (getBitsWithRange w 15 4).setWidth 12 = simm12 w := by
  rw [getBitsWithRange_eq w (by decide), BitVec.setWidth_setWidth_of_le _ (by decide)]
  exact BitVec.setWidth_eq _

end Fields

/-- The name of a register number. -/
def indexText (i : RegIndex) : String := (regNamesMap.decode (i.setWidth 32)).getD ""

theorem regName_setWidth (i : RegIndex) : regName (i.setWidth 32) = .ok (indexText i) := by
  revert i
  decide

/-- Every register is named by its number. -/
@[simp] theorem indexText_index (r : TokReg) : indexText r.index = r.text := by
  cases r <;> decide

/-- **The line for a word of a known form, by its fields.** -/
theorem visitWord_eq {w : BitVec 32} {name : String} {args : ArgsType}
    (h : instrFromWord w = some (name, args)) :
    visitWord w =
      match instrText name args (indexText (fieldA w)) (indexText (fieldB w))
        (indexText (fieldC w)) ((imm16 w).setWidth 32) ((simm12 w).signExtend 32) with
      | some text => .ok (.instruction text)
      | none => .ok (.db w) := by
  unfold visitWord
  rw [h]
  simp only [getBits_fieldA, getBits_fieldB, getBits_fieldC, getBits_imm16, getBits_simm12,
    regName_setWidth, ok_bind]
  rfl

/-- The bytes of a word put together again. -/
theorem bytes_append (w : BitVec 32) :
    w.extractLsb' 24 8 ++ w.extractLsb' 16 8 ++ w.extractLsb' 8 8 ++ w.extractLsb' 0 8 = w := by
  have h₁ : w.extractLsb' 24 8 ++ w.extractLsb' 16 8 = w.extractLsb' 16 16 :=
    BitVec.extractLsb'_append_extractLsb'_eq_extractLsb' (by decide)
  have h₂ : w.extractLsb' 16 16 ++ w.extractLsb' 8 8 = w.extractLsb' 8 24 :=
    BitVec.extractLsb'_append_extractLsb'_eq_extractLsb' (by decide)
  have h₃ : w.extractLsb' 8 24 ++ w.extractLsb' 0 8 = w.extractLsb' 0 32 :=
    BitVec.extractLsb'_append_extractLsb'_eq_extractLsb' (by decide)
  rw [h₁, h₂, h₃]
  exact BitVec.extractLsb'_eq_self

theorem convertHexString_wordDigits (w : BitVec 32) :
    convertHexString (wordDigits w) = .ok (w, 8) := by
  have hfilter : (wordDigits w).filter (fun c => c ≠ '@' && c ≠ ' ') = wordDigits w := by
    apply filter_hexDigits
    intro c hc
    obtain ⟨b, -, hb⟩ := List.mem_flatMap.mp hc
    exact isHexDigit_of_mem_byteText hb
  have hvalue : hexValue 0 (wordDigits w) = some w :=
    (hexValue_fourBytes _ _ _ _).trans (congrArg some (bytes_append w))
  unfold convertHexString
  simp only [hfilter, hvalue]
  rfl

/-- The line for the digits of a word is the line for the word. -/
theorem visitDisLine_wordDigits {w : BitVec 32} {line : ListingLine}
    (h : visitWord w = .ok line) : visitDisLine (.hexNum (wordDigits w)) = .ok [line] :=
  visitDisLine_word (convertHexString_wordDigits w) h

/-! ### The instruction of a word -/

namespace InstrMap

section Words

variable (m : InstrMap) (a b c : BitVec 32) (o : BitVec 4) (imm : BitVec 64)

/-- Where the words of the form have their opcode. -/
def opcodeField (w : BitVec 32) : BitVec 4 :=
  match m with
  | iog1TwoRegsOneImm | iog1TwoRegsOneSimm | iog1OneRegOnePcOneSimm | iog1OneRegOneImm
  | iog2Branch => opcodeHigh w
  | _ => opcodeLow w

/-- The look-up for the words of the form; words of group 6 are looked up in group 4. -/
def getInstr : BitVec 32 → String × ArgsType :=
  match m with
  | iog0ThreeRegs => getIog0InstrFromOpcode
  | iog1TwoRegsOneImm | iog1TwoRegsOneSimm | iog1OneRegOnePcOneSimm | iog1OneRegOneImm =>
    getIog1InstrFromOpcode
  | iog2Branch => getIog2InstrFromOpcode
  | iog3Jump => getIog3InstrFromOpcode
  | iog4Call => getIog4InstrFromOpcode
  | iog5ThreeRegsLdst | iog5TwoRegsOneSimmLdst => getIog5InstrFromOpcode
  | iog6NoArgs | iog6OneIretaOneReg | iog6OneRegOneIreta | iog6OneIdstaOneReg
  | iog6OneRegOneIdsta => getIog4InstrFromOpcode

theorem group_word : Isa.group (m.word a b c (o.setWidth 32) imm) = m.group := by
  cases m <;>
    simp [word, group, instrOpcodeGroup0, instrOpcodeGroup1, instrOpcodeGroup2,
      instrOpcodeGroup3, instrOpcodeGroup4, instrOpcodeGroup5NoSimm, instrOpcodeGroup6]

theorem opcodeField_word : m.opcodeField (m.word a b c (o.setWidth 32) imm) = o := by
  cases m <;>
    simp [word, opcodeField, instrOpcodeGroup0, instrOpcodeGroup1, instrOpcodeGroup2,
      instrOpcodeGroup3, instrOpcodeGroup4, instrOpcodeGroup5NoSimm, instrOpcodeGroup6]

/-- The name and the form that are looked up for a word of the form. -/
theorem instrFromWord_word :
    instrFromWord (m.word a b c (o.setWidth 32) imm) = some (m.getInstr (o.setWidth 32)) := by
  have hgroup : (getBitsWithRange (m.word a b c (o.setWidth 32) imm) 31 28).toNat =
      m.group.toNat := by
    rw [getBits_group, BitVec.toNat_setWidth_of_le (by decide), group_word]
  have hopcode := opcodeField_word m a b c o imm
  unfold instrFromWord
  simp only [hgroup, getBits_opcodeLow, getBits_fieldC]
  generalize m.word a b c (o.setWidth 32) imm = w at hopcode ⊢
  rw [← hopcode]
  cases m <;> rfl

end Words

/-- **The look-ups undo the maps**: outside group 6 the opcode leads back to the mnemonic and
    the form. -/
theorem getInstr_opcode {m : InstrMap} (hm : m.group ≠ 6) :
    ∀ e ∈ m.opers, m.getInstr (e.2.opcode.setWidth 32) = (e.1, m.argsType) := by
  cases m
  case iog6NoArgs | iog6OneIretaOneReg | iog6OneRegOneIreta | iog6OneIdstaOneReg
      | iog6OneRegOneIdsta => exact absurd rfl hm
  all_goals decide

/-- Every opcode of group 6 leads to a call. -/
theorem getInstr_opcode_of_group6 {m : InstrMap} (hm : m.group = 6) :
    ∀ e ∈ m.opers, (m.getInstr (e.2.opcode.setWidth 32)).2 = .threeRegs ∧
      (m.getInstr (e.2.opcode.setWidth 32)).1 ∈ iog4Call.opers.map Prod.fst := by
  cases m
  case iog6NoArgs | iog6OneIretaOneReg | iog6OneRegOneIreta | iog6OneIdstaOneReg
      | iog6OneRegOneIdsta => decide
  all_goals exact absurd hm (by decide)

/-- An immediate keeps its field when it is widened with its sign. -/
theorem setWidth_signExtend_of_le {n k : Nat} (x : BitVec n) (h : n ≤ k) :
    (x.signExtend k).setWidth n = x := by
  apply BitVec.eq_of_getLsbD_eq
  intro i hi
  have hik : i < k := by omega
  simp only [BitVec.getLsbD_setWidth, BitVec.getLsbD_signExtend, hi, hik, decide_true,
    Bool.true_and, if_true]

/-! ### What is shown for a word -/

/-- **Outside group 6 the line for a word is the instruction it was made from.** -/
theorem shownBy_of_ne_group6 {m : InstrMap} (hm : m.group ≠ 6) {e : String × Oper}
    (he : e ∈ m.opers) (rA rB rC : TokReg) (imm : BitVec 64) :
    ∃ line, visitWord (m.word rA.num rB.num rC.num (e.2.opcode.setWidth 32) imm) = .ok line ∧
      m.ShownBy e.1 rA rB rC imm line := by
  have hinstr := instrFromWord_word m rA.num rB.num rC.num e.2.opcode imm
  rw [getInstr_opcode hm e he] at hinstr
  rw [visitWord_eq hinstr]
  cases m
  case iog6NoArgs | iog6OneIretaOneReg | iog6OneRegOneIreta | iog6OneIdstaOneReg
      | iog6OneRegOneIdsta => exact absurd rfl hm
  case iog0ThreeRegs | iog3Jump | iog4Call | iog5ThreeRegsLdst =>
    refine ⟨_, rfl, 0, Subsingleton.elim (α := BitVec 0) _ _, ?_⟩
    simp [word, instrOpcodeGroup0, instrOpcodeGroup3, instrOpcodeGroup4,
      instrOpcodeGroup5NoSimm, sourceText, setWidth_index]
  case iog5TwoRegsOneSimmLdst =>
    refine ⟨_, rfl, (imm.setWidth 12).signExtend 32, ?_, ?_⟩
    · exact setWidth_signExtend_of_le _ (by decide)
    · simp [word, sourceText, setWidth_index]
  all_goals
    refine ⟨_, rfl, (imm.setWidth 16).setWidth 32, ?_, ?_⟩
    · exact (BitVec.setWidth_setWidth_of_le _ (by decide)).trans (BitVec.setWidth_eq _)
    · simp [word, instrOpcodeGroup1, instrOpcodeGroup2, sourceText, setWidth_index]

/-- The source text of an instruction starts with its mnemonic. -/
theorem sourceText_eq_append (m : InstrMap) (name a b c : String) (imm : BitVec 32) :
    ∃ rest, m.sourceText name a b c imm = name ++ rest := by
  cases m
  case iog6NoArgs => exact ⟨"", (String.append_empty).symm⟩
  all_goals exact ⟨_, by simp only [sourceText, String.append_assoc]; rfl⟩

/-- No mnemonic of group 6 starts like one of group 4. -/
theorem group6_ne_call {m : InstrMap} (hm : m.group = 6) :
    ∀ e ∈ m.opers, ∀ e' ∈ iog4Call.opers, e.1.toList.take 2 ≠ e'.1.toList.take 2 := by
  cases m
  case iog6NoArgs | iog6OneIretaOneReg | iog6OneRegOneIreta | iog6OneIdstaOneReg
      | iog6OneRegOneIdsta => decide
  all_goals exact absurd hm (by decide)

theorem two_le_length_name (m : InstrMap) : ∀ e ∈ m.opers, 2 ≤ e.1.toList.length := by
  cases m <;> decide

/-- **A word of group 6 is shown as a call**, never as the instruction it was made from. -/
theorem not_shownBy_of_group6 {m : InstrMap} (hm : m.group = 6) {e : String × Oper}
    (he : e ∈ m.opers) (rA rB rC : TokReg) (imm : BitVec 64) {line : ListingLine}
    (hline : visitWord (m.word rA.num rB.num rC.num (e.2.opcode.setWidth 32) imm) = .ok line) :
    ¬ m.ShownBy e.1 rA rB rC imm line := by
  rintro ⟨shown, -, rfl⟩
  have hinstr := instrFromWord_word m rA.num rB.num rC.num e.2.opcode imm
  obtain ⟨hargs, hcall⟩ := getInstr_opcode_of_group6 hm e he
  obtain ⟨e', he', hname⟩ := List.mem_map.mp hcall
  rw [visitWord_eq (hinstr.trans (congrArg some (Prod.mk.eta).symm)), hargs, ← hname] at hline
  obtain ⟨rest, hrest⟩ := sourceText_eq_append m e.1 rA.text rB.text rC.text shown
  rw [hrest] at hline
  simp only [instrText, String.append_assoc, Except.ok.injEq, ListingLine.instruction.injEq]
    at hline
  have htake := congrArg (fun s => s.toList.take 2) hline
  simp only [String.toList_append] at htake
  rw [List.take_append_of_le_length (two_le_length_name _ e' he'),
    List.take_append_of_le_length (two_le_length_name _ e he)] at htake
  exact group6_ne_call hm e he e' he' htake.symm

/-- **A mnemonic with its operands comes back from the digits of its word if and only if it is
    outside group 6.** -/
theorem shown_iff (m : InstrMap) {name : String} (hname : name ∈ m.map.map Prod.fst)
    (rA rB rC : TokReg) (imm : BitVec 64) :
    (∃ w line, m.encode name rA rB rC imm = .ok w ∧
      visitDisLine (.hexNum (wordDigits w)) = .ok [line] ∧
      m.ShownBy name rA rB rC imm line) ↔ m.group ≠ 6 := by
  obtain ⟨e, he, rfl⟩ := exists_oper hname
  rw [encode_of_mem he]
  constructor
  · rintro ⟨w, line, hw, hline, hshown⟩ hm
    obtain rfl : m.word rA.num rB.num rC.num (e.2.opcode.setWidth 32) imm = w := by
      simpa using hw
    obtain ⟨line', hline', -⟩ :=
      visitWord_ok (m.word rA.num rB.num rC.num (e.2.opcode.setWidth 32) imm)
    rw [visitDisLine_wordDigits hline'] at hline
    obtain rfl : line' = line := by simpa using hline
    exact not_shownBy_of_group6 hm he rA rB rC imm hline' hshown
  · intro hm
    obtain ⟨line, hline, hshown⟩ := shownBy_of_ne_group6 hm he rA rB rC imm
    exact ⟨_, line, rfl, visitDisLine_wordDigits hline, hshown⟩

/-- `ldri u0, [sp, -8]` comes back, with the immediate shown as a number of 32 bits. -/
theorem shown_iff_ldri :
    "ldri" ∈ iog5TwoRegsOneSimmLdst.map.map Prod.fst ∧
      ((∃ w line, iog5TwoRegsOneSimmLdst.encode "ldri" .u0 .sp .zero (-8) = .ok w ∧
        visitDisLine (.hexNum (wordDigits w)) = .ok [line] ∧
        iog5TwoRegsOneSimmLdst.ShownBy "ldri" .u0 .sp .zero (-8) line) ↔
        iog5TwoRegsOneSimmLdst.group ≠ 6) := by
  have hname : "ldri" ∈ iog5TwoRegsOneSimmLdst.map.map Prod.fst := by decide
  exact ⟨hname, shown_iff iog5TwoRegsOneSimmLdst hname .u0 .sp .zero (-8)⟩

/-- `reti` is the word `60000006`, which is shown as `clts zero, zero, zero`. -/
theorem reti_shown_as_call :
    "reti" ∈ iog6NoArgs.map.map Prod.fst ∧
      iog6NoArgs.encode "reti" .zero .zero .zero 0 = .ok 0x60000006 ∧
      visitDisLine (.hexNum (wordDigits 0x60000006)) =
        .ok [.instruction "clts zero, zero, zero"] ∧
      ¬ ∃ w line, iog6NoArgs.encode "reti" .zero .zero .zero 0 = .ok w ∧
        visitDisLine (.hexNum (wordDigits w)) = .ok [line] ∧
        iog6NoArgs.ShownBy "reti" .zero .zero .zero 0 line := by
  have hword : iog6NoArgs.encode "reti" .zero .zero .zero 0 = .ok 0x60000006 := by decide
  have hline : visitDisLine (.hexNum (wordDigits 0x60000006)) =
      .ok [.instruction "clts zero, zero, zero"] := by decide
  refine ⟨by decide, hword, hline, ?_⟩
  rintro ⟨w, line, hw, hshow, hshown⟩
  obtain rfl : 0x60000006 = w := by simpa using hword.symm.trans hw
  obtain rfl : ListingLine.instruction "clts zero, zero, zero" = line := by
    simpa using hline.symm.trans hshow
  obtain ⟨shown, -, htext⟩ := hshown
  exact absurd htext (by simp [sourceText])

end InstrMap

end Frost32.Asm
