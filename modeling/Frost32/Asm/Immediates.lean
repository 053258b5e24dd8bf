import Frost32.Asm.Accepts
import Frost32.Hdl.Completion

namespace Frost32

/-!
# Immediates

The range checks of the assembler, against the way the CPU extends a field.

* `Isa.immediate` — the immediate of an instruction word, extended; `executeImmediates_immediate`
  and `ldstAddress_immediate`: it is what the CPU computes with.
* `Line.immediate` — the operand of a line with an immediate field, the branches apart.
* `immediateMeaning_iff` — **pass 1 warns of an immediate exactly if the field does not hold its
  value**, but for `addsi` and `cpyhi`, which are not checked.
-/

/-! ### The extension of a field -/

/-- The immediate of the instruction word `w`: sign extended for loads, stores and `addsi`, and
    as the operation asks for otherwise. -/
def Isa.immediate (w : Word) : Word :=
  if group w = 5#4 then (simm12 w).signExtend 32
  else if opcodeHigh w = 14#4 then (imm16 w).signExtend 32
  else extendImm (opcodeHigh w) (imm16 w)

namespace Hdl.Frost32Cpu

open Isa (Arch)

variable {s : Frost32Cpu} {i : PortInFrost32Cpu} {a : Arch} {w : Word}

/-- **The execute stage computes with the extended immediate**: `cpyhi` with its low half, the
    others with all of it. -/
theorem executeImmediates_immediate (h : s.Latched a w) (hi : i.waitForMem = false)
    (hg : Isa.group w = 1#4) (e : ExecuteRegs) :
    s.executeImmediates i e =
      if Isa.opcodeHigh w = 15#4 then
        s.prepRaWb ((Isa.immediate w).setWidth 16 ++ s.rfileData.ra.extractLsb' 0 16) e
      else if Isa.opcodeHigh w = 14#4 then s.prepRaWb (a.pc + Isa.immediate w) e
      else if Isa.opcodeHigh w = 6#4 then
        s.ctrlMultiply32 s.rfileData.rb (Isa.immediate w) e
      else s.prepRaWb
        (alu { a := s.rfileData.rb, b := Isa.immediate w, oper := Isa.opcodeHigh w }) e := by
  have hd := instrDecoder_of_group1 hg
  have h5 : ¬ Isa.group w = 5#4 := by rw [hg]; decide
  have hop : s.decode.multiStageDataExecute.instrOpcode = Isa.opcodeHigh w := by
    rw [h.opcode, hd]
  have himm : s.decode.multiStageDataExecute.instrImmVal = Isa.imm16 w := by
    rw [h.immVal, hd]
  rw [executeImmediates_eq, hop, himm, cpyhiData, himm, h.pcVal]
  unfold Isa.immediate
  rw [if_neg h5]
  by_cases h15 : Isa.opcodeHigh w = 15#4
  · -- `cpyhi` takes all of its 16 bits
    have hext : (Isa.extendImm 15#4 (Isa.imm16 w)).setWidth 16 = Isa.imm16 w := by
      show ((Isa.imm16 w).setWidth 32).setWidth 16 = _
      rw [BitVec.setWidth_setWidth_of_le _ (by decide), BitVec.setWidth_eq]
    rw [if_pos h15, if_pos h15, h15, if_neg (by decide), hext]
  · rw [if_neg h15, if_neg h15]
    by_cases h14 : Isa.opcodeHigh w = 14#4
    · rw [if_pos h14, if_pos h14, if_pos h14]
    · rw [if_neg h14, if_neg h14, if_neg h14]
      by_cases h6 : Isa.opcodeHigh w = 6#4
      · rw [if_pos h6, if_pos h6, h6]
        rfl
      · rw [if_neg h6, if_neg h6]
        -- the input stage of the ALU extends the immediate
        congr 1
        unfold outAlu inAlu
        dsimp only
        rw [if_neg (by simp [hi]), h.group, hop, himm, hd]
        rfl

/-- **So does the address of a load or store with an immediate.** -/
theorem ldstAddress_immediate (h : s.Latched a w) (hg : Isa.group w = 5#4)
    (hop : (Isa.opcodeLow w).getLsbD 3 = true) :
    s.ldstAddress = s.rfileData.rb + Isa.immediate w := by
  have hd := instrDecoder_of_group5 hg
  unfold ldstAddress ldstAdderA ldstAdderB Isa.immediate
  rw [h.opcode, h.immVal, hd]
  dsimp only
  rw [← BitVec.getLsbD_eq_getElem, if_pos hop, if_pos hg,
    signExtend_signExtend _ (by omega) (by omega)]

end Hdl.Frost32Cpu

namespace Asm

open Isa

/-! ### The immediate of a documented word -/

section Words

variable (a b c : RegIndex) (op : BitVec 4)

theorem immediate_immWord (imm : BitVec 16) :
    immediate (immWord 1 a b op imm) =
      if op = 14#4 then imm.signExtend 32 else extendImm op imm := by
  rw [immediate, group_immWord, opcodeHigh_immWord, imm16_immWord, if_neg (by decide)]

theorem immediate_ldstWord (imm : BitVec 12) :
    immediate (ldstWord a b c imm op) = imm.signExtend 32 := by
  rw [immediate, group_ldstWord, simm12_ldstWord, if_pos rfl]

end Words

/-! ### The range checks -/

section Checks

variable {env : Env} (n : BitVec 64)

/-- A value and a signed field, extended to different widths. -/
theorem toInt_eq_signExtend_iff {k : Nat} (hk : k ≤ 32) :
    n.toInt = ((n.setWidth k).signExtend 32).toInt ↔ n = (n.setWidth k).signExtend 64 := by
  rw [BitVec.toInt_signExtend_of_le hk,
    ← BitVec.toInt_signExtend_of_le (x := n.setWidth k) (v := 64) (by omega)]
  exact BitVec.toInt_inj

/-- A value and an unsigned field. -/
theorem toInt_eq_setWidth_iff :
    n.toInt = ((n.setWidth 16).setWidth 32).toInt ↔ n = (n.setWidth 16).setWidth 64 := by
  have hext : ∀ v : Nat, 16 < v → ((n.setWidth 16).setWidth v).toInt = (n.setWidth 16).toNat := by
    intro v hv
    rw [← BitVec.setWidth'_eq (le_of_lt hv)]
    exact BitVec.toInt_setWidth'_of_lt hv
  rw [hext 32 (by omega), ← hext 64 (by omega)]
  exact BitVec.toInt_inj

variable (hp : env.pass ≠ 0)
include hp

theorem imm16Warnings_iff :
    imm16Warnings env n ≠ [] ↔ n.toInt ≠ ((n.setWidth 16).setWidth 32).toInt := by
  rw [Ne, Ne, toInt_eq_setWidth_iff]
  simp [imm16Warnings, fitsImm16, hp]

theorem simm16Warnings_iff :
    simm16Warnings env n ≠ [] ↔ n.toInt ≠ ((n.setWidth 16).signExtend 32).toInt := by
  rw [Ne, Ne, toInt_eq_signExtend_iff n (by omega)]
  simp [simm16Warnings, fitsSimm, hp]

theorem simm12Warnings_iff :
    simm12Warnings env n ≠ [] ↔ n.toInt ≠ ((n.setWidth 12).signExtend 32).toInt := by
  rw [Ne, Ne, toInt_eq_signExtend_iff n (by omega)]
  simp [simm12Warnings, fitsSimm, hp]

/-- **The check of an immediate form is the one its opcode asks for.** -/
theorem aluOpImmWarnings_iff {t : InstrTok}
    (ht : t ∈ Grammar.aluOpOneRegOneImmNames ++ Grammar.simmNames) (a b : RegIndex) :
    aluOpImmWarnings env t n ≠ [] ↔ n.toInt ≠
      (immediate (immWord 1 a b (docOpcode docGroup1 t.text) (n.setWidth 16))).toInt := by
  have hall : ∀ t ∈ Grammar.aluOpOneRegOneImmNames ++ Grammar.simmNames,
      docOpcode docGroup1 t.text ≠ 14#4 ∧
      (t ∈ Grammar.simmNames ↔
        docOpcode docGroup1 t.text = 3#4 ∨ docOpcode docGroup1 t.text = 5#4) := by decide
  obtain ⟨h14, hs⟩ := hall t ht
  rw [immediate_immWord, if_neg h14, aluOpImmWarnings, extendImm]
  by_cases hmem : t ∈ Grammar.simmNames
  · rw [if_pos hmem, if_pos (hs.mp hmem)]
    exact simm16Warnings_iff n hp
  · rw [if_neg hmem, if_neg (fun h => hmem (hs.mpr h))]
    exact imm16Warnings_iff n hp

end Checks

/-! ### Every line -/

def Instruction.immediate : Instruction → Option Expr
  | instrOpGrp1TwoRegsOneImm _ _ _ e | instrOpGrp1TwoRegsOneSimm _ _ _ e
  | instrOpGrp1OneRegOnePcOneSimm _ e | instrOpGrp1OneRegOneImm _ e
  | instrOpGrp5TwoRegsOneSimm12Ldst _ _ _ e => some e
  | _ => none

def PseudoInstruction.immediate : PseudoInstruction → Option Expr
  | pseudoInstrOpInvi _ e | pseudoInstrOpCpyi _ e | pseudoInstrOpAluOpOneRegOneImm _ _ e
  | pseudoInstrOpAluOpOneRegOneSimm _ _ e => some e
  | _ => none

/-- The operand of a line with a 16-bit or 12-bit immediate, the branches and the forms that
    load a whole word apart. -/
def Line.immediate : Line → Option Expr
  | .instruction i => i.immediate
  | .pseudoInstruction p => p.immediate
  | _ => none

/-- The line, visited in the state `s` with an operand of value `n`, generates one word, and a
    warning is printed exactly if `n` is not what the CPU makes of the immediate in it. -/
def ImmediateMeaning (l : Line) (s : Assembler) (n : BitVec 64) : Prop :=
  ∃ ef w, l.effect s.env = .ok ef ∧ (visitLine l).run s = .ok ((), s.perform ef) ∧
    ef.data = [.b32 w] ∧ (ef.warnings ≠ [] ↔ n.toInt ≠ (immediate w).toInt)

/-- `addsi` and `cpyhi` are safe with the values their fields hold, the other lines with any. -/
def Line.ImmediateFits (n : BitVec 64) : Line → Prop
  | .instruction (.instrOpGrp1OneRegOnePcOneSimm _ _) => -2 ^ 15 ≤ n.toInt ∧ n.toInt < 2 ^ 15
  | .instruction (.instrOpGrp1OneRegOneImm _ _) => 0 ≤ n.toInt ∧ n.toInt < 2 ^ 16
  | _ => True

section Lines

variable {l : Line} {s : Assembler} {n : BitVec 64}

/-- The meaning of a line with its warnings and its word. -/
theorem immediateMeaning_iff_of_effect {warnings : List String} {w : Word}
    (hrun : (visitLine l).run s = performing s (l.effect s.env))
    (h : l.effect s.env = .ok { warnings := warnings, data := [.b32 w] }) :
    ImmediateMeaning l s n ↔ (warnings ≠ [] ↔ n.toInt ≠ (immediate w).toInt) := by
  rw [h] at hrun
  constructor
  · rintro ⟨ef, w', hef, -, hdata, hwarn⟩
    obtain rfl : { warnings := warnings, data := [.b32 w] } = ef := Except.ok.inj (h.symm.trans hef)
    obtain rfl : w = w' := by simpa using hdata
    exact hwarn
  · intro hwarn
    exact ⟨_, w, h, hrun, rfl, hwarn⟩

/-- Without a check, it is the values of the field that are sound. -/
private theorem unchecked_iff {w : Word} {fits : Prop} (h : n.toInt = w.toInt ↔ fits) :
    (([] : List String) ≠ [] ↔ n.toInt ≠ w.toInt) ↔ fits := by
  rw [← h]
  simp

theorem immediateMeaning_instruction (i : Instruction) (h : ¬i.Refused)
    (hn : operandValue s.env i.exprs = .ok n) :
    ImmediateMeaning (.instruction i) s n ↔
      (i.warnings s.env n ≠ [] ↔ n.toInt ≠ (immediate (i.word s.env.pc n)).toInt) :=
  immediateMeaning_iff_of_effect (visitLine_instruction i s) ((i.encodesWith s.env h).eq_ok hn)

theorem immediateMeaning_pseudoInstruction (p : PseudoInstruction) (h : ¬p.Refused)
    (hn : operandValue s.env p.exprs = .ok n) {w : Word} (hw : p.docWords s.env.pc n = [w]) :
    ImmediateMeaning (.pseudoInstruction p) s n ↔
      (p.warnings s.env n ≠ [] ↔ n.toInt ≠ (immediate w).toInt) := by
  have heff := (p.encodesWith s.env h).eq_ok hn
  rw [hw] at heff
  exact immediateMeaning_iff_of_effect (visitLine_pseudoInstruction p s) heff

/-- **When pass 1 warns of exactly the immediates that are cut off**: on every line but `addsi`
    and `cpyhi`, and on these for the values that fit. -/
theorem immediateMeaning_iff {e : Expr} (hl : l.immediate = some e) (hp : s.pass ≠ 0)
    (he : e.eval s.env = .ok n) : ImmediateMeaning l s n ↔ l.ImmediateFits n := by
  have himm : ∀ t ∈ Grammar.aluOpOneRegOneImmNames,
      t ∈ Grammar.aluOpOneRegOneImmNames ++ Grammar.simmNames :=
    fun t ht => List.mem_append_left _ ht
  have hsimm : ∀ t ∈ Grammar.simmNames,
      t ∈ Grammar.aluOpOneRegOneImmNames ++ Grammar.simmNames :=
    fun t ht => List.mem_append_right _ ht
  cases l with
  | scopedLines _ | label _ | directive _ | newline => cases hl
  | instruction i =>
    -- a line with an immediate has it as its only operand, and is not refused
    obtain ⟨hops, hnr⟩ : operandValue s.env i.exprs = .ok n ∧ ¬i.Refused := by
      cases i <;> first | cases hl; exact ⟨he, not_false⟩ | cases hl
    cases i with
    | instrOpGrp1TwoRegsOneImm t rA rB _ =>
      have hall : ∀ t ∈ Grammar.grp1TwoRegsOneImmNames,
          t ∈ Grammar.aluOpOneRegOneImmNames ++ Grammar.simmNames := by decide
      rw [immediateMeaning_instruction _ hnr hops]
      exact iff_of_true (aluOpImmWarnings_iff n hp (hall _ t.property) _ _) trivial
    | instrOpGrp1TwoRegsOneSimm t rA rB _ =>
      rw [immediateMeaning_instruction _ hnr hops]
      exact iff_of_true (aluOpImmWarnings_iff n hp (hsimm _ t.property) _ _) trivial
    | instrOpGrp5TwoRegsOneSimm12Ldst t rA rB _ =>
      rw [immediateMeaning_instruction _ hnr hops]
      refine iff_of_true ?_ trivial
      rw [Instruction.word, immediate_ldstWord]
      exact simm12Warnings_iff n hp
    | instrOpGrp1OneRegOnePcOneSimm rA _ =>
      -- `addsi` and `cpyhi` are encoded without a check
      have hfield : n.toInt = (immediate (immWord 1 rA.index 0 14#4 (n.setWidth 16))).toInt ↔
          -2 ^ 15 ≤ n.toInt ∧ n.toInt < 2 ^ 15 := by
        rw [immediate_immWord, if_pos rfl, toInt_eq_signExtend_iff n (by omega)]
        exact BitField.eq_signExtend_setWidth_iff (by omega) (by omega) n
      exact (immediateMeaning_instruction _ hnr hops).trans (unchecked_iff hfield)
    | instrOpGrp1OneRegOneImm rA _ =>
      have hfield : n.toInt = (immediate (immWord 1 rA.index 0 15#4 (n.setWidth 16))).toInt ↔
          0 ≤ n.toInt ∧ n.toInt < 2 ^ 16 := by
        rw [immediate_immWord, if_neg (by decide), extendImm, if_neg (by decide),
          toInt_eq_setWidth_iff]
        exact BitField.eq_setWidth_setWidth_iff (by omega) n
      exact (immediateMeaning_instruction _ hnr hops).trans (unchecked_iff hfield)
    | _ => cases hl
  | pseudoInstruction p =>
    obtain ⟨hops, hnr⟩ : operandValue s.env p.exprs = .ok n ∧ ¬p.Refused := by
      cases p <;> first | cases hl; exact ⟨he, not_false⟩ | cases hl
    cases p with
    | pseudoInstrOpInvi rA _ =>
      rw [immediateMeaning_pseudoInstruction _ hnr hops rfl]
      exact iff_of_true (aluOpImmWarnings_iff n hp (t := .nori) (by decide) _ _) trivial
    | pseudoInstrOpCpyi rA _ =>
      rw [immediateMeaning_pseudoInstruction _ hnr hops rfl]
      exact iff_of_true (aluOpImmWarnings_iff n hp (t := .addi) (by decide) _ _) trivial
    | pseudoInstrOpAluOpOneRegOneImm t rA _ =>
      rw [immediateMeaning_pseudoInstruction _ hnr hops rfl]
      exact iff_of_true (aluOpImmWarnings_iff n hp (himm _ t.property) _ _) trivial
    | pseudoInstrOpAluOpOneRegOneSimm t rA _ =>
      rw [immediateMeaning_pseudoInstruction _ hnr hops rfl]
      exact iff_of_true (aluOpImmWarnings_iff n hp (hsimm _ t.property) _ _) trivial
    | _ => cases hl

end Lines

/-- An unsigned decimal number as an operand. -/
private def decimal (digits : Digits Char.isDigit) : Expr := .ofAtom (.numExpr (.decNum digits))

/-- `addsi u0, pc, 40000`, whose value does not fit. -/
theorem immediateMeaning_iff_addsi :
    let s := (Assembler.init true).beginPass 1
    let l := Line.instruction (.instrOpGrp1OneRegOnePcOneSimm .u0
      (decimal ⟨['4', '0', '0', '0', '0'], by decide⟩))
    ImmediateMeaning l s 40000 ↔ l.ImmediateFits 40000 :=
  immediateMeaning_iff rfl (by decide) rfl

/-- **A value that is cut off silently**: `cpyhi u0, 74565`. -/
theorem cpyhi_truncated :
    let s := (Assembler.init true).beginPass 1
    let e := decimal ⟨['7', '4', '5', '6', '5'], by decide⟩
    let l := Line.instruction (.instrOpGrp1OneRegOneImm .u0 e)
    s.pass ≠ 0 ∧ l.immediate = some e ∧ e.eval s.env = .ok 74565 ∧ ¬ImmediateMeaning l s 74565 := by
  intro s e l
  refine ⟨by decide, rfl, rfl, ?_⟩
  intro h
  have hnr : ¬(Instruction.instrOpGrp1OneRegOneImm .u0 e).Refused := not_false
  have hwarn := (immediateMeaning_instruction _ hnr (n := 74565) rfl).mp h
  exact hwarn.mpr (by decide) rfl

end Asm

end Frost32
