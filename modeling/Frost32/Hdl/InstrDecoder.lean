import Frost32.Hdl.Arithlog

namespace Frost32.Hdl

/-!
# `InstrDecoder` and `PkgInstrDecoder`

The combinational instruction decoder.  An instruction is one 32-bit word; the packed
structs of the package give the same word seven readings, of three shapes:

* `IogRegsInstr` — groups 0, 3, 4 and 6: three register fields, a fill, an opcode.
* `IogImmInstr` — groups 1 and 2: two register fields, an opcode, a 16-bit immediate.
* `Iog5Instr` — loads and stores: three register fields, a 12-bit immediate, an opcode.

The enumerations number their members from zero in the order of the package
(`toBits`); `LdstType` and `CondType` name every value of their field, so the decoder's
outputs carry them directly.

`instrDecoder_of_group0` and its siblings give the decoder's output for each group in terms
of the fields of the instruction word.  `compare_decides_orders`: **the comparison of the
opcode marks exactly the defined jumps and calls as stalling.**
-/

/-! ### The enumerations of the package -/

inductive LdstType
  | ld32 | ldU16 | ldS16 | ldU8 | ldS8 | st32 | st16 | st8
  deriving DecidableEq, Repr

/-- The enumerator with a given 3-bit value. -/
def LdstType.ofBits (b : BitVec 3) : LdstType :=
  match b with
  | 0#3 => .ld32 | 1#3 => .ldU16 | 2#3 => .ldS16 | 3#3 => .ldU8
  | 4#3 => .ldS8 | 5#3 => .st32 | 6#3 => .st16 | 7#3 => .st8

inductive CondType
  | ctNe | ctEq | ctLtu | ctGeu
  | ctLeu | ctGtu | ctLts | ctGes
  | ctLes | ctGts | ctIntsEnabled | ctIntsDisabled
  | ctBad2 | ctBad3 | ctBad4 | ctBad5
  deriving DecidableEq, Repr

def CondType.toBits (c : CondType) : BitVec 4 := BitVec.ofNat 4 c.ctorIdx

/-- The enumerator with a given 4-bit value. -/
def CondType.ofBits (b : BitVec 4) : CondType :=
  match b with
  | 0#4 => .ctNe | 1#4 => .ctEq | 2#4 => .ctLtu | 3#4 => .ctGeu
  | 4#4 => .ctLeu | 5#4 => .ctGtu | 6#4 => .ctLts | 7#4 => .ctGes
  | 8#4 => .ctLes | 9#4 => .ctGts | 10#4 => .ctIntsEnabled | 11#4 => .ctIntsDisabled
  | 12#4 => .ctBad2 | 13#4 => .ctBad3 | 14#4 => .ctBad4 | _ => .ctBad5

inductive Iog0Oper
  | addThreeRegs | subThreeRegs | sltuThreeRegs | sltsThreeRegs
  | sgtuThreeRegs | sgtsThreeRegs | mulThreeRegs | andThreeRegs
  | orrThreeRegs | xorThreeRegs | norThreeRegs | lslThreeRegs
  | lsrThreeRegs | asrThreeRegs | udivThreeRegs | sdivThreeRegs

inductive Iog1Oper
  | addiTwoRegsOneImm | subiTwoRegsOneImm | sltuiTwoRegsOneImm | sltsiTwoRegsOneSimm
  | sgtuiTwoRegsOneImm | sgtsiTwoRegsOneSimm | muliTwoRegsOneImm | andiTwoRegsOneImm
  | orriTwoRegsOneImm | xoriTwoRegsOneImm | noriTwoRegsOneImm | lsliTwoRegsOneImm
  | lsriTwoRegsOneImm | asriTwoRegsOneImm | addsiOneRegOnePcOneSimm | cpyhiOneRegOneImm

inductive Iog2Oper
  | bneTwoRegsOneSimm | beqTwoRegsOneSimm | bltuTwoRegsOneSimm | bgeuTwoRegsOneSimm
  | bleuTwoRegsOneSimm | bgtuTwoRegsOneSimm | bltsTwoRegsOneSimm | bgesTwoRegsOneSimm
  | blesTwoRegsOneSimm | bgtsTwoRegsOneSimm
  | bintsenabledTwoRegsOneSimm | bintsdisabledTwoRegsOneSimm
  | bad2Iog2 | bad3Iog2 | bad4Iog2 | bad5Iog2

inductive Iog3Oper
  | jneTwoRegsOneSimm | jeqTwoRegsOneSimm | jltuTwoRegsOneSimm | jgeuTwoRegsOneSimm
  | jleuTwoRegsOneSimm | jgtuTwoRegsOneSimm | jltsTwoRegsOneSimm | jgesTwoRegsOneSimm
  | jlesTwoRegsOneSimm | jgtsTwoRegsOneSimm | bad0Iog3 | bad1Iog3
  | bad2Iog3 | bad3Iog3 | bad4Iog3 | bad5Iog3

inductive Iog4Oper
  | cneTwoRegsOneSimm | ceqTwoRegsOneSimm | cltuTwoRegsOneSimm | cgeuTwoRegsOneSimm
  | cleuTwoRegsOneSimm | cgtuTwoRegsOneSimm | cltsTwoRegsOneSimm | cgesTwoRegsOneSimm
  | clesTwoRegsOneSimm | cgtsTwoRegsOneSimm | bad0Iog4 | bad1Iog4
  | bad2Iog4 | bad3Iog4 | bad4Iog4 | bad5Iog4

inductive Iog5Oper
  | ldrThreeRegsLdst | ldhThreeRegsLdst | ldshThreeRegsLdst | ldbThreeRegsLdst
  | ldsbThreeRegsLdst | strThreeRegsLdst | sthThreeRegsLdst | stbThreeRegsLdst
  | ldriTwoRegsOneSimm12Ldst | ldhiTwoRegsOneSimm12Ldst
  | ldshiTwoRegsOneSimm12Ldst | ldbiTwoRegsOneSimm12Ldst
  | ldsbiTwoRegsOneSimm12Ldst | striTwoRegsOneSimm12Ldst
  | sthiTwoRegsOneSimm12Ldst | stbiTwoRegsOneSimm12Ldst

inductive Iog6Oper
  | eiNoArgs | diNoArgs | cpyOneIretaOneReg | cpyOneRegOneIreta
  | cpyOneIdstaOneReg | cpyOneRegOneIdsta | retiNoArgs | bad0Iog6
  | bad1Iog6 | bad2Iog6 | bad3Iog6 | bad4Iog6
  | bad5Iog6 | bad6Iog6 | bad7Iog6 | bad8Iog6

def Iog0Oper.toBits (op : Iog0Oper) : BitVec 4 := BitVec.ofNat 4 op.ctorIdx
def Iog1Oper.toBits (op : Iog1Oper) : BitVec 4 := BitVec.ofNat 4 op.ctorIdx
def Iog2Oper.toBits (op : Iog2Oper) : BitVec 4 := BitVec.ofNat 4 op.ctorIdx
def Iog3Oper.toBits (op : Iog3Oper) : BitVec 4 := BitVec.ofNat 4 op.ctorIdx
def Iog4Oper.toBits (op : Iog4Oper) : BitVec 4 := BitVec.ofNat 4 op.ctorIdx
def Iog5Oper.toBits (op : Iog5Oper) : BitVec 4 := BitVec.ofNat 4 op.ctorIdx
def Iog6Oper.toBits (op : Iog6Oper) : BitVec 4 := BitVec.ofNat 4 op.ctorIdx

/-- The members that name a jump; the other six are called bad. -/
def Iog3Oper.jumps : List Iog3Oper :=
  [.jneTwoRegsOneSimm, .jeqTwoRegsOneSimm, .jltuTwoRegsOneSimm, .jgeuTwoRegsOneSimm,
    .jleuTwoRegsOneSimm, .jgtuTwoRegsOneSimm, .jltsTwoRegsOneSimm, .jgesTwoRegsOneSimm,
    .jlesTwoRegsOneSimm, .jgtsTwoRegsOneSimm]

/-- The members that name a call; the other six are called bad. -/
def Iog4Oper.calls : List Iog4Oper :=
  [.cneTwoRegsOneSimm, .ceqTwoRegsOneSimm, .cltuTwoRegsOneSimm, .cgeuTwoRegsOneSimm,
    .cleuTwoRegsOneSimm, .cgtuTwoRegsOneSimm, .cltsTwoRegsOneSimm, .cgesTwoRegsOneSimm,
    .clesTwoRegsOneSimm, .cgtsTwoRegsOneSimm]

/-! ### The packed structs -/

/-- `Iog0Instr`, `Iog3Instr`, `Iog4Instr` and `Iog6Instr`, fields from bit 31 down. -/
structure IogRegsInstr where
  group : BitVec 4
  raIndex : RegIndex
  rbIndex : RegIndex
  rcIndex : RegIndex
  fill : BitVec 12
  opcode : BitVec 4

/-- `Iog1Instr` and `Iog2Instr`. -/
structure IogImmInstr where
  group : BitVec 4
  raIndex : RegIndex
  rbIndex : RegIndex
  opcode : BitVec 4
  immVal : BitVec 16

structure Iog5Instr where
  group : BitVec 4
  raIndex : RegIndex
  rbIndex : RegIndex
  rcIndex : RegIndex
  immVal12 : BitVec 12
  opcode : BitVec 4

/-- `assign __iog0_instr = in`, and likewise for groups 3, 4 and 6. -/
def IogRegsInstr.ofBits (w : Word) : IogRegsInstr where
  group := w.extractLsb' 28 4
  raIndex := w.extractLsb' 24 4
  rbIndex := w.extractLsb' 20 4
  rcIndex := w.extractLsb' 16 4
  fill := w.extractLsb' 4 12
  opcode := w.extractLsb' 0 4

/-- `assign __iog1_instr = in` and `assign __iog2_instr = in`. -/
def IogImmInstr.ofBits (w : Word) : IogImmInstr where
  group := w.extractLsb' 28 4
  raIndex := w.extractLsb' 24 4
  rbIndex := w.extractLsb' 20 4
  opcode := w.extractLsb' 16 4
  immVal := w.extractLsb' 0 16

def Iog5Instr.ofBits (w : Word) : Iog5Instr where
  group := w.extractLsb' 28 4
  raIndex := w.extractLsb' 24 4
  rbIndex := w.extractLsb' 20 4
  rcIndex := w.extractLsb' 16 4
  immVal12 := w.extractLsb' 4 12
  opcode := w.extractLsb' 0 4

/-! ### The decoder -/

structure PortOutInstrDecoder where
  group : BitVec 4
  raIndex : RegIndex
  rbIndex : RegIndex
  rcIndex : RegIndex
  opcode : BitVec 4
  immVal : BitVec 16
  ldstType : LdstType
  causesStall : Bool
  conditionType : CondType
  deriving DecidableEq

/-- `__out_compare_ctrl_flow.ltu`: the opcode compared with `Bad0_Iog3`, by `Compare`. -/
def outCompareCtrlFlowLtu (opcode : BitVec 4) : Bool :=
  (compare opcode Iog3Oper.bad0Iog3.toBits).ltu

/-- The combinational decoder. -/
def instrDecoder (w : Word) : PortOutInstrDecoder :=
  let iogRegs := IogRegsInstr.ofBits w
  let iogImm := IogImmInstr.ofBits w
  let iog5 := Iog5Instr.ofBits w
  match iogRegs.group with
  -- Group 0:  Three Registers
  | 0#4 =>
    { group := iogRegs.group, raIndex := iogRegs.raIndex, rbIndex := iogRegs.rbIndex,
      rcIndex := iogRegs.rcIndex, opcode := iogRegs.opcode, immVal := 0, ldstType := .ld32,
      causesStall := iogRegs.opcode == Iog0Oper.mulThreeRegs.toBits
        || iogRegs.opcode == Iog0Oper.udivThreeRegs.toBits
        || iogRegs.opcode == Iog0Oper.sdivThreeRegs.toBits,
      conditionType := .ctNe }
  -- Group 1:  Immediates
  | 1#4 =>
    { group := iogImm.group, raIndex := iogImm.raIndex, rbIndex := iogImm.rbIndex,
      rcIndex := 0, opcode := iogImm.opcode, immVal := iogImm.immVal, ldstType := .ld32,
      causesStall := iogImm.opcode == Iog1Oper.muliTwoRegsOneImm.toBits,
      conditionType := .ctNe }
  -- Group 2:  Branches
  | 2#4 =>
    { group := iogImm.group, raIndex := iogImm.raIndex, rbIndex := iogImm.rbIndex,
      rcIndex := 0, opcode := iogImm.opcode, immVal := iogImm.immVal, ldstType := .ld32,
      causesStall := iogImm.opcode.ult Iog2Oper.bad2Iog2.toBits,
      conditionType := .ofBits iogImm.opcode }
  -- Group 3:  Jumps
  | 3#4 =>
    { group := iogRegs.group, raIndex := iogRegs.raIndex, rbIndex := iogRegs.rbIndex,
      rcIndex := iogRegs.rcIndex, opcode := iogRegs.opcode, immVal := 0, ldstType := .ld32,
      causesStall := outCompareCtrlFlowLtu iogRegs.opcode,
      conditionType := .ofBits iogRegs.opcode }
  -- Group 4:  Calls
  | 4#4 =>
    { group := iogRegs.group, raIndex := iogRegs.raIndex, rbIndex := iogRegs.rbIndex,
      rcIndex := iogRegs.rcIndex, opcode := iogRegs.opcode, immVal := 0, ldstType := .ld32,
      causesStall := outCompareCtrlFlowLtu iogRegs.opcode,
      conditionType := .ofBits iogRegs.opcode }
  -- Group 5:  Loads and stores; the 12-bit immediate is sign extended to 16 bits and the
  -- low opcode bits are the access, by the order of the opcodes
  | 5#4 =>
    { group := iog5.group, raIndex := iog5.raIndex, rbIndex := iog5.rbIndex,
      rcIndex := iog5.rcIndex, opcode := iog5.opcode,
      immVal := iog5.immVal12.signExtend 16,
      ldstType := .ofBits (iog5.opcode.extractLsb' 0 3), causesStall := true,
      conditionType := .ctNe }
  -- Group 6:  Interrupts stuff
  | 6#4 =>
    { group := iogRegs.group, raIndex := iog5.raIndex, rbIndex := iog5.rbIndex,
      rcIndex := iog5.rcIndex, opcode := iog5.opcode, immVal := 0, ldstType := .ld32,
      causesStall := iog5.opcode == Iog6Oper.cpyOneIretaOneReg.toBits
        || iog5.opcode == Iog6Oper.cpyOneIdstaOneReg.toBits
        || iog5.opcode == Iog6Oper.retiNoArgs.toBits
        || iog5.opcode == Iog6Oper.eiNoArgs.toBits
        || iog5.opcode == Iog6Oper.diNoArgs.toBits,
      conditionType := .ctNe }
  -- Invalid instruction group:  treat it as "add zero, zero, zero"
  | _ =>
    { group := 0, raIndex := 0, rbIndex := 0, rcIndex := 0, opcode := 0, immVal := 0,
      ldstType := .ld32, causesStall := false, conditionType := .ctNe }

/-! ### The output for each group -/

section Groups

open Isa

variable {w : Word}

theorem instrDecoder_of_group0 (h : group w = 0#4) :
    instrDecoder w =
      { group := 0#4, raIndex := fieldA w, rbIndex := fieldB w, rcIndex := fieldC w,
        opcode := opcodeLow w, immVal := 0#16, ldstType := .ld32,
        causesStall := opcodeLow w == 6#4 || opcodeLow w == 14#4 || opcodeLow w == 15#4,
        conditionType := .ctNe } := by
  unfold instrDecoder
  dsimp only
  rw [show (IogRegsInstr.ofBits w).group = 0#4 from h]
  rfl

theorem instrDecoder_of_group1 (h : group w = 1#4) :
    instrDecoder w =
      { group := 1#4, raIndex := fieldA w, rbIndex := fieldB w, rcIndex := 0#4,
        opcode := opcodeHigh w, immVal := imm16 w, ldstType := .ld32,
        causesStall := opcodeHigh w == 6#4, conditionType := .ctNe } := by
  unfold instrDecoder
  dsimp only
  rw [show (IogRegsInstr.ofBits w).group = 1#4 from h,
    show (IogImmInstr.ofBits w).group = 1#4 from h]
  rfl

theorem instrDecoder_of_group2 (h : group w = 2#4) :
    instrDecoder w =
      { group := 2#4, raIndex := fieldA w, rbIndex := fieldB w, rcIndex := 0#4,
        opcode := opcodeHigh w, immVal := imm16 w, ldstType := .ld32,
        causesStall := (opcodeHigh w).ult 12#4, conditionType := .ofBits (opcodeHigh w) } := by
  unfold instrDecoder
  dsimp only
  rw [show (IogRegsInstr.ofBits w).group = 2#4 from h,
    show (IogImmInstr.ofBits w).group = 2#4 from h]
  rfl

/-- `Compare` against `Bad0_Iog3` separates the defined control flow opcodes. -/
theorem outCompareCtrlFlowLtu_eq (op : BitVec 4) : outCompareCtrlFlowLtu op = op.ult 10#4 := by
  rw [outCompareCtrlFlowLtu, compare_eq]
  rfl

theorem instrDecoder_of_group3 (h : group w = 3#4) :
    instrDecoder w =
      { group := 3#4, raIndex := fieldA w, rbIndex := fieldB w, rcIndex := fieldC w,
        opcode := opcodeLow w, immVal := 0#16, ldstType := .ld32,
        causesStall := (opcodeLow w).ult 10#4, conditionType := .ofBits (opcodeLow w) } := by
  unfold instrDecoder
  dsimp only
  rw [show (IogRegsInstr.ofBits w).group = 3#4 from h, outCompareCtrlFlowLtu_eq]
  rfl

theorem instrDecoder_of_group4 (h : group w = 4#4) :
    instrDecoder w =
      { group := 4#4, raIndex := fieldA w, rbIndex := fieldB w, rcIndex := fieldC w,
        opcode := opcodeLow w, immVal := 0#16, ldstType := .ld32,
        causesStall := (opcodeLow w).ult 10#4, conditionType := .ofBits (opcodeLow w) } := by
  unfold instrDecoder
  dsimp only
  rw [show (IogRegsInstr.ofBits w).group = 4#4 from h, outCompareCtrlFlowLtu_eq]
  rfl

theorem instrDecoder_of_group5 (h : group w = 5#4) :
    instrDecoder w =
      { group := 5#4, raIndex := fieldA w, rbIndex := fieldB w, rcIndex := fieldC w,
        opcode := opcodeLow w, immVal := (simm12 w).signExtend 16,
        ldstType := .ofBits ((opcodeLow w).extractLsb' 0 3), causesStall := true,
        conditionType := .ctNe } := by
  unfold instrDecoder
  dsimp only
  rw [show (IogRegsInstr.ofBits w).group = 5#4 from h, show (Iog5Instr.ofBits w).group = 5#4 from h]
  rfl

theorem instrDecoder_of_group6 (h : group w = 6#4) :
    instrDecoder w =
      { group := 6#4, raIndex := fieldA w, rbIndex := fieldB w, rcIndex := fieldC w,
        opcode := opcodeLow w, immVal := 0#16, ldstType := .ld32,
        causesStall := opcodeLow w == 2#4 || opcodeLow w == 4#4 || opcodeLow w == 6#4
          || opcodeLow w == 0#4 || opcodeLow w == 1#4,
        conditionType := .ctNe } := by
  unfold instrDecoder
  dsimp only
  rw [show (IogRegsInstr.ofBits w).group = 6#4 from h]
  rfl

/-- The undefined groups are decoded as "add zero, zero, zero". -/
theorem instrDecoder_of_undefined (h : 7 ≤ (group w).toNat) :
    instrDecoder w =
      { group := 0#4, raIndex := 0#4, rbIndex := 0#4, rcIndex := 0#4, opcode := 0#4,
        immVal := 0#16, ldstType := .ld32, causesStall := false, conditionType := .ctNe } := by
  have hne : ∀ g : BitVec 4, g.toNat < 7 → (IogRegsInstr.ofBits w).group ≠ g := by
    intro g hg he
    rw [show group w = g from he] at h
    omega
  unfold instrDecoder
  dsimp only
  split
  case h_8 => rfl
  all_goals exact absurd ‹_› (hne _ (by decide))

/-- Every group is one of these. -/
theorem group_cases (w : Word) :
    group w = 0#4 ∨ group w = 1#4 ∨ group w = 2#4 ∨ group w = 3#4 ∨ group w = 4#4 ∨
      group w = 5#4 ∨ group w = 6#4 ∨ 7 ≤ (group w).toNat := by
  generalize group w = g
  revert g
  decide

/-- The group put out is that of the word, or 0 for an undefined one. -/
theorem instrDecoder_group (w : Word) :
    (instrDecoder w).group = if 7 ≤ (group w).toNat then 0#4 else group w := by
  rcases group_cases w with h | h | h | h | h | h | h | h
  · rw [instrDecoder_of_group0 h, if_neg (by rw [h]; decide), h]
  · rw [instrDecoder_of_group1 h, if_neg (by rw [h]; decide), h]
  · rw [instrDecoder_of_group2 h, if_neg (by rw [h]; decide), h]
  · rw [instrDecoder_of_group3 h, if_neg (by rw [h]; decide), h]
  · rw [instrDecoder_of_group4 h, if_neg (by rw [h]; decide), h]
  · rw [instrDecoder_of_group5 h, if_neg (by rw [h]; decide), h]
  · rw [instrDecoder_of_group6 h, if_neg (by rw [h]; decide), h]
  · rw [instrDecoder_of_undefined h, if_pos h]

/-! ### Jumps and calls that stall -/

/-- The jumps come before all bad members. -/
theorem ult_iff_mem_jumps (op : BitVec 4) :
    op.ult 10#4 = true ↔ op ∈ Iog3Oper.jumps.map Iog3Oper.toBits := by
  revert op
  decide

/-- The decoder compares calls with `Bad0_Iog3` too: they have the opcodes of the jumps. -/
theorem calls_eq_jumps :
    Iog4Oper.calls.map Iog4Oper.toBits = Iog3Oper.jumps.map Iog3Oper.toBits := rfl

theorem causesStall_iff_of_group3 (h : group w = 3#4) :
    (instrDecoder w).causesStall = true ↔ opcodeLow w ∈ Iog3Oper.jumps.map Iog3Oper.toBits := by
  rw [instrDecoder_of_group3 h]
  exact ult_iff_mem_jumps (opcodeLow w)

theorem causesStall_iff_of_group4 (h : group w = 4#4) :
    (instrDecoder w).causesStall = true ↔ opcodeLow w ∈ Iog4Oper.calls.map Iog4Oper.toBits := by
  rw [instrDecoder_of_group4 h, calls_eq_jumps]
  exact ult_iff_mem_jumps (opcodeLow w)

/-- **`Compare` decides both orders at every width, so that the decoder marks exactly the defined
    jumps and calls as stalling.** -/
theorem compare_decides_orders :
    (∀ {n : Nat} (a b : BitVec n),
      ((compare a b).ltu = true ↔ a.toNat < b.toNat) ∧
        ((compare a b).lts = true ↔ a.toInt < b.toInt)) ∧
    (∀ {w : Word}, group w = 3#4 →
      ((instrDecoder w).causesStall = true ↔
        opcodeLow w ∈ Iog3Oper.jumps.map Iog3Oper.toBits)) ∧
    ∀ {w : Word}, group w = 4#4 →
      ((instrDecoder w).causesStall = true ↔
        opcodeLow w ∈ Iog4Oper.calls.map Iog4Oper.toBits) := by
  refine ⟨?_, causesStall_iff_of_group3, causesStall_iff_of_group4⟩
  intro n a b
  rw [compare_eq]
  exact ⟨decide_eq_true_iff, decide_eq_true_iff⟩

end Groups

end Frost32.Hdl
