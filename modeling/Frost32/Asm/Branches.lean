import Frost32.Asm.Immediates
import Frost32.Hdl.EveryRun

namespace Frost32.Asm

open Isa Hdl

/-!
# Relative branches

A branch from the line in the source to the instruction the CPU decodes next.

* `Line.target`, `Line.taken` — the target expression of a branch and its condition.
* `BranchesTo` — what a run makes of a word wherever it decodes it.
* `branch_meaning` — **a branch without a warning goes to its target**, and the warning is there
  exactly if the distance does not fit.
-/

/-! ### The lines -/

/-- The condition that a branch is named after. -/
def branchHolds (t : InstrTok) (a b : Word) : Bool :=
  match t with
  | .bne => decide (a ≠ b)
  | .beq => decide (a = b)
  | .bltu => decide (a.toNat < b.toNat)
  | .bgeu => decide (b.toNat ≤ a.toNat)
  | .bleu => decide (a.toNat ≤ b.toNat)
  | .bgtu => decide (b.toNat < a.toNat)
  | .blts => decide (a.toInt < b.toInt)
  | .bges => decide (b.toInt ≤ a.toInt)
  | .bles => decide (a.toInt ≤ b.toInt)
  | .bgts => decide (b.toInt < a.toInt)
  | _ => false

/-- The target of a branch. -/
def Line.target : Line → Option Expr
  | .instruction (.instrOpGrp2Branch _ _ _ e) | .pseudoInstruction (.pseudoInstrOpBra e) => some e
  | _ => none

/-- Whether the branch is taken with the registers `g`. -/
def Line.taken (g : Regs) : Line → Bool
  | .instruction (.instrOpGrp2Branch t rA rB _) =>
    branchHolds t.val (g.val rA.index) (g.val rB.index)
  | .pseudoInstruction (.pseudoInstrOpBra _) => true
  | _ => false

/-- Wherever a run of the system decodes the word `w` at the address `p` and sends it on, the
    next instruction is decoded at `target` if it is taken and at the following one otherwise. -/
def BranchesTo (w p target : Word) (taken : Regs → Bool) : Prop :=
  ∀ (order : BlockOrder) (junk : System) (mem : BitVec 11 → Word) (irq : Nat → Bool) (t : Nat),
    let z := System.runFrom order (.init junk mem) irq
    (z t).AtDecode → (z t).sends (irq t) = true → (z t).decoded = w → (z t).arch.pc = p →
    ∃ t', Lib.NextAt (fun u => (z u).AtDecode) t t' ∧
      (z t').arch.pc = if taken (z t).arch.regs then target else p + 4

/-! ### The words -/

section Words

variable (rA rB : RegIndex) {op : BitVec 4} (imm : BitVec 16)

theorem exec_branchWord (bo : ByteOrder) (hop : op.ult 10#4 = true) (a : Arch) :
    exec bo (immWord 2 rA rB op imm) a =
      if condHolds op (a.regs.val rA) (a.regs.val rB) then
        { a with pc := a.pc + 4 + imm.signExtend 32 }
      else a.next := by
  have hne : ∀ op : BitVec 4, op.ult 10#4 = true → op ≠ 10#4 ∧ op ≠ 11#4 := by decide
  obtain ⟨h10, h11⟩ := hne op hop
  simp only [exec, group_immWord, fieldA_immWord, fieldB_immWord, opcodeHigh_immWord,
    imm16_immWord, branchTaken, if_neg h10, if_neg h11]
  rfl

/-- **A branch in every run.** -/
theorem branchesTo_word (hop : op.ult 10#4 = true) (p : Word) :
    BranchesTo (immWord 2 rA rB op imm) p (p + 4 + imm.signExtend 32) fun g =>
      condHolds op (g.val rA) (g.val rB) := by
  intro order junk mem irq t z ht hs hw hp
  have hd := System.decoding_everyRun order junk mem irq ht
  have hirq : (irq t && (z t).arch.ie) = false := System.not_accepted_of_sends hs
  have hg : group (z t).arch.fetched = 2#4 := by
    rw [← System.decoded_eq hd, hw]
    exact group_immWord 2 op rA rB imm
  obtain ⟨t', -, hnext, harch⟩ := System.next_everyRun order junk mem irq .littleEndian ht
  refine ⟨t', hnext, ?_⟩
  -- a branch is none of the instructions with an outcome of their own
  have hout : (z t).outcome .littleEndian (irq t)
      = exec .littleEndian (z t).arch.fetched (z t).arch := by
    have hmuli : ¬IsMuli (z t).arch.fetched := fun h => absurd (hg.symm.trans h.1) (by decide)
    have hcall : ¬IsCall (z t).arch.fetched := fun h => absurd (hg.symm.trans h.1) (by decide)
    have hsub : ¬IsSubWord (z t).arch.fetched := fun h => absurd (hg.symm.trans h.1) (by decide)
    unfold System.outcome
    rw [hirq]
    exact (if_neg hmuli).trans ((if_neg hcall).trans (if_neg hsub))
  rw [harch, hout, ← System.decoded_eq hd, hw, exec_branchWord rA rB imm .littleEndian hop, ← hp]
  split <;> rfl

end Words

/-- The opcode of a branch stands for the condition in its name. -/
theorem condHolds_branch {t : InstrTok} (ht : t ∈ Grammar.grp2BranchNames) :
    (docOpcode docGroup2 t.text).ult 10#4 = true ∧
      ∀ a b, condHolds (docOpcode docGroup2 t.text) a b = branchHolds t a b := by
  have hlt : ∀ t ∈ Grammar.grp2BranchNames, (docOpcode docGroup2 t.text).ult 10#4 = true := by
    decide
  refine ⟨hlt t ht, ?_⟩
  intro a b
  simp only [Grammar.grp2BranchNames, List.mem_cons, List.not_mem_nil, or_false] at ht
  rcases ht with rfl | rfl | rfl | rfl | rfl | rfl | rfl | rfl | rfl | rfl
  -- `bne` is the only one stated with a negation
  case inl =>
    show (!decide (a = b)) = decide (¬a = b)
    exact decide_not.symm
  all_goals rfl

/-! ### The distance -/

/-- The warning of a branch. -/
theorem branchWarnings_iff (env : Env) (hp : env.pass ≠ 0) (n : BitVec 64) :
    branchWarnings env n ≠ [] ↔ ¬(-32768 ≤ n.toInt ∧ n.toInt ≤ 32767) := by
  have hfits : n = (n.setWidth 16).signExtend 64 ↔ -32768 ≤ n.toInt ∧ n.toInt ≤ 32767 := by
    rw [BitField.eq_signExtend_setWidth_iff (by omega) (by omega)]
    omega
  rw [← hfits]
  simp [branchWarnings, fitsSimm, hp]

/-- **The offset of the assembler and the adder of the CPU cancel.** -/
theorem branch_address {pc target : BitVec 64}
    (h : -32768 ≤ (target - pc - 4).toInt ∧ (target - pc - 4).toInt ≤ 32767) :
    pc.setWidth 32 + 4 + ((target - pc - 4).setWidth 16).signExtend 32 = target.setWidth 32 := by
  have hfits := (BitField.eq_signExtend_setWidth_iff (n := 16) (by omega) (by omega)
    (target - pc - 4)).mpr ⟨h.1, by omega⟩
  have hsum : pc + 4 + (target - pc - 4) = target := by
    rw [BitVec.sub_sub, BitVec.add_comm, BitVec.sub_add_cancel]
  rw [BitField.signExtend_setWidth_of_fits (by omega) (by omega) hfits]
  -- the sum is the target before it is cut to 32 bits, so it is afterwards
  have hcut := congrArg (BitVec.setWidth 32) hsum
  rw [BitVec.setWidth_add _ _ (by omega), BitVec.setWidth_add _ _ (by omega)] at hcut
  exact hcut

/-! ### Every branch -/

/-- The branch line, visited in the state `s` with a target of value `target`, generates one
    word; a warning is printed exactly if the distance is not that of a signed 16-bit offset,
    and without it the CPU goes from the word to the target. -/
def BranchMeaning (l : Line) (s : Assembler) (target : BitVec 64) : Prop :=
  ∃ ef w, l.effect s.env = .ok ef ∧ (visitLine l).run s = .ok ((), s.perform ef) ∧
    ef.data = [.b32 w] ∧
    (ef.warnings ≠ [] ↔ ¬(-32768 ≤ (target - s.pc.curr - 4).toInt ∧
      (target - s.pc.curr - 4).toInt ≤ 32767)) ∧
    (ef.warnings = [] →
      BranchesTo w (s.pc.curr.setWidth 32) (target.setWidth 32) fun g => l.taken g)

section Lines

variable {l : Line} {s : Assembler} {target : BitVec 64}

/-- A line with the effect of a branch. -/
private theorem branchMeaning_of_effect {rA rB : RegIndex} {op : BitVec 4} (hp : s.pass ≠ 0)
    (hop : op.ult 10#4 = true)
    (htaken : ∀ g : Regs, condHolds op (g.val rA) (g.val rB) = l.taken g)
    (hrun : (visitLine l).run s = performing s (l.effect s.env))
    (heff : l.effect s.env = .ok {
      warnings := branchWarnings s.env (target - s.pc.curr - 4)
      data := [.b32 (immWord 2 rA rB op ((target - s.pc.curr - 4).setWidth 16))] }) :
    BranchMeaning l s target := by
  have hwarn := branchWarnings_iff s.env hp (target - s.pc.curr - 4)
  rw [heff] at hrun
  refine ⟨_, _, heff, hrun, rfl, hwarn, fun hnone => ?_⟩
  -- no warning: the offset fits
  have hrange := not_not.mp fun h => hwarn.mpr h hnone
  have hto := branchesTo_word rA rB ((target - s.pc.curr - 4).setWidth 16) hop
    (s.pc.curr.setWidth 32)
  rw [branch_address hrange] at hto
  simp only [htaken] at hto
  exact hto

/-- **Every branch that pass 1 does not warn of goes to its target**, and it warns of exactly
    those that are too far. -/
theorem branch_meaning {e : Expr} (hl : l.target = some e) (hp : s.pass ≠ 0)
    (he : e.eval s.env = .ok target) : BranchMeaning l s target := by
  cases l with
  | scopedLines _ | label _ | directive _ | newline => cases hl
  | instruction i =>
    cases i with
    | instrOpGrp2Branch t rA rB e' =>
      obtain rfl : e' = e := Option.some.inj hl
      obtain ⟨hop, hcond⟩ := condHolds_branch t.property
      have hnr : ¬(Instruction.instrOpGrp2Branch t rA rB e').Refused := not_false
      exact branchMeaning_of_effect hp hop (fun g => hcond _ _) (visitLine_instruction _ s)
        ((Instruction.encodesWith s.env _ hnr).eq_ok he)
    | _ => cases hl
  | pseudoInstruction p =>
    cases p with
    | pseudoInstrOpBra e' =>
      obtain rfl : e' = e := Option.some.inj hl
      have hnr : ¬(PseudoInstruction.pseudoInstrOpBra e').Refused := not_false
      have htaken : ∀ g : Regs, condHolds 1#4 (g.val 0) (g.val 0) = true :=
        fun g => beq_self_eq_true _
      exact branchMeaning_of_effect hp (by decide) htaken (visitLine_pseudoInstruction _ s)
        ((PseudoInstruction.encodesWith s.env _ hnr).eq_ok he)
    | _ => cases hl

end Lines

/-- `bgts u0, u1, .`, a branch to itself. -/
theorem branch_meaning_bgts :
    let s := (Assembler.init true).beginPass 1
    let l := Line.instruction (.instrOpGrp2Branch ⟨.bgts, by decide⟩ .u0 .u1 (.ofAtom .currPc))
    BranchMeaning l s 0 :=
  branch_meaning rfl (by decide) rfl

end Frost32.Asm
