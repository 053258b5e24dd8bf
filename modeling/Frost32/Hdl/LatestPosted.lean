import Frost32.Hdl.WaitForMem

namespace Frost32.Hdl

namespace Frost32Cpu

/-!
# Operands and posted values

An edge posts a value for a register when the execute stage loads its write-back record with the
register.  From the edge on the value is in the two forwarding registers, the write port, the
read ports or the array of the register file.

* `LoadsRecord`, `Posts` — the edges that load the record, and with which register.
* `liveRegs_run` — the live registers are the values posted last.
* `DeliversLatest` — an operand is the value posted last for its register.
* `forwarding_delivers_latest` — **this holds of all operands in every cycle of every run.**
-/

variable {order : BlockOrder} {i : PortInFrost32Cpu} {s : Frost32Cpu}

/-! ### Posting a value -/

/-- The edge loads the write-back record: there is a branch for the groups up to 6 only. -/
def LoadsRecord (i : PortInFrost32Cpu) (s : Frost32Cpu) : Prop :=
  i.waitForMem = false ∧ s.decode.multiStageDataExecute.instrGroup ≤ 6#4

/-- The edge loads it with the register `r`. -/
def Posts (i : PortInFrost32Cpu) (s : Frost32Cpu) (r : RegIndex) : Prop :=
  LoadsRecord i s ∧ (s.executeStage i).prevWrittenRegIndex0 = r

instance : Decidable (LoadsRecord i s) := inferInstanceAs (Decidable (_ ∧ _))

instance (r : RegIndex) : Decidable (Posts i s r) := inferInstanceAs (Decidable (_ ∧ _))

/-- Any other edge keeps the record. -/
theorem executeStage_of_not_loadsRecord (h : ¬LoadsRecord i s) :
    (s.executeStage i).prevWrittenRegIndex0 = s.execute.prevWrittenRegIndex0 ∧
      (s.executeStage i).nRegData0 = s.execute.nRegData0 := by
  unfold executeStage
  cases hw : i.waitForMem with
  | true => exact ⟨rfl, rfl⟩
  | false =>
    have hgroup : ¬s.decode.multiStageDataExecute.instrGroup ≤ 6#4 := fun hle => h ⟨hw, hle⟩
    rw [if_neg (by decide)]
    split
    all_goals first
      | exact ⟨rfl, rfl⟩
      | (rename_i heq; rw [heq] at hgroup; exact absurd (by decide) hgroup)

/-- The value that the edge posts for the register `r`. -/
def posted (r : RegIndex) (i : PortInFrost32Cpu) (s : Frost32Cpu) : Option Word :=
  if Posts i s r then some (s.executeStage i).nRegData0 else none

/-- An edge changes the live value of a register exactly by posting one. -/
theorem liveRegs_step_val (h : s.WritePortOk) (hw : i.waitForMem = false) {r : RegIndex}
    (hr : r ≠ 0#4) : (s.step i order).liveRegs.val r = (posted r i s).getD (s.liveRegs.val r) := by
  rw [liveRegs_step h hw]
  by_cases hloads : LoadsRecord i s
  · by_cases hposts : (s.executeStage i).prevWrittenRegIndex0 = r
    · rw [posted, if_pos ⟨hloads, hposts⟩, hposts, Isa.Regs.set_val_self hr, Option.getD_some]
    · rw [posted, if_neg fun h => hposts h.2, Isa.Regs.set_val_of_ne (Ne.symm hposts),
        Option.getD_none]
  · -- the record is loaded with itself
    obtain ⟨hindex, hdata⟩ := executeStage_of_not_loadsRecord hloads
    rw [posted, if_neg fun h => hloads h.1, Option.getD_none, hindex, hdata, liveRegs,
      Isa.Regs.set_set]

/-! ### Runs -/

/-- Nothing has been posted before the first edge, and every register is 0. -/
theorem liveRegs_init (junk : Frost32Cpu) (r : RegIndex) : (init junk).liveRegs.val r = 0 := by
  by_cases hr : r = 0#4
  · rw [hr, Isa.Regs.zero]
  · unfold liveRegs arrayRegs
    rw [Isa.Regs.set_val, Isa.Regs.set_val]
    simp [init, RegisterFile.init]

section Run

variable (order) (junk : Frost32Cpu) (input : Nat → PortInFrost32Cpu)

/-- The cycles of a run. -/
def cycles : Nat → Frost32Cpu := Lib.run (fun i s => step i s order) (init junk) input

variable {input} (hw : ∀ t, (input t).waitForMem = false)
include hw

/-- **The live registers are the values posted last.** -/
theorem liveRegs_run {r : RegIndex} (hr : r ≠ 0#4) (n : Nat) :
    (cycles order junk input n).liveRegs.val r =
      Lib.latest 0 (fun t => posted r (input t) (cycles order junk input t)) n := by
  induction n with
  | zero => exact liveRegs_init junk r
  | succ n ih =>
    have hinv : (cycles order junk input n).WaitInv := waitInv_run junk input n
    rw [Lib.latest_succ, ← ih]
    exact liveRegs_step_val hinv.writePort (hw n) hr

/-- Without waiting the read ports always have the registers in the execute latch. -/
theorem readsLatch_run (n : Nat) : (cycles order junk input n).ReadsLatch := by
  cases n with
  | zero => exact readsLatch_init junk
  | succ n =>
    have hinv : (cycles order junk input n).WaitInv := waitInv_run junk input n
    exact readsLatch_step hinv.latch (.inl (hw n))

end Run

/-! ### Operands -/

/-- `x` is 0 for the register zero, and for any other register `r` the value that the latest
    edge before cycle `n` loaded with `r`, 0 if there is none. -/
structure DeliversLatest (input : Nat → PortInFrost32Cpu) (z : Nat → Frost32Cpu) (n : Nat)
    (r : RegIndex) (x : Word) : Prop where
  zero : r = 0#4 → x = 0
  latest : r ≠ 0#4 → ∀ t < n, Posts (input t) (z t) r →
    (∀ u, t < u → u < n → ¬Posts (input u) (z u) r) → x = (z (t + 1)).execute.nRegData0
  never : r ≠ 0#4 → (∀ t < n, ¬Posts (input t) (z t) r) → x = 0

/-- The live value of a register is delivered. -/
theorem deliversLatest_liveRegs (junk : Frost32Cpu) {input : Nat → PortInFrost32Cpu}
    (hw : ∀ t, (input t).waitForMem = false) (n : Nat) (r : RegIndex) :
    DeliversLatest input (cycles order junk input) n r
      ((cycles order junk input n).liveRegs.val r) := by
  constructor
  · rintro rfl
    exact Isa.Regs.zero _
  · intro hr t ht hposts hquiet
    rw [liveRegs_run order junk hw hr]
    apply Lib.latest_of_event ht
    · exact if_pos hposts
    · exact fun u htu hun => if_neg (hquiet u htu hun)
  · intro hr hnever
    rw [liveRegs_run order junk hw hr]
    exact Lib.latest_of_none fun t ht => if_neg (hnever t ht)

/-- **Operand forwarding delivers the value posted last**, for each operand in every cycle of
    every run. -/
theorem forwarding_delivers_latest (order : BlockOrder) (junk : Frost32Cpu)
    (input : Nat → PortInFrost32Cpu) (hw : ∀ t, (input t).waitForMem = false) (n : Nat) :
    let z := cycles order junk input
    let m := (z n).decode.multiStageDataExecute
    DeliversLatest input z n m.instrRaIndex (z n).rfileData.ra ∧
      DeliversLatest input z n m.instrRbIndex (z n).rfileData.rb ∧
      DeliversLatest input z n m.instrRcIndex (z n).rfileData.rc := by
  intro z m
  have hdata : (z n).rfileData = _ := rfileData_eq (readsLatch_run order junk hw n)
  rw [hdata]
  exact ⟨deliversLatest_liveRegs junk hw n _, deliversLatest_liveRegs junk hw n _,
    deliversLatest_liveRegs junk hw n _⟩

/-- "addi r1, zero, 5" and then "add r2, r1, zero". -/
def addInput (t : Nat) : PortInFrost32Cpu :=
  busWord false (if t = 2 then 0x11000005#32 else if t = 3 then 0x02100000#32 else 0#32)

/-- The addition gets the 5 that the edge before has posted for `r1`. -/
theorem forwarding_delivers_latest_addi :
    let z := cycles .preEdge System.cleared.cpu addInput
    (z 4).decode.multiStageDataExecute.instrRbIndex = 1#4 ∧ (z 4).execute.nRegData0 = 5#32 ∧
      (z 4).rfileData.rb = (z 4).execute.nRegData0 := by
  refine ⟨by decide, by decide, ?_⟩
  obtain ⟨-, hrb, -⟩ :=
    forwarding_delivers_latest .preEdge System.cleared.cpu addInput (fun _ => rfl) 4
  exact hrb.latest (by decide) 3 (by decide) (by decide) (fun u hu hu' => absurd hu' (by omega))

end Frost32Cpu

end Frost32.Hdl
