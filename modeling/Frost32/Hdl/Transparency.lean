import Frost32.Frame
import Frost32.Lib.Detour
import Frost32.Hdl.Timing

namespace Frost32.Hdl

open Isa (Arch Agree Untouched)
open Lib (position progress)

/-!
# Transparent interrupts

A program under interrupts whose handlers leave the machine as they found it.

* `uninterrupted` — the program on the machine without interrupts.
* `Restores` — every handler comes back to the interrupted instruction, with the state it was
  called in but for `ireta` and its own words of the memory; `restores_of_reti`, a `reti` alone
  does.
* `interrupts_transparent` — **outside of its handlers the CPU executes the program as if there
  were no interrupts.**
* `every_instruction_reached` — **and it comes to every instruction of the program**, unless
  interrupts keep coming.
-/

namespace System

section Run

variable (mem : BitVec 11 → Word) (irq : Nat → Bool) (bo : Isa.ByteOrder)

/-- The state after `k` instructions without an interrupt. -/
def uninterrupted : Nat → Arch
  | 0 => Isa.reset mem
  | k + 1 => Isa.step bo false (uninterrupted k)

/-- An interrupt is accepted in step `i` of the machine. -/
def interruptedAt (i : Nat) : Bool :=
  irq (timedIsa mem irq bo i).time && (timedIsa mem irq bo i).state.ie

/-- In the first `N` moves every handler comes back: a handler called in step `i` has done so
    before step `back i`. -/
def Restores (D : BitVec 11 → Prop) (back : Nat → Nat) (N : Nat) : Prop :=
  ∀ n < N, let i := position (interruptedAt mem irq bo) back n
    interruptedAt mem irq bo i = true →
      i < back i ∧ Agree D (timedIsa mem irq bo (back i)).state (timedIsa mem irq bo i).state

variable {mem irq bo} {D : BitVec 11 → Prop} {back : Nat → Nat} {N : Nat}

/-- A step in which no interrupt is accepted. -/
theorem state_succ_of_not_interrupted {i : Nat} (h : interruptedAt mem irq bo i = false) :
    (timedIsa mem irq bo (i + 1)).state = Isa.step bo false (timedIsa mem irq bo i).state :=
  step_of_no_interrupt h bo

/-- **A handler that is a `reti` restores the machine.** -/
theorem restores_of_reti (hreti : ∀ i, interruptedAt mem irq bo i = true →
      (timedIsa mem irq bo (i + 1)).state.fetched = 0x60000006) (N : Nat) :
    Restores mem irq bo (fun _ => False) (fun i => i + 2) N := by
  intro n _ i hi
  have hie : (timedIsa mem irq bo i).state.ie = true := (Bool.and_eq_true_iff.mp hi).2
  have hcall : (timedIsa mem irq bo (i + 1)).state =
      Isa.enterInterrupt (timedIsa mem irq bo i).state := if_pos hi
  -- the handler itself is not interrupted
  have hno : interruptedAt mem irq bo (i + 1) = false := by
    unfold interruptedAt
    rw [hcall]
    exact Bool.and_false _
  have hreturn : (timedIsa mem irq bo (i + 2)).state =
      Isa.exec bo 0x60000006 (timedIsa mem irq bo (i + 1)).state := by
    rw [state_succ_of_not_interrupted hno, ← hreti i hi]
    rfl
  refine ⟨Nat.lt_add_of_pos_right (by decide), ?_⟩
  rw [hreturn, hcall]
  exact ⟨rfl, rfl, rfl, hie.symm, fun _ _ => rfl⟩

/-- The machine outside of its handlers. -/
theorem agree_uninterrupted (hback : Restores mem irq bo D back N)
    (hmain : ∀ k < progress (interruptedAt mem irq bo) back N,
      Untouched D (uninterrupted mem bo k)) :
    ∀ n ≤ N, Agree D (timedIsa mem irq bo (position (interruptedAt mem irq bo) back n)).state
      (uninterrupted mem bo (progress (interruptedAt mem irq bo) back n)) := by
  refine Lib.related_of_detours (fun i => (timedIsa mem irq bo i).state) (uninterrupted mem bo)
    (Agree.refl _) ?_ ?_
  · intro n hn hno hagree
    show Agree D (timedIsa mem irq bo _).state _
    rw [state_succ_of_not_interrupted hno]
    exact Isa.step_agree bo hagree (hmain _ (Lib.progress_lt hn hno))
  · intro n hn haway hagree
    exact (hback n hn haway).2.trans hagree

/-- The CPU outside of its handlers. -/
theorem decodes_on_path (hback : Restores mem irq bo D back N)
    (hr : ∀ i < position (interruptedAt mem irq bo) back N,
      StepFaithful (irq (timedIsa mem irq bo i).time) (timedIsa mem irq bo i).state)
    (order : BlockOrder) (junk : System) {n : Nat} (hn : n ≤ N) :
    let u := timedIsa mem irq bo (position (interruptedAt mem irq bo) back n)
    (runFrom order (init junk mem) irq u.time).AtDecode ∧
      (runFrom order (init junk mem) irq u.time).arch = u.state := by
  obtain ⟨h, -⟩ := (init_leads order junk mem).run irq
  exact (paced_step order junk mem irq bo).in_step (s := ⟨2, Isa.reset mem⟩) h.counter h.arch hr _
    (Lib.position_mono (fun k hk haway => (hback k hk haway).1) hn)

/-- **Interrupts that restore the machine are invisible**: after any number of moves, each of
    them an instruction of the program or a handler from its call to its return, the CPU decodes
    the next instruction of the uninterrupted program, in its state but for `ireta` and the words
    of the handlers. -/
theorem interrupts_transparent (hback : Restores mem irq bo D back N)
    (hmain : ∀ k < progress (interruptedAt mem irq bo) back N,
      Untouched D (uninterrupted mem bo k))
    (hr : ∀ i < position (interruptedAt mem irq bo) back N,
      StepFaithful (irq (timedIsa mem irq bo i).time) (timedIsa mem irq bo i).state)
    (order : BlockOrder) (junk : System) :
    let z := runFrom order (init junk mem) irq
    ∀ n ≤ N,
      let t := (timedIsa mem irq bo (position (interruptedAt mem irq bo) back n)).time
      (z t).AtDecode ∧
        Agree D (z t).arch (uninterrupted mem bo (progress (interruptedAt mem irq bo) back n)) := by
  intro z n hn t
  obtain ⟨hdecode, harch⟩ := decodes_on_path hback hr order junk hn
  refine ⟨hdecode, ?_⟩
  have hagree := agree_uninterrupted hback hmain n hn
  rw [← harch] at hagree
  exact hagree

/-- **No instruction is kept waiting forever**: if after every move there is a later one that is
    no interrupt, the CPU comes to each instruction of the uninterrupted program. -/
theorem every_instruction_reached (hback : ∀ N, Restores mem irq bo D back N)
    (hmain : ∀ k, Untouched D (uninterrupted mem bo k))
    (hr : ∀ i, StepFaithful (irq (timedIsa mem irq bo i).time) (timedIsa mem irq bo i).state)
    (hgoes : ∀ n, ∃ m ≥ n,
      interruptedAt mem irq bo (position (interruptedAt mem irq bo) back m) = false)
    (order : BlockOrder) (junk : System) (k : Nat) :
    let z := runFrom order (init junk mem) irq
    ∃ t, (z t).AtDecode ∧ Agree D (z t).arch (uninterrupted mem bo k) := by
  intro z
  obtain ⟨n, hn⟩ := Lib.exists_progress hgoes k
  obtain ⟨hdecode, harch⟩ :=
    decodes_on_path (hback n) (fun i _ => hr i) order junk (Nat.le_refl n)
  have hagree := agree_uninterrupted (hback n) (fun k _ => hmain k) n (Nat.le_refl n)
  rw [← harch, hn] at hagree
  exact ⟨_, hdecode, hagree⟩

end Run

/-- `addi u0, zero, 16`, `cpy idsta, u0`, `ei`, a branch to itself, and the handler `reti`. -/
def waitingProgram (i : BitVec 11) : Word :=
  if i = 0 then 0x11000010 else if i = 1 then 0x61000004 else if i = 2 then 0x60000000
  else if i = 3 then 0x2001FFFC else 0x60000006

/-- The line is high in cycle 9 only, when the branch is decoded. -/
def inCycle9 (t : Nat) : Bool := t == 9

/-- It is high in one step of the machine at most. -/
theorem eq_of_interruptedAt {mem : BitVec 11 → Word} {bo : Isa.ByteOrder} {i k : Nat}
    (hk : (timedIsa mem inCycle9 bo k).time = 9) (hi : interruptedAt mem inCycle9 bo i = true) :
    i = k := by
  have htime : (timedIsa mem inCycle9 bo i).time = 9 :=
    of_decide_eq_true (Bool.and_eq_true_iff.mp hi).1
  exact (time_strictMono mem inCycle9 bo).injective (htime.trans hk.symm)

theorem eq_three_of_interruptedAt {i : Nat}
    (hi : interruptedAt waitingProgram inCycle9 .littleEndian i = true) : i = 3 :=
  eq_of_interruptedAt (by decide +kernel) hi

theorem restores_waitingProgram (N : Nat) :
    Restores waitingProgram inCycle9 .littleEndian (fun _ => False) (fun i => i + 2) N := by
  refine restores_of_reti ?_ N
  intro i hi
  obtain rfl := eq_three_of_interruptedAt hi
  decide +kernel

/-- The branch is interrupted once. -/
theorem interrupts_transparent_waiting :
    let pos := position (interruptedAt waitingProgram inCycle9 .littleEndian) fun i => i + 2
    let prog := progress (interruptedAt waitingProgram inCycle9 .littleEndian) fun i => i + 2
    let z := runFrom .preEdge (init cleared waitingProgram) inCycle9
    ∀ n ≤ 5, let t := (timedIsa waitingProgram inCycle9 .littleEndian (pos n)).time
      (z t).AtDecode ∧ Agree (fun _ => False) (z t).arch
        (uninterrupted waitingProgram .littleEndian (prog n)) := by
  have hprog : progress (interruptedAt waitingProgram inCycle9 .littleEndian) (fun i => i + 2) 5
      = 4 := by decide +kernel
  have hpos : position (interruptedAt waitingProgram inCycle9 .littleEndian) (fun i => i + 2) 5
      = 6 := by decide +kernel
  refine interrupts_transparent (restores_waitingProgram 5) ?_ ?_ .preEdge cleared
  · rw [hprog]
    have hreads : ∀ k < 4,
        ¬Isa.ReadsIreta (uninterrupted waitingProgram .littleEndian k).fetched := by decide +kernel
    exact fun k hk => ⟨id, hreads k hk, fun _ => id⟩
  · rw [hpos]
    have hrefined : ∀ i < 6,
        let w := (timedIsa waitingProgram inCycle9 .littleEndian i).state.fetched
        ¬IsMuli w ∧ ¬IsCall w ∧ ¬IsSubWord w := by decide +kernel
    intro i hi _
    obtain ⟨hmuli, hcall, hsub⟩ := hrefined i hi
    exact .inl ⟨hmuli, hcall, hsub⟩

/-- The branch of `waitingProgram` leaves the machine where it is. -/
theorem step_wait {a : Arch} (h : a.fetched = 0x2001FFFC) :
    Isa.step .littleEndian false a = a := by
  have hval : Isa.branchTaken 1#4 (a.regs.val 0#4) (a.regs.val 0#4) a.ie = true := by
    simp [Isa.branchTaken, Isa.condHolds]
  have htarget : a.pc + 4 + (Isa.imm16 0x2001FFFC).signExtend 32 = a.pc := by
    rw [BitVec.add_assoc]
    exact BitVec.add_zero a.pc
  calc Isa.step .littleEndian false a
      = { a with pc := a.pc + 4 + (Isa.imm16 0x2001FFFC).signExtend 32 } := by
        unfold Isa.step
        rw [Bool.false_and, h]
        exact if_pos hval
    _ = a := by rw [htarget]

/-- From its third instruction on the program waits. -/
theorem uninterrupted_wait (k : Nat) : uninterrupted waitingProgram .littleEndian (3 + k) =
    uninterrupted waitingProgram .littleEndian 3 := by
  induction k with
  | zero => rfl
  | succ k ih =>
    show Isa.step .littleEndian false (uninterrupted waitingProgram .littleEndian (3 + k)) = _
    rw [ih]
    exact step_wait (by decide +kernel)

/-- So does the machine with the interrupt, once it is back from the handler. -/
theorem timedIsa_wait (k : Nat) : (timedIsa waitingProgram inCycle9 .littleEndian (5 + k)).state =
    (timedIsa waitingProgram inCycle9 .littleEndian 5).state := by
  induction k with
  | zero => rfl
  | succ k ih =>
    have hno : interruptedAt waitingProgram inCycle9 .littleEndian (5 + k) = false := by
      refine Bool.eq_false_iff.mpr fun hi => ?_
      have hthree := eq_three_of_interruptedAt hi
      omega
    show (timedIsa waitingProgram inCycle9 .littleEndian (5 + k + 1)).state = _
    rw [state_succ_of_not_interrupted hno, ih]
    exact step_wait (by decide +kernel)

/-- The program waits on after its interrupt. -/
theorem every_instruction_reached_waiting :
    let z := runFrom .preEdge (init cleared waitingProgram) inCycle9
    ∃ t, (z t).AtDecode ∧
      Agree (fun _ => False) (z t).arch (uninterrupted waitingProgram .littleEndian 1000) := by
  refine every_instruction_reached restores_waitingProgram ?_ ?_
    (Lib.exists_not_away_of_one (fun _ => eq_three_of_interruptedAt) (by decide)) .preEdge
    cleared 1000
  · have hreads : ∀ k < 4,
        ¬Isa.ReadsIreta (uninterrupted waitingProgram .littleEndian k).fetched := by decide +kernel
    intro k
    refine ⟨id, ?_, fun _ => id⟩
    by_cases hk : k < 4
    · exact hreads k hk
    · obtain ⟨j, rfl⟩ : ∃ j, k = 3 + j := ⟨k - 3, by omega⟩
      rw [uninterrupted_wait]
      exact hreads 3 (by decide)
  · have hrefined : ∀ i < 6,
        let w := (timedIsa waitingProgram inCycle9 .littleEndian i).state.fetched
        ¬IsMuli w ∧ ¬IsCall w ∧ ¬IsSubWord w := by decide +kernel
    have hall : ∀ i, let w := (timedIsa waitingProgram inCycle9 .littleEndian i).state.fetched
        ¬IsMuli w ∧ ¬IsCall w ∧ ¬IsSubWord w := by
      intro i
      by_cases hi : i < 6
      · exact hrefined i hi
      · obtain ⟨j, rfl⟩ : ∃ j, i = 5 + j := ⟨i - 5, by omega⟩
        rw [timedIsa_wait]
        exact hrefined 5 (by decide)
    intro i _
    obtain ⟨hmuli, hcall, hsub⟩ := hall i
    exact .inl ⟨hmuli, hcall, hsub⟩

end System

end Frost32.Hdl
