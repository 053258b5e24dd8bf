import Frost32.Asm.Execution
import Frost32.Hdl.Transparency

namespace Frost32.Asm

open Isa Hdl
open Lib (position progress)

/-!
# The execution of a program under interrupts

A program on the CPU, line by line of its source, with interrupts whose handlers leave the machine
as they found it.

* `Program.wordCount` — the instructions of the lines executed so far.
* `Program.uninterrupted_wordCount` — after so many instructions the machine has executed the
  lines, and each of them has its documented effect in the pipeline.
* `stepFaithful_of_path` — so has each step of the interrupted run, if the handlers' have.
* `every_line_reached` — **the CPU comes to every line of the source**, in its documented state.
-/

/-! ### The instructions of the lines -/

/-- The instructions of the first `k` lines executed. -/
def Program.wordCount (showWords : Bool) (program : Program) (bo : ByteOrder)
    (mem : BitVec 11 → Word) : Nat → Nat
  | 0 => 0
  | k + 1 =>
    program.wordCount showWords bo mem k +
      match program.lineAt showWords (program.execution showWords bo mem k).state.pc with
      | some c => c.words.length
      | none => 0

section Lines

variable {bo : ByteOrder} {mem : BitVec 11 → Word}

/-- Words that are sent are steps of the machine without interrupts. -/
theorem uninterrupted_of_sent {ws : List Word} {i : Nat}
    (h : Sent bo ws (System.uninterrupted mem bo i)) :
    System.uninterrupted mem bo (i + ws.length) =
        execWords bo ws (System.uninterrupted mem bo i) ∧
      ∀ j, i ≤ j → j < i + ws.length →
        System.Faithful (System.uninterrupted mem bo j).fetched
          (System.uninterrupted mem bo j) := by
  induction ws generalizing i with
  | nil => exact ⟨rfl, fun j hlo hhi => absurd hhi (Nat.not_lt_of_le hlo)⟩
  | cons w ws ih =>
    obtain ⟨hw, hfaithful, hrest⟩ := h
    have hnext : System.uninterrupted mem bo (i + 1) =
        exec bo w (System.uninterrupted mem bo i) := by
      show Isa.step bo false _ = _
      rw [Isa.step, hw]
      rfl
    rw [← hnext] at hrest
    obtain ⟨hrun, hgood⟩ := ih hrest
    constructor
    · rw [List.length_cons, Nat.add_comm ws.length, ← Nat.add_assoc, hrun, hnext]
      rfl
    · intro j hlo hhi
      rcases Nat.eq_or_lt_of_le hlo with rfl | hlt
      · rw [hw]
        exact hfaithful
      · rw [List.length_cons] at hhi
        exact hgood j hlt (by omega)

variable {showWords : Bool} {program : Program} {s : Assembler}

/-- **The machine executes the lines**, without interrupts. -/
theorem Program.uninterrupted_wordCount (h : assemble showWords program = .ok s)
    (hw : s.warnings = []) (honce : program.PlacesOnce showWords)
    (halign : program.AlignedCode showWords) (hmem : program.InMemory showWords mem) {k : Nat}
    (hrun : ∀ j < k, program.Executes showWords (program.execution showWords bo mem j).state) :
    System.uninterrupted mem bo (program.wordCount showWords bo mem k) =
        (program.execution showWords bo mem k).state ∧
      ∀ j < program.wordCount showWords bo mem k,
        System.Faithful (System.uninterrupted mem bo j).fetched
          (System.uninterrupted mem bo j) := by
  induction k with
  | zero => exact ⟨rfl, fun j hj => absurd hj (Nat.not_lt_zero j)⟩
  | succ k ih =>
    have hearlier : ∀ j < k,
        program.Executes showWords (program.execution showWords bo mem j).state :=
      fun j hj => hrun j (by omega)
    obtain ⟨hstate, hgood⟩ := ih hearlier
    have hcode := Program.holds_execution h honce halign hmem hearlier
    obtain ⟨c, hline, hsent, hmeaning⟩ : ∃ c,
        program.lineAt showWords (program.execution showWords bo mem k).state.pc = some c ∧
        Sent bo c.words (program.execution showWords bo mem k).state ∧
        execWords bo c.words (program.execution showWords bo mem k).state =
          (program.execution showWords bo mem (k + 1)).state :=
      Program.sent_line h hw hcode (hrun k (Nat.lt_succ_self k))
    rw [← hstate] at hsent
    obtain ⟨hend, hwords⟩ := uninterrupted_of_sent hsent
    rw [Program.wordCount, hline]
    constructor
    · rw [hend, hstate]
      exact hmeaning
    · intro j hj
      by_cases hlt : j < program.wordCount showWords bo mem k
      · exact hgood j hlt
      · exact hwords j (by omega) hj

end Lines

/-! ### The interrupted run -/

/-- What disturbs the effect of an instruction is in the registers. -/
theorem faithful_agree {D : BitVec 11 → Prop} {a b : Arch} {w : Word} (h : Agree D a b)
    (hb : System.Faithful w b) : System.Faithful w a := by
  unfold System.Faithful CallSound
  rw [h.regs, h.pc]
  exact hb

/-- The steps inside of the handlers called in the first `N` moves have their documented effects
    in the pipeline. -/
def HandlersFaithful (mem : BitVec 11 → Word) (irq : Nat → Bool) (bo : ByteOrder)
    (back : Nat → Nat) (N : Nat) : Prop :=
  ∀ n < N, let i := position (System.interruptedAt mem irq bo) back n
    System.interruptedAt mem irq bo i = true → ∀ j, i < j → j < back i →
      System.StepFaithful (irq (System.timedIsa mem irq bo j).time)
        (System.timedIsa mem irq bo j).state

section Run

variable {bo : ByteOrder} {mem : BitVec 11 → Word} {irq : Nat → Bool} {D : BitVec 11 → Prop}
  {back : Nat → Nat} {N : Nat}

/-- **Every step of the interrupted run has its documented effect in the pipeline**: the calls of
    handlers always, the handlers' own by assumption, and the program's because they are those
    of the uninterrupted one. -/
theorem stepFaithful_of_path (hback : System.Restores mem irq bo D back N)
    (hmain : ∀ j < progress (System.interruptedAt mem irq bo) back N,
      Untouched D (System.uninterrupted mem bo j) ∧
        System.Faithful (System.uninterrupted mem bo j).fetched (System.uninterrupted mem bo j))
    (hhandler : HandlersFaithful mem irq bo back N) :
    ∀ j < position (System.interruptedAt mem irq bo) back N,
      System.StepFaithful (irq (System.timedIsa mem irq bo j).time)
        (System.timedIsa mem irq bo j).state := by
  intro j hj
  obtain ⟨n, hn, hlo, hhi⟩ := Lib.exists_move hj
  cases haway : System.interruptedAt mem irq bo
      (position (System.interruptedAt mem irq bo) back n) with
  | true =>
    rw [(Lib.position_succ_of_away haway).1] at hhi
    rcases Nat.eq_or_lt_of_le hlo with rfl | hlt
    · -- the call of the handler
      intro hno
      exact Bool.noConfusion (haway.symm.trans hno)
    · exact hhandler n hn haway j hlt hhi
  | false =>
    rw [(Lib.position_succ_of_not_away haway).1] at hhi
    obtain rfl : position (System.interruptedAt mem irq bo) back n = j := by omega
    intro _
    have hagree := System.agree_uninterrupted hback (fun i hi => (hmain i hi).1) n (by omega)
    obtain ⟨huntouched, hfaithful⟩ := hmain _ (Lib.progress_lt hn haway)
    rw [hagree.fetched huntouched.fetch]
    exact faithful_agree hagree hfaithful

variable {showWords : Bool} {program : Program} {s : Assembler} {k : Nat}

/-- **The CPU executes the source under interrupts**: of an assembled program without warnings,
    whose image is in the memory, the CPU comes to each line in its documented state, if the lines
    before are supported and do not store to the code.  Handlers that restore the machine cost the
    program nothing but time, as long as they do not keep coming. -/
theorem every_line_reached (h : assemble showWords program = .ok s) (hw : s.warnings = [])
    (honce : program.PlacesOnce showWords) (halign : program.AlignedCode showWords)
    (hmem : program.InMemory showWords mem)
    (hrun : ∀ j < k, program.Executes showWords (program.execution showWords bo mem j).state)
    (hmain : ∀ j < program.wordCount showWords bo mem k,
      Untouched D (System.uninterrupted mem bo j))
    (hback : ∀ N, System.Restores mem irq bo D back N)
    (hhandler : ∀ N, HandlersFaithful mem irq bo back N)
    (hgoes : ∀ n, ∃ m ≥ n, System.interruptedAt mem irq bo
      (position (System.interruptedAt mem irq bo) back m) = false)
    (order : BlockOrder) (junk : System) :
    let z := System.runFrom order (.init junk mem) irq
    ∃ t, (z t).AtDecode ∧
      Agree D (z t).arch (program.execution showWords bo mem k).state := by
  intro z
  obtain ⟨hstate, hgood⟩ := Program.uninterrupted_wordCount h hw honce halign hmem hrun
  obtain ⟨n, hn⟩ := Lib.exists_progress hgoes (program.wordCount showWords bo mem k)
  rw [← hn] at hmain hgood hstate
  have hsteps := stepFaithful_of_path (hback n) (fun j hj => ⟨hmain j hj, hgood j hj⟩)
    (hhandler n)
  obtain ⟨hdecode, harch⟩ :=
    System.decodes_on_path (hback n) hsteps order junk (Nat.le_refl n)
  have hagree := System.agree_uninterrupted (hback n) hmain n (Nat.le_refl n)
  rw [← harch, hstate] at hagree
  exact ⟨_, hdecode, hagree⟩

end Run

/-- The handler is the last line, the loop before it waits for the interrupt. -/
def waitingSource : Program :=
  [.instruction (.instrOpGrp1TwoRegsOneImm ⟨.addi, by decide⟩ .u0 .zero
      (.ofAtom (.numExpr (.decNum ⟨['1', '6'], by decide⟩)))),
    .instruction (.instrOpGrp6OneIdstaOneReg .u0),
    .instruction (.instrOpGrp6NoArgs ⟨.ei, by decide⟩),
    .label (.ident "wait"),
    .pseudoInstruction (.pseudoInstrOpBra (.ofName "wait")),
    .instruction (.instrOpGrp6NoArgs ⟨.reti, by decide⟩)]

/-- Interrupted in cycle 9, the loop goes on. -/
theorem every_line_reached_waitingSource :
    let z := System.runFrom .preEdge (.init .cleared (waitingSource.image true)) System.inCycle9
    ∃ t, (z t).AtDecode ∧ Agree (fun _ => False) (z t).arch
      (waitingSource.execution true .littleEndian (waitingSource.image true) 8).state := by
  have hcalled : ∀ i, System.interruptedAt (waitingSource.image true) System.inCycle9
      .littleEndian i = true → i = 3 :=
    fun i hi => System.eq_of_interruptedAt (by decide +kernel) hi
  have hfetched : (System.timedIsa (waitingSource.image true) System.inCycle9 .littleEndian
      4).state.fetched = 0x60000006 := by decide +kernel
  obtain ⟨s, hs, hwarn⟩ : ∃ s, assemble true waitingSource = .ok s ∧ s.warnings = [] := by
    obtain ⟨s, hs⟩ := Fallible.exists_eq_ok
      (show (assemble true waitingSource).isOk = true by decide +kernel)
    have hall : (assemble true waitingSource).toOption.all (fun s => s.warnings.isEmpty)
        = true := by decide +kernel
    rw [hs] at hall
    exact ⟨s, hs, List.isEmpty_iff.mp hall⟩
  refine every_line_reached hs hwarn (by decide +kernel) (by decide +kernel)
    (Program.image_inMemory (by decide +kernel)) (by decide +kernel) ?_
    (System.restores_of_reti ?_) ?_ ?_ .preEdge .cleared
  · have hreads : ∀ j < waitingSource.wordCount true .littleEndian (waitingSource.image true) 8,
        ¬ReadsIreta (System.uninterrupted (waitingSource.image true) .littleEndian j).fetched := by
      decide +kernel
    exact fun j hj => ⟨id, hreads j hj, fun _ => id⟩
  · intro i hi
    rw [hcalled i hi]
    exact hfetched
  · intro N n _ i hi j hlo hhi _
    have hthree : i = 3 := hcalled i hi
    have hback : j < i + 2 := hhi
    obtain rfl : j = 4 := by omega
    rw [hfetched]
    exact .inl ⟨by decide, by decide, by decide⟩
  · exact Lib.exists_not_away_of_one hcalled (by decide)

end Frost32.Asm
