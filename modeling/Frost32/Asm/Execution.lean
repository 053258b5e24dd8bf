import Frost32.Asm.CodeLines
import Frost32.Hdl.Timing

namespace Frost32.Asm

open Isa Fallible Hdl

/-!
# The execution of a program

A program on the CPU, line by line of its source.

* `Line.Supported` — the lines that have their documented effect in the pipeline.
* `Sent`, `run_of_sent` — words one after the other are steps of the machine with a clock;
  `sent_words`: the words of a supported line are.
* `CodeLine.mem_meaning` — a line changes no word of the memory but the one it stores to.
* `Program.execution` — the source as a machine with a clock, a step of which is a line.
* `program_on_cpu` — **the CPU executes the lines of the source**, each in its cycles.
-/

/-! ### Lines in the pipeline -/

/-- The calls on equality and unsigned conditions. -/
def unsignedCalls : List InstrTok := [.cne, .ceq, .cltu, .cgeu, .cleu, .cgtu]

/-- The line has its documented effect in the pipeline: it is no `muli`, no access of 16 or 8
    bits and no signed call, and a call reads no `lr`. -/
def Line.Supported : Line → Prop
  | .instruction (.instrOpGrp1TwoRegsOneImm t _ _ _) => t.val ≠ .muli
  | .instruction (.instrOpGrp4Call t rA rB rC) =>
    t.val ∈ unsignedCalls ∧ rA ≠ .lr ∧ rB ≠ .lr ∧ rC ≠ .lr
  | .instruction (.instrOpGrp5ThreeRegsLdst t _ _ _) => t.val = .ldr ∨ t.val = .str
  | .instruction (.instrOpGrp5TwoRegsOneSimm12Ldst t _ _ _) => t.val = .ldri ∨ t.val = .stri
  | .pseudoInstruction (.pseudoInstrOpCall rC) => rC ≠ .lr
  | .pseudoInstruction (.pseudoInstrOpJmpaCallaConditional t rA rB _) =>
    isCall t.val → rA ≠ .lr ∧ rB ≠ .lr
  | .pseudoInstruction (.pseudoInstrOpAluOpOneRegOneImm t _ _) => t.val ≠ .muli
  | _ => True

instance (l : Line) : Decidable l.Supported := by
  unfold Line.Supported
  split <;> infer_instance

section Words

variable {g op : BitVec 4} {rA rB rC : RegIndex} {imm : BitVec 16} {simm : BitVec 12} {a : Arch}

theorem refined_immWord (hg : g ≠ 4#4 ∧ g ≠ 5#4) (hop : g = 1#4 → op ≠ 6#4) :
    Refined (immWord g rA rB op imm) where
  not_muli h := hop (by simpa using h.1) (by simpa using h.2)
  not_call h := hg.1 (by simpa using h.1)
  not_subWord h := hg.2 (by simpa using h.1)

theorem refined_fieldsWord (hg : g ≠ 1#4 ∧ g ≠ 4#4 ∧ g ≠ 5#4) :
    Refined (fieldsWord g op rA rB rC simm) where
  not_muli h := hg.1 (by simpa using h.1)
  not_call h := hg.2.1 (by simpa using h.1)
  not_subWord h := hg.2.2 (by simpa using h.1)

/-- A load or store of a whole word. -/
theorem refined_ldstWord (hop : op.extractLsb' 0 3 = 0#3 ∨ op.extractLsb' 0 3 = 5#3) :
    Refined (fieldsWord 5 op rA rB rC simm) where
  not_muli h := absurd ((group_fieldsWord 5 op rA rB rC simm).symm.trans h.1) (by decide)
  not_call h := absurd ((group_fieldsWord 5 op rA rB rC simm).symm.trans h.1) (by decide)
  not_subWord h := by
    obtain ⟨-, h0, h5⟩ := h
    rw [opcodeLow_fieldsWord] at h0 h5
    exact hop.elim h0 h5

/-- A call that reads no `lr` is not disturbed by its early write. -/
theorem faithful_callWord (hop : op.ult 6#4 = true) (hA : rA ≠ lr) (hB : rB ≠ lr) (hC : rC ≠ lr) :
    System.Faithful (regsWord 4 rA rB rC op) a := by
  have hcond : ∀ g : Regs, callCondition (regsWord 4 rA rB rC op) g =
      condHolds op (g.val rA) (g.val rB) := by
    intro g
    rw [callCondition, regsWord_eq, opcodeLow_fieldsWord, fieldA_fieldsWord, fieldB_fieldsWord]
  refine .inr ⟨⟨group_fieldsWord 4 op rA rB rC 0, ?_⟩, ?_⟩
  · rwa [regsWord_eq, opcodeLow_fieldsWord]
  unfold CallSound
  rw [hcond, hcond, Regs.set_val_of_ne hA, Regs.set_val_of_ne hB]
  cases condHolds op (a.regs.val rA) (a.regs.val rB) with
  | false => exact .inl rfl
  | true => exact .inr (.inr ⟨by rwa [regsWord_eq, fieldC_fieldsWord], rfl⟩)

end Words

theorem index_ne_lr {r : TokReg} (h : r ≠ .lr) : r.index ≠ lr := by
  cases r
  case lr => exact absurd rfl h
  all_goals decide

theorem Instruction.faithful_word {i : Instruction} (h : (Line.instruction i).Supported)
    (pc n : BitVec 64) (a : Arch) : System.Faithful (i.word pc n) a := by
  cases i with
  | instrOpGrp0ThreeRegs t rA rB rC => exact .inl (refined_fieldsWord (by decide))
  | instrOpGrp1TwoRegsOneImm t rA rB e =>
    have hall : ∀ t ∈ Grammar.grp1TwoRegsOneImmNames, t ≠ .muli →
        docOpcode docGroup1 t.text ≠ 6#4 := by decide
    exact .inl (refined_immWord (by decide) fun _ => hall t.val t.property h)
  | instrOpGrp1TwoRegsOneSimm t rA rB e =>
    have hall : ∀ t ∈ Grammar.simmNames, docOpcode docGroup1 t.text ≠ 6#4 := by decide
    exact .inl (refined_immWord (by decide) fun _ => hall t.val t.property)
  | instrOpGrp1OneRegOnePcOneSimm rA e | instrOpGrp1OneRegOneImm rA e =>
    exact .inl (refined_immWord (by decide) (by decide))
  | instrOpGrp2Branch t rA rB e =>
    exact .inl (refined_immWord (by decide) fun h => absurd h (by decide))
  | instrOpGrp3Jump t rA rB rC => exact .inl (refined_fieldsWord (by decide))
  | instrOpGrp4Call t rA rB rC =>
    have hall : ∀ t ∈ unsignedCalls, (docOpcode docGroup4 t.text).ult 6#4 = true := by decide
    obtain ⟨ht, hA, hB, hC⟩ := h
    exact faithful_callWord (hall t.val ht) (index_ne_lr hA) (index_ne_lr hB) (index_ne_lr hC)
  | instrOpGrp5ThreeRegsLdst t rA rB rC =>
    have hall : ∀ t, t = InstrTok.ldr ∨ t = .str →
        (docOpcode docGroup5 t.text).extractLsb' 0 3 = 0#3 ∨
          (docOpcode docGroup5 t.text).extractLsb' 0 3 = 5#3 := by
      rintro t (rfl | rfl) <;> decide
    exact .inl (refined_ldstWord (hall t.val h))
  | instrOpGrp5TwoRegsOneSimm12Ldst t rA rB e =>
    have hall : ∀ t, t = InstrTok.ldri ∨ t = .stri →
        (8 + docOpcode docGroup5Simm t.text).extractLsb' 0 3 = 0#3 ∨
          (8 + docOpcode docGroup5Simm t.text).extractLsb' 0 3 = 5#3 := by
      rintro t (rfl | rfl) <;> decide
    exact .inl (refined_ldstWord (hall t.val h))
  | instrOpGrp6NoArgs t => exact .inl (refined_fieldsWord (by decide))
  | instrOpGrp6OneIretaOneReg rA | instrOpGrp6OneRegOneIreta rA
  | instrOpGrp6OneIdstaOneReg rA | instrOpGrp6OneRegOneIdsta rA =>
    exact .inl (refined_fieldsWord (by decide))

/-! ### The words of a line, one after the other -/

/-- The words follow in the memory from the program counter on, and each has its documented
    effect in the pipeline. -/
def Sent (bo : ByteOrder) : List Word → Arch → Prop
  | [], _ => True
  | w :: ws, a => a.fetched = w ∧ System.Faithful w a ∧ Sent bo ws (exec bo w a)

section Sent

variable {bo : ByteOrder} {a : Arch}

theorem sent_append {ws ws' : List Word} (h : Sent bo ws a)
    (h' : Sent bo ws' (execWords bo ws a)) : Sent bo (ws ++ ws') a := by
  induction ws generalizing a with
  | nil => exact h'
  | cons w ws ih => exact ⟨h.1, h.2.1, ih h.2.2 h'⟩

/-- **Words that are sent are steps of the machine with a clock**, and take all of its time. -/
theorem run_of_sent {ws : List Word} (h : Sent bo ws a) (t : Nat) :
    let run := Lib.Timed.run (fun _ a => cyclesOf a.fetched) (fun _ a => Isa.step bo false a) ⟨t, a⟩
    run ws.length = ⟨t + (ws.map cyclesOf).sum, execWords bo ws a⟩ ∧
      ∀ k < ws.length, (run k).time < t + (ws.map cyclesOf).sum ∧
        System.Faithful (run k).state.fetched (run k).state := by
  induction ws generalizing a t with
  | nil => exact ⟨rfl, fun k hk => absurd hk (Nat.not_lt_zero k)⟩
  | cons w ws ih =>
    intro run
    obtain ⟨hw, hfaithful, hrest⟩ := h
    -- the first step is the first word
    have hfirst : Lib.Timed.step (fun _ a => cyclesOf a.fetched)
        (fun _ a => Isa.step bo false a) ⟨t, a⟩ = ⟨t + cyclesOf w, exec bo w a⟩ := by
      unfold Lib.Timed.step Isa.step
      simp only [Bool.false_and, hw, Bool.false_eq_true, if_false]
    obtain ⟨hrun, hgood⟩ := ih hrest (t + cyclesOf w)
    have hsucc : ∀ k, run (k + 1) = Lib.Timed.run (fun _ a => cyclesOf a.fetched)
        (fun _ a => Isa.step bo false a) ⟨t + cyclesOf w, exec bo w a⟩ k := by
      intro k
      rw [← hfirst]
      exact Lib.Timed.run_succ_left _ _ _ k
    rw [List.length_cons, List.map_cons, List.sum_cons, ← Nat.add_assoc]
    constructor
    · rw [hsucc, hrun]
      rfl
    · intro k hk
      cases k with
      | zero =>
        have hpos := cyclesOf_pos w
        refine ⟨show t < t + cyclesOf w + _ by omega, ?_⟩
        show System.Faithful a.fetched a
        rw [hw]
        exact hfaithful
      | succ k =>
        rw [hsucc]
        exact hgood k (Nat.lt_of_succ_lt_succ hk)

theorem sent_single {w : Word} (h : Holds a.mem (placeWords a.pc [w]))
    (hw : System.Faithful w a) : Sent bo [w] a :=
  ⟨h _ List.mem_cons_self, hw, trivial⟩

/-- The two words that load a constant. -/
theorem sent_docCpya {r : RegIndex} {n : BitVec 64}
    (h : Holds a.mem (placeWords a.pc (docCpya r n)))
    : Sent bo (docCpya r n) a := by
  have hlow : System.Faithful (immWord 1 r 0 0 (n.setWidth 16)) a :=
    .inl (refined_immWord (by decide) (by decide))
  refine ⟨h _ List.mem_cons_self, hlow, ?_⟩
  rw [exec_immWord]
  exact sent_single (fun p hp => h p (List.mem_cons_of_mem _ hp))
    (.inl (refined_immWord (by decide) (by decide)))

/-- The constant in `temp`, and one more word. -/
theorem sent_docCpya_concat {n : BitVec 64} {w : Word}
    (h : Holds a.mem (placeWords a.pc (docCpya temp n ++ [w])))
    (hw : System.Faithful w
      { a with regs := a.regs.set temp (n.setWidth 32), pc := a.pc + 8 }) :
    Sent bo (docCpya temp n ++ [w]) a := by
  have hcpya : Holds a.mem (placeWords a.pc (docCpya temp n)) := by
    intro p hp
    refine h p ?_
    rcases hp with _ | ⟨_, hp⟩
    · exact .head _
    · rcases hp with _ | ⟨_, hp⟩
      · exact .tail _ (.head _)
      · cases hp
  refine sent_append (sent_docCpya hcpya) ?_
  have hstate : execWords bo (docCpya temp n) a =
      { a with regs := a.regs.set temp (n.setWidth 32), pc := a.pc + 8 } :=
    execWords_docCpya bo .temp
  rw [hstate]
  refine ⟨?_, hw, trivial⟩
  have hlast := h (a.pc + 4 + 4, w) (.tail _ (.tail _ (.head _)))
  rw [BitVec.add_assoc] at hlast
  exact hlast

/-- **The words of a supported line are sent one after the other.** -/
theorem sent_words {l : Line} {pc n : BitVec 64} (hs : l.Supported)
    (h : Holds a.mem (placeWords a.pc (l.words pc n))) :
    Sent bo (l.words pc n) a := by
  have himm : ∀ {g op : BitVec 4} {rA rB : RegIndex} {imm : BitVec 16} (_ : g ≠ 4#4 ∧ g ≠ 5#4)
      (_ : g = 1#4 → op ≠ 6#4), System.Faithful (immWord g rA rB op imm) a :=
    fun hg hop => .inl (refined_immWord hg hop)
  have hregs : ∀ {g op : BitVec 4} {rA rB rC : RegIndex} (_ : g ≠ 1#4 ∧ g ≠ 4#4 ∧ g ≠ 5#4)
      {b : Arch}, System.Faithful (regsWord g rA rB rC op) b :=
    fun hg => .inl (refined_fieldsWord hg)
  cases l with
  | scopedLines _ | label _ | directive _ | newline => trivial
  | instruction i => exact sent_single h (i.faithful_word hs pc n a)
  | pseudoInstruction p =>
    cases p with
    | pseudoInstrOpInv rA rB | pseudoInstrOpJmp rC => exact sent_single h (hregs (by decide))
    | pseudoInstrOpInvi rA e | pseudoInstrOpCpyi rA e =>
      exact sent_single h (himm (by decide) (by decide))
    | pseudoInstrOpGrpCpy rA rB =>
      cases rB with
      | some rB => exact sent_single h (hregs (by decide))
      | none => exact sent_single h (himm (by decide) (by decide))
    | pseudoInstrOpCpya rA e => exact sent_docCpya h
    | pseudoInstrOpBra e => exact sent_single h (himm (by decide) (by decide))
    | pseudoInstrOpCall rC =>
      exact sent_single h
        (faithful_callWord (by decide) (by decide) (by decide) (index_ne_lr hs))
    | pseudoInstrOpJmpa e => exact sent_docCpya_concat h (hregs (by decide))
    | pseudoInstrOpCalla e =>
      exact sent_docCpya_concat h
        (faithful_callWord (by decide) (by decide) (by decide) (by decide))
    | pseudoInstrOpJmpaCallaConditional t rA rB e =>
      refine sent_docCpya_concat h ?_
      obtain ⟨t, ht⟩ := t
      have hcases : t = .jmpane ∨ t = .jmpaeq ∨ t = .callane ∨ t = .callaeq := by
        simpa [Grammar.jmpaCallaConditionalNames] using ht
      rcases hcases with rfl | rfl | rfl | rfl
      -- the jumps, then the calls
      case inl | inr.inl => exact hregs (by decide)
      all_goals
        obtain ⟨hA, hB⟩ := hs rfl
        exact faithful_callWord (by decide) (index_ne_lr hA) (index_ne_lr hB) (by decide)
    | pseudoInstrOpIncDec t rA =>
      refine sent_single h (himm (by decide) fun _ => ?_)
      split <;> decide
    | pseudoInstrOpAluOpTwoReg t rA rB => exact sent_single h (hregs (by decide))
    | pseudoInstrOpAluOpOneRegOneImm t rA e =>
      have hall : ∀ t ∈ Grammar.aluOpOneRegOneImmNames, t ≠ .muli →
          docOpcode docGroup1 t.text ≠ 6#4 := by decide
      exact sent_single h (himm (by decide) fun _ => hall t.val t.property hs)
    | pseudoInstrOpAluOpOneRegOneSimm t rA e =>
      have hall : ∀ t ∈ Grammar.simmNames, docOpcode docGroup1 t.text ≠ 6#4 := by decide
      exact sent_single h (himm (by decide) fun _ => hall t.val t.property)

end Sent

/-! ### Stores -/

/-- The address of a store. -/
def CodeLine.storeAddress (c : CodeLine) (a : Arch) : Option Word :=
  match c.line with
  | .instruction (.instrOpGrp5ThreeRegsLdst t _ rB rC) =>
    if t.val ∈ [.str, .sth, .stb] then some (a.regs.val rB.index + a.regs.val rC.index) else none
  | .instruction (.instrOpGrp5TwoRegsOneSimm12Ldst t _ rB _) =>
    if t.val ∈ [.stri, .sthi, .stbi] then some (a.regs.val rB.index + simm12Of c.operand) else none
  | _ => none

/-- The address, if there is one, lies in none of the words. -/
def Outside (ws : List (Word × Word)) : Option Word → Prop
  | some addr => ∀ p ∈ ws, wordIndex p.1 ≠ wordIndex addr
  | none => True

instance (ws : List (Word × Word)) : (o : Option Word) → Decidable (Outside ws o)
  | some addr => List.decidableBAll (fun p : Word × Word => wordIndex p.1 ≠ wordIndex addr) ws
  | none => .isTrue trivial

section Stores

variable (bo : ByteOrder) (a : Arch)

theorem mem_ldstMeaning (t : InstrTok) (r : RegIndex) (addr : Word) :
    (ldstMeaning bo t r addr a).mem = a.mem ∨
      t ∈ [InstrTok.str, .sth, .stb, .stri, .sthi, .stbi] ∧
        ∃ v, (ldstMeaning bo t r addr a).mem = Function.update a.mem (wordIndex addr) v := by
  unfold ldstMeaning
  split
  all_goals first
    | exact .inl rfl
    | exact .inr ⟨by decide, _, rfl⟩

/-- **A line changes no word of the memory but the one it stores to.** -/
theorem CodeLine.mem_meaning (c : CodeLine) :
    (c.meaning bo a).mem = a.mem ∨ ∃ addr v, c.storeAddress a = some addr ∧
      (c.meaning bo a).mem = Function.update a.mem (wordIndex addr) v := by
  obtain ⟨pc, n, l⟩ := c
  cases l with
  | scopedLines _ | label _ | directive _ | newline => exact .inl rfl
  | pseudoInstruction p =>
    refine .inl ?_
    cases p with
    | pseudoInstrOpGrpCpy rA rB => cases rB <;> rfl
    | pseudoInstrOpJmpaCallaConditional t rA rB e =>
      show (PseudoInstruction.meaningWith _ _ n a _).mem = a.mem
      unfold PseudoInstruction.meaningWith
      dsimp only
      split <;> rfl
    | _ => rfl
  | instruction i =>
    cases i with
    | instrOpGrp5ThreeRegsLdst t rA rB rC =>
      rcases mem_ldstMeaning bo a t.val rA.index (a.regs.val rB.index + a.regs.val rC.index) with
        hmem | ⟨ht, v, hmem⟩
      · exact .inl hmem
      · have hall : ∀ t ∈ Grammar.grp5ThreeRegsLdstNames,
            t ∈ [InstrTok.str, .sth, .stb, .stri, .sthi, .stbi] →
              t ∈ [InstrTok.str, .sth, .stb] := by decide
        exact .inr ⟨_, v, if_pos (hall t.val t.property ht), hmem⟩
    | instrOpGrp5TwoRegsOneSimm12Ldst t rA rB e =>
      rcases mem_ldstMeaning bo a t.val rA.index (a.regs.val rB.index + simm12Of n) with
        hmem | ⟨ht, v, hmem⟩
      · exact .inl hmem
      · have hall : ∀ t ∈ Grammar.grp5TwoRegsOneSimm12LdstNames,
            t ∈ [InstrTok.str, .sth, .stb, .stri, .sthi, .stbi] →
              t ∈ [InstrTok.stri, .sthi, .stbi] := by decide
        exact .inr ⟨_, v, if_pos (hall t.val t.property ht), hmem⟩
    | instrOpGrp2Branch t rA rB e =>
      refine .inl ?_
      show (if _ then _ else _ : Arch).mem = a.mem
      split <;> rfl
    | instrOpGrp3Jump t rA rB rC =>
      refine .inl ?_
      show (if _ then _ else _ : Arch).mem = a.mem
      split <;> rfl
    | instrOpGrp4Call t rA rB rC =>
      refine .inl ?_
      show (if _ then _ else _ : Arch).mem = a.mem
      split <;> rfl
    | instrOpGrp6NoArgs t =>
      refine .inl ?_
      unfold CodeLine.meaning Line.meaning Instruction.meaning
      dsimp only
      split <;> rfl
    | _ => exact .inl rfl

/-- **The words stay where a line does not store to them.** -/
theorem Holds.meaning {ws : List (Word × Word)} {bo : ByteOrder} {a : Arch} {c : CodeLine}
    (h : Holds a.mem ws) (hout : Outside ws (c.storeAddress a)) :
    Holds (c.meaning bo a).mem ws := by
  rcases c.mem_meaning bo a with hmem | ⟨addr, v, haddr, hmem⟩
  · rwa [hmem]
  · rw [haddr] at hout
    intro p hp
    rw [hmem, Function.update_of_ne (hout p hp)]
    exact h p hp

end Stores

/-! ### The source as a machine -/

namespace Program

variable (showWords : Bool) (program : Program) (bo : ByteOrder)

/-- The line of code at an address. -/
def lineAt (pc : Word) : Option CodeLine :=
  (program.code showWords).find? fun c => c.addr.setWidth 32 = pc

/-- The cycles of the line at the program counter, over all of its words. -/
def lineCycles (a : Arch) : Nat :=
  match program.lineAt showWords a.pc with
  | some c => (c.words.map cyclesOf).sum
  | none => 0

/-- The effect of the line at the program counter. -/
def stepLine (a : Arch) : Arch :=
  match program.lineAt showWords a.pc with
  | some c => c.meaning bo a
  | none => a

/-- The program after `k` lines, from the state after reset in the memory `mem`. -/
def execution (mem : BitVec 11 → Word) (k : Nat) : Lib.Timed Arch :=
  Lib.Timed.run (fun _ a => program.lineCycles showWords a)
    (fun _ a => program.stepLine showWords bo a) ⟨2, reset mem⟩ k

/-- There is a line at the program counter; it is supported and does not store to the code. -/
def Executes (a : Arch) : Prop :=
  match program.lineAt showWords a.pc with
  | some c => c.line.Supported ∧ Outside (codeWords (program.code showWords)) (c.storeAddress a)
  | none => False

instance (a : Arch) : Decidable (program.Executes showWords a) := by
  unfold Executes
  split <;> infer_instance

/-- The memory with the image of the program and 0 elsewhere. -/
def image : BitVec 11 → Word :=
  fun i => (program.wordAt showWords (i.setWidth 64 <<< 2)).getD 0

end Program

section Execution

variable {showWords : Bool} {program : Program} {s : Assembler} {bo : ByteOrder}
  {a : Arch}

theorem Program.exists_line (h : program.Executes showWords a) :
    ∃ c ∈ program.code showWords, program.lineAt showWords a.pc = some c ∧
      a.pc = c.addr.setWidth 32 ∧ c.line.Supported ∧
      Outside (codeWords (program.code showWords)) (c.storeAddress a) := by
  unfold Executes at h
  cases hline : program.lineAt showWords a.pc with
  | none =>
    rw [hline] at h
    cases h
  | some c =>
    rw [hline] at h
    have hpc := List.find?_some hline
    exact ⟨c, List.mem_of_find?_eq_some hline, rfl, (of_decide_eq_true hpc).symm, h⟩

/-- The code stays in the memory. -/
theorem Program.holds_stepLine (hcode : Holds a.mem (codeWords (program.code showWords)))
    (h : program.Executes showWords a) :
    Holds (program.stepLine showWords bo a).mem (codeWords (program.code showWords)) := by
  obtain ⟨c, -, hline, -, -, hout⟩ := exists_line h
  rw [stepLine, hline]
  exact hcode.meaning hout

/-- **The words of the line at the program counter are sent**, and come to its meaning. -/
theorem Program.sent_line (h : assemble showWords program = .ok s) (hw : s.warnings = [])
    (hcode : Holds a.mem (codeWords (program.code showWords)))
    (hexec : program.Executes showWords a) :
    ∃ c, program.lineAt showWords a.pc = some c ∧ Sent bo c.words a ∧
      execWords bo c.words a = program.stepLine showWords bo a := by
  obtain ⟨c, hc, hline, hpc, hsup, -⟩ := exists_line hexec
  have hems := emitted_of_code h hc
  have hholds : Holds a.mem (placeWords a.pc c.words) := by
    rw [hpc]
    exact fun p hp => hcode p (List.mem_flatMap.mpr ⟨c, hc, hp⟩)
  refine ⟨c, hline, sent_words hsup hholds, ?_⟩
  rw [Program.stepLine, hline]
  exact c.line.execWords_words bo hems.not_refused hpc (hems.reaches hw)

/-- **A line is a number of steps of the machine with a clock.** -/
theorem Program.block (h : assemble showWords program = .ok s) (hw : s.warnings = [])
    (hcode : Holds a.mem (codeWords (program.code showWords)))
    (hexec : program.Executes showWords a) (t : Nat) :
    let run := Lib.Timed.run (fun _ a => cyclesOf a.fetched) (fun _ a => Isa.step bo false a) ⟨t, a⟩
    ∃ m, run m = ⟨t + program.lineCycles showWords a, program.stepLine showWords bo a⟩ ∧
      ∀ k < m, (run k).time < t + program.lineCycles showWords a ∧
        System.Faithful (run k).state.fetched (run k).state := by
  intro run
  obtain ⟨c, hline, hsent, hmeaning⟩ := Program.sent_line h hw hcode hexec
  obtain ⟨hrun, hgood⟩ := run_of_sent hsent t
  have hcycles : program.lineCycles showWords a = (c.words.map cyclesOf).sum := by
    rw [Program.lineCycles, hline]
  rw [hcycles, ← hmeaning]
  exact ⟨c.words.length, hrun, hgood⟩

/-- The code is in the memory after every line. -/
theorem Program.holds_execution (h : assemble showWords program = .ok s)
    (honce : program.PlacesOnce showWords) (halign : program.AlignedCode showWords)
    {mem : BitVec 11 → Word} (hmem : program.InMemory showWords mem) {k : Nat}
    (hrun : ∀ j < k, program.Executes showWords (program.execution showWords bo mem j).state) :
    Holds (program.execution showWords bo mem k).state.mem
      (codeWords (program.code showWords)) := by
  induction k with
  | zero => exact holds_codeWords h hmem honce halign
  | succ k ih =>
    exact Program.holds_stepLine (ih fun j hj => hrun j (by omega)) (hrun k (by omega))

/-- **The CPU executes the source**, to the cycle: an assembled program without warnings, whose
    image is in the memory, runs on the CPU line by line with the documented effects, as long as
    its lines are supported and do not store to the code, and no interrupt is accepted. -/
theorem program_on_cpu (h : assemble showWords program = .ok s) (hw : s.warnings = [])
    (honce : program.PlacesOnce showWords) (halign : program.AlignedCode showWords)
    {mem : BitVec 11 → Word} (hmem : program.InMemory showWords mem) (n : Nat)
    (hrun : ∀ k < n, program.Executes showWords (program.execution showWords bo mem k).state)
    (order : BlockOrder) (junk : System) (irq : Nat → Bool)
    (hno : ∀ t < (program.execution showWords bo mem n).time,
      ¬System.Accepts (irq t) (System.runFrom order (.init junk mem) irq t)) :
    let z := System.runFrom order (.init junk mem) irq
    ∀ k ≤ n, (z (program.execution showWords bo mem k).time).AtDecode ∧
      (z (program.execution showWords bo mem k).time).arch =
        (program.execution showWords bo mem k).state := by
  intro z
  obtain ⟨hinit, -⟩ := (System.init_leads order junk mem).run irq
  have hblock : ∀ u : Lib.Timed Arch, Holds u.state.mem (codeWords (program.code showWords)) ∧
      program.Executes showWords u.state ∧
      u.time + program.lineCycles showWords u.state ≤ (program.execution showWords bo mem n).time →
      ∃ m, u.run (fun _ a => cyclesOf a.fetched) (fun _ a => Isa.step bo false a) m =
          u.step (fun _ a => program.lineCycles showWords a)
            (fun _ a => program.stepLine showWords bo a) ∧
        ∀ k < m, let v := u.run (fun _ a => cyclesOf a.fetched) (fun _ a => Isa.step bo false a) k
          v.time < (program.execution showWords bo mem n).time ∧
            System.Faithful v.state.fetched v.state := by
    rintro u ⟨hholds, hexec, htime⟩
    obtain ⟨m, hm, hgood⟩ := Program.block h hw hholds hexec u.time
    exact ⟨m, hm, fun k hk => ⟨(hgood k hk).1.trans_le htime, (hgood k hk).2⟩⟩
  refine (System.paced_uninterrupted order junk mem irq bo hno).in_step_of_blocks hblock
    hinit.counter hinit.arch fun k hk => ⟨?_, hrun k hk, ?_⟩
  · exact Program.holds_execution h honce halign hmem fun j hj => hrun j (by omega)
  · -- the line ends before the last one does
    exact Lib.Timed.time_mono _ _ _ (show k + 1 ≤ n from hk)

/-- The image of a program that fills whole words below 8 KiB. -/
theorem Program.image_inMemory (hfill : program.FillsWords showWords) :
    program.InMemory showWords (program.image showWords) := by
  intro addr w halign hword
  obtain ⟨b₀, -, -, -, h₀, -⟩ := exists_of_wordAt hword
  have hlt := hfill.byteAt_lt h₀
  have haddr : (wordIndex (addr.setWidth 32)).setWidth 64 <<< 2 = addr := by
    apply BitVec.eq_of_toNat_eq
    rw [BitVec.toNat_shiftLeft, BitVec.toNat_setWidth, wordIndex, BitVec.toNat_setWidth,
      BitVec.toNat_ushiftRight, BitVec.toNat_setWidth, Nat.shiftRight_eq_div_pow,
      Nat.shiftLeft_eq]
    omega
  rw [image, haddr, hword]
  rfl

end Execution

/-- `loop: inc u0`, `stri u0, [zero, 40]`, `bra loop`. -/
def countingLoop : Program :=
  [.label (.ident "loop"),
    .pseudoInstruction (.pseudoInstrOpIncDec ⟨.inc, by decide⟩ .u0),
    .instruction (.instrOpGrp5TwoRegsOneSimm12Ldst ⟨.stri, by decide⟩ .u0 .zero
      (.ofAtom (.numExpr (.decNum ⟨"40".toList, by decide⟩)))),
    .pseudoInstruction (.pseudoInstrOpBra (.ofAtom (.identName (.ident "loop"))))]

/-- Its first four lines on the CPU, with a high line that is never listened to. -/
theorem program_on_cpu_countingLoop :
    ∃ s, assemble true countingLoop = .ok s ∧
      let z := System.runFrom .preEdge (.init .cleared (countingLoop.image true)) fun _ => true
      let m := countingLoop.execution true .bigEndian (countingLoop.image true)
      ∀ k ≤ 4, (z (m k).time).AtDecode ∧ (z (m k).time).arch = (m k).state := by
  obtain ⟨s, hs, hwarn⟩ : ∃ s, assemble true countingLoop = .ok s ∧ s.warnings = [] := by
    obtain ⟨s, hs⟩ := exists_eq_ok (show (assemble true countingLoop).isOk = true by
      decide +kernel)
    have hall : (assemble true countingLoop).toOption.all (fun s => s.warnings.isEmpty) = true := by
      decide +kernel
    rw [hs] at hall
    exact ⟨s, hs, List.isEmpty_iff.mp hall⟩
  refine ⟨s, hs, ?_⟩
  have hfill : countingLoop.FillsWords true := by decide +kernel
  have hrun : ∀ k < 4, countingLoop.Executes true
      (countingLoop.execution true .bigEndian (countingLoop.image true) k).state := by
    decide +kernel
  have hdisabled : ∀ t <
      (countingLoop.execution true .bigEndian (countingLoop.image true) 4).time,
      (System.runFrom .preEdge (.init .cleared (countingLoop.image true)) (fun _ => true)
        t).cpu.decode.ie = false := by
    decide +kernel
  exact program_on_cpu hs hwarn (by decide +kernel) (by decide +kernel)
    (Program.image_inMemory hfill) 4 hrun .preEdge .cleared (fun _ => true)
    fun t ht haccepts => Bool.noConfusion
      ((hdisabled t ht).symm.trans (System.accepts_iff.mp haccepts).2.1)

end Frost32.Asm
