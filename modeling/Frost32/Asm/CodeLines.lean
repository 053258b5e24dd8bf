import Frost32.Asm.Meaning
import Frost32.Asm.MemoryImage

namespace Frost32.Asm

open Isa Fallible

/-!
# The lines of code of a program

The instructions and pseudo-instructions of a program with the addresses and the operands of
pass 1, and where their words are.

* `Program.code` — the lines of code as pass 1 comes to them.
* `emitted_of_code` — **the words of a line of code are emitted from its address on**, and if the
  assembler prints no warning the targets of the branches are in reach.
* `codeWords`, `Program.InMemory` — the words of the code, and a memory with the image of the
  program.
* `holds_codeWords` — **such a memory holds the code**, if no byte is placed twice.
-/

/-! ### The lines of code -/

/-- A line of code with its address and the value of its operand. -/
structure CodeLine where
  addr : BitVec 64
  operand : BitVec 64
  line : Line

namespace CodeLine

variable (c : CodeLine)

def words : List Word := c.line.words c.addr c.operand

def meaning (bo : ByteOrder) (a : Arch) : Arch := c.line.meaning bo c.operand a

end CodeLine

def Item.line : Item → Option Line
  | .instruction i => some (.instruction i)
  | .pseudoInstruction p => some (.pseudoInstruction p)
  | _ => none

/-- The line of code of an item, as the assembler comes to it. -/
def itemCode (it : Item) (s : Assembler) : List CodeLine :=
  match it.line, operandValue s.env it.exprs with
  | some l, .ok n => [⟨s.pc.curr, n, l⟩]
  | _, _ => []

def runCode : List Item → Assembler → List CodeLine
  | [], _ => []
  | it :: items, s =>
    itemCode it s ++
      match stepItem it s with
      | .ok t => runCode items t
      | .error _ => []

/-- The lines of code of the program as pass 1 comes to them. -/
def Program.code (showWords : Bool) (program : Program) : List CodeLine :=
  match passStart showWords program 1 with
  | .ok s => runCode program.items s
  | .error _ => []

/-- What pass 1 makes of a line of code. -/
structure Emitted (c : CodeLine) (ems : List (BitVec 64 × Datum)) (warnings : List String) :
    Prop where
  not_refused : ¬c.line.Refused
  data : ∀ em ∈ placeData c.addr (c.words.map .b32), em ∈ ems
  reaches : warnings = [] → c.line.Reaches c.addr c.operand

theorem Emitted.mono {c : CodeLine} {ems ems' : List (BitVec 64 × Datum)}
    {warnings warnings' : List String} (h : Emitted c ems warnings)
    (hems : ∀ em ∈ ems, em ∈ ems') (hw : warnings' = [] → warnings = []) :
    Emitted c ems' warnings' :=
  ⟨h.not_refused, fun em hem => hems em (h.data em hem), fun hnone => h.reaches (hw hnone)⟩

/-! ### Warnings -/

theorem Assembler.warnings_perform (s : Assembler) (ef : Effect) :
    (s.perform ef).warnings = s.warnings ++ ef.warnings := by
  have hdata : ∀ (ds : List Datum) (s : Assembler), (s.genAll ds).warnings = s.warnings := by
    intro ds
    induction ds with
    | nil => exact fun _ => rfl
    | cons d ds ih =>
      intro s
      obtain ⟨cs, hgen⟩ := gen_eq s d
      refine (ih (s.gen d)).trans ?_
      rw [hgen]
      rfl
  unfold Assembler.perform
  cases ef.jump <;> exact hdata ef.data (s.warnAll ef.warnings)

/-- Warnings stay. -/
theorem warnings_of_stepItem {it : Item} {s t : Assembler} (h : stepItem it s = .ok t) :
    t.warnings = [] → s.warnings = [] := by
  intro hnone
  cases it with
  | enter =>
    rcases stepItem_enter h with ⟨-, rfl⟩ | ⟨-, i, cs, v, -, -, rfl⟩
    · exact hnone
    · exact hnone
  | leave =>
    rcases stepItem_leave h with ⟨-, -, rfl⟩ | ⟨-, i, cs, -, rfl⟩
    · exact hnone
    · exact hnone
  | label n =>
    obtain ⟨-, v, tbl, -, rfl⟩ := stepItem_label h
    exact hnone
  | _ =>
    obtain ⟨ef, -, rfl⟩ := stepItem_plain rfl h
    rw [Assembler.warnings_perform] at hnone
    exact (List.append_eq_nil_iff.mp hnone).1

theorem warnings_of_runList {items : List Item} {s t : Assembler}
    (h : runList stepItem items s = .ok t) : t.warnings = [] → s.warnings = [] := by
  induction items generalizing s with
  | nil =>
    cases h
    exact id
  | cons it items ih =>
    rw [runList_cons] at h
    obtain ⟨u, hu, h⟩ := bind_eq_ok.mp h
    exact fun hnone => warnings_of_stepItem hu (ih h hnone)

/-! ### What pass 1 emits for the code -/

section Emission

/-- A refused line has no effect. -/
theorem Instruction.not_refused {i : Instruction} {env : Env} {ef : Effect}
    (h : i.effect env = .ok ef) : ¬i.Refused := by
  intro hrefused
  cases i with
  | instrOpGrp0ThreeRegs t rA rB rC =>
    obtain ⟨t, ht⟩ := t
    rcases hrefused with rfl | rfl | rfl <;> cases h
  | _ => exact hrefused

theorem PseudoInstruction.not_refused {p : PseudoInstruction} {env : Env} {ef : Effect}
    (h : p.effect env = .ok ef) : ¬p.Refused := by
  intro hrefused
  cases p with
  | pseudoInstrOpAluOpTwoReg t rA rB =>
    obtain ⟨t, ht⟩ := t
    rcases hrefused with rfl | rfl <;> cases h
  | _ => exact hrefused

/-- The warnings of a line of code. -/
def Line.warnings (env : Env) (n : BitVec 64) : Line → List String
  | .instruction i => i.warnings env n
  | .pseudoInstruction p => p.warnings env n
  | _ => []

/-- A branch without a warning is in reach. -/
theorem Line.reaches_of_warnings {l : Line} (env : Env) (hp : env.pass ≠ 0) {n : BitVec 64}
    (h : l.warnings env n = []) : l.Reaches env.pc n := by
  have hrange : branchWarnings env (n - env.pc - 4) = [] →
      -32768 ≤ (n - env.pc - 4).toInt ∧ (n - env.pc - 4).toInt ≤ 32767 := by
    intro hnone
    exact not_not.mp fun hfar => (branchWarnings_iff env hp _).mpr hfar hnone
  intro htarget
  cases l with
  | scopedLines _ | label _ | directive _ | newline => cases htarget
  | instruction i =>
    cases i with
    | instrOpGrp2Branch t rA rB e => exact hrange h
    | _ => cases htarget
  | pseudoInstruction p =>
    cases p with
    | pseudoInstrOpBra e => exact hrange h
    | _ => cases htarget

variable {it : Item} {l : Line} {env : Env}

theorem Item.not_refused (hl : it.line = some l) {ef : Effect} (h : it.effect env = .ok ef) :
    ¬l.Refused := by
  cases it with
  | instruction i =>
    cases hl
    exact Instruction.not_refused h
  | pseudoInstruction p =>
    cases hl
    exact PseudoInstruction.not_refused h
  | enter | leave | label n | org e | space e | db e | db16 e | db8 e => cases hl

/-- A line of code is emitted as documented. -/
theorem Item.encodesWith (hl : it.line = some l) (h : ¬l.Refused) :
    EncodesWith env it.exprs (it.effect env) (fun n => l.warnings env n) (l.words env.pc) := by
  cases it with
  | instruction i =>
    cases hl
    exact i.encodesWith env h
  | pseudoInstruction p =>
    cases hl
    exact p.encodesWith env h
  | enter | leave | label n | org e | space e | db e | db16 e | db8 e => cases hl

/-- **One line of code**: its words are generated one after the other from its address on. -/
theorem emitted_of_itemCode {s t : Assembler} (hp : s.pass ≠ 0) (h : stepItem it s = .ok t)
    {c : CodeLine} (hc : c ∈ itemCode it s) : Emitted c (itemEmissions it s) t.warnings := by
  unfold itemCode at hc
  cases hl : it.line with
  | none => simp [hl] at hc
  | some l =>
    cases hn : operandValue s.env it.exprs with
    | error e => simp [hl, hn] at hc
    | ok n =>
      obtain rfl : c = ⟨s.pc.curr, n, l⟩ := by simpa [hl, hn] using hc
      have hplain : it.plain = true := by
        cases it with
        | instruction i | pseudoInstruction p => rfl
        | _ => cases hl
      obtain ⟨ef, hef, rfl⟩ := stepItem_plain hplain h
      have hnr := Item.not_refused hl hef
      obtain rfl := Except.ok.inj (hef.symm.trans ((Item.encodesWith hl hnr).eq_ok hn))
      refine ⟨hnr, fun em hem => by rw [itemEmissions, hef]; exact hem, fun hnone => ?_⟩
      rw [Assembler.warnings_perform] at hnone
      exact Line.reaches_of_warnings s.env hp (List.append_eq_nil_iff.mp hnone).2

theorem emitted_of_runCode {items : List Item} {s t : Assembler} (hp : s.pass ≠ 0)
    (h : runList stepItem items s = .ok t) {c : CodeLine} (hc : c ∈ runCode items s) :
    Emitted c (runEmissions items s) t.warnings := by
  induction items generalizing s with
  | nil => cases hc
  | cons it items ih =>
    rw [runList_cons] at h
    obtain ⟨u, hu, h⟩ := bind_eq_ok.mp h
    rw [runCode, hu] at hc
    rw [runEmissions, hu]
    rcases List.mem_append.mp hc with hc | hc
    · exact (emitted_of_itemCode hp hu hc).mono (fun em => List.mem_append_left _)
        (warnings_of_runList h)
    · have hp' : u.pass ≠ 0 := by rwa [(modes_of_stepItem hu).1]
      exact (ih hp' h hc).mono (fun em => List.mem_append_right _) id

/-- **Every line of code of a program** has its words in the output. -/
theorem emitted_of_code {showWords : Bool} {program : Program} {s : Assembler}
    (h : assemble showWords program = .ok s) {c : CodeLine} (hc : c ∈ program.code showWords) :
    Emitted c (emissions showWords program) s.warnings := by
  rw [assemble_eq] at h
  obtain ⟨s₀, hs₀, hrun⟩ := bind_eq_ok.mp h
  have hp : s₀.pass ≠ 0 := by
    rw [(modes_passStart hs₀).1]
    exact Nat.one_ne_zero
  unfold Program.code at hc
  rw [hs₀] at hc
  have hems := emitted_of_runCode hp hrun hc
  unfold emissions
  rw [hs₀]
  exact hems

end Emission

/-! ### The code in the memory -/

/-- Words with their addresses. -/
def placeWords (addr : Word) : List Word → List (Word × Word)
  | [] => []
  | w :: ws => (addr, w) :: placeWords (addr + 4) ws

/-- The words of lines of code, with their addresses. -/
def codeWords (code : List CodeLine) : List (Word × Word) :=
  code.flatMap fun c => placeWords (c.addr.setWidth 32) c.words

/-- The memory holds words at their addresses. -/
def Holds (mem : BitVec 11 → Word) (ws : List (Word × Word)) : Prop :=
  ∀ p ∈ ws, mem (wordIndex p.1) = p.2

instance (mem : BitVec 11 → Word) (ws : List (Word × Word)) : Decidable (Holds mem ws) :=
  List.decidableBAll (fun p : Word × Word => mem (wordIndex p.1) = p.2) ws

/-- The memory holds the image of the program: each word of it is that of its four bytes. -/
def Program.InMemory (showWords : Bool) (program : Program) (mem : BitVec 11 → Word) : Prop :=
  ∀ addr w, addr.toNat % 4 = 0 → program.wordAt showWords addr = some w →
    mem (wordIndex (addr.setWidth 32)) = w

/-- Every line of code is at an aligned address. -/
def Program.AlignedCode (showWords : Bool) (program : Program) : Prop :=
  ∀ c ∈ program.code showWords, c.addr.toNat % 4 = 0

instance (showWords : Bool) (program : Program) : Decidable (program.AlignedCode showWords) :=
  inferInstanceAs (Decidable (∀ c ∈ _, _))

section Image

variable {showWords : Bool} {program : Program}

/-- A word that is emitted once is in the image. -/
theorem Program.wordAt_of_mem (honce : program.PlacesOnce showWords) {addr : BitVec 64}
    {w : Word} (h : (addr, Datum.b32 w) ∈ emissions showWords program) :
    program.wordAt showWords addr = some w := by
  have hplace : HexImage.placeBytes addr (Datum.b32 w).bytes =
      [(addr, w.extractLsb' 24 8), (addr + 1, w.extractLsb' 16 8), (addr + 2, w.extractLsb' 8 8),
        (addr + 3, w.extractLsb' 0 8)] := by
    simp [HexImage.placeBytes, Datum.bytes, BitVec.add_assoc]
  have hbyte : ∀ {x : BitVec 64} {b : BitVec 8},
      (x, b) ∈ [(addr, w.extractLsb' 24 8), (addr + 1, w.extractLsb' 16 8),
        (addr + 2, w.extractLsb' 8 8), (addr + 3, w.extractLsb' 0 8)] →
      program.byteAt showWords x = some b := by
    intro x b hx
    rw [← hplace] at hx
    exact Readmemh.lastAt_of_mem honce (List.mem_flatMap.mpr ⟨_, h, hx⟩)
  have hbytes : w.extractLsb' 24 8 ++ w.extractLsb' 16 8 ++ w.extractLsb' 8 8 ++
      w.extractLsb' 0 8 = w := by
    have h₁ : w.extractLsb' 24 8 ++ w.extractLsb' 16 8 = w.extractLsb' 16 16 :=
      BitVec.extractLsb'_append_extractLsb'_eq_extractLsb' rfl
    have h₂ : w.extractLsb' 16 16 ++ w.extractLsb' 8 8 = w.extractLsb' 8 24 :=
      BitVec.extractLsb'_append_extractLsb'_eq_extractLsb' rfl
    have h₃ : w.extractLsb' 8 24 ++ w.extractLsb' 0 8 = w.extractLsb' 0 32 :=
      BitVec.extractLsb'_append_extractLsb'_eq_extractLsb' rfl
    rw [h₁, h₂, h₃, BitVec.extractLsb'_eq_self]
  have hword := Program.wordAt_eq (hbyte (.head _)) (hbyte (.tail _ (.head _)))
    (hbyte (.tail _ (.tail _ (.head _)))) (hbyte (.tail _ (.tail _ (.tail _ (.head _)))))
  exact hword.trans (congrArg some hbytes)

/-- Words that are emitted one after the other. -/
theorem holds_of_emitted {mem : BitVec 11 → Word} (hmem : program.InMemory showWords mem)
    (honce : program.PlacesOnce showWords) {addr : BitVec 64} (haddr : addr.toNat % 4 = 0)
    {ws : List Word}
    (h : ∀ em ∈ placeData addr (ws.map .b32), em ∈ emissions showWords program) :
    Holds mem (placeWords (addr.setWidth 32) ws) := by
  induction ws generalizing addr with
  | nil => exact fun p hp => by cases hp
  | cons w ws ih =>
    have hnext : (addr + 4).setWidth 32 = addr.setWidth 32 + 4 :=
      BitVec.setWidth_add addr 4 (by decide)
    have halign : (addr + 4).toNat % 4 = 0 := by
      rw [BitVec.toNat_add]
      show (addr.toNat + 4) % 2 ^ 64 % 4 = 0
      omega
    have hrest := ih halign fun em hem => h em (List.mem_cons_of_mem _ hem)
    intro p hp
    rcases List.mem_cons.mp hp with rfl | hp
    · exact hmem addr w haddr (Program.wordAt_of_mem honce (h _ List.mem_cons_self))
    · rw [← hnext] at hp
      exact hrest p hp

/-- **The image of a program that places its bytes once holds its code.** -/
theorem holds_codeWords {s : Assembler} (h : assemble showWords program = .ok s)
    {mem : BitVec 11 → Word} (hmem : program.InMemory showWords mem)
    (honce : program.PlacesOnce showWords) (halign : program.AlignedCode showWords) :
    Holds mem (codeWords (program.code showWords)) := by
  intro p hp
  obtain ⟨c, hc, hp⟩ := List.mem_flatMap.mp hp
  exact holds_of_emitted hmem honce (halign c hc) (emitted_of_code h hc).data p hp

end Image

end Frost32.Asm
