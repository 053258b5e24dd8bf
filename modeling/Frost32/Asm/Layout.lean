import Frost32.Asm.Steps

namespace Frost32.Asm

open Fallible

/-!
# The layout of a program

Where the items of a program stand, computed from the source alone.

* `Item.exprs`, `Item.idents` — the expressions of an item and the names they use.
* `Item.size` — the bytes an item generates, whatever its operands are.
* `Item.place`, `layout` — the address after an item, and after a list of items.
* `ident_eval_of_effect` — in an item that is assembled every identifier has a value.
* `layout_afterItems` — **in either pass the program counter is at the layout address**, if
  no `.org` or `.space` uses an identifier.
-/

/-! ### Operands -/

def Instruction.exprs : Instruction → List Expr
  | .instrOpGrp1TwoRegsOneImm _ _ _ e
  | .instrOpGrp1TwoRegsOneSimm _ _ _ e
  | .instrOpGrp1OneRegOnePcOneSimm _ e
  | .instrOpGrp1OneRegOneImm _ e
  | .instrOpGrp2Branch _ _ _ e
  | .instrOpGrp5TwoRegsOneSimm12Ldst _ _ _ e => [e]
  | _ => []

def PseudoInstruction.exprs : PseudoInstruction → List Expr
  | .pseudoInstrOpInvi _ e
  | .pseudoInstrOpCpyi _ e
  | .pseudoInstrOpCpya _ e
  | .pseudoInstrOpBra e
  | .pseudoInstrOpJmpa e
  | .pseudoInstrOpCalla e
  | .pseudoInstrOpJmpaCallaConditional _ _ _ e
  | .pseudoInstrOpAluOpOneRegOneImm _ _ e
  | .pseudoInstrOpAluOpOneRegOneSimm _ _ e => [e]
  | _ => []

namespace Item

def exprs : Item → List Expr
  | .enter | .leave | .label _ => []
  | .instruction i => i.exprs
  | .pseudoInstruction p => p.exprs
  | .org e | .space e | .db e | .db16 e | .db8 e => [e]

/-- The identifiers used in the expressions of an item. -/
def idents (it : Item) : List IdentName := it.exprs.flatMap Expr.idents

end Item

/-! ### Sizes -/

/-- The instructions a pseudo-instruction expands to. -/
def PseudoInstruction.expansionLength : PseudoInstruction → Nat
  | .pseudoInstrOpCpya .. => 2
  | .pseudoInstrOpJmpa .. | .pseudoInstrOpCalla .. | .pseudoInstrOpJmpaCallaConditional .. => 3
  | _ => 1

/-- The bytes an item generates. -/
def Item.size : Item → Nat
  | .enter | .leave | .label _ | .org _ | .space _ => 0
  | .instruction _ => 4
  | .pseudoInstruction p => 4 * p.expansionLength
  | .db _ => 4
  | .db16 _ => 2
  | .db8 _ => 1

/-- The effect generates `k` instruction words and does not move the program counter. -/
def HasWords (k : Nat) (r : Except AsmError Effect) : Prop :=
  ∀ ef, r = .ok ef → ef.jump = none ∧ ∃ words : List (BitVec 32),
    words.length = k ∧ ef.data = words.map .b32

theorem HasWords.bind {α : Type} {k : Nat} {r : Except AsmError α} {f : α → Except AsmError Effect}
    (h : ∀ a, r = .ok a → HasWords k (f a)) : HasWords k (r >>= f) := by
  intro ef hef
  obtain ⟨a, hr, ha⟩ := bind_eq_ok.mp hef
  exact h a hr ef ha

theorem HasWords.of_eq {k : Nat} {ef : Effect} {words : List (BitVec 32)} (hjump : ef.jump = none)
    (hdata : ef.data = words.map .b32) (hk : words.length = k) : HasWords k (.ok ef) := by
  intro ef' h
  cases h
  exact ⟨hjump, words, hk, hdata⟩

theorem HasWords.error {k : Nat} {e : AsmError} : HasWords k (.error e) := by
  intro ef h
  cases h

section Words

variable {env : Env} {regA regB regC : BitVec 32} {name : String} {imm : BitVec 64}

theorem aluOpThreeRegs_words :
    HasWords 1 (aluOpThreeRegsEffect regA regB regC name) :=
  .bind fun _ _ => .of_eq rfl rfl rfl

theorem aluOpTwoRegsOneImm_words :
    HasWords 1 (aluOpTwoRegsOneImmEffect env regA regB name imm) := by
  unfold aluOpTwoRegsOneImmEffect
  split
  · exact .bind fun _ _ => .of_eq rfl rfl rfl
  · exact .bind fun _ _ => .of_eq rfl rfl rfl

theorem relativeBranch_words :
    HasWords 1 (relativeBranchEffect env regA regB name imm) :=
  .bind fun _ _ => .of_eq rfl rfl rfl

theorem ldstThreeRegs_words :
    HasWords 1 (ldstThreeRegsEffect regA regB regC name) :=
  .bind fun _ _ => .of_eq rfl rfl rfl

theorem ldstTwoRegsOneSimm_words :
    HasWords 1 (ldstTwoRegsOneSimmEffect env regA regB name imm) :=
  .bind fun _ _ => .of_eq rfl rfl rfl

theorem group6_words {m : MapType} : HasWords 1 (group6Effect m name regA) :=
  .bind fun _ _ => .of_eq rfl rfl rfl

theorem length_cpyaWords {words : List (BitVec 32)}
    (h : cpyaWords regA imm = .ok words) : words.length = 2 := by
  obtain ⟨op₁, -, h⟩ := bind_eq_ok.mp h
  obtain ⟨op₂, -, h⟩ := bind_eq_ok.mp h
  cases h
  rfl

/-- `cpya` and what follows it are three words. -/
theorem cpya_words {rest : Except AsmError (BitVec 32)} :
    HasWords 3 (do
      let cpya ← cpyaWords regA imm
      return .ofWords (cpya ++ [← rest])) := by
  apply HasWords.bind
  intro words hwords
  apply HasWords.bind
  intro w _
  apply HasWords.of_eq rfl rfl
  rw [List.length_append, length_cpyaWords hwords]
  rfl

end Words

/-- **Every instruction is one word.** -/
theorem Instruction.words (env : Env) (i : Instruction) : HasWords 1 (i.effect env) := by
  cases i with
  | instrOpGrp0ThreeRegs t rA rB rC => exact .bind fun _ _ => aluOpThreeRegs_words
  | instrOpGrp1TwoRegsOneImm t rA rB e =>
    exact .bind fun _ _ => .bind fun _ _ => aluOpTwoRegsOneImm_words
  | instrOpGrp1TwoRegsOneSimm t rA rB e =>
    exact .bind fun _ _ => .bind fun _ _ => aluOpTwoRegsOneImm_words
  | instrOpGrp1OneRegOnePcOneSimm rA e =>
    exact .bind fun _ _ => .bind fun _ _ => .of_eq rfl rfl rfl
  | instrOpGrp1OneRegOneImm rA e => exact .bind fun _ _ => .bind fun _ _ => .of_eq rfl rfl rfl
  | instrOpGrp2Branch t rA rB e =>
    exact .bind fun _ _ => .bind fun _ _ => relativeBranch_words
  | instrOpGrp3Jump t rA rB rC => exact .bind fun _ _ => .bind fun _ _ => .of_eq rfl rfl rfl
  | instrOpGrp4Call t rA rB rC => exact .bind fun _ _ => .bind fun _ _ => .of_eq rfl rfl rfl
  | instrOpGrp5ThreeRegsLdst t rA rB rC => exact .bind fun _ _ => ldstThreeRegs_words
  | instrOpGrp5TwoRegsOneSimm12Ldst t rA rB e =>
    exact .bind fun _ _ => .bind fun _ _ => ldstTwoRegsOneSimm_words
  | instrOpGrp6NoArgs t => exact .bind fun _ _ => group6_words
  | instrOpGrp6OneIretaOneReg rA => exact group6_words
  | instrOpGrp6OneRegOneIreta rA => exact group6_words
  | instrOpGrp6OneIdstaOneReg rA => exact group6_words
  | instrOpGrp6OneRegOneIdsta rA => exact group6_words

/-- **Every pseudo-instruction is as many words as its expansion has instructions.** -/
theorem PseudoInstruction.words (env : Env) (p : PseudoInstruction) :
    HasWords p.expansionLength (p.effect env) := by
  cases p with
  | pseudoInstrOpInv rA rB => exact aluOpThreeRegs_words
  | pseudoInstrOpInvi rA e => exact .bind fun _ _ => aluOpTwoRegsOneImm_words
  | pseudoInstrOpGrpCpy rA rB =>
    cases rB with
    | none => exact .bind fun _ _ => .of_eq rfl rfl rfl
    | some rB => exact aluOpThreeRegs_words
  | pseudoInstrOpCpyi rA e => exact .bind fun _ _ => aluOpTwoRegsOneImm_words
  | pseudoInstrOpCpya rA e =>
    exact .bind fun _ _ => .bind fun _ h => .of_eq rfl rfl (length_cpyaWords h)
  | pseudoInstrOpBra e => exact .bind fun _ _ => relativeBranch_words
  | pseudoInstrOpJmp rC => exact .bind fun _ _ => .of_eq rfl rfl rfl
  | pseudoInstrOpCall rC => exact .bind fun _ _ => .of_eq rfl rfl rfl
  | pseudoInstrOpJmpa e => exact .bind fun _ _ => cpya_words
  | pseudoInstrOpCalla e => exact .bind fun _ _ => cpya_words
  | pseudoInstrOpJmpaCallaConditional t rA rB e => exact .bind fun _ _ => cpya_words
  | pseudoInstrOpIncDec t rA =>
    unfold PseudoInstruction.effect
    dsimp only
    split
    · exact aluOpTwoRegsOneImm_words
    · exact aluOpTwoRegsOneImm_words
    · exact .error
  | pseudoInstrOpAluOpTwoReg t rA rB => exact .bind fun _ _ => aluOpThreeRegs_words
  | pseudoInstrOpAluOpOneRegOneImm t rA e =>
    exact .bind fun _ _ => .bind fun _ _ => aluOpTwoRegsOneImm_words
  | pseudoInstrOpAluOpOneRegOneSimm t rA e =>
    exact .bind fun _ _ => .bind fun _ _ => aluOpTwoRegsOneImm_words

theorem dataSize_words (words : List (BitVec 32)) :
    dataSize (words.map .b32) = 4 * words.length := by
  unfold dataSize
  induction words with
  | nil => rfl
  | cons w ws ih =>
    rw [List.map_cons, List.map_cons, List.sum_cons, ih, List.length_cons, Datum.size]
    omega

theorem HasWords.dataSize {k : Nat} {r : Except AsmError Effect} (h : HasWords k r) {ef : Effect}
    (hef : r = .ok ef) : ef.jump = none ∧ dataSize ef.data = 4 * k := by
  obtain ⟨hjump, words, hk, hdata⟩ := h ef hef
  rw [hdata, dataSize_words, hk]
  exact ⟨hjump, rfl⟩

/-! ### Operands have values -/

section Idents

variable {env : Env}

/-- Where the outcome is a value, the identifiers have values. -/
def Evaluated (env : Env) (ns : List IdentName) (r : Except AsmError (BitVec 64)) : Prop :=
  ∀ v, r = .ok v → ∀ n ∈ ns, ∃ a, n.eval env = .ok a

theorem Evaluated.unary {ns : List IdentName} {r : Except AsmError (BitVec 64)}
    {f : BitVec 64 → Except AsmError (BitVec 64)} (h : Evaluated env ns r) :
    Evaluated env ns (r >>= f) := by
  intro v hv
  obtain ⟨a, ha, -⟩ := bind_eq_ok.mp hv
  exact h a ha

theorem Evaluated.binary {ns ms : List IdentName} {l r : Except AsmError (BitVec 64)}
    {f : BitVec 64 → BitVec 64 → Except AsmError (BitVec 64)} (hl : Evaluated env ns l)
    (hr : Evaluated env ms r) : Evaluated env (ns ++ ms) (l >>= fun a => r >>= f a) := by
  intro v hv n hn
  obtain ⟨a, ha, hv⟩ := bind_eq_ok.mp hv
  obtain ⟨b, hb, -⟩ := bind_eq_ok.mp hv
  rcases List.mem_append.mp hn with hn | hn
  · exact hl a ha n hn
  · exact hr b hb n hn

mutual

/-- **An expression that has a value has one for each of its identifiers.** -/
theorem Expr.evaluated : (e : Expr) → Evaluated env e.idents (e.eval env)
  | .opLogical l op r => by
    rw [Expr.eval, Expr.idents]
    exact .binary l.evaluated r.evaluated
  | .exprLogical e => by
    rw [Expr.eval, Expr.idents]
    exact e.evaluated

theorem ExprLogical.evaluated : (e : ExprLogical) → Evaluated env e.idents (e.eval env)
  | .opCompare l op r => by
    rw [ExprLogical.eval, ExprLogical.idents]
    exact .binary l.evaluated r.evaluated
  | .exprCompare e => by
    rw [ExprLogical.eval, ExprLogical.idents]
    exact e.evaluated

theorem ExprCompare.evaluated : (e : ExprCompare) → Evaluated env e.idents (e.eval env)
  | .exprAddSub e => by
    rw [ExprCompare.eval, ExprCompare.idents]
    exact e.evaluated
  | .exprJustAdd l r => by
    rw [ExprCompare.eval, ExprCompare.idents]
    exact .binary l.evaluated r.evaluated
  | .exprJustSub l r => by
    rw [ExprCompare.eval, ExprCompare.idents]
    exact .binary l.evaluated r.evaluated

theorem ExprAddSub.evaluated : (e : ExprAddSub) → Evaluated env e.idents (e.eval env)
  | .opMulDivMod l op r => by
    rw [ExprAddSub.eval, ExprAddSub.idents]
    exact .binary l.evaluated r.evaluated
  | .opBitwise l op r => by
    rw [ExprAddSub.eval, ExprAddSub.idents]
    exact .binary l.evaluated r.evaluated
  | .exprMulDivModEtc e => by
    rw [ExprAddSub.eval, ExprAddSub.idents]
    exact e.evaluated

theorem ExprMulDivModEtc.evaluated :
    (e : ExprMulDivModEtc) → Evaluated env e.idents (e.eval env)
  | .exprUnary e => by
    rw [ExprMulDivModEtc.eval, ExprMulDivModEtc.idents]
    exact e.evaluated
  | .numExpr n => by
    rw [ExprMulDivModEtc.idents]
    intro v _ n hn
    cases hn
  | .identName n => by
    rw [ExprMulDivModEtc.eval, ExprMulDivModEtc.idents]
    intro v hv m hm
    rw [List.mem_singleton.mp hm]
    exact ⟨v, hv⟩
  | .currPc => by
    rw [ExprMulDivModEtc.idents]
    intro v _ n hn
    cases hn
  | .paren e => by
    rw [ExprMulDivModEtc.eval, ExprMulDivModEtc.idents]
    exact e.evaluated

theorem ExprUnary.evaluated : (e : ExprUnary) → Evaluated env e.idents (e.eval env)
  | .exprBitInvert e => by
    rw [ExprUnary.eval, ExprUnary.idents]
    exact .unary e.evaluated
  | .exprNegate e => by
    rw [ExprUnary.eval, ExprUnary.idents]
    exact .unary e.evaluated
  | .exprLogNot e => by
    rw [ExprUnary.eval, ExprUnary.idents]
    exact .unary e.evaluated

end

/-- Where the outcome is an effect, the expression has a value. -/
def Evaluates (env : Env) (e : Expr) (r : Except AsmError Effect) : Prop :=
  ∀ ef, r = .ok ef → ∃ v, e.eval env = .ok v

theorem Evaluates.first {e : Expr} {f : BitVec 64 → Except AsmError Effect} :
    Evaluates env e (e.eval env >>= f) := by
  intro ef hef
  obtain ⟨v, hv, -⟩ := bind_eq_ok.mp hef
  exact ⟨v, hv⟩

theorem Evaluates.second {α : Type} {e : Expr} {r : Except AsmError α}
    {f : α → BitVec 64 → Except AsmError Effect} :
    Evaluates env e (r >>= fun a => e.eval env >>= f a) := by
  intro ef hef
  obtain ⟨a, -, ha⟩ := bind_eq_ok.mp hef
  exact Evaluates.first ef ha

theorem Instruction.evaluates (i : Instruction) :
    ∀ e ∈ i.exprs, Evaluates env e (i.effect env) := by
  intro e he
  cases i with
  | instrOpGrp1TwoRegsOneImm t rA rB e' | instrOpGrp1TwoRegsOneSimm t rA rB e'
  | instrOpGrp1OneRegOnePcOneSimm rA e' | instrOpGrp1OneRegOneImm rA e'
  | instrOpGrp2Branch t rA rB e' | instrOpGrp5TwoRegsOneSimm12Ldst t rA rB e' =>
    rw [List.mem_singleton.mp he]
    exact .second
  | _ => cases he

theorem PseudoInstruction.evaluates (p : PseudoInstruction) :
    ∀ e ∈ p.exprs, Evaluates env e (p.effect env) := by
  intro e he
  cases p with
  | pseudoInstrOpAluOpOneRegOneImm t rA e' | pseudoInstrOpAluOpOneRegOneSimm t rA e' =>
    rw [List.mem_singleton.mp he]
    exact .second
  | pseudoInstrOpInvi rA e' | pseudoInstrOpCpyi rA e' | pseudoInstrOpCpya rA e'
  | pseudoInstrOpBra e' | pseudoInstrOpJmpa e' | pseudoInstrOpCalla e'
  | pseudoInstrOpJmpaCallaConditional t rA rB e' =>
    rw [List.mem_singleton.mp he]
    exact .first
  | _ => cases he

theorem Item.evaluates (it : Item) : ∀ e ∈ it.exprs, Evaluates env e (it.effect env) := by
  intro e he
  cases it with
  | instruction i => exact i.evaluates e he
  | pseudoInstruction p => exact p.evaluates e he
  | org e' | space e' | db e' | db16 e' | db8 e' =>
    rw [List.mem_singleton.mp he]
    exact .first
  | enter | leave | label n => cases he

/-- **In an item that has an effect every identifier has a value.** -/
theorem ident_eval_of_effect {it : Item} {ef : Effect} (h : it.effect env = .ok ef) :
    ∀ n ∈ it.idents, ∃ a, n.eval env = .ok a := by
  intro n hn
  obtain ⟨e, he, hne⟩ := List.mem_flatMap.mp hn
  obtain ⟨v, hv⟩ := it.evaluates e he ef h
  exact e.evaluated v hv n hne

end Idents

/-! ### The layout -/

/-- The environment of a placement: its value must not depend on labels. -/
def placementEnv (pc : BitVec 64) : Env where
  pass := 0
  pc := pc
  addr := fun name => .error (unknownSymbol name)

/-- The value of the operand of a placement. -/
def placementValue (e : Expr) (pc : BitVec 64) : BitVec 64 :=
  match e.eval (placementEnv pc) with
  | .ok n => n
  | .error _ => 0

/-- The address after an item that stands at `pc`. -/
def Item.place (pc : BitVec 64) : Item → BitVec 64
  | .org e => placementValue e pc
  | .space e => pc + placementValue e pc
  | it => pc + BitVec.ofNat 64 it.size

/-- The address after a list of items. -/
def layout (items : List Item) : BitVec 64 := items.foldl Item.place 0

theorem layout_concat (items : List Item) (it : Item) :
    layout (items ++ [it]) = it.place (layout items) := by
  unfold layout
  rw [List.foldl_append]
  rfl

/-- The item is no `.org` or `.space` that uses an identifier. -/
def Item.PlacedByValue : Item → Prop
  | .org e | .space e => e.idents = []
  | _ => True

/-- No `.org` or `.space` of the program uses an identifier. -/
def Program.PlacedByValue (program : Program) : Prop := ∀ it ∈ program.items, it.PlacedByValue

instance (it : Item) : Decidable it.PlacedByValue :=
  match it with
  | .org e | .space e => inferInstanceAs (Decidable (e.idents = []))
  | .enter | .leave | .label _ | .instruction _ | .pseudoInstruction _ | .db _ | .db16 _
  | .db8 _ => isTrue trivial

instance (program : Program) : Decidable program.PlacedByValue :=
  inferInstanceAs (Decidable (∀ it ∈ program.items, it.PlacedByValue))

/-- An operand without identifiers has the same value in either pass. -/
theorem placementValue_eq {env : Env} {e : Expr} {n : BitVec 64} (hidents : e.idents = [])
    (h : e.eval env = .ok n) : placementValue e env.pc = n := by
  have hlower : (placementEnv env.pc).LowerThan env := ⟨rfl, .inl rfl⟩
  have heval : e.eval (placementEnv env.pc) = .ok n := by
    apply e.eval_lowers hlower _ n h
    intro m hm
    rw [hidents] at hm
    cases hm
  rw [placementValue, heval]

/-- The operand of an `.org` or `.space`. -/
def Item.placement : Item → Option Expr
  | .org e | .space e => some e
  | _ => none

/-- The address after an item that stands at `pc`, with the value of its operand if that places
    it. -/
def Item.placeWith (pc value : BitVec 64) : Item → BitVec 64
  | .org _ => value
  | .space _ => pc + value
  | it => pc + BitVec.ofNat 64 it.size

/-- **One item moves the program counter by its size**, or as its operand says. -/
theorem placeWith_of_stepItem {it : Item} {s t : Assembler} (hstep : stepItem it s = .ok t) :
    ∃ n, (∀ e, it.placement = some e → e.eval s.env = .ok n) ∧
      t.pc.curr = it.placeWith s.pc.curr n := by
  have hdata : ∀ {k : Nat} {ef : Effect}, ef.jump = none ∧ dataSize ef.data = k →
      (s.perform ef).pc.curr = s.pc.curr + BitVec.ofNat 64 k := by
    intro k ef h
    rw [Assembler.pc_perform, h.1, h.2]
    rfl
  have hnone : ∀ {e : Expr}, (none : Option Expr) = some e → e.eval s.env = .ok 0 := by
    intro e h
    cases h
  cases hplain : it.plain with
  | false =>
    have hpc := (stepItem_not_plain hplain hstep).1
    cases it with
    | enter | leave | label n =>
      refine ⟨0, fun e => hnone, ?_⟩
      rw [hpc]
      exact (BitVec.add_zero _).symm
    | _ => cases hplain
  | true =>
    -- the size of a line does not depend on the values of its operands, but `.org` and `.space`
    -- move by theirs
    obtain ⟨ef, hef, rfl⟩ := stepItem_plain hplain hstep
    cases it with
    | enter | leave | label n => cases hplain
    | instruction i => exact ⟨0, fun e => hnone, hdata ((i.words s.env).dataSize hef)⟩
    | pseudoInstruction p => exact ⟨0, fun e => hnone, hdata ((p.words s.env).dataSize hef)⟩
    | db e | db16 e | db8 e =>
      obtain ⟨n, -, h⟩ := bind_eq_ok.mp hef
      cases h
      exact ⟨0, fun e => hnone, hdata ⟨rfl, rfl⟩⟩
    | org e | space e =>
      obtain ⟨n, hn, h⟩ := bind_eq_ok.mp hef
      cases h
      refine ⟨n, ?_, Assembler.pc_perform ..⟩
      rintro e' ⟨⟩
      exact hn

/-- **One item moves the program counter as the layout says.** -/
theorem place_of_stepItem {it : Item} (hvalue : it.PlacedByValue) {s t : Assembler}
    (hstep : stepItem it s = .ok t) : t.pc.curr = it.place s.pc.curr := by
  obtain ⟨n, hn, hpc⟩ := placeWith_of_stepItem hstep
  rw [hpc]
  cases it with
  | org e => exact (placementValue_eq hvalue (hn e rfl)).symm
  | space e =>
    show s.pc.curr + n = s.pc.curr + placementValue e s.env.pc
    rw [placementValue_eq hvalue (hn e rfl)]
  | _ => rfl

theorem pc_passStart {showWords : Bool} {program : Program} {p : Nat} {s : Assembler}
    (h : passStart showWords program p = .ok s) : s.pc = ⟨0, 0⟩ := by
  cases p with
  | zero =>
    cases h
    rfl
  | succ p =>
    obtain ⟨u, -, h⟩ := bind_eq_ok.mp h
    obtain ⟨v, -, h⟩ := bind_eq_ok.mp h
    cases h
    rfl

/-- **In either pass the program counter is at the layout address.** -/
theorem layout_afterItems {showWords : Bool} {program : Program} {p : Nat}
    (hvalue : program.PlacedByValue) {pre post : List Item} (hitems : program.items = pre ++ post)
    {s : Assembler} (h : afterItems showWords program p pre = .ok s) : s.pc.curr = layout pre := by
  obtain ⟨s₀, hs₀, h⟩ := bind_eq_ok.mp h
  refine invariant (P := fun pre (u : Assembler) => u.pc.curr = layout pre) ?_ ?_ hitems h
  · rw [pc_passStart hs₀]
    rfl
  · intro pre it post u v hxs hu hv
    have hmem : it ∈ program.items := by rw [hxs]; simp
    rw [place_of_stepItem (hvalue it hmem) hv, hu, layout_concat]

end Frost32.Asm
