import Frost32.Asm.Accepts
import Frost32.Asm.ExprRegroup

namespace Frost32.Asm

/-!
# The tokens of a program

The line rules of the grammar, as rows: a row is what stands before a `TokNewline`.

* `linesRows`, `Program.tokens` — the tokens a program derives.
* `Program.exprs`, `Program.mapExpr` — the operand expressions of a program.
* `linesMapExpr_eq_self`, `linesRows_linesMapExpr` — maps of them that change nothing, or keep
  the tokens.
-/

/-! ### The tokens of a program -/

/-- `expr ((TokComma expr)*)`. -/
def exprListToks (e : Expr) (es : List Expr) : List Tok :=
  [Tok.comma].intercalate ((e :: es).map Expr.tokens)

def Directive.tokens : Directive → List Tok
  | dotOrgDirective e => .dotOrg :: e.tokens
  | dotSpaceDirective e => .dotSpace :: e.tokens
  | dotDbDirective e es => .dotDb :: exprListToks e es
  | dotDb16Directive e es => .dotDb16 :: exprListToks e es
  | dotDb8Directive e es => .dotDb8 :: exprListToks e es

mutual

/-- What a line derives, without the `TokNewline` at the end of each row. -/
def Line.rows : Line → List (List Tok)
  | .scopedLines ls => [.lBrace] :: (linesRows ls ++ [[.rBrace]])
  | .label n => [n.tokens ++ [.colon]]
  | .instruction i => [i.tokens]
  | .pseudoInstruction p => [p.tokens]
  | .directive d => [d.tokens]
  | .newline => [[]]

def linesRows : List Line → List (List Tok)
  | [] => []
  | l :: ls => l.rows ++ linesRows ls

end

/-- Rows, each with its `TokNewline`. -/
def rowsToks (rows : List (List Tok)) : List Tok := rows.flatMap fun row => row ++ [.newline]

def Program.tokens (program : Program) : List Tok := rowsToks (linesRows program)

/-! ### The operand expressions -/

def Directive.exprs : Directive → List Expr
  | dotOrgDirective e | dotSpaceDirective e => [e]
  | dotDbDirective e es | dotDb16Directive e es | dotDb8Directive e es => e :: es

mutual

def Line.exprs : Line → List Expr
  | .scopedLines ls => linesExprs ls
  | .instruction i => i.exprs
  | .pseudoInstruction p => p.exprs
  | .directive d => d.exprs
  | .label _ | .newline => []

def linesExprs : List Line → List Expr
  | [] => []
  | l :: ls => l.exprs ++ linesExprs ls

end

def Program.exprs (program : Program) : List Expr := linesExprs program

section Map

variable (f : Expr → Expr)

def Instruction.mapExpr : Instruction → Instruction
  | instrOpGrp1TwoRegsOneImm t rA rB e => instrOpGrp1TwoRegsOneImm t rA rB (f e)
  | instrOpGrp1TwoRegsOneSimm t rA rB e => instrOpGrp1TwoRegsOneSimm t rA rB (f e)
  | instrOpGrp1OneRegOnePcOneSimm rA e => instrOpGrp1OneRegOnePcOneSimm rA (f e)
  | instrOpGrp1OneRegOneImm rA e => instrOpGrp1OneRegOneImm rA (f e)
  | instrOpGrp2Branch t rA rB e => instrOpGrp2Branch t rA rB (f e)
  | instrOpGrp5TwoRegsOneSimm12Ldst t rA rB e => instrOpGrp5TwoRegsOneSimm12Ldst t rA rB (f e)
  | i => i

def PseudoInstruction.mapExpr : PseudoInstruction → PseudoInstruction
  | pseudoInstrOpInvi rA e => pseudoInstrOpInvi rA (f e)
  | pseudoInstrOpCpyi rA e => pseudoInstrOpCpyi rA (f e)
  | pseudoInstrOpCpya rA e => pseudoInstrOpCpya rA (f e)
  | pseudoInstrOpBra e => pseudoInstrOpBra (f e)
  | pseudoInstrOpJmpa e => pseudoInstrOpJmpa (f e)
  | pseudoInstrOpCalla e => pseudoInstrOpCalla (f e)
  | pseudoInstrOpJmpaCallaConditional t rA rB e =>
    pseudoInstrOpJmpaCallaConditional t rA rB (f e)
  | pseudoInstrOpAluOpOneRegOneImm t rA e => pseudoInstrOpAluOpOneRegOneImm t rA (f e)
  | pseudoInstrOpAluOpOneRegOneSimm t rA e => pseudoInstrOpAluOpOneRegOneSimm t rA (f e)
  | p => p

def Directive.mapExpr : Directive → Directive
  | dotOrgDirective e => dotOrgDirective (f e)
  | dotSpaceDirective e => dotSpaceDirective (f e)
  | dotDbDirective e es => dotDbDirective (f e) (es.map f)
  | dotDb16Directive e es => dotDb16Directive (f e) (es.map f)
  | dotDb8Directive e es => dotDb8Directive (f e) (es.map f)

mutual

def Line.mapExpr : Line → Line
  | .scopedLines ls => .scopedLines (linesMapExpr ls)
  | .instruction i => .instruction (i.mapExpr f)
  | .pseudoInstruction p => .pseudoInstruction (p.mapExpr f)
  | .directive d => .directive (d.mapExpr f)
  | .label n => .label n
  | .newline => .newline

def linesMapExpr : List Line → List Line
  | [] => []
  | l :: ls => l.mapExpr :: linesMapExpr ls

end

def Program.mapExpr (program : Program) : Program := linesMapExpr f program

/-! ### What a map does to the expressions -/

theorem Instruction.exprs_mapExpr (i : Instruction) : (i.mapExpr f).exprs = i.exprs.map f := by
  cases i <;> rfl

theorem PseudoInstruction.exprs_mapExpr (p : PseudoInstruction) :
    (p.mapExpr f).exprs = p.exprs.map f := by
  cases p <;> rfl

theorem Directive.exprs_mapExpr (d : Directive) : (d.mapExpr f).exprs = d.exprs.map f := by
  cases d <;> rfl

mutual

theorem Line.exprs_mapExpr : (l : Line) → (l.mapExpr f).exprs = l.exprs.map f
  | .scopedLines ls => by
    rw [Line.mapExpr, Line.exprs, Line.exprs]
    exact linesExprs_linesMapExpr ls
  | .instruction i => by
    rw [Line.mapExpr, Line.exprs, Line.exprs]
    exact i.exprs_mapExpr f
  | .pseudoInstruction p => by
    rw [Line.mapExpr, Line.exprs, Line.exprs]
    exact p.exprs_mapExpr f
  | .directive d => by
    rw [Line.mapExpr, Line.exprs, Line.exprs]
    exact d.exprs_mapExpr f
  | .label n => by
    rw [Line.mapExpr, Line.exprs]
    rfl
  | .newline => by
    rw [Line.mapExpr, Line.exprs]
    rfl

theorem linesExprs_linesMapExpr : (ls : List Line) →
    linesExprs (linesMapExpr f ls) = (linesExprs ls).map f
  | [] => by
    rw [linesMapExpr, linesExprs]
    rfl
  | l :: ls => by
    rw [linesMapExpr, linesExprs, linesExprs, List.map_append, l.exprs_mapExpr,
      linesExprs_linesMapExpr ls]

end

/-! ### Maps that do the same -/

variable {f g : Expr → Expr}

theorem Instruction.mapExpr_congr {i : Instruction} (h : ∀ e ∈ i.exprs, f e = g e) :
    i.mapExpr f = i.mapExpr g := by
  cases i with
  | instrOpGrp1TwoRegsOneImm t rA rB e
  | instrOpGrp1TwoRegsOneSimm t rA rB e
  | instrOpGrp1OneRegOnePcOneSimm rA e
  | instrOpGrp1OneRegOneImm rA e
  | instrOpGrp2Branch t rA rB e
  | instrOpGrp5TwoRegsOneSimm12Ldst t rA rB e =>
    rw [mapExpr, mapExpr, h e (List.mem_singleton_self e)]
  | _ => rfl

theorem PseudoInstruction.mapExpr_congr {p : PseudoInstruction} (h : ∀ e ∈ p.exprs, f e = g e) :
    p.mapExpr f = p.mapExpr g := by
  cases p with
  | pseudoInstrOpInvi rA e
  | pseudoInstrOpCpyi rA e
  | pseudoInstrOpCpya rA e
  | pseudoInstrOpBra e
  | pseudoInstrOpJmpa e
  | pseudoInstrOpCalla e
  | pseudoInstrOpJmpaCallaConditional t rA rB e
  | pseudoInstrOpAluOpOneRegOneImm t rA e
  | pseudoInstrOpAluOpOneRegOneSimm t rA e =>
    rw [mapExpr, mapExpr, h e (List.mem_singleton_self e)]
  | _ => rfl

theorem Instruction.mapExpr_eq_self {i : Instruction} (h : ∀ e ∈ i.exprs, f e = e) :
    i.mapExpr f = i := by
  rw [mapExpr_congr (g := id) h]
  cases i <;> rfl

theorem PseudoInstruction.mapExpr_eq_self {p : PseudoInstruction} (h : ∀ e ∈ p.exprs, f e = e) :
    p.mapExpr f = p := by
  rw [mapExpr_congr (g := id) h]
  cases p <;> rfl

theorem Directive.mapExpr_eq_self {d : Directive} (h : ∀ e ∈ d.exprs, f e = e) :
    d.mapExpr f = d := by
  have hlist : ∀ es : List Expr, (∀ e ∈ es, f e = e) → es.map f = es := by
    intro es hes
    exact (List.map_congr_left hes).trans (List.map_id' es)
  cases d with
  | dotOrgDirective e
  | dotSpaceDirective e => rw [mapExpr, h e (List.mem_singleton_self e)]
  | dotDbDirective e es
  | dotDb16Directive e es
  | dotDb8Directive e es =>
    rw [mapExpr, h e List.mem_cons_self, hlist es fun e he => h e (List.mem_cons_of_mem _ he)]

mutual

theorem Line.mapExpr_eq_self : (l : Line) → (∀ e ∈ l.exprs, f e = e) → l.mapExpr f = l
  | .scopedLines ls, h => by
    rw [Line.exprs] at h
    rw [Line.mapExpr, linesMapExpr_eq_self ls h]
  | .instruction i, h => by
    rw [Line.exprs] at h
    rw [Line.mapExpr, i.mapExpr_eq_self h]
  | .pseudoInstruction p, h => by
    rw [Line.exprs] at h
    rw [Line.mapExpr, p.mapExpr_eq_self h]
  | .directive d, h => by
    rw [Line.exprs] at h
    rw [Line.mapExpr, d.mapExpr_eq_self h]
  | .label n, _ => by rw [Line.mapExpr]
  | .newline, _ => by rw [Line.mapExpr]

theorem linesMapExpr_eq_self : (ls : List Line) → (∀ e ∈ linesExprs ls, f e = e) →
    linesMapExpr f ls = ls
  | [], _ => by rw [linesMapExpr]
  | l :: ls, h => by
    rw [linesExprs] at h
    rw [linesMapExpr, l.mapExpr_eq_self fun e he => h e (List.mem_append_left _ he),
      linesMapExpr_eq_self ls fun e he => h e (List.mem_append_right _ he)]

end

/-! ### Maps that keep the tokens -/

/-- The map keeps the tokens of every expression. -/
def KeepsTokens (f : Expr → Expr) : Prop := ∀ e : Expr, (f e).tokens = e.tokens

theorem Instruction.tokens_mapExpr (hf : KeepsTokens f) (i : Instruction) :
    (i.mapExpr f).tokens = i.tokens := by
  cases i <;> simp [mapExpr, tokens, hf _]

theorem PseudoInstruction.tokens_mapExpr (hf : KeepsTokens f) (p : PseudoInstruction) :
    (p.mapExpr f).tokens = p.tokens := by
  cases p <;> simp [mapExpr, tokens, hf _]

theorem Directive.tokens_mapExpr (hf : KeepsTokens f) (d : Directive) :
    (d.mapExpr f).tokens = d.tokens := by
  have htokens : ∀ es : List Expr, (es.map f).map Expr.tokens = es.map Expr.tokens := by
    intro es
    rw [List.map_map]
    exact List.map_congr_left fun e _ => hf e
  cases d <;> simp [mapExpr, tokens, exprListToks, hf _, -List.map_map, htokens]

mutual

theorem Line.rows_mapExpr (hf : KeepsTokens f) : (l : Line) → (l.mapExpr f).rows = l.rows
  | .scopedLines ls => by rw [Line.mapExpr, Line.rows, Line.rows, linesRows_linesMapExpr hf ls]
  | .instruction i => by rw [Line.mapExpr, Line.rows, Line.rows, i.tokens_mapExpr hf]
  | .pseudoInstruction p => by rw [Line.mapExpr, Line.rows, Line.rows, p.tokens_mapExpr hf]
  | .directive d => by rw [Line.mapExpr, Line.rows, Line.rows, d.tokens_mapExpr hf]
  | .label n => by rw [Line.mapExpr]
  | .newline => by rw [Line.mapExpr]

theorem linesRows_linesMapExpr (hf : KeepsTokens f) : (ls : List Line) →
    linesRows (linesMapExpr f ls) = linesRows ls
  | [] => by rw [linesMapExpr]
  | l :: ls => by
    rw [linesMapExpr, linesRows, linesRows, l.rows_mapExpr hf, linesRows_linesMapExpr hf ls]

end

end Map

end Frost32.Asm
