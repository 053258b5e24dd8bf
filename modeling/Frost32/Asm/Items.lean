import Frost32.Asm.Effects
import Frost32.Lib.Fallible

namespace Frost32.Asm

open Fallible

/-!
# A program item by item

The recursion of the visitors over nested scopes, written as a run over a flat list: a scope
becomes an item that enters it, the items of its lines and an item that leaves it, and each
value of a `.db` directive becomes an item of its own.

* `Item`, `Program.items` — the items of a program in source order.
* `stepItem` — what the assembler does for one item.
* `visitLines_run` — **the visitors run through the items**.
* `stepItem_of_plain` — items other than labels and scopes perform their `Item.effect`.
* `passStart`, `afterItems`, `assemble_eq` — the two passes as runs.
-/

/-! ### Items -/

inductive Item
  | enter
  | leave
  | label (n : IdentName)
  | instruction (i : Instruction)
  | pseudoInstruction (p : PseudoInstruction)
  | org (e : Expr)
  | space (e : Expr)
  | db (e : Expr)
  | db16 (e : Expr)
  | db8 (e : Expr)

def Directive.items : Directive → List Item
  | dotOrgDirective e => [.org e]
  | dotSpaceDirective e => [.space e]
  | dotDbDirective e es => (e :: es).map .db
  | dotDb16Directive e es => (e :: es).map .db16
  | dotDb8Directive e es => (e :: es).map .db8

mutual

def Line.items : Line → List Item
  | .scopedLines ls => .enter :: (linesItems ls ++ [.leave])
  | .label n => [.label n]
  | .instruction i => [.instruction i]
  | .pseudoInstruction p => [.pseudoInstruction p]
  | .directive d => d.items
  | .newline => []

def linesItems : List Line → List Item
  | [] => []
  | l :: ls => l.items ++ linesItems ls

end

def Program.items (program : Program) : List Item := linesItems program

def visitItem : Item → AsmM Unit
  | .enter => enterScope
  | .leave => leaveScope
  | .label n => visitLabel n
  | .instruction i => visitInstruction i
  | .pseudoInstruction p => visitPseudoInstruction p
  | .org e => visitDirective (.dotOrgDirective e)
  | .space e => visitDirective (.dotSpaceDirective e)
  | .db e => visitDirective (.dotDbDirective e [])
  | .db16 e => visitDirective (.dotDb16Directive e [])
  | .db8 e => visitDirective (.dotDb8Directive e [])

/-- What the assembler does for one item. -/
def stepItem (it : Item) (s : Assembler) : Except AsmError Assembler :=
  Prod.snd <$> (visitItem it).run s

/-! ### The visitors run through the items -/

/-- The outcome of a visitor that runs through items. -/
def running (r : Except AsmError Assembler) : Except AsmError (Unit × Assembler) :=
  r.map fun s => ((), s)

theorem running_stepItem (it : Item) (s : Assembler) :
    running (stepItem it s) = (visitItem it).run s := by
  unfold running stepItem
  cases (visitItem it).run s <;> rfl

/-- Two visitors one after the other. -/
theorem running_bind {m₁ m₂ : AsmM Unit} {xs ys : List Item} {s : Assembler}
    (h₁ : m₁.run s = running (runList stepItem xs s))
    (h₂ : ∀ s, m₂.run s = running (runList stepItem ys s)) :
    (do m₁; m₂ : AsmM Unit).run s = running (runList stepItem (xs ++ ys) s) := by
  rw [StateT.run_bind, h₁, runList_append]
  cases runList stepItem xs s with
  | error e => rfl
  | ok u => exact h₂ u

theorem running_singleton (it : Item) (s : Assembler) :
    (visitItem it).run s = running (runList stepItem [it] s) := by
  rw [runList_singleton, running_stepItem]

/-- The loop of a `.db` directive. -/
theorem visitExprList_run (gen : BitVec 64 → AsmM Unit) (item : Expr → Item)
    (hitem : ∀ e, visitItem (item e) = visitExprList gen [e]) (es : List Expr) (s : Assembler) :
    (visitExprList gen es).run s = running (runList stepItem (es.map item) s) := by
  induction es generalizing s with
  | nil => rfl
  | cons e es ih =>
    have hhead : ∀ s, (do gen (← acceptExpr e) : AsmM Unit).run s
        = running (runList stepItem [item e] s) := by
      intro s
      rw [← running_singleton, hitem]
      unfold visitExprList
      simp [visitExprList]
    have hsplit : visitExprList gen (e :: es) =
        (do (do gen (← acceptExpr e)); visitExprList gen es) := by
      rw [visitExprList, bind_assoc]
    rw [hsplit, List.map_cons, ← List.singleton_append]
    exact running_bind (hhead s) ih

theorem visitDirective_run (d : Directive) (s : Assembler) :
    (visitDirective d).run s = running (runList stepItem d.items s) := by
  cases d with
  | dotOrgDirective e => exact running_singleton (.org e) s
  | dotSpaceDirective e => exact running_singleton (.space e) s
  | dotDbDirective e es => exact visitExprList_run _ .db (fun _ => rfl) (e :: es) s
  | dotDb16Directive e es => exact visitExprList_run _ .db16 (fun _ => rfl) (e :: es) s
  | dotDb8Directive e es => exact visitExprList_run _ .db8 (fun _ => rfl) (e :: es) s

mutual

theorem visitLine_run (s : Assembler) : (l : Line) →
    (visitLine l).run s = running (runList stepItem l.items s)
  | .scopedLines ls => by
    rw [visitLine, Line.items, ← List.singleton_append]
    apply running_bind (running_singleton .enter s)
    intro s
    exact running_bind (visitLines_run s ls) (running_singleton .leave)
  | .label n => by
    rw [visitLine, Line.items]
    exact running_singleton (.label n) s
  | .instruction i => by
    rw [visitLine, Line.items]
    exact running_singleton (.instruction i) s
  | .pseudoInstruction p => by
    rw [visitLine, Line.items]
    exact running_singleton (.pseudoInstruction p) s
  | .directive d => by
    rw [visitLine, Line.items]
    exact visitDirective_run d s
  | .newline => by
    rw [visitLine, Line.items]
    rfl

/-- **The visitors run through the items of the lines.** -/
theorem visitLines_run (s : Assembler) : (ls : List Line) →
    (visitLines ls).run s = running (runList stepItem (linesItems ls) s)
  | [] => by
    rw [visitLines, linesItems]
    rfl
  | l :: ls => by
    rw [visitLines, linesItems]
    exact running_bind (visitLine_run s l) fun s => visitLines_run s ls

end

/-! ### Items that perform an effect -/

/-- Items other than labels and scopes. -/
def Item.plain : Item → Bool
  | .enter | .leave | .label _ => false
  | _ => true

/-- The effect of an item; labels and the ends of scopes have none. -/
def Item.effect (env : Env) : Item → Except AsmError Effect
  | .enter | .leave | .label _ => .ok {}
  | .instruction i => i.effect env
  | .pseudoInstruction p => p.effect env
  | .org e => do return { jump := some (← e.eval env) }
  | .space e => do return { jump := some (env.pc + (← e.eval env)) }
  | .db e => do return { data := [.b32 ((← e.eval env).setWidth 32)] }
  | .db16 e => do return { data := [.b16 ((← e.eval env).setWidth 16)] }
  | .db8 e => do return { data := [.b8 ((← e.eval env).setWidth 8)] }

theorem visitItem_of_plain {it : Item} (h : it.plain = true) (s : Assembler) :
    (visitItem it).run s = performing s (it.effect s.env) := by
  -- the three data directives differ in the routine they print with
  have hdata : ∀ (gen : BitVec 64 → AsmM Unit) (datum : BitVec 64 → Datum) (e : Expr),
      (∀ n s, (gen n).run s = .ok ((), s.gen (datum n))) →
      (visitExprList gen [e]).run s =
        performing s (do return { data := [datum (← e.eval s.env)] }) := by
    intro gen datum e hgen
    show (acceptExpr e >>= fun n => gen n >>= fun _ => pure ()).run s = _
    apply acceptExpr_bind_run e rfl
    intro n
    rw [StateT.run_bind, hgen]
    simp [Assembler.perform, Assembler.genAll]
  cases it with
  | enter => cases h
  | leave => cases h
  | label n => cases h
  | instruction i => exact visitInstruction_run i s
  | pseudoInstruction p => exact visitPseudoInstruction_run p s
  | org e =>
    apply acceptExpr_bind_run e rfl
    intro n
    simp [Assembler.perform, Assembler.genAll, Assembler.jumpTo]
  | space e =>
    apply acceptExpr_bind_run e rfl
    intro n
    simp [Assembler.perform, Assembler.genAll, Assembler.jumpTo, Assembler.env]
  | db e => exact hdata _ (fun n => .b32 (n.setWidth 32)) e fun n s => gen32_run _ s
  | db16 e => exact hdata _ (fun n => .b16 (n.setWidth 16)) e fun n s => gen16_run _ s
  | db8 e => exact hdata _ (fun n => .b8 (n.setWidth 8)) e fun n s => gen8_run' _ s

/-- **A plain item performs its effect** and changes nothing else. -/
theorem stepItem_of_plain {it : Item} (h : it.plain = true) (s : Assembler) :
    stepItem it s = (it.effect s.env).map fun ef => s.perform ef := by
  unfold stepItem
  rw [visitItem_of_plain h, performing]
  cases it.effect s.env <;> rfl

/-! ### The two passes -/

/-- The state at the start of a pass. -/
def passStart (showWords : Bool) (program : Program) : Nat → Except AsmError Assembler
  | 0 => .ok ({ Assembler.init showWords with scopeChildNumStack := [0] }.beginPass 0)
  | p + 1 => do
    let s ← passStart showWords program p
    return (← runList stepItem program.items s).beginPass (p + 1)

/-- The state of pass `p` after the items of a prefix of the program. -/
def afterItems (showWords : Bool) (program : Program) (p : Nat) (pre : List Item) :
    Except AsmError Assembler := do
  runList stepItem pre (← passStart showWords program p)

/-- **The assembler ends in the state after all items of pass 1.** -/
theorem assemble_eq (showWords : Bool) (program : Program) :
    assemble showWords program = afterItems showWords program 1 program.items := by
  have hpass : ∀ p s, (runPass program p).run s =
      running (runList stepItem program.items (s.beginPass p)) := by
    intro p s
    unfold runPass
    rw [StateT.run_bind, StateT.run_modify]
    exact visitLines_run _ program
  unfold assemble run afterItems passStart
  simp only [StateT.run_bind, passStart, hpass, ok_bind, except_pure]
  show _ <$> ((running (runList stepItem program.items
    ({ Assembler.init showWords with scopeChildNumStack := [0] }.beginPass 0))) >>= _) = _
  cases runList stepItem program.items
      ({ Assembler.init showWords with scopeChildNumStack := [0] }.beginPass 0) with
  | error e => rfl
  | ok s =>
    show _ <$> running (runList stepItem program.items (s.beginPass 1)) = _
    cases hlast : runList stepItem program.items (s.beginPass 1) with
    | error e => simp [running, Except.map, hlast]
    | ok t => simp [running, Except.map, hlast]

end Frost32.Asm
