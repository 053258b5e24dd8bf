import Frost32.Asm.LineTokens
import Mathlib.SetTheory.Cardinal.Arithmetic

namespace Frost32.Asm

/-!
# Renaming the labels

Programs in which every identifier is replaced by another, at the labels and where it is used.

* `Program.rename`, `Program.items_rename` — the renamed program and its items.
* `Program.KeepsApart` — names of the program that are different stay different.
* `Item.rename_congr` — only the identifiers of an item matter.
* `Renaming` — a renaming that keeps all names apart; `exists_renaming`, on finitely many
  identifiers whose names stay apart **every renaming is one of these**.
-/

/-! ### Renamed programs -/

section Rename

variable (f : IdentName → IdentName)

mutual

def Expr.rename : Expr → Expr
  | .opLogical l op r => .opLogical l.rename op r.rename
  | .exprLogical e => .exprLogical e.rename

def ExprLogical.rename : ExprLogical → ExprLogical
  | .opCompare l op r => .opCompare l.rename op r.rename
  | .exprCompare e => .exprCompare e.rename

def ExprCompare.rename : ExprCompare → ExprCompare
  | .exprAddSub e => .exprAddSub e.rename
  | .exprJustAdd l r => .exprJustAdd l.rename r.rename
  | .exprJustSub l r => .exprJustSub l.rename r.rename

def ExprAddSub.rename : ExprAddSub → ExprAddSub
  | .opMulDivMod l op r => .opMulDivMod l.rename op r.rename
  | .opBitwise l op r => .opBitwise l.rename op r.rename
  | .exprMulDivModEtc e => .exprMulDivModEtc e.rename

def ExprMulDivModEtc.rename : ExprMulDivModEtc → ExprMulDivModEtc
  | .exprUnary e => .exprUnary e.rename
  | .numExpr n => .numExpr n
  | .identName n => .identName (f n)
  | .currPc => .currPc
  | .paren e => .paren e.rename

def ExprUnary.rename : ExprUnary → ExprUnary
  | .exprBitInvert e => .exprBitInvert e.rename
  | .exprNegate e => .exprNegate e.rename
  | .exprLogNot e => .exprLogNot e.rename

end

mutual

def Line.rename : Line → Line
  | .scopedLines ls => .scopedLines (linesRename ls)
  | .label n => .label (f n)
  | .instruction i => .instruction (i.mapExpr (Expr.rename f))
  | .pseudoInstruction p => .pseudoInstruction (p.mapExpr (Expr.rename f))
  | .directive d => .directive (d.mapExpr (Expr.rename f))
  | .newline => .newline

def linesRename : List Line → List Line
  | [] => []
  | l :: ls => l.rename :: linesRename ls

end

/-- The program with other identifiers, at the labels and where they are used. -/
def Program.rename (program : Program) : Program := linesRename f program

def Item.rename : Item → Item
  | .enter => .enter
  | .leave => .leave
  | .label n => .label (f n)
  | .instruction i => .instruction (i.mapExpr (Expr.rename f))
  | .pseudoInstruction p => .pseudoInstruction (p.mapExpr (Expr.rename f))
  | .org e => .org (e.rename f)
  | .space e => .space (e.rename f)
  | .db e => .db (e.rename f)
  | .db16 e => .db16 (e.rename f)
  | .db8 e => .db8 (e.rename f)

theorem Directive.items_mapExpr (d : Directive) :
    (d.mapExpr (Expr.rename f)).items = d.items.map (Item.rename f) := by
  cases d with
  | dotOrgDirective e => rfl
  | dotSpaceDirective e => rfl
  | dotDbDirective e es => simp [mapExpr, items, Item.rename]
  | dotDb16Directive e es => simp [mapExpr, items, Item.rename]
  | dotDb8Directive e es => simp [mapExpr, items, Item.rename]

mutual

theorem Line.items_rename : (l : Line) → (l.rename f).items = l.items.map (Item.rename f)
  | .scopedLines ls => by
    rw [Line.rename, Line.items, Line.items, linesItems_rename ls]
    simp [Item.rename]
  | .label n => by simp [Line.rename, Line.items, Item.rename]
  | .instruction i => by simp [Line.rename, Line.items, Item.rename]
  | .pseudoInstruction p => by simp [Line.rename, Line.items, Item.rename]
  | .directive d => by
    rw [Line.rename, Line.items, Line.items]
    exact d.items_mapExpr f
  | .newline => by simp [Line.rename, Line.items]

theorem linesItems_rename : (ls : List Line) →
    linesItems (linesRename f ls) = (linesItems ls).map (Item.rename f)
  | [] => by simp [linesRename, linesItems]
  | l :: ls => by
    rw [linesRename, linesItems, linesItems, Line.items_rename l, linesItems_rename ls,
      List.map_append]

end

theorem Program.items_rename (program : Program) :
    (program.rename f).items = program.items.map (Item.rename f) :=
  linesItems_rename f program

end Rename

/-! ### The identifiers of a program -/

/-- The identifiers of an item, as a label or used. -/
def Item.names : Item → List IdentName
  | .label n => [n]
  | it => it.idents

def Program.names (program : Program) : List IdentName := program.items.flatMap Item.names

/-- The names of the program that are different stay different, and equal ones equal. -/
def Program.KeepsApart (f : IdentName → IdentName) (program : Program) : Prop :=
  ∀ n ∈ program.names, ∀ m ∈ program.names, (f n).text = (f m).text ↔ n.text = m.text

section Congr

variable {f g : IdentName → IdentName}

mutual

theorem Expr.rename_congr : (e : Expr) → (∀ n ∈ e.idents, f n = g n) → e.rename f = e.rename g
  | .opLogical l op r, h => by
    obtain ⟨hl, hr⟩ := List.forall_mem_append.mp h
    rw [Expr.rename, Expr.rename, Expr.rename_congr l hl, ExprLogical.rename_congr r hr]
  | .exprLogical e, h => by rw [Expr.rename, Expr.rename, ExprLogical.rename_congr e h]

theorem ExprLogical.rename_congr : (e : ExprLogical) → (∀ n ∈ e.idents, f n = g n) →
    e.rename f = e.rename g
  | .opCompare l op r, h => by
    obtain ⟨hl, hr⟩ := List.forall_mem_append.mp h
    rw [ExprLogical.rename, ExprLogical.rename, ExprLogical.rename_congr l hl,
      ExprCompare.rename_congr r hr]
  | .exprCompare e, h => by
    rw [ExprLogical.rename, ExprLogical.rename, ExprCompare.rename_congr e h]

theorem ExprCompare.rename_congr : (e : ExprCompare) → (∀ n ∈ e.idents, f n = g n) →
    e.rename f = e.rename g
  | .exprAddSub e, h => by
    rw [ExprCompare.rename, ExprCompare.rename, ExprAddSub.rename_congr e h]
  | .exprJustAdd l r, h => by
    obtain ⟨hl, hr⟩ := List.forall_mem_append.mp h
    rw [ExprCompare.rename, ExprCompare.rename, ExprAddSub.rename_congr l hl,
      ExprCompare.rename_congr r hr]
  | .exprJustSub l r, h => by
    obtain ⟨hl, hr⟩ := List.forall_mem_append.mp h
    rw [ExprCompare.rename, ExprCompare.rename, ExprAddSub.rename_congr l hl,
      ExprCompare.rename_congr r hr]

theorem ExprAddSub.rename_congr : (e : ExprAddSub) → (∀ n ∈ e.idents, f n = g n) →
    e.rename f = e.rename g
  | .opMulDivMod l op r, h => by
    obtain ⟨hl, hr⟩ := List.forall_mem_append.mp h
    rw [ExprAddSub.rename, ExprAddSub.rename, ExprAddSub.rename_congr l hl,
      ExprMulDivModEtc.rename_congr r hr]
  | .opBitwise l op r, h => by
    obtain ⟨hl, hr⟩ := List.forall_mem_append.mp h
    rw [ExprAddSub.rename, ExprAddSub.rename, ExprAddSub.rename_congr l hl,
      ExprMulDivModEtc.rename_congr r hr]
  | .exprMulDivModEtc e, h => by
    rw [ExprAddSub.rename, ExprAddSub.rename, ExprMulDivModEtc.rename_congr e h]

theorem ExprMulDivModEtc.rename_congr : (e : ExprMulDivModEtc) → (∀ n ∈ e.idents, f n = g n) →
    e.rename f = e.rename g
  | .exprUnary e, h => by
    rw [ExprMulDivModEtc.rename, ExprMulDivModEtc.rename, ExprUnary.rename_congr e h]
  | .numExpr n, _ => by rw [ExprMulDivModEtc.rename, ExprMulDivModEtc.rename]
  | .identName n, h => by
    rw [ExprMulDivModEtc.rename, ExprMulDivModEtc.rename, h n List.mem_cons_self]
  | .currPc, _ => by rw [ExprMulDivModEtc.rename, ExprMulDivModEtc.rename]
  | .paren e, h => by
    rw [ExprMulDivModEtc.rename, ExprMulDivModEtc.rename, Expr.rename_congr e h]

theorem ExprUnary.rename_congr : (e : ExprUnary) → (∀ n ∈ e.idents, f n = g n) →
    e.rename f = e.rename g
  | .exprBitInvert e, h => by
    rw [ExprUnary.rename, ExprUnary.rename, Expr.rename_congr e h]
  | .exprNegate e, h => by
    rw [ExprUnary.rename, ExprUnary.rename, Expr.rename_congr e h]
  | .exprLogNot e, h => by
    rw [ExprUnary.rename, ExprUnary.rename, Expr.rename_congr e h]

end

/-- Only the identifiers of the item matter. -/
theorem Item.rename_congr {it : Item} (h : ∀ n ∈ it.names, f n = g n) :
    it.rename f = it.rename g := by
  have hexpr : ∀ e ∈ it.exprs, it.names = it.idents → e.rename f = e.rename g := by
    intro e he hnames
    refine e.rename_congr fun n hn => h n ?_
    rw [hnames]
    exact List.mem_flatMap.mpr ⟨e, he, hn⟩
  cases it with
  | enter | leave => rfl
  | label n => exact congrArg Item.label (h n List.mem_cons_self)
  | instruction i =>
    exact congrArg Item.instruction (i.mapExpr_congr fun e he => hexpr e he rfl)
  | pseudoInstruction p =>
    exact congrArg Item.pseudoInstruction (p.mapExpr_congr fun e he => hexpr e he rfl)
  | org e => exact congrArg Item.org (hexpr e List.mem_cons_self rfl)
  | space e => exact congrArg Item.space (hexpr e List.mem_cons_self rfl)
  | db e => exact congrArg Item.db (hexpr e List.mem_cons_self rfl)
  | db16 e => exact congrArg Item.db16 (hexpr e List.mem_cons_self rfl)
  | db8 e => exact congrArg Item.db8 (hexpr e List.mem_cons_self rfl)

end Congr

/-! ### Renamings of all names -/

/-- A renaming of all names; it does not matter as what kind of token a name is written. -/
structure Renaming where
  name : String → String
  name_injective : Function.Injective name
  ident : IdentName → IdentName
  text_ident (n : IdentName) : (ident n).text = name n.text

/-- **On finitely many identifiers whose names stay apart every renaming is one of all names.** -/
theorem exists_renaming {f : IdentName → IdentName} {ns : List IdentName}
    (h : ∀ n ∈ ns, ∀ m ∈ ns, (f n).text = (f m).text ↔ n.text = m.text) :
    ∃ ρ : Renaming, ∀ n ∈ ns, ρ.ident n = f n := by
  classical
  let texts : Set String := {w | ∃ n ∈ ns, n.text = w}
  have htexts : texts.Finite := by
    refine (ns.map IdentName.text).toFinset.finite_toSet.subset ?_
    rintro w ⟨n, hn, rfl⟩
    exact List.mem_toFinset.mpr (List.mem_map_of_mem hn)
  -- the new name of each of them, which extends to the other names
  let renamed : texts → String := fun w => (f w.property.choose).text
  have hrenamed : ∀ n (hn : n ∈ ns), renamed ⟨n.text, n, hn, rfl⟩ = (f n).text := by
    intro n hn
    have hchoose := (⟨n, hn, rfl⟩ : ∃ m ∈ ns, m.text = n.text).choose_spec
    exact (h _ hchoose.1 n hn).mpr hchoose.2
  have hinjective : Function.Injective renamed := by
    rintro ⟨_, n, hn, rfl⟩ ⟨_, m, hm, rfl⟩ heq
    rw [hrenamed n hn, hrenamed m hm] at heq
    exact Subtype.ext ((h n hn m hm).mp heq)
  obtain ⟨name, hname⟩ := Cardinal.extend_function_of_lt ⟨renamed, hinjective⟩
    (htexts.lt_aleph0.trans_le (Cardinal.aleph0_le_mk String)) ⟨Equiv.refl String⟩
  refine ⟨⟨name, name.injective, fun n => if n ∈ ns then f n else .ident (name n.text), ?_⟩, ?_⟩
  · intro n
    by_cases hn : n ∈ ns
    · rw [if_pos hn, hname ⟨n.text, n, hn, rfl⟩]
      exact (hrenamed n hn).symm
    · rw [if_neg hn]
      rfl
  · intro n hn
    exact if_pos hn

end Frost32.Asm
