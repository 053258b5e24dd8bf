import Frost32.Asm.Renaming

namespace Frost32.Asm

open Fallible

/-!
# Assembling a renamed program

The assembler does nothing with a name but compare it with others.  So a renaming that keeps
different names of the program different leaves the output as it is.

* `Renaming.eval_expr`, `Renaming.effect_item` — the renamed expressions and items, with the old
  addresses under the new names.
* `SymbolTable.Renamed` — a symbol table and the same one with other names; each operation of
  the table keeps them so.
* `stepItem_renamed` — what the assembler does for an item and for the renamed one.
* `assemble_renamed` — the final states are the same but for the names.
* `assemble_rename` — **the renamed program has the same output, or neither assembles**.
-/

/-! ### Values and effects -/

namespace Renaming

variable (ρ : Renaming)

section Values

variable {env : Env} {addr : String → Except AsmError (BitVec 64)}

/-- The new names have the addresses of the old ones. -/
def Addresses (env : Env) (addr : String → Except AsmError (BitVec 64)) : Prop :=
  ∀ w, (addr (ρ.name w)).toOption = (env.addr w).toOption

variable {ρ}

theorem eval_ident (h : ρ.Addresses env addr) (n : IdentName) :
    ((ρ.ident n).eval { env with addr := addr }).toOption = (n.eval env).toOption := by
  unfold IdentName.eval
  by_cases hpass : env.pass = 0
  · rw [if_pos hpass, if_pos hpass]
  · rw [if_neg hpass, if_neg hpass, text_ident]
    exact h n.text

mutual

/-- A renamed expression has the same value where the new names have the old addresses. -/
theorem eval_expr (h : ρ.Addresses env addr) : (e : Expr) →
    ((e.rename ρ.ident).eval { env with addr := addr }).toOption = (e.eval env).toOption
  | .opLogical l op r => by
    rw [Expr.rename, Expr.eval, Expr.eval]
    apply toOption_bind_congr (eval_expr h l)
    intro x
    exact toOption_bind_congr (eval_exprLogical h r) fun _ => rfl
  | .exprLogical e => by
    rw [Expr.rename, Expr.eval, Expr.eval]
    exact eval_exprLogical h e

theorem eval_exprLogical (h : ρ.Addresses env addr) : (e : ExprLogical) →
    ((e.rename ρ.ident).eval { env with addr := addr }).toOption = (e.eval env).toOption
  | .opCompare l op r => by
    rw [ExprLogical.rename, ExprLogical.eval, ExprLogical.eval]
    apply toOption_bind_congr (eval_exprLogical h l)
    intro x
    exact toOption_bind_congr (eval_exprCompare h r) fun _ => rfl
  | .exprCompare e => by
    rw [ExprLogical.rename, ExprLogical.eval, ExprLogical.eval]
    exact eval_exprCompare h e

theorem eval_exprCompare (h : ρ.Addresses env addr) : (e : ExprCompare) →
    ((e.rename ρ.ident).eval { env with addr := addr }).toOption = (e.eval env).toOption
  | .exprAddSub e => by
    rw [ExprCompare.rename, ExprCompare.eval, ExprCompare.eval]
    exact eval_exprAddSub h e
  | .exprJustAdd l r => by
    rw [ExprCompare.rename, ExprCompare.eval, ExprCompare.eval]
    apply toOption_bind_congr (eval_exprAddSub h l)
    intro x
    exact toOption_bind_congr (eval_exprCompare h r) fun _ => rfl
  | .exprJustSub l r => by
    rw [ExprCompare.rename, ExprCompare.eval, ExprCompare.eval]
    apply toOption_bind_congr (eval_exprAddSub h l)
    intro x
    exact toOption_bind_congr (eval_exprCompare h r) fun _ => rfl

theorem eval_exprAddSub (h : ρ.Addresses env addr) : (e : ExprAddSub) →
    ((e.rename ρ.ident).eval { env with addr := addr }).toOption = (e.eval env).toOption
  | .opMulDivMod l op r => by
    rw [ExprAddSub.rename, ExprAddSub.eval, ExprAddSub.eval]
    apply toOption_bind_congr (eval_exprAddSub h l)
    intro x
    exact toOption_bind_congr (eval_exprMulDivModEtc h r) fun _ => rfl
  | .opBitwise l op r => by
    rw [ExprAddSub.rename, ExprAddSub.eval, ExprAddSub.eval]
    apply toOption_bind_congr (eval_exprAddSub h l)
    intro x
    exact toOption_bind_congr (eval_exprMulDivModEtc h r) fun _ => rfl
  | .exprMulDivModEtc e => by
    rw [ExprAddSub.rename, ExprAddSub.eval, ExprAddSub.eval]
    exact eval_exprMulDivModEtc h e

theorem eval_exprMulDivModEtc (h : ρ.Addresses env addr) : (e : ExprMulDivModEtc) →
    ((e.rename ρ.ident).eval { env with addr := addr }).toOption = (e.eval env).toOption
  | .exprUnary e => by
    rw [ExprMulDivModEtc.rename, ExprMulDivModEtc.eval, ExprMulDivModEtc.eval]
    exact eval_exprUnary h e
  | .numExpr n => by rw [ExprMulDivModEtc.rename, ExprMulDivModEtc.eval, ExprMulDivModEtc.eval]
  | .identName n => by
    rw [ExprMulDivModEtc.rename, ExprMulDivModEtc.eval, ExprMulDivModEtc.eval]
    exact eval_ident h n
  | .currPc => by rw [ExprMulDivModEtc.rename, ExprMulDivModEtc.eval, ExprMulDivModEtc.eval]
  | .paren e => by
    rw [ExprMulDivModEtc.rename, ExprMulDivModEtc.eval, ExprMulDivModEtc.eval]
    exact eval_expr h e

theorem eval_exprUnary (h : ρ.Addresses env addr) : (e : ExprUnary) →
    ((e.rename ρ.ident).eval { env with addr := addr }).toOption = (e.eval env).toOption
  | .exprBitInvert e => by
    rw [ExprUnary.rename, ExprUnary.eval, ExprUnary.eval]
    exact toOption_bind_congr (eval_expr h e) fun _ => rfl
  | .exprNegate e => by
    rw [ExprUnary.rename, ExprUnary.eval, ExprUnary.eval]
    exact toOption_bind_congr (eval_expr h e) fun _ => rfl
  | .exprLogNot e => by
    rw [ExprUnary.rename, ExprUnary.eval, ExprUnary.eval]
    exact toOption_bind_congr (eval_expr h e) fun _ => rfl

end

theorem effect_instruction (h : ρ.Addresses env addr) (i : Instruction) :
    ((i.mapExpr (Expr.rename ρ.ident)).effect { env with addr := addr }).toOption =
      (i.effect env).toOption := by
  cases i with
  | instrOpGrp1TwoRegsOneImm t rA rB e
  | instrOpGrp1TwoRegsOneSimm t rA rB e
  | instrOpGrp1OneRegOnePcOneSimm rA e
  | instrOpGrp1OneRegOneImm rA e
  | instrOpGrp2Branch t rA rB e
  | instrOpGrp5TwoRegsOneSimm12Ldst t rA rB e =>
    -- the mnemonic comes before the operand
    exact toOption_bind_congr rfl fun _ => toOption_bind_congr (eval_expr h e) fun _ => rfl
  | _ => rfl

theorem effect_pseudoInstruction (h : ρ.Addresses env addr) (p : PseudoInstruction) :
    ((p.mapExpr (Expr.rename ρ.ident)).effect { env with addr := addr }).toOption =
      (p.effect env).toOption := by
  cases p with
  | pseudoInstrOpInvi rA e
  | pseudoInstrOpCpyi rA e
  | pseudoInstrOpCpya rA e
  | pseudoInstrOpBra e
  | pseudoInstrOpJmpa e
  | pseudoInstrOpCalla e
  | pseudoInstrOpJmpaCallaConditional t rA rB e =>
    exact toOption_bind_congr (eval_expr h e) fun _ => rfl
  | pseudoInstrOpAluOpOneRegOneImm t rA e
  | pseudoInstrOpAluOpOneRegOneSimm t rA e =>
    exact toOption_bind_congr rfl fun _ => toOption_bind_congr (eval_expr h e) fun _ => rfl
  | pseudoInstrOpGrpCpy rA rB => cases rB <;> rfl
  | _ => rfl

/-- **A renamed item has the same effect.** -/
theorem effect_item (h : ρ.Addresses env addr) (it : Item) :
    ((it.rename ρ.ident).effect { env with addr := addr }).toOption =
      (it.effect env).toOption := by
  cases it with
  | enter | leave | label n => rfl
  | instruction i => exact effect_instruction h i
  | pseudoInstruction p => exact effect_pseudoInstruction h p
  | org e | space e | db e | db16 e | db8 e =>
    exact toOption_bind_congr (eval_expr h e) fun _ => rfl

end Values

end Renaming

/-! ### Symbol tables -/

/-- A symbol under its new name. -/
def Renaming.symbol (ρ : Renaming) (x : Symbol) : Symbol := { x with name := ρ.name x.name }

/-- The same scope with the symbols under their new names. -/
structure ScopedTableNode.Renamed (ρ : Renaming) (nd nd' : ScopedTableNode) : Prop where
  parent : nd'.parent = nd.parent
  children : nd'.children = nd.children
  table (w : String) : nd'.table (ρ.name w) = (nd.table w).map ρ.symbol

/-- One more symbol, or another one. -/
theorem ScopedTableNode.Renamed.setSymbol {ρ : Renaming} {nd nd' : ScopedTableNode}
    (h : nd.Renamed ρ nd') (w : String) (x : Option Symbol) :
    ScopedTableNode.Renamed ρ { nd with table := Function.update nd.table w x }
      { nd' with table := Function.update nd'.table (ρ.name w) (x.map ρ.symbol) } where
  parent := h.parent
  children := h.children
  table u := by
    dsimp only
    by_cases hu : u = w
    · rw [hu, Function.update_self, Function.update_self]
    · rw [Function.update_of_ne hu, Function.update_of_ne (ρ.name_injective.ne hu)]
      exact h.table u

structure SymbolTable.Renamed (ρ : Renaming) (t t' : SymbolTable) : Prop where
  made : t'.made = t.made
  node (v : Nat) : (t.node v).Renamed ρ (t'.node v)

namespace SymbolTable

variable {ρ : Renaming} {t t' : SymbolTable} (h : t.Renamed ρ t') (curr v : Nat) (w : String)

include h

theorem Renamed.modifyNode (f f' : ScopedTableNode → ScopedTableNode)
    (hf : (f (t.node v)).Renamed ρ (f' (t'.node v))) :
    (t.modifyNode v f).Renamed ρ (t'.modifyNode v f') where
  made := h.made
  node u := by
    by_cases hu : u = v
    · rw [hu, node_modifyNode_self, node_modifyNode_self]
      exact hf
    · rw [node_modifyNode_of_ne _ hu, node_modifyNode_of_ne _ hu]
      exact h.node u

theorem Renamed.mkscope : (t.mkscope curr).1.Renamed ρ (t'.mkscope curr).1 := by
  have hchildren : (t'.node curr).children ++ [t.made + 1] =
      (t.node curr).children ++ [t.made + 1] :=
    congrArg (· ++ [t.made + 1]) (h.node curr).children
  have hparent := h.modifyNode curr
    (fun nd => { nd with children := nd.children ++ [t.made + 1] })
    (fun nd => { nd with children := nd.children ++ [t.made + 1] })
    ⟨(h.node curr).parent, hchildren, (h.node curr).table⟩
  -- the new node is empty on either side
  have hnew := hparent.modifyNode (t.made + 1) (fun _ => { parent := curr })
    (fun _ => { parent := curr }) ⟨rfl, rfl, fun _ => rfl⟩
  refine ⟨congrArg (· + 1) h.made, fun u => ?_⟩
  unfold SymbolTable.mkscope
  rw [h.made]
  exact hnew.node u

/-- A new name is found where the old one is. -/
theorem Renamed.find : t'.find curr (ρ.name w) = t.find curr w := by
  have hloop : ∀ fuel p, t'.findLoop (ρ.name w) fuel p = t.findLoop w fuel p := by
    intro fuel
    induction fuel with
    | zero => exact fun _ => rfl
    | succ fuel ih =>
      intro p
      rw [findLoop, findLoop, (h.node p).table, (h.node p).parent, ih, Option.isSome_map]
  exact hloop curr curr

theorem Renamed.insertOrAssign :
    (t.insertOrAssign v { name := w }).Renamed ρ (t'.insertOrAssign v { name := ρ.name w }) :=
  h.modifyNode v _ _ ((h.node v).setSymbol w (some { name := w }))

theorem Renamed.update {f : Symbol → Symbol} (hf : ∀ x, f (ρ.symbol x) = ρ.symbol (f x)) :
    (t.update w v f).Renamed ρ (t'.update (ρ.name w) v f) := by
  have hwritten : (((t.node v).table w).map f).map ρ.symbol =
      ((t'.node v).table (ρ.name w)).map f := by
    rw [(h.node v).table, Option.map_map, Option.map_map]
    exact congrArg (Option.map · _) (funext fun x => (hf x).symm)
  have hnode := (h.node v).setSymbol w (((t.node v).table w).map f)
  rw [hwritten] at hnode
  exact h.modifyNode v _ _ hnode

theorem Renamed.findOrInsert :
    (t'.findOrInsert curr (ρ.name w)).1 = (t.findOrInsert curr w).1 ∧
      (t.findOrInsert curr w).2.Renamed ρ (t'.findOrInsert curr (ρ.name w)).2 := by
  unfold SymbolTable.findOrInsert
  rw [h.find]
  cases t.find curr w with
  | some u => exact ⟨rfl, h⟩
  | none => exact ⟨(h.insertOrAssign curr w).find curr w, h.insertOrAssign curr w⟩

/-- **The new names have the addresses of the old ones**, seen from any scope. -/
theorem Renamed.addrFrom :
    (t'.addrFrom curr (ρ.name w)).toOption = (t.addrFrom curr w).toOption := by
  unfold SymbolTable.addrFrom
  rw [h.find]
  cases t.find curr w with
  | none => rfl
  | some u =>
    have hderef : t'.deref (ρ.name w) u = ρ.symbol (t.deref w u) := by
      unfold deref
      rw [(h.node u).table]
      cases (t.node u).table w <;> rfl
    dsimp only
    rw [hderef]
    show (if (t.deref w u).foundAsLabel then _ else _ : Except AsmError (BitVec 64)).toOption = _
    cases (t.deref w u).foundAsLabel <;> rfl

omit h in
theorem renamed_init (ρ : Renaming) : SymbolTable.init.Renamed ρ .init := by
  have hempty : ({ node := fun _ => {}, made := 0 } : SymbolTable).Renamed ρ
      { node := fun _ => {}, made := 0 } := ⟨rfl, fun _ => ⟨rfl, rfl, fun _ => rfl⟩⟩
  exact hempty.mkscope 0

end SymbolTable

/-! ### One item -/

/-- The same state with another symbol table. -/
def Assembler.withSymTbl (t : SymbolTable) (s : Assembler) : Assembler := { s with symTbl := t }

/-- The same state with the symbols under their new names. -/
def Assembler.Renamed (ρ : Renaming) (s s' : Assembler) : Prop :=
  ∃ t, s.symTbl.Renamed ρ t ∧ s' = s.withSymTbl t

/-- Effects do not look at the symbol table. -/
theorem Assembler.perform_withSymTbl (t : SymbolTable) (ef : Effect) (s : Assembler) :
    (s.withSymTbl t).perform ef = (s.perform ef).withSymTbl t := by
  have hgen : ∀ (d : Datum) (s : Assembler), (s.withSymTbl t).gen d = (s.gen d).withSymTbl t :=
    fun d s => List.foldl_hom (Assembler.withSymTbl t) fun _ _ => rfl
  have hall : ∀ (ds : List Datum) (s : Assembler),
      (s.withSymTbl t).genAll ds = (s.genAll ds).withSymTbl t := by
    intro ds s
    unfold Assembler.genAll
    exact List.foldl_hom _ fun s d => hgen d s
  show (((s.warnAll ef.warnings).withSymTbl t).genAll ef.data).jumpTo ef.jump = _
  rw [hall]
  unfold Assembler.perform
  cases ef.jump <;> rfl

section Step

variable {ρ : Renaming} {s : Assembler} {t : SymbolTable} (h : s.symTbl.Renamed ρ t)

include h

theorem stepItem_renamed_enter : Corresponds (Assembler.Renamed ρ) (stepItem .enter s)
    (stepItem .enter (s.withSymTbl t)) := by
  by_cases hpass : s.pass = 0
  · have hpass' : (s.withSymTbl t).pass = 0 := hpass
    rw [stepItem_enter_zero hpass, stepItem_enter_zero hpass']
    refine .ok ⟨(t.mkscope s.currScopeNode).1, h.mkscope s.currScopeNode, ?_⟩
    show ({ s with symTbl := _, currScopeNode := t.made + 1 } : Assembler) = _
    rw [h.made]
    rfl
  · have hpass' : (s.withSymTbl t).pass ≠ 0 := hpass
    -- the tree of scopes is the same
    have hchildren : ((s.withSymTbl t).symTbl.node (s.withSymTbl t).currScopeNode).children =
        (s.symTbl.node s.currScopeNode).children := (h.node s.currScopeNode).children
    cases hstep : stepItem .enter s with
    | ok u =>
      obtain ⟨hzero, -⟩ | ⟨-, i, cs, v, hstack, hchild, rfl⟩ := stepItem_enter hstep
      · exact absurd hzero hpass
      · rw [stepItem_enter_one hpass' hstack (by rw [hchildren]; exact hchild)]
        exact .ok ⟨t, h, rfl⟩
    | error e =>
      cases hstep' : stepItem .enter (s.withSymTbl t) with
      | error e' => exact .error e e'
      | ok u =>
        obtain ⟨hzero, -⟩ | ⟨-, i, cs, v, hstack, hchild, -⟩ := stepItem_enter hstep'
        · exact absurd hzero hpass
        · rw [hchildren] at hchild
          rw [stepItem_enter_one hpass hstack hchild] at hstep
          cases hstep

theorem stepItem_renamed_leave : Corresponds (Assembler.Renamed ρ) (stepItem .leave s)
    (stepItem .leave (s.withSymTbl t)) := by
  -- whatever the stack becomes, the parent is the same
  have hok : ∀ cs, Assembler.Renamed ρ
      { s with
        currScopeNode := (s.symTbl.node s.currScopeNode).parent
        scopeChildNumStack := cs }
      { s.withSymTbl t with
        currScopeNode := (t.node s.currScopeNode).parent
        scopeChildNumStack := cs } := by
    intro cs
    refine ⟨t, h, ?_⟩
    rw [(h.node s.currScopeNode).parent]
    rfl
  by_cases hpass : s.pass = 0
  · by_cases hcurr : s.currScopeNode = 0
    · unfold stepItem visitItem leaveScope SymbolTable.rmscope Assembler.withSymTbl
      simp only [StateT.run_bind, StateT.run_get, except_pure, ok_bind, hpass, hcurr, if_true]
      exact .error _ _
    · rw [stepItem_leave_zero hpass hcurr, stepItem_leave_zero (s := s.withSymTbl t) hpass hcurr]
      exact .ok (hok s.scopeChildNumStack)
  · cases hstack : s.scopeChildNumStack with
    | nil =>
      unfold stepItem visitItem leaveScope popScopeChildNum Assembler.withSymTbl
      simp only [StateT.run_bind, StateT.run_get, except_pure, ok_bind, hpass, hstack, if_false]
      exact .error _ _
    | cons i cs =>
      cases cs with
      | nil =>
        unfold stepItem visitItem leaveScope popScopeChildNum Assembler.withSymTbl
        simp only [StateT.run_bind, StateT.run_get, except_pure, ok_bind, hpass, hstack, if_false]
        exact .ok (hok [])
      | cons n cs =>
        rw [stepItem_leave_one hpass hstack, stepItem_leave_one (s := s.withSymTbl t) hpass hstack]
        exact .ok (hok ((n + 1) :: cs))

theorem stepItem_renamed_label (n : IdentName) : Corresponds (Assembler.Renamed ρ)
    (stepItem (.label n) s) (stepItem (.label (ρ.ident n)) (s.withSymTbl t)) := by
  have hthis : t.findInThisBlklev s.currScopeNode (ρ.ident n).text =
      (s.symTbl.findInThisBlklev s.currScopeNode n.text).map ρ.symbol := by
    rw [ρ.text_ident]
    exact (h.node s.currScopeNode).table n.text
  have hfinds : (s.withSymTbl t).FindsLabel (ρ.ident n).text ↔ s.FindsLabel n.text := by
    unfold Assembler.FindsLabel Assembler.withSymTbl
    dsimp only
    rw [hthis]
    cases s.symTbl.findInThisBlklev s.currScopeNode n.text with
    | none => simp
    | some sym => simp [Renaming.symbol]
  by_cases hlabel : s.FindsLabel n.text
  · rw [stepItem_label_of_finds hlabel, stepItem_label_of_finds (hfinds.mpr hlabel)]
    exact .error _ _
  · rw [stepItem_label_of_not_finds hlabel, stepItem_label_of_not_finds (mt hfinds.mp hlabel),
      ρ.text_ident]
    obtain ⟨hfst, hsnd⟩ := h.findOrInsert s.currScopeNode n.text
    unfold Assembler.withSymTbl
    dsimp only
    rcases hold : s.symTbl.findOrInsert s.currScopeNode n.text with ⟨v, tbl⟩
    rcases hnew : t.findOrInsert s.currScopeNode (ρ.name n.text) with ⟨v', tbl'⟩
    rw [hold, hnew] at hfst hsnd
    cases hfst
    cases v with
    | none => exact .error _ _
    | some v => exact .ok ⟨_, hsnd.update v n.text fun _ => rfl, rfl⟩

/-- **A step and the step for the renamed item** fail both, or keep the states the same but for
    the names. -/
theorem stepItem_renamed (it : Item) : Corresponds (Assembler.Renamed ρ) (stepItem it s)
    (stepItem (it.rename ρ.ident) (s.withSymTbl t)) := by
  cases hplain : it.plain with
  | true =>
    have hplain' : (it.rename ρ.ident).plain = true := by rw [← hplain]; cases it <;> rfl
    rw [stepItem_of_plain hplain, stepItem_of_plain hplain']
    have haddr : ρ.Addresses s.env (t.addrFrom s.currScopeNode) := h.addrFrom s.currScopeNode
    refine corresponds_map (Renaming.effect_item haddr it).symm ?_
    exact fun ef => ⟨t, by rw [s.perform_eq ef]; exact h, s.perform_withSymTbl t ef⟩
  | false =>
    cases it with
    | enter => exact stepItem_renamed_enter h
    | leave => exact stepItem_renamed_leave h
    | label n => exact stepItem_renamed_label h n
    | _ => cases hplain

end Step

/-! ### The two passes -/

section Passes

variable (ρ : Renaming) (showWords : Bool) (program : Program)

theorem Assembler.Renamed.beginPass {ρ : Renaming} {s s' : Assembler} (h : s.Renamed ρ s')
    (p : Nat) : (s.beginPass p).Renamed ρ (s'.beginPass p) := by
  obtain ⟨t, ht, rfl⟩ := h
  refine ⟨t, ht, ?_⟩
  unfold Assembler.beginPass Assembler.withSymTbl
  rw [(ht.node 0).children]

/-- The renamed items, from states that are the same but for the names. -/
theorem runList_renamed {ρ : Renaming} {s s' : Assembler} (h : s.Renamed ρ s')
    (items : List Item) : Corresponds (Assembler.Renamed ρ) (runList stepItem items s)
    (runList stepItem (items.map (Item.rename ρ.ident)) s') := by
  refine corresponds_runList ?_ items h
  rintro it s _ ⟨t, ht, rfl⟩
  exact stepItem_renamed ht it

theorem passStart_renamed (p : Nat) : Corresponds (Assembler.Renamed ρ)
    (passStart showWords program p) (passStart showWords (program.rename ρ.ident) p) := by
  induction p with
  | zero =>
    refine .ok (Assembler.Renamed.beginPass ?_ 0)
    exact ⟨.init, SymbolTable.renamed_init ρ, rfl⟩
  | succ p ih =>
    rw [passStart, passStart, Program.items_rename]
    apply ih.bind
    intro s s' hs
    apply (runList_renamed hs program.items).bind
    intro u u' hu
    exact .ok (hu.beginPass (p + 1))

theorem assemble_renamed : Corresponds (Assembler.Renamed ρ) (assemble showWords program)
    (assemble showWords (program.rename ρ.ident)) := by
  rw [assemble_eq, assemble_eq, Program.items_rename]
  apply (passStart_renamed ρ showWords program 1).bind
  intro s s' hs
  exact runList_renamed hs program.items

end Passes

/-- Only the identifiers of the program matter. -/
theorem assemble_rename_congr {f g : IdentName → IdentName} {program : Program}
    (h : ∀ n ∈ program.names, f n = g n) (showWords : Bool) :
    assemble showWords (program.rename f) = assemble showWords (program.rename g) := by
  have hitems : (program.rename f).items = (program.rename g).items := by
    rw [Program.items_rename, Program.items_rename]
    refine List.map_congr_left fun it hit => Item.rename_congr fun n hn => h n ?_
    exact List.mem_flatMap.mpr ⟨it, hit, hn⟩
  have hstart : ∀ p, passStart showWords (program.rename f) p =
      passStart showWords (program.rename g) p := by
    intro p
    induction p with
    | zero => rfl
    | succ p ih => rw [passStart, passStart, hitems, ih]
  rw [assemble_eq, assemble_eq, afterItems, afterItems, hitems, hstart]

/-- **Names do not matter**: a program, and the program with its identifiers renamed so that its
    names stay apart, assemble to the same output with the same warnings, or neither of them
    assembles. -/
theorem assemble_rename {f : IdentName → IdentName} {program : Program}
    (h : program.KeepsApart f) (showWords : Bool) :
    ((assemble showWords (program.rename f)).map fun s => (s.out, s.warnings)).toOption =
      ((assemble showWords program).map fun s => (s.out, s.warnings)).toOption := by
  obtain ⟨ρ, hρ⟩ := exists_renaming h
  rw [← assemble_rename_congr hρ]
  symm
  apply (assemble_renamed ρ showWords program).toOption_map
  rintro s _ ⟨t, -, rfl⟩
  rfl

/-- Two loops, the inner one in a block of its own. -/
def nestedLoops : Program :=
  [.label (.ident "outer"),
    .scopedLines [.label (.ident "inner"),
      .pseudoInstruction (.pseudoInstrOpBra (.ofAtom (.identName (.ident "inner"))))],
    .pseudoInstruction (.pseudoInstrOpBra (.ofAtom (.identName (.ident "outer"))))]

/-- `inner` becomes `outer`, and `outer` the name of an instruction. -/
def movedNames (n : IdentName) : IdentName :=
  if n = .ident "inner" then .ident "outer"
  else if n = .ident "outer" then .instrName .add
  else n

theorem assemble_rename_nestedLoops :
    (assemble true nestedLoops).isOk = true ∧
    ((assemble true (nestedLoops.rename movedNames)).map fun s => (s.out, s.warnings)).toOption =
      ((assemble true nestedLoops).map fun s => (s.out, s.warnings)).toOption := by
  have hapart : nestedLoops.KeepsApart movedNames := by
    unfold Program.KeepsApart
    decide
  exact ⟨by decide +kernel, assemble_rename hapart true⟩

end Frost32.Asm
