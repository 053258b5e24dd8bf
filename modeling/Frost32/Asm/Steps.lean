import Frost32.Asm.Items

namespace Frost32.Asm

open Fallible

/-!
# What one item changes

For each kind of item what a successful step does, with everything it leaves alone.

* `perform_eq`, `pc_perform` — effects change the output and the program counter only.
* `stepItem_plain` — a plain item performs its effect.
* `stepItem_enter`, `stepItem_leave` — entering and leaving a scope, in either pass.
* `stepItem_label` — a label is recorded in the symbol table; `stepItem_label_of_finds`, unless
  its scope has one of that name.
* `pass_of_stepItem`, `pass_afterItems` — the pass is the same throughout.
-/

/-! ### Effects -/

/-- Effects change the warnings, the output and the program counter only. -/
theorem Assembler.perform_eq (s : Assembler) (ef : Effect) :
    s.perform ef =
      { s with
        warnings := (s.perform ef).warnings
        out := (s.perform ef).out
        pc := (s.perform ef).pc } := by
  -- printing a line moves the output and the program counter
  have hlines : ∀ (ls : List (List (BitVec 8))) (s : Assembler),
      ∃ out pc, ls.foldl (fun s bytes => s.emitLine bytes) s = { s with out := out, pc := pc } := by
    intro ls
    induction ls with
    | nil => exact fun s => ⟨s.out, s.pc, rfl⟩
    | cons l ls ih =>
      intro s
      obtain ⟨out, pc, h⟩ := ih (s.emitLine l)
      exact ⟨out, pc, h⟩
  have hdata : ∀ (ds : List Datum) (s : Assembler),
      ∃ out pc, s.genAll ds = { s with out := out, pc := pc } := by
    intro ds
    induction ds with
    | nil => exact fun s => ⟨s.out, s.pc, rfl⟩
    | cons d ds ih =>
      intro s
      obtain ⟨out, pc, h⟩ := hlines (d.lines s.showWords) s
      obtain ⟨out', pc', h'⟩ := ih (s.gen d)
      refine ⟨out', pc', ?_⟩
      show (s.gen d).genAll ds = _
      rw [h', Assembler.gen, h]
  obtain ⟨out, pc, h⟩ := hdata ef.data (s.warnAll ef.warnings)
  unfold Assembler.perform
  rw [h]
  cases ef.jump <;> rfl

/-- The bytes that data take. -/
def dataSize (data : List Datum) : Nat := (data.map Datum.size).sum

theorem Assembler.pc_genAll (ds : List Datum) (s : Assembler) :
    (s.genAll ds).pc.curr = s.pc.curr + BitVec.ofNat 64 (dataSize ds) := by
  induction ds generalizing s with
  | nil => exact (BitVec.add_zero _).symm
  | cons d ds ih =>
    obtain ⟨cs, hgen⟩ := gen_eq s d
    show ((s.gen d).genAll ds).pc.curr = _
    rw [ih, hgen]
    show s.pc.curr + BitVec.ofNat 64 d.size + BitVec.ofNat 64 (dataSize ds) = _
    rw [BitVec.add_assoc, dataSize, dataSize, List.map_cons, List.sum_cons, BitVec.ofNat_add]

/-- Effects move the program counter past their data, or where they say. -/
theorem Assembler.pc_perform (s : Assembler) (ef : Effect) :
    (s.perform ef).pc.curr =
      ef.jump.getD (s.pc.curr + BitVec.ofNat 64 (dataSize ef.data)) := by
  have hpc := pc_genAll ef.data (s.warnAll ef.warnings)
  unfold Assembler.perform
  cases ef.jump with
  | none => exact hpc
  | some n => rfl

/-! ### The steps -/

theorem stepItem_plain {it : Item} (h : it.plain = true) {s t : Assembler}
    (hstep : stepItem it s = .ok t) : ∃ ef, it.effect s.env = .ok ef ∧ t = s.perform ef := by
  rw [stepItem_of_plain h] at hstep
  cases heffect : it.effect s.env with
  | error e =>
    rw [heffect] at hstep
    cases hstep
  | ok ef =>
    rw [heffect] at hstep
    cases hstep
    exact ⟨ef, rfl, rfl⟩

/-- Pass 0 makes a scope. -/
theorem stepItem_enter_zero {s : Assembler} (hpass : s.pass = 0) :
    stepItem .enter s = .ok
      { s with
        symTbl := (s.symTbl.mkscope s.currScopeNode).1
        currScopeNode := (s.symTbl.mkscope s.currScopeNode).2 } := by
  unfold stepItem visitItem enterScope
  simp only [StateT.run_bind, StateT.run_get, except_pure, ok_bind, hpass, if_true]
  rfl

/-- Pass 1 goes into the child that its stack says. -/
theorem stepItem_enter_one {s : Assembler} (hpass : s.pass ≠ 0) {i v : Nat} {cs : List Nat}
    (hstack : s.scopeChildNumStack = i :: cs)
    (hchild : (s.symTbl.node s.currScopeNode).children[i]? = some v) :
    stepItem .enter s = .ok { s with currScopeNode := v, scopeChildNumStack := 0 :: i :: cs } := by
  unfold stepItem visitItem enterScope getTopScopeChildNum
  simp [hpass, hstack, hchild, orThrow, pushScopeChildNum]

/-- Any scope but the outermost one can be left in pass 0. -/
theorem stepItem_leave_zero {s : Assembler} (hpass : s.pass = 0) (hcurr : s.currScopeNode ≠ 0) :
    stepItem .leave s = .ok
      { s with currScopeNode := (s.symTbl.node s.currScopeNode).parent } := by
  unfold stepItem visitItem leaveScope SymbolTable.rmscope
  simp [hpass, hcurr]

/-- Leaving a scope in pass 1 counts it. -/
theorem stepItem_leave_one {s : Assembler} (hpass : s.pass ≠ 0) {i n : Nat} {cs : List Nat}
    (hstack : s.scopeChildNumStack = i :: n :: cs) :
    stepItem .leave s = .ok
      { s with
        currScopeNode := (s.symTbl.node s.currScopeNode).parent
        scopeChildNumStack := (n + 1) :: cs } := by
  unfold stepItem visitItem leaveScope popScopeChildNum
  simp [hpass, hstack, pushScopeChildNum]

theorem stepItem_enter {s t : Assembler} (hstep : stepItem .enter s = .ok t) :
    (s.pass = 0 ∧ t =
      { s with
        symTbl := (s.symTbl.mkscope s.currScopeNode).1
        currScopeNode := s.symTbl.made + 1 }) ∨
    (s.pass ≠ 0 ∧ ∃ i cs v, s.scopeChildNumStack = i :: cs ∧
      (s.symTbl.node s.currScopeNode).children[i]? = some v ∧
      t = { s with currScopeNode := v, scopeChildNumStack := 0 :: i :: cs }) := by
  unfold stepItem visitItem enterScope at hstep
  simp only [StateT.run_bind, StateT.run_get, except_pure, ok_bind] at hstep
  -- pass 0 makes a scope, pass 1 goes into the one it has made
  by_cases hpass : s.pass = 0
  · simp only [hpass, if_true] at hstep
    cases hstep
    exact .inl ⟨hpass, by simp [hpass, SymbolTable.mkscope]⟩
  · simp only [hpass, if_false] at hstep
    refine .inr ⟨hpass, ?_⟩
    unfold getTopScopeChildNum at hstep
    cases hstack : s.scopeChildNumStack with
    | nil =>
      simp [hstack] at hstep
      cases hstep
    | cons i cs =>
      cases hchild : (s.symTbl.node s.currScopeNode).children[i]? with
      | none =>
        simp [hstack, hchild, orThrow] at hstep
        cases hstep
      | some v =>
        simp [hstack, hchild, orThrow, pushScopeChildNum] at hstep
        cases hstep
        exact ⟨i, cs, v, rfl, hchild, rfl⟩

theorem stepItem_leave {s t : Assembler} (hstep : stepItem .leave s = .ok t) :
    (s.pass = 0 ∧ s.currScopeNode ≠ 0 ∧
      t = { s with currScopeNode := (s.symTbl.node s.currScopeNode).parent }) ∨
    (s.pass ≠ 0 ∧ ∃ i cs, s.scopeChildNumStack = i :: cs ∧
      t =
        { s with
          currScopeNode := (s.symTbl.node s.currScopeNode).parent
          scopeChildNumStack :=
            match cs with
            | [] => []
            | n :: cs => (n + 1) :: cs }) := by
  unfold stepItem visitItem leaveScope at hstep
  simp only [StateT.run_bind, StateT.run_get, except_pure, ok_bind] at hstep
  by_cases hpass : s.pass = 0
  · refine .inl ⟨hpass, ?_⟩
    simp only [hpass, if_true] at hstep
    unfold SymbolTable.rmscope at hstep
    -- the outermost scope cannot be left
    by_cases hcurr : s.currScopeNode = 0
    · simp [hcurr] at hstep
    · simp only [ne_eq, hcurr, not_false_eq_true, if_true] at hstep
      cases hstep
      exact ⟨hcurr, by simp [hpass]⟩
  · simp only [hpass, if_false] at hstep
    refine .inr ⟨hpass, ?_⟩
    unfold popScopeChildNum at hstep
    cases hstack : s.scopeChildNumStack with
    | nil =>
      simp [hstack] at hstep
      cases hstep
    | cons i cs =>
      -- the count of the block around goes up
      cases cs with
      | nil =>
        simp [hstack] at hstep
        cases hstep
        exact ⟨i, [], rfl, rfl⟩
      | cons n cs =>
        simp [hstack, pushScopeChildNum] at hstep
        cases hstep
        exact ⟨i, n :: cs, rfl, rfl⟩

/-- The error for a second label of a name. -/
def identicalIdentifiers (name : String) : AsmError :=
  .err ("Error:  Cannot have two identical identifers!  The offending identifier is \"" ++ name ++
    "\"\n")

/-- The check of pass 0 finds a label of the name in the current scope. -/
def Assembler.FindsLabel (s : Assembler) (name : String) : Prop :=
  s.pass = 0 ∧ ∃ sym, s.symTbl.findInThisBlklev s.currScopeNode name = some sym ∧
    sym.foundAsLabel = true

/-- A label that the check finds is rejected. -/
theorem stepItem_label_of_finds {n : IdentName} {s : Assembler} (h : s.FindsLabel n.text) :
    stepItem (.label n) s = .error (identicalIdentifiers n.text) := by
  obtain ⟨hpass, sym, hsym, hfound⟩ := h
  unfold stepItem visitItem visitLabel
  simp only [StateT.run_bind, visitIdentName_run, popStr_run, StateT.run_get, except_pure,
    ok_bind, hsym, hpass, hfound]
  rfl

/-- Any other label is recorded, with the symbol that the search finds or makes. -/
theorem stepItem_label_of_not_finds {n : IdentName} {s : Assembler} (h : ¬s.FindsLabel n.text) :
    stepItem (.label n) s =
      match s.symTbl.findOrInsert s.currScopeNode n.text with
      | (some v, tbl) => .ok
          { s with
            symTbl := tbl.update n.text v fun x =>
              { x with foundAsLabel := true, addr := s.pc.curr } }
      | (none, _) => .error .undefined := by
  -- what both branches of the visitor end with
  have hrecord : ∀ (u : Assembler), Prod.snd <$> (do
        let sym ← symTblFindOrInsert n.text
        modify fun u =>
          { u with symTbl := u.symTbl.update n.text sym fun x =>
              { x with foundAsLabel := true, addr := u.pc.curr } } : AsmM Unit).run u =
      match u.symTbl.findOrInsert u.currScopeNode n.text with
      | (some v, tbl) => .ok
          { u with
            symTbl := tbl.update n.text v fun x =>
              { x with foundAsLabel := true, addr := u.pc.curr } }
      | (none, _) => .error .undefined := by
    intro u
    rw [StateT.run_bind, symTblFindOrInsert_run]
    rcases u.symTbl.findOrInsert u.currScopeNode n.text with ⟨v | v, tbl⟩ <;> rfl
  unfold stepItem visitItem visitLabel
  simp only [StateT.run_bind, visitIdentName_run, popStr_run, StateT.run_get, except_pure,
    ok_bind]
  cases hsym : s.symTbl.findInThisBlklev s.currScopeNode n.text with
  | none => exact hrecord s
  | some sym =>
    have hdup : ¬(s.pass = 0 && sym.foundAsLabel) = true := by
      intro hdup
      rw [Bool.and_eq_true, decide_eq_true_eq] at hdup
      exact h ⟨hdup.1, sym, hsym, hdup.2⟩
    simp only [if_neg hdup]
    exact hrecord s

theorem stepItem_label {n : IdentName} {s t : Assembler} (hstep : stepItem (.label n) s = .ok t) :
    (s.pass = 0 → ∀ sym, s.symTbl.findInThisBlklev s.currScopeNode n.text = some sym →
      sym.foundAsLabel = false) ∧
    ∃ v tbl, s.symTbl.findOrInsert s.currScopeNode n.text = (some v, tbl) ∧
      t =
        { s with
          symTbl := tbl.update n.text v fun x =>
            { x with foundAsLabel := true, addr := s.pc.curr } } := by
  by_cases hfinds : s.FindsLabel n.text
  · rw [stepItem_label_of_finds hfinds] at hstep
    cases hstep
  · refine ⟨?_, ?_⟩
    · intro hpass sym hsym
      rw [← Bool.not_eq_true]
      exact fun hfound => hfinds ⟨hpass, sym, hsym, hfound⟩
    · rw [stepItem_label_of_not_finds hfinds] at hstep
      rcases hfind : s.symTbl.findOrInsert s.currScopeNode n.text with ⟨v | v, tbl⟩
      · rw [hfind] at hstep
        cases hstep
      · rw [hfind] at hstep
        cases hstep
        exact ⟨v, tbl, rfl, rfl⟩

/-! ### What no step changes -/

/-- Scopes and labels leave the output side of the state alone. -/
theorem stepItem_not_plain {it : Item} (h : it.plain = false) {s t : Assembler}
    (hstep : stepItem it s = .ok t) :
    t.pc = s.pc ∧ t.pass = s.pass ∧ t.showWords = s.showWords ∧ t.out = s.out := by
  cases it with
  | enter =>
    rcases stepItem_enter hstep with ⟨-, rfl⟩ | ⟨-, i, cs, v, -, -, rfl⟩
    · exact ⟨rfl, rfl, rfl, rfl⟩
    · exact ⟨rfl, rfl, rfl, rfl⟩
  | leave =>
    rcases stepItem_leave hstep with ⟨-, -, rfl⟩ | ⟨-, i, cs, -, rfl⟩
    · exact ⟨rfl, rfl, rfl, rfl⟩
    · exact ⟨rfl, rfl, rfl, rfl⟩
  | label n =>
    obtain ⟨-, v, tbl, -, rfl⟩ := stepItem_label hstep
    exact ⟨rfl, rfl, rfl, rfl⟩
  | instruction i => cases h
  | pseudoInstruction p => cases h
  | org e => cases h
  | space e => cases h
  | db e => cases h
  | db16 e => cases h
  | db8 e => cases h

theorem modes_of_stepItem {it : Item} {s t : Assembler} (hstep : stepItem it s = .ok t) :
    t.pass = s.pass ∧ t.showWords = s.showWords := by
  cases h : it.plain with
  | false =>
    obtain ⟨-, hpass, hwords, -⟩ := stepItem_not_plain h hstep
    exact ⟨hpass, hwords⟩
  | true =>
    obtain ⟨ef, -, rfl⟩ := stepItem_plain h hstep
    rw [s.perform_eq ef]
    exact ⟨rfl, rfl⟩

theorem modes_of_runList {items : List Item} {s t : Assembler}
    (hrun : runList stepItem items s = .ok t) : t.pass = s.pass ∧ t.showWords = s.showWords := by
  refine invariant (P := fun _ (u : Assembler) => u.pass = s.pass ∧ u.showWords = s.showWords)
    ⟨rfl, rfl⟩ ?_ (List.append_nil items).symm hrun
  intro pre it post u v _ hu hv
  obtain ⟨hpass, hwords⟩ := modes_of_stepItem hv
  exact ⟨hpass.trans hu.1, hwords.trans hu.2⟩

theorem modes_passStart {showWords : Bool} {program : Program} {p : Nat} {s : Assembler}
    (h : passStart showWords program p = .ok s) : s.pass = p ∧ s.showWords = showWords := by
  induction p generalizing s with
  | zero =>
    cases h
    exact ⟨rfl, rfl⟩
  | succ p ih =>
    unfold passStart at h
    obtain ⟨u, hu, h⟩ := bind_eq_ok.mp h
    obtain ⟨v, hv, h⟩ := bind_eq_ok.mp h
    cases h
    exact ⟨rfl, (modes_of_runList hv).2.trans (ih hu).2⟩

/-- **The pass and the output mode are the same throughout a pass.** -/
theorem modes_afterItems {showWords : Bool} {program : Program} {p : Nat} {pre : List Item}
    {s : Assembler} (h : afterItems showWords program p pre = .ok s) :
    s.pass = p ∧ s.showWords = showWords := by
  obtain ⟨u, hu, h⟩ := bind_eq_ok.mp h
  obtain ⟨hpass, hwords⟩ := modes_passStart hu
  exact ⟨(modes_of_runList h).1.trans hpass, (modes_of_runList h).2.trans hwords⟩

/-! ### Prefixes of a pass -/

/-- A pass starts where the pass before it ends. -/
theorem passStart_succ (showWords : Bool) (program : Program) (p : Nat) :
    passStart showWords program (p + 1) =
      (afterItems showWords program p program.items).map fun s => s.beginPass (p + 1) := by
  unfold afterItems
  rw [passStart]
  cases passStart showWords program p with
  | error e => rfl
  | ok s =>
    show (runList stepItem program.items s >>= fun t => .ok (t.beginPass (p + 1))) =
      (runList stepItem program.items s).map _
    cases runList stepItem program.items s <;> rfl

/-- One more item. -/
theorem afterItems_concat {showWords : Bool} {program : Program} {p : Nat} {pre : List Item}
    {it : Item} {u v : Assembler} (hu : afterItems showWords program p pre = .ok u)
    (hv : stepItem it u = .ok v) : afterItems showWords program p (pre ++ [it]) = .ok v := by
  obtain ⟨s₀, hs₀, hu⟩ := bind_eq_ok.mp hu
  rw [afterItems, hs₀]
  exact runList_concat_eq_ok hu hv

/-- A pass has been at every place before the one it is at. -/
theorem exists_afterItems_of_prefix {showWords : Bool} {program : Program} {p : Nat}
    {pre rest : List Item} {s : Assembler}
    (h : afterItems showWords program p (pre ++ rest) = .ok s) :
    ∃ u, afterItems showWords program p pre = .ok u ∧ runList stepItem rest u = .ok s := by
  obtain ⟨s₀, hs₀, h⟩ := bind_eq_ok.mp h
  obtain ⟨u, hu, hrest⟩ := exists_of_runList h
  refine ⟨u, ?_, hrest⟩
  rw [afterItems, hs₀]
  exact hu

/-- The states before and after an item of a pass that gets to its end. -/
theorem exists_afterItems {showWords : Bool} {program : Program} {p : Nat} {s : Assembler}
    {pre : List Item} {it : Item} {post : List Item} (hitems : program.items = pre ++ it :: post)
    (h : afterItems showWords program p program.items = .ok s) :
    ∃ u v, afterItems showWords program p pre = .ok u ∧ stepItem it u = .ok v ∧
      afterItems showWords program p (pre ++ [it]) = .ok v := by
  rw [hitems] at h
  obtain ⟨u, hu, hrest⟩ := exists_afterItems_of_prefix h
  obtain ⟨v, hv, -⟩ := bind_eq_ok.mp hrest
  exact ⟨u, v, hu, hv, afterItems_concat hu hv⟩

/-- **A run that fails does so at one of the items**, in this pass or in one before it. -/
theorem exists_item_of_error {showWords : Bool} {program : Program} {p : Nat} {e : AsmError}
    (h : afterItems showWords program p program.items = .error e) :
    ∃ q ≤ p, ∃ pre it post u, program.items = pre ++ it :: post ∧
      afterItems showWords program q pre = .ok u ∧ stepItem it u = .error e := by
  induction p with
  | zero =>
    obtain ⟨pre, it, post, u, hitems, hu, hit⟩ := exists_step_of_error h
    exact ⟨0, Nat.le_refl 0, pre, it, post, u, hitems, hu, hit⟩
  | succ p ih =>
    cases hend : afterItems showWords program p program.items with
    | error e' =>
      rw [afterItems, passStart_succ, hend] at h
      cases h
      obtain ⟨q, hq, hitem⟩ := ih hend
      exact ⟨q, Nat.le_succ_of_le hq, hitem⟩
    | ok t =>
      have hstart : passStart showWords program (p + 1) = .ok (t.beginPass (p + 1)) := by
        rw [passStart_succ, hend]
        rfl
      rw [afterItems, hstart] at h
      obtain ⟨pre, it, post, u, hitems, hu, hit⟩ := exists_step_of_error h
      refine ⟨p + 1, Nat.le_refl _, pre, it, post, u, hitems, ?_, hit⟩
      rw [afterItems, hstart]
      exact hu

end Frost32.Asm
