import Frost32.Asm.LabelPasses

namespace Frost32.Asm

open BlockTree ScopeTable Fallible

/-!
# The two walks through the blocks

Pass 0 builds the tree of the blocks with parent pointers, pass 1 finds its way through it with
a stack of child numbers.

* `blockCount` — the blocks among some lines, without those inside them.
* `counters_run_lines` — **lines count their blocks**, and leave the counters further out alone.
* `ScopesAligned` — pass 1 enters the node that pass 0 made for the block, and each pass leaves
  a block as it has found it.
* `scopes_aligned` — this holds of every program.
-/

/-! ### Blocks among lines -/

def Line.isBlock : Line → Bool
  | .scopedLines _ => true
  | _ => false

/-- The blocks among some lines, without those inside them. -/
def blockCount (ls : List Line) : Nat := ls.countP Line.isBlock

theorem Line.counters_run (l : Line) {w : Walk} {n : Nat} {cs : List Nat}
    (hw : w.counters = n :: cs) :
    (w.run (l.items.map Item.event)).counters =
      (n + if l.isBlock = true then 1 else 0) :: cs := by
  cases l with
  | scopedLines ls =>
    have hrun : w.run ((Line.scopedLines ls).items.map Item.event) =
        (w.enter.run ((linesItems ls).map Item.event)).leave := by
      rw [Line.items, List.map_cons, List.map_append]
      show w.enter.run ((linesItems ls).map Item.event ++ [Event.leave]) = _
      rw [Walk.run_concat]
      rfl
    obtain ⟨m, -, hleave⟩ := (balanced_linesItems ls).counters_block hw
    rw [hrun]
    exact hleave
  | label n | instruction i | pseudoInstruction p | newline => exact hw
  | directive d =>
    rw [Walk.run_of_other]
    · exact hw
    · intro ev hev
      obtain ⟨it, hit, rfl⟩ := List.mem_map.mp hev
      exact d.event_of_mem it hit

/-- **Lines count their blocks.** -/
theorem counters_run_lines (ls : List Line) {w : Walk} {n : Nat} {cs : List Nat}
    (hw : w.counters = n :: cs) :
    (w.run ((linesItems ls).map Item.event)).counters = (n + blockCount ls) :: cs := by
  induction ls generalizing w n with
  | nil => exact hw
  | cons l ls ih =>
    rw [linesItems, List.map_append, Walk.run_append, ih (l.counters_run hw), blockCount,
      blockCount, List.countP_cons, Nat.add_assoc, Nat.add_comm (List.countP _ ls)]

/-- A place among lines: whole lines, and items of one more line. -/
theorem walkAfter_lines (pre : List Item) (ls : List Line) {its : List Item}
    (hits : ∀ it ∈ its, it.event = .other) :
    walkAfter (pre ++ (linesItems ls ++ its)) =
      (walkAfter pre).run ((linesItems ls).map Item.event) := by
  rw [walkAfter_append, List.map_append, Walk.run_append, Walk.run_of_other]
  intro ev hev
  obtain ⟨it, hit, rfl⟩ := List.mem_map.mp hev
  exact hits it hit

/-- Inside a block the counters are those outside it, under the blocks of it so far. -/
theorem counters_inside (pre : List Item) (ls : List Line) {its : List Item}
    (hits : ∀ it ∈ its, it.event = .other) :
    (walkAfter (pre ++ .enter :: (linesItems ls ++ its))).counters =
      blockCount ls :: (walkAfter pre).counters := by
  have henter : (walkAfter (pre ++ [.enter])).counters = 0 :: (walkAfter pre).counters := by
    rw [walkAfter_concat]
    exact Walk.counters_enter _
  rw [List.append_cons, walkAfter_lines _ ls hits, counters_run_lines ls henter, Nat.zero_add]

/-- After a block the open blocks are those before it. -/
theorem scopesAfter_block (pre : List Item) (ls : List Line) :
    scopesAfter (pre ++ .enter :: (linesItems ls ++ [.leave])) = scopesAfter pre := by
  have hbalanced := balanced_linesItems [Line.scopedLines ls]
  rw [linesItems, linesItems, List.append_nil, Line.items] at hbalanced
  rw [scopesAfter, walkAfter_append]
  exact hbalanced.scopes_run _

/-! ### The two passes -/

section Passes

variable {showWords : Bool} {program : Program} {pre post : List Item}

/-- Pass 0 has been at every place that pass 1 gets to. -/
theorem exists_afterItems_zero (hitems : program.items = pre ++ post) {s₁ : Assembler}
    (h : afterItems showWords program 1 pre = .ok s₁) :
    ∃ s₀, afterItems showWords program 0 pre = .ok s₀ := by
  obtain ⟨u, hu, -⟩ := bind_eq_ok.mp h
  obtain ⟨t, hend, -⟩ := exists_endZero hu
  rw [hitems] at hend
  obtain ⟨s₀, hs₀, -⟩ := exists_afterItems_of_prefix hend
  exact ⟨s₀, hs₀⟩

/-- The node that pass 0 makes for a block: the blocks are numbered in source order. -/
theorem mkscope_snd (hitems : program.items = pre ++ post) {s : Assembler}
    (h : afterItems showWords program 0 pre = .ok s) :
    (s.symTbl.mkscope s.currScopeNode).2 = (walkAfter pre).made + 1 := by
  show s.symTbl.made + 1 = _
  rw [(passZeroAt_afterItems hitems h).represents.made]

/-- **Pass 1 enters the node that pass 0 has made.** -/
theorem enter_one (hitems : program.items = pre ++ .enter :: post) {s : Assembler}
    (h : afterItems showWords program 1 pre = .ok s) :
    ∃ t, stepItem .enter s = .ok t ∧ t.currScopeNode = (walkAfter pre).made + 1 := by
  have hone := passOneAt_afterItems hitems h
  have hpass : s.pass ≠ 0 := by
    rw [(modes_afterItems h).1]
    exact Nat.one_ne_zero
  obtain ⟨cs, hcs⟩ := Walk.exists_counters_eq (scopesAfter_ne_nil hitems)
  have hchild : (s.symTbl.node s.currScopeNode).children[
      ((walkAfter pre).kids (walkAfter pre).top).length]? = some ((walkAfter pre).made + 1) := by
    rw [hone.represents.children, hone.curr]
    exact nextChild_walkAfter hitems
  exact ⟨_, stepItem_enter_one hpass (hone.stack.trans hcs) hchild, rfl⟩

/-- Either pass is in the innermost block. -/
theorem currScopeNode_afterItems {p : Nat} (hp : p < 2) (hitems : program.items = pre ++ post)
    {s : Assembler} (h : afterItems showWords program p pre = .ok s) :
    s.currScopeNode = (scopesAfter pre).headD 0 := by
  obtain rfl | rfl : p = 0 ∨ p = 1 := by omega
  · exact (passZeroAt_afterItems hitems h).curr
  · exact (passOneAt_afterItems hitems h).curr

/-- The blocks around a place are nodes of their own, not the root of the tree. -/
theorem scopesAfter_headD_ne_zero (hitems : program.items = pre ++ post) :
    (scopesAfter pre).headD 0 ≠ 0 := by
  obtain ⟨v, l, hs⟩ := List.exists_cons_of_ne_nil (scopesAfter_ne_nil hitems)
  have hlinked := (walkAfter pre).linked
  rw [scopesAfter] at hs
  rw [hs] at hlinked
  rw [scopesAfter, hs]
  exact Nat.ne_of_gt (Nat.lt_of_le_of_lt (Nat.zero_le _) hlinked.1)

/-- Leaving a block leads to the block around it. -/
theorem parent_of_block {ls : List Line}
    (hitems : program.items = pre ++ .enter :: (linesItems ls ++ .leave :: post)) :
    (walkAfter program.items).parent
        ((scopesAfter (pre ++ .enter :: linesItems ls)).headD 0) = (scopesAfter pre).headD 0 ∧
      (walkAfter (pre ++ .enter :: linesItems ls)).parent
        ((scopesAfter (pre ++ .enter :: linesItems ls)).headD 0) = (scopesAfter pre).headD 0 := by
  have hplace : program.items = (pre ++ .enter :: linesItems ls) ++ .leave :: post := by
    rw [hitems, List.append_assoc]
    rfl
  have htail : (scopesAfter (pre ++ .enter :: linesItems ls)).tail = scopesAfter pre := by
    have hblock := scopesAfter_block pre ls
    rw [← List.cons_append, ← List.append_assoc, scopesAfter, walkAfter_concat] at hblock
    exact hblock
  have hne := scopesAfter_ne_nil hplace
  rw [← htail]
  exact ⟨parent_of_linked (linked_scopesAfter hplace).1 hne,
    parent_of_linked (walkAfter (pre ++ .enter :: linesItems ls)).linked hne⟩

end Passes

/-- A block gets a larger number than those before it. -/
theorem made_lt_of_length_lt {items pre pre' post post' : List Item}
    (hitems : items = pre ++ .enter :: post) (hitems' : items = pre' ++ post')
    (hlt : pre.length < pre'.length) : (walkAfter pre).made < (walkAfter pre').made := by
  have hentered : pre ++ [.enter] <+: items := ⟨post, by rw [hitems, List.append_assoc]; rfl⟩
  have hbefore : pre ++ [.enter] <+: pre' := by
    apply List.prefix_of_prefix_length_le hentered ⟨post', hitems'.symm⟩
    rw [List.length_append, List.length_singleton]
    exact hlt
  obtain ⟨rest, rfl⟩ := hbefore
  have hmade := (walkAfter_grows (pre ++ [.enter]) rest).made
  rw [walkAfter_concat] at hmade
  exact hmade

/-- Two blocks have two numbers. -/
theorem made_ne {items pre pre' post post' : List Item} (hitems : items = pre ++ .enter :: post)
    (hitems' : items = pre' ++ .enter :: post') (hne : pre ≠ pre') :
    (walkAfter pre).made ≠ (walkAfter pre').made := by
  rcases Nat.lt_trichotomy pre.length pre'.length with hlt | heq | hlt
  · exact Nat.ne_of_lt (made_lt_of_length_lt hitems hitems' hlt)
  · exact absurd (List.append_inj_left (hitems.symm.trans hitems') heq) hne
  · exact Nat.ne_of_gt (made_lt_of_length_lt hitems' hitems hlt)

/-! ### Alignment -/

/-- The two passes walk through the same tree: for every block of the program, at whatever place
    and depth, and for every place inside it. -/
structure ScopesAligned (showWords : Bool) (program : Program) : Prop where
  /-- Pass 0 makes a node for the block, and pass 1 enters that node. -/
  entered : ∀ {pre post : List Item}, program.items = pre ++ .enter :: post →
    ∀ {s₁}, afterItems showWords program 1 pre = .ok s₁ →
    ∃ s₀ t₀ t₁, afterItems showWords program 0 pre = .ok s₀ ∧ stepItem .enter s₀ = .ok t₀ ∧
      t₀.currScopeNode = (s₀.symTbl.mkscope s₀.currScopeNode).2 ∧
      t₀.symTbl = (s₀.symTbl.mkscope s₀.currScopeNode).1 ∧
      stepItem .enter s₁ = .ok t₁ ∧ t₁.currScopeNode = t₀.currScopeNode
  /-- Two blocks are two nodes, in either pass. -/
  distinct : ∀ {p : Nat}, p < 2 → ∀ {pre post pre' post' : List Item},
    program.items = pre ++ .enter :: post → program.items = pre' ++ .enter :: post' →
    pre ≠ pre' →
    ∀ {t t'}, afterItems showWords program p (pre ++ [.enter]) = .ok t →
      afterItems showWords program p (pre' ++ [.enter]) = .ok t' →
      t.currScopeNode ≠ t'.currScopeNode
  /-- A pass that gets to the end of a block leaves it, for the node it came from; pass 0 does
      not use the stack, pass 1 counts the block. -/
  left : ∀ {p : Nat}, p < 2 → ∀ {pre post : List Item} {ls : List Line},
    program.items = pre ++ .enter :: (linesItems ls ++ .leave :: post) →
    ∀ {s u}, afterItems showWords program p pre = .ok s →
      afterItems showWords program p (pre ++ .enter :: linesItems ls) = .ok u →
      ∃ t, stepItem .leave u = .ok t ∧ t.currScopeNode = s.currScopeNode ∧
        (p = 0 → t.scopeChildNumStack = s.scopeChildNumStack) ∧
        (p = 1 → ∃ n cs, s.scopeChildNumStack = n :: cs ∧ t.scopeChildNumStack = (n + 1) :: cs)
  /-- Inside a block the stack of pass 1 is that at its start, under the number of the blocks
      left so far. -/
  inside : ∀ {pre post : List Item} {ls : List Line} {its : List Item},
    program.items = pre ++ .enter :: (linesItems ls ++ (its ++ post)) →
    (∀ it ∈ its, it.event = .other) →
    ∀ {s u}, afterItems showWords program 1 pre = .ok s →
      afterItems showWords program 1 (pre ++ .enter :: (linesItems ls ++ its)) = .ok u →
      u.scopeChildNumStack = blockCount ls :: s.scopeChildNumStack
  /-- Outside of all blocks it is the number of the blocks left so far. -/
  outside : ∀ {post : List Item} {ls : List Line} {its : List Item},
    program.items = linesItems ls ++ (its ++ post) → (∀ it ∈ its, it.event = .other) →
    ∀ {u}, afterItems showWords program 1 (linesItems ls ++ its) = .ok u →
      u.scopeChildNumStack = [blockCount ls]
  /-- Each pass ends in the node in which it has started. -/
  ended : ∀ {p : Nat}, p < 2 → ∀ {s t}, passStart showWords program p = .ok s →
    afterItems showWords program p program.items = .ok t →
    s.scopeChildNumStack = [0] ∧ t.currScopeNode = s.currScopeNode ∧
      t.scopeChildNumStack = if p = 0 then [0] else [blockCount program]

section Aligned

variable {showWords : Bool} {program : Program} {pre post : List Item}

theorem entered_aligned (hitems : program.items = pre ++ .enter :: post) {s₁ : Assembler}
    (h : afterItems showWords program 1 pre = .ok s₁) :
    ∃ s₀ t₀ t₁, afterItems showWords program 0 pre = .ok s₀ ∧ stepItem .enter s₀ = .ok t₀ ∧
      t₀.currScopeNode = (s₀.symTbl.mkscope s₀.currScopeNode).2 ∧
      t₀.symTbl = (s₀.symTbl.mkscope s₀.currScopeNode).1 ∧
      stepItem .enter s₁ = .ok t₁ ∧ t₁.currScopeNode = t₀.currScopeNode := by
  obtain ⟨s₀, hs₀⟩ := exists_afterItems_zero hitems h
  obtain ⟨t₁, ht₁, hnode⟩ := enter_one hitems h
  refine ⟨s₀, _, t₁, hs₀, stepItem_enter_zero (modes_afterItems hs₀).1, rfl, rfl, ht₁, ?_⟩
  rw [hnode]
  exact (mkscope_snd hitems hs₀).symm

theorem distinct_aligned {p : Nat} (hp : p < 2) {pre' post' : List Item}
    (hitems : program.items = pre ++ .enter :: post)
    (hitems' : program.items = pre' ++ .enter :: post') (hne : pre ≠ pre') {t t' : Assembler}
    (ht : afterItems showWords program p (pre ++ [.enter]) = .ok t)
    (ht' : afterItems showWords program p (pre' ++ [.enter]) = .ok t') :
    t.currScopeNode ≠ t'.currScopeNode := by
  -- the node is the number of the block
  have hnode : ∀ {pre post : List Item} {t : Assembler},
      program.items = pre ++ .enter :: post →
      afterItems showWords program p (pre ++ [.enter]) = .ok t →
      t.currScopeNode = (walkAfter pre).made + 1 := by
    intro pre post t hitems ht
    have hplace : program.items = (pre ++ [.enter]) ++ post := by
      rw [hitems, List.append_assoc]
      rfl
    rw [currScopeNode_afterItems hp hplace ht, scopesAfter, walkAfter_concat]
    rfl
  rw [hnode hitems ht, hnode hitems' ht']
  exact fun heq => made_ne hitems hitems' hne (Nat.succ.inj heq)

theorem left_aligned {p : Nat} (hp : p < 2) {ls : List Line}
    (hitems : program.items = pre ++ .enter :: (linesItems ls ++ .leave :: post))
    {s u : Assembler} (hs : afterItems showWords program p pre = .ok s)
    (hu : afterItems showWords program p (pre ++ .enter :: linesItems ls) = .ok u) :
    ∃ t, stepItem .leave u = .ok t ∧ t.currScopeNode = s.currScopeNode ∧
      (p = 0 → t.scopeChildNumStack = s.scopeChildNumStack) ∧
      (p = 1 → ∃ n cs, s.scopeChildNumStack = n :: cs ∧
        t.scopeChildNumStack = (n + 1) :: cs) := by
  have hplace : program.items = (pre ++ .enter :: linesItems ls) ++ .leave :: post := by
    rw [hitems, List.append_assoc]
    rfl
  have hcurr := currScopeNode_afterItems hp hitems hs
  have hcurr' := currScopeNode_afterItems hp hplace hu
  obtain ⟨hparent, hparent₀⟩ := parent_of_block hitems
  obtain rfl | rfl : p = 0 ∨ p = 1 := by omega
  · have hzero := passZeroAt_afterItems hplace hu
    have hne : u.currScopeNode ≠ 0 := by
      rw [hcurr']
      exact scopesAfter_headD_ne_zero hplace
    refine ⟨_, stepItem_leave_zero (modes_afterItems hu).1 hne, ?_, ?_, ?_⟩
    · show (u.symTbl.node u.currScopeNode).parent = _
      rw [hcurr, hcurr', hzero.represents.parent, hparent₀]
    · intro _
      exact hzero.stack.trans (passZeroAt_afterItems hitems hs).stack.symm
    · intro hone
      cases hone
  · have hone := passOneAt_afterItems hplace hu
    have hpass : u.pass ≠ 0 := by
      rw [(modes_afterItems hu).1]
      exact Nat.one_ne_zero
    obtain ⟨cs, hcs⟩ := Walk.exists_counters_eq (scopesAfter_ne_nil hitems)
    have hstack := (passOneAt_afterItems hitems hs).stack.trans hcs
    have hinside : (walkAfter (pre ++ .enter :: (linesItems ls ++ []))).counters = _ :=
      counters_inside pre ls fun it hit => by cases hit
    rw [List.append_nil, hcs] at hinside
    refine ⟨_, stepItem_leave_one hpass (hone.stack.trans hinside), ?_, ?_, ?_⟩
    · show (u.symTbl.node u.currScopeNode).parent = _
      rw [hcurr, hcurr', hone.represents.parent, hparent]
    · intro hzero
      cases hzero
    · intro _
      exact ⟨_, cs, hstack, rfl⟩

theorem inside_aligned {ls : List Line} {its : List Item}
    (hitems : program.items = pre ++ .enter :: (linesItems ls ++ (its ++ post)))
    (hits : ∀ it ∈ its, it.event = .other) {s u : Assembler}
    (hs : afterItems showWords program 1 pre = .ok s)
    (hu : afterItems showWords program 1 (pre ++ .enter :: (linesItems ls ++ its)) = .ok u) :
    u.scopeChildNumStack = blockCount ls :: s.scopeChildNumStack := by
  have hplace : program.items = (pre ++ .enter :: (linesItems ls ++ its)) ++ post := by
    rw [hitems, List.append_assoc, List.cons_append, List.append_assoc]
  rw [(passOneAt_afterItems hplace hu).stack, (passOneAt_afterItems hitems hs).stack,
    counters_inside pre ls hits]

theorem outside_aligned {ls : List Line} {its : List Item}
    (hitems : program.items = linesItems ls ++ (its ++ post))
    (hits : ∀ it ∈ its, it.event = .other) {u : Assembler}
    (hu : afterItems showWords program 1 (linesItems ls ++ its) = .ok u) :
    u.scopeChildNumStack = [blockCount ls] := by
  have hplace : program.items = (linesItems ls ++ its) ++ post := by
    rw [hitems, List.append_assoc]
  have hcounters : ((walkAfter []).run ((linesItems ls).map Item.event)).counters =
      [0 + blockCount ls] := counters_run_lines ls rfl
  rw [(passOneAt_afterItems hplace hu).stack, ← List.nil_append (linesItems ls ++ its),
    walkAfter_lines [] ls hits, hcounters, Nat.zero_add]

theorem ended_aligned {p : Nat} (hp : p < 2) {s t : Assembler}
    (hs : passStart showWords program p = .ok s)
    (ht : afterItems showWords program p program.items = .ok t) :
    s.scopeChildNumStack = [0] ∧ t.currScopeNode = s.currScopeNode ∧
      t.scopeChildNumStack = if p = 0 then [0] else [blockCount program] := by
  have hstart : afterItems showWords program p [] = .ok s := by
    rw [afterItems, hs]
    rfl
  have hend : program.items = program.items ++ [] := (List.append_nil _).symm
  have hcurr : t.currScopeNode = s.currScopeNode := by
    rw [currScopeNode_afterItems hp hend ht, currScopeNode_afterItems hp rfl hstart]
    exact congrArg (·.headD 0) ((balanced_items program).scopes_run Walk.init)
  obtain rfl | rfl : p = 0 ∨ p = 1 := by omega
  · exact ⟨(passZeroAt_afterItems rfl hstart).stack, hcurr, (passZeroAt_afterItems hend ht).stack⟩
  · refine ⟨(passOneAt_afterItems rfl hstart).stack, hcurr, ?_⟩
    have hlines : program.items = linesItems program ++ ([] ++ []) := (List.append_nil _).symm
    have hlast : afterItems showWords program 1 (linesItems program ++ []) = .ok t := by
      rw [List.append_nil]
      exact ht
    exact outside_aligned hlines (fun it hit => by cases hit) hlast

end Aligned

/-- **The two passes walk through the same tree of blocks.** -/
theorem scopes_aligned (showWords : Bool) (program : Program) :
    ScopesAligned showWords program where
  entered := entered_aligned
  distinct := fun hp _ _ _ _ hitems => distinct_aligned hp hitems
  left := fun hp _ _ _ hitems => left_aligned hp hitems
  inside := inside_aligned
  outside := outside_aligned
  ended := ended_aligned

end Frost32.Asm
