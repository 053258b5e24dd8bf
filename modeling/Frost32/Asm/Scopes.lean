import Frost32.Asm.Layout
import Frost32.Lib.BlockTree
import Frost32.Lib.ScopeTable

namespace Frost32.Asm

open BlockTree ScopeTable

/-!
# The symbol table as a tree of scopes

The nodes of the symbol table are the blocks of the program, numbered in source order, and
its symbols are the entries of a table of nested scopes.

* `walkAfter`, `scopesAfter` — the blocks around a place of the program.
* `balanced_items`, `scopesAfter_ne_nil` — every scope is closed, so that every place is in one.
* `Represents` — a symbol table has the tree of a walk and the entries of a table.
* `Represents.mkscope` — pass 0 grows the tree along the walk.
* `Represents.find`, `Represents.addrFrom` — look-ups are those of the table.
* `Represents.label` — **a label is a definition in the table**.
-/

/-! ### Blocks -/

def Item.event : Item → Event
  | .enter => .enter
  | .leave => .leave
  | _ => .other

/-- The walk through the blocks of a prefix of a program. -/
def walkAfter (pre : List Item) : Walk := Walk.init.run (pre.map Item.event)

/-- The numbers of the blocks around the place after a prefix, innermost first. -/
def scopesAfter (pre : List Item) : List Nat := (walkAfter pre).scopes

theorem walkAfter_concat (pre : List Item) (it : Item) :
    walkAfter (pre ++ [it]) = (walkAfter pre).step it.event := by
  unfold walkAfter
  rw [List.map_append]
  exact Walk.run_concat ..

theorem walkAfter_append (pre items : List Item) :
    walkAfter (pre ++ items) = (walkAfter pre).run (items.map Item.event) := by
  unfold walkAfter
  rw [List.map_append, Walk.run_append]

/-- The tree only grows along a program. -/
theorem walkAfter_grows (pre post : List Item) :
    Walk.Grows (walkAfter pre) (walkAfter (pre ++ post)) := by
  rw [walkAfter_append]
  exact Walk.run_grows ..

/-- The block that is entered is the next child of the innermost one in the final tree. -/
theorem nextChild_walkAfter {items pre post : List Item} (hitems : items = pre ++ .enter :: post) :
    let w := walkAfter pre
    ((walkAfter items).kids w.top)[(w.kids w.top).length]? = some (w.made + 1) := by
  apply Walk.nextChild
  have hgrow := walkAfter_grows (pre ++ [.enter]) post
  rwa [walkAfter_concat, List.append_assoc, List.singleton_append, ← hitems] at hgrow

/-! ### Every scope is closed -/

/-- Items that enter and leave no scope. -/
theorem balanced_of_other {items : List Item} (h : ∀ it ∈ items, it.event = .other) :
    Balanced (items.map Item.event) := by
  induction items with
  | nil => exact .nil
  | cons it items ih =>
    rw [List.map_cons, h it List.mem_cons_self]
    exact .other (ih fun it' hit' => h it' (List.mem_cons_of_mem it hit'))

theorem Directive.event_of_mem (d : Directive) : ∀ it ∈ d.items, it.event = .other := by
  intro it hit
  cases d with
  | dotOrgDirective e | dotSpaceDirective e =>
    rw [List.mem_singleton.mp hit]
    rfl
  | dotDbDirective e es | dotDb16Directive e es | dotDb8Directive e es =>
    obtain ⟨e', -, rfl⟩ := List.mem_map.mp hit
    rfl

mutual

theorem Line.balanced_items : (l : Line) → Balanced (l.items.map Item.event)
  | .scopedLines ls => by
    rw [Line.items, List.map_cons, List.map_append]
    exact .block (balanced_linesItems ls) .nil
  | .label n => .other .nil
  | .instruction i => .other .nil
  | .pseudoInstruction p => .other .nil
  | .directive d => balanced_of_other d.event_of_mem
  | .newline => .nil

theorem balanced_linesItems : (ls : List Line) → Balanced ((linesItems ls).map Item.event)
  | [] => .nil
  | l :: ls => by
    rw [linesItems, List.map_append]
    exact (Line.balanced_items l).append (balanced_linesItems ls)

end

/-- **Every scope of a program is closed.** -/
theorem balanced_items (program : Program) : Balanced (program.items.map Item.event) :=
  balanced_linesItems program

/-- Every place of a program is in the block of the program itself. -/
theorem scopesAfter_ne_nil {program : Program} {pre post : List Item}
    (hitems : program.items = pre ++ post) : scopesAfter pre ≠ [] := by
  have hsuffix : Walk.init.scopes <:+ scopesAfter pre := by
    apply (balanced_items program).suffix (q := post.map Item.event)
    rw [hitems, List.map_append]
  intro hnil
  rw [hnil] at hsuffix
  cases List.suffix_nil.mp hsuffix

/-! ### Symbols -/

/-- The address of each label in each scope. -/
abbrev LabelTable := Table Nat String (BitVec 64)

def labelSymbol (name : String) (addr : BitVec 64) : Symbol :=
  { name := name, addr := addr, foundAsLabel := true }

/-- The symbol table has the tree of the walk and the symbols of the table. -/
structure Represents (t : SymbolTable) (w : Walk) (tab : LabelTable) : Prop where
  made : t.made = w.made
  children : ∀ v, (t.node v).children = w.kids v
  parent : ∀ v, (t.node v).parent = w.parent v
  table : ∀ v n, (t.node v).table n = (tab v n).map (labelSymbol n)
  fresh : ∀ v n, w.made < v → tab v n = none

theorem SymbolTable.init_node (v : Nat) :
    SymbolTable.init.node v = if v = 0 then { children := [1] } else {} := by
  by_cases h1 : v = 1
  · subst h1
    rfl
  · have hv : SymbolTable.init.node v =
        (SymbolTable.modifyNode { node := fun _ => {}, made := 0 } 0 fun nd =>
          { nd with children := nd.children ++ [1] }).node v :=
      Function.update_of_ne h1 ..
    rw [hv]
    by_cases h0 : v = 0
    · subst h0
      rfl
    · rw [SymbolTable.node_modifyNode_of_ne _ h0, if_neg h0]

theorem represents_init : Represents .init .init empty where
  made := rfl
  children := by
    intro v
    show _ = Function.update (fun _ => []) 0 [1] v
    rw [SymbolTable.init_node]
    by_cases hv : v = 0
    · rw [if_pos hv, hv, Function.update_self]
    · rw [if_neg hv, Function.update_of_ne hv]
  parent := by
    intro v
    rw [SymbolTable.init_node]
    split <;> rfl
  table := by
    intro v n
    rw [SymbolTable.init_node]
    split <;> rfl
  fresh := fun _ _ _ => rfl

section Represents

variable {t : SymbolTable} {w : Walk} {tab : LabelTable} (h : Represents t w tab)
include h

/-- Entering a scope in pass 0 adds the next block to the tree. -/
theorem Represents.mkscope : Represents (t.mkscope w.top).1 w.enter tab := by
  have htop : w.top ≠ t.made + 1 := by
    have hle := w.top_le_made
    have hmade := h.made
    omega
  -- the new node gets a parent, and its parent a child
  have hnew : ∀ v, v ≠ t.made + 1 → ((t.mkscope w.top).1).node v =
      (t.modifyNode w.top fun nd =>
        { nd with children := nd.children ++ [t.made + 1] }).node v :=
    fun v hv => Function.update_of_ne hv ..
  have hself : ((t.mkscope w.top).1).node (t.made + 1) = { parent := w.top } :=
    Function.update_self ..
  constructor
  · show t.made + 1 = w.made + 1
    rw [h.made]
  · intro v
    show _ = Function.update w.kids w.top (w.kids w.top ++ [w.made + 1]) v
    by_cases hv : v = t.made + 1
    · rw [hv, hself, Function.update_of_ne htop.symm, h.made]
      exact (w.kids_fresh _ (Nat.lt_succ_self _)).symm
    · rw [hnew v hv]
      by_cases hvt : v = w.top
      · rw [hvt, SymbolTable.node_modifyNode_self, Function.update_self]
        show (t.node w.top).children ++ _ = _
        rw [h.children, h.made]
      · rw [SymbolTable.node_modifyNode_of_ne _ hvt, Function.update_of_ne hvt, h.children]
  · intro v
    show _ = Function.update w.parent (w.made + 1) w.top v
    by_cases hv : v = t.made + 1
    · rw [hv, hself, h.made, Function.update_self]
    · rw [hnew v hv, Function.update_of_ne (by rwa [← h.made]), ← h.parent v]
      by_cases hvt : v = w.top
      · rw [hvt, SymbolTable.node_modifyNode_self]
      · rw [SymbolTable.node_modifyNode_of_ne _ hvt]
  · intro v n
    by_cases hv : v = t.made + 1
    · rw [hv, hself, h.fresh _ n (by rw [h.made]; exact Nat.lt_succ_self _)]
      rfl
    · rw [hnew v hv, ← h.table v n]
      by_cases hvt : v = w.top
      · rw [hvt, SymbolTable.node_modifyNode_self]
      · rw [SymbolTable.node_modifyNode_of_ne _ hvt]
  · intro v n hv
    exact h.fresh v n (Nat.lt_of_succ_lt hv)

theorem Represents.leave : Represents t w.leave tab :=
  ⟨h.made, h.children, h.parent, h.table, h.fresh⟩

/-! ### Look-ups -/

/-- The loop of `find` searches up the parents. -/
theorem Represents.findLoop (name : String) (fuel p : Nat) :
    t.findLoop name fuel p = findUp w.parent (fun v => (tab v name).isSome) fuel p := by
  induction fuel generalizing p with
  | zero => rfl
  | succ fuel ih =>
    rw [SymbolTable.findLoop, BlockTree.findUp, h.table, Option.isSome_map, h.parent, ih]

/-- **`find` looks along the blocks, from the innermost outwards.** -/
theorem Represents.find {scopes : List Nat} (hs : Linked w.parent scopes) (name : String) :
    t.find (scopes.headD 0) name = owner tab scopes name := by
  unfold SymbolTable.find
  rw [h.findLoop]
  exact hs.findUp _ (Nat.le_refl _)

theorem Represents.deref {name : String} {v : Nat} {a : BitVec 64} (hv : tab v name = some a) :
    t.deref name v = labelSymbol name a := by
  unfold SymbolTable.deref
  rw [h.table, hv]
  rfl

/-- **The address of a name is that in the table.** -/
theorem Represents.addrFrom {scopes : List Nat} (hs : Linked w.parent scopes) (name : String) :
    t.addrFrom (scopes.headD 0) name =
      match lookup tab scopes name with
      | some a => .ok a
      | none => .error (if scopes.headD 0 = 0 then .undefined else unknownSymbol name) := by
  unfold SymbolTable.addrFrom
  rw [h.find hs]
  cases ho : owner tab scopes name with
  | none =>
    rw [lookup, ho]
    rfl
  | some v =>
    obtain ⟨a, ha⟩ := Option.isSome_iff_exists.mp (owner_eq_some ho).2
    rw [lookup_of_owner ho, ha]
    show (if (t.deref name v).foundAsLabel then _ else _) = _
    rw [h.deref ha]
    rfl

/-- A name that is not in the innermost block has no symbol there. -/
theorem Represents.findInThisBlklev (v : Nat) (name : String) :
    t.findInThisBlklev v name = (tab v name).map (labelSymbol name) := h.table v name

/-! ### Labels -/

/-- Writing a label through a pointer to its symbol sets the entry. -/
theorem Represents.update {v : Nat} (hv : v ≤ w.made) {name : String} (tbl : SymbolTable)
    (sym : Symbol) (hname : sym.name = name)
    (hmade : tbl.made = t.made)
    (hchildren : ∀ u, (tbl.node u).children = (t.node u).children)
    (hparent : ∀ u, (tbl.node u).parent = (t.node u).parent)
    (htable : ∀ u n, (tbl.node u).table n =
      if u = v ∧ n = name then some sym else (t.node u).table n) (addr : BitVec 64) :
    Represents (tbl.update name v fun x => { x with foundAsLabel := true, addr := addr }) w
      (set tab v name addr) := by
  -- only the symbol of this name in the scope `v` is written
  have hother : ∀ u, u ≠ v → (tbl.update name v fun x =>
      { x with foundAsLabel := true, addr := addr }).node u = tbl.node u :=
    fun u hu => SymbolTable.node_modifyNode_of_ne _ hu _
  have hself : (tbl.update name v fun x =>
      { x with foundAsLabel := true, addr := addr }).node v =
      { tbl.node v with
        table := Function.update (tbl.node v).table name
          (((tbl.node v).table name).map fun x =>
            { x with foundAsLabel := true, addr := addr }) } :=
    SymbolTable.node_modifyNode_self ..
  constructor
  · exact hmade.trans h.made
  · intro u
    by_cases hu : u = v
    · rw [hu, hself]
      exact (hchildren v).trans (h.children v)
    · rw [hother u hu, hchildren, h.children]
  · intro u
    by_cases hu : u = v
    · rw [hu, hself]
      exact (hparent v).trans (h.parent v)
    · rw [hother u hu, hparent, h.parent]
  · intro u n
    rw [set_apply]
    by_cases hu : u = v
    · subst hu
      rw [hself]
      show Function.update (tbl.node u).table name _ n = _
      by_cases hn : n = name
      · rw [hn, Function.update_self, htable, if_pos ⟨rfl, rfl⟩, if_pos ⟨rfl, rfl⟩]
        show some _ = some (labelSymbol name addr)
        rw [← hname]
        rfl
      · rw [Function.update_of_ne hn, htable, if_neg fun hun => hn hun.2,
          if_neg fun hun => hn hun.2, h.table]
    · rw [hother u hu, htable, if_neg fun hun => hu hun.1, if_neg fun hun => hu hun.1, h.table]
  · intro u n hu
    rw [set_apply, if_neg fun hun => by omega]
    exact h.fresh u n hu

/-- A label of this name in an outer scope is written over. -/
theorem Represents.label_of_owner {scopes : List Nat} (hle : ∀ v ∈ scopes, v ≤ w.made)
    {name : String} {v : Nat} (ho : owner tab scopes name = some v) (addr : BitVec 64) :
    Represents (t.update name v fun x => { x with foundAsLabel := true, addr := addr }) w
      (define tab ⟨scopes, name, addr⟩) := by
  obtain ⟨hmem, hsome⟩ := owner_eq_some ho
  obtain ⟨a, ha⟩ := Option.isSome_iff_exists.mp hsome
  rw [define_of_target (d := ⟨scopes, name, addr⟩) (target_of_owner ho)]
  apply h.update (hle v hmem) t (labelSymbol name a) rfl rfl (fun _ => rfl) (fun _ => rfl)
  intro x n
  show _ = if x = v ∧ n = name then some (labelSymbol name a) else _
  by_cases hxn : x = v ∧ n = name
  · rw [if_pos hxn, hxn.1, hxn.2, h.table, ha]
    rfl
  · rw [if_neg hxn]

/-- Otherwise the symbol is made in the innermost scope. -/
theorem Represents.label_of_none {v : Nat} {scopes : List Nat} (hv : v ≤ w.made) {name : String}
    (ho : owner tab (v :: scopes) name = none) (addr : BitVec 64) :
    Represents ((t.insertOrAssign v { name := name }).update name v fun x =>
      { x with foundAsLabel := true, addr := addr }) w
      (define tab ⟨v :: scopes, name, addr⟩) := by
  have htarget : target tab (v :: scopes) name = some v := by
    rw [target, ho]
    rfl
  rw [define_of_target (d := ⟨v :: scopes, name, addr⟩) htarget]
  exact h.update hv (t.insertOrAssign v { name := name }) { name := name } rfl rfl
    (fun u => t.children_insertOrAssign v u _) (fun u => t.parent_insertOrAssign v u _)
    (fun u n => t.table_insertOrAssign v u _ n) addr

/-- **A label is recorded as a definition in the table.** -/
theorem Represents.label {scopes : List Nat} (hs : Linked w.parent scopes)
    (hle : ∀ v ∈ scopes, v ≤ w.made) {name : String} {v : Nat} {tbl : SymbolTable}
    (hfind : t.findOrInsert (scopes.headD 0) name = (some v, tbl)) (addr : BitVec 64) :
    scopes ≠ [] ∧
    Represents (tbl.update name v fun x => { x with foundAsLabel := true, addr := addr }) w
      (define tab ⟨scopes, name, addr⟩) := by
  cases ho : owner tab scopes name with
  | some u =>
    have hsame : t.findOrInsert (scopes.headD 0) name = (some u, t) := by
      unfold SymbolTable.findOrInsert
      rw [h.find hs, ho]
    rw [hsame] at hfind
    cases hfind
    exact ⟨List.ne_nil_of_mem (owner_eq_some ho).1, h.label_of_owner hle ho addr⟩
  | none =>
    have hnone : t.find (scopes.headD 0) name = none := by rw [h.find hs, ho]
    rw [SymbolTable.findOrInsert_of_none hnone] at hfind
    cases scopes with
    | nil => cases hfind
    | cons u l =>
      have hu : u ≠ 0 := Nat.ne_of_gt (Nat.lt_of_le_of_lt (Nat.zero_le _) hs.1)
      rw [List.headD_cons, if_neg hu] at hfind
      cases hfind
      exact ⟨List.cons_ne_nil _ _, h.label_of_none (hle v List.mem_cons_self) ho addr⟩

end Represents

end Frost32.Asm
