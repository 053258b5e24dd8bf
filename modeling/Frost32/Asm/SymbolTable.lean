import Mathlib.Data.BitVec

namespace Frost32.Asm

/-!
# `SymbolTable`

The scoped symbol table: a tree of nodes, one for each scope, each with a table of symbols.
Nodes live in a pool and are named by their number in it: node 0 is `__tree`, node 1 the
scope that the constructor makes.  A pointer to a symbol is the number of the node whose
table holds it, together with the name.

* `mkscope`, `rmscope` — enter and leave a scope while the tree is built.
* `find`, `findInThisBlklev`, `findOrInsert` — look-ups.
* `update` — write through a pointer to a symbol.
-/

structure Symbol where
  name : String
  addr : BitVec 64 := 0
  foundAsLabel : Bool := false
  deriving DecidableEq

structure ScopedTableNode where
  table : String → Option Symbol := fun _ => none
  parent : Nat := 0
  children : List Nat := []

structure SymbolTable where
  node : Nat → ScopedTableNode
  /-- How many nodes have been made: the pool holds the nodes 1 to `made`. -/
  made : Nat

namespace SymbolTable

variable (t : SymbolTable) (curr : Nat) (name : String)

/-- Change one node. -/
def modifyNode (v : Nat) (f : ScopedTableNode → ScopedTableNode) : SymbolTable :=
  { t with node := Function.update t.node v (f (t.node v)) }

/-- Append a new node to the children of `curr`; the new node becomes the current one. -/
def mkscope : SymbolTable × Nat :=
  let new := t.made + 1
  ({ (t.modifyNode curr fun nd => { nd with children := nd.children ++ [new] }).modifyNode new
      fun _ => { parent := curr } with made := new }, new)

/-- The parent of the current node; none stands for the `Eek!` exit at `__tree`. -/
def rmscope : Option Nat :=
  if curr ≠ 0 then some (t.node curr).parent else none

/-- The loop of `find`: up the parents to `__tree`.  A parent is made before its children,
    so the number of a node bounds the steps. -/
def findLoop : (fuel p : Nat) → Option Nat
  | 0, _ => none
  | fuel + 1, p =>
    if p = 0 then none
    else if ((t.node p).table name).isSome then some p
    else findLoop fuel (t.node p).parent

/-- The innermost node, from `curr` outwards, whose table has the name. -/
def find : Option Nat := t.findLoop name curr curr

/-- The symbol of the name in `curr` itself. -/
def findInThisBlklev : Option Symbol := (t.node curr).table name

/-- Add a fresh symbol to the table of a node. -/
def insertOrAssign (to_insert : Symbol) : SymbolTable :=
  t.modifyNode curr fun nd =>
    { nd with table := Function.update nd.table to_insert.name (some to_insert) }

/-- Look outwards for the name, and add it to `curr` if no scope has it. -/
def findOrInsert : Option Nat × SymbolTable :=
  match t.find curr name with
  | some v => (some v, t)
  | none =>
    let t' := t.insertOrAssign curr { name := name }
    (t'.find curr name, t')

/-- The symbol a pointer points to. -/
def deref (v : Nat) : Symbol := ((t.node v).table name).getD { name := name }

/-- Write through a pointer to a symbol. -/
def update (v : Nat) (f : Symbol → Symbol) : SymbolTable :=
  t.modifyNode v fun nd =>
    { nd with table := Function.update nd.table name ((nd.table name).map f) }

/-- The table the constructor makes: `__tree` with one scope. -/
def init : SymbolTable := (mkscope { node := fun _ => {}, made := 0 } 0).1

/-! ### Nodes after a change -/

@[simp] theorem node_modifyNode_self (v : Nat) (f : ScopedTableNode → ScopedTableNode) :
    (t.modifyNode v f).node v = f (t.node v) := Function.update_self ..

theorem node_modifyNode_of_ne {u v : Nat} (h : u ≠ v) (f : ScopedTableNode → ScopedTableNode) :
    (t.modifyNode v f).node u = t.node u := Function.update_of_ne h ..

@[simp] theorem made_modifyNode (v : Nat) (f : ScopedTableNode → ScopedTableNode) :
    (t.modifyNode v f).made = t.made := rfl

variable (v u : Nat) (sym : Symbol)

/-- Adding a symbol changes the table of one node. -/
theorem node_insertOrAssign : (t.insertOrAssign v sym).node u =
    if u = v then
      { t.node v with table := Function.update (t.node v).table sym.name (some sym) }
    else t.node u := by
  by_cases hu : u = v
  · rw [if_pos hu, hu]
    exact node_modifyNode_self ..
  · rw [if_neg hu]
    exact node_modifyNode_of_ne _ hu _

theorem children_insertOrAssign :
    ((t.insertOrAssign v sym).node u).children = (t.node u).children := by
  rw [t.node_insertOrAssign]
  split
  · rename_i hu
    rw [hu]
  · rfl

theorem parent_insertOrAssign :
    ((t.insertOrAssign v sym).node u).parent = (t.node u).parent := by
  rw [t.node_insertOrAssign]
  split
  · rename_i hu
    rw [hu]
  · rfl

theorem table_insertOrAssign (n : String) :
    ((t.insertOrAssign v sym).node u).table n =
      if u = v ∧ n = sym.name then some sym else (t.node u).table n := by
  rw [t.node_insertOrAssign]
  by_cases hu : u = v
  · rw [if_pos hu, hu]
    by_cases hn : n = sym.name
    · rw [if_pos ⟨rfl, hn⟩, hn]
      exact Function.update_self ..
    · rw [if_neg fun hun => hn hun.2]
      exact Function.update_of_ne hn ..
  · rw [if_neg hu, if_neg fun hun => hu hun.1]

end SymbolTable

end Frost32.Asm
