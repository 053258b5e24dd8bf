import Mathlib.Data.BitVec

namespace Frost32

abbrev Word := BitVec 32
abbrev RegIndex := BitVec 4

namespace Isa

/-!
# The instruction set

What one instruction word does to the registers and the memory a programmer sees, read off
the instruction set document.  Nothing here is translated from the hardware or from the
assembler: both are compared with it.

* `Regs` — the sixteen general purpose registers; `zero` reads 0 by construction.
* `Arch` — registers, `pc`, `ireta`, `idsta`, `ie` and a memory of 2^11 words.
* `exec` — the effect of one instruction word; undefined groups and opcodes only advance
  `pc`, division by zero gives 0.
* `enterInterrupt`, `step` — one step of the machine: an accepted interrupt, or the
  instruction at `pc`.

The document leaves the byte order inside a memory word open, so sub-word accesses take it
as a parameter.
-/

/-! ### Registers and state -/

/-- The general purpose registers: register 0 is always 0. -/
structure Regs where
  val : RegIndex → Word
  zero : val 0#4 = 0

namespace Regs

@[ext] theorem ext {g h : Regs} (hv : ∀ r, g.val r = h.val r) : g = h := by
  cases g; cases h
  congr
  exact funext hv

/-- Write a register; writing register 0 has no effect. -/
def set (r : RegIndex) (v : Word) (g : Regs) : Regs where
  val := fun x => if x = 0#4 then 0 else if x = r then v else g.val x
  zero := by simp

theorem set_val (r : RegIndex) (v : Word) (g : Regs) (x : RegIndex) :
    (g.set r v).val x = if x = 0#4 then 0 else if x = r then v else g.val x := rfl

/-- A register other than the written one keeps its value. -/
theorem set_val_of_ne {r x : RegIndex} (h : x ≠ r) (v : Word) (g : Regs) :
    (g.set r v).val x = g.val x := by
  rw [set_val, if_neg h]
  by_cases hx : x = 0#4
  · rw [if_pos hx, hx, g.zero]
  · rw [if_neg hx]

theorem set_val_self {r : RegIndex} (h : r ≠ 0#4) (v : Word) (g : Regs) :
    (g.set r v).val r = v := by
  rw [set_val, if_neg h, if_pos rfl]

@[simp] theorem set_zero (v : Word) (g : Regs) : g.set 0#4 v = g := by
  ext r : 1
  by_cases hr : r = 0#4
  · rw [hr, g.zero, (g.set 0#4 v).zero]
  · exact set_val_of_ne hr v g

/-- Only the last of two writes to one register counts. -/
@[simp] theorem set_set (r : RegIndex) (v w : Word) (g : Regs) :
    (g.set r v).set r w = g.set r w := by
  ext x : 1
  simp only [set_val]
  split
  · rfl
  · split <;> rfl

/-- All registers 0. -/
def cleared : Regs := ⟨fun _ => 0, rfl⟩

end Regs

def lr : RegIndex := 13#4
def temp : RegIndex := 12#4

/-- What a programmer sees of the machine. -/
structure Arch where
  regs : Regs
  pc : Word
  ireta : Word
  idsta : Word
  ie : Bool
  mem : BitVec 11 → Word

/-- The memory word a byte address lies in. -/
def wordIndex (addr : Word) : BitVec 11 := (addr >>> 2).setWidth 11

/-! ### Instruction fields -/

def group (w : Word) : BitVec 4 := w.extractLsb' 28 4
def fieldA (w : Word) : RegIndex := w.extractLsb' 24 4
def fieldB (w : Word) : RegIndex := w.extractLsb' 20 4
def fieldC (w : Word) : RegIndex := w.extractLsb' 16 4
/-- The opcode of groups 1 and 2. -/
def opcodeHigh (w : Word) : BitVec 4 := w.extractLsb' 16 4
/-- The opcode of the other groups. -/
def opcodeLow (w : Word) : BitVec 4 := w.extractLsb' 0 4
def imm16 (w : Word) : BitVec 16 := w.extractLsb' 0 16
def simm12 (w : Word) : BitVec 12 := w.extractLsb' 4 12

/-! ### Groups 0 and 1 -/

/-- 1 if the condition holds, else 0. -/
def flag (p : Bool) : Word := if p then 1 else 0

/-- `add` to `sdiv`: the value a group 0 instruction gives `rA`. -/
def aluOp (op : BitVec 4) (b c : Word) : Word :=
  match op with
  | 0#4 => b + c
  | 1#4 => b - c
  | 2#4 => flag (b.ult c)
  | 3#4 => flag (b.slt c)
  | 4#4 => flag (c.ult b)
  | 5#4 => flag (c.slt b)
  | 6#4 => b * c
  | 7#4 => b &&& c
  | 8#4 => b ||| c
  | 9#4 => b ^^^ c
  | 10#4 => ~~~(b ||| c)
  | 11#4 => b <<< c.toNat
  | 12#4 => b >>> c.toNat
  | 13#4 => b.sshiftRight c.toNat
  | 14#4 => b / c
  | _ => b.sdiv c

/-- The immediate of a group 1 instruction as a word: sign extended for `sltsi` and
    `sgtsi`, zero extended for the others. -/
def extendImm (op : BitVec 4) (imm : BitVec 16) : Word :=
  if op = 3#4 ∨ op = 5#4 then imm.signExtend 32 else imm.setWidth 32

/-- The value a group 1 instruction gives `rA`: `addsi` adds to `pc`, `cpyhi` replaces the
    high half of `rA`, the others are group 0's operations. -/
def immOp (op : BitVec 4) (imm : BitVec 16) (pc a b : Word) : Word :=
  if op = 14#4 then pc + imm.signExtend 32
  else if op = 15#4 then imm ++ a.extractLsb' 0 16
  else aluOp op b (extendImm op imm)

/-! ### Groups 2, 3 and 4 -/

/-- Whether the condition of a control flow opcode holds; the undefined opcodes never do. -/
def condHolds (op : BitVec 4) (a b : Word) : Bool :=
  match op with
  | 0#4 => a != b
  | 1#4 => a == b
  | 2#4 => a.ult b
  | 3#4 => b.ule a
  | 4#4 => a.ule b
  | 5#4 => b.ult a
  | 6#4 => a.slt b
  | 7#4 => b.sle a
  | 8#4 => a.sle b
  | 9#4 => b.slt a
  | _ => false

/-- Branches have two more opcodes, on `ie` and on its negation. -/
def branchTaken (op : BitVec 4) (a b : Word) (ie : Bool) : Bool :=
  if op = 10#4 then ie else if op = 11#4 then !ie else condHolds op a b

/-! ### Group 5 -/

/-- The order of the bytes inside a memory word. -/
inductive ByteOrder
  | littleEndian
  | bigEndian

/-- The bit position of the `n` bytes at `addr` inside their word. -/
def laneShift (order : ByteOrder) (n : Nat) (addr : Word) : Nat :=
  let offset := addr.toNat % 4 / n * n
  match order with
  | .littleEndian => 8 * offset
  | .bigEndian => 8 * (4 - n - offset)

/-- The `n` bytes at `addr` of the word `old` that holds them. -/
def loadLane (order : ByteOrder) (n : Nat) (addr old : Word) : BitVec (8 * n) :=
  (old >>> laneShift order n addr).setWidth (8 * n)

/-- The word `old` with the `n` bytes at `addr` replaced by the low bytes of `data`. -/
def storeLane (order : ByteOrder) (n : Nat) (addr data old : Word) : Word :=
  let mask : Word := (BitVec.allOnes (8 * n)).setWidth 32 <<< laneShift order n addr
  (old &&& ~~~mask) ||| ((data <<< laneShift order n addr) &&& mask)

variable (order : ByteOrder)

/-- The value a load gives `rA`, from the word the address lies in; none for a store. -/
def loadValue (kind : BitVec 3) (addr old : Word) : Option Word :=
  match kind with
  | 0#3 => some old
  | 1#3 => some ((loadLane order 2 addr old).setWidth 32)
  | 2#3 => some ((loadLane order 2 addr old).signExtend 32)
  | 3#3 => some ((loadLane order 1 addr old).setWidth 32)
  | 4#3 => some ((loadLane order 1 addr old).signExtend 32)
  | _ => none

/-- The word a store leaves at the word of its address; none for a load. -/
def storeValue (kind : BitVec 3) (addr data old : Word) : Option Word :=
  match kind with
  | 5#3 => some data
  | 6#3 => some (storeLane order 2 addr data old)
  | 7#3 => some (storeLane order 1 addr data old)
  | _ => none

/-! ### Execution -/

namespace Arch

def next (a : Arch) : Arch := { a with pc := a.pc + 4 }

/-- Give `rA` a value and go on to the next instruction. -/
def writeA (w : Word) (v : Word) (a : Arch) : Arch :=
  { a.next with regs := a.regs.set (fieldA w) v }

/-- The effective address of a load or store. -/
def ldstAddress (w : Word) (a : Arch) : Word :=
  a.regs.val (fieldB w)
    + (if (opcodeLow w).getLsbD 3 then (simm12 w).signExtend 32 else a.regs.val (fieldC w))

end Arch

/-- A load or store, on the memory word its address lies in. -/
def execLdst (w : Word) (a : Arch) : Arch :=
  let kind := (opcodeLow w).extractLsb' 0 3
  let addr := a.ldstAddress w
  let old := a.mem (wordIndex addr)
  match loadValue order kind addr old, storeValue order kind addr (a.regs.val (fieldA w)) old with
  | some v, _ => a.writeA w v
  | _, some v => { a.next with mem := Function.update a.mem (wordIndex addr) v }
  | none, none => a.next

/-- Interrupts stuff: `ei`, `di`, the four copies, `reti`. -/
def execInterrupts (w : Word) (a : Arch) : Arch :=
  match opcodeLow w with
  | 0#4 => { a.next with ie := true }
  | 1#4 => { a.next with ie := false }
  | 2#4 => { a.next with ireta := a.regs.val (fieldA w) }
  | 3#4 => a.writeA w a.ireta
  | 4#4 => { a.next with idsta := a.regs.val (fieldA w) }
  | 5#4 => a.writeA w a.idsta
  | 6#4 => { a with pc := a.ireta, ie := true }
  | _ => a.next

/-- The effect of the instruction word `w` at `pc`. -/
def exec (w : Word) (a : Arch) : Arch :=
  let rA := a.regs.val (fieldA w)
  let rB := a.regs.val (fieldB w)
  let rC := a.regs.val (fieldC w)
  match group w with
  | 0#4 => a.writeA w (aluOp (opcodeLow w) rB rC)
  | 1#4 => a.writeA w (immOp (opcodeHigh w) (imm16 w) a.pc rA rB)
  | 2#4 =>
    if branchTaken (opcodeHigh w) rA rB a.ie then
      { a with pc := a.pc + 4 + (imm16 w).signExtend 32 }
    else a.next
  | 3#4 => if condHolds (opcodeLow w) rA rB then { a with pc := rC } else a.next
  | 4#4 =>
    if condHolds (opcodeLow w) rA rB then
      { a with regs := a.regs.set lr (a.pc + 4), pc := rC }
    else a.next
  | 5#4 => execLdst order w a
  | 6#4 => execInterrupts w a
  | _ => a.next

/-- An accepted interrupt. -/
def enterInterrupt (a : Arch) : Arch :=
  { a with ireta := a.pc, pc := a.idsta, ie := false }

/-- The instruction at `pc`. -/
def Arch.fetched (a : Arch) : Word := a.mem (wordIndex a.pc)

/-- One step, with the interrupt line at `interrupt`. -/
def step (interrupt : Bool) (a : Arch) : Arch :=
  if interrupt && a.ie then enterInterrupt a else exec order a.fetched a

/-- The state after reset. -/
def reset (mem : BitVec 11 → Word) : Arch where
  regs := .cleared
  pc := 0
  ireta := 0
  idsta := 0
  ie := false
  mem := mem

end Isa

end Frost32
