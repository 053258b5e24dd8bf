import Frost32.Isa
import Frost32.Lib.Difference

namespace Frost32.Hdl

/-!
# `arithlog_modules`: `Compare`, `Multiplier32`, `NonRestoringDivider`

The arithmetic units as registers plus a function of one clock edge.

* `compare` — combinational, at any width; `compare_eq` — its outputs are the two orders.
* `Multiplier32.step` — a command is taken at one edge, the three 16-bit products are
  formed at the next and added at the one after.
* `NonRestoringDivider.step` — at any width and unroll factor.  The module has two clocked
  blocks; the first assigns `__P`, `__D`, `__quot_buf` and `__counter` with blocking
  assignments and the second reads them, so what the second sees depends on which block
  runs first.  `BlockOrder` makes that choice a parameter.

Registers that nothing reads (`__rem_buf`) and comparison outputs that nothing drives
(`gtu`, `gts`) are left out.
-/

/-! ### `Compare` -/

structure PortOutCompare where
  ltu : Bool
  lts : Bool

/-- `Compare`: the sum `a + ~b + 1` is formed with one bit more than its operands. -/
def compare {n : Nat} (a b : BitVec n) : PortOutCompare :=
  let sum : BitVec (n + 1) := a.setWidth (n + 1) + ~~~(b.setWidth (n + 1)) + 1
  let temp : BitVec n := sum.setWidth n
  { ltu := sum.msb
    lts := temp.msb ^^ ((a.msb ^^ b.msb) && (a.msb ^^ temp.msb)) }

/-- **The outputs of `Compare` are the unsigned and the signed order.** -/
theorem compare_eq {n : Nat} (a b : BitVec n) :
    compare a b = { ltu := decide (a.toNat < b.toNat), lts := decide (a.toInt < b.toInt) } := by
  have hsum : a.setWidth (n + 1) + ~~~(b.setWidth (n + 1)) + 1 =
      a.setWidth (n + 1) - b.setWidth (n + 1) := Difference.add_not_add_one ..
  unfold compare
  dsimp only
  rw [hsum, Difference.msb_widened, Difference.setWidth_widened, Difference.overflow_eq,
    Difference.msb_xor_overflow]

/-! ### `Multiplier32` -/

structure PortInMultiplier32 where
  enable : Bool
  x : BitVec 32
  y : BitVec 32

/-- The registers of `Multiplier32`, its output port included. -/
structure Multiplier32 where
  state : BitVec 1
  x : BitVec 32
  y : BitVec 32
  partialResultX0Y0 : BitVec 32
  partialResultX1Y0 : BitVec 32
  partialResultX0Y1 : BitVec 32
  canAcceptCmd : Bool
  dataReady : Bool
  prod : BitVec 32

namespace Multiplier32

def stateStart : BitVec 1 := 1#1

def busy (m : Multiplier32) : Bool := !m.canAcceptCmd

/-- The `initial` values; the registers it leaves out keep those of `junk`. -/
def init (junk : Multiplier32) : Multiplier32 :=
  { junk with state := 0, canAcceptCmd := true, dataReady := false }

/-- One clock edge. -/
def step (i : PortInMultiplier32) (m : Multiplier32) : Multiplier32 :=
  if i.enable && m.canAcceptCmd then
    { m with x := i.x, y := i.y, canAcceptCmd := false, dataReady := false,
             state := stateStart }
  else if m.busy then
    let m' := { m with state := m.state - 1#1 }
    if m.state = 1#1 then
      { m' with
        partialResultX0Y0 :=
          (m.x.extractLsb' 0 16).setWidth 32 * (m.y.extractLsb' 0 16).setWidth 32
        partialResultX0Y1 :=
          (m.x.extractLsb' 0 16).setWidth 32 * (m.y.extractLsb' 16 16).setWidth 32
        partialResultX1Y0 :=
          (m.x.extractLsb' 16 16).setWidth 32 * (m.y.extractLsb' 0 16).setWidth 32 }
    else
      { m' with
        prod := (((m.partialResultX1Y0 + m.partialResultX0Y1) ++ 0#16 : BitVec 48)
          + m.partialResultX0Y0.setWidth 48).setWidth 32
        canAcceptCmd := true
        dataReady := true }
  else m

end Multiplier32

/-! ### `NonRestoringDivider` -/

/-- What the second clocked block sees of the variables the first assigns. -/
inductive BlockOrder
  | preEdge
  | postEdge

/-- The input ports of `NonRestoringDivider`. -/
structure PortInDivider (argsWidth : Nat) where
  enable : Bool
  unsgnOrSgn : Bool
  num : BitVec argsWidth
  denom : BitVec argsWidth

/-- The variables the first clocked block assigns. -/
structure DividerTemps (argsWidth : Nat) where
  counter : BitVec 8
  quotBuf : BitVec argsWidth
  P : BitVec (2 * argsWidth + 1)
  D : BitVec (2 * argsWidth + 1)

/-- The registers of `NonRestoringDivider`, its output ports included. -/
structure NonRestoringDivider (argsWidth : Nat) where
  temps : DividerTemps argsWidth
  stateCounter : BitVec 8
  numBuf : BitVec argsWidth
  denomBuf : BitVec argsWidth
  quotBuf2 : BitVec argsWidth
  remBuf2 : BitVec argsWidth
  numWasNegative : Bool
  denomWasNegative : Bool
  unsgnOrSgnBuf : Bool
  startState : Bool
  endState : Bool
  outQuot : BitVec argsWidth
  outRem : BitVec argsWidth
  outCanAcceptCmd : Bool
  outDataReady : Bool

variable {W : Nat}

/-- The task `iterate(i)`.  Writing `__quot_buf[i]` beyond its width has no effect. -/
def DividerTemps.iterate (i : BitVec 8) (v : DividerTemps W) : DividerTemps W :=
  if !v.P.msb || v.P == 0#(2 * W + 1) then
    { v with quotBuf := v.quotBuf ||| (1#W <<< i.toNat), P := (v.P <<< 1) - v.D }
  else
    { v with P := (v.P <<< 1) + v.D }

/-- `iterate(__counter)`, `iterate(__counter - 1)`, …: the first `n` calls of one edge. -/
def DividerTemps.iterates (v : DividerTemps W) : Nat → DividerTemps W
  | 0 => v
  | n + 1 => (v.iterates n).iterate (v.counter - BitVec.ofNat 8 n)

/-- The quotient the bits of the digits stand for. -/
def DividerTemps.quotMagnitude (v : DividerTemps W) : BitVec W :=
  if v.P.msb then (v.quotBuf - ~~~v.quotBuf) - 1#W else v.quotBuf - ~~~v.quotBuf

/-- The remainder the last partial remainder stands for. -/
def DividerTemps.remMagnitude (v : DividerTemps W) : BitVec (2 * W + 1) :=
  if v.P.msb then (v.P + v.D) >>> W else v.P >>> W

namespace NonRestoringDivider

def busy (d : NonRestoringDivider W) : Bool := !d.outCanAcceptCmd

def init : NonRestoringDivider W where
  temps := { counter := 0, quotBuf := 0, P := 0, D := 0 }
  stateCounter := 0
  numBuf := 0
  denomBuf := 0
  quotBuf2 := 0
  remBuf2 := 0
  numWasNegative := false
  denomWasNegative := false
  unsgnOrSgnBuf := false
  startState := true
  endState := true
  outQuot := 0
  outRem := 0
  outCanAcceptCmd := true
  outDataReady := false

/-- The first clocked block, with `k` calls of `iterate` per edge. -/
def iterateBlock (k : Nat) (d : NonRestoringDivider W) : DividerTemps W :=
  if d.stateCounter.msb then
    { counter := BitVec.ofNat 8 (W - 1)
      quotBuf := 0
      P := d.numBuf.setWidth (2 * W + 1)
      D := d.denomBuf.setWidth (2 * W + 1) <<< W }
  else if d.busy then
    { d.temps.iterates k with counter := d.temps.counter - BitVec.ofNat 8 k }
  else d.temps

/-- `__quot_buf_2` and `__rem_buf_2`: the magnitudes with the signs of the command. -/
def finish (v : DividerTemps W) (d : NonRestoringDivider W) : BitVec W × BitVec W :=
  (if d.unsgnOrSgnBuf && (d.numWasNegative ^^ d.denomWasNegative) then -v.quotMagnitude
    else v.quotMagnitude,
   (if d.unsgnOrSgnBuf && d.numWasNegative then -v.remMagnitude
    else v.remMagnitude).setWidth W)

/-- The second clocked block; `v` is what it sees of the first block's variables. -/
def controlBlock (i : PortInDivider W) (v : DividerTemps W) (d : NonRestoringDivider W) :
    NonRestoringDivider W :=
  if i.enable && d.outCanAcceptCmd then
    { d with outCanAcceptCmd := false, outDataReady := false, stateCounter := -1#8,
             numBuf := i.num, denomBuf := i.denom, unsgnOrSgnBuf := i.unsgnOrSgn,
             numWasNegative := i.num.msb, denomWasNegative := i.denom.msb,
             startState := false, endState := false }
  else if d.startState = false then
    { d with
      startState := true
      numBuf := if d.unsgnOrSgnBuf && d.numWasNegative then -d.numBuf else d.numBuf
      denomBuf := if d.unsgnOrSgnBuf && d.denomWasNegative then -d.denomBuf else d.denomBuf }
  else if d.busy then
    if !v.counter.msb then
      { d with stateCounter := d.stateCounter + 1#8, endState := false }
    else if d.endState = false then
      { d with endState := true, quotBuf2 := (finish v d).1, remBuf2 := (finish v d).2 }
    else
      { d with outCanAcceptCmd := true, stateCounter := -1#8, outDataReady := true,
               outQuot := d.quotBuf2, outRem := d.remBuf2 }
  else d

/-- What the second block sees of the first block's variables. -/
def seen (k : Nat) (order : BlockOrder) (d : NonRestoringDivider W) : DividerTemps W :=
  match order with
  | .preEdge => d.temps
  | .postEdge => d.iterateBlock k

/-- One clock edge of both blocks. -/
def step (k : Nat) (order : BlockOrder) (i : PortInDivider W) (d : NonRestoringDivider W) :
    NonRestoringDivider W :=
  { d.controlBlock i (d.seen k order) with temps := d.iterateBlock k }

end NonRestoringDivider

end Frost32.Hdl
