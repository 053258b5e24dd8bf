import Frost32.Lib.Run
import Frost32.Hdl.Frost32Cpu

namespace Frost32.Hdl

/-!
# The CPU with its memory

`Frost32Cpu` and `MainMem` on one clock, as the test bench connects them: the memory port
of the CPU drives the memory, the word read comes back one edge later, `wait_for_mem` is
tied to 0 by `MainMem`, and only the interrupt line is left as an input.
-/

structure System where
  cpu : Frost32Cpu
  ram : SinglePortRam

namespace System

/-- The input port of the CPU: `out.wait_for_mem = 0` and `out.data` of `MainMem`. -/
def cpuIn (interrupt : Bool) (y : System) : PortInFrost32Cpu where
  data := y.ram.outData
  waitForMem := false
  interrupt := interrupt

/-- One clock edge. -/
def step (order : BlockOrder) (interrupt : Bool) (y : System) : System where
  cpu := y.cpu.step (y.cpuIn interrupt) order
  ram := y.ram.step y.cpu.fetch.out

/-- The `initial` values with the memory image `mem`; `junk` fills the registers without. -/
def init (junk : System) (mem : BitVec 11 → Word) : System where
  cpu := .init junk.cpu
  ram := { mem := mem, outData := junk.ram.outData }

/-- Every register 0, for concrete runs. -/
def cleared : System where
  cpu :=
    { fetch :=
        { pc := 0, pcVal := 0, condLts := false, condGes := false, condLes := false,
          condGts := false,
          out := { data := 0, addr := 0, dataInoutAccessType := .diatRead,
                   dataInoutAccessSize := .dias32, reqMemAccess := false } }
      decode :=
        { stallCounter := 0, stallState := .stInit, ireta := 0, idsta := 0, ie := false,
          multiStageDataExecute := .zero, iretaData := 0, idstaData := 0 }
      execute :=
        { prevWrittenRegIndex0 := 0, prevWrittenRegIndex1 := 0, nRegData0 := 0, nRegData1 := 0,
          inMul32 := { enable := false, x := 0, y := 0 },
          inDiv32 := { enable := false, unsgnOrSgn := false, num := 0, denom := 0 } }
      writeBack := { writeEn := false, writeSel := 0, writeData := 0 }
      regFile := .init
      mul32 :=
        { state := 0, x := 0, y := 0, partialResultX0Y0 := 0, partialResultX1Y0 := 0,
          partialResultX0Y1 := 0, canAcceptCmd := false, dataReady := false, prod := 0 }
      div32 := .init }
  ram := { mem := fun _ => 0, outData := 0 }

/-- The system after `n` edges, edge `t` seeing `irq t` on the interrupt line. -/
def runFrom (order : BlockOrder) (y : System) (irq : Nat → Bool) (n : Nat) : System :=
  Lib.run (step order) y irq n

theorem runFrom_succ (order : BlockOrder) (y : System) (irq : Nat → Bool) (n : Nat) :
    runFrom order y irq (n + 1) = (runFrom order y irq n).step order (irq n) := rfl

/-- The edges after edge `t`. -/
theorem runFrom_after (order : BlockOrder) (y : System) (irq : Nat → Bool) (t j : Nat) :
    runFrom order y irq (t + 1 + j)
      = runFrom order ((runFrom order y irq t).step order (irq t)) (fun k => irq (t + 1 + k)) j :=
  Lib.run_add _ _ _ (t + 1) j

@[simp] theorem cpuIn_data (interrupt : Bool) (y : System) :
    (y.cpuIn interrupt).data = y.ram.outData := rfl
@[simp] theorem cpuIn_waitForMem (interrupt : Bool) (y : System) :
    (y.cpuIn interrupt).waitForMem = false := rfl
@[simp] theorem cpuIn_interrupt (interrupt : Bool) (y : System) :
    (y.cpuIn interrupt).interrupt = interrupt := rfl

end System

end Frost32.Hdl
