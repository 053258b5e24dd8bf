import Frost32.Hdl.InstrDecoder

namespace Frost32.Hdl

/-!
# `Alu`, `RegisterFile` and `MainMem`

The single-cycle units around the CPU.

* `alu` — combinational.
* `RegisterFile.step` — three synchronous read ports and one write port.  A read port that
  names the register being written gets the written value, so after an edge every port
  holds what the array holds (`step_readDataRa` and its siblings).
* `MainMem.step` — `SinglePortRam` behind the memory port of the CPU: one port, words only,
  read data one edge after the address.
-/

/-! ### `Alu` -/

inductive AluOper
  | add | sub | sltu | slts
  | sgtu | sgts | andN | and
  | or | xor | nor | lsl
  | lsr | asr | orN | nand

/-- The enumerator with a given 4-bit value. -/
def AluOper.ofBits (b : BitVec 4) : AluOper :=
  match b with
  | 0#4 => .add | 1#4 => .sub | 2#4 => .sltu | 3#4 => .slts
  | 4#4 => .sgtu | 5#4 => .sgts | 6#4 => .andN | 7#4 => .and
  | 8#4 => .or | 9#4 => .xor | 10#4 => .nor | 11#4 => .lsl
  | 12#4 => .lsr | 13#4 => .asr | 14#4 => .orN | _ => .nand

structure PortInAlu where
  a : Word
  b : Word
  oper : BitVec 4

/-- A one-bit result in a word. -/
def ofFlag (p : Bool) : Word := (BitVec.ofBool p).setWidth 32

/-- The combinational `Alu`; three of its operations are never asked for and give 0. -/
def alu (i : PortInAlu) : Word :=
  match AluOper.ofBits i.oper with
  | .add => i.a + i.b
  | .sub => i.a - i.b
  | .sltu => ofFlag (i.a.ult i.b)
  | .slts => ofFlag (i.a.slt i.b)
  | .sgtu => ofFlag (i.b.ult i.a)
  | .sgts => ofFlag (i.b.slt i.a)
  | .andN => 0
  | .and => i.a &&& i.b
  | .or => i.a ||| i.b
  | .xor => i.a ^^^ i.b
  | .nor => ~~~(i.a ||| i.b)
  | .lsl => i.a <<< i.b.toNat
  | .lsr => i.a >>> i.b.toNat
  | .asr => i.a.sshiftRight i.b.toNat
  | .orN => 0
  | .nand => 0

/-! ### `RegisterFile` -/

/-- The write half of the input port, registers of the CPU's write-back stage. -/
structure RegFileWrite where
  writeEn : Bool
  writeSel : RegIndex
  writeData : Word
  deriving DecidableEq

structure PortInRegFile where
  readSelRa : RegIndex
  readSelRb : RegIndex
  readSelRc : RegIndex
  write : RegFileWrite

/-- The registers of `RegisterFile`: the array and the three read ports. -/
structure RegisterFile where
  regfile : RegIndex → Word
  readDataRa : Word
  readDataRb : Word
  readDataRc : Word

namespace RegisterFile

def init : RegisterFile where
  regfile := fun _ => 0
  readDataRa := 0
  readDataRb := 0
  readDataRc := 0

/-- `GEN_REG_FILE_READ_SYNCHRONOUS`: what one read port loads. -/
def genRegFileRead (readSel : RegIndex) (w : RegFileWrite) (rf : RegisterFile) : Word :=
  if w.writeEn && w.writeSel == readSel && w.writeSel != 0#4 then w.writeData
  else rf.regfile readSel

/-- The write port: the array after an edge. -/
def written (w : RegFileWrite) (rf : RegisterFile) : RegIndex → Word :=
  if w.writeEn && w.writeSel != 0#4 then Function.update rf.regfile w.writeSel w.writeData
  else rf.regfile

/-- One clock edge. -/
def step (i : PortInRegFile) (rf : RegisterFile) : RegisterFile where
  regfile := rf.written i.write
  readDataRa := rf.genRegFileRead i.readSelRa i.write
  readDataRb := rf.genRegFileRead i.readSelRb i.write
  readDataRc := rf.genRegFileRead i.readSelRc i.write

/-- A read port loads what the array holds after the edge. -/
theorem genRegFileRead_eq (r : RegIndex) (w : RegFileWrite) (rf : RegisterFile) :
    rf.genRegFileRead r w = rf.written w r := by
  unfold genRegFileRead written
  by_cases hw : (w.writeEn && w.writeSel != 0#4) = true
  · rw [if_pos hw]
    by_cases hr : w.writeSel = r
    · subst hr
      rw [Function.update_self, if_pos (by simpa using hw)]
    · rw [Function.update_of_ne (Ne.symm hr), if_neg (by simp [hr])]
  · rw [if_neg hw, if_neg]
    intro h
    simp only [Bool.and_eq_true] at h hw
    exact hw ⟨h.1.1, h.2⟩

/-- Writing the same register twice with the same data is writing it once. -/
theorem written_written (w : RegFileWrite) (rf : RegisterFile) (ra rb rc : Word) :
    written w ⟨rf.written w, ra, rb, rc⟩ = rf.written w := by
  unfold written
  by_cases hw : (w.writeEn && w.writeSel != 0#4) = true
  · rw [if_pos hw, if_pos hw, Function.update_idem]
  · rw [if_neg hw, if_neg hw]

/-- An edge depends on the array after the pending write only. -/
theorem step_eq_of_written {i : PortInRegFile} {rf rf' : RegisterFile}
    (h : rf'.written i.write = rf.written i.write) : rf'.step i = rf.step i := by
  unfold step
  rw [genRegFileRead_eq, genRegFileRead_eq, genRegFileRead_eq, genRegFileRead_eq,
    genRegFileRead_eq, genRegFileRead_eq, h]

@[simp] theorem step_regfile (i : PortInRegFile) (rf : RegisterFile) :
    (rf.step i).regfile = rf.written i.write := rfl

theorem step_readDataRa (i : PortInRegFile) (rf : RegisterFile) :
    (rf.step i).readDataRa = (rf.step i).regfile i.readSelRa := genRegFileRead_eq _ _ _
theorem step_readDataRb (i : PortInRegFile) (rf : RegisterFile) :
    (rf.step i).readDataRb = (rf.step i).regfile i.readSelRb := genRegFileRead_eq _ _ _
theorem step_readDataRc (i : PortInRegFile) (rf : RegisterFile) :
    (rf.step i).readDataRc = (rf.step i).regfile i.readSelRc := genRegFileRead_eq _ _ _

end RegisterFile

/-! ### The memory port and `MainMem` -/

inductive DataInoutAccessType
  | diatRead | diatWrite
  deriving DecidableEq, Repr

inductive DataInoutAccessSize
  | dias32 | dias16 | dias8 | diasBad
  deriving DecidableEq, Repr

/-- The memory access members of `PortOut_Frost32Cpu`, which are those of
    `PortIn_MainMem`. -/
structure MemAccess where
  data : Word
  addr : Word
  dataInoutAccessType : DataInoutAccessType
  dataInoutAccessSize : DataInoutAccessSize
  reqMemAccess : Bool
  deriving DecidableEq

/-- The index `SinglePortRam` takes from a byte address. -/
def ramIndex (addr : Word) : BitVec 11 := (addr >>> 2).setWidth 11

/-- The registers of `SinglePortRam`. -/
structure SinglePortRam where
  mem : BitVec 11 → Word
  outData : Word

/-- `__in_single_port_ram_we`. -/
def MemAccess.we (m : MemAccess) : Bool :=
  m.reqMemAccess && m.dataInoutAccessType == .diatWrite

/-- `MainMem`, one clock edge: the access size is not looked at, and the word read is the
    one before the write. -/
def SinglePortRam.step (i : MemAccess) (m : SinglePortRam) : SinglePortRam where
  mem := if i.we then Function.update m.mem (ramIndex i.addr) i.data else m.mem
  outData := m.mem (ramIndex i.addr)

end Frost32.Hdl
