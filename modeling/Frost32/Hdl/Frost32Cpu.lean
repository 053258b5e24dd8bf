import Frost32.Hdl.Datapath

namespace Frost32.Hdl

/-!
# `Frost32Cpu` and `PkgFrost32Cpu`

The CPU as registers plus a function of one clock edge.  The registers are grouped by the
clocked block that assigns them, so each block of the module is one function:

* `Frost32Cpu.fetchStage` — program counter, memory port, latched signed comparisons.
* `Frost32Cpu.decodeStage` — stall counter and state, `ireta`, `idsta`, `ie`, the latch of
  the execute stage.
* `Frost32Cpu.executeStage` — the two write-back records, the command ports of the
  multiplier and the divider.
* `Frost32Cpu.writeBackStage` — the write port of the register file.

`always_comb` signals are functions of the state and the input ports.  The write-back copy
of the execute latch, the `nop` member and the debug outputs, which nothing reads, are left
out.  Non-blocking assignment is kept by writing every block as a function of the state
before the edge.
-/

/-! ### `PkgFrost32Cpu` -/

inductive StallState
  | stInit
  | stRespondToInterrupt
  | stReti
  | stOther
  | stMulDiv
  | stCtrlFlowBranch
  | stCtrlFlowJumpCall
  | stOtherInterruptsStuff
  | stMemAccess
  deriving DecidableEq, Repr

structure MultiStageData where
  rawInstruction : Word
  instrRaIndex : RegIndex
  instrRbIndex : RegIndex
  instrRcIndex : RegIndex
  instrImmVal : BitVec 16
  instrGroup : BitVec 4
  instrOpcode : BitVec 4
  instrLdstType : LdstType
  instrCausesStall : Bool
  instrConditionType : CondType
  pcVal : Word
  deriving DecidableEq

structure PortInFrost32Cpu where
  data : Word
  waitForMem : Bool
  interrupt : Bool

/-! ### Parameters -/

def regLrIndex : RegIndex := 13#4
def stallCounterRelBranchUnsigned : BitVec 5 := 2#5
def stallCounterRelBranchSigned : BitVec 5 := stallCounterRelBranchUnsigned + 1#5
def stallCounterJumpCallUnsigned : BitVec 5 := 3#5
def stallCounterJumpCallSigned : BitVec 5 := stallCounterJumpCallUnsigned + 1#5
def stallCounterMemAccess : BitVec 5 := 3#5
def stallCounterInterruptsStuff : BitVec 5 := 2#5
def stallCounterReti : BitVec 5 := 2#5
def stallCounterEek : BitVec 5 := 3#5
def stallCounterRespondToInterrupts : BitVec 5 := 2#5
def stallCounterMultiply32 : BitVec 5 := 5#5
/-- With `OPT_FAST_DIV`. -/
def numIterationsPerDivide32Cycle : Nat := 2
def stallCounterDivide32 : BitVec 5 := BitVec.ofNat 5 (32 / numIterationsPerDivide32Cycle + 7)

/-! ### Registers -/

/-- Assigned by "Stage 0:  Instruction Fetch".  `pcVal` is
    `__multi_stage_data_instr_decode.pc_val`. -/
structure FetchRegs where
  pc : Word
  pcVal : Word
  condLts : Bool
  condGes : Bool
  condLes : Bool
  condGts : Bool
  out : MemAccess
  deriving DecidableEq

/-- Assigned by "Stage 1:  Instruction Decode". -/
structure DecodeRegs where
  stallCounter : BitVec 5
  stallState : StallState
  ireta : Word
  idsta : Word
  ie : Bool
  multiStageDataExecute : MultiStageData
  iretaData : Word
  idstaData : Word
  deriving DecidableEq

/-- Assigned by "Stage 2:  Execute". -/
structure ExecuteRegs where
  prevWrittenRegIndex0 : RegIndex
  prevWrittenRegIndex1 : RegIndex
  nRegData0 : Word
  nRegData1 : Word
  inMul32 : PortInMultiplier32
  inDiv32 : PortInDivider 32

structure Frost32Cpu where
  fetch : FetchRegs
  decode : DecodeRegs
  execute : ExecuteRegs
  writeBack : RegFileWrite
  regFile : RegisterFile
  mul32 : Multiplier32
  div32 : NonRestoringDivider 32

/-- The three register operands of the instruction in the execute stage. -/
structure Operands where
  ra : Word
  rb : Word
  rc : Word

/-- The macro `perform_operand_forwarding`. -/
def performOperandForwarding (index : RegIndex) (e : ExecuteRegs) (readData : Word) : Word :=
  if index = 0#4 then 0
  else if index = e.prevWrittenRegIndex0 then e.nRegData0
  else if index = e.prevWrittenRegIndex1 then e.nRegData1
  else readData

namespace Frost32Cpu

variable (i : PortInFrost32Cpu) (s : Frost32Cpu)

/-! ### Combinational signals -/

def inStall : Bool := s.decode.stallCounter != 0#5

def inInstrDecoder : Word :=
  if s.inStall then s.decode.multiStageDataExecute.rawInstruction else i.data

def outInstrDecoder : PortOutInstrDecoder := instrDecoder (s.inInstrDecoder i)

def multiStageDataInstrDecode : MultiStageData where
  rawInstruction := s.inInstrDecoder i
  instrRaIndex := (s.outInstrDecoder i).raIndex
  instrRbIndex := (s.outInstrDecoder i).rbIndex
  instrRcIndex := (s.outInstrDecoder i).rcIndex
  instrImmVal := (s.outInstrDecoder i).immVal
  instrGroup := (s.outInstrDecoder i).group
  instrOpcode := (s.outInstrDecoder i).opcode
  instrLdstType := (s.outInstrDecoder i).ldstType
  instrCausesStall := (s.outInstrDecoder i).causesStall
  instrConditionType := (s.outInstrDecoder i).conditionType
  pcVal := s.fetch.pcVal

def followingPcStageExecute : Word := s.decode.multiStageDataExecute.pcVal + 4

def shouldServiceInterruptIfNotInStall : Bool :=
  if !s.decode.ie then false
  else if i.interrupt then true
  else false

def inRegFile : PortInRegFile where
  readSelRa := (s.multiStageDataInstrDecode i).instrRaIndex
  readSelRb := (s.multiStageDataInstrDecode i).instrRbIndex
  readSelRc := (s.multiStageDataInstrDecode i).instrRcIndex
  write := s.writeBack

/-- `__stage_execute_input_data.rfile_ra_data`, `.rfile_rb_data` and `.rfile_rc_data`. -/
def rfileData : Operands where
  ra := performOperandForwarding s.decode.multiStageDataExecute.instrRaIndex s.execute
    s.regFile.readDataRa
  rb := performOperandForwarding s.decode.multiStageDataExecute.instrRbIndex s.execute
    s.regFile.readDataRb
  rc := performOperandForwarding s.decode.multiStageDataExecute.instrRcIndex s.execute
    s.regFile.readDataRc

def branchAdderA : Word := s.followingPcStageExecute
def branchAdderB : Word := s.decode.multiStageDataExecute.instrImmVal.signExtend 32

def ldstAdderA : Word := s.rfileData.rb
/-- Immediate-indexed loads and stores have bit 3 of the opcode set. -/
def ldstAdderB : Word :=
  if s.decode.multiStageDataExecute.instrOpcode[3] then
    s.decode.multiStageDataExecute.instrImmVal.signExtend 32
  else s.rfileData.rc
def ldstAddress : Word := s.ldstAdderA + s.ldstAdderB

def cpyhiData : Word :=
  s.decode.multiStageDataExecute.instrImmVal ++ s.rfileData.ra.extractLsb' 0 16

def compareNe : Bool := s.rfileData.ra != s.rfileData.rb
def compareEq : Bool := s.rfileData.ra == s.rfileData.rb
def compareLtu : Bool := s.rfileData.ra.ult s.rfileData.rb
def compareGeu : Bool := s.rfileData.rb.ule s.rfileData.ra
def compareLeu : Bool := s.rfileData.ra.ule s.rfileData.rb
def compareGtu : Bool := s.rfileData.rb.ult s.rfileData.ra
def compareLts : Bool := s.rfileData.ra.slt s.rfileData.rb
def compareGes : Bool := s.rfileData.rb.sle s.rfileData.ra
def compareLes : Bool := s.rfileData.ra.sle s.rfileData.rb
def compareGts : Bool := s.rfileData.rb.slt s.rfileData.ra

/-- "ALU input stuff". -/
def inAlu : PortInAlu :=
  let m := s.decode.multiStageDataExecute
  if i.waitForMem then { a := 0, b := 0, oper := 0 }
  else match m.instrGroup with
    | 0#4 => { a := s.rfileData.rb, b := s.rfileData.rc, oper := m.instrOpcode }
    | 1#4 =>
      { a := s.rfileData.rb
        -- only these two extend the sign of the immediate
        b := if m.instrOpcode = Iog1Oper.sltsiTwoRegsOneSimm.toBits
              ∨ m.instrOpcode = Iog1Oper.sgtsiTwoRegsOneSimm.toBits
            then m.instrImmVal.signExtend 32
            else m.instrImmVal.setWidth 32
        oper := m.instrOpcode }
    | _ => { a := 0, b := 0, oper := 0 }

def outAlu : Word := alu (s.inAlu i)

/-! ### Stage 0:  Instruction Fetch -/

end Frost32Cpu

namespace FetchRegs

def prepMemRead (addr : Word) (size : DataInoutAccessSize) (f : FetchRegs) : FetchRegs :=
  { f with out := { data := 0, addr := addr, dataInoutAccessType := .diatRead,
                    dataInoutAccessSize := size, reqMemAccess := true } }

def prepMemWrite (addr : Word) (size : DataInoutAccessSize) (data : Word) (f : FetchRegs) :
    FetchRegs :=
  { f with out := { data := data, addr := addr, dataInoutAccessType := .diatWrite,
                    dataInoutAccessSize := size, reqMemAccess := true } }

/-- `__locals.pc <= addr` and `pc_val <= __locals.pc` read the same old `pc`. -/
def prepLoadInstruction (addr : Word) (f : FetchRegs) : FetchRegs :=
  prepMemRead addr .dias32 { f with pc := addr, pcVal := f.pc }

def prepLoadFollowingInstruction (f : FetchRegs) : FetchRegs :=
  f.prepLoadInstruction (f.pc + 4)

def stopMemAccess (f : FetchRegs) : FetchRegs :=
  { f with out := { f.out with reqMemAccess := false } }

end FetchRegs

namespace Frost32Cpu

variable (i : PortInFrost32Cpu) (s : Frost32Cpu)

def handleBranchInFetchStage (condition : Bool) : FetchRegs :=
  if condition then s.fetch.prepLoadInstruction (s.branchAdderA + s.branchAdderB)
  else s.fetch.prepLoadInstruction s.followingPcStageExecute

def handleJumpOrCallInFetchStage (condition : Bool) : FetchRegs :=
  if condition then s.fetch.prepLoadInstruction s.rfileData.rc
  else s.fetch.prepLoadInstruction s.followingPcStageExecute

/-- `stall_counter == 3` of a branch, jump or call: latch the signed comparisons. -/
def latchConds : FetchRegs :=
  { s.fetch with condLts := s.compareLts, condGes := s.compareGes,
                 condLes := s.compareLes, condGts := s.compareGts }

/-- The bus request of a load or store. -/
def fetchMemAccess : FetchRegs :=
  match s.decode.multiStageDataExecute.instrLdstType with
  | .ld32 => s.fetch.prepMemRead s.ldstAddress .dias32
  | .ldU16 => s.fetch.prepMemRead s.ldstAddress .dias16
  | .ldS16 => s.fetch.prepMemRead s.ldstAddress .dias16
  | .ldU8 => s.fetch.prepMemRead s.ldstAddress .dias8
  | .ldS8 => s.fetch.prepMemRead s.ldstAddress .dias8
  | .st32 => s.fetch.prepMemWrite s.ldstAddress .dias32 s.rfileData.ra
  | .st16 => s.fetch.prepMemWrite s.ldstAddress .dias16 s.rfileData.ra
  | .st8 => s.fetch.prepMemWrite s.ldstAddress .dias8 s.rfileData.ra

def fetchBranch : FetchRegs :=
  match s.decode.multiStageDataExecute.instrConditionType with
  | .ctNe => s.handleBranchInFetchStage s.compareNe
  | .ctEq => s.handleBranchInFetchStage s.compareEq
  | .ctLtu => s.handleBranchInFetchStage s.compareLtu
  | .ctGeu => s.handleBranchInFetchStage s.compareGeu
  | .ctLeu => s.handleBranchInFetchStage s.compareLeu
  | .ctGtu => s.handleBranchInFetchStage s.compareGtu
  -- the signed comparisons are those latched at `stall_counter == 3`
  | .ctLts => s.handleBranchInFetchStage s.fetch.condLts
  | .ctGes => s.handleBranchInFetchStage s.fetch.condGes
  | .ctLes => s.handleBranchInFetchStage s.fetch.condLes
  | .ctGts => s.handleBranchInFetchStage s.fetch.condGts
  | .ctIntsEnabled => s.handleBranchInFetchStage s.decode.ie
  | .ctIntsDisabled => s.handleBranchInFetchStage (!s.decode.ie)
  | _ => s.fetch.prepLoadInstruction s.followingPcStageExecute

def fetchJumpCall : FetchRegs :=
  match s.decode.multiStageDataExecute.instrConditionType with
  | .ctNe => s.handleJumpOrCallInFetchStage s.compareNe
  | .ctEq => s.handleJumpOrCallInFetchStage s.compareEq
  | .ctLtu => s.handleJumpOrCallInFetchStage s.compareLtu
  | .ctGeu => s.handleJumpOrCallInFetchStage s.compareGeu
  | .ctLeu => s.handleJumpOrCallInFetchStage s.compareLeu
  | .ctGtu => s.handleJumpOrCallInFetchStage s.compareGtu
  -- the signed comparisons are those latched at `stall_counter == 3`
  | .ctLts => s.handleJumpOrCallInFetchStage s.fetch.condLts
  | .ctGes => s.handleJumpOrCallInFetchStage s.fetch.condGes
  | .ctLes => s.handleJumpOrCallInFetchStage s.fetch.condLes
  | .ctGts => s.handleJumpOrCallInFetchStage s.fetch.condGts
  | _ => s.fetch.prepLoadInstruction s.followingPcStageExecute

/-- What the fetch stage does in a stall with `stall_counter == 2`. -/
def fetchAtTwo : FetchRegs :=
  match s.decode.stallState with
  | .stOtherInterruptsStuff => s.fetch.prepLoadInstruction s.followingPcStageExecute
  | .stMemAccess => s.fetch.prepLoadInstruction s.followingPcStageExecute
  | .stCtrlFlowBranch => s.fetchBranch
  | .stCtrlFlowJumpCall => s.fetchJumpCall
  | .stInit => s.fetch.prepLoadInstruction 0
  | .stReti => s.fetch.prepLoadInstruction s.decode.ireta
  | .stRespondToInterrupt => s.fetch.prepLoadInstruction s.decode.idsta
  | .stMulDiv => s.fetch.prepLoadInstruction s.followingPcStageExecute
  | .stOther => s.fetch

/-- What it does with `stall_counter == 3`. -/
def fetchAtThree : FetchRegs :=
  match s.decode.stallState with
  | .stMemAccess => s.fetchMemAccess
  | .stCtrlFlowBranch => s.latchConds
  | .stCtrlFlowJumpCall => s.latchConds
  | _ => s.fetch

def fetchStage : FetchRegs :=
  -- a request lasts for one cycle
  if i.waitForMem then s.fetch.stopMemAccess
  else if s.inStall then
    if s.decode.stallCounter = 1#5 then s.fetch.prepLoadFollowingInstruction
    else if s.decode.stallCounter = 2#5 then s.fetchAtTwo
    else if s.decode.stallCounter = 3#5 then s.fetchAtThree
    else s.fetch
  else if s.shouldServiceInterruptIfNotInStall i then s.fetch
  -- the following instruction is loaded when the stall is over
  else if (s.multiStageDataInstrDecode i).instrCausesStall then s.fetch
  else s.fetch.prepLoadInstruction (s.fetch.pc + 4)

end Frost32Cpu

/-! ### Stage 1:  Instruction Decode -/

/-- `make_bubble`: the raw instruction, the immediate and `pc_val` stay. -/
def MultiStageData.makeBubble (m : MultiStageData) : MultiStageData :=
  { m with instrRaIndex := 0#4, instrRbIndex := 0#4, instrRcIndex := 0#4, instrGroup := 0#4,
           instrOpcode := 0#4, instrLdstType := .ld32, instrCausesStall := false,
           instrConditionType := .ctNe }

/-- `CtLts <= condition_type && condition_type <= CtGts`. -/
def CondType.isSigned (c : CondType) : Bool :=
  CondType.ctLts.toBits.ule c.toBits && c.toBits.ule CondType.ctGts.toBits

/-- The stall state an instruction that causes a stall puts the decode stage in; `muli`
    (group 1) leaves it as it is. -/
def MultiStageData.nextStallState (m : MultiStageData) (old : StallState) : StallState :=
  match m.instrGroup with
  | 0#4 => .stMulDiv
  -- no state is set for `muli`
  | 1#4 => old
  | 2#4 => .stCtrlFlowBranch
  | 3#4 => .stCtrlFlowJumpCall
  | 4#4 => .stCtrlFlowJumpCall
  | 5#4 => .stMemAccess
  | 6#4 =>
    if m.instrOpcode ≠ Iog6Oper.retiNoArgs.toBits then .stOtherInterruptsStuff else .stReti
  | _ => .stInit

/-- The stall counter it starts from. -/
def MultiStageData.nextStallCounter (m : MultiStageData) : BitVec 5 :=
  match m.instrGroup with
  | 0#4 =>
    if m.instrOpcode = Iog0Oper.mulThreeRegs.toBits then stallCounterMultiply32
    else stallCounterDivide32
  | 1#4 => stallCounterMultiply32
  | 2#4 =>
    if m.instrConditionType.isSigned then stallCounterRelBranchSigned
    else stallCounterRelBranchUnsigned
  | 3#4 =>
    if m.instrConditionType.isSigned then stallCounterJumpCallSigned
    else stallCounterJumpCallUnsigned
  | 4#4 =>
    if m.instrConditionType.isSigned then stallCounterJumpCallSigned
    else stallCounterJumpCallUnsigned
  | 5#4 => stallCounterMemAccess
  | 6#4 =>
    if m.instrOpcode ≠ Iog6Oper.retiNoArgs.toBits then stallCounterInterruptsStuff
    else stallCounterReti
  | _ => stallCounterEek

namespace Frost32Cpu

variable (i : PortInFrost32Cpu) (s : Frost32Cpu)

/-- The special registers in a stall with `stall_counter == 2`. -/
def decodeAtTwo (d : DecodeRegs) : DecodeRegs :=
  match s.decode.stallState with
  | .stOtherInterruptsStuff =>
    -- "cpy ireta, rA"
    if s.decode.multiStageDataExecute.instrOpcode = Iog6Oper.cpyOneIretaOneReg.toBits then
      { d with ireta := s.rfileData.ra }
    -- "cpy idsta, rA"
    else if s.decode.multiStageDataExecute.instrOpcode
        = Iog6Oper.cpyOneIdstaOneReg.toBits then
      { d with idsta := s.rfileData.ra }
    -- "ei", "di"
    else
      { d with ie := (s.multiStageDataInstrDecode i).instrOpcode == Iog6Oper.eiNoArgs.toBits }
  | .stReti => { d with ie := true }
  | .stRespondToInterrupt => { d with ie := false }
  | _ => d

/-- The decode stage while `stall_counter` is not 0. -/
def decodeInStall : DecodeRegs :=
  let d := { s.decode with stallCounter := s.decode.stallCounter - 1#5 }
  -- the instruction must not take effect again in the cycle after its stall
  if s.decode.stallCounter = 1#5 then
    { d with multiStageDataExecute := s.decode.multiStageDataExecute.makeBubble }
  else if s.decode.stallCounter = 2#5 then s.decodeAtTwo i d
  else d

/-- `send_instr_through`, with the stall the instruction starts. -/
def sendInstrThrough : DecodeRegs :=
  let m := s.multiStageDataInstrDecode i
  { s.decode with
    stallCounter := if m.instrCausesStall then m.nextStallCounter else s.decode.stallCounter
    stallState :=
      if m.instrCausesStall then m.nextStallState s.decode.stallState else s.decode.stallState
    multiStageDataExecute := m
    iretaData := s.decode.ireta
    idstaData := s.decode.idsta }

/-- The decode stage when it accepts an interrupt. -/
def respondToInterrupt : DecodeRegs :=
  { s.decode with
    ireta := s.fetch.pcVal
    stallState := .stRespondToInterrupt
    stallCounter := stallCounterRespondToInterrupts
    multiStageDataExecute := s.decode.multiStageDataExecute.makeBubble }

def decodeStage : DecodeRegs :=
  if i.waitForMem then s.decode
  else if s.inStall then s.decodeInStall i
  else if s.shouldServiceInterruptIfNotInStall i then s.respondToInterrupt
  else s.sendInstrThrough i

end Frost32Cpu

/-! ### Stage 2:  Execute -/

namespace ExecuteRegs

def prepRegWb (nSel : RegIndex) (nData : Word) (e : ExecuteRegs) : ExecuteRegs :=
  { e with prevWrittenRegIndex0 := nSel, nRegData0 := nData }

def stopOperandForwardingOrWriteBack (e : ExecuteRegs) : ExecuteRegs :=
  { e with prevWrittenRegIndex0 := 0#4 }

end ExecuteRegs

namespace Frost32Cpu

variable (i : PortInFrost32Cpu) (s : Frost32Cpu)

def prepRaWb (nData : Word) (e : ExecuteRegs) : ExecuteRegs :=
  e.prepRegWb s.decode.multiStageDataExecute.instrRaIndex nData

def ctrlMultiply32 (x y : Word) (e : ExecuteRegs) : ExecuteRegs :=
  -- the command is given in the first cycle of the stall
  if s.decode.stallCounter = stallCounterMultiply32 then
    s.prepRaWb 0 { e with inMul32 := { enable := true, x := x, y := y } }
  else
    s.prepRaWb s.mul32.prod { e with inMul32 := { s.execute.inMul32 with enable := false } }

def ctrlDivide32 (nUnsgnOrSgn : Bool) (e : ExecuteRegs) : ExecuteRegs :=
  if s.decode.stallCounter = stallCounterDivide32 then
    s.prepRaWb 0 { e with inDiv32 := { enable := true, unsgnOrSgn := nUnsgnOrSgn,
                                       num := s.rfileData.rb, denom := s.rfileData.rc } }
  else
    -- a division by 0 gives 0
    s.prepRaWb (if s.execute.inDiv32.denom ≠ 0 then s.div32.outQuot else 0)
      { e with inDiv32 := { s.execute.inDiv32 with enable := false } }

def handleCallInExecuteStage (condition : Bool) (e : ExecuteRegs) : ExecuteRegs :=
  { e with nRegData0 := s.followingPcStageExecute,
           prevWrittenRegIndex0 := if condition then regLrIndex else 0#4 }

def executeThreeRegs (e : ExecuteRegs) : ExecuteRegs :=
  let m := s.decode.multiStageDataExecute
  if m.instrOpcode = Iog0Oper.mulThreeRegs.toBits then
    s.ctrlMultiply32 s.rfileData.rb s.rfileData.rc e
  else if m.instrOpcode = Iog0Oper.udivThreeRegs.toBits then s.ctrlDivide32 false e
  else if m.instrOpcode = Iog0Oper.sdivThreeRegs.toBits then s.ctrlDivide32 true e
  else s.prepRaWb (s.outAlu i) e

def executeImmediates (e : ExecuteRegs) : ExecuteRegs :=
  let m := s.decode.multiStageDataExecute
  if m.instrOpcode = Iog1Oper.cpyhiOneRegOneImm.toBits then s.prepRaWb s.cpyhiData e
  else if m.instrOpcode = Iog1Oper.addsiOneRegOnePcOneSimm.toBits then
    s.prepRaWb (m.pcVal + m.instrImmVal.signExtend 32) e
  else if m.instrOpcode = Iog1Oper.muliTwoRegsOneImm.toBits then
    s.ctrlMultiply32 s.rfileData.rb (m.instrImmVal.setWidth 32) e
  else s.prepRaWb (s.outAlu i) e

def executeCalls (e : ExecuteRegs) : ExecuteRegs :=
  match s.decode.multiStageDataExecute.instrConditionType with
  | .ctNe => s.handleCallInExecuteStage s.compareNe e
  | .ctEq => s.handleCallInExecuteStage s.compareEq e
  | .ctLtu => s.handleCallInExecuteStage s.compareLtu e
  | .ctGeu => s.handleCallInExecuteStage s.compareGeu e
  | .ctLeu => s.handleCallInExecuteStage s.compareLeu e
  | .ctGtu => s.handleCallInExecuteStage s.compareGtu e
  -- these flags change at `stall_counter == 3` only
  | .ctLts => s.handleCallInExecuteStage s.fetch.condLts e
  | .ctGes => s.handleCallInExecuteStage s.fetch.condGes e
  | .ctLes => s.handleCallInExecuteStage s.fetch.condLes e
  | .ctGts => s.handleCallInExecuteStage s.fetch.condGts e
  | _ => e.stopOperandForwardingOrWriteBack

/-- The memory data is there when `stall_counter == 1`. -/
def executeLoadsStores (e : ExecuteRegs) : ExecuteRegs :=
  if s.decode.stallCounter = 1#5 then
    match s.decode.multiStageDataExecute.instrLdstType with
    | .ld32 => s.prepRaWb i.data e
    | .ldU16 => s.prepRaWb ((i.data.extractLsb' 0 16).setWidth 32) e
    | .ldS16 => s.prepRaWb ((i.data.extractLsb' 0 16).signExtend 32) e
    | .ldU8 => s.prepRaWb ((i.data.extractLsb' 0 8).setWidth 32) e
    | .ldS8 => s.prepRaWb ((i.data.extractLsb' 0 8).signExtend 32) e
    | _ => e.stopOperandForwardingOrWriteBack
  else e.stopOperandForwardingOrWriteBack

def executeInterruptsStuff (e : ExecuteRegs) : ExecuteRegs :=
  let m := s.decode.multiStageDataExecute
  if m.instrOpcode = Iog6Oper.cpyOneRegOneIreta.toBits then s.prepRaWb s.decode.iretaData e
  else if m.instrOpcode = Iog6Oper.cpyOneRegOneIdsta.toBits then
    s.prepRaWb s.decode.idstaData e
  else e.stopOperandForwardingOrWriteBack

/-- The write-back record as it moves to the second forwarding level. -/
def shiftedRecord : ExecuteRegs :=
  { s.execute with prevWrittenRegIndex1 := s.execute.prevWrittenRegIndex0
                   nRegData1 := s.execute.nRegData0 }

def executeStage : ExecuteRegs :=
  if i.waitForMem then s.execute
  else match s.decode.multiStageDataExecute.instrGroup with
    | 0#4 => s.executeThreeRegs i s.shiftedRecord
    | 1#4 => s.executeImmediates i s.shiftedRecord
    -- branches and jumps write no register
    | 2#4 => s.shiftedRecord.stopOperandForwardingOrWriteBack
    | 3#4 => s.shiftedRecord.stopOperandForwardingOrWriteBack
    | 4#4 => s.executeCalls s.shiftedRecord
    | 5#4 => s.executeLoadsStores i s.shiftedRecord
    | 6#4 => s.executeInterruptsStuff s.shiftedRecord
    | _ => s.shiftedRecord

/-! ### Stage 3:  Write Back -/

/-- `prep_reg_write` of the last write-back record. -/
def writeBackStage : RegFileWrite :=
  if i.waitForMem then s.writeBack
  else { writeEn := true, writeSel := s.execute.prevWrittenRegIndex0,
         writeData := s.execute.nRegData0 }

/-! ### One clock edge -/

/-- One edge of every clocked block of the CPU and of the units inside it.  The register
    file, the multiplier and the divider are clocked also when the CPU waits. -/
def step (order : BlockOrder) : Frost32Cpu where
  fetch := s.fetchStage i
  decode := s.decodeStage i
  execute := s.executeStage i
  writeBack := s.writeBackStage i
  regFile := s.regFile.step (s.inRegFile i)
  mul32 := s.mul32.step s.execute.inMul32
  div32 := s.div32.step numIterationsPerDivide32Cycle order s.execute.inDiv32

end Frost32Cpu

/-! ### Initial values -/

/-- All members 0. -/
def MultiStageData.zero : MultiStageData where
  rawInstruction := 0
  instrRaIndex := 0
  instrRbIndex := 0
  instrRcIndex := 0
  instrImmVal := 0
  instrGroup := 0
  instrOpcode := 0
  instrLdstType := .ld32
  instrCausesStall := false
  instrConditionType := .ctNe
  pcVal := 0

/-- The `initial` block.  Registers it leaves out have any value, that of `junk`; an enable
    without a value does not count as set in an `if`. -/
def Frost32Cpu.init (junk : Frost32Cpu) : Frost32Cpu where
  fetch :=
    { pc := 0, pcVal := junk.fetch.pcVal, condLts := false, condGes := false,
      condLes := false, condGts := false,
      out := { data := 0, addr := 0, dataInoutAccessType := .diatRead,
               dataInoutAccessSize := .dias32, reqMemAccess := true } }
  decode :=
    { stallCounter := 2, stallState := .stInit, ireta := 0, idsta := 0, ie := false,
      multiStageDataExecute := .zero, iretaData := junk.decode.iretaData,
      idstaData := junk.decode.idstaData }
  execute :=
    { prevWrittenRegIndex0 := 0#4, prevWrittenRegIndex1 := 0#4, nRegData0 := 0, nRegData1 := 0,
      inMul32 := { junk.execute.inMul32 with enable := false },
      inDiv32 := { enable := false, unsgnOrSgn := false, num := 0, denom := 0 } }
  writeBack := { junk.writeBack with writeEn := false }
  regFile := .init
  mul32 := .init junk.mul32
  div32 := .init

end Frost32.Hdl
