import Frost32.Asm.Emission

namespace Frost32.Asm

/-!
# The effect of a line

What one label-free line of the program does, as a value computed from the environment.

* `Effect` — the warnings a line prints, the data it generates and where it moves the program
  counter.
* `Instruction.effect`, `PseudoInstruction.effect` — the effect of an instruction, or the
  error its visitor ends in.
* `visitInstruction_run`, `visitPseudoInstruction_run` — **the visitors perform this effect**
  and change nothing else.
-/

/-- The effect of one line. -/
structure Effect where
  warnings : List String := []
  data : List Datum := []
  /-- Where `.org` and `.space` set the program counter. -/
  jump : Option (BitVec 64) := none
  deriving DecidableEq

/-- The effect of generating instruction words. -/
def Effect.ofWords (words : List (BitVec 32)) : Effect := { data := words.map .b32 }

namespace Assembler

def warnAll (msgs : List String) (s : Assembler) : Assembler :=
  { s with warnings := s.warnings ++ msgs }

/-- Generate data one after the other. -/
def genAll (data : List Datum) (s : Assembler) : Assembler := data.foldl (fun s d => s.gen d) s

def jumpTo (target : Option (BitVec 64)) (s : Assembler) : Assembler :=
  match target with
  | some n => { s with pc := { s.pc with curr := n } }
  | none => s

@[simp] theorem jumpTo_none (s : Assembler) : s.jumpTo none = s := rfl

def perform (ef : Effect) (s : Assembler) : Assembler :=
  ((s.warnAll ef.warnings).genAll ef.data).jumpTo ef.jump

end Assembler

@[simp] theorem Assembler.warnAll_nil (s : Assembler) : s.warnAll [] = s := by
  simp [Assembler.warnAll]

/-- The outcome of a visitor with a given effect. -/
def performing (s : Assembler) (r : Except AsmError Effect) : Except AsmError (Unit × Assembler) :=
  r.map fun ef => ((), s.perform ef)

@[simp] theorem performing_ok (s : Assembler) (ef : Effect) :
    performing s (.ok ef) = .ok ((), s.perform ef) := rfl

@[simp] theorem performing_error (s : Assembler) (e : AsmError) :
    performing s (.error e) = .error e := rfl

/-! ### Look-ups -/

/-- `at` of an opcode map. -/
def MapType.opcode (m : MapType) (key : String) : Except AsmError (BitVec 32) :=
  match m.lookup key with
  | some x => .ok (x.setWidth 32)
  | none => .error .outOfRange

@[simp] theorem MapType.at_run (m : MapType) (key : String) (s : Assembler) :
    (m.at key).run s = (m.opcode key).map fun op => (op, s) := by
  unfold MapType.at MapType.opcode orThrow
  cases m.lookup key <;> rfl

/-- The number of a register. -/
def TokReg.index (r : TokReg) : BitVec 4 := BitVec.ofNat 4 r.ctorIdx

/-- Every register token is in `reg_names_map`. -/
theorem regNamesMap_opcode (r : TokReg) :
    regNamesMap.opcode r.text = .ok (r.index.setWidth 32) := by
  cases r <;> rfl

@[simp] theorem getOneRegEncoding_run (r : TokReg) (s : Assembler) :
    (getOneRegEncoding r).run s = .ok (r.index.setWidth 32, s) := by
  unfold getOneRegEncoding
  rw [MapType.at_run, regNamesMap_opcode]
  rfl

@[simp] theorem getRegTempIndex_run (s : Assembler) :
    getRegTempIndex.run s = .ok (TokReg.temp.index.setWidth 32, s) :=
  getOneRegEncoding_run .temp s

/-- The text a chain of `ANY_PUSH_TOK_IF` pushes. -/
def chainText (chain : List InstrTok) (t : InstrTok) (eek : String) : Except AsmError String :=
  if t ∈ chain then .ok t.text else .error (.err eek)

theorem anyPushTokIf_run (chain : List InstrTok) (t : InstrTok) (eek : String) (s : Assembler) :
    (anyPushTokIf chain t eek).run s =
      (chainText chain t eek).map fun str => ((), s.pushStr str) := by
  unfold anyPushTokIf chainText
  by_cases h : t ∈ chain
  · rw [if_pos h, if_pos h]
    rfl
  · rw [if_neg h, if_neg h]
    rfl

/-! ### Range warnings -/

def imm16Warnings (env : Env) (imm : BitVec 64) : List String :=
  if env.pass ≠ 0 ∧ fitsImm16 imm = false then [immWarningText imm "16-bit unsigned"] else []

def simm16Warnings (env : Env) (imm : BitVec 64) : List String :=
  if env.pass ≠ 0 ∧ fitsSimm 16 imm = false then [immWarningText imm "16-bit signed"] else []

def branchWarnings (env : Env) (imm : BitVec 64) : List String :=
  if env.pass ≠ 0 ∧ fitsSimm 16 imm = false then
    ["branch offset 0x" ++ String.ofList (hexText imm) ++
      " out of range because it doesn't fit in a 16-bit signed immediate."]
  else []

def simm12Warnings (env : Env) (imm : BitVec 64) : List String :=
  if env.pass ≠ 0 ∧ fitsSimm 12 imm = false then [immWarningText imm "12-bit signed"] else []

theorem warnIfImm16OutOfRange_run (imm : BitVec 64) (s : Assembler) :
    (warnIfImm16OutOfRange imm).run s = .ok ((), s.warnAll (imm16Warnings s.env imm)) := by
  unfold warnIfImm16OutOfRange imm16Warnings
  simp only [StateT.run_bind, StateT.run_get, except_pure, ok_bind]
  by_cases hpass : s.pass = 0
  · simp [hpass, Assembler.env]
  · cases hfits : fitsImm16 imm <;> simp [hpass, Assembler.env, Assembler.warnAll, warn]

theorem warnIfSimm16OutOfRange_run (imm : BitVec 64) (isForBranch : Bool) (s : Assembler) :
    (warnIfSimm16OutOfRange imm isForBranch).run s =
      .ok ((), s.warnAll
        (if isForBranch then branchWarnings s.env imm else simm16Warnings s.env imm)) := by
  unfold warnIfSimm16OutOfRange branchWarnings simm16Warnings
  simp only [StateT.run_bind, StateT.run_get, except_pure, ok_bind]
  by_cases hpass : s.pass = 0
  · simp [hpass, Assembler.env]
  · cases hfits : fitsSimm 16 imm <;> cases isForBranch <;>
      simp [hpass, Assembler.env, Assembler.warnAll, warn]

theorem warnIfSimm12OutOfRange_run (imm : BitVec 64) (s : Assembler) :
    (warnIfSimm12OutOfRange imm).run s = .ok ((), s.warnAll (simm12Warnings s.env imm)) := by
  unfold warnIfSimm12OutOfRange simm12Warnings
  simp only [StateT.run_bind, StateT.run_get, except_pure, ok_bind]
  by_cases hpass : s.pass = 0
  · simp [hpass, Assembler.env]
  · cases hfits : fitsSimm 12 imm <;> simp [hpass, Assembler.env, Assembler.warnAll, warn]

/-! ### Encoding -/

section Encode

variable (env : Env) (regA regB regC : BitVec 32)

def aluOpThreeRegsEffect (name : String) : Except AsmError Effect := do
  return .ofWords [instrOpcodeGroup0 regA regB regC (← iog0ThreeRegsMap.opcode name)]

def aluOpTwoRegsOneImmEffect (name : String) (imm : BitVec 64) : Except AsmError Effect :=
  if name ≠ "sltsi" ∧ name ≠ "sgtsi" then do
    let op ← iog1TwoRegsOneImmMap.opcode name
    return { Effect.ofWords [instrOpcodeGroup1 regA regB op (imm.setWidth 32)] with
      warnings := imm16Warnings env imm }
  else do
    let op ← iog1TwoRegsOneSimmMap.opcode name
    return { Effect.ofWords [instrOpcodeGroup1 regA regB op (imm.setWidth 32)] with
      warnings := simm16Warnings env imm }

/-- The two words of `cpya`. -/
def cpyaWords (imm : BitVec 64) : Except AsmError (List (BitVec 32)) := do
  let firstOpcode ← iog1TwoRegsOneImmMap.opcode "addi"
  let secondOpcode ← iog1OneRegOneImmMap.opcode "cpyhi"
  return [instrOpcodeGroup1 regA 0x0 firstOpcode (imm.setWidth 32),
    instrOpcodeGroup1 regA 0x0 secondOpcode ((imm.sshiftRight 16).setWidth 32)]

def relativeBranchEffect (name : String) (rawImmediate : BitVec 64) : Except AsmError Effect := do
  let op ← iog2BranchMap.opcode name
  let imm := rawImmediate - env.pc - 4
  return { Effect.ofWords [instrOpcodeGroup2 regA regB op (imm.setWidth 32)] with
    warnings := branchWarnings env imm }

def jumpWord (name : String) : Except AsmError (BitVec 32) := do
  return instrOpcodeGroup3 regA regB regC (← iog3JumpMap.opcode name)

def callWord (name : String) : Except AsmError (BitVec 32) := do
  return instrOpcodeGroup4 regA regB regC (← iog4CallMap.opcode name)

def ldstThreeRegsEffect (name : String) : Except AsmError Effect := do
  return .ofWords [instrOpcodeGroup5NoSimm regA regB regC (← iog5ThreeRegsLdstMap.opcode name)]

def ldstTwoRegsOneSimmEffect (name : String) (imm : BitVec 64) : Except AsmError Effect := do
  let op ← iog5TwoRegsOneSimmLdstMap.opcode name
  return { Effect.ofWords [instrOpcodeGroup5WithSimm regA regB op (imm.setWidth 32)] with
    warnings := simm12Warnings env imm }

end Encode

/-- The operands of the six forms of `cpy` and of `ei`, `di` and `reti`. -/
def group6Effect (m : MapType) (name : String) (regA : BitVec 32) : Except AsmError Effect := do
  return .ofWords [instrOpcodeGroup6 regA 0x0 0x0 (← m.opcode name)]

/-- The register number as the encoders take it. -/
def TokReg.num (r : TokReg) : BitVec 32 := r.index.setWidth 32

/-- The effect of an instruction. -/
def Instruction.effect (env : Env) : Instruction → Except AsmError Effect
  | .instrOpGrp0ThreeRegs t rA rB rC => do
    aluOpThreeRegsEffect rA.num rB.num rC.num
      (← chainText VisitChain.instrOpGrp0ThreeRegs t "visitInstrOpGrp0ThreeRegs():  Eek!")
  | .instrOpGrp1TwoRegsOneImm t rA rB e => do
    let name ← chainText VisitChain.instrOpGrp1TwoRegsOneImm t
      "visitInstrOpGrp1TwoRegsOneImm():  Eek!"
    aluOpTwoRegsOneImmEffect env rA.num rB.num name (← e.eval env)
  | .instrOpGrp1TwoRegsOneSimm t rA rB e => do
    let name ← chainText VisitChain.instrOpGrp1TwoRegsOneSimm t
      "visitInstrOpGrp1TwoRegsOneSimm():  Eek!"
    aluOpTwoRegsOneImmEffect env rA.num rB.num name (← e.eval env)
  | .instrOpGrp1OneRegOnePcOneSimm rA e => do
    let op ← iog1OneRegOnePcOneSimmMap.opcode "addsi"
    return .ofWords [instrOpcodeGroup1 rA.num 0x0 op ((← e.eval env).setWidth 32)]
  | .instrOpGrp1OneRegOneImm rA e => do
    let op ← iog1OneRegOneImmMap.opcode "cpyhi"
    return .ofWords [instrOpcodeGroup1 rA.num 0x0 op ((← e.eval env).setWidth 32)]
  | .instrOpGrp2Branch t rA rB e => do
    let name ← chainText VisitChain.instrOpGrp2Branch t "visitInstrOpGrp2Branch():  Eek!"
    relativeBranchEffect env rA.num rB.num name (← e.eval env)
  | .instrOpGrp3Jump t rA rB rC => do
    let name ← chainText VisitChain.instrOpGrp3Jump t "visitInstrOpGrp3Jump():  Eek!"
    return .ofWords [← jumpWord rA.num rB.num rC.num name]
  | .instrOpGrp4Call t rA rB rC => do
    let name ← chainText VisitChain.instrOpGrp4Call t "visitInstrOpGrp4Call():  Eek!"
    return .ofWords [← callWord rA.num rB.num rC.num name]
  | .instrOpGrp5ThreeRegsLdst t rA rB rC => do
    ldstThreeRegsEffect rA.num rB.num rC.num
      (← chainText VisitChain.instrOpGrp5ThreeRegsLdst t "visitInstrOpGrp5ThreeRegsLdst():  Eek!")
  | .instrOpGrp5TwoRegsOneSimm12Ldst t rA rB e => do
    let name ← chainText VisitChain.instrOpGrp5TwoRegsOneSimm12Ldst t
      "visitInstrOpGrp5TwoRegsOneSimm12Ldst():  Eek!"
    ldstTwoRegsOneSimmEffect env rA.num rB.num name (← e.eval env)
  | .instrOpGrp6NoArgs t => do
    group6Effect iog6NoArgsMap
      (← chainText VisitChain.instrOpGrp6NoArgs t "visitInstrOpGrp6NoArgs():  Eek!") 0x0
  | .instrOpGrp6OneIretaOneReg rA => group6Effect iog6OneIretaOneRegMap "cpy" rA.num
  | .instrOpGrp6OneRegOneIreta rA => group6Effect iog6OneRegOneIretaMap "cpy" rA.num
  | .instrOpGrp6OneIdstaOneReg rA => group6Effect iog6OneIdstaOneRegMap "cpy" rA.num
  | .instrOpGrp6OneRegOneIdsta rA => group6Effect iog6OneRegOneIdstaMap "cpy" rA.num

/-- The instruction after the `cpya` of `jmpane`, `jmpaeq`, `callane` or `callaeq`. -/
def jmpaCallaConditionalWord (t : PseudoTok) (regA regB : BitVec 32) :
    Except AsmError (BitVec 32) :=
  match t with
  | .jmpane => jumpWord regA regB TokReg.temp.num "jne"
  | .jmpaeq => jumpWord regA regB TokReg.temp.num "jeq"
  | .callane => callWord regA regB TokReg.temp.num "cne"
  | .callaeq => callWord regA regB TokReg.temp.num "ceq"
  | _ => .error (.err "visitPseudoInstrOpJmpaCallaConditional():  Eek!")

/-- The effect of a pseudo-instruction. -/
def PseudoInstruction.effect (env : Env) : PseudoInstruction → Except AsmError Effect
  | .pseudoInstrOpInv rA rB => aluOpThreeRegsEffect rA.num rB.num 0x0 "nor"
  | .pseudoInstrOpInvi rA e => do
    aluOpTwoRegsOneImmEffect env rA.num 0x0 "nori" (← e.eval env)
  | .pseudoInstrOpGrpCpy rA (some rB) => aluOpThreeRegsEffect rA.num rB.num 0x0 "add"
  | .pseudoInstrOpGrpCpy rA none => do
    return .ofWords
      [instrOpcodeGroup1 rA.num 0x0 (← iog1OneRegOnePcOneSimmMap.opcode "addsi") 0x0000]
  | .pseudoInstrOpCpyi rA e => do
    aluOpTwoRegsOneImmEffect env rA.num 0x0 "addi" (← e.eval env)
  | .pseudoInstrOpCpya rA e => do return .ofWords (← cpyaWords rA.num (← e.eval env))
  | .pseudoInstrOpBra e => do relativeBranchEffect env 0x0 0x0 "beq" (← e.eval env)
  | .pseudoInstrOpJmp rC => do return .ofWords [← jumpWord 0x0 0x0 rC.num "jeq"]
  | .pseudoInstrOpCall rC => do return .ofWords [← callWord 0x0 0x0 rC.num "ceq"]
  | .pseudoInstrOpJmpa e => do
    let cpya ← cpyaWords TokReg.temp.num (← e.eval env)
    return .ofWords (cpya ++ [← jumpWord 0x0 0x0 TokReg.temp.num "jeq"])
  | .pseudoInstrOpCalla e => do
    let cpya ← cpyaWords TokReg.temp.num (← e.eval env)
    return .ofWords (cpya ++ [← callWord 0x0 0x0 TokReg.temp.num "ceq"])
  | .pseudoInstrOpJmpaCallaConditional t rA rB e => do
    let cpya ← cpyaWords TokReg.temp.num (← e.eval env)
    return .ofWords (cpya ++ [← jmpaCallaConditionalWord t rA.num rB.num])
  | .pseudoInstrOpIncDec t rA =>
    match t.val with
    | .inc => aluOpTwoRegsOneImmEffect env rA.num rA.num "addi" 1
    | .dec => aluOpTwoRegsOneImmEffect env rA.num rA.num "subi" 1
    | _ => .error (.err "visitPseudoInstrOpIncDec():  Eek!")
  | .pseudoInstrOpAluOpTwoReg t rA rB => do
    aluOpThreeRegsEffect rA.num rA.num rB.num
      (← chainText VisitChain.pseudoInstrOpAluOpTwoReg t "visitPseudoInstrOpAluOpTwoReg():  Eek!")
  | .pseudoInstrOpAluOpOneRegOneImm t rA e => do
    let name ← chainText VisitChain.pseudoInstrOpAluOpOneRegOneImm t
      "visitPseudoInstrOpAluOpOneRegOneImm():  Eek!"
    aluOpTwoRegsOneImmEffect env rA.num rA.num name (← e.eval env)
  | .pseudoInstrOpAluOpOneRegOneSimm t rA e => do
    let name ← chainText VisitChain.pseudoInstrOpAluOpOneRegOneSimm t
      "visitPseudoInstrOpAluOpOneRegOneSimm():  Eek!"
    aluOpTwoRegsOneImmEffect env rA.num rA.num name (← e.eval env)

/-! ### The visitors perform the effect -/

section Rules

variable {s s' : Assembler} {r : Except AsmError Effect}

/-- A chain of tokens, and what follows with the text of the token on the string stack. -/
theorem chain_bind_run (chain : List InstrTok) (t : InstrTok) (eek : String) {f : Unit → AsmM Unit}
    {g : String → Except AsmError Effect}
    (h : ∀ name, (f ()).run (s.pushStr name) = performing s (g name)) :
    (anyPushTokIf chain t eek >>= f).run s = performing s (chainText chain t eek >>= g) := by
  rw [StateT.run_bind, anyPushTokIf_run]
  cases chainText chain t eek with
  | error e => rfl
  | ok name => exact h name

/-- An operand expression, and what follows with its value. -/
theorem acceptExpr_bind_run (e : Expr) (henv : s'.env = s.env) {f : BitVec 64 → AsmM Unit}
    {g : BitVec 64 → Except AsmError Effect}
    (h : ∀ n, (f n).run s' = performing s (g n)) :
    (acceptExpr e >>= f).run s' = performing s (e.eval s.env >>= g) := by
  rw [StateT.run_bind, acceptExpr_run, henv]
  cases e.eval s.env with
  | error e => rfl
  | ok n => exact h n

/-- A look-up in an opcode map, and what follows with the opcode. -/
theorem at_bind_run (m : MapType) (key : String) {f : BitVec 32 → AsmM Unit}
    {g : BitVec 32 → Except AsmError Effect}
    (h : ∀ op, (f op).run s' = performing s (g op)) :
    (m.at key >>= f).run s' = performing s (m.opcode key >>= g) := by
  rw [StateT.run_bind, MapType.at_run]
  cases m.opcode key with
  | error e => rfl
  | ok op => exact h op

theorem getOneRegEncoding_bind_run (r : TokReg) (f : BitVec 32 → AsmM Unit) (s : Assembler) :
    (getOneRegEncoding r >>= f).run s = (f r.num).run s := by
  rw [StateT.run_bind, getOneRegEncoding_run]
  rfl

theorem getRegTempIndex_bind_run (f : BitVec 32 → AsmM Unit) (s : Assembler) :
    (getRegTempIndex >>= f).run s = (f TokReg.temp.num).run s :=
  getOneRegEncoding_bind_run .temp f s

theorem popStr_bind_run (str : String) (f : String → AsmM Unit) (s : Assembler) :
    (popStr >>= f).run (s.pushStr str) = (f str).run s := by
  rw [StateT.run_bind, popStr_run]
  rfl

end Rules

section EncodeRun

variable (regA regB regC : BitVec 32) (name : String) (imm : BitVec 64) (s : Assembler)

theorem gen32_performing (w : BitVec 32) :
    (gen32 w).run s = performing s (.ok (.ofWords [w])) := by
  rw [gen32_run, performing_ok, Assembler.perform, Effect.ofWords, Assembler.warnAll_nil]
  rfl

theorem encodeAluOpThreeRegs_run :
    (encodeAluOpThreeRegs regA regB regC name).run s =
      performing s (aluOpThreeRegsEffect regA regB regC name) :=
  at_bind_run _ _ fun _ => gen32_performing _ _

theorem encodeAluOpTwoRegsOneImm_run :
    (encodeAluOpTwoRegsOneImm regA regB name imm).run s =
      performing s (aluOpTwoRegsOneImmEffect s.env regA regB name imm) := by
  unfold encodeAluOpTwoRegsOneImm aluOpTwoRegsOneImmEffect
  by_cases hname : name ≠ "sltsi" ∧ name ≠ "sgtsi"
  · rw [if_pos hname, if_pos hname]
    apply at_bind_run
    intro op
    rw [StateT.run_bind, warnIfImm16OutOfRange_run]
    exact gen32_run _ _
  · rw [if_neg hname, if_neg hname]
    apply at_bind_run
    intro op
    rw [StateT.run_bind, warnIfSimm16OutOfRange_run]
    exact gen32_run _ _

theorem encodeRelativeBranch_run :
    (encodeRelativeBranch regA regB name imm).run s =
      performing s (relativeBranchEffect s.env regA regB name imm) := by
  apply at_bind_run
  intro op
  simp only [StateT.run_bind, StateT.run_get, except_pure, ok_bind, warnIfSimm16OutOfRange_run]
  exact gen32_run _ _

theorem encodeJump_run :
    (encodeJump regA regB regC name).run s =
      performing s (do return .ofWords [← jumpWord regA regB regC name]) := by
  unfold encodeJump jumpWord
  rw [bind_assoc]
  exact at_bind_run _ _ fun _ => gen32_performing _ _

theorem encodeCall_run :
    (encodeCall regA regB regC name).run s =
      performing s (do return .ofWords [← callWord regA regB regC name]) := by
  unfold encodeCall callWord
  rw [bind_assoc]
  exact at_bind_run _ _ fun _ => gen32_performing _ _

theorem encodeLdstThreeRegs_run :
    (encodeLdstThreeRegs regA regB regC name).run s =
      performing s (ldstThreeRegsEffect regA regB regC name) :=
  at_bind_run _ _ fun _ => gen32_performing _ _

theorem encodeLdstTwoRegsOneSimm_run :
    (encodeLdstTwoRegsOneSimm regA regB name imm).run s =
      performing s (ldstTwoRegsOneSimmEffect s.env regA regB name imm) := by
  apply at_bind_run
  intro op
  rw [StateT.run_bind, warnIfSimm12OutOfRange_run]
  exact gen32_run _ _

/-- `cpya` and an instruction after it. -/
theorem encodeCpya_bind_run {last : AsmM Unit} {word : Except AsmError (BitVec 32)}
    (hlast : ∀ s, last.run s = performing s (do return .ofWords [← word])) :
    (do encodeCpya regA imm; last : AsmM Unit).run s =
      performing s (do
        let cpya ← cpyaWords regA imm
        return .ofWords (cpya ++ [← word])) := by
  unfold encodeCpya cpyaWords
  simp only [bind_assoc]
  apply at_bind_run
  intro op₁
  rw [StateT.run_bind, show (encodeInstrOpcodeGroup1 regA 0 op₁ (imm.setWidth 32)).run s = _ from
    gen32_run _ s, ok_bind]
  apply at_bind_run
  intro op₂
  rw [StateT.run_bind, show (encodeInstrOpcodeGroup1 regA 0 op₂ _).run _ = _ from gen32_run _ _,
    ok_bind, hlast]
  cases word with
  | error e => rfl
  | ok w => simp [Assembler.perform, Effect.ofWords, Assembler.genAll]

theorem encodeCpya_run :
    (encodeCpya regA imm).run s = performing s (do return .ofWords (← cpyaWords regA imm)) := by
  unfold encodeCpya cpyaWords
  simp only [bind_assoc]
  apply at_bind_run
  intro op₁
  rw [StateT.run_bind, show (encodeInstrOpcodeGroup1 regA 0 op₁ (imm.setWidth 32)).run s = _ from
    gen32_run _ s, ok_bind]
  apply at_bind_run
  intro op₂
  rw [show (encodeInstrOpcodeGroup1 regA 0 op₂ _).run _ = _ from gen32_run _ _]
  simp [Assembler.perform, Effect.ofWords, Assembler.genAll]

/-- The instructions of group 6. -/
theorem group6_run (m : MapType) (key : String) :
    (do encodeInstrOpcodeGroup6 regA 0x0 0x0 (← m.at key) : AsmM Unit).run s =
      performing s (group6Effect m key regA) :=
  at_bind_run _ _ fun _ => gen32_performing _ _

end EncodeRun

/-- **The visitor of an instruction performs its effect.** -/
theorem visitInstruction_run (i : Instruction) (s : Assembler) :
    (visitInstruction i).run s = performing s (i.effect s.env) := by
  cases i with
  | instrOpGrp0ThreeRegs t rA rB rC =>
    apply chain_bind_run
    intro name
    rw [popStr_bind_run]
    apply at_bind_run
    intro op
    simp only [getOneRegEncoding_bind_run]
    exact gen32_performing _ _
  | instrOpGrp1TwoRegsOneImm t rA rB e =>
    apply chain_bind_run
    intro name
    simp only [getOneRegEncoding_bind_run]
    apply acceptExpr_bind_run e (Assembler.env_pushStr name s)
    intro imm
    rw [popStr_bind_run]
    exact encodeAluOpTwoRegsOneImm_run ..
  | instrOpGrp1TwoRegsOneSimm t rA rB e =>
    apply chain_bind_run
    intro name
    simp only [getOneRegEncoding_bind_run]
    apply acceptExpr_bind_run e (Assembler.env_pushStr name s)
    intro imm
    rw [popStr_bind_run]
    exact encodeAluOpTwoRegsOneImm_run ..
  | instrOpGrp1OneRegOnePcOneSimm rA e =>
    show (pushStr "addsi" >>= _).run s = _
    rw [StateT.run_bind, pushStr_run, ok_bind, popStr_bind_run]
    apply at_bind_run
    intro op
    apply acceptExpr_bind_run e rfl
    intro imm
    rw [getOneRegEncoding_bind_run]
    exact gen32_performing _ _
  | instrOpGrp1OneRegOneImm rA e =>
    show (pushStr "cpyhi" >>= _).run s = _
    rw [StateT.run_bind, pushStr_run, ok_bind, popStr_bind_run]
    apply at_bind_run
    intro op
    apply acceptExpr_bind_run e rfl
    intro imm
    rw [getOneRegEncoding_bind_run]
    exact gen32_performing _ _
  | instrOpGrp2Branch t rA rB e =>
    apply chain_bind_run
    intro name
    simp only [getOneRegEncoding_bind_run]
    apply acceptExpr_bind_run e (Assembler.env_pushStr name s)
    intro imm
    rw [popStr_bind_run]
    exact encodeRelativeBranch_run ..
  | instrOpGrp3Jump t rA rB rC =>
    apply chain_bind_run
    intro name
    simp only [getOneRegEncoding_bind_run, popStr_bind_run]
    exact encodeJump_run ..
  | instrOpGrp4Call t rA rB rC =>
    apply chain_bind_run
    intro name
    simp only [getOneRegEncoding_bind_run, popStr_bind_run]
    exact encodeCall_run ..
  | instrOpGrp5ThreeRegsLdst t rA rB rC =>
    apply chain_bind_run
    intro name
    simp only [getOneRegEncoding_bind_run, popStr_bind_run]
    exact encodeLdstThreeRegs_run ..
  | instrOpGrp5TwoRegsOneSimm12Ldst t rA rB e =>
    apply chain_bind_run
    intro name
    simp only [getOneRegEncoding_bind_run]
    apply acceptExpr_bind_run e (Assembler.env_pushStr name s)
    intro imm
    rw [popStr_bind_run]
    exact encodeLdstTwoRegsOneSimm_run ..
  | instrOpGrp6NoArgs t =>
    apply chain_bind_run
    intro name
    rw [popStr_bind_run]
    exact group6_run ..
  | instrOpGrp6OneIretaOneReg rA =>
    apply at_bind_run
    intro op
    rw [getOneRegEncoding_bind_run]
    exact gen32_performing _ _
  | instrOpGrp6OneRegOneIreta rA =>
    apply at_bind_run
    intro op
    rw [getOneRegEncoding_bind_run]
    exact gen32_performing _ _
  | instrOpGrp6OneIdstaOneReg rA =>
    apply at_bind_run
    intro op
    rw [getOneRegEncoding_bind_run]
    exact gen32_performing _ _
  | instrOpGrp6OneRegOneIdsta rA =>
    apply at_bind_run
    intro op
    rw [getOneRegEncoding_bind_run]
    exact gen32_performing _ _

/-- **The visitor of a pseudo-instruction performs its effect.** -/
theorem visitPseudoInstruction_run (p : PseudoInstruction) (s : Assembler) :
    (visitPseudoInstruction p).run s = performing s (p.effect s.env) := by
  cases p with
  | pseudoInstrOpInv rA rB =>
    simp only [visitPseudoInstruction, getOneRegEncoding_bind_run]
    exact encodeAluOpThreeRegs_run ..
  | pseudoInstrOpInvi rA e =>
    apply acceptExpr_bind_run e rfl
    intro imm
    rw [getOneRegEncoding_bind_run]
    exact encodeAluOpTwoRegsOneImm_run ..
  | pseudoInstrOpGrpCpy rA rB =>
    cases rB with
    | some rB =>
      simp only [visitPseudoInstruction, getOneRegEncoding_bind_run]
      exact at_bind_run _ _ fun _ => gen32_performing _ _
    | none =>
      simp only [visitPseudoInstruction, getOneRegEncoding_bind_run]
      exact at_bind_run _ _ fun _ => gen32_performing _ _
  | pseudoInstrOpCpyi rA e =>
    apply acceptExpr_bind_run e rfl
    intro imm
    rw [getOneRegEncoding_bind_run]
    exact encodeAluOpTwoRegsOneImm_run ..
  | pseudoInstrOpCpya rA e =>
    apply acceptExpr_bind_run e rfl
    intro imm
    rw [getOneRegEncoding_bind_run]
    exact encodeCpya_run ..
  | pseudoInstrOpBra e =>
    apply acceptExpr_bind_run e rfl
    intro imm
    exact encodeRelativeBranch_run ..
  | pseudoInstrOpJmp rC =>
    simp only [visitPseudoInstruction, getOneRegEncoding_bind_run]
    exact encodeJump_run ..
  | pseudoInstrOpCall rC =>
    simp only [visitPseudoInstruction, getOneRegEncoding_bind_run]
    exact encodeCall_run ..
  | pseudoInstrOpJmpa e =>
    apply acceptExpr_bind_run e rfl
    intro imm
    rw [getRegTempIndex_bind_run]
    apply encodeCpya_bind_run
    intro s
    rw [getRegTempIndex_bind_run]
    exact encodeJump_run ..
  | pseudoInstrOpCalla e =>
    apply acceptExpr_bind_run e rfl
    intro imm
    rw [getRegTempIndex_bind_run]
    apply encodeCpya_bind_run
    intro s
    rw [getRegTempIndex_bind_run]
    exact encodeCall_run ..
  | pseudoInstrOpJmpaCallaConditional t rA rB e =>
    apply acceptExpr_bind_run e rfl
    intro imm
    simp only [getOneRegEncoding_bind_run, getRegTempIndex_bind_run]
    apply encodeCpya_bind_run
    intro s
    cases t.val with
    | jmpane | jmpaeq =>
      simp only [getRegTempIndex_bind_run]
      exact encodeJump_run ..
    | callane | callaeq =>
      simp only [getRegTempIndex_bind_run]
      exact encodeCall_run ..
    | _ => rfl
  | pseudoInstrOpIncDec t rA =>
    simp only [visitPseudoInstruction, PseudoInstruction.effect]
    cases t.val with
    | inc | dec =>
      simp only [getOneRegEncoding_bind_run]
      exact encodeAluOpTwoRegsOneImm_run ..
    | _ => rfl
  | pseudoInstrOpAluOpTwoReg t rA rB =>
    apply chain_bind_run
    intro name
    simp only [getOneRegEncoding_bind_run, popStr_bind_run]
    exact encodeAluOpThreeRegs_run ..
  | pseudoInstrOpAluOpOneRegOneImm t rA e =>
    apply chain_bind_run
    intro name
    apply acceptExpr_bind_run e (Assembler.env_pushStr name s)
    intro imm
    simp only [popStr_bind_run, getOneRegEncoding_bind_run]
    exact encodeAluOpTwoRegsOneImm_run ..
  | pseudoInstrOpAluOpOneRegOneSimm t rA e =>
    apply chain_bind_run
    intro name
    apply acceptExpr_bind_run e (Assembler.env_pushStr name s)
    intro imm
    simp only [popStr_bind_run, getOneRegEncoding_bind_run]
    exact encodeAluOpTwoRegsOneImm_run ..

end Frost32.Asm
