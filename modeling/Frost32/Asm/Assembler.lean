import Frost32.Asm.AssemblerGrammar
import Frost32.Asm.EncodingStuff
import Frost32.Asm.SymbolTable

namespace Frost32.Asm

/-!
# `Assembler`

The two-pass assembler as a visitor of the parse tree, visitor by visitor.

* `Assembler` — the state: symbol table, program counter pair, the three stacks, the pass,
  and what has been printed to `stdout` and to `stderr`.
* `AsmError` — the ways a run can end early: `err()` exits with a message, `at()` throws for
  an unknown key or index, an integer division traps, a `top()` of an empty stack is
  undefined.
* `genWords` to `gen32` — the output routines.
* `visitExpr` to `visitLine` — the visitors.
* `run` — the two passes.

`s64` and `u64` values are both `BitVec 64`.  Signed overflow wraps and shift amounts are
taken modulo 64, as on the machines the assembler is built for.  The position that `err` and
`warn` print in front of their message is left out.
-/

structure PrevCurrPair (α : Type) where
  prev : α
  curr : α
  deriving DecidableEq

namespace PrevCurrPair

variable {α : Type}

def backUp (p : PrevCurrPair α) : PrevCurrPair α := { p with prev := p.curr }

def hasChanged [DecidableEq α] (p : PrevCurrPair α) : Bool := p.prev ≠ p.curr

end PrevCurrPair

inductive AsmError
  | err (msg : String)
  | outOfRange
  | trap
  | undefined
  deriving DecidableEq, Repr

structure Assembler where
  symTbl : SymbolTable
  pc : PrevCurrPair (BitVec 64)
  numStack : List (BitVec 64)
  scopeChildNumStack : List Nat
  strStack : List String
  pass : Nat
  showWords : Bool
  currScopeNode : Nat
  out : List Char
  warnings : List String

abbrev AsmM := StateT Assembler (Except AsmError)

/-- A constructed assembler. -/
def Assembler.init (showWords : Bool) : Assembler where
  symTbl := .init
  pc := ⟨0, 0⟩
  numStack := []
  scopeChildNumStack := []
  strStack := []
  pass := 0
  showWords := showWords
  currScopeNode := 0
  out := []
  warnings := []

/-! ### Errors, stacks and look-ups -/

def err (msg : String) : AsmM Unit := throw (.err msg)

def warn (msg : String) : AsmM Unit :=
  modify fun s => { s with warnings := s.warnings ++ [msg] }

def pushNum (n : BitVec 64) : AsmM Unit :=
  modify fun s => { s with numStack := n :: s.numStack }

def popNum : AsmM (BitVec 64) := do
  match (← get).numStack with
  | n :: rest =>
    modify fun s => { s with numStack := rest }
    return n
  | [] => throw .undefined

def pushStr (str : String) : AsmM Unit :=
  modify fun s => { s with strStack := str :: s.strStack }

def popStr : AsmM String := do
  match (← get).strStack with
  | str :: rest =>
    modify fun s => { s with strStack := rest }
    return str
  | [] => throw .undefined

def pushScopeChildNum (n : Nat) : AsmM Unit :=
  modify fun s => { s with scopeChildNumStack := n :: s.scopeChildNumStack }

def getTopScopeChildNum : AsmM Nat := do
  match (← get).scopeChildNumStack with
  | n :: _ => return n
  | [] => throw .undefined

def popScopeChildNum : AsmM Nat := do
  match (← get).scopeChildNumStack with
  | n :: rest =>
    modify fun s => { s with scopeChildNumStack := rest }
    return n
  | [] => throw .undefined

/-- `at` of a vector or a map: an unknown index or key throws. -/
def orThrow {α : Type} : Option α → AsmM α
  | some x => return x
  | none => throw .outOfRange

/-- `at` of an opcode map; the result is passed on as a `u32`. -/
def MapType.at (m : MapType) (key : String) : AsmM (BitVec 32) := do
  return (← orThrow (m.lookup key)).setWidth 32

def getOneRegEncoding (r : TokReg) : AsmM (BitVec 32) := regNamesMap.at r.text

/-- `find_or_insert` from the current scope; a null result would be dereferenced. -/
def symTblFindOrInsert (name : String) : AsmM Nat := do
  let s ← get
  let (sym, t) := s.symTbl.findOrInsert s.currScopeNode name
  set { s with symTbl := t }
  match sym with
  | some v => return v
  | none => throw .undefined

/-- `ANY_PUSH_TOK_IF` chains: push the text of the token if the visitor lists it. -/
def anyPushTokIf (chain : List InstrTok) (t : InstrTok) (eek : String) : AsmM Unit :=
  if t ∈ chain then pushStr t.text else err eek

/-! ### Output -/

def printout (cs : List Char) : AsmM Unit :=
  modify fun s => { s with out := s.out ++ cs }

/-- An unsigned number printed in base 16. -/
def hexText {w : Nat} (n : BitVec w) : List Char := Nat.toDigits 16 n.toNat

/-- A byte printed with a leading 0 where `std::hex` would give one digit. -/
def hexByteText (b : BitVec 32) : List Char :=
  if b.ult 0x10 then '0' :: hexText b else hexText b

def Assembler.addrLineText (s : Assembler) : List Char :=
  if s.pc.hasChanged then '@' :: hexText s.pc.curr ++ ['\n'] else []

/-- `__pc.curr += n` and `__pc.back_up()`. -/
def Assembler.advance (n : BitVec 64) (s : Assembler) : Assembler :=
  { s with pc := { s.pc with curr := s.pc.curr + n }.backUp }

def genWords (data : BitVec 16) : AsmM Unit := do
  let s ← get
  -- pass 0 only counts
  if s.pass ≠ 0 then
    printout s.addrLineText
    printout (hexByteText ((getBitsWithRange data 15 8).setWidth 32))
    printout (hexByteText ((getBitsWithRange data 7 0).setWidth 32))
  modify (Assembler.advance 2)

def gen8 (data : BitVec 8) : AsmM Unit := do
  let s ← get
  if s.pass ≠ 0 then
    printout s.addrLineText
    printout (hexByteText (data.setWidth 32))
  modify (Assembler.advance 1)
  if s.pass ≠ 0 then
    printout ['\n']

def gen16 (data : BitVec 16) : AsmM Unit := do
  let s ← get
  if s.showWords then
    genWords data
    if s.pass ≠ 0 then
      printout ['\n']
  else
    gen8 ((getBitsWithRange data 15 8).setWidth 8)
    gen8 ((getBitsWithRange data 7 0).setWidth 8)

def gen32 (data : BitVec 32) : AsmM Unit := do
  let s ← get
  if s.showWords then
    genWords ((getBitsWithRange data 31 16).setWidth 16)
    if s.pass ≠ 0 then
      printout [' ']
    genWords ((getBitsWithRange data 15 0).setWidth 16)
    if s.pass ≠ 0 then
      printout ['\n']
  else
    -- most significant byte first
    gen8 ((getBitsWithRange data 31 24).setWidth 8)
    gen8 ((getBitsWithRange data 23 16).setWidth 8)
    gen8 ((getBitsWithRange data 15 8).setWidth 8)
    gen8 ((getBitsWithRange data 7 0).setWidth 8)

/-! ### Names and expressions -/

def visitIdentName : IdentName → AsmM Unit
  | .instrName t => anyPushTokIf InstrTok.all t "visitInstrName():  Eek!"
  | n => pushStr n.text

/-- The value of a hexadecimal digit; none stands for the `Eek!` exit. -/
def hexDigitValue (c : Char) : Option Nat :=
  if '0' ≤ c ∧ c ≤ '9' then some (c.toNat - '0'.toNat)
  else if 'a' ≤ c ∧ c ≤ 'f' then some (c.toNat - 'a'.toNat + 0xa)
  else if 'A' ≤ c ∧ c ≤ 'F' then some (c.toNat - 'A'.toNat + 0xa)
  else none

/-- The loop over the digits after `0x`: shift left by 4 and fill in the digit.  None stands
    for the `Eek!` exit. -/
def hexValue {w : Nat} (temp : BitVec w) : List Char → Option (BitVec w)
  | [] => some temp
  | c :: cs => do hexValue (temp <<< 4 ||| BitVec.ofNat w (← hexDigitValue c)) cs

/-- Reading an `s64` from a string stream: a number that does not fit gives the largest
    one. -/
def decValue (digits : List Char) : BitVec 64 :=
  BitVec.ofNat 64 (min (Nat.ofDigitChars 10 digits 0) (2 ^ 63 - 1))

def visitNumExpr : NumExpr → AsmM Unit
  | .decNum ds => pushNum (decValue ds)
  | .hexNum ds =>
    match hexValue 0 ds.val with
    | some n => pushNum n
    | none => err "visitNumExpr():  Eek!"
  | .binNum _ => err "Sorry, binary literal numbers are not supported yet."

def visitCurrPc : AsmM Unit := do pushNum (← get).pc.curr

def ofBool64 (b : Bool) : BitVec 64 := if b then 1 else 0

def opLogicalValue (op : TokOpLogical) (left right : BitVec 64) : BitVec 64 :=
  match op with
  | .and => ofBool64 (left != 0 && right != 0)
  | .or => ofBool64 (left != 0 || right != 0)

def opCompareValue (op : TokOpCompare) (left right : BitVec 64) : BitVec 64 :=
  match op with
  | .eq => ofBool64 (left == right)
  | .ne => ofBool64 (left != right)
  | .lt => ofBool64 (left.slt right)
  | .gt => ofBool64 (right.slt left)
  | .le => ofBool64 (left.sle right)
  | .ge => ofBool64 (right.sle left)

/-- The quotient or remainder of `s64` values; dividing by 0, or the least value by -1,
    traps. -/
def signedDivOp (op : BitVec 64 → BitVec 64 → BitVec 64) (left right : BitVec 64) :
    AsmM (BitVec 64) :=
  if right = 0 ∨ left = BitVec.intMin 64 ∧ right = -1 then throw .trap else return op left right

def opMulDivModVisit (op : TokOpMulDivMod) (left right : BitVec 64) : AsmM Unit := do
  match op with
  | .mul => pushNum (left * right)
  | .div =>
    if right ≠ 0 then
      pushNum (← signedDivOp BitVec.sdiv left right)
    else if (← get).pass ≠ 0 then
      err "Error:  Cannot divide by zero!"
    else
      -- labels are still unknown in pass 0, where a quotient by 0 is let through
      pushNum 0
  | .mod => pushNum (← signedDivOp BitVec.srem left right)

def opBitwiseValue (op : TokOpBitwise) (left right : BitVec 64) : BitVec 64 :=
  -- shift counts are taken modulo the width
  let amount := right.toNat % 64
  match op with
  | .and => left &&& right
  | .or => left ||| right
  | .xor => left ^^^ right
  | .shl => left <<< amount
  | .shr => left >>> amount
  | .sar => left.sshiftRight amount

/-- The alternative `identName` of `visitExprMulDivModEtc`. -/
def visitExprIdentName (n : IdentName) : AsmM Unit := do
  visitIdentName n
  if (← get).pass = 0 then
    -- no label has an address yet
    let _ ← popStr
    pushNum 0
  else
    let name ← popStr
    let sym ← symTblFindOrInsert name
    let s ← get
    -- Only allow known symbols to be used.
    if !(s.symTbl.deref name sym).foundAsLabel then
      err ("Error:  Unknown symbol called \"" ++ name ++ "\".")
    pushNum (s.symTbl.deref name sym).addr

mutual

def visitExpr : Expr → AsmM Unit
  | .opLogical l op r => do
    visitExpr l
    let left ← popNum
    visitExprLogical r
    let right ← popNum
    pushNum (opLogicalValue op left right)
  | .exprLogical e => visitExprLogical e

def visitExprLogical : ExprLogical → AsmM Unit
  | .opCompare l op r => do
    visitExprLogical l
    let left ← popNum
    visitExprCompare r
    let right ← popNum
    pushNum (opCompareValue op left right)
  | .exprCompare e => visitExprCompare e

/-- Together with `visitExprJustAdd` and `visitExprJustSub`. -/
def visitExprCompare : ExprCompare → AsmM Unit
  | .exprAddSub e => visitExprAddSub e
  | .exprJustAdd l r => do
    visitExprAddSub l
    let left ← popNum
    visitExprCompare r
    let right ← popNum
    pushNum (left + right)
  | .exprJustSub l r => do
    visitExprAddSub l
    let left ← popNum
    visitExprCompare r
    let right ← popNum
    pushNum (left - right)

def visitExprAddSub : ExprAddSub → AsmM Unit
  | .opMulDivMod l op r => do
    visitExprAddSub l
    let left ← popNum
    visitExprMulDivModEtc r
    let right ← popNum
    opMulDivModVisit op left right
  | .opBitwise l op r => do
    visitExprAddSub l
    let left ← popNum
    visitExprMulDivModEtc r
    let right ← popNum
    pushNum (opBitwiseValue op left right)
  | .exprMulDivModEtc e => visitExprMulDivModEtc e

def visitExprMulDivModEtc : ExprMulDivModEtc → AsmM Unit
  | .exprUnary e => visitExprUnary e
  | .numExpr n => visitNumExpr n
  | .identName n => visitExprIdentName n
  | .currPc => visitCurrPc
  | .paren e => visitExpr e

/-- Together with `visitExprBitInvert`, `visitExprNegate` and `visitExprLogNot`. -/
def visitExprUnary : ExprUnary → AsmM Unit
  | .exprBitInvert e => do
    visitExpr e
    pushNum (~~~(← popNum))
  | .exprNegate e => do
    visitExpr e
    pushNum (-(← popNum))
  | .exprLogNot e => do
    visitExpr e
    pushNum (ofBool64 ((← popNum) == 0))

end

/-- `ANY_JUST_ACCEPT_BASIC(ctx->expr())` and `pop_num()`. -/
def acceptExpr (e : Expr) : AsmM (BitVec 64) := do
  visitExpr e
  popNum

/-! ### Range warnings -/

def immWarningText (imm : BitVec 64) (what : String) : String :=
  "immediate value 0x" ++ String.ofList (hexText imm) ++ " out of range for for " ++ what ++
    " immediate."

/-- Whether the value survives being cut to an unsigned 16-bit field. -/
def fitsImm16 (imm : BitVec 64) : Bool := imm == (imm.setWidth 16).setWidth 64
/-- Whether the value survives being cut to a signed field of `n` bits. -/
def fitsSimm (n : Nat) (imm : BitVec 64) : Bool := imm == (imm.setWidth n).signExtend 64

def warnIfImm16OutOfRange (imm : BitVec 64) : AsmM Unit := do
  if (← get).pass ≠ 0 then
    if !fitsImm16 imm then
      warn (immWarningText imm "16-bit unsigned")

def warnIfSimm16OutOfRange (imm : BitVec 64) (isForBranch : Bool) : AsmM Unit := do
  if (← get).pass ≠ 0 then
    if !fitsSimm 16 imm then
      if !isForBranch then
        warn (immWarningText imm "16-bit signed")
      else
        warn ("branch offset 0x" ++ String.ofList (hexText imm) ++
          " out of range because it doesn't fit in a 16-bit signed immediate.")

def warnIfSimm12OutOfRange (imm : BitVec 64) : AsmM Unit := do
  if (← get).pass ≠ 0 then
    if !fitsSimm 12 imm then
      warn (immWarningText imm "12-bit signed")

/-! ### Encoding -/

section Encode

variable (regA regB regC opcode immediate : BitVec 32)

def encodeInstrOpcodeGroup0 : AsmM Unit := gen32 (instrOpcodeGroup0 regA regB regC opcode)
def encodeInstrOpcodeGroup1 : AsmM Unit := gen32 (instrOpcodeGroup1 regA regB opcode immediate)
def encodeInstrOpcodeGroup2 : AsmM Unit := gen32 (instrOpcodeGroup2 regA regB opcode immediate)
def encodeInstrOpcodeGroup3 : AsmM Unit := gen32 (instrOpcodeGroup3 regA regB regC opcode)
def encodeInstrOpcodeGroup4 : AsmM Unit := gen32 (instrOpcodeGroup4 regA regB regC opcode)
def encodeInstrOpcodeGroup5NoSimm : AsmM Unit :=
  gen32 (instrOpcodeGroup5NoSimm regA regB regC opcode)
def encodeInstrOpcodeGroup5WithSimm : AsmM Unit :=
  gen32 (instrOpcodeGroup5WithSimm regA regB opcode immediate)
def encodeInstrOpcodeGroup6 : AsmM Unit := gen32 (instrOpcodeGroup6 regA regB regC opcode)

def encodeAluOpThreeRegs (instrName : String) : AsmM Unit := do
  encodeInstrOpcodeGroup0 regA regB regC (← iog0ThreeRegsMap.at instrName)

def encodeAluOpTwoRegsOneImm (instrName : String) (imm : BitVec 64) : AsmM Unit := do
  if instrName ≠ "sltsi" ∧ instrName ≠ "sgtsi" then
    let op ← iog1TwoRegsOneImmMap.at instrName
    warnIfImm16OutOfRange imm
    encodeInstrOpcodeGroup1 regA regB op (imm.setWidth 32)
  else
    let op ← iog1TwoRegsOneSimmMap.at instrName
    warnIfSimm16OutOfRange imm false
    encodeInstrOpcodeGroup1 regA regB op (imm.setWidth 32)

def encodeInv : AsmM Unit := encodeAluOpThreeRegs regA regB 0x0 "nor"

def encodeInvi (imm : BitVec 64) : AsmM Unit := encodeAluOpTwoRegsOneImm regA 0x0 "nori" imm

def encodeCpyRaRb : AsmM Unit := do
  encodeInstrOpcodeGroup0 regA regB 0x0 (← iog0ThreeRegsMap.at "add")

def encodeCpyRaPc : AsmM Unit := do
  encodeInstrOpcodeGroup1 regA 0x0 (← iog1OneRegOnePcOneSimmMap.at "addsi") 0x0000

def encodeCpyi (imm : BitVec 64) : AsmM Unit := encodeAluOpTwoRegsOneImm regA 0x0 "addi" imm

/-- The second immediate is `immediate >> 16`, an arithmetic shift. -/
def encodeCpya (imm : BitVec 64) : AsmM Unit := do
  let firstOpcode ← iog1TwoRegsOneImmMap.at "addi"
  encodeInstrOpcodeGroup1 regA 0x0 firstOpcode (imm.setWidth 32)
  let secondOpcode ← iog1OneRegOneImmMap.at "cpyhi"
  encodeInstrOpcodeGroup1 regA 0x0 secondOpcode ((imm.sshiftRight 16).setWidth 32)

def encodeRelativeBranch (instrName : String) (rawImmediate : BitVec 64) : AsmM Unit := do
  let op ← iog2BranchMap.at instrName
  let imm := rawImmediate - (← get).pc.curr - 4
  warnIfSimm16OutOfRange imm true
  encodeInstrOpcodeGroup2 regA regB op (imm.setWidth 32)

def encodeJump (instrName : String) : AsmM Unit := do
  encodeInstrOpcodeGroup3 regA regB regC (← iog3JumpMap.at instrName)

def encodeCall (instrName : String) : AsmM Unit := do
  encodeInstrOpcodeGroup4 regA regB regC (← iog4CallMap.at instrName)

def encodeLdstThreeRegs (instrName : String) : AsmM Unit := do
  encodeInstrOpcodeGroup5NoSimm regA regB regC (← iog5ThreeRegsLdstMap.at instrName)

def encodeLdstTwoRegsOneSimm (instrName : String) (imm : BitVec 64) : AsmM Unit := do
  let op ← iog5TwoRegsOneSimmLdstMap.at instrName
  warnIfSimm12OutOfRange imm
  encodeInstrOpcodeGroup5WithSimm regA regB op (imm.setWidth 32)

end Encode

def getRegTempIndex : AsmM (BitVec 32) := regNamesMap.at "temp"

/-! ### Instructions -/

namespace VisitChain

open InstrTok

/-- The tokens each visitor of an instruction looks for. -/
def instrOpGrp0ThreeRegs : List InstrTok :=
  [add, sub, sltu, slts, sgtu, sgts, mul, and, orr, xor, lsl, lsr, asr, udiv, sdiv]
def instrOpGrp1TwoRegsOneImm : List InstrTok :=
  [addi, subi, sltui, sgtui, muli, andi, orri, xori, lsli, lsri, asri]
def instrOpGrp1TwoRegsOneSimm : List InstrTok := [sltsi, sgtsi]
def instrOpGrp1OneRegOnePcOneSimm : List InstrTok := [addsi]
def instrOpGrp1OneRegOneImm : List InstrTok := [cpyhi]
def instrOpGrp2Branch : List InstrTok :=
  [bne, beq, bltu, bgeu, bleu, bgtu, blts, bges, bles, bgts]
def instrOpGrp3Jump : List InstrTok :=
  [jne, jeq, jltu, jgeu, jleu, jgtu, jlts, jges, jles, jgts]
def instrOpGrp4Call : List InstrTok :=
  [cne, ceq, cltu, cgeu, cleu, cgtu, clts, cges, cles, cgts]
def instrOpGrp5ThreeRegsLdst : List InstrTok := [ldr, ldh, ldsh, ldb, ldsb, str, sth, stb]
def instrOpGrp5TwoRegsOneSimm12Ldst : List InstrTok :=
  [ldri, ldhi, ldshi, ldbi, ldsbi, stri, sthi, stbi]
def instrOpGrp6NoArgs : List InstrTok := [ei, di, reti]
def pseudoInstrOpAluOpTwoReg : List InstrTok :=
  [add, sub, sltu, slts, sgtu, sgts, mul, and, orr, xor, nor, lsl, lsr, asr, udiv, sdiv]
def pseudoInstrOpAluOpOneRegOneImm : List InstrTok :=
  [addi, subi, sltui, sgtui, muli, andi, orri, xori, nori, lsli, lsri, asri]
def pseudoInstrOpAluOpOneRegOneSimm : List InstrTok := [sltsi, sgtsi]

end VisitChain

/-- One visitor for each alternative of rule `instruction`. -/
def visitInstruction : Instruction → AsmM Unit
  | .instrOpGrp0ThreeRegs t rA rB rC => do
    anyPushTokIf VisitChain.instrOpGrp0ThreeRegs t "visitInstrOpGrp0ThreeRegs():  Eek!"
    let opcode ← iog0ThreeRegsMap.at (← popStr)
    encodeInstrOpcodeGroup0 (← getOneRegEncoding rA) (← getOneRegEncoding rB)
      (← getOneRegEncoding rC) opcode
  | .instrOpGrp1TwoRegsOneImm t rA rB e => do
    anyPushTokIf VisitChain.instrOpGrp1TwoRegsOneImm t "visitInstrOpGrp1TwoRegsOneImm():  Eek!"
    let regA ← getOneRegEncoding rA
    let regB ← getOneRegEncoding rB
    let immediate ← acceptExpr e
    encodeAluOpTwoRegsOneImm regA regB (← popStr) immediate
  | .instrOpGrp1TwoRegsOneSimm t rA rB e => do
    anyPushTokIf VisitChain.instrOpGrp1TwoRegsOneSimm t
      "visitInstrOpGrp1TwoRegsOneSimm():  Eek!"
    let regA ← getOneRegEncoding rA
    let regB ← getOneRegEncoding rB
    let immediate ← acceptExpr e
    encodeAluOpTwoRegsOneImm regA regB (← popStr) immediate
  | .instrOpGrp1OneRegOnePcOneSimm rA e => do
    anyPushTokIf VisitChain.instrOpGrp1OneRegOnePcOneSimm .addsi
      "visitInstrOpGrp1OneRegOnePcOneSimm():  Eek!"
    let opcode ← iog1OneRegOnePcOneSimmMap.at (← popStr)
    let immediate ← acceptExpr e
    encodeInstrOpcodeGroup1 (← getOneRegEncoding rA) 0x0 opcode (immediate.setWidth 32)
  | .instrOpGrp1OneRegOneImm rA e => do
    anyPushTokIf VisitChain.instrOpGrp1OneRegOneImm .cpyhi
      "visitInstrOpGrp1OneRegOneImm():  Eek!"
    let opcode ← iog1OneRegOneImmMap.at (← popStr)
    let immediate ← acceptExpr e
    encodeInstrOpcodeGroup1 (← getOneRegEncoding rA) 0x0 opcode (immediate.setWidth 32)
  | .instrOpGrp2Branch t rA rB e => do
    anyPushTokIf VisitChain.instrOpGrp2Branch t "visitInstrOpGrp2Branch():  Eek!"
    let regA ← getOneRegEncoding rA
    let regB ← getOneRegEncoding rB
    let rawImmediate ← acceptExpr e
    encodeRelativeBranch regA regB (← popStr) rawImmediate
  | .instrOpGrp3Jump t rA rB rC => do
    anyPushTokIf VisitChain.instrOpGrp3Jump t "visitInstrOpGrp3Jump():  Eek!"
    let regA ← getOneRegEncoding rA
    let regB ← getOneRegEncoding rB
    let regC ← getOneRegEncoding rC
    encodeJump regA regB regC (← popStr)
  | .instrOpGrp4Call t rA rB rC => do
    anyPushTokIf VisitChain.instrOpGrp4Call t "visitInstrOpGrp4Call():  Eek!"
    let regA ← getOneRegEncoding rA
    let regB ← getOneRegEncoding rB
    let regC ← getOneRegEncoding rC
    encodeCall regA regB regC (← popStr)
  | .instrOpGrp5ThreeRegsLdst t rA rB rC => do
    anyPushTokIf VisitChain.instrOpGrp5ThreeRegsLdst t "visitInstrOpGrp5ThreeRegsLdst():  Eek!"
    let regA ← getOneRegEncoding rA
    let regB ← getOneRegEncoding rB
    let regC ← getOneRegEncoding rC
    encodeLdstThreeRegs regA regB regC (← popStr)
  | .instrOpGrp5TwoRegsOneSimm12Ldst t rA rB e => do
    anyPushTokIf VisitChain.instrOpGrp5TwoRegsOneSimm12Ldst t
      "visitInstrOpGrp5TwoRegsOneSimm12Ldst():  Eek!"
    let regA ← getOneRegEncoding rA
    let regB ← getOneRegEncoding rB
    let immediate ← acceptExpr e
    encodeLdstTwoRegsOneSimm regA regB (← popStr) immediate
  | .instrOpGrp6NoArgs t => do
    anyPushTokIf VisitChain.instrOpGrp6NoArgs t "visitInstrOpGrp6NoArgs():  Eek!"
    let opcode ← iog6NoArgsMap.at (← popStr)
    encodeInstrOpcodeGroup6 0x0 0x0 0x0 opcode
  | .instrOpGrp6OneIretaOneReg rA => do
    let opcode ← iog6OneIretaOneRegMap.at "cpy"
    encodeInstrOpcodeGroup6 (← getOneRegEncoding rA) 0x0 0x0 opcode
  | .instrOpGrp6OneRegOneIreta rA => do
    let opcode ← iog6OneRegOneIretaMap.at "cpy"
    encodeInstrOpcodeGroup6 (← getOneRegEncoding rA) 0x0 0x0 opcode
  | .instrOpGrp6OneIdstaOneReg rA => do
    let opcode ← iog6OneIdstaOneRegMap.at "cpy"
    encodeInstrOpcodeGroup6 (← getOneRegEncoding rA) 0x0 0x0 opcode
  | .instrOpGrp6OneRegOneIdsta rA => do
    let opcode ← iog6OneRegOneIdstaMap.at "cpy"
    encodeInstrOpcodeGroup6 (← getOneRegEncoding rA) 0x0 0x0 opcode

/-- One visitor for each alternative of rule `pseudoInstruction`. -/
def visitPseudoInstruction : PseudoInstruction → AsmM Unit
  | .pseudoInstrOpInv rA rB => do
    encodeInv (← getOneRegEncoding rA) (← getOneRegEncoding rB)
  | .pseudoInstrOpInvi rA e => do
    let immediate ← acceptExpr e
    encodeInvi (← getOneRegEncoding rA) immediate
  | .pseudoInstrOpGrpCpy rA (some rB) => do
    encodeCpyRaRb (← getOneRegEncoding rA) (← getOneRegEncoding rB)
  | .pseudoInstrOpGrpCpy rA none => do
    encodeCpyRaPc (← getOneRegEncoding rA)
  | .pseudoInstrOpCpyi rA e => do
    let immediate ← acceptExpr e
    encodeCpyi (← getOneRegEncoding rA) immediate
  | .pseudoInstrOpCpya rA e => do
    let immediate ← acceptExpr e
    encodeCpya (← getOneRegEncoding rA) immediate
  | .pseudoInstrOpBra e => do
    let rawImmediate ← acceptExpr e
    encodeRelativeBranch 0x0 0x0 "beq" rawImmediate
  | .pseudoInstrOpJmp rC => do
    encodeJump 0x0 0x0 (← getOneRegEncoding rC) "jeq"
  | .pseudoInstrOpCall rC => do
    encodeCall 0x0 0x0 (← getOneRegEncoding rC) "ceq"
  | .pseudoInstrOpJmpa e => do
    let immediate ← acceptExpr e
    encodeCpya (← getRegTempIndex) immediate
    encodeJump 0x0 0x0 (← getRegTempIndex) "jeq"
  | .pseudoInstrOpCalla e => do
    let immediate ← acceptExpr e
    encodeCpya (← getRegTempIndex) immediate
    encodeCall 0x0 0x0 (← getRegTempIndex) "ceq"
  | .pseudoInstrOpJmpaCallaConditional t rA rB e => do
    let immediate ← acceptExpr e
    let regA ← getOneRegEncoding rA
    let regB ← getOneRegEncoding rB
    encodeCpya (← getRegTempIndex) immediate
    match t.val with
    | .jmpane => encodeJump regA regB (← getRegTempIndex) "jne"
    | .jmpaeq => encodeJump regA regB (← getRegTempIndex) "jeq"
    | .callane => encodeCall regA regB (← getRegTempIndex) "cne"
    | .callaeq => encodeCall regA regB (← getRegTempIndex) "ceq"
    | _ => err "visitPseudoInstrOpJmpaCallaConditional():  Eek!"
  | .pseudoInstrOpIncDec t rA => do
    match t.val with
    | .inc => encodeAluOpTwoRegsOneImm (← getOneRegEncoding rA) (← getOneRegEncoding rA) "addi" 1
    | .dec => encodeAluOpTwoRegsOneImm (← getOneRegEncoding rA) (← getOneRegEncoding rA) "subi" 1
    | _ => err "visitPseudoInstrOpIncDec():  Eek!"
  | .pseudoInstrOpAluOpTwoReg t rA rB => do
    anyPushTokIf VisitChain.pseudoInstrOpAluOpTwoReg t "visitPseudoInstrOpAluOpTwoReg():  Eek!"
    let regA ← getOneRegEncoding rA
    let regB ← getOneRegEncoding rB
    encodeAluOpThreeRegs regA regA regB (← popStr)
  | .pseudoInstrOpAluOpOneRegOneImm t rA e => do
    anyPushTokIf VisitChain.pseudoInstrOpAluOpOneRegOneImm t
      "visitPseudoInstrOpAluOpOneRegOneImm():  Eek!"
    let immediate ← acceptExpr e
    let name ← popStr
    encodeAluOpTwoRegsOneImm (← getOneRegEncoding rA) (← getOneRegEncoding rA) name immediate
  | .pseudoInstrOpAluOpOneRegOneSimm t rA e => do
    anyPushTokIf VisitChain.pseudoInstrOpAluOpOneRegOneSimm t
      "visitPseudoInstrOpAluOpOneRegOneSimm():  Eek!"
    let immediate ← acceptExpr e
    let name ← popStr
    encodeAluOpTwoRegsOneImm (← getOneRegEncoding rA) (← getOneRegEncoding rA) name immediate

/-! ### Directives -/

/-- The loop of the `.db` directives: each value is generated before the next expression is
    evaluated. -/
def visitExprList (gen : BitVec 64 → AsmM Unit) : List Expr → AsmM Unit
  | [] => return ()
  | e :: es => do
    gen (← acceptExpr e)
    visitExprList gen es

def visitDirective : Directive → AsmM Unit
  | .dotOrgDirective e => do
    let n ← acceptExpr e
    modify fun s => { s with pc := { s.pc with curr := n } }
  | .dotSpaceDirective e => do
    let n ← acceptExpr e
    modify fun s => { s with pc := { s.pc with curr := s.pc.curr + n } }
  | .dotDbDirective e es => visitExprList (fun n => gen32 (n.setWidth 32)) (e :: es)
  | .dotDb16Directive e es => visitExprList (fun n => gen16 (n.setWidth 16)) (e :: es)
  | .dotDb8Directive e es => visitExprList (fun n => gen8 (n.setWidth 8)) (e :: es)

/-! ### Lines -/

def visitLabel (n : IdentName) : AsmM Unit := do
  visitIdentName n
  let name ← popStr
  -- This disallows duplicate labels in the same scope; only pass 0 performs the check.
  let s ← get
  match s.symTbl.findInThisBlklev s.currScopeNode name with
  | some sym =>
    if s.pass = 0 && sym.foundAsLabel then
      err ("Error:  Cannot have two identical identifers!  The offending identifier is \""
        ++ name ++ "\"\n")
  | none => pure ()
  let sym ← symTblFindOrInsert name
  modify fun s =>
    { s with symTbl := s.symTbl.update name sym fun x =>
        { x with foundAsLabel := true, addr := s.pc.curr } }

/-- What `visitScopedLines` does before the lines of the scope. -/
def enterScope : AsmM Unit := do
  let s ← get
  if s.pass = 0 then
    let (t, v) := s.symTbl.mkscope s.currScopeNode
    set { s with symTbl := t, currScopeNode := v }
  else
    let i ← getTopScopeChildNum
    let v ← orThrow (s.symTbl.node s.currScopeNode).children[i]?
    modify fun s => { s with currScopeNode := v }
    pushScopeChildNum 0

/-- What `visitScopedLines` does after the lines of the scope. -/
def leaveScope : AsmM Unit := do
  let s ← get
  if s.pass = 0 then
    match s.symTbl.rmscope s.currScopeNode with
    | some v => set { s with currScopeNode := v }
    | none => err "ScopedTableBase::rmscope():  Eek!\n"
  else
    let _ ← popScopeChildNum
    if 1 ≤ (← get).scopeChildNumStack.length then
      let temp ← popScopeChildNum
      pushScopeChildNum (temp + 1)
    modify fun s => { s with currScopeNode := (s.symTbl.node s.currScopeNode).parent }

mutual

def visitLine : Line → AsmM Unit
  | .scopedLines lines => do
    enterScope
    visitLines lines
    leaveScope
  | .label n => visitLabel n
  | .instruction i => visitInstruction i
  | .pseudoInstruction p => visitPseudoInstruction p
  | .directive d => visitDirective d
  | .newline => return ()

/-- The loop of `visitProgram` and of `visitScopedLines`. -/
def visitLines : List Line → AsmM Unit
  | [] => return ()
  | l :: ls => do
    visitLine l
    visitLines ls

end

/-! ### The two passes -/

/-- The start of a pass. -/
def Assembler.beginPass (p : Nat) (s : Assembler) : Assembler :=
  { s with
    pass := p
    pc := { s.pc with curr := 0 }.backUp
    currScopeNode := (s.symTbl.node 0).children.headD 0 }

def runPass (program : Program) (p : Nat) : AsmM Unit := do
  modify (Assembler.beginPass p)
  visitLines program

def run (program : Program) : AsmM Unit := do
  pushScopeChildNum 0
  runPass program 0
  runPass program 1

/-- The assembler on a program: its final state, or the error that stopped it. -/
def assemble (showWords : Bool) (program : Program) : Except AsmError Assembler :=
  Prod.snd <$> (run program).run (.init showWords)

end Frost32.Asm
