import Mathlib.Data.List.Basic

namespace Frost32.Asm

/-!
# `AssemblerGrammar`

Tokens and parse trees of the assembler.

* `Tok` — the tokens; `text` gives the literal of the lexer rule.
* `lexWord` — how the lexer reads an identifier-shaped text: the first rule that matches it
  wins, and every keyword rule stands before `TokIdent`.
* `Expr`, `Instruction`, `PseudoInstruction`, `Directive`, `Line` — the parse trees, one
  constructor for each alternative.  Where a rule offers a choice of tokens the tree carries
  the token together with the proof that the rule lists it, so every value is a tree of the
  grammar.
* `tokens` — the token sequence a tree derives.
-/

/-! ### Tokens -/

/-- `TokInstrNameAdd` to `TokInstrNameReti`. -/
inductive InstrTok
  | add | sub | sltu | slts | sgtu | sgts | mul | and | orr | xor | nor | lsl | lsr | asr
  | udiv | sdiv
  | addi | subi | sltui | sltsi | sgtui | sgtsi | muli | andi | orri | xori | nori | lsli
  | lsri | asri | addsi | cpyhi
  | bne | beq | bltu | bgeu | bleu | bgtu | blts | bges | bles | bgts
  | jne | jeq | jltu | jgeu | jleu | jgtu | jlts | jges | jles | jgts
  | cne | ceq | cltu | cgeu | cleu | cgtu | clts | cges | cles | cgts
  | ldr | ldh | ldsh | ldb | ldsb | str | sth | stb
  | ldri | ldhi | ldshi | ldbi | ldsbi | stri | sthi | stbi
  | ei | di | cpy | reti
  deriving DecidableEq, Repr

namespace InstrTok

/-- Every instruction name, in the order of the lexer rules; rule `instrName` and
    `visitInstrName` list them in this order. -/
def all : List InstrTok :=
  [add, sub, sltu, slts, sgtu, sgts, mul, and, orr, xor, nor, lsl, lsr, asr, udiv, sdiv,
    addi, subi, sltui, sltsi, sgtui, sgtsi, muli, andi, orri, xori, nori, lsli, lsri, asri,
    addsi, cpyhi,
    bne, beq, bltu, bgeu, bleu, bgtu, blts, bges, bles, bgts,
    jne, jeq, jltu, jgeu, jleu, jgtu, jlts, jges, jles, jgts,
    cne, ceq, cltu, cgeu, cleu, cgtu, clts, cges, cles, cgts,
    ldr, ldh, ldsh, ldb, ldsb, str, sth, stb,
    ldri, ldhi, ldshi, ldbi, ldsbi, stri, sthi, stbi,
    ei, di, cpy, reti]

/-- The literal of the lexer rule; those of `TokInstrNameSgtu` and `TokInstrNameSgts` are
    spelled differently from their names. -/
def text : InstrTok → String
  | add => "add" | sub => "sub" | sltu => "sltu" | slts => "slts"
  | sgtu => "gltu" | sgts => "glts"
  | mul => "mul" | and => "and" | orr => "orr" | xor => "xor" | nor => "nor"
  | lsl => "lsl" | lsr => "lsr" | asr => "asr" | udiv => "udiv" | sdiv => "sdiv"
  | addi => "addi" | subi => "subi" | sltui => "sltui" | sltsi => "sltsi"
  | sgtui => "sgtui" | sgtsi => "sgtsi" | muli => "muli" | andi => "andi" | orri => "orri"
  | xori => "xori" | nori => "nori" | lsli => "lsli" | lsri => "lsri" | asri => "asri"
  | addsi => "addsi" | cpyhi => "cpyhi"
  | bne => "bne" | beq => "beq" | bltu => "bltu" | bgeu => "bgeu" | bleu => "bleu"
  | bgtu => "bgtu" | blts => "blts" | bges => "bges" | bles => "bles" | bgts => "bgts"
  | jne => "jne" | jeq => "jeq" | jltu => "jltu" | jgeu => "jgeu" | jleu => "jleu"
  | jgtu => "jgtu" | jlts => "jlts" | jges => "jges" | jles => "jles" | jgts => "jgts"
  | cne => "cne" | ceq => "ceq" | cltu => "cltu" | cgeu => "cgeu" | cleu => "cleu"
  | cgtu => "cgtu" | clts => "clts" | cges => "cges" | cles => "cles" | cgts => "cgts"
  | ldr => "ldr" | ldh => "ldh" | ldsh => "ldsh" | ldb => "ldb" | ldsb => "ldsb"
  | str => "str" | sth => "sth" | stb => "stb"
  | ldri => "ldri" | ldhi => "ldhi" | ldshi => "ldshi" | ldbi => "ldbi" | ldsbi => "ldsbi"
  | stri => "stri" | sthi => "sthi" | stbi => "stbi"
  | ei => "ei" | di => "di" | cpy => "cpy" | reti => "reti"

end InstrTok

/-- `TokPseudoInstrNameInv` to `TokPseudoInstrNameDec`. -/
inductive PseudoTok
  | inv | invi | cpyi | cpya | bra | jmp | call | jmpa | calla
  | jmpane | jmpaeq | callane | callaeq | inc | dec
  deriving DecidableEq, Repr

namespace PseudoTok

/-- Every pseudo-instruction name, in the order of the lexer rules. -/
def all : List PseudoTok :=
  [inv, invi, cpyi, cpya, bra, jmp, call, jmpa, calla, jmpane, jmpaeq, callane, callaeq,
    inc, dec]

def text : PseudoTok → String
  | inv => "inv" | invi => "invi" | cpyi => "cpyi" | cpya => "cpya" | bra => "bra"
  | jmp => "jmp" | call => "call" | jmpa => "jmpa" | calla => "calla"
  | jmpane => "jmpane" | jmpaeq => "jmpaeq" | callane => "callane" | callaeq => "callaeq"
  | inc => "inc" | dec => "dec"

end PseudoTok

/-- The texts of `TokReg`. -/
inductive TokReg
  | zero | u0 | u1 | u2 | u3 | u4 | u5 | u6 | u7 | u8 | u9 | u10 | temp | lr | fp | sp
  deriving DecidableEq, Repr

namespace TokReg

def all : List TokReg :=
  [zero, u0, u1, u2, u3, u4, u5, u6, u7, u8, u9, u10, temp, lr, fp, sp]

def text : TokReg → String
  | zero => "zero" | u0 => "u0" | u1 => "u1" | u2 => "u2" | u3 => "u3" | u4 => "u4"
  | u5 => "u5" | u6 => "u6" | u7 => "u7" | u8 => "u8" | u9 => "u9" | u10 => "u10"
  | temp => "temp" | lr => "lr" | fp => "fp" | sp => "sp"

end TokReg

inductive TokOpLogical
  | and | or
  deriving DecidableEq, Repr

inductive TokOpCompare
  | eq | ne | lt | gt | le | ge
  deriving DecidableEq, Repr

inductive TokOpMulDivMod
  | mul | div | mod
  deriving DecidableEq, Repr

/-- The shifts are `<<`, `>>` and `>>>`. -/
inductive TokOpBitwise
  | and | or | xor | shl | shr | sar
  deriving DecidableEq, Repr

/-- The digits of a number: at least one, all of one kind. -/
abbrev Digits (kind : Char → Bool) := { ds : List Char // ds ≠ [] ∧ ds.all kind = true }

def isHexDigit (c : Char) : Bool :=
  ('0' ≤ c && c ≤ '9') || ('a' ≤ c && c ≤ 'f') || ('A' ≤ c && c ≤ 'F')

inductive Tok
  | opLogical (op : TokOpLogical)
  | opCompare (op : TokOpCompare)
  | plus | minus
  | opMulDivMod (op : TokOpMulDivMod)
  | opBitwise (op : TokOpBitwise)
  | bitInvert
  | decNum (digits : Digits Char.isDigit)
  | hexNum (digits : Digits isHexDigit)
  | binNum (digits : Digits fun c => c == '0' || c == '1')
  | instrName (t : InstrTok)
  | pseudoInstrName (t : PseudoTok)
  | dotOrg | dotSpace | dotDb | dotDb16 | dotDb8
  | period | comma | colon | exclamPoint
  | lParen | rParen | lBracket | rBracket | lBrace | rBrace | newline
  | reg (r : TokReg)
  | pcReg | iretaReg | idstaReg
  | ident (name : String)
  | other (c : Char)
  deriving DecidableEq

/-- The keyword rules in the order of the lexer. -/
def keywords : List (String × Tok) :=
  InstrTok.all.map (fun t => (t.text, .instrName t)) ++
    PseudoTok.all.map (fun t => (t.text, .pseudoInstrName t)) ++
    TokReg.all.map (fun r => (r.text, .reg r)) ++
    [("pc", .pcReg), ("ireta", .iretaReg), ("idsta", .idstaReg)]

/-- The token of a maximal identifier-shaped text. -/
def lexWord (w : String) : Tok := (keywords.lookup w).getD (.ident w)

/-! ### Expressions -/

/-- Rule `identName`: names of instructions and registers may be labels. -/
inductive IdentName
  | ident (name : String)
  | instrName (t : InstrTok)
  | pseudoInstrName (t : PseudoTok)
  | reg (r : TokReg)
  | pcReg | iretaReg | idstaReg
  deriving DecidableEq

namespace IdentName

def text : IdentName → String
  | ident name => name
  | instrName t => t.text
  | pseudoInstrName t => t.text
  | reg r => r.text
  | pcReg => "pc"
  | iretaReg => "ireta"
  | idstaReg => "idsta"

def tokens : IdentName → List Tok
  | ident name => [.ident name]
  | instrName t => [.instrName t]
  | pseudoInstrName t => [.pseudoInstrName t]
  | reg r => [.reg r]
  | pcReg => [.pcReg]
  | iretaReg => [.iretaReg]
  | idstaReg => [.idstaReg]

end IdentName

inductive NumExpr
  | decNum (digits : Digits Char.isDigit)
  | hexNum (digits : Digits isHexDigit)
  | binNum (digits : Digits fun c => c == '0' || c == '1')

def NumExpr.tokens : NumExpr → List Tok
  | decNum ds => [.decNum ds]
  | hexNum ds => [.hexNum ds]
  | binNum ds => [.binNum ds]

mutual

inductive Expr
  | exprLogical (e : ExprLogical)
  | opLogical (l : Expr) (op : TokOpLogical) (r : ExprLogical)

inductive ExprLogical
  | exprCompare (e : ExprCompare)
  | opCompare (l : ExprLogical) (op : TokOpCompare) (r : ExprCompare)

inductive ExprCompare
  | exprAddSub (e : ExprAddSub)
  | exprJustAdd (l : ExprAddSub) (r : ExprCompare)
  | exprJustSub (l : ExprAddSub) (r : ExprCompare)

inductive ExprAddSub
  | exprMulDivModEtc (e : ExprMulDivModEtc)
  | opMulDivMod (l : ExprAddSub) (op : TokOpMulDivMod) (r : ExprMulDivModEtc)
  | opBitwise (l : ExprAddSub) (op : TokOpBitwise) (r : ExprMulDivModEtc)

inductive ExprMulDivModEtc
  | exprUnary (e : ExprUnary)
  | numExpr (n : NumExpr)
  | identName (n : IdentName)
  | currPc
  | paren (e : Expr)

inductive ExprUnary
  | exprBitInvert (e : Expr)
  | exprNegate (e : Expr)
  | exprLogNot (e : Expr)

end

mutual

def Expr.tokens : Expr → List Tok
  | .exprLogical e => e.tokens
  | .opLogical l op r => l.tokens ++ .opLogical op :: r.tokens

def ExprLogical.tokens : ExprLogical → List Tok
  | .exprCompare e => e.tokens
  | .opCompare l op r => l.tokens ++ .opCompare op :: r.tokens

def ExprCompare.tokens : ExprCompare → List Tok
  | .exprAddSub e => e.tokens
  | .exprJustAdd l r => l.tokens ++ .plus :: r.tokens
  | .exprJustSub l r => l.tokens ++ .minus :: r.tokens

def ExprAddSub.tokens : ExprAddSub → List Tok
  | .exprMulDivModEtc e => e.tokens
  | .opMulDivMod l op r => l.tokens ++ .opMulDivMod op :: r.tokens
  | .opBitwise l op r => l.tokens ++ .opBitwise op :: r.tokens

def ExprMulDivModEtc.tokens : ExprMulDivModEtc → List Tok
  | .exprUnary e => e.tokens
  | .numExpr n => n.tokens
  | .identName n => n.tokens
  | .currPc => [.period]
  | .paren e => .lParen :: (e.tokens ++ [.rParen])

def ExprUnary.tokens : ExprUnary → List Tok
  | .exprBitInvert e => .bitInvert :: e.tokens
  | .exprNegate e => .minus :: e.tokens
  | .exprLogNot e => .exclamPoint :: e.tokens

end

/-! ### Instructions -/

/-- A token of a choice between instruction names. -/
abbrev InstrChoice (alternatives : List InstrTok) := { t : InstrTok // t ∈ alternatives }

abbrev PseudoChoice (alternatives : List PseudoTok) := { t : PseudoTok // t ∈ alternatives }

namespace Grammar

open InstrTok

/-- The names of `instrOpGrp0ThreeRegs` and of `pseudoInstrOpAluOpTwoReg`. -/
def aluOpNames : List InstrTok :=
  [add, sub, sltu, slts, sgtu, sgts, mul, and, orr, xor, nor, lsl, lsr, asr, udiv, sdiv]
def grp1TwoRegsOneImmNames : List InstrTok :=
  [addi, subi, sltui, sgtui, muli, andi, orri, xori, lsli, lsri, asri]
/-- The names of `instrOpGrp1TwoRegsOneSimm` and of `pseudoInstrOpAluOpOneRegOneSimm`. -/
def simmNames : List InstrTok := [sltsi, sgtsi]
def grp2BranchNames : List InstrTok :=
  [bne, beq, bltu, bgeu, bleu, bgtu, blts, bges, bles, bgts]
def grp3JumpNames : List InstrTok :=
  [jne, jeq, jltu, jgeu, jleu, jgtu, jlts, jges, jles, jgts]
def grp4CallNames : List InstrTok :=
  [cne, ceq, cltu, cgeu, cleu, cgtu, clts, cges, cles, cgts]
def grp5ThreeRegsLdstNames : List InstrTok := [ldr, ldh, ldsh, ldb, ldsb, str, sth, stb]
def grp5TwoRegsOneSimm12LdstNames : List InstrTok :=
  [ldri, ldhi, ldshi, ldbi, ldsbi, stri, sthi, stbi]
def grp6NoArgsNames : List InstrTok := [ei, di, reti]
def aluOpOneRegOneImmNames : List InstrTok :=
  [addi, subi, sltui, sgtui, muli, andi, orri, xori, nori, lsli, lsri, asri]
def jmpaCallaConditionalNames : List PseudoTok :=
  [.jmpane, .jmpaeq, .callane, .callaeq]
def incDecNames : List PseudoTok := [.inc, .dec]

end Grammar

open Grammar

inductive Instruction
  | instrOpGrp0ThreeRegs (t : InstrChoice aluOpNames) (rA rB rC : TokReg)
  | instrOpGrp1TwoRegsOneImm (t : InstrChoice grp1TwoRegsOneImmNames) (rA rB : TokReg)
      (expr : Expr)
  | instrOpGrp1TwoRegsOneSimm (t : InstrChoice simmNames) (rA rB : TokReg) (expr : Expr)
  | instrOpGrp1OneRegOnePcOneSimm (rA : TokReg) (expr : Expr)
  | instrOpGrp1OneRegOneImm (rA : TokReg) (expr : Expr)
  | instrOpGrp2Branch (t : InstrChoice grp2BranchNames) (rA rB : TokReg) (expr : Expr)
  | instrOpGrp3Jump (t : InstrChoice grp3JumpNames) (rA rB rC : TokReg)
  | instrOpGrp4Call (t : InstrChoice grp4CallNames) (rA rB rC : TokReg)
  | instrOpGrp5ThreeRegsLdst (t : InstrChoice grp5ThreeRegsLdstNames) (rA rB rC : TokReg)
  | instrOpGrp5TwoRegsOneSimm12Ldst (t : InstrChoice grp5TwoRegsOneSimm12LdstNames)
      (rA rB : TokReg) (expr : Expr)
  | instrOpGrp6NoArgs (t : InstrChoice grp6NoArgsNames)
  | instrOpGrp6OneIretaOneReg (rA : TokReg)
  | instrOpGrp6OneRegOneIreta (rA : TokReg)
  | instrOpGrp6OneIdstaOneReg (rA : TokReg)
  | instrOpGrp6OneRegOneIdsta (rA : TokReg)

/-- `pseudoInstrOpGrpCpy` copies a register or, where there is none, `pc`. -/
inductive PseudoInstruction
  | pseudoInstrOpInv (rA rB : TokReg)
  | pseudoInstrOpInvi (rA : TokReg) (expr : Expr)
  | pseudoInstrOpGrpCpy (rA : TokReg) (rB : Option TokReg)
  | pseudoInstrOpCpyi (rA : TokReg) (expr : Expr)
  | pseudoInstrOpCpya (rA : TokReg) (expr : Expr)
  | pseudoInstrOpBra (expr : Expr)
  | pseudoInstrOpJmp (rC : TokReg)
  | pseudoInstrOpCall (rC : TokReg)
  | pseudoInstrOpJmpa (expr : Expr)
  | pseudoInstrOpCalla (expr : Expr)
  | pseudoInstrOpJmpaCallaConditional (t : PseudoChoice jmpaCallaConditionalNames)
      (rA rB : TokReg) (expr : Expr)
  | pseudoInstrOpIncDec (t : PseudoChoice incDecNames) (rA : TokReg)
  | pseudoInstrOpAluOpTwoReg (t : InstrChoice aluOpNames) (rA rB : TokReg)
  | pseudoInstrOpAluOpOneRegOneImm (t : InstrChoice aluOpOneRegOneImmNames) (rA : TokReg)
      (expr : Expr)
  | pseudoInstrOpAluOpOneRegOneSimm (t : InstrChoice simmNames) (rA : TokReg) (expr : Expr)

/-- `TokReg TokComma TokReg`. -/
def twoRegToks (r₁ r₂ : TokReg) : List Tok := [.reg r₁, .comma, .reg r₂]

/-- `TokReg TokComma TokReg TokComma TokReg`. -/
def threeRegToks (r₁ r₂ r₃ : TokReg) : List Tok := [.reg r₁, .comma, .reg r₂, .comma, .reg r₃]

def Instruction.tokens : Instruction → List Tok
  | instrOpGrp0ThreeRegs t rA rB rC
  | instrOpGrp3Jump t rA rB rC
  | instrOpGrp4Call t rA rB rC => .instrName t :: threeRegToks rA rB rC
  | instrOpGrp1TwoRegsOneImm t rA rB e
  | instrOpGrp1TwoRegsOneSimm t rA rB e
  | instrOpGrp2Branch t rA rB e => .instrName t :: (twoRegToks rA rB ++ .comma :: e.tokens)
  | instrOpGrp1OneRegOnePcOneSimm rA e =>
    .instrName .addsi :: .reg rA :: .comma :: .pcReg :: .comma :: e.tokens
  | instrOpGrp1OneRegOneImm rA e => .instrName .cpyhi :: .reg rA :: .comma :: e.tokens
  | instrOpGrp5ThreeRegsLdst t rA rB rC =>
    .instrName t :: .reg rA :: .comma :: .lBracket :: (twoRegToks rB rC ++ [.rBracket])
  | instrOpGrp5TwoRegsOneSimm12Ldst t rA rB e =>
    .instrName t :: .reg rA :: .comma :: .lBracket :: .reg rB :: .comma ::
      (e.tokens ++ [.rBracket])
  | instrOpGrp6NoArgs t => [.instrName t]
  | instrOpGrp6OneIretaOneReg rA => [.instrName .cpy, .iretaReg, .comma, .reg rA]
  | instrOpGrp6OneRegOneIreta rA => [.instrName .cpy, .reg rA, .comma, .iretaReg]
  | instrOpGrp6OneIdstaOneReg rA => [.instrName .cpy, .idstaReg, .comma, .reg rA]
  | instrOpGrp6OneRegOneIdsta rA => [.instrName .cpy, .reg rA, .comma, .idstaReg]

def PseudoInstruction.tokens : PseudoInstruction → List Tok
  | pseudoInstrOpInv rA rB => .pseudoInstrName .inv :: twoRegToks rA rB
  | pseudoInstrOpInvi rA e => .pseudoInstrName .invi :: .reg rA :: .comma :: e.tokens
  | pseudoInstrOpGrpCpy rA (some rB) => .instrName .cpy :: twoRegToks rA rB
  | pseudoInstrOpGrpCpy rA none => [.instrName .cpy, .reg rA, .comma, .pcReg]
  | pseudoInstrOpCpyi rA e => .pseudoInstrName .cpyi :: .reg rA :: .comma :: e.tokens
  | pseudoInstrOpCpya rA e => .pseudoInstrName .cpya :: .reg rA :: .comma :: e.tokens
  | pseudoInstrOpBra e => .pseudoInstrName .bra :: e.tokens
  | pseudoInstrOpJmp rC => [.pseudoInstrName .jmp, .reg rC]
  | pseudoInstrOpCall rC => [.pseudoInstrName .call, .reg rC]
  | pseudoInstrOpJmpa e => .pseudoInstrName .jmpa :: e.tokens
  | pseudoInstrOpCalla e => .pseudoInstrName .calla :: e.tokens
  | pseudoInstrOpJmpaCallaConditional t rA rB e =>
    .pseudoInstrName t :: (twoRegToks rA rB ++ .comma :: e.tokens)
  | pseudoInstrOpIncDec t rA => [.pseudoInstrName t, .reg rA]
  | pseudoInstrOpAluOpTwoReg t rA rB => .instrName t :: twoRegToks rA rB
  | pseudoInstrOpAluOpOneRegOneImm t rA e
  | pseudoInstrOpAluOpOneRegOneSimm t rA e => .instrName t :: .reg rA :: .comma :: e.tokens

/-! ### Lines -/

/-- Rules `dotOrgDirective` to `dotDb8Directive`. -/
inductive Directive
  | dotOrgDirective (expr : Expr)
  | dotSpaceDirective (expr : Expr)
  | dotDbDirective (expr : Expr) (exprs : List Expr)
  | dotDb16Directive (expr : Expr) (exprs : List Expr)
  | dotDb8Directive (expr : Expr) (exprs : List Expr)

/-- Rule `line`; a scope of lines stands between braces. -/
inductive Line
  | scopedLines (lines : List Line)
  | label (name : IdentName)
  | instruction (i : Instruction)
  | pseudoInstruction (p : PseudoInstruction)
  | directive (d : Directive)
  | newline

/-- Rule `program`. -/
abbrev Program := List Line

end Frost32.Asm
