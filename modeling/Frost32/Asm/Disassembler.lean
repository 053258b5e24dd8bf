import Frost32.Asm.Assembler

namespace Frost32.Asm

/-!
# `Disassembler`

The disassembler: the lexer and the parser of its grammar, and the visitor of a line.

* `DisTok`, `DisTok.lex` — tokens; a character that starts no token is skipped.
* `DisLine`, `DisLine.parse` — lines; none stands for the exit of the error listener.
* `convertHexString` — the value of the digits of a token and their number.
* `ListingLine`, `visitDisLine` — what is printed for a line.
* `disassemble` — the listing of a text, or the message of the error that stops it.
-/

/-! ### Lexer -/

inductive DisTok
  | tokHexNum (text : List Char)
  | tokOrg (text : List Char)
  | tokNewline
  deriving DecidableEq

namespace DisTok

def isHexOrSpace (c : Char) : Bool := isHexDigit c || c == ' '

/-- `FragHexNum`: a digit, and as many digits and spaces as there are, but at least one. -/
def fragHexNum : List Char → Option (List Char × List Char)
  | [] => none
  | c :: cs =>
    if isHexDigit c && cs.head?.any isHexOrSpace then
      some (c :: cs.takeWhile isHexOrSpace, cs.dropWhile isHexOrSpace)
    else none

/-- The rest after a comment. -/
def afterComment (cs : List Char) : List Char := cs.dropWhile (· ≠ '\n')

/-- The token at the start of a text, if one is not skipped, and the rest. -/
def lexStep : List Char → Option DisTok × List Char
  | [] => (none, [])
  | '\n' :: cs => (some tokNewline, cs)
  | ';' :: cs => (none, afterComment cs)
  | '/' :: '/' :: cs => (none, afterComment cs)
  | '@' :: cs =>
    match fragHexNum cs with
    | some (text, rest) => (some (tokOrg ('@' :: text)), rest)
    | none => (none, cs)
  | c :: cs =>
    match fragHexNum (c :: cs) with
    | some (text, rest) => (some (tokHexNum text), rest)
    | none => (none, cs)

/-- The tokens of a text; every step uses up a character. -/
def lexFuel : (fuel : Nat) → List Char → List DisTok
  | 0, _ => []
  | _, [] => []
  | fuel + 1, cs => (lexStep cs).1.toList ++ lexFuel fuel (lexStep cs).2

def lex (cs : List Char) : List DisTok := lexFuel cs.length cs

end DisTok

/-! ### Parser -/

/-- Rule `line`. -/
inductive DisLine
  | org (tokOrg : List Char)
  | hexNum (tokHexNum : List Char)
  | newline

/-- Rule `program`. -/
def DisLine.parse : List DisTok → Option (List DisLine)
  | [] => some []
  | .tokOrg text :: .tokNewline :: ts => (parse ts).map (.org text :: ·)
  | .tokHexNum text :: .tokNewline :: ts => (parse ts).map (.hexNum text :: ·)
  | .tokNewline :: ts => (parse ts).map (.newline :: ·)
  | _ => none

/-! ### Visitor -/

/-- The value of the digits, and how many there are. -/
def convertHexString (str : List Char) : Except String (BitVec 32 × Nat) :=
  let temp := str.filter fun c => c ≠ '@' && c ≠ ' '
  match hexValue 0 temp with
  | some n => .ok (n, temp.length)
  | none => .error "convert_hex_string():  Eek!"

/-- A line of the listing; `text` is printed for the instruction. -/
inductive ListingLine
  | org (addr : BitVec 32)
  | db (data : BitVec 32)
  | db16 (data : BitVec 16)
  | db8 (data : BitVec 8)
  | instruction (text : String)
  deriving DecidableEq

def hexNumText {w : Nat} (n : BitVec w) : String := "0x" ++ String.ofList (hexText n)

/-- The printed line. -/
def ListingLine.text : ListingLine → String
  | org addr => ".org " ++ hexNumText addr ++ "\n"
  | db data => ".db " ++ hexNumText data ++ "\n"
  | db16 data => ".db16 " ++ hexNumText data ++ "\n"
  | db8 data => ".db8 " ++ hexNumText data ++ "\n"
  | instruction text => text ++ "\n"

/-- The name and the form of an instruction, by its group.  Group 6 is decoded with the table
    of group 4. -/
def instrFromWord (w : BitVec 32) : Option (String × ArgsType) :=
  let low := getBitsWithRange w 3 0
  let high := getBitsWithRange w 19 16
  match (getBitsWithRange w 31 28).toNat with
  | 0x0 => some (getIog0InstrFromOpcode low)
  | 0x1 => some (getIog1InstrFromOpcode high)
  | 0x2 => some (getIog2InstrFromOpcode high)
  | 0x3 => some (getIog3InstrFromOpcode low)
  | 0x4 => some (getIog4InstrFromOpcode low)
  | 0x5 => some (getIog5InstrFromOpcode low)
  | 0x6 => some (getIog4InstrFromOpcode low)
  | _ => none

/-- What is printed for an instruction of a known form. -/
def instrText (name : String) (args : ArgsType) (a b c : String) (immediate simm12 : BitVec 32) :
    Option String :=
  match args with
  | .threeRegs => some (name ++ " " ++ a ++ ", " ++ b ++ ", " ++ c)
  | .twoRegs => some (name ++ " " ++ a ++ ", " ++ b)
  | .twoRegsOneImm => some (name ++ " " ++ a ++ ", " ++ b ++ ", " ++ hexNumText immediate)
  | .twoRegsOneSimm => some (name ++ " " ++ a ++ ", " ++ b ++ ", " ++ hexNumText immediate)
  | .oneRegOnePcOneSimm => some (name ++ " " ++ a ++ ", pc, " ++ hexNumText immediate)
  | .oneRegOneImm => some (name ++ " " ++ a ++ ", " ++ hexNumText immediate)
  | .branch => some (name ++ " " ++ a ++ ", " ++ b ++ ", " ++ hexNumText immediate)
  | .threeRegsLdst => some (name ++ " " ++ a ++ ", [" ++ b ++ ", " ++ c ++ "]")
  | .twoRegsOneSimmLdst =>
    some (name ++ " " ++ a ++ ", [" ++ b ++ ", " ++ hexNumText simm12 ++ "]")
  | .noArgs => some name
  | .oneIretaOneReg => some (name ++ "ireta, " ++ a)
  | .oneRegOneIreta => some (name ++ a ++ ", ireta")
  | .oneIdstaOneReg => some (name ++ "idsta, " ++ a)
  | .oneRegOneIdsta => some (name ++ a ++ ", idsta")
  | .unknown => none

/-- A register name; an unknown number ends in the `Eek!` exit. -/
def regName (index : BitVec 32) : Except String String :=
  match decodeRegName index with
  | some name => .ok name
  | none => .error "EncodingStuff::decode_reg_name():  Eek!"

/-- The line for a word: an instruction, or a `.db` where the instruction is not known.  No
    form of groups 1 and 2 prints the third register. -/
def visitWord (w : BitVec 32) : Except String ListingLine :=
  match instrFromWord w with
  | none => .ok (.db w)
  | some (name, args) => do
    let a ← regName (getBitsWithRange w 27 24)
    let b ← regName (getBitsWithRange w 23 20)
    let c ← regName (getBitsWithRange w 19 16)
    let simm12 := ((getBitsWithRange w 15 4).setWidth 12).signExtend 32
    match instrText name args a b c (getBitsWithRange w 15 0) simm12 with
    | some text => return .instruction text
    | none => return .db w

/-- `visitLine`: what is printed for one line. -/
def visitDisLine : DisLine → Except String (List ListingLine)
  | .org tokOrg => do
    let (addr, _) ← convertHexString tokOrg
    return [.org addr]
  | .hexNum tokHexNum => do
    let (data, numGoodChars) ← convertHexString tokHexNum
    match numGoodChars with
    | 2 => return [.db8 (data.setWidth 8)]
    | 4 => return [.db16 (data.setWidth 16)]
    | 8 => return [← visitWord data]
    | _ => .error "Allowed data sizes:   8-bit, 16-bit, 32-bit"
  | .newline => return []

/-- The loop of `visitProgram`. -/
def visitDisLines : List DisLine → Except String (List ListingLine)
  | [] => .ok []
  | l :: ls => do
    let first ← visitDisLine l
    return first ++ (← visitDisLines ls)

/-- The listing of a text. -/
def disassemble (cs : List Char) : Except String (List ListingLine) :=
  match DisLine.parse (DisTok.lex cs) with
  | some ls => visitDisLines ls
  | none => .error "Syntax error"

end Frost32.Asm
