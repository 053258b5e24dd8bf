import Frost32.Asm.LineTokens

namespace Frost32.Asm

/-!
# The parser of `AssemblerGrammar`

The line rules of the grammar, read row by row.

* `Program.read` — the program of a token sequence, where the operand expressions are left to
  a parser of `expr`.
* `Program.read_tokens` — **the reader finds every program**, up to what the parser of `expr`
  makes of its operands.
* `Program.one_parse_tree` — **a program has one parse tree if and only if each of its operand
  expressions has**: the line rules are unambiguous.
-/

open Grammar

/-! ### The reader -/

/-- The rules that an instruction name starts. -/
inductive InstrKind
  | aluOp | imm | nori | simm | addsi | cpyhi | branch | jump | call | ldst | ldstSimm | noArgs
  | cpy
  deriving DecidableEq

def InstrTok.kind (t : InstrTok) : InstrKind :=
  if t ∈ aluOpNames then .aluOp
  else if t ∈ grp1TwoRegsOneImmNames then .imm
  else if t ∈ simmNames then .simm
  else if t ∈ grp2BranchNames then .branch
  else if t ∈ grp3JumpNames then .jump
  else if t ∈ grp4CallNames then .call
  else if t ∈ grp5ThreeRegsLdstNames then .ldst
  else if t ∈ grp5TwoRegsOneSimm12LdstNames then .ldstSimm
  else if t ∈ grp6NoArgsNames then .noArgs
  else if t = .nori then .nori
  else if t = .addsi then .addsi
  else if t = .cpyhi then .cpyhi
  else .cpy

/-- A name of a choice. -/
def choose {τ : Type} [DecidableEq τ] (names : List τ) (t : τ) : Option { t : τ // t ∈ names } :=
  if h : t ∈ names then some ⟨t, h⟩ else none

@[simp] theorem choose_val {τ : Type} [DecidableEq τ] {names : List τ}
    (t : { t : τ // t ∈ names }) : choose names t.val = some t :=
  dif_pos t.property

section Read

variable (parseExpr : List Tok → Option Expr)

/-- An instruction or a pseudo-instruction that an instruction name starts, by the kind of the
    name and what stands between the commas. -/
def readInstr (t : InstrTok) (kind : InstrKind) (operands : List (List Tok)) : Option Line :=
  match kind, operands with
  | .aluOp, [[.reg rA], [.reg rB], [.reg rC]] => do
    return .instruction (.instrOpGrp0ThreeRegs (← choose _ t) rA rB rC)
  | .aluOp, [[.reg rA], [.reg rB]] => do
    return .pseudoInstruction (.pseudoInstrOpAluOpTwoReg (← choose _ t) rA rB)
  | .imm, [[.reg rA], e] => do
    return .pseudoInstruction (.pseudoInstrOpAluOpOneRegOneImm (← choose _ t) rA (← parseExpr e))
  | .imm, [[.reg rA], [.reg rB], e] => do
    return .instruction (.instrOpGrp1TwoRegsOneImm (← choose _ t) rA rB (← parseExpr e))
  | .nori, [[.reg rA], e] => do
    return .pseudoInstruction (.pseudoInstrOpAluOpOneRegOneImm (← choose _ t) rA (← parseExpr e))
  | .simm, [[.reg rA], e] => do
    return .pseudoInstruction (.pseudoInstrOpAluOpOneRegOneSimm (← choose _ t) rA (← parseExpr e))
  | .simm, [[.reg rA], [.reg rB], e] => do
    return .instruction (.instrOpGrp1TwoRegsOneSimm (← choose _ t) rA rB (← parseExpr e))
  | .addsi, [[.reg rA], [.pcReg], e] => do
    return .instruction (.instrOpGrp1OneRegOnePcOneSimm rA (← parseExpr e))
  | .cpyhi, [[.reg rA], e] => do
    return .instruction (.instrOpGrp1OneRegOneImm rA (← parseExpr e))
  | .branch, [[.reg rA], [.reg rB], e] => do
    return .instruction (.instrOpGrp2Branch (← choose _ t) rA rB (← parseExpr e))
  | .jump, [[.reg rA], [.reg rB], [.reg rC]] => do
    return .instruction (.instrOpGrp3Jump (← choose _ t) rA rB rC)
  | .call, [[.reg rA], [.reg rB], [.reg rC]] => do
    return .instruction (.instrOpGrp4Call (← choose _ t) rA rB rC)
  | .ldst, [[.reg rA], [.lBracket, .reg rB], [.reg rC, .rBracket]] => do
    return .instruction (.instrOpGrp5ThreeRegsLdst (← choose _ t) rA rB rC)
  | .ldstSimm, [[.reg rA], [.lBracket, .reg rB], e] =>
    if e.getLast? = some .rBracket then do
      return .instruction
        (.instrOpGrp5TwoRegsOneSimm12Ldst (← choose _ t) rA rB (← parseExpr e.dropLast))
    else none
  | .noArgs, [[]] => do return .instruction (.instrOpGrp6NoArgs (← choose _ t))
  | .cpy, [[.iretaReg], [.reg rA]] => some (.instruction (.instrOpGrp6OneIretaOneReg rA))
  | .cpy, [[.reg rA], [.iretaReg]] => some (.instruction (.instrOpGrp6OneRegOneIreta rA))
  | .cpy, [[.idstaReg], [.reg rA]] => some (.instruction (.instrOpGrp6OneIdstaOneReg rA))
  | .cpy, [[.reg rA], [.idstaReg]] => some (.instruction (.instrOpGrp6OneRegOneIdsta rA))
  | .cpy, [[.reg rA], [.reg rB]] =>
    some (.pseudoInstruction (.pseudoInstrOpGrpCpy rA (some rB)))
  | .cpy, [[.reg rA], [.pcReg]] => some (.pseudoInstruction (.pseudoInstrOpGrpCpy rA none))
  | _, _ => none

/-- A pseudo-instruction with a name of its own. -/
def readPseudo (t : PseudoTok) (operands : List (List Tok)) : Option PseudoInstruction :=
  match t, operands with
  | .inv, [[.reg rA], [.reg rB]] => some (.pseudoInstrOpInv rA rB)
  | .invi, [[.reg rA], e] => do return .pseudoInstrOpInvi rA (← parseExpr e)
  | .cpyi, [[.reg rA], e] => do return .pseudoInstrOpCpyi rA (← parseExpr e)
  | .cpya, [[.reg rA], e] => do return .pseudoInstrOpCpya rA (← parseExpr e)
  | .bra, [e] => do return .pseudoInstrOpBra (← parseExpr e)
  | .jmp, [[.reg rC]] => some (.pseudoInstrOpJmp rC)
  | .call, [[.reg rC]] => some (.pseudoInstrOpCall rC)
  | .jmpa, [e] => do return .pseudoInstrOpJmpa (← parseExpr e)
  | .calla, [e] => do return .pseudoInstrOpCalla (← parseExpr e)
  | t, [[.reg rA], [.reg rB], e] => do
    return .pseudoInstrOpJmpaCallaConditional (← choose _ t) rA rB (← parseExpr e)
  | t, [[.reg rA]] => do return .pseudoInstrOpIncDec (← choose _ t) rA
  | _, _ => none

/-- The expressions of a list, of which there is at least one. -/
def readExprs (operands : List (List Tok)) : Option (Expr × List Expr) :=
  match operands.mapM parseExpr with
  | some (e :: es) => some (e, es)
  | _ => none

/-- Rule `identName`. -/
def readIdentName : Tok → Option IdentName
  | .ident name => some (.ident name)
  | .instrName t => some (.instrName t)
  | .pseudoInstrName t => some (.pseudoInstrName t)
  | .reg r => some (.reg r)
  | .pcReg => some .pcReg
  | .iretaReg => some .iretaReg
  | .idstaReg => some .idstaReg
  | _ => none

/-- The line of a row, other than the ends of scopes. -/
def readRow : List Tok → Option Line
  | [] => some .newline
  | [n, .colon] => (readIdentName n).map .label
  | .instrName t :: ts => readInstr parseExpr t t.kind (ts.splitOn .comma)
  | .pseudoInstrName t :: ts =>
    (readPseudo parseExpr t (ts.splitOn .comma)).map .pseudoInstruction
  | .dotOrg :: ts => (parseExpr ts).map fun e => .directive (.dotOrgDirective e)
  | .dotSpace :: ts => (parseExpr ts).map fun e => .directive (.dotSpaceDirective e)
  | .dotDb :: ts =>
    (readExprs parseExpr (ts.splitOn .comma)).map fun (e, es) => .directive (.dotDbDirective e es)
  | .dotDb16 :: ts =>
    (readExprs parseExpr (ts.splitOn .comma)).map fun (e, es) => .directive (.dotDb16Directive e es)
  | .dotDb8 :: ts =>
    (readExprs parseExpr (ts.splitOn .comma)).map fun (e, es) => .directive (.dotDb8Directive e es)
  | _ => none

/-- The lines of rows, where the lines of the scopes that are open are kept in reverse order,
    those of the innermost scope first. -/
def readRows : (rows : List (List Tok)) → (lines : List Line) → (outer : List (List Line)) →
    Option (List Line)
  | [], lines, [] => some lines.reverse
  | [], _, _ :: _ => none
  | [.lBrace] :: rows, lines, outer => readRows rows [] (lines :: outer)
  | [.rBrace] :: rows, lines, ls :: outer =>
    readRows rows (.scopedLines lines.reverse :: ls) outer
  | row :: rows, lines, outer => do readRows rows ((← readRow parseExpr row) :: lines) outer

/-- Rule `program`; the last row ends with a `TokNewline`. -/
def Program.read (ts : List Tok) : Option Program :=
  let rows := ts.splitOn .newline
  if rows.getLast? = some [] then readRows parseExpr rows.dropLast [] [] else none

end Read

/-! ### The tokens of rows -/

/-- The tokens that stand between rows or make a row a label. -/
def Tok.delimits : Tok → Bool
  | .colon | .newline | .lBrace | .rBrace => true
  | _ => false

/-- None of these tokens is in the list. -/
def NoDelimiter (ts : List Tok) : Prop := ∀ t ∈ ts, t.delimits = false

theorem noDelimiter_append {ts us : List Tok} :
    NoDelimiter (ts ++ us) ↔ NoDelimiter ts ∧ NoDelimiter us :=
  List.forall_mem_append

theorem noDelimiter_cons {t : Tok} {ts : List Tok} :
    NoDelimiter (t :: ts) ↔ t.delimits = false ∧ NoDelimiter ts :=
  List.forall_mem_cons

theorem noDelimiter_nil : NoDelimiter [] := fun _ h => absurd h List.not_mem_nil

theorem noDelimiter_identName (n : IdentName) : NoDelimiter n.tokens := by
  cases n <;> exact noDelimiter_cons.mpr ⟨rfl, noDelimiter_nil⟩

theorem noDelimiter_numExpr (n : NumExpr) : NoDelimiter n.tokens := by
  cases n <;> exact noDelimiter_cons.mpr ⟨rfl, noDelimiter_nil⟩

/-- Two operands with an operator between them. -/
theorem NoDelimiter.join {ts us : List Tok} {t : Tok} (h : NoDelimiter ts)
    (ht : t.delimits = false) (h' : NoDelimiter us) : NoDelimiter (ts ++ t :: us) :=
  noDelimiter_append.mpr ⟨h, noDelimiter_cons.mpr ⟨ht, h'⟩⟩

mutual

theorem Expr.noDelimiter : (e : Expr) → NoDelimiter e.tokens
  | .exprLogical e => by
    rw [Expr.tokens]
    exact e.noDelimiter
  | .opLogical l op r => by
    rw [Expr.tokens]
    exact l.noDelimiter.join rfl r.noDelimiter

theorem ExprLogical.noDelimiter : (e : ExprLogical) → NoDelimiter e.tokens
  | .exprCompare e => by
    rw [ExprLogical.tokens]
    exact e.noDelimiter
  | .opCompare l op r => by
    rw [ExprLogical.tokens]
    exact l.noDelimiter.join rfl r.noDelimiter

theorem ExprCompare.noDelimiter : (e : ExprCompare) → NoDelimiter e.tokens
  | .exprAddSub e => by
    rw [ExprCompare.tokens]
    exact e.noDelimiter
  | .exprJustAdd l r | .exprJustSub l r => by
    rw [ExprCompare.tokens]
    exact l.noDelimiter.join rfl r.noDelimiter

theorem ExprAddSub.noDelimiter : (e : ExprAddSub) → NoDelimiter e.tokens
  | .exprMulDivModEtc e => by
    rw [ExprAddSub.tokens]
    exact e.noDelimiter
  | .opMulDivMod l op r | .opBitwise l op r => by
    rw [ExprAddSub.tokens]
    exact l.noDelimiter.join rfl r.noDelimiter

theorem ExprMulDivModEtc.noDelimiter : (e : ExprMulDivModEtc) → NoDelimiter e.tokens
  | .exprUnary e => by
    rw [ExprMulDivModEtc.tokens]
    exact e.noDelimiter
  | .numExpr n => by
    rw [ExprMulDivModEtc.tokens]
    exact noDelimiter_numExpr n
  | .identName n => by
    rw [ExprMulDivModEtc.tokens]
    exact noDelimiter_identName n
  | .currPc => by
    rw [ExprMulDivModEtc.tokens]
    exact noDelimiter_cons.mpr ⟨rfl, noDelimiter_nil⟩
  | .paren e => by
    rw [ExprMulDivModEtc.tokens]
    exact noDelimiter_cons.mpr ⟨rfl, e.noDelimiter.join rfl noDelimiter_nil⟩

theorem ExprUnary.noDelimiter : (e : ExprUnary) → NoDelimiter e.tokens
  | .exprBitInvert e | .exprNegate e | .exprLogNot e => by
    rw [ExprUnary.tokens]
    exact noDelimiter_cons.mpr ⟨rfl, e.noDelimiter⟩

end

/-- Operands with commas between them. -/
theorem noDelimiter_intercalate {operands : List (List Tok)}
    (h : ∀ o ∈ operands, NoDelimiter o) : NoDelimiter ([Tok.comma].intercalate operands) := by
  induction operands with
  | nil => exact noDelimiter_nil
  | cons o operands ih =>
    have hrest := ih fun o' ho' => h o' (List.mem_cons_of_mem _ ho')
    cases operands with
    | nil =>
      rw [List.intercalate_singleton]
      exact h o List.mem_cons_self
    | cons o' operands =>
      rw [List.intercalate_cons_cons, List.append_assoc]
      exact (h o List.mem_cons_self).join rfl hrest

theorem noDelimiter_exprList (e : Expr) (es : List Expr) : NoDelimiter (exprListToks e es) := by
  refine noDelimiter_intercalate fun o ho => ?_
  obtain ⟨e', -, rfl⟩ := List.mem_map.mp ho
  exact e'.noDelimiter

theorem NoDelimiter.ne_colon {ts : List Tok} (h : NoDelimiter ts) : ts ≠ [.colon] := by
  rintro rfl
  exact absurd (h .colon (List.mem_singleton_self _)) (by decide)

/-! ### Names and operands -/

/-- The name of an instruction. -/
def Instruction.name : Instruction → InstrTok
  | instrOpGrp0ThreeRegs t _ _ _ => t
  | instrOpGrp1TwoRegsOneImm t _ _ _ => t
  | instrOpGrp1TwoRegsOneSimm t _ _ _ => t
  | instrOpGrp1OneRegOnePcOneSimm _ _ => .addsi
  | instrOpGrp1OneRegOneImm _ _ => .cpyhi
  | instrOpGrp2Branch t _ _ _ => t
  | instrOpGrp3Jump t _ _ _ => t
  | instrOpGrp4Call t _ _ _ => t
  | instrOpGrp5ThreeRegsLdst t _ _ _ => t
  | instrOpGrp5TwoRegsOneSimm12Ldst t _ _ _ => t
  | instrOpGrp6NoArgs t => t
  | instrOpGrp6OneIretaOneReg _ | instrOpGrp6OneRegOneIreta _ | instrOpGrp6OneIdstaOneReg _
  | instrOpGrp6OneRegOneIdsta _ => .cpy

/-- What stands between the commas after it. -/
def Instruction.operands : Instruction → List (List Tok)
  | instrOpGrp0ThreeRegs _ rA rB rC | instrOpGrp3Jump _ rA rB rC | instrOpGrp4Call _ rA rB rC =>
    [[.reg rA], [.reg rB], [.reg rC]]
  | instrOpGrp1TwoRegsOneImm _ rA rB e | instrOpGrp1TwoRegsOneSimm _ rA rB e
  | instrOpGrp2Branch _ rA rB e => [[.reg rA], [.reg rB], e.tokens]
  | instrOpGrp1OneRegOnePcOneSimm rA e => [[.reg rA], [.pcReg], e.tokens]
  | instrOpGrp1OneRegOneImm rA e => [[.reg rA], e.tokens]
  | instrOpGrp5ThreeRegsLdst _ rA rB rC =>
    [[.reg rA], [.lBracket, .reg rB], [.reg rC, .rBracket]]
  | instrOpGrp5TwoRegsOneSimm12Ldst _ rA rB e =>
    [[.reg rA], [.lBracket, .reg rB], e.tokens ++ [.rBracket]]
  | instrOpGrp6NoArgs _ => [[]]
  | instrOpGrp6OneIretaOneReg rA => [[.iretaReg], [.reg rA]]
  | instrOpGrp6OneRegOneIreta rA => [[.reg rA], [.iretaReg]]
  | instrOpGrp6OneIdstaOneReg rA => [[.idstaReg], [.reg rA]]
  | instrOpGrp6OneRegOneIdsta rA => [[.reg rA], [.idstaReg]]

theorem Instruction.tokens_eq (i : Instruction) :
    i.tokens = .instrName i.name :: [Tok.comma].intercalate i.operands := by
  cases i <;> simp [tokens, name, operands, threeRegToks, twoRegToks, List.intercalate]

theorem Instruction.comma_notMem_operands (i : Instruction) :
    ∀ o ∈ i.operands, Tok.comma ∉ o := by
  cases i <;> simp [operands, Expr.comma_notMem]

theorem Instruction.noDelimiter_operands (i : Instruction) :
    ∀ o ∈ i.operands, NoDelimiter o := by
  cases i <;>
    simp [operands, noDelimiter_cons, noDelimiter_append, noDelimiter_nil, Expr.noDelimiter,
      Tok.delimits]

/-- The first token of a pseudo-instruction. -/
def PseudoInstruction.head : PseudoInstruction → Tok
  | pseudoInstrOpInv _ _ => .pseudoInstrName .inv
  | pseudoInstrOpInvi _ _ => .pseudoInstrName .invi
  | pseudoInstrOpGrpCpy _ _ => .instrName .cpy
  | pseudoInstrOpCpyi _ _ => .pseudoInstrName .cpyi
  | pseudoInstrOpCpya _ _ => .pseudoInstrName .cpya
  | pseudoInstrOpBra _ => .pseudoInstrName .bra
  | pseudoInstrOpJmp _ => .pseudoInstrName .jmp
  | pseudoInstrOpCall _ => .pseudoInstrName .call
  | pseudoInstrOpJmpa _ => .pseudoInstrName .jmpa
  | pseudoInstrOpCalla _ => .pseudoInstrName .calla
  | pseudoInstrOpJmpaCallaConditional t _ _ _ => .pseudoInstrName t
  | pseudoInstrOpIncDec t _ => .pseudoInstrName t
  | pseudoInstrOpAluOpTwoReg t _ _ => .instrName t
  | pseudoInstrOpAluOpOneRegOneImm t _ _ => .instrName t
  | pseudoInstrOpAluOpOneRegOneSimm t _ _ => .instrName t

def PseudoInstruction.operands : PseudoInstruction → List (List Tok)
  | pseudoInstrOpInv rA rB | pseudoInstrOpGrpCpy rA (some rB)
  | pseudoInstrOpAluOpTwoReg _ rA rB => [[.reg rA], [.reg rB]]
  | pseudoInstrOpGrpCpy rA none => [[.reg rA], [.pcReg]]
  | pseudoInstrOpInvi rA e | pseudoInstrOpCpyi rA e | pseudoInstrOpCpya rA e
  | pseudoInstrOpAluOpOneRegOneImm _ rA e | pseudoInstrOpAluOpOneRegOneSimm _ rA e =>
    [[.reg rA], e.tokens]
  | pseudoInstrOpBra e | pseudoInstrOpJmpa e | pseudoInstrOpCalla e => [e.tokens]
  | pseudoInstrOpJmp r | pseudoInstrOpCall r | pseudoInstrOpIncDec _ r => [[.reg r]]
  | pseudoInstrOpJmpaCallaConditional _ rA rB e => [[.reg rA], [.reg rB], e.tokens]

theorem PseudoInstruction.tokens_eq (p : PseudoInstruction) :
    p.tokens = p.head :: [Tok.comma].intercalate p.operands := by
  cases p with
  | pseudoInstrOpGrpCpy rA rB =>
    cases rB <;> simp [tokens, head, operands, twoRegToks, List.intercalate]
  | _ => simp [tokens, head, operands, twoRegToks, List.intercalate]

theorem PseudoInstruction.comma_notMem_operands (p : PseudoInstruction) :
    ∀ o ∈ p.operands, Tok.comma ∉ o := by
  cases p with
  | pseudoInstrOpGrpCpy rA rB => cases rB <;> simp [operands]
  | _ => simp [operands, Expr.comma_notMem]

theorem PseudoInstruction.noDelimiter_operands (p : PseudoInstruction) :
    ∀ o ∈ p.operands, NoDelimiter o := by
  cases p with
  | pseudoInstrOpGrpCpy rA rB =>
    cases rB <;> simp [operands, noDelimiter_cons, noDelimiter_nil, Tok.delimits]
  | _ => simp [operands, noDelimiter_cons, noDelimiter_nil, Expr.noDelimiter, Tok.delimits]

/-- Operands without commas are split again. -/
theorem splitOn_operands {operands : List (List Tok)} (h : ∀ o ∈ operands, Tok.comma ∉ o)
    (hne : operands ≠ []) : ([Tok.comma].intercalate operands).splitOn .comma = operands :=
  List.splitOn_intercalate _ h hne

/-! ### Reading rows -/

section Reading

variable {parseExpr : List Tok → Option Expr} {f : Expr → Expr}

/-- The kinds of the names of each choice. -/
theorem kind_of_mem :
    (∀ t ∈ aluOpNames, t.kind = .aluOp) ∧ (∀ t ∈ grp1TwoRegsOneImmNames, t.kind = .imm) ∧
    (∀ t ∈ simmNames, t.kind = .simm) ∧ (∀ t ∈ grp2BranchNames, t.kind = .branch) ∧
    (∀ t ∈ grp3JumpNames, t.kind = .jump) ∧ (∀ t ∈ grp4CallNames, t.kind = .call) ∧
    (∀ t ∈ grp5ThreeRegsLdstNames, t.kind = .ldst) ∧
    (∀ t ∈ grp5TwoRegsOneSimm12LdstNames, t.kind = .ldstSimm) ∧
    (∀ t ∈ grp6NoArgsNames, t.kind = .noArgs) ∧
    (∀ t ∈ aluOpOneRegOneImmNames, t.kind = .imm ∨ t.kind = .nori) := by
  decide

/-- A name of a choice is found again. -/
theorem choose_bind {τ β : Type} [DecidableEq τ] {names : List τ} (t : { t : τ // t ∈ names })
    (g : { t : τ // t ∈ names } → Option β) : (choose names t.val >>= g) = g t := by
  rw [choose_val]
  rfl

/-- The parser of `expr` knows every expression, and makes `f e` of the tokens of `e`. -/
def Parses (parseExpr : List Tok → Option Expr) (f : Expr → Expr) : Prop :=
  ∀ e : Expr, parseExpr e.tokens = some (f e)

theorem Parses.bind {β : Type} (h : Parses parseExpr f) (e : Expr) (g : Expr → Option β) :
    (parseExpr e.tokens >>= g) = g (f e) := by
  rw [h e]
  rfl

/-- **An instruction is read from its name and its operands.** -/
theorem readInstr_instruction (h : Parses parseExpr f) (i : Instruction) :
    readInstr parseExpr i.name i.name.kind i.operands = some (.instruction (i.mapExpr f)) := by
  obtain ⟨halu, himm, hsimm, hbranch, hjump, hcall, hldst, hldstSimm, hnoArgs, -⟩ := kind_of_mem
  cases i with
  | instrOpGrp0ThreeRegs t rA rB rC =>
    rw [Instruction.name, halu _ t.property]
    exact choose_bind t _
  | instrOpGrp1TwoRegsOneImm t rA rB e =>
    rw [Instruction.name, himm _ t.property]
    exact (choose_bind t _).trans (h.bind e _)
  | instrOpGrp1TwoRegsOneSimm t rA rB e =>
    rw [Instruction.name, hsimm _ t.property]
    exact (choose_bind t _).trans (h.bind e _)
  | instrOpGrp1OneRegOnePcOneSimm rA e => exact h.bind e _
  | instrOpGrp1OneRegOneImm rA e => exact h.bind e _
  | instrOpGrp2Branch t rA rB e =>
    rw [Instruction.name, hbranch _ t.property]
    exact (choose_bind t _).trans (h.bind e _)
  | instrOpGrp3Jump t rA rB rC =>
    rw [Instruction.name, hjump _ t.property]
    exact choose_bind t _
  | instrOpGrp4Call t rA rB rC =>
    rw [Instruction.name, hcall _ t.property]
    exact choose_bind t _
  | instrOpGrp5ThreeRegsLdst t rA rB rC =>
    rw [Instruction.name, hldst _ t.property]
    exact choose_bind t _
  | instrOpGrp5TwoRegsOneSimm12Ldst t rA rB e =>
    rw [Instruction.name, hldstSimm _ t.property]
    refine (if_pos List.getLast?_concat).trans ((choose_bind t _).trans ?_)
    rw [List.dropLast_concat]
    exact h.bind e _
  | instrOpGrp6NoArgs t =>
    rw [Instruction.name, hnoArgs _ t.property]
    exact choose_bind t _
  | instrOpGrp6OneIretaOneReg rA
  | instrOpGrp6OneRegOneIreta rA
  | instrOpGrp6OneIdstaOneReg rA
  | instrOpGrp6OneRegOneIdsta rA => rfl

/-- **So is a pseudo-instruction**, by the reader that its first token leads to. -/
theorem readPseudo_operands (h : Parses parseExpr f) (p : PseudoInstruction) :
    (∃ t, p.head = .instrName t ∧
      readInstr parseExpr t t.kind p.operands = some (.pseudoInstruction (p.mapExpr f))) ∨
    ∃ t, p.head = .pseudoInstrName t ∧ readPseudo parseExpr t p.operands = some (p.mapExpr f) := by
  obtain ⟨halu, -, hsimm, -, -, -, -, -, -, himm⟩ := kind_of_mem
  cases p with
  | pseudoInstrOpInv rA rB => exact .inr ⟨_, rfl, rfl⟩
  | pseudoInstrOpInvi rA e => exact .inr ⟨_, rfl, h.bind e _⟩
  | pseudoInstrOpGrpCpy rA rB =>
    left
    cases rB with
    | none => exact ⟨_, rfl, rfl⟩
    | some rB => exact ⟨_, rfl, rfl⟩
  | pseudoInstrOpCpyi rA e => exact .inr ⟨_, rfl, h.bind e _⟩
  | pseudoInstrOpCpya rA e => exact .inr ⟨_, rfl, h.bind e _⟩
  | pseudoInstrOpBra e => exact .inr ⟨_, rfl, h.bind e _⟩
  | pseudoInstrOpJmp rC => exact .inr ⟨_, rfl, rfl⟩
  | pseudoInstrOpCall rC => exact .inr ⟨_, rfl, rfl⟩
  | pseudoInstrOpJmpa e => exact .inr ⟨_, rfl, h.bind e _⟩
  | pseudoInstrOpCalla e => exact .inr ⟨_, rfl, h.bind e _⟩
  | pseudoInstrOpJmpaCallaConditional t rA rB e =>
    refine .inr ⟨_, rfl, ?_⟩
    have hread : readPseudo parseExpr t.val [[.reg rA], [.reg rB], e.tokens] =
        (choose jmpaCallaConditionalNames t.val >>= fun t => parseExpr e.tokens >>= fun e =>
          some (.pseudoInstrOpJmpaCallaConditional t rA rB e)) := by
      obtain ⟨t, ht⟩ := t
      simp only [jmpaCallaConditionalNames, List.mem_cons, List.not_mem_nil, or_false] at ht
      rcases ht with rfl | rfl | rfl | rfl <;> rfl
    refine hread.trans ((choose_bind t _).trans ?_)
    exact h.bind e _
  | pseudoInstrOpIncDec t rA =>
    refine .inr ⟨_, rfl, ?_⟩
    have hread : readPseudo parseExpr t.val [[.reg rA]] =
        (choose incDecNames t.val >>= fun t => some (.pseudoInstrOpIncDec t rA)) := by
      obtain ⟨t, ht⟩ := t
      simp only [incDecNames, List.mem_cons, List.not_mem_nil, or_false] at ht
      rcases ht with rfl | rfl <;> rfl
    exact hread.trans (choose_bind t _)
  | pseudoInstrOpAluOpTwoReg t rA rB =>
    refine .inl ⟨_, rfl, ?_⟩
    rw [halu _ t.property]
    exact choose_bind t _
  | pseudoInstrOpAluOpOneRegOneImm t rA e =>
    refine .inl ⟨_, rfl, ?_⟩
    rcases himm _ t.property with hkind | hkind
    · rw [hkind]
      refine (choose_bind t _).trans ?_
      exact h.bind e _
    · rw [hkind]
      refine (choose_bind t _).trans ?_
      exact h.bind e _
  | pseudoInstrOpAluOpOneRegOneSimm t rA e =>
    refine .inl ⟨_, rfl, ?_⟩
    rw [hsimm _ t.property]
    exact (choose_bind t _).trans (h.bind e _)

/-- The expressions of a list are read from what stands between the commas. -/
theorem readExprs_tokens (h : Parses parseExpr f) (e : Expr) (es : List Expr) :
    readExprs parseExpr ((exprListToks e es).splitOn .comma) = some (f e, es.map f) := by
  have hcomma : ∀ o ∈ (e :: es).map Expr.tokens, Tok.comma ∉ o := by
    intro o ho
    obtain ⟨e', -, rfl⟩ := List.mem_map.mp ho
    exact e'.comma_notMem
  have hall : ∀ es : List Expr, (es.map Expr.tokens).mapM parseExpr = some (es.map f) := by
    intro es
    induction es with
    | nil => rfl
    | cons e es ih =>
      rw [List.map_cons, List.mapM_cons, h e, ih]
      rfl
  rw [exprListToks, splitOn_operands hcomma (by simp), readExprs, hall]
  rfl

/-- A row that starts with a name is not that of a label. -/
theorem readRow_of_noDelimiter (parseExpr : List Tok → Option Expr) {ts : List Tok}
    (hts : NoDelimiter ts) :
    (∀ t, readRow parseExpr (.instrName t :: ts) =
        readInstr parseExpr t t.kind (ts.splitOn .comma)) ∧
      ∀ t, readRow parseExpr (.pseudoInstrName t :: ts) =
        (readPseudo parseExpr t (ts.splitOn .comma)).map .pseudoInstruction := by
  constructor
  · intro t
    rw [readRow]
    exact hts.ne_colon
  · intro t
    rw [readRow]
    exact hts.ne_colon

/-- **Every row is read as its line.** -/
theorem readRow_tokens (h : Parses parseExpr f) :
    (∀ i : Instruction, readRow parseExpr i.tokens = some (.instruction (i.mapExpr f))) ∧
    (∀ p : PseudoInstruction,
      readRow parseExpr p.tokens = some (.pseudoInstruction (p.mapExpr f))) ∧
    (∀ d : Directive, readRow parseExpr d.tokens = some (.directive (d.mapExpr f))) ∧
    ∀ n : IdentName, readRow parseExpr (n.tokens ++ [.colon]) = some (.label n) := by
  refine ⟨fun i => ?_, fun p => ?_, fun d => ?_, fun n => ?_⟩
  · have hne : i.operands ≠ [] := by cases i <;> simp [Instruction.operands]
    have hrow := readRow_of_noDelimiter parseExpr (noDelimiter_intercalate i.noDelimiter_operands)
    rw [i.tokens_eq, hrow.1, splitOn_operands i.comma_notMem_operands hne, readInstr_instruction h]
  · have hne : p.operands ≠ [] := by
      cases p with
      | pseudoInstrOpGrpCpy rA rB => cases rB <;> simp [PseudoInstruction.operands]
      | _ => simp [PseudoInstruction.operands]
    have hrow := readRow_of_noDelimiter parseExpr
      (noDelimiter_intercalate p.noDelimiter_operands)
    rw [p.tokens_eq]
    rcases readPseudo_operands h p with ⟨t, ht, hread⟩ | ⟨t, ht, hread⟩
    · rw [ht, hrow.1, splitOn_operands p.comma_notMem_operands hne, hread]
    · rw [ht, hrow.2, splitOn_operands p.comma_notMem_operands hne, hread]
      rfl
  · cases d with
    | dotOrgDirective e
    | dotSpaceDirective e =>
      rw [Directive.tokens, readRow, h e]
      · rfl
      · exact e.noDelimiter.ne_colon
    | dotDbDirective e es
    | dotDb16Directive e es
    | dotDb8Directive e es =>
      rw [Directive.tokens, readRow, readExprs_tokens h]
      · rfl
      · exact (noDelimiter_exprList e es).ne_colon
  · cases n <;> rfl

/-! ### Reading programs -/

/-- A row that is no end of a scope. -/
theorem readRows_cons {row : List Tok} {l : Line} (hread : readRow parseExpr row = some l)
    (hopen : row ≠ [.lBrace]) (hclose : row ≠ [.rBrace]) (rows : List (List Tok))
    (lines : List Line) (outer : List (List Line)) :
    readRows parseExpr (row :: rows) lines outer = readRows parseExpr rows (l :: lines) outer := by
  rw [readRows, hread]
  · rfl
  · exact hopen
  · exact fun _ _ _ hrow => hclose hrow

theorem NoDelimiter.ne_brace {ts : List Tok} (h : NoDelimiter ts) :
    ts ≠ [.lBrace] ∧ ts ≠ [.rBrace] := by
  constructor
  · rintro rfl
    exact absurd (h .lBrace (List.mem_singleton_self _)) (by decide)
  · rintro rfl
    exact absurd (h .rBrace (List.mem_singleton_self _)) (by decide)

theorem Instruction.noDelimiter (i : Instruction) : NoDelimiter i.tokens := by
  rw [i.tokens_eq]
  exact noDelimiter_cons.mpr ⟨rfl, noDelimiter_intercalate i.noDelimiter_operands⟩

theorem PseudoInstruction.noDelimiter (p : PseudoInstruction) : NoDelimiter p.tokens := by
  rw [p.tokens_eq]
  refine noDelimiter_cons.mpr ⟨?_, noDelimiter_intercalate p.noDelimiter_operands⟩
  cases p <;> rfl

theorem Directive.noDelimiter (d : Directive) : NoDelimiter d.tokens := by
  cases d with
  | dotOrgDirective e
  | dotSpaceDirective e => exact noDelimiter_cons.mpr ⟨rfl, e.noDelimiter⟩
  | dotDbDirective e es
  | dotDb16Directive e es
  | dotDb8Directive e es => exact noDelimiter_cons.mpr ⟨rfl, noDelimiter_exprList e es⟩

mutual

theorem readRows_line (h : Parses parseExpr f) (rows : List (List Tok)) (lines : List Line)
    (outer : List (List Line)) : (l : Line) →
    readRows parseExpr (l.rows ++ rows) lines outer =
      readRows parseExpr rows (l.mapExpr f :: lines) outer
  | .scopedLines ls => by
    rw [Line.rows, Line.mapExpr, List.cons_append, List.append_assoc, readRows,
      readRows_lines h _ [] (lines :: outer) ls, List.append_nil, List.singleton_append, readRows,
      List.reverse_reverse]
  | .label n => by
    have hne : ∀ t : Tok, n.tokens ++ [.colon] ≠ [t] := by
      intro t
      cases n <;> simp [IdentName.tokens]
    rw [Line.rows, Line.mapExpr, List.singleton_append]
    exact readRows_cons ((readRow_tokens h).2.2.2 n) (hne _) (hne _) rows lines outer
  | .instruction i => by
    rw [Line.rows, Line.mapExpr, List.singleton_append]
    exact readRows_cons ((readRow_tokens h).1 i) i.noDelimiter.ne_brace.1 i.noDelimiter.ne_brace.2
      rows lines outer
  | .pseudoInstruction p => by
    rw [Line.rows, Line.mapExpr, List.singleton_append]
    exact readRows_cons ((readRow_tokens h).2.1 p) p.noDelimiter.ne_brace.1
      p.noDelimiter.ne_brace.2 rows lines outer
  | .directive d => by
    rw [Line.rows, Line.mapExpr, List.singleton_append]
    exact readRows_cons ((readRow_tokens h).2.2.1 d) d.noDelimiter.ne_brace.1
      d.noDelimiter.ne_brace.2 rows lines outer
  | .newline => by
    rw [Line.rows, Line.mapExpr, List.singleton_append]
    exact readRows_cons rfl (by simp) (by simp) rows lines outer

/-- **The rows of lines are read as these lines.** -/
theorem readRows_lines (h : Parses parseExpr f) (rows : List (List Tok)) (lines : List Line)
    (outer : List (List Line)) : (ls : List Line) →
    readRows parseExpr (linesRows ls ++ rows) lines outer =
      readRows parseExpr rows ((linesMapExpr f ls).reverse ++ lines) outer
  | [] => by
    rw [linesRows, linesMapExpr]
    rfl
  | l :: ls => by
    rw [linesRows, linesMapExpr, List.append_assoc, readRows_line h _ lines outer l,
      readRows_lines h rows _ outer ls, List.reverse_cons, List.append_assoc,
      List.singleton_append]

end

theorem NoDelimiter.newline_notMem {ts : List Tok} (h : NoDelimiter ts) : Tok.newline ∉ ts :=
  fun hmem => absurd (h .newline hmem) (by decide)

mutual

theorem Line.newline_notMem_rows : (l : Line) → ∀ row ∈ l.rows, Tok.newline ∉ row
  | .scopedLines ls => by
    rw [Line.rows]
    intro row hrow
    rcases List.mem_cons.mp hrow with rfl | hrow
    · decide
    rcases List.mem_append.mp hrow with hrow | hrow
    · exact newline_notMem_linesRows ls row hrow
    · rw [List.mem_singleton.mp hrow]
      decide
  | .label n => by
    rw [Line.rows]
    intro row hrow
    rw [List.mem_singleton.mp hrow]
    cases n <;> simp [IdentName.tokens]
  | .instruction i => by
    rw [Line.rows]
    intro row hrow
    rw [List.mem_singleton.mp hrow]
    exact i.noDelimiter.newline_notMem
  | .pseudoInstruction p => by
    rw [Line.rows]
    intro row hrow
    rw [List.mem_singleton.mp hrow]
    exact p.noDelimiter.newline_notMem
  | .directive d => by
    rw [Line.rows]
    intro row hrow
    rw [List.mem_singleton.mp hrow]
    exact d.noDelimiter.newline_notMem
  | .newline => by
    rw [Line.rows]
    intro row hrow
    rw [List.mem_singleton.mp hrow]
    decide

theorem newline_notMem_linesRows : (ls : List Line) → ∀ row ∈ linesRows ls, Tok.newline ∉ row
  | [] => by
    rw [linesRows]
    exact fun row hrow => absurd hrow List.not_mem_nil
  | l :: ls => by
    rw [linesRows]
    intro row hrow
    rcases List.mem_append.mp hrow with hrow | hrow
    · exact l.newline_notMem_rows row hrow
    · exact newline_notMem_linesRows ls row hrow

end

theorem splitOn_rowsToks {rows : List (List Tok)} (h : ∀ row ∈ rows, Tok.newline ∉ row) :
    (rowsToks rows).splitOn .newline = rows ++ [[]] := by
  induction rows with
  | nil => rfl
  | cons row rows ih =>
    have hrest := ih fun row' hrow' => h row' (List.mem_cons_of_mem _ hrow')
    rw [rowsToks, List.flatMap_cons, List.append_assoc, List.singleton_append,
      List.splitOn_append_cons_self_of_not_mem (h row List.mem_cons_self)]
    exact congrArg (row :: ·) hrest

/-- **The reader finds every program**, up to what the parser of `expr` makes of its
    operands. -/
theorem Program.read_tokens (h : Parses parseExpr f) (program : Program) :
    Program.read parseExpr program.tokens = some (program.mapExpr f) := by
  have hrows := splitOn_rowsToks (newline_notMem_linesRows program)
  have hread := readRows_lines h [] [] [] program
  rw [List.append_nil, List.append_nil, readRows, List.reverse_reverse] at hread
  rw [Program.read, Program.tokens, hrows, if_pos List.getLast?_concat, List.dropLast_concat]
  exact hread

end Reading

/-! ### One parse tree -/

/-- One of the expressions with the same tokens, the same for all of them. -/
noncomputable def Expr.chosen (e : Expr) : Expr :=
  Classical.choose (⟨e, rfl⟩ : ∃ e' : Expr, e'.tokens = e.tokens)

theorem Expr.tokens_chosen (e : Expr) : e.chosen.tokens = e.tokens :=
  Classical.choose_spec (⟨e, rfl⟩ : ∃ e' : Expr, e'.tokens = e.tokens)

/-- **Programs with the same tokens differ in how their operand expressions are parsed only.** -/
theorem Program.chosen_eq_of_tokens_eq {p q : Program} (h : q.tokens = p.tokens) :
    q.mapExpr Expr.chosen = p.mapExpr Expr.chosen := by
  classical
  let parseExpr (ts : List Tok) : Option Expr :=
    if hts : ∃ e : Expr, e.tokens = ts then some (Classical.choose hts) else none
  have hparse : Parses parseExpr Expr.chosen := fun e => dif_pos ⟨e, rfl⟩
  have hq := Program.read_tokens hparse q
  rw [h, Program.read_tokens hparse p] at hq
  exact (Option.some.inj hq).symm

/-- Operand expressions that have one parse tree leave no other program. -/
theorem Program.eq_of_tokens_eq {p q : Program} (hclear : ∀ e ∈ p.exprs, PrefixesLast e.tokens)
    (htokens : q.tokens = p.tokens) : q = p := by
  have hchosen : ∀ e : Expr, PrefixesLast e.tokens → e.chosen = e := fun e he =>
    e.one_parse_iff.mpr he _ e.tokens_chosen
  have hp : p.mapExpr Expr.chosen = p :=
    linesMapExpr_eq_self p fun e he => hchosen e (hclear e he)
  have hq := Program.chosen_eq_of_tokens_eq htokens
  rw [hp] at hq
  -- the operands of the other program have the same tokens
  have hexprs : q.exprs.map Expr.chosen = p.exprs :=
    (linesExprs_linesMapExpr Expr.chosen q).symm.trans (congrArg Program.exprs hq)
  have hself : q.mapExpr Expr.chosen = q := by
    refine linesMapExpr_eq_self q fun e he => hchosen e ?_
    have hmem : e.chosen ∈ p.exprs := hexprs ▸ List.mem_map_of_mem he
    exact e.tokens_chosen ▸ hclear _ hmem
  exact hself.symm.trans hq

/-- One of two trees of an operand may stand for the other. -/
theorem Program.prefixesLast_of_one_parse {p : Program}
    (hone : ∀ q : Program, q.tokens = p.tokens → q = p) : ∀ e ∈ p.exprs, PrefixesLast e.tokens := by
  intro e he
  rw [← e.one_parse_iff]
  intro e' htokens
  classical
  -- the other tree of the operand in its place
  let f (x : Expr) : Expr := if x = e then e' else x
  have hf : KeepsTokens f := by
    intro x
    by_cases hx : x = e
    · rw [show f x = e' from if_pos hx, htokens, hx]
    · rw [show f x = x from if_neg hx]
  have hsame := hone (p.mapExpr f) (congrArg rowsToks (linesRows_linesMapExpr hf p))
  have hexprs : p.exprs.map f = p.exprs :=
    (linesExprs_linesMapExpr f p).symm.trans (congrArg Program.exprs hsame)
  have hfixed : f e = e := List.map_inj_left.mp (hexprs.trans (List.map_id _).symm) e he
  rwa [show f e = e' from if_pos rfl] at hfixed

/-- **A program has one parse tree if and only if each of its operand expressions has**: no
    infix operator stands to the right of a prefix operator in the same parentheses. -/
theorem Program.one_parse_tree (p : Program) :
    (∀ q : Program, q.tokens = p.tokens → q = p) ↔ ∀ e ∈ p.exprs, PrefixesLast e.tokens :=
  ⟨fun hone => prefixesLast_of_one_parse hone, fun hclear _ => eq_of_tokens_eq hclear⟩

end Frost32.Asm
