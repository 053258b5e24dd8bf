import Frost32.Asm.Expressions
import Frost32.Lib.MaximalMunch
import Mathlib.Data.List.Nodup

namespace Frost32.Asm

open Munch

/-!
# The lexer of `AssemblerGrammar`

The lexer rules, in the order of the grammar, with the longest match.  A rule with alternatives
has an entry for each of them.

* `Tok.text` — the text of a token.
* `rules`, `lex` — the lexer.
* `Tok.Lexical`, `Tok.joins` — the tokens the lexer makes, and the characters that may change
  what it makes of a text that they follow.
* `lex_text` — **a token is read back from its text**, unless the next character joins it.
* `Spells`, `lex_of_spells` — **tokens are read back from every text that spells them**, with
  any blanks and comments between them.
* `lex_word` — a word is looked up among the keywords.
* `lex_spelling` — the token sequences that the lexer makes, and from which texts.
-/

/-! ### The texts of tokens -/

def TokOpLogical.text : TokOpLogical → String
  | and => "&&" | or => "||"

def TokOpCompare.text : TokOpCompare → String
  | eq => "==" | ne => "!=" | lt => "<" | gt => ">" | le => "<=" | ge => ">="

def TokOpMulDivMod.text : TokOpMulDivMod → String
  | mul => "*" | div => "/" | mod => "%"

def TokOpBitwise.text : TokOpBitwise → String
  | and => "&" | or => "|" | xor => "^" | shl => "<<" | shr => ">>" | sar => ">>>"

def Tok.text : Tok → List Char
  | .opLogical op => op.text.toList
  | .opCompare op => op.text.toList
  | .plus => "+".toList
  | .minus => "-".toList
  | .opMulDivMod op => op.text.toList
  | .opBitwise op => op.text.toList
  | .bitInvert => "~".toList
  | .decNum ds => ds.val
  | .hexNum ds => '0' :: 'x' :: ds.val
  | .binNum ds => '0' :: 'b' :: ds.val
  | .instrName t => t.text.toList
  | .pseudoInstrName t => t.text.toList
  | .dotOrg => ".org".toList
  | .dotSpace => ".space".toList
  | .dotDb => ".db".toList
  | .dotDb16 => ".db16".toList
  | .dotDb8 => ".db8".toList
  | .period => ".".toList
  | .comma => ",".toList
  | .colon => ":".toList
  | .exclamPoint => "!".toList
  | .lParen => "(".toList
  | .rParen => ")".toList
  | .lBracket => "[".toList
  | .rBracket => "]".toList
  | .lBrace => "\x7b".toList
  | .rBrace => "\x7d".toList
  | .newline => "\n".toList
  | .reg r => r.text.toList
  | .pcReg => "pc".toList
  | .iretaReg => "ireta".toList
  | .idstaReg => "idsta".toList
  | .ident name => name.toList
  | .other c => [c]

/-! ### The rules -/

/-- `TokOpLogical` to `TokBitInvert`. -/
def operatorToks : List Tok :=
  [.opLogical .and, .opLogical .or,
    .opCompare .eq, .opCompare .ne, .opCompare .lt, .opCompare .gt, .opCompare .le,
    .opCompare .ge,
    .plus, .minus, .opMulDivMod .mul, .opMulDivMod .div, .opMulDivMod .mod,
    .opBitwise .and, .opBitwise .or, .opBitwise .xor, .opBitwise .shl, .opBitwise .shr,
    .opBitwise .sar, .bitInvert]

/-- `TokInstrNameAdd` to `TokPseudoInstrNameDec`. -/
def nameToks : List Tok := InstrTok.all.map .instrName ++ PseudoTok.all.map .pseudoInstrName

/-- `TokDotOrg` to `TokNewline`. -/
def punctuationToks : List Tok :=
  [.dotOrg, .dotSpace, .dotDb, .dotDb16, .dotDb8, .period, .comma, .colon, .exclamPoint,
    .lParen, .rParen, .lBracket, .rBracket, .lBrace, .rBrace, .newline]

/-- `TokReg` to `TokIdstaReg`. -/
def registerToks : List Tok := TokReg.all.map .reg ++ [.pcReg, .iretaReg, .idstaReg]

/-- The tokens with a fixed text. -/
def fixedToks : List Tok := operatorToks ++ nameToks ++ punctuationToks ++ registerToks

/-- The rule of a token with a fixed text. -/
def fixedRule (t : Tok) : Rule Char Tok := .literal t.text (some t)

/-- A number has its digits after a marker; the text it matched is made of them. -/
def numberRule (marker : List Char) (kind : Char → Bool) (tok : Digits kind → Tok) :
    Rule Char Tok :=
  .run (marker.map (fun m c => c == m) ++ [kind]) kind fun text =>
    let ds := text.drop marker.length
    if h : ds ≠ [] ∧ ds.all kind = true then some (tok ⟨ds, h⟩) else none

def decNumRule : Rule Char Tok := numberRule [] Char.isDigit .decNum
def hexNumRule : Rule Char Tok := numberRule ['0', 'x'] isHexDigit .hexNum
def binNumRule : Rule Char Tok := numberRule ['0', 'b'] (fun c => c == '0' || c == '1') .binNum

/-- `LexLineComment`, for each of its two openings. -/
def lineCommentRule (opening : List Char) : Rule Char Tok :=
  .run (opening.map fun m c => c == m) (fun c => c != '\n') fun _ => none

def isIdentStart (c : Char) : Bool := c.isAlpha || c == '_'

def isIdentRest (c : Char) : Bool := isIdentStart c || c.isDigit

def identRule : Rule Char Tok :=
  .run [isIdentStart] isIdentRest fun text => some (.ident (String.ofList text))

def otherRule : Rule Char Tok :=
  .run [fun _ => true] (fun _ => false) fun text => text.head?.map .other

/-- `LexWhitespace` and `LexLineComment`. -/
def skipRules : List (Rule Char Tok) :=
  [.literal [' '] none, .literal ['\t'] none, lineCommentRule ['/', '/'], lineCommentRule [';']]

def numberRules : List (Rule Char Tok) := [decNumRule, hexNumRule, binNumRule]

/-- All rules but the last two. -/
def mainRules : List (Rule Char Tok) :=
  skipRules ++ operatorToks.map fixedRule ++ numberRules ++
    (nameToks ++ punctuationToks ++ registerToks).map fixedRule

def rules : List (Rule Char Tok) := mainRules ++ [identRule, otherRule]

/-- The tokens of a text. -/
def lex (cs : List Char) : List Tok := Munch.lex rules cs

theorem mem_mainRules {r : Rule Char Tok} (h : r ∈ mainRules) :
    r ∈ skipRules ∨ r ∈ numberRules ∨ ∃ t ∈ fixedToks, fixedRule t = r := by
  simp only [mainRules, List.mem_append, List.mem_map] at h
  rcases h with ((hskip | ⟨t, ht, rfl⟩) | hnum) | ⟨t, ht, rfl⟩
  · exact .inl hskip
  · exact .inr (.inr ⟨t, by simp [fixedToks, ht], rfl⟩)
  · exact .inr (.inl hnum)
  · refine .inr (.inr ⟨t, ?_, rfl⟩)
    rcases ht with (ht | ht) | ht <;> simp [fixedToks, ht]

theorem skipRule_mem {r : Rule Char Tok} (h : r ∈ skipRules) : r ∈ mainRules :=
  List.mem_append_left _ (List.mem_append_left _ (List.mem_append_left _ h))

theorem numberRule_mem {r : Rule Char Tok} (h : r ∈ numberRules) : r ∈ mainRules :=
  List.mem_append_left _ (List.mem_append_right _ h)

theorem fixedRule_mem {t : Tok} (h : t ∈ fixedToks) : fixedRule t ∈ mainRules := by
  simp only [fixedToks, List.mem_append] at h
  simp only [mainRules, List.mem_append, List.mem_map]
  rcases h with ((h | h) | h) | h
  · exact .inl (.inl (.inr ⟨t, h, rfl⟩))
  · exact .inr ⟨t, .inl (.inl h), rfl⟩
  · exact .inr ⟨t, .inl (.inr h), rfl⟩
  · exact .inr ⟨t, .inr h, rfl⟩

/-! ### Fixed texts -/

/-- Characters with which neither a number nor anything that is skipped starts. -/
def startsFixed (c : Char) : Bool := !(c.isDigit || c == ' ' || c == '\t' || c == ';')

/-- What the lexer relies on of a fixed text. -/
structure FixedText (text : List Char) : Prop where
  ne_nil : text ≠ []
  start : ∀ c, text.head? = some c → startsFixed c = true
  slash : text.head? = some '/' → text = ['/']
  word : ∀ c, text.head? = some c → isIdentStart c = true → ∀ x ∈ text, isIdentRest x = true
  no_blank : ∀ x ∈ text, x ≠ ' '

/-- The same, computed. -/
def isFixedText (text : List Char) : Bool :=
  text != [] && text.head?.all startsFixed && (text.head? != some '/' || text == ['/']) &&
    (!text.head?.any isIdentStart || text.all isIdentRest) && text.all (fun x => x != ' ')

theorem fixedText_of_isFixedText {text : List Char} (h : isFixedText text = true) :
    FixedText text := by
  simp only [isFixedText, Bool.and_eq_true, Bool.or_eq_true, Bool.not_eq_true', bne_iff_ne, ne_eq,
    List.all_eq_true, beq_iff_eq] at h
  obtain ⟨⟨⟨⟨hne, hstart⟩, hslash⟩, hword⟩, hblank⟩ := h
  refine ⟨hne, fun c hc => ?_, fun hc => hslash.resolve_left (not_not_intro hc), ?_, hblank⟩
  · rw [hc] at hstart
    exact hstart
  · intro c hc hident
    refine hword.resolve_left ?_
    rw [hc]
    simpa using hident

theorem fixedText_of_mem {t : Tok} (h : t ∈ fixedToks) : FixedText t.text := by
  have hall : ∀ t ∈ fixedToks, isFixedText t.text = true := by decide +kernel
  exact fixedText_of_isFixedText (hall t h)

/-- **No two tokens have the same fixed text.** -/
theorem eq_of_text_eq {t u : Tok} (ht : t ∈ fixedToks) (hu : u ∈ fixedToks)
    (h : t.text = u.text) : t = u := by
  -- numbers are compared faster than texts
  let key (t : Tok) : Nat := t.text.foldl (fun k c => 128 * k + c.toNat) 0
  have hnodup : (fixedToks.map key).Nodup := by decide +kernel
  refine List.inj_on_of_nodup_map hnodup ht hu ?_
  show t.text.foldl _ 0 = u.text.foldl _ 0
  rw [h]

/-! ### Rules that do not match -/

theorem munch_fixedRule_of_head {t : Tok} (ht : t ∈ fixedToks) {c : Char} {cs : List Char}
    (h : t.text.head? ≠ some c) : (fixedRule t).munch (c :: cs) = 0 := by
  refine if_neg fun hpref => ?_
  obtain ⟨x, xs, htext⟩ := List.exists_cons_of_ne_nil (fixedText_of_mem ht).ne_nil
  rw [htext] at h hpref
  obtain ⟨hx, -⟩ := List.cons_prefix_cons.mp hpref
  exact h (congrArg some hx)

theorem munch_blank {x c : Char} (h : c ≠ x) (cs : List Char) :
    (Rule.literal [x] (none : Option Tok)).munch (c :: cs) = 0 :=
  if_neg fun hpref => h (List.cons_prefix_cons.mp hpref).1.symm

theorem munch_skipRules {c : Char} (hc : c ≠ ' ' ∧ c ≠ '\t' ∧ c ≠ '/' ∧ c ≠ ';')
    (cs : List Char) : ∀ r ∈ skipRules, r.munch (c :: cs) = 0 := by
  obtain ⟨hblank, htab, hslash, hsemicolon⟩ := hc
  intro r hr
  simp only [skipRules, List.mem_cons, List.not_mem_nil, or_false] at hr
  rcases hr with rfl | rfl | rfl | rfl
  · exact munch_blank hblank cs
  · exact munch_blank htab cs
  · exact munch_run_of_head (by simp [hslash])
  · exact munch_run_of_head (by simp [hsemicolon])

theorem munch_numberRules {c : Char} (hc : c.isDigit = false) (cs : List Char) :
    ∀ r ∈ numberRules, r.munch (c :: cs) = 0 := by
  have hzero : c ≠ '0' := by
    rintro rfl
    exact absurd hc (by decide)
  intro r hr
  simp only [numberRules, List.mem_cons, List.not_mem_nil, or_false] at hr
  rcases hr with rfl | rfl | rfl
  · exact munch_run_of_head hc
  · exact munch_run_of_head (by simp [hzero])
  · exact munch_run_of_head (by simp [hzero])

theorem munch_identRule_of_head {c : Char} (hc : isIdentStart c = false) (cs : List Char) :
    identRule.munch (c :: cs) = 0 :=
  munch_run_of_head hc

@[simp] theorem munch_otherRule (c : Char) (cs : List Char) :
    otherRule.munch (c :: cs) = 1 := by
  show (((munchRun _ [] cs).map (· + 1)).getD 0) = 1
  rw [munchRun]
  cases cs <;> rfl

/-! ### The characters that join a token -/

/-- A longer fixed text, a comment or a longer word may start like this. -/
def joinsFixed (text : List Char) (c : Char) : Bool :=
  fixedToks.any (fun u => (text ++ [c]).isPrefixOf u.text) ||
    (text == ['/'] && c == '/') || (text.head?.any isIdentStart && isIdentRest c)

/-- The character may change what the lexer makes of the text of the token before it. -/
def Tok.joins (c : Char) : Tok → Bool
  | .decNum ds => c.isDigit || (ds.val == ['0'] && (c == 'x' || c == 'b'))
  | .hexNum _ => isHexDigit c
  | .binNum _ => c == '0' || c == '1'
  | .ident _ => isIdentRest c
  | t => joinsFixed t.text c

/-- The token is what the lexer makes of its text: a name is no name of an instruction or a
    register, and any other character starts nothing else. -/
def Tok.Lexical : Tok → Prop
  | .ident name =>
    (∃ c cs, name.toList = c :: cs ∧ isIdentStart c = true ∧ ∀ x ∈ cs, isIdentRest x = true) ∧
      ∀ u ∈ fixedToks, u.text ≠ name.toList
  | .other c =>
    (c ≠ ' ' ∧ c ≠ '\t' ∧ c ≠ ';') ∧ c.isDigit = false ∧ isIdentStart c = false ∧
      ∀ u ∈ fixedToks, u.text ≠ [c]
  | _ => True

/-- The token does not end before the rest of the text. -/
def Tok.Stops (t : Tok) (rest : List Char) : Prop := ∀ c, rest.head? = some c → t.joins c = false

/-- Letters and `_` start no number and nothing that is skipped. -/
theorem not_of_isIdentStart {c : Char} (h : isIdentStart c = true) :
    (c ≠ ' ' ∧ c ≠ '\t' ∧ c ≠ '/' ∧ c ≠ ';') ∧ c.isDigit = false := by
  refine ⟨⟨?_, ?_, ?_, ?_⟩, ?_⟩
  · rintro rfl
    exact absurd h (by decide)
  · rintro rfl
    exact absurd h (by decide)
  · rintro rfl
    exact absurd h (by decide)
  · rintro rfl
    exact absurd h (by decide)
  · have hranges : ((decide ('A'.val ≤ c.val ∧ c.val ≤ 'Z'.val) ||
        (decide ('a'.val ≤ c.val) && decide (c.val ≤ 'z'.val))) || c == '_') = true := h
    simp only [Bool.or_eq_true, Bool.and_eq_true, decide_eq_true_eq, beq_iff_eq,
      UInt32.le_iff_toNat_le] at hranges
    simp only [Char.isDigit, Bool.and_eq_false_iff, decide_eq_false_iff_not,
      UInt32.le_iff_toNat_le, ge_iff_le]
    have h₁ : 'A'.val.toNat = 65 := rfl
    have h₂ : 'a'.val.toNat = 97 := rfl
    have h₃ : '9'.val.toNat = 57 := rfl
    have h₄ : '_'.val.toNat = 95 := rfl
    rcases hranges with (h | h) | rfl
    · omega
    · omega
    · omega

/-! ### Tokens are read back -/

section Tokens

variable {rest : List Char}

/-- A rule that does not match is no competitor. -/
theorem harmless {r : Rule Char Tok} {cs text : List Char} {tok : Option Tok}
    (h : r.munch cs = 0) (hne : text ≠ []) :
    r.munch cs ≤ text.length ∧ (r.munch cs = text.length → r.token text = tok) := by
  have hpos := List.length_pos_of_ne_nil hne
  exact ⟨by omega, fun heq => by omega⟩

/-- Nothing that is skipped starts like a token with a fixed text. -/
theorem munch_skipRules_fixed {t : Tok} (ht : t ∈ fixedToks)
    (hstop : ∀ c, rest.head? = some c → joinsFixed t.text c = false) :
    ∀ r ∈ skipRules, r.munch (t.text ++ rest) = 0 := by
  have hfixed := fixedText_of_mem ht
  obtain ⟨c, cs, htext⟩ := List.exists_cons_of_ne_nil hfixed.ne_nil
  have hstart := hfixed.start c (by rw [htext]; rfl)
  simp only [startsFixed, Bool.not_eq_true', Bool.or_eq_false_iff, beq_eq_false_iff_ne] at hstart
  obtain ⟨⟨⟨-, hblank⟩, htab⟩, hsemicolon⟩ := hstart
  by_cases hslash : c = '/'
  · -- a single `/`, after which there is no other
    subst hslash
    have hsingle : t.text = ['/'] := hfixed.slash (by rw [htext]; rfl)
    have hnext : rest.head? ≠ some '/' := by
      intro hnext
      have hno := hstop '/' hnext
      simp [joinsFixed, hsingle] at hno
    intro r hr
    simp only [skipRules, List.mem_cons, List.not_mem_nil, or_false] at hr
    rw [hsingle]
    rcases hr with rfl | rfl | rfl | rfl
    · exact munch_blank (by decide) rest
    · exact munch_blank (by decide) rest
    · cases rest with
      | nil => rfl
      | cons x rest =>
        have hx : x ≠ '/' := fun h => hnext (by rw [h]; rfl)
        simp [lineCommentRule, Rule.run, munchRun, hx]
    · exact munch_run_of_head rfl
  · rw [htext]
    exact munch_skipRules ⟨hblank, htab, hslash, hsemicolon⟩ _

theorem lex_fixed {t : Tok} (ht : t ∈ fixedToks)
    (hstop : ∀ c, rest.head? = some c → joinsFixed t.text c = false) :
    lex (t.text ++ rest) = t :: lex rest := by
  have hfixed := fixedText_of_mem ht
  obtain ⟨c, cs, htext⟩ := List.exists_cons_of_ne_nil hfixed.ne_nil
  have hhead : t.text.head? = some c := by rw [htext]; rfl
  have hdigit : c.isDigit = false := by
    have hstart := hfixed.start c hhead
    simp only [startsFixed, Bool.not_eq_true', Bool.or_eq_false_iff] at hstart
    exact hstart.1.1.1
  refine lex_of_longest mainRules _ _ _ (some t) rfl hfixed.ne_nil
    ⟨fixedRule t, fixedRule_mem ht, munch_literal_self⟩ ?_ ?_
  · intro r hr
    rcases mem_mainRules hr with hskip | hnum | ⟨u, hu, rfl⟩
    · exact harmless (munch_skipRules_fixed ht hstop r hskip) hfixed.ne_nil
    · refine harmless ?_ hfixed.ne_nil
      rw [htext]
      exact munch_numberRules hdigit _ r hnum
    · refine ⟨le_munch_literal fun x hx hpref => ?_, fun heq => ?_⟩
      · have hno := hstop x hx
        simp only [joinsFixed, Bool.or_eq_false_iff, List.any_eq_false] at hno
        exact hno.1.1 u hu (List.isPrefixOf_iff_prefix.mpr hpref)
      · exact congrArg some (eq_of_text_eq hu ht (munch_literal_eq hfixed.ne_nil heq))
  · intro r hr
    simp only [List.mem_cons, List.not_mem_nil, or_false] at hr
    rcases hr with rfl | rfl
    · cases hstart : isIdentStart c with
      | false =>
        have hzero := munch_identRule_of_head hstart (cs ++ rest)
        rw [htext, List.cons_append, hzero]
        exact Nat.zero_le _
      | true =>
        -- the word ends with the text
        have hrun : munchRun isIdentRest [isIdentStart] (t.text ++ rest) = some t.text.length := by
          refine munchRun_append ?_ ?_ ?_ ?_
          · rw [htext]
            simp
          · rw [htext]
            simpa using hstart
          · intro x hx
            exact hfixed.word c hhead hstart x (List.mem_of_mem_drop hx)
          · intro x hx
            have hno := hstop x hx
            simp only [joinsFixed, hhead, Option.any_some, hstart, Bool.true_and,
              Bool.or_eq_false_iff] at hno
            exact hno.2
        show (munchRun isIdentRest [isIdentStart] (t.text ++ rest)).getD 0 ≤ _
        rw [hrun]
        exact Nat.le_refl _
    · rw [htext, List.cons_append, munch_otherRule]
      exact Nat.le_add_left _ _

/-- A word that is no name of an instruction or a register. -/
theorem lex_ident {name : String} (hname : (Tok.ident name).Lexical)
    (hstop : (Tok.ident name).Stops rest) :
    lex (name.toList ++ rest) = .ident name :: lex rest := by
  obtain ⟨⟨c, cs, htext, hstart, hcs⟩, hno⟩ := hname
  obtain ⟨hskip, hdigit⟩ := not_of_isIdentStart hstart
  have hne : name.toList ≠ [] := by
    rw [htext]
    exact List.cons_ne_nil c cs
  have hrun : munchRun isIdentRest [isIdentStart] (name.toList ++ rest) =
      some name.toList.length := by
    rw [htext]
    refine munchRun_append (by simp) (by simpa using hstart) (by simpa using hcs) hstop
  have hident : identRule.munch (name.toList ++ rest) = name.toList.length := by
    show (munchRun isIdentRest [isIdentStart] (name.toList ++ rest)).getD 0 = _
    rw [hrun]
    rfl
  refine lex_of_longest (mainRules ++ [identRule]) [otherRule] _ _ (some (.ident name))
    (by simp [rules]) hne ⟨identRule, by simp, hident⟩ ?_ ?_
  · intro r hr
    rcases List.mem_append.mp hr with hr | hr
    · rcases mem_mainRules hr with hmem | hmem | ⟨u, hu, rfl⟩
      · refine harmless ?_ hne
        rw [htext]
        exact munch_skipRules hskip _ r hmem
      · refine harmless ?_ hne
        rw [htext]
        exact munch_numberRules hdigit _ r hmem
      · refine ⟨le_munch_literal fun x hx hpref => ?_, fun heq => ?_⟩
        · -- a longer word has this character
          have hhead : u.text.head? = some c := by
            obtain ⟨us, hus⟩ := hpref
            rw [← hus, htext]
            rfl
          have hword := (fixedText_of_mem hu).word c hhead hstart x
            (hpref.subset (by simp))
          have hend : isIdentRest x = false := hstop x hx
          rw [hword] at hend
          cases hend
        · exact absurd (munch_literal_eq hne heq) (hno u hu)
    · rw [List.mem_singleton.mp hr]
      refine ⟨Nat.le_of_eq hident, fun _ => ?_⟩
      show some (Tok.ident (String.ofList name.toList)) = _
      rw [String.ofList_toList]
  · intro r hr
    rw [List.mem_singleton.mp hr, htext, List.cons_append, munch_otherRule]
    exact Nat.le_add_left _ _

/-- A character that starts nothing else. -/
theorem lex_other {c : Char} (hc : (Tok.other c).Lexical) (hstop : (Tok.other c).Stops rest) :
    lex (c :: rest) = .other c :: lex rest := by
  obtain ⟨⟨hblank, htab, hsemicolon⟩, hdigit, hstart, hno⟩ := hc
  have hslash : c ≠ '/' := by
    rintro rfl
    exact hno (.opMulDivMod .div) (by decide) (by decide)
  have hne : [c] ≠ [] := List.cons_ne_nil c []
  refine lex_of_longest rules [] [c] _ (some (.other c))
    (List.append_nil _).symm hne ⟨otherRule, by simp [rules], munch_otherRule c rest⟩ ?_
    fun r hr => absurd hr List.not_mem_nil
  intro r hr
  rcases List.mem_append.mp hr with hr | hr
  · rcases mem_mainRules hr with hmem | hmem | ⟨u, hu, rfl⟩
    · exact harmless (munch_skipRules ⟨hblank, htab, hslash, hsemicolon⟩ _ r hmem) hne
    · exact harmless (munch_numberRules hdigit _ r hmem) hne
    · refine ⟨le_munch_literal fun x hx hpref => ?_, fun heq => ?_⟩
      · have hend : joinsFixed [c] x = false := hstop x hx
        simp only [joinsFixed, Bool.or_eq_false_iff, List.any_eq_false] at hend
        exact hend.1.1 u hu (List.isPrefixOf_iff_prefix.mpr hpref)
      · exact absurd (munch_literal_eq hne heq) (hno u hu)
  · simp only [List.mem_cons, List.not_mem_nil, or_false] at hr
    rcases hr with rfl | rfl
    · exact harmless (munch_identRule_of_head hstart rest) hne
    · exact ⟨Nat.le_of_eq (munch_otherRule c rest), fun _ => rfl⟩

/-- What starts with a digit is only matched by the rules of numbers. -/
theorem lex_number {text : List Char} (c : Char) (cs : List Char) {tok : Tok}
    (r₀ : Rule Char Tok) (htext : text = c :: cs) (hdigit : c.isDigit = true)
    (hr₀ : r₀ ∈ numberRules) (hmunch : r₀.munch (text ++ rest) = text.length)
    (htoken : r₀.token text = some tok)
    (hothers : ∀ r ∈ numberRules, r = r₀ ∨ r.munch (text ++ rest) < text.length) :
    lex (text ++ rest) = tok :: lex rest := by
  have hne : text ≠ [] := by
    rw [htext]
    exact List.cons_ne_nil c cs
  have hpos := List.length_pos_of_ne_nil hne
  have hnot : ∀ x : Char, x.isDigit = false → c ≠ x := by
    rintro x hx rfl
    rw [hdigit] at hx
    cases hx
  have hstart : isIdentStart c = false := by
    by_contra hstart
    have hno := (not_of_isIdentStart (Bool.not_eq_false _ ▸ hstart)).2
    rw [hdigit] at hno
    cases hno
  refine lex_of_longest mainRules _ _ _ (some tok) rfl hne
    ⟨r₀, numberRule_mem hr₀, hmunch⟩ ?_ ?_
  · intro r hr
    rcases mem_mainRules hr with hmem | hmem | ⟨u, hu, rfl⟩
    · refine harmless ?_ hne
      rw [htext]
      exact munch_skipRules ⟨hnot ' ' rfl, hnot '\t' rfl, hnot '/' rfl, hnot ';' rfl⟩ _ r hmem
    · rcases hothers r hmem with rfl | hlt
      · exact ⟨Nat.le_of_eq hmunch, fun _ => htoken⟩
      · exact ⟨Nat.le_of_lt hlt, fun heq => by omega⟩
    · refine harmless ?_ hne
      rw [htext]
      refine munch_fixedRule_of_head hu fun hhead => ?_
      have hfixed := (fixedText_of_mem hu).start c hhead
      rw [startsFixed, hdigit] at hfixed
      cases hfixed
  · intro r hr
    simp only [List.mem_cons, List.not_mem_nil, or_false] at hr
    rcases hr with rfl | rfl
    · rw [htext, List.cons_append, munch_identRule_of_head hstart]
      exact Nat.zero_le _
    · rw [htext, List.cons_append, munch_otherRule]
      exact Nat.le_add_left _ _

/-- The digits after the marker of a number are matched up to the first other character. -/
theorem munch_numberRule {marker : List Char} {kind : Char → Bool} {tok : Digits kind → Tok}
    (ds : Digits kind) (hstop : ∀ c, rest.head? = some c → kind c = false) :
    (numberRule marker kind tok).munch (marker ++ ds.val ++ rest) =
      (marker ++ ds.val).length := by
  obtain ⟨ds, hne, hall⟩ := ds
  have hkind : ∀ x ∈ ds, kind x = true := List.all_eq_true.mp hall
  have hrun : munchRun kind [kind] (ds ++ rest) = some ds.length := by
    refine munchRun_append (List.length_pos_of_ne_nil hne) ?_ ?_ hstop
    · obtain ⟨d, ds, rfl⟩ := List.exists_cons_of_ne_nil hne
      simpa using hkind d List.mem_cons_self
    · exact fun x hx => hkind x (List.mem_of_mem_drop hx)
  show (munchRun kind (marker.map (fun m c => c == m) ++ [kind]) (marker ++ ds ++ rest)).getD 0 = _
  rw [List.append_assoc, munchRun_marker, hrun, List.length_append]
  exact Nat.add_comm _ _

theorem token_numberRule {marker : List Char} {kind : Char → Bool} {tok : Digits kind → Tok}
    (ds : Digits kind) : (numberRule marker kind tok).token (marker ++ ds.val) = some (tok ds) := by
  show (if h : _ then _ else _ : Option Tok) = _
  simp only [List.drop_left]
  rw [dif_pos ds.property]

/-- A marker that does not stand there. -/
theorem munch_numberRule_of_marker {m : Char} {kind : Char → Bool} {tok : Digits kind → Tok}
    {c : Char} {cs : List Char} (h : c = '0' → cs.head? ≠ some m) :
    (numberRule ['0', m] kind tok).munch (c :: cs) = 0 := by
  show (munchRun kind [fun c => c == '0', fun c => c == m, kind] (c :: cs)).getD 0 = 0
  by_cases hc : c = '0'
  · cases cs with
    | nil => simp [munchRun, hc]
    | cons x cs =>
      have hx : x ≠ m := fun heq => h hc (by rw [heq]; rfl)
      simp [munchRun, hc, hx]
  · simp [munchRun, hc]

theorem lex_decNum {ds : Digits Char.isDigit} (hstop : (Tok.decNum ds).Stops rest) :
    lex (ds.val ++ rest) = .decNum ds :: lex rest := by
  obtain ⟨c, cs, htext⟩ := List.exists_cons_of_ne_nil ds.property.1
  have hdigits : ∀ x ∈ ds.val, x.isDigit = true := List.all_eq_true.mp ds.property.2
  have hend : ∀ c, rest.head? = some c → c.isDigit = false := by
    intro x hx
    exact (Bool.or_eq_false_iff.mp (hstop x hx)).1
  have hpos := List.length_pos_of_ne_nil ds.property.1
  -- neither marker stands behind the first digit
  have hmarker : ∀ m : Char, m.isDigit = false → m = 'x' ∨ m = 'b' →
      c = '0' → (cs ++ rest).head? ≠ some m := by
    rintro m hm hxb rfl hhead
    cases cs with
    | nil =>
      have hno : (ds.val == ['0'] && (m == 'x' || m == 'b')) = false :=
        (Bool.or_eq_false_iff.mp (hstop m hhead)).2
      rw [htext] at hno
      rcases hxb with rfl | rfl <;> exact absurd hno (by decide)
    | cons x cs =>
      have hx := hdigits x (by rw [htext]; simp)
      rw [List.cons_append, List.head?_cons] at hhead
      cases hhead
      rw [hm] at hx
      cases hx
  refine lex_number c cs decNumRule htext (hdigits c (by rw [htext]; exact List.mem_cons_self))
    (by simp [numberRules]) (munch_numberRule ds hend) (token_numberRule ds) ?_
  intro r hr
  simp only [numberRules, List.mem_cons, List.not_mem_nil, or_false] at hr
  rcases hr with rfl | rfl | rfl
  · exact .inl rfl
  · right
    rw [htext, List.cons_append, hexNumRule,
      munch_numberRule_of_marker (hmarker 'x' rfl (.inl rfl))]
    exact Nat.succ_pos _
  · right
    rw [htext, List.cons_append, binNumRule,
      munch_numberRule_of_marker (hmarker 'b' rfl (.inr rfl))]
    exact Nat.succ_pos _

theorem lex_hexNum {ds : Digits isHexDigit} (hstop : (Tok.hexNum ds).Stops rest) :
    lex ('0' :: 'x' :: ds.val ++ rest) = .hexNum ds :: lex rest := by
  have hpos := List.length_pos_of_ne_nil ds.property.1
  refine lex_number '0' ('x' :: ds.val) hexNumRule rfl rfl
    (by simp [numberRules]) (munch_numberRule ds hstop) (token_numberRule ds) ?_
  intro r hr
  simp only [numberRules, List.mem_cons, List.not_mem_nil, or_false] at hr
  rcases hr with rfl | rfl | rfl
  · right
    show 1 < _
    simp only [List.length_cons]
    omega
  · exact .inl rfl
  · right
    have hother : ('x' :: ds.val ++ rest).head? ≠ some 'b' := by simp
    rw [List.cons_append, binNumRule, munch_numberRule_of_marker fun _ => hother]
    exact Nat.succ_pos _

theorem lex_binNum {ds : Digits fun c => c == '0' || c == '1'}
    (hstop : (Tok.binNum ds).Stops rest) :
    lex ('0' :: 'b' :: ds.val ++ rest) = .binNum ds :: lex rest := by
  have hpos := List.length_pos_of_ne_nil ds.property.1
  refine lex_number '0' ('b' :: ds.val) binNumRule rfl rfl
    (by simp [numberRules]) (munch_numberRule ds hstop) (token_numberRule ds) ?_
  intro r hr
  simp only [numberRules, List.mem_cons, List.not_mem_nil, or_false] at hr
  rcases hr with rfl | rfl | rfl
  · right
    show 1 < _
    simp only [List.length_cons]
    omega
  · right
    have hother : ('b' :: ds.val ++ rest).head? ≠ some 'x' := by simp
    rw [List.cons_append, hexNumRule, munch_numberRule_of_marker fun _ => hother]
    exact Nat.succ_pos _
  · exact .inl rfl

/-- **A token is read back from its text**, unless the character after it joins it. -/
theorem lex_text {t : Tok} (ht : t.Lexical) (hstop : t.Stops rest) :
    lex (t.text ++ rest) = t :: lex rest := by
  cases t with
  | decNum ds => exact lex_decNum hstop
  | hexNum ds => exact lex_hexNum hstop
  | binNum ds => exact lex_binNum hstop
  | ident name => exact lex_ident ht hstop
  | other c => exact lex_other ht hstop
  | opLogical op => cases op <;> exact lex_fixed (by decide) hstop
  | opCompare op => cases op <;> exact lex_fixed (by decide) hstop
  | opMulDivMod op => cases op <;> exact lex_fixed (by decide) hstop
  | opBitwise op => cases op <;> exact lex_fixed (by decide) hstop
  | instrName i => exact lex_fixed (by simp [fixedToks, nameToks, i.mem_all]) hstop
  | pseudoInstrName p => exact lex_fixed (by cases p <;> decide) hstop
  | reg r => exact lex_fixed (by cases r <;> decide) hstop
  | _ => exact lex_fixed (by decide) hstop

end Tokens

/-! ### Texts that spell tokens -/

/-- A text with these tokens: each token is followed by a character that does not join it, and
    there may be blanks and comments between the tokens; a comment ends before a new line. -/
inductive Spells : List Tok → List Char → Prop
  | nil : Spells [] []
  | blank {ts cs} (c : Char) (hc : c = ' ' ∨ c = '\t') (h : Spells ts cs) : Spells ts (c :: cs)
  | comment {ts cs} (opening text : List Char) (ho : opening = ['/', '/'] ∨ opening = [';'])
      (htext : ∀ c ∈ text, c ≠ '\n') (hend : ∀ c, cs.head? = some c → c = '\n')
      (h : Spells ts cs) : Spells ts (opening ++ text ++ cs)
  | token {ts cs} (t : Tok) (ht : t.Lexical) (hstop : t.Stops cs) (h : Spells ts cs) :
      Spells (t :: ts) (t.text ++ cs)

/-- A blank is skipped. -/
theorem lex_blank {c : Char} (hc : c = ' ' ∨ c = '\t') (cs : List Char) :
    lex (c :: cs) = lex cs := by
  have hstart : isIdentStart c = false ∧ c.isDigit = false ∧ c ≠ '/' ∧ c ≠ ';' := by
    rcases hc with rfl | rfl <;> decide
  obtain ⟨hident, hdigit, hslash, hsemicolon⟩ := hstart
  have hne : [c] ≠ [] := List.cons_ne_nil c []
  have hliteral : ∀ x : Char, (Rule.literal [x] (none : Option Tok)).munch (c :: cs) ≤ 1 := by
    intro x
    show (if _ then 1 else 0 : Nat) ≤ 1
    split <;> omega
  refine lex_of_longest mainRules _ [c] cs none
    rfl hne ?_ ?_ ?_
  · rcases hc with rfl | rfl
    · exact ⟨.literal [' '] none, skipRule_mem (by simp [skipRules]), munch_literal_self⟩
    · exact ⟨.literal ['\t'] none, skipRule_mem (by simp [skipRules]), munch_literal_self⟩
  · intro r hr
    rcases mem_mainRules hr with hmem | hmem | ⟨u, hu, rfl⟩
    · simp only [skipRules, List.mem_cons, List.not_mem_nil, or_false] at hmem
      rcases hmem with rfl | rfl | rfl | rfl
      · exact ⟨hliteral ' ', fun _ => rfl⟩
      · exact ⟨hliteral '\t', fun _ => rfl⟩
      · exact harmless (munch_run_of_head (by simp [hslash])) hne
      · exact harmless (munch_run_of_head (by simp [hsemicolon])) hne
    · exact harmless (munch_numberRules hdigit _ r hmem) hne
    · refine harmless (munch_fixedRule_of_head hu fun hhead => ?_) hne
      have hfixed := (fixedText_of_mem hu).start c hhead
      rcases hc with rfl | rfl <;> exact absurd hfixed (by decide)
  · intro r hr
    simp only [List.mem_cons, List.not_mem_nil, or_false] at hr
    rcases hr with rfl | rfl
    · exact Nat.le_trans (Nat.le_of_eq (munch_identRule_of_head hident cs)) (Nat.zero_le _)
    · exact Nat.le_of_eq (munch_otherRule c cs)

/-- So is a comment. -/
theorem lex_comment {opening text cs : List Char} (ho : opening = ['/', '/'] ∨ opening = [';'])
    (htext : ∀ c ∈ text, c ≠ '\n') (hend : ∀ c, cs.head? = some c → c = '\n') :
    lex (opening ++ text ++ cs) = lex cs := by
  obtain ⟨c, os, hopening, hc⟩ : ∃ c os, opening = c :: os ∧ (c = '/' ∨ c = ';') := by
    rcases ho with rfl | rfl
    · exact ⟨'/', ['/'], rfl, .inl rfl⟩
    · exact ⟨';', [], rfl, .inr rfl⟩
  have hstart : isIdentStart c = false ∧ c.isDigit = false ∧ c ≠ ' ' ∧ c ≠ '\t' := by
    rcases hc with rfl | rfl <;> decide
  obtain ⟨hident, hdigit, hblank, htab⟩ := hstart
  have hne : opening ++ text ≠ [] := by
    rw [hopening]
    exact List.cons_ne_nil c _
  have hcons : opening ++ text ++ cs = c :: (os ++ text ++ cs) := by
    rw [hopening]
    rfl
  have hmunch : (lineCommentRule opening).munch (opening ++ text ++ cs) =
      (opening ++ text).length := by
    have hrun : munchRun (fun c => c != '\n') [] (text ++ cs) = some text.length := by
      refine munchRun_append (Nat.zero_le _) (by simp) (by simpa using htext) fun x hx => ?_
      simp [hend x hx]
    have hmarker := munchRun_marker (p := fun c => c != '\n') [] opening (text ++ cs)
    rw [List.append_nil, ← List.append_assoc, hrun] at hmarker
    show (munchRun _ (opening.map fun m c => c == m) (opening ++ text ++ cs)).getD 0 = _
    rw [hmarker, List.length_append]
    exact Nat.add_comm _ _
  refine lex_of_longest mainRules _ _ _ none rfl hne
    ⟨lineCommentRule opening, ?_, hmunch⟩ ?_ ?_
  · exact skipRule_mem (by rcases ho with rfl | rfl <;> simp [skipRules])
  · intro r hr
    rcases mem_mainRules hr with hmem | hmem | ⟨u, hu, rfl⟩
    · simp only [skipRules, List.mem_cons, List.not_mem_nil, or_false] at hmem
      rcases hmem with rfl | rfl | rfl | rfl
      · rw [hcons]
        exact harmless (munch_blank hblank _) hne
      · rw [hcons]
        exact harmless (munch_blank htab _) hne
      · rcases ho with rfl | rfl
        · exact ⟨Nat.le_of_eq hmunch, fun _ => rfl⟩
        · exact harmless (munch_run_of_head rfl) hne
      · rcases ho with rfl | rfl
        · exact harmless (munch_run_of_head rfl) hne
        · exact ⟨Nat.le_of_eq hmunch, fun _ => rfl⟩
    · rw [hcons]
      exact harmless (munch_numberRules hdigit _ r hmem) hne
    · -- at most a single `/`
      have hfixed := fixedText_of_mem hu
      rcases ho with rfl | rfl
      · by_cases hhead : u.text.head? = some '/'
        · have hle : (fixedRule u).munch (['/', '/'] ++ text ++ cs) ≤ 1 := by
            show (if _ then u.text.length else 0) ≤ 1
            rw [hfixed.slash hhead]
            split <;> simp
          have hlen : 1 < (['/', '/'] ++ text).length := by simp
          exact ⟨by omega, fun heq => by omega⟩
        · exact harmless (munch_fixedRule_of_head hu hhead) hne
      · refine harmless (munch_fixedRule_of_head hu fun hhead => ?_) hne
        exact absurd (hfixed.start ';' hhead) (by decide)
  · intro r hr
    simp only [List.mem_cons, List.not_mem_nil, or_false] at hr
    rw [hcons]
    rcases hr with rfl | rfl
    · rw [munch_identRule_of_head hident]
      exact Nat.zero_le _
    · rw [munch_otherRule]
      exact List.length_pos_of_ne_nil hne

/-- **Tokens are read back from every text that spells them.** -/
theorem lex_of_spells {ts : List Tok} {cs : List Char} (h : Spells ts cs) : lex cs = ts := by
  induction h with
  | nil => rfl
  | blank c hc _ ih => rw [lex_blank hc, ih]
  | comment opening text ho htext hend _ ih => rw [lex_comment ho htext hend, ih]
  | token t ht hstop _ ih => rw [lex_text ht hstop, ih]

/-! ### Words -/

/-- The table of the look-up has fixed texts. -/
theorem fixed_of_mem_keywords {k : String × Tok} (h : k ∈ keywords) :
    k.2 ∈ fixedToks ∧ k.2.text = k.1.toList := by
  simp only [keywords, List.mem_append, List.mem_map, List.mem_cons, List.not_mem_nil,
    or_false] at h
  rcases h with ((⟨t, ht, rfl⟩ | ⟨t, ht, rfl⟩) | ⟨r, hr, rfl⟩) | rfl | rfl | rfl
  · exact ⟨by simp [fixedToks, nameToks, ht], rfl⟩
  · exact ⟨by simp [fixedToks, nameToks, ht], rfl⟩
  · exact ⟨by simp [fixedToks, registerToks, hr], rfl⟩
  · exact ⟨by decide, rfl⟩
  · exact ⟨by decide, rfl⟩
  · exact ⟨by decide, rfl⟩

/-- It has all of them that are words. -/
theorem mem_keywords_of_word {u : Tok} (hu : u ∈ fixedToks)
    (hstart : ∃ c, u.text.head? = some c ∧ isIdentStart c = true) :
    (String.ofList u.text, u) ∈ keywords := by
  have hnot : ∀ u ∈ operatorToks ++ punctuationToks,
      ¬(u.text.head?.any isIdentStart = true) := by decide
  have hword : u.text.head?.any isIdentStart = true := by
    obtain ⟨c, hc, hstart⟩ := hstart
    rw [hc]
    exact hstart
  simp only [fixedToks, List.mem_append] at hu
  rcases hu with ((hu | hu) | hu) | hu
  · exact absurd hword (hnot u (List.mem_append_left _ hu))
  · simp only [nameToks, List.mem_append, List.mem_map] at hu
    simp only [keywords, List.mem_append, List.mem_map]
    rcases hu with ⟨t, ht, rfl⟩ | ⟨t, ht, rfl⟩
    · exact .inl (.inl (.inl ⟨t, ht, Prod.ext String.ofList_toList.symm rfl⟩))
    · exact .inl (.inl (.inr ⟨t, ht, Prod.ext String.ofList_toList.symm rfl⟩))
  · exact absurd hword (hnot u (List.mem_append_right _ hu))
  · simp only [registerToks, List.mem_append, List.mem_map, List.mem_cons, List.not_mem_nil,
      or_false] at hu
    simp only [keywords, List.mem_append, List.mem_map]
    rcases hu with ⟨r, hr, rfl⟩ | rfl | rfl | rfl
    · exact .inl (.inr ⟨r, hr, Prod.ext String.ofList_toList.symm rfl⟩)
    all_goals exact .inr (by decide)

theorem lexWord_of_fixed {u : Tok} (hu : u ∈ fixedToks)
    (hstart : ∃ c, u.text.head? = some c ∧ isIdentStart c = true) :
    lexWord (String.ofList u.text) = u := by
  unfold lexWord
  cases hlookup : keywords.lookup (String.ofList u.text) with
  | none =>
    have hno := List.lookup_eq_none_iff.mp hlookup _ (mem_keywords_of_word hu hstart)
    simp at hno
  | some t =>
    obtain ⟨l₁, l₂, hl, -⟩ := List.lookup_eq_some_iff.mp hlookup
    obtain ⟨ht, htext⟩ := fixed_of_mem_keywords (k := (String.ofList u.text, t))
      (by rw [hl]; simp)
    exact eq_of_text_eq ht hu (htext.trans String.toList_ofList)

/-- A word joins only what continues it. -/
theorem joinsFixed_of_word {c x : Char} {cs : List Char} (hstart : isIdentStart c = true)
    (hx : isIdentRest x = false) : joinsFixed (c :: cs) x = false := by
  have hslash : c ≠ '/' := (not_of_isIdentStart hstart).1.2.2.1
  have hfixed : ∀ u ∈ fixedToks, ¬c :: cs ++ [x] <+: u.text := by
    intro u hu hpref
    have hhead : u.text.head? = some c := by
      obtain ⟨us, hus⟩ := hpref
      rw [← hus]
      rfl
    have hword := (fixedText_of_mem hu).word c hhead hstart x (hpref.subset (by simp))
    rw [hx] at hword
    cases hword
  simp only [joinsFixed, hx, Bool.and_false, Bool.or_false, Bool.or_eq_false_iff,
    List.any_eq_false, List.isPrefixOf_iff_prefix]
  exact ⟨hfixed, by simp [hslash]⟩

/-- **A word is looked up among the keywords**: this is what the longest match and the order of
    the rules come to. -/
theorem lex_word {c : Char} {cs rest : List Char} (hstart : isIdentStart c = true)
    (hcs : ∀ x ∈ cs, isIdentRest x = true)
    (hstop : ∀ x, rest.head? = some x → isIdentRest x = false) :
    lex (c :: cs ++ rest) = lexWord (String.ofList (c :: cs)) :: lex rest := by
  by_cases hfixed : ∃ u ∈ fixedToks, u.text = c :: cs
  · obtain ⟨u, hu, htext⟩ := hfixed
    rw [← htext, lexWord_of_fixed hu ⟨c, by rw [htext]; rfl, hstart⟩]
    refine lex_fixed hu fun x hx => ?_
    rw [htext]
    exact joinsFixed_of_word hstart (hstop x hx)
  · have hname : (Tok.ident (String.ofList (c :: cs))).Lexical := by
      refine ⟨⟨c, cs, String.toList_ofList, hstart, hcs⟩, fun u hu htext => hfixed ⟨u, hu, ?_⟩⟩
      rw [htext, String.toList_ofList]
    have hword : lexWord (String.ofList (c :: cs)) = .ident (String.ofList (c :: cs)) := by
      unfold lexWord
      cases hlookup : keywords.lookup (String.ofList (c :: cs)) with
      | none => rfl
      | some t =>
        obtain ⟨l₁, l₂, hl, -⟩ := List.lookup_eq_some_iff.mp hlookup
        obtain ⟨ht, htext⟩ := fixed_of_mem_keywords (k := (String.ofList (c :: cs), t))
          (by rw [hl]; simp)
        exact absurd ⟨t, ht, htext.trans String.toList_ofList⟩ hfixed
    have hlex := lex_ident hname (show (Tok.ident _).Stops rest from hstop)
    rw [String.toList_ofList] at hlex
    rw [hlex, hword]

/-! ### Printed tokens -/

/-- The texts of tokens, each with a blank after it. -/
def printToks (ts : List Tok) : List Char := ts.flatMap fun t => t.text ++ [' ']

/-- A blank joins nothing. -/
theorem joins_blank (t : Tok) : t.joins ' ' = false := by
  have hfixed : ∀ text, joinsFixed text ' ' = false := by
    intro text
    have hno : ∀ u ∈ fixedToks, ¬text ++ [' '] <+: u.text := fun u hu hpref =>
      (fixedText_of_mem hu).no_blank ' ' (hpref.subset (by simp)) rfl
    have hrest : isIdentRest ' ' = false := by decide
    simp only [joinsFixed, hrest, Bool.and_false, Bool.or_false, Bool.or_eq_false_iff,
      List.any_eq_false, List.isPrefixOf_iff_prefix]
    exact ⟨hno, by simp⟩
  cases t with
  | decNum ds =>
    show (false || (ds.val == ['0'] && false)) = false
    rw [Bool.and_false, Bool.or_false]
  | hexNum ds => rfl
  | binNum ds => rfl
  | ident name => rfl
  | _ => exact hfixed _

theorem spells_printToks {ts : List Tok} (h : ∀ t ∈ ts, t.Lexical) : Spells ts (printToks ts) := by
  induction ts with
  | nil => exact .nil
  | cons t ts ih =>
    have ht := h t List.mem_cons_self
    have hrest := Spells.blank ' ' (.inl rfl) (ih fun u hu => h u (List.mem_cons_of_mem _ hu))
    rw [printToks, List.flatMap_cons, List.append_assoc]
    refine .token t ht (fun c hc => ?_) hrest
    cases hc
    exact joins_blank t

/-! ### All tokens of the lexer -/

/-- A token with a fixed text is lexical. -/
theorem lexical_of_fixed {t : Tok} (ht : t ∈ fixedToks) : t.Lexical := by
  have hnot : ∀ t ∈ fixedToks,
      (match t with | .ident _ | .other _ => false | _ => true : Bool) = true := by
    decide +kernel
  have := hnot t ht
  cases t with
  | ident name => cases this
  | other c => cases this
  | _ => trivial

/-- So is the token of a rule that comes before the last two. -/
theorem lexical_of_mainRules {r : Rule Char Tok} (hr : r ∈ mainRules) {text : List Char} {t : Tok}
    (htok : r.token text = some t) : t.Lexical := by
  have hnumber : ∀ {marker : List Char} {kind : Char → Bool} (tok : Digits kind → Tok),
      (∀ ds, (tok ds).Lexical) → (numberRule marker kind tok).token text = some t →
      t.Lexical := by
    intro marker kind tok hlexical htok
    change (if h : _ then some (tok _) else none) = some t at htok
    split at htok
    · cases htok
      exact hlexical _
    · cases htok
  rcases mem_mainRules hr with hmem | hmem | ⟨u, hu, rfl⟩
  · simp only [skipRules, List.mem_cons, List.not_mem_nil, or_false] at hmem
    rcases hmem with rfl | rfl | rfl | rfl <;> cases htok
  · simp only [numberRules, List.mem_cons, List.not_mem_nil, or_false] at hmem
    rcases hmem with rfl | rfl | rfl
    · exact hnumber .decNum (fun _ => trivial) htok
    · exact hnumber .hexNum (fun _ => trivial) htok
    · exact hnumber .binNum (fun _ => trivial) htok
  · cases htok
    exact lexical_of_fixed hu

/-- **A name that is read is no keyword**: these rules come first. -/
theorem lexical_of_identRule {cs : List Char} {t : Tok} (hpos : 0 < identRule.munch cs)
    (hless : ∀ r ∈ mainRules, r.munch cs < identRule.munch cs)
    (htok : identRule.token (cs.take (identRule.munch cs)) = some t) : t.Lexical := by
  cases cs with
  | nil => exact absurd hpos (Nat.lt_irrefl 0)
  | cons c cs =>
    have hstart : isIdentStart c = true := by
      by_contra hnot
      rw [munch_identRule_of_head (by simpa using hnot)] at hpos
      exact absurd hpos (Nat.lt_irrefl 0)
    have hmunch : identRule.munch (c :: cs) = (cs.takeWhile isIdentRest).length + 1 := by
      show ((if isIdentStart c then _ else none : Option Nat)).getD 0 = _
      rw [if_pos hstart]
      rfl
    have htext : (c :: cs).take (identRule.munch (c :: cs)) = c :: cs.takeWhile isIdentRest := by
      rw [hmunch, List.take_succ_cons]
      exact congrArg _ (List.prefix_iff_eq_take.mp (List.takeWhile_prefix _)).symm
    rw [htext] at htok
    cases htok
    refine ⟨⟨c, _, String.toList_ofList, hstart, ?_⟩, ?_⟩
    · exact fun x hx => List.all_eq_true.mp List.all_takeWhile x hx
    · intro u hu heq
      rw [String.toList_ofList] at heq
      have hpref : u.text <+: c :: cs := by
        rw [heq, ← htext]
        exact List.take_prefix _ _
      have hfixed : (fixedRule u).munch (c :: cs) = u.text.length := if_pos hpref
      have hlt := hless _ (fixedRule_mem hu)
      rw [hfixed, heq, hmunch, List.length_cons] at hlt
      exact absurd hlt (Nat.lt_irrefl _)

/-- **Any other character that is read starts nothing else.** -/
theorem lexical_of_otherRule {cs : List Char} {t : Tok}
    (hless : ∀ r ∈ mainRules ++ [identRule], r.munch cs < otherRule.munch cs)
    (htok : otherRule.token (cs.take (otherRule.munch cs)) = some t) : t.Lexical := by
  cases cs with
  | nil => cases htok
  | cons c cs =>
    rw [munch_otherRule] at hless htok
    cases htok
    have hnone : ∀ r ∈ mainRules, r.munch (c :: cs) = 0 := fun r hr =>
      Nat.lt_one_iff.mp (hless r (List.mem_append_left _ hr))
    have hskip : ∀ r ∈ skipRules, r.munch (c :: cs) = 0 := fun r hr => hnone r (skipRule_mem hr)
    refine ⟨⟨?_, ?_, ?_⟩, ?_, ?_, ?_⟩
    · rintro rfl
      have := hskip (.literal [' '] none) (by simp [skipRules])
      rw [show (' ' :: cs) = [' '] ++ cs from rfl, munch_literal_self] at this
      cases this
    · rintro rfl
      have := hskip (.literal ['\t'] none) (by simp [skipRules])
      rw [show ('\t' :: cs) = ['\t'] ++ cs from rfl, munch_literal_self] at this
      cases this
    · rintro rfl
      have := hskip (lineCommentRule [';']) (by simp [skipRules])
      exact absurd this (Nat.succ_ne_zero _)
    · by_contra hdigit
      have := hnone decNumRule (numberRule_mem (by simp [numberRules]))
      change ((if c.isDigit then _ else none : Option Nat)).getD 0 = 0 at this
      rw [if_pos (by simpa using hdigit)] at this
      exact absurd this (Nat.succ_ne_zero _)
    · by_contra hstart
      have := Nat.lt_one_iff.mp (hless identRule (by simp))
      change ((if isIdentStart c then _ else none : Option Nat)).getD 0 = 0 at this
      rw [if_pos (by simpa using hstart)] at this
      exact absurd this (Nat.succ_ne_zero _)
    · intro u hu heq
      have := hnone (fixedRule u) (fixedRule_mem hu)
      have hmunch : (fixedRule u).munch (c :: cs) = u.text.length :=
        if_pos (heq ▸ List.prefix_append [c] cs)
      rw [hmunch, heq] at this
      cases this

/-- **The tokens of every text are lexical.** -/
theorem lexical_of_mem_lex (cs : List Char) : ∀ t ∈ lex cs, t.Lexical := by
  refine forall_mem_lex fun cs r t hpick hpos htok => ?_
  have hrules : rules = (mainRules ++ [identRule]) ++ [otherRule] := by simp [rules]
  rcases pick_append_cases (hrules ▸ hpick) with hmem | ⟨hmem, hless⟩
  · rcases List.mem_append.mp hmem with hmain | hident
    · exact lexical_of_mainRules hmain htok
    · have hr := List.mem_singleton.mp hident
      subst hr
      have hpick' : pick cs (mainRules ++ [identRule, otherRule]) = some identRule := hpick
      rcases pick_append_cases hpick' with hmain | ⟨-, hless⟩
      · exact lexical_of_mainRules hmain htok
      · exact lexical_of_identRule hpos hless htok
  · have hr := List.mem_singleton.mp hmem
    subst hr
    exact lexical_of_otherRule hless htok

/-- **The lexer makes the sequences of lexical tokens**, each of them from every text that spells
    it: the blanks and comments in between do not matter. -/
theorem lex_spelling (ts : List Tok) :
    ((∀ t ∈ ts, t.Lexical) ↔ ∃ cs, lex cs = ts) ∧ ∀ cs, Spells ts cs → lex cs = ts := by
  refine ⟨⟨fun h => ⟨printToks ts, lex_of_spells (spells_printToks h)⟩, ?_⟩,
    fun cs h => lex_of_spells h⟩
  rintro ⟨cs, rfl⟩
  exact lexical_of_mem_lex cs

end Frost32.Asm
