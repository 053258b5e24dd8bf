import Frost32.Asm.Disassembler
import Frost32.Asm.Image

namespace Frost32.Asm

open Fallible

/-!
# The listing of an assembled program

The disassembler on what the assembler prints.

* `lex_cons` — the lexer step by step; `lex_hexNum`, `lex_org` — the tokens of a line of bytes
  and of an address line, where `lex_org_one_digit` finds none.
* `convertHexString_address`, `convertHexString_lineText` — the values of their digits.
* `disassemble_renderFrom` — **the listing of printed lines**.
* `placeListing` — the addresses of a listing by the rules of the assembler.
* `keepsAddresses_iff` — **a listing keeps every address exactly where each jump is to an
  address of at least two and at most eight digits**.
-/

/-! ### The lexer -/

namespace DisTok

theorem length_fragHexNum {cs text rest : List Char} (h : fragHexNum cs = some (text, rest)) :
    rest.length < cs.length := by
  cases cs with
  | nil => cases h
  | cons c cs =>
    rw [fragHexNum] at h
    by_cases hfrag : (isHexDigit c && cs.head?.any isHexOrSpace) = true
    · rw [if_pos hfrag] at h
      cases h
      exact Nat.lt_succ_of_le (List.dropWhile_suffix _).length_le
    · rw [if_neg hfrag] at h
      cases h

/-- Every step uses up a character. -/
theorem length_lexStep (c : Char) (cs : List Char) :
    (lexStep (c :: cs)).2.length < (c :: cs).length := by
  have hcomment : ∀ cs : List Char, (afterComment cs).length ≤ cs.length :=
    fun cs => (List.dropWhile_suffix _).length_le
  unfold lexStep
  split
  · exact Nat.zero_lt_succ _
  · next h =>
    cases h
    exact Nat.lt_succ_self _
  · next h =>
    cases h
    exact Nat.lt_succ_of_le (hcomment _)
  · next h =>
    cases h
    exact Nat.lt_succ_of_lt (Nat.lt_succ_of_le (hcomment _))
  · next h =>
    cases h
    split
    · next text rest hfrag => exact Nat.lt_succ_of_lt (length_fragHexNum hfrag)
    · exact Nat.lt_succ_self _
  · next h =>
    cases h
    split
    · next text rest hfrag => exact length_fragHexNum hfrag
    · exact Nat.lt_succ_self _

/-- More steps than characters are not needed. -/
theorem lexFuel_eq {fuel : Nat} {cs : List Char} (h : cs.length ≤ fuel) :
    lexFuel fuel cs = lex cs := by
  induction fuel using Nat.strongRecOn generalizing cs with
  | ind fuel ih =>
    cases cs with
    | nil => cases fuel <;> rfl
    | cons c cs =>
      cases fuel with
      | zero => cases h
      | succ fuel =>
        have hlt := length_lexStep c cs
        rw [List.length_cons] at h hlt
        show _ ++ lexFuel fuel (lexStep (c :: cs)).2 =
          _ ++ lexFuel cs.length (lexStep (c :: cs)).2
        rw [ih fuel (Nat.lt_succ_self _) (by omega)]
        by_cases hfuel : cs.length < fuel + 1
        · rw [ih cs.length hfuel (by omega)]
        · omega

/-- **The lexer step by step.** -/
theorem lex_cons (c : Char) (cs : List Char) :
    lex (c :: cs) = (lexStep (c :: cs)).1.toList ++ lex (lexStep (c :: cs)).2 := by
  have hlt := length_lexStep c cs
  rw [List.length_cons] at hlt
  show _ ++ lexFuel cs.length (lexStep (c :: cs)).2 = _
  rw [lexFuel_eq (by omega)]

/-! ### Tokens of the printed text -/

theorem lex_newline (cs : List Char) : lex ('\n' :: cs) = tokNewline :: lex cs := lex_cons '\n' cs

theorem fragHexNum_of_all {c : Char} {cs : List Char} (rest : List Char) (hc : isHexDigit c = true)
    (hne : cs ≠ []) (hcs : ∀ x ∈ cs, isHexOrSpace x = true) :
    fragHexNum (c :: cs ++ '\n' :: rest) = some (c :: cs, '\n' :: rest) := by
  have hnewline : isHexOrSpace '\n' = false := by decide
  have htake : (cs ++ '\n' :: rest).takeWhile isHexOrSpace = cs := by
    rw [List.takeWhile_append_of_pos hcs, List.takeWhile_cons_of_neg (by simp [hnewline]),
      List.append_nil]
  have hdrop : (cs ++ '\n' :: rest).dropWhile isHexOrSpace = '\n' :: rest := by
    rw [List.dropWhile_append_of_pos hcs, List.dropWhile_cons_of_neg (by simp [hnewline])]
  obtain ⟨x, xs, rfl⟩ := List.exists_cons_of_ne_nil hne
  have hx := hcs x List.mem_cons_self
  rw [List.cons_append, fragHexNum, if_pos, htake, hdrop]
  simp [hc, hx]

/-- No digit starts a comment, a line or an address. -/
theorem lexStep_hexNum {c : Char} {cs : List Char} (hc : isHexDigit c = true) :
    lexStep (c :: cs) =
      match fragHexNum (c :: cs) with
      | some (text, rest) => (some (tokHexNum text), rest)
      | none => (none, cs) := by
  unfold lexStep
  split
  · next h => cases h
  · next h =>
    cases h
    exact absurd hc (by decide)
  · next h =>
    cases h
    exact absurd hc (by decide)
  · next h =>
    cases h
    exact absurd hc (by decide)
  · next h =>
    cases h
    exact absurd hc (by decide)
  · next h =>
    cases h
    rfl

/-- A line of two or more digits is one token. -/
theorem lex_hexNum {c : Char} {cs : List Char} (rest : List Char) (hc : isHexDigit c = true)
    (hne : cs ≠ []) (hcs : ∀ x ∈ cs, isHexOrSpace x = true) :
    lex (c :: cs ++ '\n' :: rest) = tokHexNum (c :: cs) :: tokNewline :: lex rest := by
  have hfrag := fragHexNum_of_all rest hc hne hcs
  rw [List.cons_append] at hfrag ⊢
  rw [lex_cons, lexStep_hexNum hc, hfrag]
  show tokHexNum (c :: cs) :: lex ('\n' :: rest) = _
  rw [lex_newline]

/-- So is an address of two or more digits. -/
theorem lex_org {c : Char} {cs : List Char} (rest : List Char) (hc : isHexDigit c = true)
    (hne : cs ≠ []) (hcs : ∀ x ∈ cs, isHexOrSpace x = true) :
    lex ('@' :: (c :: cs ++ '\n' :: rest)) =
      tokOrg ('@' :: c :: cs) :: tokNewline :: lex rest := by
  have hfrag := fragHexNum_of_all rest hc hne hcs
  have hstep : lexStep ('@' :: (c :: cs ++ '\n' :: rest)) =
      (some (tokOrg ('@' :: c :: cs)), '\n' :: rest) := by
    show (match fragHexNum (c :: cs ++ '\n' :: rest) with
      | some (text, rest) => _
      | none => _) = _
    rw [hfrag]
  rw [lex_cons, hstep]
  show tokOrg ('@' :: c :: cs) :: lex ('\n' :: rest) = _
  rw [lex_newline]

/-- **An address of one digit is skipped**, and its line is empty. -/
theorem lex_org_one_digit {c : Char} {rest : List Char} (hc : isHexDigit c = true) :
    lex ('@' :: c :: '\n' :: rest) = tokNewline :: lex rest := by
  have hfrag : fragHexNum (c :: '\n' :: rest) = none := by
    rw [fragHexNum, if_neg]
    simp [isHexOrSpace, isHexDigit]
  have hat : lexStep ('@' :: c :: '\n' :: rest) = (none, c :: '\n' :: rest) := by
    show (match fragHexNum (c :: '\n' :: rest) with
      | some (text, rest) => _
      | none => _) = _
    rw [hfrag]
  rw [lex_cons, hat]
  show lex (c :: '\n' :: rest) = _
  rw [lex_cons, lexStep_hexNum hc, hfrag]
  show lex ('\n' :: rest) = _
  exact lex_newline rest

end DisTok

/-! ### Digits -/

theorem isHexDigit_digitChar {n : Nat} (h : n < 16) : isHexDigit (Nat.digitChar n) = true := by
  revert n
  decide

theorem hexDigitValue_digitChar {n : Nat} (h : n < 16) :
    hexDigitValue (Nat.digitChar n) = some n := by
  revert n
  decide

theorem isHexDigit_of_mem_toDigits {n : Nat} {c : Char} (hc : c ∈ Nat.toDigits 16 n) :
    isHexDigit c = true := by
  induction n using Nat.strongRecOn with
  | ind n ih =>
    rcases HexImage.toDigits_cases n with ⟨hn, heq⟩ | ⟨hn, heq⟩
    · rw [heq] at hc
      rw [List.mem_singleton.mp hc]
      exact isHexDigit_digitChar hn
    · rw [heq] at hc
      rcases List.mem_append.mp hc with hc | hc
      · exact ih (n / 16) (by omega) hc
      · rw [List.mem_singleton.mp hc]
        exact isHexDigit_digitChar (Nat.mod_lt n (by decide))

theorem isHexDigit_of_mem_byteText {b : BitVec 8} {c : Char} (hc : c ∈ byteText b) :
    isHexDigit c = true := by
  have hlt : b.toNat < 2 ^ 8 := b.isLt
  rcases List.mem_cons.mp hc with rfl | hc
  · exact isHexDigit_digitChar (by omega)
  · rw [List.mem_singleton.mp hc]
    exact isHexDigit_digitChar (by omega)

/-- Digits are kept when `@` and spaces are dropped. -/
theorem filter_hexDigits {cs : List Char} (h : ∀ c ∈ cs, isHexDigit c = true) :
    cs.filter (fun c => c ≠ '@' && c ≠ ' ') = cs := by
  apply List.filter_eq_self.mpr
  intro c hc
  have hdigit := h c hc
  have hat : c ≠ '@' := by
    rintro rfl
    exact absurd hdigit (by decide)
  have hspace : c ≠ ' ' := by
    rintro rfl
    exact absurd hdigit (by decide)
  simp [hat, hspace]

/-! ### Values -/

theorem hexValue_append {w : Nat} (t : BitVec w) (cs ds : List Char) :
    hexValue t (cs ++ ds) = hexValue t cs >>= fun t' => hexValue t' ds := by
  induction cs generalizing t with
  | nil => rfl
  | cons c cs ih =>
    show (hexDigitValue c >>= fun d => hexValue _ (cs ++ ds)) = _
    cases hd : hexDigitValue c with
    | none =>
      show none = (hexDigitValue c >>= fun d => hexValue _ cs) >>= _
      rw [hd]
      rfl
    | some d =>
      show hexValue _ (cs ++ ds) = (hexDigitValue c >>= fun d => hexValue _ cs) >>= _
      rw [hd, ih]
      rfl

theorem hexValue_digit {w : Nat} (t : BitVec w) {d : Nat} (hd : d < 16) :
    hexValue t [Nat.digitChar d] = some (t <<< 4 ||| BitVec.ofNat w d) := by
  show (hexDigitValue (Nat.digitChar d) >>= fun d => hexValue _ []) = _
  rw [hexDigitValue_digitChar hd]
  rfl

/-- One more digit multiplies by 16. -/
theorem shiftLeft_or_digit {w : Nat} (n : Nat) :
    BitVec.ofNat w (n / 16) <<< 4 ||| BitVec.ofNat w (n % 16) = BitVec.ofNat w n := by
  have hsplit : (n / 16) <<< 4 ||| n % 16 = n := by
    rw [← Nat.shiftLeft_add_eq_or_of_lt (show n % 16 < 2 ^ 4 by omega), Nat.shiftLeft_eq]
    omega
  have hshift : BitVec.ofNat w (n / 16) <<< 4 = BitVec.ofNat w ((n / 16) <<< 4) := by
    apply BitVec.eq_of_toNat_eq
    simp [Nat.shiftLeft_eq]
  rw [hshift, ← BitVec.ofNat_or, hsplit]

/-- **The digits of a number have its value**, as far as the width goes. -/
theorem hexValue_toDigits {w : Nat} (n : Nat) :
    hexValue (0 : BitVec w) (Nat.toDigits 16 n) = some (BitVec.ofNat w n) := by
  induction n using Nat.strongRecOn with
  | ind n ih =>
    rcases HexImage.toDigits_cases n with ⟨hn, heq⟩ | ⟨hn, heq⟩
    · rw [heq, hexValue_digit _ hn]
      simp
    · rw [heq, hexValue_append, ih (n / 16) (by omega)]
      show hexValue _ [_] = _
      rw [hexValue_digit _ (Nat.mod_lt n (by decide)), shiftLeft_or_digit]

/-- The two digits of a byte. -/
theorem hexValue_byteText {w : Nat} (x : BitVec w) (b : BitVec 8) (cs : List Char) :
    hexValue (x.setWidth 32) (byteText b ++ cs) = hexValue ((x ++ b).setWidth 32) cs := by
  have hlt : b.toNat < 2 ^ 8 := b.isLt
  have hdigits : hexValue (x.setWidth 32) (byteText b) = some ((x ++ b).setWidth 32) := by
    rw [show byteText b = [Nat.digitChar (b.toNat / 16)] ++ [Nat.digitChar (b.toNat % 16)] from rfl,
      hexValue_append, hexValue_digit _ (show b.toNat / 16 < 16 by omega)]
    show hexValue _ [_] = _
    rw [hexValue_digit _ (show b.toNat % 16 < 16 by omega)]
    congr 1
    have hbyte : BitVec.ofNat 32 (b.toNat / 16) <<< 4 ||| BitVec.ofNat 32 (b.toNat % 16) =
        b.setWidth 32 := by
      rw [shiftLeft_or_digit]
      exact BitVec.eq_of_toNat_eq (by simp)
    rw [BitVec.shiftLeft_or_distrib, BitVec.or_assoc, hbyte, ← BitVec.shiftLeft_add]
    apply BitVec.eq_of_getLsbD_eq
    intro i hi
    simp only [BitVec.getLsbD_or, BitVec.getLsbD_shiftLeft, BitVec.getLsbD_setWidth,
      BitVec.getLsbD_append, hi, decide_true, Bool.true_and]
    by_cases h8 : i < 8
    · simp [h8]
    · have hx : i - 8 < 32 := by omega
      simp [h8, hx, BitVec.getLsbD_of_ge b i (by omega)]
  rw [hexValue_append, hdigits]
  rfl

/-- **An address token has the address modulo 2^32.** -/
theorem convertHexString_address (a : BitVec 64) :
    ∃ k, convertHexString ('@' :: hexText a) = .ok (a.setWidth 32, k) := by
  have hfilter : ('@' :: hexText a).filter (fun c => c ≠ '@' && c ≠ ' ') = hexText a := by
    rw [List.filter_cons_of_neg (by simp)]
    exact filter_hexDigits fun c hc => isHexDigit_of_mem_toDigits hc
  refine ⟨(hexText a).length, ?_⟩
  unfold convertHexString
  simp only [hfilter]
  rw [hexText, hexValue_toDigits]
  rfl

/-- **A line of bytes has two digits for each byte**, whether or not there is a space. -/
theorem convertHexString_lineText {bytes : List (BitVec 8)} {v : BitVec 32}
    (hv : hexValue 0 (bytes.flatMap byteText) = some v) :
    convertHexString (lineText bytes) = .ok (v, 2 * bytes.length) := by
  have hall : ∀ bs : List (BitVec 8), ∀ c ∈ bs.flatMap byteText, isHexDigit c = true := by
    intro bs c hc
    obtain ⟨b, -, hb⟩ := List.mem_flatMap.mp hc
    exact isHexDigit_of_mem_byteText hb
  have hfilter : (lineText bytes).filter (fun c => c ≠ '@' && c ≠ ' ') =
      bytes.flatMap byteText := by
    unfold lineText
    split
    · next a b c d =>
      have hsplit : byteText a ++ byteText b ++ ' ' :: (byteText c ++ byteText d) =
          [a, b].flatMap byteText ++ ' ' :: [c, d].flatMap byteText := by simp
      rw [hsplit, List.filter_append, filter_hexDigits (hall [a, b]),
        List.filter_cons_of_neg (by simp), filter_hexDigits (hall [c, d])]
      simp
    · exact filter_hexDigits (hall bytes)
  have hlength : (bytes.flatMap byteText).length = 2 * bytes.length := by
    rw [List.length_flatMap]
    simp [byteText, Nat.mul_comm]
  unfold convertHexString
  simp only [hfilter, hv, hlength]

/-! ### Lines of the listing -/

namespace ListingLine

/-- The bytes a line of a listing takes. -/
def size : ListingLine → Nat
  | org _ => 0
  | db _ => 4
  | db16 _ => 2
  | db8 _ => 1
  | instruction _ => 4

/-- The line stands for these bytes: a word is shown as an instruction or as data. -/
def StandsFor (l : ListingLine) : List (BitVec 8) → Prop
  | [a] => l = db8 a
  | [a, b] => l = db16 (a ++ b)
  | [a, b, c, d] => visitWord (a ++ b ++ c ++ d) = .ok l ∧ (l = db (a ++ b ++ c ++ d) ∨
      ∃ text, l = instruction text)
  | _ => False

theorem StandsFor.size {l : ListingLine} {bytes : List (BitVec 8)} (h : l.StandsFor bytes) :
    l.size = bytes.length := by
  match bytes, h with
  | [a], h =>
    rw [show l = db8 a from h]
    rfl
  | [a, b], h =>
    rw [show l = db16 (a ++ b) from h]
    rfl
  | [a, b, c, d], h =>
    rcases h.2 with rfl | ⟨text, rfl⟩
    · rfl
    · rfl

end ListingLine

/-- Every number of four bits names a register. -/
theorem regName_ok (w : BitVec 32) (lo : Nat) :
    ∃ name, regName (getBitsWithRange w (lo + 3) lo) = .ok name := by
  have hall : ∀ i : BitVec 4, (regName (i.setWidth 32)).isOk = true := by decide
  rw [getBitsWithRange_eq w (by omega), show lo + 3 - lo + 1 = 4 by omega]
  exact Fallible.exists_eq_ok (hall _)

/-- **Every word has a line of four bytes.** -/
theorem visitWord_ok (w : BitVec 32) :
    ∃ l, visitWord w = .ok l ∧ (l = .db w ∨ ∃ text, l = .instruction text) := by
  unfold visitWord
  cases instrFromWord w with
  | none => exact ⟨.db w, rfl, .inl rfl⟩
  | some instr =>
    obtain ⟨name, args⟩ := instr
    obtain ⟨a, ha⟩ := regName_ok w 24
    obtain ⟨b, hb⟩ := regName_ok w 20
    obtain ⟨c, hc⟩ := regName_ok w 16
    simp only [ha, hb, hc, ok_bind]
    cases instrText name args a b c (getBitsWithRange w 15 0)
        (((getBitsWithRange w 15 4).setWidth 12).signExtend 32) with
    | none => exact ⟨.db w, rfl, .inl rfl⟩
    | some text => exact ⟨.instruction text, rfl, .inr ⟨text, rfl⟩⟩

/-- A line of one byte, of a half word or of a word, as the assembler prints them. -/
def IsDataLine (bytes : List (BitVec 8)) : Prop :=
  bytes.length = 1 ∨ bytes.length = 2 ∨ bytes.length = 4

theorem visitDisLine_byte {text : List Char} {v : BitVec 32}
    (h : convertHexString text = .ok (v, 2)) :
    visitDisLine (.hexNum text) = .ok [.db8 (v.setWidth 8)] := by
  show (convertHexString text >>= _) = _
  rw [h]
  rfl

theorem visitDisLine_halfWord {text : List Char} {v : BitVec 32}
    (h : convertHexString text = .ok (v, 4)) :
    visitDisLine (.hexNum text) = .ok [.db16 (v.setWidth 16)] := by
  show (convertHexString text >>= _) = _
  rw [h]
  rfl

theorem visitDisLine_word {text : List Char} {v : BitVec 32} {l : ListingLine}
    (h : convertHexString text = .ok (v, 8)) (hl : visitWord v = .ok l) :
    visitDisLine (.hexNum text) = .ok [l] := by
  have hvisit : visitDisLine (.hexNum text) = (visitWord v >>= fun l => pure [l]) := by
    show (convertHexString text >>= _) = _
    rw [h]
    rfl
  rw [hvisit, hl]
  rfl

/-- The leading digit is read into an empty number. -/
theorem hexValue_zero_byteText (a : BitVec 8) (cs : List Char) :
    hexValue 0 (byteText a ++ cs) = hexValue (a.setWidth 32) cs := by
  have ha := hexValue_byteText 0#0 a cs
  have hzero : (0#0 ++ a).setWidth 32 = a.setWidth 32 := by
    apply BitVec.eq_of_toNat_eq
    rw [BitVec.toNat_setWidth, BitVec.toNat_setWidth, BitVec.toNat_append]
    simp
  rw [hzero] at ha
  exact ha

/-- The digits of four bytes. -/
theorem hexValue_fourBytes (a b c d : BitVec 8) :
    hexValue 0 ([a, b, c, d].flatMap byteText) = some (a ++ b ++ c ++ d) := by
  refine (hexValue_zero_byteText a _).trans ((hexValue_byteText a b _).trans
    ((hexValue_byteText (a ++ b) c _).trans ((hexValue_byteText (a ++ b ++ c) d []).trans ?_)))
  exact congrArg some (BitVec.setWidth_eq (a ++ b ++ c ++ d))

/-- **A line of bytes is shown as one line that stands for it.** -/
theorem visitDisLine_lineText {bytes : List (BitVec 8)} (h : IsDataLine bytes) :
    ∃ l : ListingLine, visitDisLine (.hexNum (lineText bytes)) = .ok [l] ∧ l.StandsFor bytes := by
  match bytes, h with
  | [a], _ =>
    have hv : hexValue 0 ([a].flatMap byteText) = some (a.setWidth 32) :=
      hexValue_zero_byteText a []
    refine ⟨.db8 a, ?_, rfl⟩
    rw [visitDisLine_byte (convertHexString_lineText hv),
      BitVec.setWidth_setWidth_of_le _ (by decide), BitVec.setWidth_eq]
  | [a, b], _ =>
    have hv : hexValue 0 ([a, b].flatMap byteText) = some ((a ++ b).setWidth 32) :=
      (hexValue_zero_byteText a _).trans (hexValue_byteText a b [])
    refine ⟨.db16 (a ++ b), ?_, rfl⟩
    rw [visitDisLine_halfWord (convertHexString_lineText hv),
      BitVec.setWidth_setWidth_of_le _ (by decide)]
    exact congrArg (fun x => Except.ok [ListingLine.db16 x]) (BitVec.setWidth_eq (a ++ b))
  | [a, b, c, d], _ =>
    -- four bytes may be an instruction
    obtain ⟨l, hl, hkind⟩ := visitWord_ok (a ++ b ++ c ++ d)
    exact ⟨l, visitDisLine_word (convertHexString_lineText (hexValue_fourBytes a b c d)) hl, hl,
      hkind⟩

/-! ### The listing of printed lines -/

theorem disassemble_eq_ok {cs : List Char} {listing : List ListingLine} :
    disassemble cs = .ok listing ↔
      ∃ ls, DisLine.parse (DisTok.lex cs) = some ls ∧ visitDisLines ls = .ok listing := by
  unfold disassemble
  cases hparse : DisLine.parse (DisTok.lex cs) with
  | none => simp
  | some ls => simp

/-- One more line before lines that have a listing. -/
theorem disassemble_cons {cs rest : List Char} {tok : DisTok} {line : DisLine}
    {shown listing : List ListingLine} (hrest : disassemble rest = .ok listing)
    (hlex : DisTok.lex cs = tok :: .tokNewline :: DisTok.lex rest)
    (hparse : ∀ ts, DisLine.parse (tok :: .tokNewline :: ts) = (DisLine.parse ts).map (line :: ·))
    (hline : visitDisLine line = .ok shown) : disassemble cs = .ok (shown ++ listing) := by
  obtain ⟨ls, hls, hvisit⟩ := disassemble_eq_ok.mp hrest
  refine disassemble_eq_ok.mpr ⟨line :: ls, ?_, ?_⟩
  · rw [hlex, hparse, hls]
    rfl
  · show (visitDisLine line >>= fun first => visitDisLines ls >>= fun rest => pure _) = _
    rw [hline, hvisit]
    rfl

/-- A line of bytes starts with a digit, and digits and spaces follow. -/
theorem lineText_shape {bytes : List (BitVec 8)} (h : IsDataLine bytes) :
    ∃ c cs, lineText bytes = c :: cs ∧ isHexDigit c = true ∧ cs ≠ [] ∧
      ∀ x ∈ cs, DisTok.isHexOrSpace x = true := by
  have hbyte : ∀ b : BitVec 8, ∀ c ∈ byteText b, DisTok.isHexOrSpace c = true := by
    intro b c hc
    rw [DisTok.isHexOrSpace, isHexDigit_of_mem_byteText hc, Bool.true_or]
  have hfirst : ∀ b : BitVec 8, isHexDigit (Nat.digitChar (b.toNat / 16)) = true :=
    fun b => isHexDigit_of_mem_byteText List.mem_cons_self
  have hsecond : ∀ b : BitVec 8, DisTok.isHexOrSpace (Nat.digitChar (b.toNat % 16)) = true :=
    fun b => hbyte b _ (List.mem_cons_of_mem _ List.mem_cons_self)
  match bytes, h with
  | [a], _ =>
    refine ⟨_, [Nat.digitChar (a.toNat % 16)], rfl, hfirst a, by simp, ?_⟩
    simpa using hsecond a
  | [a, b], _ =>
    refine ⟨_, Nat.digitChar (a.toNat % 16) :: (byteText b ++ []), rfl, hfirst a, by simp, ?_⟩
    intro x hx
    rw [List.append_nil] at hx
    rcases List.mem_cons.mp hx with rfl | hx
    · exact hsecond a
    · exact hbyte b x hx
  | [a, b, c, d], _ =>
    refine ⟨_, Nat.digitChar (a.toNat % 16) :: (byteText b ++ ' ' :: (byteText c ++ byteText d)),
      rfl, hfirst a, by simp, ?_⟩
    intro x hx
    rcases List.mem_cons.mp hx with rfl | hx
    · exact hsecond a
    -- a space stands between the half words
    rcases List.mem_append.mp hx with hx | hx
    · exact hbyte b x hx
    rcases List.mem_cons.mp hx with rfl | hx
    · rfl
    rcases List.mem_append.mp hx with hx | hx
    · exact hbyte c x hx
    · exact hbyte d x hx

/-- **A line of bytes leaves one line that stands for it.** -/
theorem disassemble_lineText {bytes : List (BitVec 8)} (h : IsDataLine bytes) {rest : List Char}
    {listing : List ListingLine} (hrest : disassemble rest = .ok listing) :
    ∃ l : ListingLine, l.StandsFor bytes ∧
      disassemble (lineText bytes ++ '\n' :: rest) = .ok (l :: listing) := by
  obtain ⟨l, hl, hstands⟩ := visitDisLine_lineText h
  obtain ⟨c, cs, htext, hc, hne, hcs⟩ := lineText_shape h
  have hlex := DisTok.lex_hexNum rest hc hne hcs
  rw [← htext] at hlex
  exact ⟨l, hstands, disassemble_cons hrest hlex (fun _ => rfl) hl⟩

/-- An address of two or more digits leaves an `.org` line with its low 32 bits. -/
theorem disassemble_address {a : BitVec 64} (h : 0x10 ≤ a.toNat) {rest : List Char}
    {listing : List ListingLine} (hrest : disassemble rest = .ok listing) :
    disassemble ('@' :: hexText a ++ '\n' :: rest) = .ok (.org (a.setWidth 32) :: listing) := by
  obtain ⟨k, hk⟩ := convertHexString_address a
  have hline : visitDisLine (.org ('@' :: hexText a)) = .ok [.org (a.setWidth 32)] := by
    show (convertHexString _ >>= _) = _
    rw [hk]
    rfl
  have hdigits : hexText a = Nat.toDigits 16 (a.toNat / 16) ++ [Nat.digitChar (a.toNat % 16)] :=
    Nat.toDigits_of_base_le (by decide) h
  have hall : ∀ x ∈ hexText a, isHexDigit x = true := fun x hx => isHexDigit_of_mem_toDigits hx
  obtain ⟨c, cs, htext⟩ := List.exists_cons_of_ne_nil
    (show Nat.toDigits 16 (a.toNat / 16) ≠ [] from Nat.toDigits_ne_nil)
  rw [htext, List.cons_append] at hdigits
  rw [hdigits] at hall hline ⊢
  have hlex := DisTok.lex_org rest (hall c List.mem_cons_self)
    (show cs ++ [Nat.digitChar (a.toNat % 16)] ≠ [] by simp) (by
      intro x hx
      rw [DisTok.isHexOrSpace, hall x (List.mem_cons_of_mem _ hx), Bool.true_or])
  exact disassemble_cons hrest hlex (fun _ => rfl) hline

/-- **An address of one digit leaves nothing.** -/
theorem disassemble_address_digit {a : BitVec 64} (h : a.toNat < 0x10) {rest : List Char}
    {listing : List ListingLine} (hrest : disassemble rest = .ok listing) :
    disassemble ('@' :: hexText a ++ '\n' :: rest) = .ok listing := by
  have hlex : DisTok.lex ('@' :: hexText a ++ '\n' :: rest) =
      .tokNewline :: DisTok.lex rest := by
    rw [hexText, Nat.toDigits_of_lt_base h]
    exact DisTok.lex_org_one_digit (isHexDigit_digitChar h)
  obtain ⟨ls, hls, hvisit⟩ := disassemble_eq_ok.mp hrest
  refine disassemble_eq_ok.mpr ⟨.newline :: ls, ?_, ?_⟩
  · rw [hlex]
    show (DisLine.parse _).map _ = _
    rw [hls]
    rfl
  · show (visitDisLines ls >>= fun rest => pure ([] ++ rest)) = _
    rw [hvisit]
    rfl

/-! ### The addresses of a listing -/

/-- The lines of a listing other than `.org` with their addresses, by the rules of the
    assembler. -/
def placeListing (curr : BitVec 64) : List ListingLine → List (BitVec 64 × ListingLine)
  | [] => []
  | .org addr :: ls => placeListing (addr.setWidth 64) ls
  | l :: ls => (curr, l) :: placeListing (curr + BitVec.ofNat 64 l.size) ls

theorem placeListing_cons {l : ListingLine} {bytes : List (BitVec 8)} (h : l.StandsFor bytes)
    (curr : BitVec 64) (ls : List ListingLine) :
    placeListing curr (l :: ls) =
      (curr, l) :: placeListing (curr + BitVec.ofNat 64 bytes.length) ls := by
  rw [← h.size]
  match bytes, h with
  | [a], h =>
    rw [show l = .db8 a from h]
    rfl
  | [a, b], h =>
    rw [show l = .db16 (a ++ b) from h]
    rfl
  | [a, b, c, d], h =>
    rcases h.2 with rfl | ⟨text, rfl⟩
    · rfl
    · rfl

/-- The placed lines stand for the printed ones, at the same addresses. -/
def SamePlaces : List (BitVec 64 × ListingLine) → List (BitVec 64 × List (BitVec 8)) → Prop :=
  List.Forall₂ fun shown line => shown.1 = line.1 ∧ shown.2.StandsFor line.2

/-- The address of a line is listed where it is not the one after the line before it. -/
def AddrListed (prev addr : BitVec 64) : Prop :=
  addr = prev ∨ 0x10 ≤ addr.toNat ∧ addr.toNat < 2 ^ 32

instance (prev addr : BitVec 64) : Decidable (AddrListed prev addr) :=
  inferInstanceAs (Decidable (_ ∨ _))

/-- Every line is at an address that the listing keeps. -/
def LinesListed (prev : BitVec 64) : List (BitVec 64 × List (BitVec 8)) → Prop
  | [] => True
  | (addr, bytes) :: ls =>
    AddrListed prev addr ∧ LinesListed (addr + BitVec.ofNat 64 bytes.length) ls

/-- **The listing of printed lines**, and when it keeps their addresses. -/
theorem disassemble_renderFrom (prev : BitVec 64) (ls : List (BitVec 64 × List (BitVec 8)))
    (hdata : ∀ l ∈ ls, IsDataLine l.2) :
    ∃ listing, disassemble (renderFrom prev ls) = .ok listing ∧
      (SamePlaces (placeListing prev listing) ls ↔ LinesListed prev ls) := by
  induction ls generalizing prev with
  | nil => exact ⟨[], rfl, iff_of_true .nil trivial⟩
  | cons line ls ih =>
    obtain ⟨addr, bytes⟩ := line
    obtain ⟨listing, hlisting, hplaces⟩ := ih (addr + BitVec.ofNat 64 bytes.length)
      fun l hl => hdata l (List.mem_cons_of_mem _ hl)
    obtain ⟨l, hl, hline⟩ := disassemble_lineText (hdata _ List.mem_cons_self) hlisting
    -- the first line is at the pointer of the listing, whatever this is
    have hfirst : ∀ curr : BitVec 64,
        (SamePlaces (placeListing curr (l :: listing)) ((addr, bytes) :: ls) ↔
          curr = addr ∧ LinesListed (addr + BitVec.ofNat 64 bytes.length) ls) := by
      intro curr
      rw [placeListing_cons hl, SamePlaces, List.forall₂_cons]
      constructor
      · rintro ⟨⟨hcurr, -⟩, hrest⟩
        have hcurr : curr = addr := hcurr
        subst hcurr
        exact ⟨rfl, hplaces.mp hrest⟩
      · rintro ⟨rfl, hrest⟩
        exact ⟨⟨rfl, hl⟩, hplaces.mpr hrest⟩
    have htext : renderFrom prev ((addr, bytes) :: ls) =
        (if prev ≠ addr then '@' :: hexText addr ++ ['\n'] else []) ++
          (lineText bytes ++ '\n' :: renderFrom (addr + BitVec.ofNat 64 bytes.length) ls) := by
      rw [renderFrom, lineWithAddr]
      simp only [List.append_assoc, List.singleton_append]
    by_cases hsame : prev = addr
    · refine ⟨l :: listing, ?_, ?_⟩
      · rw [htext, if_neg (not_not_intro hsame), List.nil_append]
        exact hline
      · rw [hfirst prev, LinesListed, AddrListed]
        simp [hsame]
    · have hsame' : ¬addr = prev := fun h => hsame h.symm
      have hjump : renderFrom prev ((addr, bytes) :: ls) = '@' :: hexText addr ++ '\n' ::
          (lineText bytes ++ '\n' :: renderFrom (addr + BitVec.ofNat 64 bytes.length) ls) := by
        rw [htext, if_pos hsame, List.append_assoc]
        rfl
      by_cases hdigit : addr.toNat < 0x10
      · refine ⟨l :: listing, ?_, ?_⟩
        · rw [hjump]
          exact disassemble_address_digit hdigit hline
        · rw [hfirst prev, LinesListed, AddrListed]
          have hnot : ¬0x10 ≤ addr.toNat := by omega
          simp [hsame, hsame', hnot]
      · have hdigits : 0x10 ≤ addr.toNat := by omega
        refine ⟨.org (addr.setWidth 32) :: l :: listing, ?_, ?_⟩
        · rw [hjump]
          exact disassemble_address hdigits hline
        · show SamePlaces (placeListing ((addr.setWidth 32).setWidth 64) (l :: listing)) _ ↔ _
          have hkept : (addr.setWidth 32).setWidth 64 = addr ↔ addr.toNat < 2 ^ 32 := by
            rw [← BitVec.toNat_inj, BitVec.toNat_setWidth, BitVec.toNat_setWidth]
            omega
          rw [hfirst, LinesListed, AddrListed, hkept]
          simp [hsame', hdigits]

/-! ### The listing of an assembled program -/

/-- Every datum is at an address that the listing keeps. -/
def DataListed (prev : BitVec 64) : List (BitVec 64 × Datum) → Prop
  | [] => True
  | (addr, d) :: ems => AddrListed prev addr ∧ DataListed (addr + BitVec.ofNat 64 d.size) ems

instance decidableDataListed (prev : BitVec 64) :
    (ems : List (BitVec 64 × Datum)) → Decidable (DataListed prev ems)
  | [] => .isTrue trivial
  | (addr, d) :: ems =>
    have := decidableDataListed (addr + BitVec.ofNat 64 d.size) ems
    inferInstanceAs (Decidable (_ ∧ _))

/-- Lines that follow one another need no address but the first. -/
theorem linesListed_placeLines {l : List (BitVec 8)} (lines : List (List (BitVec 8)))
    (prev addr : BitVec 64) (ls : List (BitVec 64 × List (BitVec 8))) :
    LinesListed prev (placeLines addr (l :: lines) ++ ls) ↔
      AddrListed prev addr ∧
        LinesListed (addr + BitVec.ofNat 64 (l :: lines).flatten.length) ls := by
  induction lines generalizing l prev addr with
  | nil =>
    rw [List.flatten_cons, List.flatten_nil, List.append_nil]
    exact Iff.rfl
  | cons l' lines ih =>
    show AddrListed prev addr ∧ LinesListed (addr + BitVec.ofNat 64 l.length)
      (placeLines (addr + BitVec.ofNat 64 l.length) (l' :: lines) ++ ls) ↔ _
    rw [ih, List.flatten_cons (l := l), List.length_append, BitVec.ofNat_add, ← BitVec.add_assoc]
    simp [AddrListed]

theorem linesListed_outputLines (showWords : Bool) (prev : BitVec 64)
    (ems : List (BitVec 64 × Datum)) :
    LinesListed prev (outputLines showWords ems) ↔ DataListed prev ems := by
  induction ems generalizing prev with
  | nil => exact Iff.rfl
  | cons em ems ih =>
    obtain ⟨addr, d⟩ := em
    obtain ⟨l, lines, hlines⟩ : ∃ l lines, d.lines showWords = l :: lines := by
      cases showWords <;> cases d <;> exact ⟨_, _, rfl⟩
    rw [outputLines, List.flatMap_cons]
    show LinesListed prev (placeLines addr (d.lines showWords) ++ outputLines showWords ems) ↔ _
    rw [hlines, linesListed_placeLines, ← hlines, Datum.flatten_lines, Datum.length_bytes, ih]
    exact Iff.rfl

/-- The disassembler lists the text without an error, and every line of the listing other than
    `.org` stands for a printed one, in order and at its address. -/
def KeepsAddresses (text : List Char) (ls : List (BitVec 64 × List (BitVec 8))) : Prop :=
  ∃ listing, disassemble text = .ok listing ∧ SamePlaces (placeListing 0 listing) ls

/-- **A listing keeps every address exactly where** each datum of the program either follows
    the one before it or is at an address of at least two and at most eight digits. -/
theorem keepsAddresses_iff {showWords : Bool} {program : Program} {s : Assembler}
    (h : assemble showWords program = .ok s) :
    KeepsAddresses s.out (outputLines showWords (emissions showWords program)) ↔
      DataListed 0 (emissions showWords program) := by
  obtain ⟨listing, hlisting, hplaces⟩ := disassemble_renderFrom 0
    (outputLines showWords (emissions showWords program)) fun _ hl => length_line hl
  rw [out_eq_render h, ← linesListed_outputLines showWords, ← hplaces]
  constructor
  · rintro ⟨listing', hlisting', hsame⟩
    rw [hlisting] at hlisting'
    cases hlisting'
    exact hsame
  · exact fun hsame => ⟨listing, hlisting, hsame⟩

/-- Data after a move to an address of two digits, and a word after it. -/
def dataAt20 : Program :=
  [.directive (.dotOrgDirective (.ofAtom (.numExpr (.hexNum ⟨['2', '0'], by decide⟩)))),
    .directive (.dotDb16Directive (.ofAtom .currPc) []),
    .directive (.dotDbDirective (.ofAtom .currPc) [])]

theorem keepsAddresses_iff_dataAt20 :
    DataListed 0 (emissions false dataAt20) ∧
      ∃ s, assemble false dataAt20 = .ok s ∧
        KeepsAddresses s.out (outputLines false (emissions false dataAt20)) := by
  obtain ⟨s, hs⟩ := exists_eq_ok (show (assemble false dataAt20).isOk = true by decide +kernel)
  have hlisted : DataListed 0 (emissions false dataAt20) := by decide +kernel
  exact ⟨hlisted, s, hs, (keepsAddresses_iff hs).mpr hlisted⟩

/-- One byte after a move to an address of one digit. -/
def dataAt4 : Program :=
  [.directive (.dotOrgDirective (.ofAtom (.numExpr (.hexNum ⟨"4".toList, by decide⟩)))),
    .directive (.dotDb8Directive (.ofAtom .currPc) [])]

/-- The address line `@4` is no token, so that the byte is listed without an address. -/
theorem address_lost :
    ∃ s, assemble true dataAt4 = .ok s ∧ s.out = "@4\n04\n".toList ∧
      disassemble s.out = .ok [.db8 4] ∧ placeListing 0 [.db8 4] = [(0, .db8 4)] ∧
      outputLines true (emissions true dataAt4) = [(4, [4])] ∧
      ¬KeepsAddresses s.out (outputLines true (emissions true dataAt4)) := by
  obtain ⟨s, hs⟩ := exists_eq_ok (show (assemble true dataAt4).isOk = true by decide +kernel)
  have hlines : outputLines true (emissions true dataAt4) = [(4, [4])] := by decide +kernel
  have hout : s.out = "@4\n04\n".toList := by
    rw [out_eq_render hs, hlines]
    decide
  have hlist : disassemble s.out = .ok [.db8 4] := by
    rw [hout]
    decide +kernel
  refine ⟨s, hs, hout, hlist, rfl, hlines, ?_⟩
  rintro ⟨listing, hlisting, hsame⟩
  rw [hlist] at hlisting
  cases hlisting
  rw [hlines] at hsame
  cases hsame with
  | cons hfirst _ => exact absurd hfirst.1 (by decide)

end Frost32.Asm
