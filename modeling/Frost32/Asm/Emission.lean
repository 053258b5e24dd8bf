import Frost32.Asm.Expressions

namespace Frost32.Asm

/-!
# What the output routines print

`gen_8` to `gen_32` print lines of one, two or four bytes, each after an address line where
the program counter has been moved since the last output.

* `Datum` — a value to be generated, with its `bytes`, most significant first.
* `Datum.lines` — the bytes line by line: all together with `__show_words`, else one a line.
* `Assembler.emitLine` — print one such line and move the program counter past it.
* `gen32_run`, `gen16_run`, `gen8_run` — **the routines emit the lines of their datum**.
-/

/-! ### Bytes -/

/-- The argument of `gen_8`, `gen_16` or `gen_32`. -/
inductive Datum
  | b8 (d : BitVec 8)
  | b16 (d : BitVec 16)
  | b32 (d : BitVec 32)
  deriving DecidableEq, Repr

namespace Datum

/-- The bytes of a datum, most significant first. -/
def bytes : Datum → List (BitVec 8)
  | b8 d => [d]
  | b16 d => [d.extractLsb' 8 8, d.extractLsb' 0 8]
  | b32 d => [d.extractLsb' 24 8, d.extractLsb' 16 8, d.extractLsb' 8 8, d.extractLsb' 0 8]

/-- The printed lines of a datum. -/
def lines (showWords : Bool) (d : Datum) : List (List (BitVec 8)) :=
  if showWords then [d.bytes] else d.bytes.map ([·])

def size : Datum → Nat
  | b8 _ => 1
  | b16 _ => 2
  | b32 _ => 4

theorem length_bytes (d : Datum) : d.bytes.length = d.size := by
  cases d <;> rfl

/-- Both output modes print the same bytes. -/
theorem flatten_lines (showWords : Bool) (d : Datum) : (d.lines showWords).flatten = d.bytes := by
  cases showWords <;> cases d <;> rfl

end Datum

theorem getBitsWithRange_eq {w : Nat} (x : BitVec w) {hi lo : Nat} (hn : hi - lo + 1 < w) :
    getBitsWithRange x hi lo = (x.extractLsb' lo (hi - lo + 1)).setWidth w := by
  apply BitVec.eq_of_getLsbD_eq
  intro i hi'
  unfold getBitsWithRange
  rw [BitVec.getLsbD_ushiftRight, BitVec.getLsbD_and, BitVec.getLsbD_shiftLeft,
    BitField.getLsbD_lowMask hn, BitVec.getLsbD_setWidth, BitVec.getLsbD_extractLsb']
  by_cases hin : i < hi - lo + 1
  · by_cases hw : lo + i < w
    · simp [hin, hi', hw]
    · simp [hi', BitVec.getLsbD_of_ge x (lo + i) (by omega)]
  · simp [hin]

/-! ### The text of a byte -/

/-- Two hexadecimal digits. -/
def byteText (b : BitVec 8) : List Char :=
  [Nat.digitChar (b.toNat / 16), Nat.digitChar (b.toNat % 16)]

theorem hexByteText_setWidth (b : BitVec 8) : hexByteText (b.setWidth 32) = byteText b := by
  have hlt : b.toNat < 2 ^ 8 := b.isLt
  have hval : (b.setWidth 32).toNat = b.toNat := by
    rw [BitVec.toNat_setWidth]
    exact Nat.mod_eq_of_lt (by omega)
  unfold hexByteText hexText byteText
  rw [hval, BitVec.ult, hval]
  by_cases hsmall : b.toNat < 16
  · rw [if_pos (by simpa using hsmall), Nat.toDigits_of_lt_base hsmall, Nat.div_eq_of_lt hsmall,
      Nat.mod_eq_of_lt hsmall]
    rfl
  · rw [if_neg (by simpa using hsmall), Nat.toDigits_of_base_le (by decide) (by omega),
      Nat.toDigits_of_lt_base (by omega)]
    rfl

/-- The bytes of a line: a word is printed as two half words with a space between. -/
def lineText : List (BitVec 8) → List Char
  | [a, b, c, d] => byteText a ++ byteText b ++ ' ' :: (byteText c ++ byteText d)
  | bytes => bytes.flatMap byteText

/-! ### The output routines -/

namespace Assembler

def print (cs : List Char) (s : Assembler) : Assembler := { s with out := s.out ++ cs }

/-- Print a line of bytes, with an address line where one is due; pass 0 prints nothing. -/
def emitLine (bytes : List (BitVec 8)) (s : Assembler) : Assembler :=
  (s.print (if s.pass ≠ 0 then s.addrLineText ++ lineText bytes ++ ['\n'] else [])).advance
    (BitVec.ofNat 64 bytes.length)

/-- Generate a datum. -/
def gen (d : Datum) (s : Assembler) : Assembler :=
  (d.lines s.showWords).foldl (fun s bytes => s.emitLine bytes) s

end Assembler

@[simp] theorem Assembler.print_nil (s : Assembler) : s.print [] = s := by
  simp [Assembler.print]

theorem Assembler.print_print (s : Assembler) (cs ds : List Char) :
    (s.print cs).print ds = s.print (cs ++ ds) := by
  simp [Assembler.print]

@[simp] theorem printout_run (cs : List Char) (s : Assembler) :
    (printout cs).run s = .ok ((), s.print cs) := rfl

@[simp] theorem Assembler.pass_print (s : Assembler) (cs : List Char) :
    (s.print cs).pass = s.pass := rfl

@[simp] theorem Assembler.pass_advance (s : Assembler) (n : BitVec 64) :
    (s.advance n).pass = s.pass := rfl

@[simp] theorem Assembler.addrLineText_print (s : Assembler) (cs : List Char) :
    (s.print cs).addrLineText = s.addrLineText := rfl

/-- After an output the program counter counts as unchanged. -/
@[simp] theorem Assembler.addrLineText_advance (n : BitVec 64) (s : Assembler) :
    (s.advance n).addrLineText = [] := by
  simp [Assembler.addrLineText, Assembler.advance, PrevCurrPair.backUp, PrevCurrPair.hasChanged]

theorem Assembler.advance_print (n : BitVec 64) (s : Assembler) (cs : List Char) :
    (s.advance n).print cs = (s.print cs).advance n := rfl

theorem Assembler.advance_advance (m n : BitVec 64) (s : Assembler) :
    (s.advance m).advance n = s.advance (m + n) := by
  simp [Assembler.advance, PrevCurrPair.backUp, BitVec.add_assoc]

theorem gen8_run (d : BitVec 8) (s : Assembler) :
    (gen8 d).run s = .ok ((), s.emitLine [d]) := by
  unfold gen8 Assembler.emitLine
  simp only [StateT.run_bind, StateT.run_get, except_pure, ok_bind]
  by_cases hpass : s.pass = 0
  · simp [hpass]
  · simp [hpass, Assembler.print_print, Assembler.advance_print, hexByteText_setWidth, lineText]

/-- What `gen_words` prints: two bytes, without the end of the line. -/
def Assembler.wordsText (hi lo : BitVec 8) (s : Assembler) : List Char :=
  if s.pass ≠ 0 then s.addrLineText ++ byteText hi ++ byteText lo else []

theorem genWords_run (d : BitVec 16) (s : Assembler) :
    (genWords d).run s =
      .ok ((), (s.print (s.wordsText (d.extractLsb' 8 8) (d.extractLsb' 0 8))).advance 2) := by
  have hhi : (getBitsWithRange d 15 8).setWidth 32 = (d.extractLsb' 8 8).setWidth 32 := by
    rw [getBitsWithRange_eq d (by decide), BitVec.setWidth_setWidth (by decide)]
  have hlo : (getBitsWithRange d 7 0).setWidth 32 = (d.extractLsb' 0 8).setWidth 32 := by
    rw [getBitsWithRange_eq d (by decide), BitVec.setWidth_setWidth (by decide)]
  unfold genWords Assembler.wordsText
  simp only [StateT.run_bind, StateT.run_get, except_pure, ok_bind, hhi, hlo]
  by_cases hpass : s.pass = 0
  · simp [hpass]
  · simp [hpass, Assembler.print_print, hexByteText_setWidth]

/-- A byte taken out with `get_bits_with_range`. -/
theorem getBitsWithRange_byte {w : Nat} (x : BitVec w) (lo : Nat) (hw : 8 < w) :
    (getBitsWithRange x (lo + 7) lo).setWidth 8 = x.extractLsb' lo 8 := by
  have hn : lo + 7 - lo + 1 = 8 := by omega
  rw [getBitsWithRange_eq x (by omega), hn, BitVec.setWidth_setWidth (by omega),
    BitVec.setWidth_eq]

/-- Without `__show_words` every byte is a line of its own. -/
theorem gen_of_not_showWords {s : Assembler} (h : s.showWords = false) (d : Datum) :
    s.gen d = d.bytes.foldl (fun s b => s.emitLine [b]) s := by
  rw [Assembler.gen, Datum.lines, h, if_neg (by decide), List.foldl_map]

theorem gen_of_showWords {s : Assembler} (h : s.showWords = true) (d : Datum) :
    s.gen d = s.emitLine d.bytes := by
  rw [Assembler.gen, Datum.lines, h, if_pos rfl]
  rfl

/-- **`gen_8` emits its byte.** -/
theorem gen8_run' (d : BitVec 8) (s : Assembler) : (gen8 d).run s = .ok ((), s.gen (.b8 d)) := by
  rw [gen8_run]
  cases h : s.showWords
  · rw [gen_of_not_showWords h]
    rfl
  · rw [gen_of_showWords h]
    rfl

/-- **`gen_16` emits the lines of its half word.** -/
theorem gen16_run (d : BitVec 16) (s : Assembler) :
    (gen16 d).run s = .ok ((), s.gen (.b16 d)) := by
  unfold gen16
  simp only [StateT.run_bind, StateT.run_get, except_pure, ok_bind]
  cases h : s.showWords
  · rw [if_neg (by decide), gen_of_not_showWords h]
    simp only [StateT.run_bind, gen8_run, ok_bind, getBitsWithRange_byte d 8 (by decide),
      getBitsWithRange_byte d 0 (by decide)]
    rfl
  · rw [if_pos rfl, gen_of_showWords h]
    simp only [StateT.run_bind, genWords_run, ok_bind, Assembler.emitLine,
      Assembler.wordsText]
    by_cases hpass : s.pass = 0
    · simp [hpass, Datum.bytes]
    · simp [hpass, Assembler.print_print, Assembler.advance_print, Datum.bytes, lineText]

/-- **`gen_32` emits the lines of its word.** -/
theorem gen32_run (d : BitVec 32) (s : Assembler) :
    (gen32 d).run s = .ok ((), s.gen (.b32 d)) := by
  unfold gen32
  simp only [StateT.run_bind, StateT.run_get, except_pure, ok_bind]
  cases h : s.showWords
  · rw [if_neg (by decide), gen_of_not_showWords h]
    simp only [StateT.run_bind, gen8_run, ok_bind, getBitsWithRange_byte d 24 (by decide),
      getBitsWithRange_byte d 16 (by decide), getBitsWithRange_byte d 8 (by decide),
      getBitsWithRange_byte d 0 (by decide)]
    rfl
  · rw [if_pos rfl, gen_of_showWords h]
    have hhi : ∀ lo, lo + 8 ≤ 16 →
        ((getBitsWithRange d 31 16).setWidth 16).extractLsb' lo 8 = d.extractLsb' (16 + lo) 8 := by
      intro lo hlo
      rw [getBitsWithRange_eq d (by decide), BitVec.setWidth_setWidth (by decide)]
      apply BitVec.eq_of_getLsbD_eq
      intro i hi
      simp only [BitVec.getLsbD_extractLsb', BitVec.getLsbD_setWidth]
      simp [show lo + i < 16 by omega, Nat.add_assoc]
    have hlo : ∀ lo, lo + 8 ≤ 16 →
        ((getBitsWithRange d 15 0).setWidth 16).extractLsb' lo 8 = d.extractLsb' lo 8 := by
      intro lo hlo
      rw [getBitsWithRange_eq d (by decide), BitVec.setWidth_setWidth (by decide)]
      apply BitVec.eq_of_getLsbD_eq
      intro i hi
      simp only [BitVec.getLsbD_extractLsb', BitVec.getLsbD_setWidth]
      simp [show lo + i < 16 by omega]
    simp only [StateT.run_bind, genWords_run, ok_bind, hhi 8 (by decide), hhi 0 (by decide),
      Assembler.emitLine, Assembler.wordsText]
    by_cases hpass : s.pass = 0
    · simp [hpass, Datum.bytes, Assembler.advance_advance, genWords_run, Assembler.wordsText]
    · -- the second half word follows at once, so it has no address line
      simp [hpass, genWords_run, Assembler.wordsText, hlo 8 (by decide), hlo 0 (by decide),
        Assembler.print_print, Assembler.advance_print, Assembler.advance_advance, Datum.bytes,
        lineText]

/-- The text a datum prints after the given state. -/
theorem gen_eq (s : Assembler) (d : Datum) :
    ∃ cs, s.gen d = (s.print cs).advance (BitVec.ofNat 64 d.size) := by
  cases h : s.showWords
  · rw [gen_of_not_showWords h]
    cases d <;>
      simp only [Datum.bytes, List.foldl_cons, List.foldl_nil, Assembler.emitLine,
        Assembler.advance_print, Assembler.print_print, Assembler.advance_advance] <;>
      exact ⟨_, rfl⟩
  · rw [gen_of_showWords h, Assembler.emitLine, Datum.length_bytes]
    exact ⟨_, rfl⟩

end Frost32.Asm
