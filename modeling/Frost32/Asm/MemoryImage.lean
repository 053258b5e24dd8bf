import Frost32.Asm.Image
import Frost32.Hdl.Pipeline
import Frost32.Lib.Readmemh

namespace Frost32.Asm

open Fallible Hdl HexImage Readmemh

/-!
# The output in the memory

The text the assembler prints, loaded with `$readmemh` into the array of `SinglePortRam`.

* `Program.numbers` — the numbers of the text, each with the index of its element;
  `readmemh_out`: the loader reads exactly these.
* `LoadsOutput` — `MainMem` returns the words whose bytes the assembler has placed.
* `LoadSound` — all bytes are 0.
* `loadsOutput_iff` — **when it does**: an address line counts bytes and the array counts
  words, so a program is loaded right if it is `LoadSound`.
-/

/-! ### The numbers of the text -/

/-- The numbers of a line: a word is printed as two half words. -/
def lineNumbers : List (BitVec 8) → List Nat
  | [a, b, c, d] => [bytesValue [a, b], bytesValue [c, d]]
  | bytes => [bytesValue bytes]

/-- Numbers for consecutive elements. -/
def placeNumbers (i : Nat) : List Nat → List (Nat × Nat)
  | [] => []
  | v :: vs => (i, v) :: placeNumbers (i + 1) vs

/-- The element of the first number of a line: an address line is printed where the line does
    not follow the one before it. -/
def lineIndex (prev addr : BitVec 64) (i : Nat) : Nat := if prev ≠ addr then addr.toNat else i

/-- The numbers of lines, where `prev` is the address after the last line and `i` the next
    element. -/
def numbersFrom (prev : BitVec 64) (i : Nat) :
    List (BitVec 64 × List (BitVec 8)) → List (Nat × Nat)
  | [] => []
  | (addr, bytes) :: ls =>
    placeNumbers (lineIndex prev addr i) (lineNumbers bytes) ++
      numbersFrom (addr + BitVec.ofNat 64 bytes.length)
        (lineIndex prev addr i + (lineNumbers bytes).length) ls

def Program.numbers (showWords : Bool) (program : Program) : List (Nat × Nat) :=
  numbersFrom 0 0 (outputLines showWords (emissions showWords program))

theorem readAll_byteTexts (i : Nat) (nums : List (Nat × Nat)) {bs : List (BitVec 8)}
    (hne : bs ≠ []) :
    Loader.readAll ⟨i, .between, nums⟩ (bs.flatMap byteText) =
      some ⟨i, .number (bytesValue bs), nums⟩ := Loader.readAll_bytes i nums hne

theorem readAll_line (i : Nat) (nums : List (Nat × Nat)) {bytes : List (BitVec 8)}
    (hne : bytes ≠ []) :
    Loader.readAll ⟨i, .between, nums⟩ (lineText bytes ++ ['\n']) =
      some ⟨i + (lineNumbers bytes).length, .between,
        nums ++ placeNumbers i (lineNumbers bytes)⟩ := by
  unfold lineText
  split
  · next a b c d =>
    -- a word is read as two numbers
    have hsplit : byteText a ++ byteText b ++ ' ' :: (byteText c ++ byteText d) ++ ['\n'] =
        [a, b].flatMap byteText ++ ([' '] ++ ([c, d].flatMap byteText ++ ['\n'])) := by simp
    have hfirst := readAll_byteTexts i nums (List.cons_ne_nil a [b])
    have hspace := Loader.readAll_space i nums (bytesValue [a, b]) (c := ' ') rfl
    have hlast := readAll_byteTexts (i + 1) (nums ++ [(i, bytesValue [a, b])])
      (List.cons_ne_nil c [d])
    rw [hsplit, Loader.readAll_append_of_eq hfirst, Loader.readAll_append_of_eq hspace,
      Loader.readAll_append_of_eq hlast, Loader.readAll_space _ _ _ rfl, List.append_assoc]
    rfl
  · next hword =>
    have hnums : lineNumbers bytes = [bytesValue bytes] := by
      unfold lineNumbers
      split
      · exact absurd rfl (hword _ _ _ _)
      · rfl
    rw [hnums, Loader.readAll_append_of_eq (readAll_byteTexts i nums hne)]
    exact Loader.readAll_space i nums _ rfl

theorem readAll_lines (prev : BitVec 64) (i : Nat) (nums : List (Nat × Nat))
    {ls : List (BitVec 64 × List (BitVec 8))} (hne : ∀ l ∈ ls, l.2 ≠ []) :
    ∃ j, Loader.readAll ⟨i, .between, nums⟩ (renderFrom prev ls) =
      some ⟨j, .between, nums ++ numbersFrom prev i ls⟩ := by
  induction ls generalizing prev i nums with
  | nil => exact ⟨i, by rw [numbersFrom, List.append_nil]; rfl⟩
  | cons l ls ih =>
    obtain ⟨addr, bytes⟩ := l
    have haddr : Loader.readAll ⟨i, .between, nums⟩
        (if prev ≠ addr then '@' :: hexText addr ++ ['\n'] else []) =
          some ⟨lineIndex prev addr i, .between, nums⟩ := by
      unfold lineIndex
      by_cases hsame : prev ≠ addr
      · rw [if_pos hsame, if_pos hsame]
        exact Loader.readAll_address i nums addr.toNat
      · rw [if_neg hsame, if_neg hsame]
        rfl
    have hline := readAll_line (lineIndex prev addr i) nums (hne _ List.mem_cons_self)
    obtain ⟨j, hrest⟩ := ih (addr + BitVec.ofNat 64 bytes.length)
      (lineIndex prev addr i + (lineNumbers bytes).length)
      (nums ++ placeNumbers (lineIndex prev addr i) (lineNumbers bytes))
      fun l hl => hne l (List.mem_cons_of_mem _ hl)
    refine ⟨j, ?_⟩
    rw [renderFrom, lineWithAddr, List.append_assoc, List.append_assoc,
      Loader.readAll_append_of_eq haddr, ← List.append_assoc, Loader.readAll_append_of_eq hline,
      hrest, numbersFrom, List.append_assoc]

/-- **The loader reads the numbers of the program.** -/
theorem readmemh_out {showWords : Bool} {program : Program} {s : Assembler}
    (h : assemble showWords program = .ok s) :
    readmemh s.out = some (program.numbers showWords) := by
  have hne : ∀ l ∈ outputLines showWords (emissions showWords program), l.2 ≠ [] := by
    intro l hl hnil
    have hlen := length_line hl
    rw [hnil] at hlen
    simp at hlen
  obtain ⟨j, hread⟩ := readAll_lines 0 0 [] hne
  rw [← out_eq_render h, List.nil_append] at hread
  rw [readmemh, hread]
  rfl

/-! ### The words of the program -/

namespace Program

variable (showWords : Bool) (program : Program)

/-- The byte placed last at an address. -/
def byteAt : BitVec 64 → Option (BitVec 8) := lastAt (bytesOf (emissions showWords program))

/-- The bytes from an address on, the most significant one first. -/
def wordAt (addr : BitVec 64) : Option Word := do
  let b₀ ← program.byteAt showWords addr
  let b₁ ← program.byteAt showWords (addr + 1)
  let b₂ ← program.byteAt showWords (addr + 2)
  let b₃ ← program.byteAt showWords (addr + 3)
  return b₀ ++ b₁ ++ b₂ ++ b₃

/-- The program places its bytes below 8 KiB and in whole aligned words. -/
structure FillsWords : Prop where
  below : ∀ em ∈ bytesOf (emissions showWords program), em.1.toNat < 8192
  whole : ∀ em ∈ bytesOf (emissions showWords program), ∀ k < 4,
    BitVec.ofNat 64 (em.1.toNat / 4 * 4 + k) ∈
      (bytesOf (emissions showWords program)).map Prod.fst

-- the bytes are tested one by one: their addresses are too many for a test of all of these
instance : Decidable (program.FillsWords showWords) :=
  decidable_of_iff ((bytesOf (emissions showWords program)).all (fun em =>
      em.1.toNat < 8192 && (List.range 4).all fun k =>
        ((bytesOf (emissions showWords program)).map Prod.fst).contains
          (BitVec.ofNat 64 (em.1.toNat / 4 * 4 + k))) = true) (by
    simp only [List.all_eq_true, Bool.and_eq_true, decide_eq_true_eq, List.mem_range,
      List.contains_iff_mem]
    exact ⟨fun h => ⟨fun em hem => (h em hem).1, fun em hem => (h em hem).2⟩,
      fun h em hem => ⟨h.below em hem, h.whole em hem⟩⟩)

/-- No byte is placed twice. -/
def PlacesOnce : Prop := ((bytesOf (emissions showWords program)).map Prod.fst).Nodup

instance : Decidable (program.PlacesOnce showWords) := inferInstanceAs (Decidable (List.Nodup _))

/-- Every byte is 0 in the end. -/
def AllZero : Prop := ∀ addr b, program.byteAt showWords addr = some b → b = 0

/-- Every byte is 0 wherever it is placed, also one that is overwritten later. -/
def PlacesZeros : Prop := ∀ em ∈ bytesOf (emissions showWords program), em.2 = 0

instance : Decidable (program.PlacesZeros showWords) :=
  decidable_of_iff (((bytesOf (emissions showWords program)).all fun em => em.2 == 0) = true)
    (by simp [Program.PlacesZeros])

/-- Every word is the last number for the element of its address, and 0 if there is none. -/
def WordsAreNumbers : Prop :=
  ∀ addr w, addr.toNat % 4 = 0 → program.wordAt showWords addr = some w →
    BitVec.ofNat 32 ((lastAt (program.numbers showWords) (addr.toNat / 4)).getD 0) = w

end Program

/-- After the text has been loaded, a read of any aligned address of the program gives the word
    there. -/
def LoadsOutput (showWords : Bool) (program : Program) (out : List Char) : Prop :=
  ∃ nums, readmemh out = some nums ∧ ∀ addr w outData,
    addr.toNat % 4 = 0 → program.wordAt showWords addr = some w →
      (SinglePortRam.step (.readOf (addr.setWidth 32))
        { mem := load (fun _ => 0) nums, outData := outData }).outData = w

/-- Words are printed and some byte is placed more than once, so that numbers of overwritten
    bytes are left in the text. -/
def PrintsOverwritten (showWords : Bool) (program : Program) : Prop :=
  showWords = true ∧ ¬program.PlacesOnce showWords

/-- All bytes are 0, and the overwritten ones are too where their numbers are left. -/
def LoadSound (showWords : Bool) (program : Program) : Prop :=
  program.AllZero showWords ∧
    (PrintsOverwritten showWords program → program.PlacesZeros showWords)

section Fills

variable {showWords : Bool} {program : Program}

theorem Program.FillsWords.byteAt_lt (h : program.FillsWords showWords) {addr : BitVec 64}
    {b : BitVec 8} (hb : program.byteAt showWords addr = some b) : addr.toNat < 8192 :=
  h.below _ (mem_of_lastAt hb)

/-- The word around a byte. -/
theorem Program.FillsWords.exists_word (h : program.FillsWords showWords) {addr : BitVec 64}
    {b : BitVec 8} (hb : program.byteAt showWords addr = some b) :
    ∃ base b₀ b₁ b₂ b₃, base.toNat = addr.toNat / 4 * 4 ∧
      program.byteAt showWords base = some b₀ ∧ program.byteAt showWords (base + 1) = some b₁ ∧
      program.byteAt showWords (base + 2) = some b₂ ∧
      program.byteAt showWords (base + 3) = some b₃ ∧ (b = b₀ ∨ b = b₁ ∨ b = b₂ ∨ b = b₃) := by
  have hmem := mem_of_lastAt hb
  have hlt := h.below _ hmem
  have hbase : ∀ k, BitVec.ofNat 64 (addr.toNat / 4 * 4 + k) =
      BitVec.ofNat 64 (addr.toNat / 4 * 4) + BitVec.ofNat 64 k := fun k => BitVec.ofNat_add _ _
  have hbyte : ∀ k < 4, ∃ b, program.byteAt showWords
      (BitVec.ofNat 64 (addr.toNat / 4 * 4) + BitVec.ofNat 64 k) = some b := by
    intro k hk
    obtain ⟨em, hem, hk⟩ := List.mem_map.mp (h.whole _ hmem k hk)
    rw [← hbase, ← hk]
    exact exists_lastAt hem
  obtain ⟨b₀, h₀⟩ := hbyte 0 (by omega)
  obtain ⟨b₁, h₁⟩ := hbyte 1 (by omega)
  obtain ⟨b₂, h₂⟩ := hbyte 2 (by omega)
  obtain ⟨b₃, h₃⟩ := hbyte 3 (by omega)
  rw [BitVec.add_zero] at h₀
  refine ⟨_, b₀, b₁, b₂, b₃, ?_, h₀, h₁, h₂, h₃, ?_⟩
  · rw [BitVec.toNat_ofNat]
    omega
  · -- the byte is the one of its offset
    have hself : addr =
        BitVec.ofNat 64 (addr.toNat / 4 * 4) + BitVec.ofNat 64 (addr.toNat % 4) := by
      rw [← hbase, Nat.div_add_mod', BitVec.ofNat_toNat, BitVec.setWidth_eq]
    have hoffset : addr.toNat % 4 = 0 ∨ addr.toNat % 4 = 1 ∨ addr.toNat % 4 = 2 ∨
        addr.toNat % 4 = 3 := by omega
    rw [hself] at hb
    rcases hoffset with hk | hk | hk | hk
    · rw [hk, BitVec.add_zero, h₀] at hb
      exact .inl (Option.some.inj hb).symm
    · rw [hk] at hb
      exact .inr (.inl (Option.some.inj (hb.symm.trans h₁)))
    · rw [hk] at hb
      exact .inr (.inr (.inl (Option.some.inj (hb.symm.trans h₂))))
    · rw [hk] at hb
      exact .inr (.inr (.inr (Option.some.inj (hb.symm.trans h₃))))

theorem Program.wordAt_eq {addr : BitVec 64} {b₀ b₁ b₂ b₃ : BitVec 8}
    (h₀ : program.byteAt showWords addr = some b₀)
    (h₁ : program.byteAt showWords (addr + 1) = some b₁)
    (h₂ : program.byteAt showWords (addr + 2) = some b₂)
    (h₃ : program.byteAt showWords (addr + 3) = some b₃) :
    program.wordAt showWords addr = some (b₀ ++ b₁ ++ b₂ ++ b₃) := by
  rw [wordAt, h₀, h₁, h₂, h₃]
  rfl

theorem Program.exists_of_wordAt {addr : BitVec 64} {w : Word}
    (h : program.wordAt showWords addr = some w) :
    ∃ b₀ b₁ b₂ b₃, program.byteAt showWords addr = some b₀ ∧
      program.byteAt showWords (addr + 1) = some b₁ ∧
      program.byteAt showWords (addr + 2) = some b₂ ∧
      program.byteAt showWords (addr + 3) = some b₃ ∧ w = b₀ ++ b₁ ++ b₂ ++ b₃ := by
  obtain ⟨b₀, h₀, h⟩ := Option.bind_eq_some_iff.mp h
  obtain ⟨b₁, h₁, h⟩ := Option.bind_eq_some_iff.mp h
  obtain ⟨b₂, h₂, h⟩ := Option.bind_eq_some_iff.mp h
  obtain ⟨b₃, h₃, h⟩ := Option.bind_eq_some_iff.mp h
  exact ⟨b₀, b₁, b₂, b₃, h₀, h₁, h₂, h₃, (Option.some.inj h).symm⟩

/-- **What the memory returns are the numbers.** -/
theorem loadsOutput_iff_numbers {s : Assembler} (h : assemble showWords program = .ok s)
    (hfill : program.FillsWords showWords) :
    LoadsOutput showWords program s.out ↔ program.WordsAreNumbers showWords := by
  have hread : ∀ (addr : BitVec 64) (outData : Word), addr.toNat < 8192 →
      (SinglePortRam.step (.readOf (addr.setWidth 32))
        { mem := load (fun _ => 0) (program.numbers showWords), outData := outData }).outData =
      BitVec.ofNat 32 ((lastAt (program.numbers showWords) (addr.toNat / 4)).getD 0) := by
    intro addr outData hlt
    -- the array is indexed by the address of the word
    have hindex : (ramIndex (addr.setWidth 32)).toNat = addr.toNat / 4 := by
      unfold ramIndex
      rw [BitVec.toNat_setWidth, BitVec.toNat_ushiftRight, BitVec.toNat_setWidth,
        Nat.shiftRight_eq_div_pow]
      omega
    show load _ _ (ramIndex (addr.setWidth 32)) = _
    rw [load_apply, hindex]
    cases lastAt (program.numbers showWords) (addr.toNat / 4) <;> rfl
  have hlt : ∀ {addr : BitVec 64} {w : Word}, program.wordAt showWords addr = some w →
      addr.toNat < 8192 := by
    intro addr w hw
    obtain ⟨b₀, -, -, -, h₀, -⟩ := Program.exists_of_wordAt hw
    exact hfill.byteAt_lt h₀
  constructor
  · -- the text has one reading
    rintro ⟨nums, hnums, hloads⟩ addr w halign hw
    rw [readmemh_out h] at hnums
    rw [← Option.some.inj hnums] at hloads
    rw [← hread addr 0 (hlt hw)]
    exact hloads addr w 0 halign hw
  · intro hwords
    refine ⟨_, readmemh_out h, ?_⟩
    intro addr w outData halign hw
    rw [hread addr outData (hlt hw)]
    exact hwords addr w halign hw

end Fills

/-! ### Where a number comes from -/

/-- `v` is the number of at most two bytes, at an address of at most twice the element `e`. -/
def NumberOf (placed : BitVec 64 → BitVec 8 → Prop) (e v : Nat) : Prop :=
  ∃ (x : BitVec 64) (bs : List (BitVec 8)), bs.length ≤ 2 ∧ x.toNat ≤ 2 * e ∧
    v = bytesValue bs ∧ ∀ p ∈ placeBytes x bs, placed p.1 p.2

theorem NumberOf.mono {placed placed' : BitVec 64 → BitVec 8 → Prop} {e v : Nat}
    (h : NumberOf placed e v) (hle : ∀ a b, placed a b → placed' a b) : NumberOf placed' e v := by
  obtain ⟨x, bs, hlen, hx, hv, hbs⟩ := h
  exact ⟨x, bs, hlen, hx, hv, fun p hp => hle _ _ (hbs p hp)⟩

theorem toNat_add_le (a : BitVec 64) (k : Nat) : (a + BitVec.ofNat 64 k).toNat ≤ a.toNat + k := by
  rw [BitVec.toNat_add, BitVec.toNat_ofNat]
  omega

/-- A line moves the element on by at least half as much as the address. -/
theorem numberOf_line {addr : BitVec 64} {bytes : List (BitVec 8)} {j : Nat}
    (hlen : bytes.length = 1 ∨ bytes.length = 2 ∨ bytes.length = 4) (haddr : addr.toNat ≤ 2 * j) :
    (∀ n ∈ placeNumbers j (lineNumbers bytes),
      NumberOf (fun a b => (a, b) ∈ placeBytes addr bytes) n.1 n.2) ∧
    (addr + BitVec.ofNat 64 bytes.length).toNat ≤ 2 * (j + (lineNumbers bytes).length) := by
  match bytes, hlen with
  | [a], _ =>
    have hnext := toNat_add_le addr 1
    refine ⟨?_, show (addr + BitVec.ofNat 64 1).toNat ≤ 2 * (j + 1) by omega⟩
    intro n hn
    rw [List.mem_singleton.mp hn]
    exact ⟨addr, [a], Nat.le_succ 1, haddr, rfl, fun p hp => hp⟩
  | [a, b], _ =>
    have hnext := toNat_add_le addr 2
    refine ⟨?_, show (addr + BitVec.ofNat 64 2).toNat ≤ 2 * (j + 1) by omega⟩
    intro n hn
    rw [List.mem_singleton.mp hn]
    exact ⟨addr, [a, b], Nat.le_refl 2, haddr, rfl, fun p hp => hp⟩
  | [a, b, c, d], _ =>
    have hnext := toNat_add_le addr 4
    have hhalf := toNat_add_le addr 2
    -- the second number of a word starts two bytes further
    have hplace : placeBytes addr [a, b, c, d] =
        placeBytes addr [a, b] ++ placeBytes (addr + BitVec.ofNat 64 2) [c, d] :=
      placeBytes_append addr [a, b] [c, d]
    refine ⟨?_, show (addr + BitVec.ofNat 64 4).toNat ≤ 2 * (j + 2) by omega⟩
    intro n hn
    rw [hplace]
    have hcases : n = (j, bytesValue [a, b]) ∨ n = (j + 1, bytesValue [c, d]) := by
      simpa [lineNumbers, placeNumbers] using hn
    rcases hcases with rfl | rfl
    · exact ⟨addr, [a, b], Nat.le_refl 2, haddr, rfl, fun p hp => List.mem_append_left _ hp⟩
    · exact ⟨_, [c, d], Nat.le_refl 2, show _ ≤ 2 * (j + 1) by omega, rfl,
        fun p hp => List.mem_append_right _ hp⟩

/-- **Every number comes from bytes of the lines**, not far up. -/
theorem numberOf_lines {ls : List (BitVec 64 × List (BitVec 8))}
    (hlen : ∀ l ∈ ls, l.2.length = 1 ∨ l.2.length = 2 ∨ l.2.length = 4) {prev : BitVec 64}
    {i : Nat} (hprev : prev.toNat ≤ 2 * i) {n : Nat × Nat} (hn : n ∈ numbersFrom prev i ls) :
    NumberOf (fun a b => (a, b) ∈ ls.flatMap fun l => placeBytes l.1 l.2) n.1 n.2 := by
  induction ls generalizing prev i with
  | nil => cases hn
  | cons l ls ih =>
    obtain ⟨addr, bytes⟩ := l
    have haddr : addr.toNat ≤ 2 * lineIndex prev addr i := by
      unfold lineIndex
      by_cases hsame : prev ≠ addr
      · rw [if_pos hsame]
        omega
      · rw [if_neg hsame, ← not_not.mp hsame]
        exact hprev
    obtain ⟨hline, hnext⟩ := numberOf_line (hlen _ List.mem_cons_self) haddr
    rw [List.flatMap_cons]
    rcases List.mem_append.mp hn with hn | hn
    · exact (hline n hn).mono fun a b h => List.mem_append_left _ h
    · exact (ih (fun l hl => hlen l (List.mem_cons_of_mem _ hl)) hnext hn).mono
        fun a b h => List.mem_append_right _ h

/-! ### Bytes one by one -/

theorem placeLines_singletons (addr : BitVec 64) (bs : List (BitVec 8)) :
    placeLines addr (bs.map ([·])) = (placeBytes addr bs).map fun p => (p.1, [p.2]) := by
  induction bs generalizing addr with
  | nil => rfl
  | cons b bs ih => exact congrArg ((addr, [b]) :: ·) (ih (addr + 1))

theorem outputLines_false (ems : List (BitVec 64 × Datum)) :
    outputLines false ems = (bytesOf ems).map fun p => (p.1, [p.2]) := by
  unfold outputLines bytesOf
  rw [List.map_flatMap]
  congr 1
  funext em
  exact placeLines_singletons em.1 em.2.bytes

/-- The index of a byte is its address. -/
theorem numbersFrom_bytes (prev : BitVec 64) {bs : List (BitVec 64 × BitVec 8)}
    (hlt : ∀ p ∈ bs, p.1.toNat < 8192) :
    numbersFrom prev prev.toNat (bs.map fun p => (p.1, [p.2])) =
      bs.map fun p => (p.1.toNat, p.2.toNat) := by
  induction bs generalizing prev with
  | nil => rfl
  | cons p bs ih =>
    have hindex : lineIndex prev p.1 prev.toNat = p.1.toNat := by
      unfold lineIndex
      by_cases hsame : prev ≠ p.1
      · rw [if_pos hsame]
      · rw [if_neg hsame, not_not.mp hsame]
    have hnext : (p.1 + BitVec.ofNat 64 1).toNat = p.1.toNat + 1 := by
      have := hlt p List.mem_cons_self
      rw [BitVec.toNat_add, BitVec.toNat_ofNat]
      omega
    have hrest := ih (p.1 + BitVec.ofNat 64 1) fun q hq => hlt q (List.mem_cons_of_mem _ hq)
    rw [hnext] at hrest
    have hvalue : bytesValue [p.2] = p.2.toNat := by
      show 256 * 0 + p.2.toNat = _
      omega
    rw [List.map_cons, List.map_cons, numbersFrom, hindex]
    show (p.1.toNat, bytesValue [p.2]) :: _ = _
    rw [hvalue]
    exact congrArg _ hrest

section Zero

variable {showWords : Bool} {program : Program}

theorem allZero_of_placesZeros (h : program.PlacesZeros showWords) :
    program.AllZero showWords := fun _ _ hb => h _ (mem_of_lastAt hb)

/-- The numbers are those of bytes that are placed at some time. -/
theorem numberOf_placed {e v : Nat} (h : lastAt (program.numbers showWords) e = some v) :
    NumberOf (fun a b => (a, b) ∈ bytesOf (emissions showWords program)) e v := by
  have hsrc := numberOf_lines (fun l hl => length_line hl)
    (show (0 : BitVec 64).toNat ≤ 2 * 0 from Nat.le_refl 0) (mem_of_lastAt h)
  rwa [flatMap_outputLines] at hsrc

/-- **Without words in the text, or where no byte is placed twice, the numbers are those of the
    bytes in the end.** -/
theorem numberOf_byteAt (hfill : program.FillsWords showWords)
    (hmode : ¬PrintsOverwritten showWords program) {e v : Nat}
    (h : lastAt (program.numbers showWords) e = some v) :
    NumberOf (fun a b => program.byteAt showWords a = some b) e v := by
  by_cases honce : program.PlacesOnce showWords
  · -- without double bytes every byte is the last one at its address
    exact (numberOf_placed h).mono fun a b hab => lastAt_of_mem honce hab
  · obtain rfl : showWords = false := by
      cases showWords with
      | false => rfl
      | true => exact absurd ⟨rfl, honce⟩ hmode
    -- byte by byte the index of a number is its address
    have hnums : program.numbers false =
        (bytesOf (emissions false program)).map fun p => (p.1.toNat, p.2.toNat) := by
      rw [Program.numbers, outputLines_false]
      exact numbersFrom_bytes 0 hfill.below
    rw [hnums] at h
    obtain ⟨p, -, hp⟩ := List.mem_map.mp (mem_of_lastAt h)
    obtain ⟨rfl, -⟩ := Prod.mk.inj hp
    rw [lastAt_map (fun a b hab => BitVec.eq_of_toNat_eq hab)] at h
    obtain ⟨b, hb, rfl⟩ := Option.map_eq_some_iff.mp h
    refine ⟨p.1, [b], Nat.le_succ 1, by omega, ?_, ?_⟩
    · show b.toNat = 256 * 0 + b.toNat
      omega
    · intro q hq
      rw [List.mem_singleton.mp hq]
      exact hb

/-- The bytes of a word. -/
theorem bytes_of_append {b₀ b₁ b₂ b₃ : BitVec 8} {w : Word} (h : w = b₀ ++ b₁ ++ b₂ ++ b₃) :
    b₀ = w.extractLsb' 24 8 ∧ b₁ = w.extractLsb' 16 8 ∧ b₂ = w.extractLsb' 8 8 ∧
      b₃ = w.extractLsb' 0 8 := by
  rw [h]
  refine ⟨?_, ?_, ?_, BitVec.extractLsb'_append_eq_right.symm⟩
  · rw [BitVec.extractLsb'_append_eq_of_le (by omega),
      BitVec.extractLsb'_append_eq_of_le (by omega)]
    exact BitVec.extractLsb'_append_eq_left.symm
  · rw [BitVec.extractLsb'_append_eq_of_le (by omega),
      BitVec.extractLsb'_append_eq_of_le (by omega)]
    exact BitVec.extractLsb'_append_eq_right.symm
  · rw [BitVec.extractLsb'_append_eq_of_le (by omega)]
    exact BitVec.extractLsb'_append_eq_right.symm

/-- A number of two bytes leaves the high half of a word 0. -/
theorem high_of_bytesValue {bs : List (BitVec 8)} (hlen : bs.length ≤ 2) :
    (BitVec.ofNat 32 (bytesValue bs)).extractLsb' 24 8 = 0 ∧
      (BitVec.ofNat 32 (bytesValue bs)).extractLsb' 16 8 = 0 := by
  -- two bytes are at most 16 bits
  have hlt : bytesValue bs < 2 ^ 16 := by
    match bs, hlen with
    | [], _ => exact Nat.two_pow_pos 16
    | [a], _ =>
      have ha := a.isLt
      show 256 * 0 + a.toNat < _
      omega
    | [a, b], _ =>
      have ha := a.isLt
      have hb := b.isLt
      show 256 * (256 * 0 + a.toNat) + b.toNat < _
      omega
  have hcut : ∀ k, 16 ≤ k → (BitVec.ofNat 32 (bytesValue bs)).extractLsb' k 8 = 0#8 := by
    intro k hk
    have hdiv : bytesValue bs / 2 ^ k = 0 :=
      Nat.div_eq_of_lt (hlt.trans_le (Nat.pow_le_pow_right (by omega) hk))
    have hmod : bytesValue bs % 2 ^ 32 = bytesValue bs := Nat.mod_eq_of_lt (by omega)
    apply BitVec.eq_of_toNat_eq
    rw [BitVec.extractLsb'_toNat, BitVec.toNat_ofNat, hmod, Nat.shiftRight_eq_div_pow, hdiv]
    rfl
  exact ⟨hcut 24 (by omega), hcut 16 (by omega)⟩

/-- Zeros are the numbers for their elements, if the numbers come from zeros. -/
theorem wordsAreNumbers_of_zeros {placed : BitVec 64 → BitVec 8 → Prop}
    (hsrc : ∀ {e v : Nat}, lastAt (program.numbers showWords) e = some v → NumberOf placed e v)
    (hplaced : ∀ a b, placed a b → b = 0) (hzero : program.AllZero showWords) :
    program.WordsAreNumbers showWords := by
  intro addr w _ hw
  obtain ⟨b₀, b₁, b₂, b₃, h₀, h₁, h₂, h₃, rfl⟩ := Program.exists_of_wordAt hw
  rw [hzero _ _ h₀, hzero _ _ h₁, hzero _ _ h₂, hzero _ _ h₃]
  have hvalue : (lastAt (program.numbers showWords) (addr.toNat / 4)).getD 0 = 0 := by
    cases hlast : lastAt (program.numbers showWords) (addr.toNat / 4) with
    | none => rfl
    | some v =>
      obtain ⟨x, bs, -, -, rfl, hbs⟩ := hsrc hlast
      refine bytesValue_eq_zero fun c hc => ?_
      obtain ⟨k, -, hmem⟩ := exists_mem_placeBytes x hc
      exact hplaced _ _ (hbs _ hmem)
  rw [hvalue]
  rfl

/-- The high half of a word that is the number for its element is 0. -/
theorem high_of_wordsAreNumbers (hwords : program.WordsAreNumbers showWords) {addr : BitVec 64}
    {w : Word} (halign : addr.toNat % 4 = 0) (hw : program.wordAt showWords addr = some w) :
    w.extractLsb' 24 8 = 0 ∧ w.extractLsb' 16 8 = 0 := by
  rw [← hwords addr w halign hw]
  cases hlast : lastAt (program.numbers showWords) (addr.toNat / 4) with
  | none => exact ⟨rfl, rfl⟩
  | some v =>
    obtain ⟨x, bs, hlen, -, rfl, -⟩ := numberOf_placed hlast
    exact high_of_bytesValue hlen

/-- **Only zeros are the numbers for their elements**: the number for a word comes from bytes
    below the word, or is the high half of the first one. -/
theorem wordsAreNumbers_iff_allZero (hfill : program.FillsWords showWords)
    (hsrc : ∀ {e v : Nat}, lastAt (program.numbers showWords) e = some v →
      NumberOf (fun a b => program.byteAt showWords a = some b) e v) :
    program.WordsAreNumbers showWords ↔ program.AllZero showWords := by
  constructor
  · intro hwords addr b hb
    -- the bytes below `addr` are 0 by induction
    induction hn : addr.toNat using Nat.strongRecOn generalizing addr b with
    | ind n ih =>
      obtain ⟨base, b₀, b₁, b₂, b₃, hbase, h₀, h₁, h₂, h₃, hcases⟩ := hfill.exists_word hb
      have hw := hwords base _ (by omega) (Program.wordAt_eq h₀ h₁ h₂ h₃)
      obtain ⟨hb₀, hb₁, hb₂, hb₃⟩ := bytes_of_append hw
      have hvalue : (lastAt (program.numbers showWords) (base.toNat / 4)).getD 0 = 0 := by
        cases hlast : lastAt (program.numbers showWords) (base.toNat / 4) with
        | none => rfl
        | some v =>
          obtain ⟨x, bs, hlen, hx, rfl, hbs⟩ := hsrc hlast
          rw [hlast] at hb₀ hb₁
          obtain ⟨hhigh₀, hhigh₁⟩ := high_of_bytesValue hlen
          refine bytesValue_eq_zero fun c hc => ?_
          obtain ⟨k, hk, hmem⟩ := exists_mem_placeBytes x hc
          have hplaced : program.byteAt showWords (x + BitVec.ofNat 64 k) = some c := hbs _ hmem
          have hle := toNat_add_le x k
          by_cases hfirst : base.toNat = 0
          · -- the first number is part of the first word
            have hx0 : x = base := BitVec.eq_of_toNat_eq (by omega)
            rw [hx0] at hplaced
            have hk' : k = 0 ∨ k = 1 := by omega
            rcases hk' with rfl | rfl
            · rw [BitVec.add_zero, h₀] at hplaced
              rw [← Option.some.inj hplaced, hb₀]
              exact hhigh₀
            · rw [show BitVec.ofNat 64 1 = 1 from rfl, h₁] at hplaced
              rw [← Option.some.inj hplaced, hb₁]
              exact hhigh₁
          · exact ih _ (by omega) _ c hplaced rfl
      rw [hvalue] at hb₀ hb₁ hb₂ hb₃
      rcases hcases with rfl | rfl | rfl | rfl
      · exact hb₀
      · exact hb₁
      · exact hb₂
      · exact hb₃
  · intro hzero
    exact wordsAreNumbers_of_zeros hsrc hzero hzero

/-- **When the memory holds what the assembler wrote**: in either mode it does for the programs
    that are sound in it, and for no others unless numbers of overwritten bytes are left; with
    these, the high half of every word is 0 at least. -/
theorem loadsOutput_iff {s : Assembler} (h : assemble showWords program = .ok s)
    (hfill : program.FillsWords showWords) :
    (LoadSound showWords program → LoadsOutput showWords program s.out) ∧
      (¬PrintsOverwritten showWords program →
        (LoadsOutput showWords program s.out ↔ LoadSound showWords program)) ∧
      (LoadsOutput showWords program s.out → ∀ addr w, addr.toNat % 4 = 0 →
        program.wordAt showWords addr = some w →
          w.extractLsb' 24 8 = 0 ∧ w.extractLsb' 16 8 = 0) := by
  rw [loadsOutput_iff_numbers h hfill]
  have hiff (hmode : ¬PrintsOverwritten showWords program) :
      program.WordsAreNumbers showWords ↔ LoadSound showWords program := by
    rw [wordsAreNumbers_iff_allZero hfill fun hlast => numberOf_byteAt hfill hmode hlast]
    exact ⟨fun hzero => ⟨hzero, fun hp => absurd hp hmode⟩, fun hsound => hsound.1⟩
  refine ⟨fun hsound => ?_, hiff, fun hwords addr w => high_of_wordsAreNumbers hwords⟩
  by_cases hmode : PrintsOverwritten showWords program
  · exact wordsAreNumbers_of_zeros numberOf_placed (fun a b hab => hsound.2 hmode _ hab) hsound.1
  · exact (hiff hmode).mpr hsound

end Zero

/-- One word, `.db 305419896`. -/
def oneWord : Program :=
  [.directive (.dotDbDirective
    (.ofAtom (.numExpr (.decNum ⟨"305419896".toList, by decide⟩))) [])]

theorem oneWord_fillsWords (showWords : Bool) : oneWord.FillsWords showWords := by
  cases showWords <;> decide +kernel

/-- A word that is placed twice, `.db 0`, `.org 0`, `.db 0`. -/
def zeroTwice : Program :=
  let zero : Expr := .ofAtom (.numExpr (.decNum ⟨['0'], by decide⟩))
  [.directive (.dotDbDirective zero []), .directive (.dotOrgDirective zero),
    .directive (.dotDbDirective zero [])]

/-- The words of zeros are loaded right, and of `oneWord` this is decided by the condition. -/
theorem loadsOutput_iff_oneWord :
    (∃ s, assemble true zeroTwice = .ok s ∧ LoadsOutput true zeroTwice s.out) ∧
      ∃ s, assemble true oneWord = .ok s ∧
        (LoadsOutput true oneWord s.out ↔ LoadSound true oneWord) := by
  have hzeros : zeroTwice.PlacesZeros true := by decide +kernel
  obtain ⟨s, hs⟩ := exists_eq_ok (show (assemble true zeroTwice).isOk = true by decide +kernel)
  obtain ⟨s', hs'⟩ := exists_eq_ok (show (assemble true oneWord).isOk = true by decide +kernel)
  have honce : ¬PrintsOverwritten true oneWord := fun h => h.2 (by decide +kernel)
  exact ⟨⟨s, hs, (loadsOutput_iff hs (by decide +kernel)).1
      ⟨allZero_of_placesZeros hzeros, fun _ => hzeros⟩⟩,
    s', hs', (loadsOutput_iff hs' (oneWord_fillsWords true)).2.1 honce⟩

/-- The first element is less than a word, so it is not `0x12345678`. -/
theorem not_loadsOutput_oneWord (showWords : Bool) :
    ∃ s, assemble showWords oneWord = .ok s ∧ oneWord.FillsWords showWords ∧
      ¬LoadsOutput showWords oneWord s.out := by
  have hok : (assemble showWords oneWord).isOk = true := by cases showWords <;> decide +kernel
  obtain ⟨s, hs⟩ := exists_eq_ok hok
  have hfill := oneWord_fillsWords showWords
  refine ⟨s, hs, hfill, ?_⟩
  rw [loadsOutput_iff_numbers hs hfill]
  intro hwords
  have hword : oneWord.wordAt showWords 0 = some 0x12345678 := by
    cases showWords <;> decide +kernel
  have hnumber : (lastAt (oneWord.numbers showWords) 0).getD 0 < 2 ^ 16 := by
    cases showWords <;> decide +kernel
  have hvalue := congrArg BitVec.toNat (hwords 0 _ rfl hword)
  have hmod : (lastAt (oneWord.numbers showWords) 0).getD 0 % 2 ^ 32 = 0x12345678 := hvalue
  omega

/-- **In neither mode does the memory hold the word** after it has been loaded. -/
theorem oneWord_not_loaded :
    (∃ s, assemble true oneWord = .ok s ∧ oneWord.FillsWords true ∧
      ¬LoadsOutput true oneWord s.out) ∧
    ∃ s, assemble false oneWord = .ok s ∧ oneWord.FillsWords false ∧
      ¬LoadsOutput false oneWord s.out :=
  ⟨not_loadsOutput_oneWord true, not_loadsOutput_oneWord false⟩

end Frost32.Asm
