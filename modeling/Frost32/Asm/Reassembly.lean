import Frost32.Asm.ListingText

namespace Frost32.Asm

open Fallible Isa

/-!
# Listings reassembled

The listing of an assembled program as the source of the assembler again.

* `ReadsAs` — the text of a line of a listing is that of a line of a program, and what this line
  is assembled to.
* `ReadableWord` — a word that is shown as data, or as the instruction it was made from.
* `exists_program` — the program whose text a listing is, with the same data at the same
  addresses.
* `reassembly` — **the listing is the text of one program, which is assembled to the same
  output.**
-/

/-! ### Lines -/

/-- The text of the line is that of the source line, which has one parse tree and is assembled
    to the data or the move of the program counter. -/
structure ReadsAs (l : ListingLine) (line : Line) (data : List Datum)
    (jump : Option (BitVec 64)) : Prop where
  spells : ∀ {ts cs}, Spells ts cs → Spells (rowsToks line.rows ++ ts) (l.text.toList ++ cs)
  clear : ∀ e ∈ line.exprs, PrefixesLast e.tokens
  effect : ∃ it, line.items = [it] ∧ it.plain = true ∧ ∀ env, ∃ warnings,
    it.effect env = .ok { warnings := warnings, data := data, jump := jump }

/-- A directive with a constant. -/
theorem readsAs_directive {l : ListingLine} {d : Directive} (name : Tok) {w : Nat} (n : BitVec w)
    {data : List Datum} {jump : Option (BitVec 64)} (hname : name.Lexical)
    (htokens : d.tokens = name :: (hexExpr n).tokens) (hexprs : d.exprs = [hexExpr n])
    (htext : l.text.toList = name.text ++ ' ' :: ((hexNumText n).toList ++ ['\n']))
    {it : Item} (hitems : d.items = [it]) (hplain : it.plain = true)
    (heffect : ∀ env, it.effect env = .ok { data := data, jump := jump }) :
    ReadsAs l (.directive d) data jump := by
  constructor
  · intro ts cs h
    have hops : ∀ o ∈ [(hexExpr n).tokens], ReadsTight o := by
      intro o ho
      rw [List.mem_singleton.mp ho]
      exact readsTight_single (t := .hexNum (hexDigits n)) trivial fun _ hc => joins_hexNum _ hc
    have hrow := spells_row name hname hops (List.cons_ne_nil _ _) h
    have hrowText : rowText name [(hexExpr n).tokens] =
        name.text ++ ' ' :: (hexNumText n).toList := by
      rw [rowText, List.map_singleton, List.intercalate_singleton, flatMap_hexExpr]
    rw [List.intercalate_singleton, hrowText] at hrow
    have hrows : rowsToks (Line.rows (.directive d)) =
        name :: ((hexExpr n).tokens ++ [.newline]) := by
      rw [Line.rows, htokens]
      rfl
    rw [hrows, htext]
    simpa using hrow
  · intro e he
    rw [Line.exprs, hexprs] at he
    rw [List.mem_singleton.mp he]
    exact prefixesLast_hexExpr n
  · exact ⟨it, by rw [Line.items, hitems], hplain, fun env => ⟨[], heffect env⟩⟩

/-- A constant is not cut. -/
theorem setWidth_constant {w : Nat} (x : BitVec w) (h : w ≤ 64) :
    (x.setWidth 64).setWidth w = x :=
  (BitVec.setWidth_setWidth_of_le x h).trans (BitVec.setWidth_eq x)

theorem readsAs_org (addr : BitVec 32) :
    ReadsAs (.org addr) (.directive (.dotOrgDirective (hexExpr addr))) []
      (some (addr.setWidth 64)) := by
  refine readsAs_directive .dotOrg addr trivial rfl rfl ?_ rfl rfl fun env => ?_
  · show (".org " ++ hexNumText addr ++ "\n").toList = ".org".toList ++ _
    simp
  · rw [Item.effect, eval_hexExpr]
    rfl

theorem readsAs_db (data : BitVec 32) :
    ReadsAs (.db data) (.directive (.dotDbDirective (hexExpr data) [])) [.b32 data] none := by
  refine readsAs_directive .dotDb data trivial rfl rfl ?_ rfl rfl fun env => ?_
  · show (".db " ++ hexNumText data ++ "\n").toList = ".db".toList ++ _
    simp
  · rw [Item.effect, eval_hexExpr]
    exact congrArg (fun d => Except.ok ({ data := [.b32 d] } : Effect))
      (setWidth_constant data (by decide))

theorem readsAs_db16 (data : BitVec 16) :
    ReadsAs (.db16 data) (.directive (.dotDb16Directive (hexExpr data) [])) [.b16 data] none := by
  refine readsAs_directive .dotDb16 data trivial rfl rfl ?_ rfl rfl fun env => ?_
  · show (".db16 " ++ hexNumText data ++ "\n").toList = ".db16".toList ++ _
    simp
  · rw [Item.effect, eval_hexExpr]
    exact congrArg (fun d => Except.ok ({ data := [.b16 d] } : Effect))
      (setWidth_constant data (by decide))

theorem readsAs_db8 (data : BitVec 8) :
    ReadsAs (.db8 data) (.directive (.dotDb8Directive (hexExpr data) [])) [.b8 data] none := by
  refine readsAs_directive .dotDb8 data trivial rfl rfl ?_ rfl rfl fun env => ?_
  · show (".db8 " ++ hexNumText data ++ "\n").toList = ".db8".toList ++ _
    simp
  · rw [Item.effect, eval_hexExpr]
    exact congrArg (fun d => Except.ok ({ data := [.b8 d] } : Effect))
      (setWidth_constant data (by decide))

/-- **The text of a listable instruction is the text of the instruction.** -/
theorem readsAs_instruction {i : Instruction} (h : i.Listable) {shown : BitVec 32} {w : Word}
    {text : String} (htext : text.toList = rowText (.instrName i.name) (i.listed shown).operands)
    (hword : ∀ pc, i.word pc (shown.setWidth 64) = w) :
    ReadsAs (.instruction text) (.instruction (i.listed shown)) [.b32 w] none := by
  constructor
  · intro ts cs hrest
    have hspells := i.spells_listed h shown hrest
    have hrows : rowsToks (Line.rows (.instruction (i.listed shown))) =
        (i.listed shown).tokens ++ [.newline] := by
      rw [Line.rows]
      exact List.flatMap_singleton _ _
    have hline : (ListingLine.text (.instruction text)).toList = text.toList ++ ['\n'] :=
      String.toList_append
    rw [hrows, hline, htext]
    simpa using hspells
  · intro e he
    rw [Line.exprs, Instruction.listed, Instruction.exprs_mapExpr] at he
    obtain ⟨e', -, rfl⟩ := List.mem_map.mp he
    exact prefixesLast_hexExpr shown
  · refine ⟨.instruction (i.listed shown), by rw [Line.items], rfl, fun env => ?_⟩
    obtain ⟨warnings, heffect⟩ := i.effect_listed h shown env
    rw [hword] at heffect
    exact ⟨warnings, heffect⟩

/-! ### Words -/

/-- The word is shown as data, or as the instruction it was made from. -/
def ReadableWord (w : Word) : Prop :=
  visitWord w = .ok (.db w) ∨ ∃ i : Instruction, i.Listable ∧ ∃ pc n, w = i.word pc n

/-- The datum of a printed line. -/
def datumOf : List (BitVec 8) → Datum
  | [a] => .b8 a
  | [a, b] => .b16 (a ++ b)
  | [a, b, c, d] => .b32 (a ++ b ++ c ++ d)
  | _ => .b8 0

theorem bytes_datumOf {bytes : List (BitVec 8)} (h : IsDataLine bytes) :
    (datumOf bytes).bytes = bytes := by
  match bytes, h with
  | [a], _ => rfl
  | [a, b], _ =>
    have h₁ : (a ++ b).extractLsb' 8 8 = a := BitVec.extractLsb'_append_eq_left
    have h₂ : (a ++ b).extractLsb' 0 8 = b := BitVec.extractLsb'_append_eq_right
    show [_, _] = _
    rw [h₁, h₂]
  | [a, b, c, d], _ =>
    have h₁ : (a ++ b ++ c ++ d).extractLsb' 24 8 = a := by
      rw [BitVec.extractLsb'_append_eq_of_le (by decide),
        BitVec.extractLsb'_append_eq_of_le (by decide)]
      exact BitVec.extractLsb'_append_eq_left
    have h₂ : (a ++ b ++ c ++ d).extractLsb' 16 8 = b := by
      rw [BitVec.extractLsb'_append_eq_of_le (by decide),
        BitVec.extractLsb'_append_eq_of_le (by decide)]
      exact BitVec.extractLsb'_append_eq_right
    have h₃ : (a ++ b ++ c ++ d).extractLsb' 8 8 = c := by
      rw [BitVec.extractLsb'_append_eq_of_le (by decide)]
      exact BitVec.extractLsb'_append_eq_right
    have h₄ : (a ++ b ++ c ++ d).extractLsb' 0 8 = d := BitVec.extractLsb'_append_eq_right
    show [_, _, _, _] = _
    rw [h₁, h₂, h₃, h₄]

theorem ListingLine.StandsFor.isDataLine {l : ListingLine} {bytes : List (BitVec 8)}
    (h : l.StandsFor bytes) : IsDataLine bytes := by
  match bytes, h with
  | [a], _ => exact .inl rfl
  | [a, b], _ => exact .inr (.inl rfl)
  | [a, b, c, d], _ => exact .inr (.inr rfl)

theorem size_datumOf {l : ListingLine} {bytes : List (BitVec 8)} (h : l.StandsFor bytes) :
    l.size = dataSize [datumOf bytes] := by
  have hlength := (datumOf bytes).length_bytes
  rw [bytes_datumOf h.isDataLine, ← h.size] at hlength
  exact hlength

/-- A datum is told by its bytes. -/
theorem datumOf_bytes (d : Datum) : datumOf d.bytes = d := by
  cases d with
  | b8 d => rfl
  | b16 d =>
    have h : d.extractLsb' 8 8 ++ d.extractLsb' 0 8 = d.extractLsb' 0 16 :=
      BitVec.extractLsb'_append_extractLsb'_eq_extractLsb' rfl
    show Datum.b16 _ = _
    rw [h, BitVec.extractLsb'_eq_self]
  | b32 d => exact congrArg Datum.b32 (bytes_append d)

/-- **A line of the listing that stands for printed bytes reads as a line that is assembled to
    them.** -/
theorem exists_readsAs {l : ListingLine} {bytes : List (BitVec 8)} (h : l.StandsFor bytes)
    (hword : ∀ w, datumOf bytes = .b32 w → ReadableWord w) :
    ∃ line, ReadsAs l line [datumOf bytes] none := by
  match bytes, h with
  | [a], h =>
    obtain rfl : l = .db8 a := h
    exact ⟨_, readsAs_db8 a⟩
  | [a, b], h =>
    obtain rfl : l = .db16 (a ++ b) := h
    exact ⟨_, readsAs_db16 (a ++ b)⟩
  | [a, b, c, d], h =>
    obtain ⟨hvisit, -⟩ := h
    rcases hword _ rfl with hdata | ⟨i, hi, pc, n, hw⟩
    · rw [hvisit] at hdata
      cases hdata
      exact ⟨_, readsAs_db _⟩
    · obtain ⟨shown, text, hline, htext, hsame⟩ := i.visitWord_word hi pc n
      rw [← hw, hvisit] at hline
      cases hline
      exact ⟨_, readsAs_instruction hi htext fun pc' => (hsame pc').trans hw.symm⟩

/-! ### Runs -/

/-- What the items of a program do from any state at an address: no error, and these data. -/
def Generates (q : Program) (curr : BitVec 64) (ems : List (BitVec 64 × Datum)) : Prop :=
  ∀ s : Assembler, s.pc.curr = curr →
    (∃ t, runList stepItem q.items s = .ok t) ∧ runEmissions q.items s = ems

/-- One more line in front. -/
theorem Generates.cons {l : ListingLine} {line : Line} {data : List Datum}
    {jump : Option (BitVec 64)} (hline : ReadsAs l line data jump) {q : Program}
    {curr : BitVec 64} {ems : List (BitVec 64 × Datum)}
    (h : Generates q (jump.getD (curr + BitVec.ofNat 64 (dataSize data))) ems) :
    Generates (line :: q) curr (placeData curr data ++ ems) := by
  intro s hs
  obtain ⟨it, hitems, hplain, heffect⟩ := hline.effect
  obtain ⟨warnings, hef⟩ := heffect s.env
  have hstep : stepItem it s =
      .ok (s.perform { warnings := warnings, data := data, jump := jump }) := by
    rw [stepItem_of_plain hplain, hef]
    rfl
  have hall : Program.items (line :: q) = it :: Program.items q := by
    rw [Program.items, linesItems, hitems]
    rfl
  obtain ⟨⟨t, ht⟩, hems⟩ := h (s.perform { warnings := warnings, data := data, jump := jump }) (by
    rw [Assembler.pc_perform, hs])
  rw [hall]
  constructor
  · refine ⟨t, ?_⟩
    rw [runList_cons, hstep]
    exact ht
  · show itemEmissions it s ++ _ = _
    rw [hstep, itemEmissions, hef, hs]
    exact congrArg (placeData curr data ++ ·) hems

/-- The text of a listing. -/
def listingText (listing : List ListingLine) : List Char := listing.flatMap fun l => l.text.toList

/-- **The program whose text a listing is**: it has one parse tree, and it is assembled to the
    data that the listing stands for, at their addresses. -/
theorem exists_program {curr : BitVec 64} {listing : List ListingLine}
    {ls : List (BitVec 64 × List (BitVec 8))} (hplaces : SamePlaces (placeListing curr listing) ls)
    (hwords : ∀ l ∈ ls, ∀ w, datumOf l.2 = .b32 w → ReadableWord w) :
    ∃ q : Program, Spells q.tokens (listingText listing) ∧
      (∀ e ∈ q.exprs, PrefixesLast e.tokens) ∧
      Generates q curr (ls.map fun l => (l.1, datumOf l.2)) := by
  have hcons : ∀ {l line data jump} {q : Program} {rest : List ListingLine},
      ReadsAs l line data jump → Spells q.tokens (listingText rest) →
      (∀ e ∈ q.exprs, PrefixesLast e.tokens) →
      Spells (Program.tokens (line :: q)) (listingText (l :: rest)) ∧
        ∀ e ∈ Program.exprs (line :: q), PrefixesLast e.tokens := by
    intro l line data jump q rest hline hspells hclear
    constructor
    · have htokens : Program.tokens (line :: q) = rowsToks line.rows ++ q.tokens := by
        rw [Program.tokens, linesRows, rowsToks, List.flatMap_append]
        rfl
      rw [htokens, listingText, List.flatMap_cons]
      exact hline.spells hspells
    · intro e he
      rw [Program.exprs, linesExprs] at he
      rcases List.mem_append.mp he with he | he
      · exact hline.clear e he
      · exact hclear e he
  induction listing generalizing curr ls with
  | nil =>
    cases hplaces
    refine ⟨[], .nil, fun e he => ?_, fun s _ => ⟨⟨s, rfl⟩, rfl⟩⟩
    rw [Program.exprs, linesExprs] at he
    cases he
  | cons l rest ih =>
    -- a line other than `.org` stands for the first of the printed lines
    have hdata : (∀ rest, placeListing curr (l :: rest) =
        (curr, l) :: placeListing (curr + BitVec.ofNat 64 l.size) rest) →
        ∃ q : Program, Spells q.tokens (listingText (l :: rest)) ∧
          (∀ e ∈ q.exprs, PrefixesLast e.tokens) ∧
          Generates q curr (ls.map fun l => (l.1, datumOf l.2)) := by
      intro hplace
      rw [hplace] at hplaces
      cases hplaces with
      | @cons _ line _ ls hfirst hrest =>
        obtain ⟨addr, bytes⟩ := line
        obtain ⟨haddr, hstands⟩ := hfirst
        obtain rfl : curr = addr := haddr
        obtain ⟨q, hspells, hclear, hgen⟩ := ih hrest fun l hl =>
          hwords l (List.mem_cons_of_mem _ hl)
        obtain ⟨line, hline⟩ := exists_readsAs hstands (hwords _ List.mem_cons_self)
        obtain ⟨hspells', hclear'⟩ := hcons hline hspells hclear
        refine ⟨line :: q, hspells', hclear', ?_⟩
        have hsize : dataSize [datumOf bytes] = l.size := (size_datumOf hstands).symm
        rw [← hsize] at hgen
        exact Generates.cons hline hgen
    cases l with
    | org addr =>
      obtain ⟨q, hspells, hclear, hgen⟩ := ih hplaces hwords
      have hline := readsAs_org addr
      obtain ⟨hspells', hclear'⟩ := hcons hline hspells hclear
      exact ⟨_, hspells', hclear', Generates.cons hline hgen⟩
    | db data => exact hdata fun _ => rfl
    | db16 data => exact hdata fun _ => rfl
    | db8 data => exact hdata fun _ => rfl
    | instruction text => exact hdata fun _ => rfl

/-! ### The output again -/

/-- The data of printed lines print these lines, in the same mode. -/
theorem outputLines_datumOf {showWords : Bool} {ems : List (BitVec 64 × Datum)}
    {ls : List (BitVec 64 × List (BitVec 8))} (h : ∀ l ∈ ls, l ∈ outputLines showWords ems) :
    outputLines showWords (ls.map fun l => (l.1, datumOf l.2)) = ls := by
  have hlines : ∀ l ∈ ls, (datumOf l.2).lines showWords = [l.2] := by
    intro l hl
    have hbytes := bytes_datumOf (length_line (h l hl))
    cases showWords with
    | true => exact congrArg (fun bytes => [bytes]) hbytes
    | false =>
      -- every line holds one byte
      obtain ⟨em, -, hplaced⟩ := List.mem_flatMap.mp (h l hl)
      obtain ⟨b, -, hb⟩ := List.mem_map.mp (mem_placeLines hplaced)
      show (datumOf l.2).bytes.map _ = _
      rw [hbytes, ← hb]
      rfl
  clear h
  induction ls with
  | nil => rfl
  | cons l ls ih =>
    have hrest := ih fun l' hl' => hlines l' (List.mem_cons_of_mem _ hl')
    rw [List.map_cons, outputLines, List.flatMap_cons]
    show placeLines l.1 ((datumOf l.2).lines showWords) ++ outputLines showWords _ = _
    rw [hlines l List.mem_cons_self, hrest]
    rfl

/-- Only in the mode of words are words printed. -/
theorem readable_of_outputLines {showWords : Bool} {ems : List (BitVec 64 × Datum)}
    (h : showWords = true → ∀ em ∈ ems, ∀ w, em.2 = .b32 w → ReadableWord w) :
    ∀ l ∈ outputLines showWords ems, ∀ w, datumOf l.2 = .b32 w → ReadableWord w := by
  intro l hl w hw
  obtain ⟨em, hem, hplaced⟩ := List.mem_flatMap.mp hl
  have hline := mem_placeLines hplaced
  cases showWords with
  | true =>
    have hbytes : l.2 = em.2.bytes := List.mem_singleton.mp hline
    rw [hbytes, datumOf_bytes] at hw
    exact h rfl em hem w hw
  | false =>
    obtain ⟨b, -, hb⟩ := List.mem_map.mp hline
    rw [← hb] at hw
    cases hw

/-- A program that generates data from address 0 on is assembled to them. -/
theorem Generates.assembles {q : Program} {ems : List (BitVec 64 × Datum)} (h : Generates q 0 ems)
    (showWords : Bool) :
    ∃ s, assemble showWords q = .ok s ∧ s.out = renderFrom 0 (outputLines showWords ems) := by
  have hpc : ∀ {p s}, passStart showWords q p = .ok s → s.pc.curr = 0 := fun hs =>
    congrArg PrevCurrPair.curr (pc_passStart hs)
  obtain ⟨⟨t, ht⟩, -⟩ := h _ (hpc (show passStart showWords q 0 = .ok _ from rfl))
  have hstart : passStart showWords q 1 = .ok (t.beginPass 1) := by
    show (runList stepItem q.items _ >>= fun t => pure _) = _
    rw [ht]
    rfl
  obtain ⟨⟨u, hu⟩, hems⟩ := h _ (hpc hstart)
  have hassemble : assemble showWords q = .ok u := by
    rw [assemble_eq, afterItems, hstart]
    exact hu
  refine ⟨u, hassemble, ?_⟩
  rw [out_eq_render hassemble, emissions, hstart]
  exact congrArg (fun ems => renderFrom 0 (outputLines showWords ems)) hems

/-- The listing keeps the addresses, and words, in the mode that prints them, can be read
    back. -/
structure Relistable (showWords : Bool) (program : Program) : Prop where
  addr : DataListed 0 (emissions showWords program)
  words : showWords = true →
    ∀ em ∈ emissions showWords program, ∀ w, em.2 = .b32 w → ReadableWord w

/-- **The listing of an assembled program is the text of one program, which is assembled to the
    same output.** -/
theorem reassembly {showWords : Bool} {program : Program} {s : Assembler}
    (h : assemble showWords program = .ok s) (hlist : Relistable showWords program) :
    ∃ listing q s', disassemble s.out = .ok listing ∧
      (∀ p : Program, p.tokens = lex (listingText listing) ↔ p = q) ∧
      assemble showWords q = .ok s' ∧ s'.out = s.out := by
  obtain ⟨listing, hlisting, hplaces⟩ := disassemble_renderFrom 0
    (outputLines showWords (emissions showWords program)) fun _ hl => length_line hl
  obtain ⟨q, hspells, hclear, hgen⟩ := exists_program
    (hplaces.mpr ((linesListed_outputLines showWords 0 _).mpr hlist.addr))
    (readable_of_outputLines hlist.words)
  obtain ⟨s', hs', hout⟩ := hgen.assembles showWords
  refine ⟨listing, q, s', ?_, fun p => ?_, hs', ?_⟩
  · rw [out_eq_render h]
    exact hlisting
  · rw [lex_of_spells hspells]
    exact ⟨fun htokens => Program.eq_of_tokens_eq hclear htokens, fun hp => congrArg _ hp⟩
  · rw [hout, outputLines_datumOf fun _ hl => hl, out_eq_render h]

/-- A load with a negative offset, and a word that is no instruction. -/
def loadAndData : Program :=
  [.directive (.dotOrgDirective (.ofAtom (.numExpr (.hexNum ⟨['4', '0'], by decide⟩)))),
    .instruction (.instrOpGrp5TwoRegsOneSimm12Ldst ⟨.ldri, by decide⟩ .u0 .sp
      (.ofAtom (.numExpr (.hexNum ⟨"ffffffffffffffff".toList, by decide⟩)))),
    .directive (.dotDbDirective (.ofAtom (.numExpr (.hexNum ⟨"f0000000".toList, by decide⟩))) [])]

theorem relistable_loadAndData : Relistable true loadAndData := by
  have hems : emissions true loadAndData =
      [(0x40, .b32 0x51f0fff8), (0x44, .b32 0xf0000000)] := by decide +kernel
  have hload : ReadableWord 0x51f0fff8 :=
    .inr ⟨.instrOpGrp5TwoRegsOneSimm12Ldst ⟨.ldri, by decide⟩ .u0 .sp (hexExpr 0#32), trivial, 0,
      -1, by decide +kernel⟩
  have hdata : ReadableWord 0xf0000000 := .inl (by decide +kernel)
  constructor
  · rw [hems]
    decide +kernel
  · intro _
    rw [hems]
    intro em hem w hw
    rcases List.mem_cons.mp hem with hem | hem
    · rw [hem] at hw
      rw [← Datum.b32.inj hw]
      exact hload
    · rw [List.mem_singleton.mp hem] at hw
      rw [← Datum.b32.inj hw]
      exact hdata

theorem reassembly_loadAndData :
    ∃ s listing q s', assemble true loadAndData = .ok s ∧ disassemble s.out = .ok listing ∧
      (∀ p : Program, p.tokens = lex (listingText listing) ↔ p = q) ∧
      assemble true q = .ok s' ∧ s'.out = s.out := by
  obtain ⟨s, hs⟩ := exists_eq_ok (show (assemble true loadAndData).isOk = true by decide +kernel)
  obtain ⟨listing, q, s', h⟩ := reassembly hs relistable_loadAndData
  exact ⟨s, listing, q, s', hs, h⟩

end Frost32.Asm
