import Frost32.Asm.Scoping
import Frost32.Lib.HexImage

namespace Frost32.Asm

open Fallible HexImage

/-!
# The emitted image

What pass 1 generates, as data with addresses, and what it prints for this.

* `emissions` — the data of the program at the addresses they are generated for.
* `outputLines`, `renderFrom` — the lines of bytes, and their text with address lines where
  a line does not follow the one before it.
* `out_eq_render` — **the assembler prints exactly this text**.
* `image_renderFrom` — reading it gives back the bytes at their addresses.
* `assemble_outputAs` — the output mode changes nothing but the text.
* `image_of_output` — **the printed image is that of the source, in both modes**.
-/

/-! ### What is generated -/

/-- Data one after the other from an address on. -/
def placeData (addr : BitVec 64) : List Datum → List (BitVec 64 × Datum)
  | [] => []
  | d :: ds => (addr, d) :: placeData (addr + BitVec.ofNat 64 d.size) ds

/-- The data an item generates, from the program counter on. -/
def itemEmissions (it : Item) (s : Assembler) : List (BitVec 64 × Datum) :=
  match it.effect s.env with
  | .ok ef => placeData s.pc.curr ef.data
  | .error _ => []

def runEmissions : List Item → Assembler → List (BitVec 64 × Datum)
  | [], _ => []
  | it :: items, s =>
    itemEmissions it s ++
      match stepItem it s with
      | .ok t => runEmissions items t
      | .error _ => []

/-- The data of the program with the addresses pass 1 generates them for. -/
def emissions (showWords : Bool) (program : Program) : List (BitVec 64 × Datum) :=
  match passStart showWords program 1 with
  | .ok s => runEmissions program.items s
  | .error _ => []

/-- The bytes of data, each datum with its most significant byte first. -/
def bytesOf (ems : List (BitVec 64 × Datum)) : List (BitVec 64 × BitVec 8) :=
  ems.flatMap fun em => placeBytes em.1 em.2.bytes

theorem runEmissions_concat {pre : List Item} {it : Item} {s u : Assembler}
    (hu : runList stepItem pre s = .ok u) :
    runEmissions (pre ++ [it]) s = runEmissions pre s ++ itemEmissions it u := by
  induction pre generalizing s with
  | nil =>
    cases hu
    show itemEmissions it u ++ _ = [] ++ itemEmissions it u
    cases stepItem it u <;> simp [runEmissions]
  | cons x pre ih =>
    rw [runList_cons] at hu
    obtain ⟨t, ht, hu⟩ := bind_eq_ok.mp hu
    show itemEmissions x s ++ _ = (itemEmissions x s ++ _) ++ _
    rw [ht, List.append_assoc]
    exact congrArg (itemEmissions x s ++ ·) (ih hu)

/-! ### What is printed -/

/-- Lines of bytes one after the other from an address on. -/
def placeLines (addr : BitVec 64) : List (List (BitVec 8)) → List (BitVec 64 × List (BitVec 8))
  | [] => []
  | l :: ls => (addr, l) :: placeLines (addr + BitVec.ofNat 64 l.length) ls

/-- The lines of the output: a datum is one line, or one line for each of its bytes. -/
def outputLines (showWords : Bool) (ems : List (BitVec 64 × Datum)) :
    List (BitVec 64 × List (BitVec 8)) :=
  ems.flatMap fun em => placeLines em.1 (em.2.lines showWords)

/-- An address line where the address is not the expected one, and the bytes. -/
def lineWithAddr (prev addr : BitVec 64) (bytes : List (BitVec 8)) : List Char :=
  (if prev ≠ addr then '@' :: hexText addr ++ ['\n'] else []) ++ lineText bytes ++ ['\n']

/-- The text of lines, where `prev` is the address after the last line. -/
def renderFrom (prev : BitVec 64) : List (BitVec 64 × List (BitVec 8)) → List Char
  | [] => []
  | (addr, bytes) :: ls =>
    lineWithAddr prev addr bytes ++ renderFrom (addr + BitVec.ofNat 64 bytes.length) ls

/-- The address after the last of the lines. -/
def endOf (prev : BitVec 64) : List (BitVec 64 × List (BitVec 8)) → BitVec 64
  | [] => prev
  | (addr, bytes) :: ls => endOf (addr + BitVec.ofNat 64 bytes.length) ls

theorem renderFrom_append (prev : BitVec 64) (ls ls' : List (BitVec 64 × List (BitVec 8))) :
    renderFrom prev (ls ++ ls') = renderFrom prev ls ++ renderFrom (endOf prev ls) ls' := by
  induction ls generalizing prev with
  | nil => rfl
  | cons l ls ih =>
    obtain ⟨addr, bytes⟩ := l
    rw [List.cons_append, renderFrom, ih, renderFrom, endOf, List.append_assoc]

theorem endOf_append (prev : BitVec 64) (ls ls' : List (BitVec 64 × List (BitVec 8))) :
    endOf prev (ls ++ ls') = endOf (endOf prev ls) ls' := by
  induction ls generalizing prev with
  | nil => rfl
  | cons l ls ih =>
    obtain ⟨addr, bytes⟩ := l
    rw [List.cons_append, endOf, ih, endOf]

theorem outputLines_append (showWords : Bool) (ems ems' : List (BitVec 64 × Datum)) :
    outputLines showWords (ems ++ ems') = outputLines showWords ems ++ outputLines showWords ems' :=
  List.flatMap_append

theorem mem_placeLines {addr : BitVec 64} {lines : List (List (BitVec 8))}
    {l : BitVec 64 × List (BitVec 8)} (h : l ∈ placeLines addr lines) : l.2 ∈ lines := by
  induction lines generalizing addr with
  | nil => cases h
  | cons x lines ih =>
    rcases List.mem_cons.mp h with rfl | h
    · exact List.mem_cons_self
    · exact List.mem_cons_of_mem _ (ih h)

/-- A line holds a byte, a half word or a word. -/
theorem length_line {showWords : Bool} {ems : List (BitVec 64 × Datum)}
    {l : BitVec 64 × List (BitVec 8)} (h : l ∈ outputLines showWords ems) :
    l.2.length = 1 ∨ l.2.length = 2 ∨ l.2.length = 4 := by
  obtain ⟨em, -, hl⟩ := List.mem_flatMap.mp h
  have hline := mem_placeLines hl
  unfold Datum.lines at hline
  cases showWords with
  | true =>
    rw [if_pos rfl, List.mem_singleton] at hline
    rw [hline]
    cases em.2 <;> simp [Datum.bytes]
  | false =>
    rw [if_neg Bool.false_ne_true] at hline
    obtain ⟨b, -, hb⟩ := List.mem_map.mp hline
    rw [← hb]
    exact .inl rfl

/-- The state has printed the lines: its output and the program counter it last backed up. -/
structure Printed (ls : List (BitVec 64 × List (BitVec 8))) (s : Assembler) : Prop where
  out : s.out = renderFrom 0 ls
  prev : s.pc.prev = endOf 0 ls

/-- **Printing a line of bytes.** -/
theorem Printed.emitLine {ls : List (BitVec 64 × List (BitVec 8))} {s : Assembler}
    (h : Printed ls s) (hpass : s.pass ≠ 0) (bytes : List (BitVec 8)) :
    Printed (ls ++ [(s.pc.curr, bytes)]) (s.emitLine bytes) := by
  constructor
  · show s.out ++ (if s.pass ≠ 0 then _ else _) = _
    rw [if_pos hpass, h.out, renderFrom_append, renderFrom, renderFrom, List.append_nil, ← h.prev]
    unfold lineWithAddr Assembler.addrLineText PrevCurrPair.hasChanged
    by_cases hsame : s.pc.prev = s.pc.curr
    · simp [hsame]
    · simp [hsame]
  · rw [endOf_append]
    rfl

/-- Printing lines of bytes one after the other. -/
theorem Printed.emitLines {ls : List (BitVec 64 × List (BitVec 8))} {s : Assembler}
    (h : Printed ls s) (hpass : s.pass ≠ 0) (lines : List (List (BitVec 8))) :
    Printed (ls ++ placeLines s.pc.curr lines)
      (lines.foldl (fun s bytes => s.emitLine bytes) s) := by
  induction lines generalizing ls s with
  | nil =>
    rw [placeLines, List.append_nil]
    exact h
  | cons l lines ih =>
    have hrest := ih (h.emitLine hpass l) hpass
    rw [List.append_assoc] at hrest
    exact hrest

theorem Printed.genAll {ls : List (BitVec 64 × List (BitVec 8))} {s : Assembler}
    (h : Printed ls s) (hpass : s.pass ≠ 0) (ds : List Datum) :
    Printed (ls ++ outputLines s.showWords (placeData s.pc.curr ds)) (s.genAll ds) := by
  induction ds generalizing ls s with
  | nil =>
    rw [placeData, outputLines, List.flatMap_nil, List.append_nil]
    exact h
  | cons d ds ih =>
    obtain ⟨cs, hgen⟩ := gen_eq s d
    have hrest := ih (h.emitLines hpass (d.lines s.showWords)) (s := s.gen d)
      (by rw [hgen]; exact hpass)
    rw [hgen] at hrest
    rw [placeData, outputLines, List.flatMap_cons, ← List.append_assoc]
    show Printed _ ((s.gen d).genAll ds)
    rw [hgen]
    exact hrest

/-- **An effect prints the lines of its data.** -/
theorem Printed.perform {ls : List (BitVec 64 × List (BitVec 8))} {s : Assembler}
    (h : Printed ls s) (hpass : s.pass ≠ 0) (ef : Effect) :
    Printed (ls ++ outputLines s.showWords (placeData s.pc.curr ef.data)) (s.perform ef) := by
  have hwarn : Printed ls (s.warnAll ef.warnings) := ⟨h.out, h.prev⟩
  have hdata := hwarn.genAll hpass ef.data
  unfold Assembler.perform
  cases ef.jump with
  | none => exact hdata
  | some n => exact ⟨hdata.out, hdata.prev⟩

/-- In pass 0 nothing is printed. -/
theorem Assembler.out_perform_of_pass_zero {s : Assembler} (hpass : s.pass = 0) (ef : Effect) :
    (s.perform ef).out = s.out := by
  have hlines : ∀ (lines : List (List (BitVec 8))) (s : Assembler), s.pass = 0 →
      (lines.foldl (fun s bytes => s.emitLine bytes) s).out = s.out := by
    intro lines
    induction lines with
    | nil => exact fun _ _ => rfl
    | cons l lines ih =>
      intro s hpass
      have hline : (s.emitLine l).out = s.out := by
        show s.out ++ (if s.pass ≠ 0 then _ else _) = _
        rw [if_neg (not_not_intro hpass), List.append_nil]
      exact (ih (s.emitLine l) hpass).trans hline
  have hdata : ∀ (ds : List Datum) (s : Assembler), s.pass = 0 → (s.genAll ds).out = s.out := by
    intro ds
    induction ds with
    | nil => exact fun _ _ => rfl
    | cons d ds ih =>
      intro s hpass
      obtain ⟨cs, hgen⟩ := gen_eq s d
      show ((s.gen d).genAll ds).out = s.out
      rw [ih (s.gen d) (by rw [hgen]; exact hpass)]
      exact hlines (d.lines s.showWords) s hpass
  have hall := hdata ef.data (s.warnAll ef.warnings) hpass
  unfold Assembler.perform
  cases ef.jump <;> exact hall

theorem out_passStart {showWords : Bool} {program : Program} {s : Assembler}
    (h : passStart showWords program 1 = .ok s) : s.out = [] := by
  obtain ⟨u, hu, h⟩ := bind_eq_ok.mp h
  obtain ⟨v, hv, h⟩ := bind_eq_ok.mp h
  cases h
  cases hu
  have hinv : v.pass = 0 ∧ v.out = [] := by
    refine invariant (P := fun _ (u : Assembler) => u.pass = 0 ∧ u.out = []) ⟨rfl, rfl⟩ ?_
      (List.append_nil program.items).symm hv
    intro pre it post u v _ hu hstep
    refine ⟨(modes_of_stepItem hstep).1.trans hu.1, ?_⟩
    cases hplain : it.plain with
    | false => exact (stepItem_not_plain hplain hstep).2.2.2.trans hu.2
    | true =>
      obtain ⟨ef, -, rfl⟩ := stepItem_plain hplain hstep
      rw [Assembler.out_perform_of_pass_zero hu.1, hu.2]
  exact hinv.2

theorem Printed.stepItem {ls : List (BitVec 64 × List (BitVec 8))} {s t : Assembler}
    (h : Printed ls s) (hpass : s.pass ≠ 0) {it : Item} (hstep : stepItem it s = .ok t) :
    Printed (ls ++ outputLines s.showWords (itemEmissions it s)) t := by
  cases hplain : it.plain with
  | false =>
    have hnone : itemEmissions it s = [] := by
      cases it with
      | enter | leave | label n => rfl
      | _ => cases hplain
    obtain ⟨hpc, -, -, hout⟩ := stepItem_not_plain hplain hstep
    rw [hnone, outputLines, List.flatMap_nil, List.append_nil]
    exact ⟨hout.trans h.out, by rw [hpc, h.prev]⟩
  | true =>
    obtain ⟨ef, hef, rfl⟩ := stepItem_plain hplain hstep
    have hems : itemEmissions it s = placeData s.pc.curr ef.data := by
      rw [itemEmissions, hef]
    rw [hems]
    exact h.perform hpass ef

/-- **The assembler prints the lines of its emissions.** -/
theorem out_eq_render {showWords : Bool} {program : Program} {s : Assembler}
    (h : assemble showWords program = .ok s) :
    s.out = renderFrom 0 (outputLines showWords (emissions showWords program)) := by
  rw [assemble_eq] at h
  obtain ⟨s₀, hs₀, h⟩ := bind_eq_ok.mp h
  have hems : emissions showWords program = runEmissions program.items s₀ := by
    rw [emissions, hs₀]
  rw [hems]
  obtain ⟨hpass, hwords⟩ := modes_passStart hs₀
  have hinv : Printed (outputLines showWords (runEmissions program.items s₀)) s ∧
      s.pass = 1 ∧ s.showWords = showWords ∧ runList stepItem program.items s₀ = .ok s := by
    refine invariant (P := fun pre (u : Assembler) =>
        Printed (outputLines showWords (runEmissions pre s₀)) u ∧ u.pass = 1 ∧
          u.showWords = showWords ∧ runList Asm.stepItem pre s₀ = .ok u)
      ⟨?_, hpass, hwords, rfl⟩ ?_ (List.append_nil program.items).symm h
    · exact ⟨out_passStart hs₀, by rw [pc_passStart hs₀]; rfl⟩
    · intro pre it post u v _ hu hstep
      obtain ⟨hprinted, hpass, hwords, hrun⟩ := hu
      obtain ⟨hpass', hwords'⟩ := modes_of_stepItem hstep
      refine ⟨?_, hpass'.trans hpass, hwords'.trans hwords, runList_concat_eq_ok hrun hstep⟩
      rw [runEmissions_concat hrun, outputLines_append, ← hwords]
      rw [← hwords] at hprinted
      exact hprinted.stepItem (by rw [hpass]; exact Nat.one_ne_zero) hstep
  exact hinv.1.out

/-! ### Reading the text -/

theorem readAll_lineText (p : BitVec 64) (im : List (BitVec 64 × BitVec 8))
    (bytes : List (BitVec 8)) :
    Reader.readAll ⟨p, .between, im⟩ (lineText bytes) =
      ⟨p + BitVec.ofNat 64 bytes.length, .between, im ++ placeBytes p bytes⟩ := by
  unfold lineText
  split
  · next a b c d =>
    -- the space between the two half words is skipped
    have hfirst := Reader.readAll_bytes p im [a, b]
    have hlast := Reader.readAll_bytes (p + 2) (im ++ placeBytes p [a, b]) [c, d]
    have hspace := Reader.readAll_separator (p + 2) (im ++ placeBytes p [a, b])
      (show digitValue ' ' = none by decide) (by decide)
    have hsplit : byteText a ++ byteText b ++ ' ' :: (byteText c ++ byteText d) =
        [a, b].flatMap byteText ++ ([' '] ++ [c, d].flatMap byteText) := by simp
    have hplace := placeBytes_append p [a, b] [c, d]
    rw [hsplit, Reader.readAll_append, Reader.readAll_append]
    show Reader.readAll (Reader.readAll (Reader.readAll _ (List.flatMap (fun b =>
      [Nat.digitChar (b.toNat / 16), Nat.digitChar (b.toNat % 16)]) [a, b])) [' ']) _ = _
    rw [hfirst]
    show Reader.readAll (Reader.readAll ⟨p + 2, .between, im ++ placeBytes p [a, b]⟩ [' ']) _ = _
    rw [hspace]
    show Reader.readAll _ (List.flatMap (fun b =>
      [Nat.digitChar (b.toNat / 16), Nat.digitChar (b.toNat % 16)]) [c, d]) = _
    rw [hlast, List.append_assoc, BitVec.add_assoc]
    exact congrArg (Reader.mk _ _) (congrArg (im ++ ·) hplace.symm)
  · exact Reader.readAll_bytes p im bytes

/-- **Reading lines gives back their bytes** and leaves the pointer after the last line. -/
theorem readAll_renderFrom (p : BitVec 64) (im : List (BitVec 64 × BitVec 8))
    (ls : List (BitVec 64 × List (BitVec 8))) :
    Reader.readAll ⟨p, .between, im⟩ (renderFrom p ls) =
      ⟨endOf p ls, .between, im ++ ls.flatMap fun l => placeBytes l.1 l.2⟩ := by
  induction ls generalizing p im with
  | nil =>
    rw [List.flatMap_nil, List.append_nil]
    rfl
  | cons l ls ih =>
    obtain ⟨addr, bytes⟩ := l
    have haddr : Reader.readAll ⟨p, .between, im⟩
        (if p ≠ addr then '@' :: hexText addr ++ ['\n'] else []) = ⟨addr, .between, im⟩ := by
      by_cases hsame : p = addr
      · rw [if_neg (not_not_intro hsame), hsame]
        rfl
      · rw [if_pos hsame]
        refine (Reader.readAll_address p im addr.toNat).trans ?_
        rw [BitVec.ofNat_toNat, BitVec.setWidth_eq]
    have hend := Reader.readAll_separator (addr + BitVec.ofNat 64 bytes.length)
      (im ++ placeBytes addr bytes) (show digitValue '\n' = none by decide) (by decide)
    rw [renderFrom, lineWithAddr, Reader.readAll_append, Reader.readAll_append,
      Reader.readAll_append, haddr, readAll_lineText, hend, ih, List.flatMap_cons,
      List.append_assoc]
    rfl

theorem flatMap_placeLines (addr : BitVec 64) (lines : List (List (BitVec 8))) :
    (placeLines addr lines).flatMap (fun l => placeBytes l.1 l.2) =
      placeBytes addr lines.flatten := by
  induction lines generalizing addr with
  | nil => rfl
  | cons l lines ih =>
    rw [placeLines, List.flatMap_cons, ih, List.flatten_cons, placeBytes_append]

/-- The lines of data hold its bytes, in either mode. -/
theorem flatMap_outputLines (showWords : Bool) (ems : List (BitVec 64 × Datum)) :
    (outputLines showWords ems).flatMap (fun l => placeBytes l.1 l.2) = bytesOf ems := by
  unfold outputLines bytesOf
  rw [List.flatMap_assoc]
  congr 1
  funext em
  rw [flatMap_placeLines, Datum.flatten_lines]

theorem image_renderFrom (showWords : Bool) (ems : List (BitVec 64 × Datum)) :
    image 64 (renderFrom 0 (outputLines showWords ems)) = bytesOf ems := by
  unfold image
  rw [readAll_renderFrom, List.nil_append, flatMap_outputLines]

/-! ### The two output modes -/

/-- The same state with another output mode and another text. -/
def Assembler.outputAs (showWords : Bool) (out : List Char) (s : Assembler) : Assembler :=
  { s with showWords := showWords, out := out }

/-- Data move the program counter in the same way in either mode. -/
theorem Assembler.genAll_outputAs (b : Bool) (ds : List Datum) (s : Assembler) (out : List Char) :
    ∃ out', (s.outputAs b out).genAll ds = (s.genAll ds).outputAs b out' := by
  induction ds generalizing s out with
  | nil => exact ⟨out, rfl⟩
  | cons d ds ih =>
    obtain ⟨cs, hgen⟩ := gen_eq s d
    obtain ⟨cs', hgen'⟩ := gen_eq (s.outputAs b out) d
    have hsame : (s.outputAs b out).gen d = (s.gen d).outputAs b (out ++ cs') := by
      rw [hgen, hgen']
      rfl
    obtain ⟨out', hrest⟩ := ih (s.gen d) (out ++ cs')
    refine ⟨out', ?_⟩
    show ((s.outputAs b out).gen d).genAll ds = _
    rw [hsame]
    exact hrest

theorem Assembler.perform_outputAs (b : Bool) (ef : Effect) (s : Assembler) (out : List Char) :
    ∃ out', (s.outputAs b out).perform ef = (s.perform ef).outputAs b out' := by
  obtain ⟨out', h⟩ := genAll_outputAs b ef.data (s.warnAll ef.warnings) out
  refine ⟨out', ?_⟩
  have hwarn : (s.outputAs b out).warnAll ef.warnings = (s.warnAll ef.warnings).outputAs b out :=
    rfl
  unfold Assembler.perform
  rw [hwarn, h]
  cases ef.jump <;> rfl

/-- Scopes and labels do not look at the output. -/
theorem stepItem_outputAs_not_plain {it : Item} (h : it.plain = false) (b : Bool)
    (out : List Char) (s : Assembler) :
    stepItem it (s.outputAs b out) = (stepItem it s).map fun t => t.outputAs b out := by
  unfold stepItem Assembler.outputAs
  cases it with
  | enter =>
    unfold visitItem enterScope getTopScopeChildNum
    simp only [StateT.run_bind, StateT.run_get, except_pure, ok_bind]
    by_cases hpass : s.pass = 0
    · simp only [hpass, if_true]
      rfl
    · simp only [hpass, if_false]
      -- in pass 1 the scope is looked up in the tree of pass 0
      cases hstack : s.scopeChildNumStack with
      | nil => simp [hstack]; rfl
      | cons i cs =>
        cases hchild : (s.symTbl.node s.currScopeNode).children[i]? with
        | none => simp [hstack, hchild, orThrow]; rfl
        | some v => simp [hstack, hchild, orThrow, pushScopeChildNum]; rfl
  | leave =>
    unfold visitItem leaveScope popScopeChildNum
    simp only [StateT.run_bind, StateT.run_get, except_pure, ok_bind]
    by_cases hpass : s.pass = 0
    · simp only [hpass, if_true]
      cases s.symTbl.rmscope s.currScopeNode <;> rfl
    · simp only [hpass, if_false]
      cases hstack : s.scopeChildNumStack with
      | nil => simp [hstack]; rfl
      | cons i cs => cases cs <;> simp [hstack, pushScopeChildNum] <;> rfl
  | label n =>
    unfold visitItem visitLabel
    simp only [StateT.run_bind, visitIdentName_run, popStr_run, StateT.run_get, except_pure,
      ok_bind]
    cases hsym : s.symTbl.findInThisBlklev s.currScopeNode n.text with
    | none =>
      simp only [StateT.run_bind, symTblFindOrInsert_run]
      rcases s.symTbl.findOrInsert s.currScopeNode n.text with ⟨v | v, tbl⟩ <;> rfl
    | some sym =>
      simp only
      -- a label that is there already is an error in pass 0 only
      by_cases hdup : (s.pass = 0 && sym.foundAsLabel) = true
      · rw [if_pos hdup]
        rfl
      · rw [if_neg hdup]
        simp only [StateT.run_bind, symTblFindOrInsert_run]
        rcases s.symTbl.findOrInsert s.currScopeNode n.text with ⟨v | v, tbl⟩ <;> rfl
  | _ => cases h

theorem stepItem_outputAs {it : Item} {s t : Assembler} (h : stepItem it s = .ok t) (b : Bool)
    (out : List Char) : ∃ out', stepItem it (s.outputAs b out) = .ok (t.outputAs b out') := by
  cases hplain : it.plain with
  | false =>
    refine ⟨out, ?_⟩
    rw [stepItem_outputAs_not_plain hplain, h]
    rfl
  | true =>
    obtain ⟨ef, hef, rfl⟩ := stepItem_plain hplain h
    obtain ⟨out', hout⟩ := s.perform_outputAs b ef out
    refine ⟨out', ?_⟩
    have hef' : it.effect (s.outputAs b out).env = .ok ef := hef
    rw [stepItem_of_plain hplain, hef', ← hout]
    rfl

/-- A run in the other mode generates the same data. -/
theorem runList_outputAs {items : List Item} {s t : Assembler}
    (h : runList stepItem items s = .ok t) (b : Bool) (out : List Char) :
    (∃ out', runList stepItem items (s.outputAs b out) = .ok (t.outputAs b out')) ∧
      runEmissions items (s.outputAs b out) = runEmissions items s := by
  induction items generalizing s out with
  | nil =>
    cases h
    exact ⟨⟨out, rfl⟩, rfl⟩
  | cons it items ih =>
    rw [runList_cons] at h
    obtain ⟨u, hu, h⟩ := bind_eq_ok.mp h
    obtain ⟨out₁, hstep⟩ := stepItem_outputAs hu b out
    obtain ⟨⟨out₂, hrun⟩, hems⟩ := ih h out₁
    constructor
    · refine ⟨out₂, ?_⟩
      rw [runList_cons, hstep]
      exact hrun
    · show itemEmissions it s ++ _ = itemEmissions it s ++ _
      rw [hstep, hu]
      exact congrArg (itemEmissions it s ++ ·) hems

theorem passStart_outputAs {showWords : Bool} {program : Program} {p : Nat} {s : Assembler}
    (h : passStart showWords program p = .ok s) (b : Bool) :
    ∃ out, passStart b program p = .ok (s.outputAs b out) := by
  induction p generalizing s with
  | zero =>
    cases h
    exact ⟨[], rfl⟩
  | succ p ih =>
    obtain ⟨u, hu, h⟩ := bind_eq_ok.mp h
    obtain ⟨v, hv, h⟩ := bind_eq_ok.mp h
    cases h
    obtain ⟨out, hstart⟩ := ih hu
    obtain ⟨⟨out', hrun⟩, -⟩ := runList_outputAs hv b out
    refine ⟨out', ?_⟩
    show passStart b program p >>= _ = _
    rw [hstart]
    show runList stepItem program.items (u.outputAs b out) >>= _ = _
    rw [hrun]
    rfl

/-- **The output mode changes nothing but the text.** -/
theorem assemble_outputAs {showWords : Bool} {program : Program} {s : Assembler}
    (h : assemble showWords program = .ok s) (b : Bool) :
    (∃ out, assemble b program = .ok (s.outputAs b out)) ∧
      emissions b program = emissions showWords program := by
  rw [assemble_eq] at h
  obtain ⟨s₀, hs₀, hrun⟩ := bind_eq_ok.mp h
  obtain ⟨out, hstart⟩ := passStart_outputAs hs₀ b
  obtain ⟨⟨out', hrun'⟩, hems⟩ := runList_outputAs hrun b out
  constructor
  · refine ⟨out', ?_⟩
    rw [assemble_eq, afterItems, hstart]
    exact hrun'
  · rw [emissions, emissions, hstart, hs₀]
    exact hems

/-- **The printed text denotes exactly the image of the source**, and the text of the other
    mode denotes the same bytes at the same addresses. -/
theorem image_of_output {showWords : Bool} {program : Program} {s : Assembler}
    (h : assemble showWords program = .ok s) :
    image 64 s.out = bytesOf (emissions showWords program) ∧
      ∀ mode, ∃ s', assemble mode program = .ok s' ∧ image 64 s'.out = image 64 s.out := by
  have hout : ∀ {mode : Bool} {s : Assembler}, assemble mode program = .ok s →
      image 64 s.out = bytesOf (emissions mode program) := by
    intro mode s h
    rw [out_eq_render h, image_renderFrom]
  refine ⟨hout h, ?_⟩
  intro mode
  obtain ⟨⟨out, hmode⟩, hems⟩ := assemble_outputAs h mode
  exact ⟨_, hmode, by rw [hout hmode, hout h, hems]⟩

/-- A move forward, one backward and one that moves nothing, between data and an
    instruction. -/
def movedData : Program :=
  [.directive (.dotOrgDirective (.ofAtom (.numExpr (.hexNum ⟨"20".toList, by decide⟩)))),
    .directive (.dotDb16Directive (.ofAtom .currPc) []),
    .directive (.dotSpaceDirective (.ofAtom (.numExpr (.hexNum ⟨"0".toList, by decide⟩)))),
    .directive (.dotDb8Directive (.ofAtom .currPc) []),
    .directive (.dotOrgDirective (.ofAtom (.numExpr (.hexNum ⟨"8".toList, by decide⟩)))),
    .pseudoInstruction (.pseudoInstrOpJmp .lr)]

theorem image_of_output_movedData :
    ∃ s, assemble true movedData = .ok s ∧
      image 64 s.out = bytesOf (emissions true movedData) ∧
      bytesOf (emissions true movedData) =
        [(0x20, 0x00), (0x21, 0x20), (0x22, 0x22), (8, 0x30), (9, 0x0d), (10, 0x00),
          (11, 0x01)] := by
  obtain ⟨s, hs⟩ := exists_eq_ok (show (assemble true movedData).isOk = true by decide +kernel)
  exact ⟨s, hs, (image_of_output hs).1, by decide +kernel⟩

end Frost32.Asm
