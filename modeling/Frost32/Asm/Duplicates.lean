import Frost32.Asm.Errors

namespace Frost32.Asm

open Fallible

/-!
# Two labels of one name in one scope

Pass 0 looks for the name of a label in the table of the current scope, but a label whose name
an enclosing scope has already is recorded there and never enters that table.

* `Program.HasDuplicate` — some scope directly contains two labels of one name.
* `Program.HasUncoveredDuplicate` — two such labels that no label of the name in an enclosing
  scope comes before.
* `stopsForDuplicate_iff` — **the assembler finds exactly these**.
* `duplicates_found_iff` — so it finds the duplicates of a program exactly if one of them is
  not covered by an enclosing scope.
-/

namespace Program

/-- Some scope directly contains two labels of the same name. -/
def HasDuplicate (program : Program) : Prop := ∃ l l' : LabelLine program, l.RepeatedBy l'

/-- One of the duplicates is of a name that no enclosing scope has before. -/
def HasUncoveredDuplicate (program : Program) : Prop :=
  ∃ l l' : LabelLine program, l.RepeatedBy l' ∧ l.Uncovered

end Program

/-- The assembler stops with the identical-identifiers error. -/
def StopsForDuplicate (showWords : Bool) (program : Program) : Prop :=
  ∃ name, assemble showWords program = .error (identicalIdentifiers name)

/-- Pass 0 meets no other error. -/
def NoOtherError (showWords : Bool) (program : Program) : Prop :=
  ∀ e, afterItems showWords program 0 program.items = .error e →
    ∃ name, e = identicalIdentifiers name

/-! ### Other errors -/

/-- The error is not that for a second label. -/
def NotIdentical (e : AsmError) : Prop := ∀ name, e ≠ identicalIdentifiers name

theorem notIdentical_of_err {msg : String}
    (h : ¬ "Error:  Cannot have".toList <+: msg.toList) : NotIdentical (.err msg) := by
  intro name he
  apply h
  rw [AsmError.err.inj he, String.append_assoc, String.toList_append]
  exact List.IsPrefix.trans (by decide) (List.prefix_append _ _)

theorem notIdentical_unknownSymbol (name : String) : NotIdentical (unknownSymbol name) := by
  apply notIdentical_of_err
  intro h
  rw [String.append_assoc, String.toList_append] at h
  have hshort := List.prefix_of_prefix_length_le h
    (List.prefix_append "Error:  Unknown symbol called \"".toList _) (by decide)
  revert hshort
  decide

theorem notIdentical_undefined : NotIdentical .undefined := by
  intro name he
  cases he

theorem notIdentical_outOfRange : NotIdentical .outOfRange := by
  intro name he
  cases he

theorem notIdentical_of_mem_exprErrors : ∀ x ∈ exprErrors, NotIdentical x := by
  intro x hx
  simp only [exprErrors, List.mem_cons, List.not_mem_nil, or_false] at hx
  rcases hx with rfl | rfl | rfl | rfl
  · intro name he
    cases he
  · exact notIdentical_of_err (by decide)
  · exact notIdentical_of_err (by decide)
  · exact notIdentical_of_err (by decide)

theorem notIdentical_of_mem_refusals : ∀ x ∈ refusals, NotIdentical x := by
  intro x hx
  simp only [refusals, List.mem_cons, List.not_mem_nil, or_false] at hx
  rcases hx with rfl | rfl
  · exact notIdentical_outOfRange
  · exact notIdentical_of_err (by decide)

/-- Only a label that pass 0 finds ends in this error. -/
theorem finds_of_identical {it : Item} {s : Assembler} {name : String}
    (h : stepItem it s = .error (identicalIdentifiers name)) :
    ∃ n, it = .label n ∧ s.FindsLabel n.text := by
  cases hplain : it.plain with
  | true =>
    have herrors := stepItem_plain_errorsIn (s := s) (fun _ => notIdentical_undefined)
      notIdentical_of_mem_exprErrors notIdentical_of_mem_refusals notIdentical_unknownSymbol hplain
    exact absurd rfl (herrors.of_error _ h name)
  | false =>
    cases it with
    | label n =>
      by_cases hfinds : s.FindsLabel n.text
      · exact ⟨n, rfl, hfinds⟩
      · rw [stepItem_label_of_not_finds hfinds] at h
        split at h
        · cases h
        · cases h
    | enter =>
      have herrors := stepItem_enter_errorsIn (s := s) (fun _ => notIdentical_undefined)
        notIdentical_outOfRange
      exact absurd rfl (herrors.of_error _ h name)
    | leave =>
      have herrors := stepItem_leave_errorsIn (s := s) (fun _ => notIdentical_undefined)
        (notIdentical_of_err (by decide))
      exact absurd rfl (herrors.of_error _ h name)
    | _ => cases hplain

/-! ### The two passes -/

/-- A pass that does not get to the end of the program ends the run. -/
theorem assemble_of_passZero_error {showWords : Bool} {program : Program} {e : AsmError}
    (h : afterItems showWords program 0 program.items = .error e) :
    assemble showWords program = .error e := by
  rw [assemble_eq, afterItems, passStart_succ, h]
  rfl

section Duplicates

variable {showWords : Bool} {program : Program}

/-- **The assembler finds exactly the duplicates that no enclosing scope covers.** -/
theorem stopsForDuplicate_iff (h : NoOtherError showWords program) :
    StopsForDuplicate showWords program ↔ program.HasUncoveredDuplicate := by
  constructor
  · rintro ⟨name, hname⟩
    rw [assemble_eq] at hname
    obtain ⟨q, -, pre, it, post, u, hitems, hu, hit⟩ := exists_item_of_error hname
    obtain ⟨n, rfl, hfinds⟩ := finds_of_identical hit
    -- only pass 0 looks for labels
    have hq : q = 0 := (modes_afterItems hu).1.symm.trans hfinds.1
    subst hq
    obtain ⟨l, hl⟩ := (LabelLine.finds_iff ⟨pre, n, post, hitems⟩ hu).mp hfinds
    exact ⟨l, _, hl⟩
  · rintro ⟨l, l', hl, huncovered⟩
    cases hend : afterItems showWords program 0 program.items with
    | error e =>
      obtain ⟨name, rfl⟩ := h e hend
      exact ⟨name, assemble_of_passZero_error hend⟩
    | ok t =>
      -- pass 0 would have been at the second label
      obtain ⟨u, v, hu, hstep, -⟩ := exists_afterItems l'.eq hend
      rw [stepItem_label_of_finds ((l'.finds_iff hu).mpr ⟨l, hl, huncovered⟩)] at hstep
      cases hstep

/-- **Two labels of one name in one scope are reported exactly if some such pair is not covered
    by a label of the name in an enclosing scope.** -/
theorem duplicates_found_iff (h : NoOtherError showWords program) :
    (StopsForDuplicate showWords program ↔ program.HasDuplicate) ↔
      (program.HasDuplicate → program.HasUncoveredDuplicate) := by
  rw [stopsForDuplicate_iff h]
  constructor
  · exact fun hfound => hfound.mpr
  · intro hcovered
    refine ⟨?_, hcovered⟩
    rintro ⟨l, l', hl, -⟩
    exact ⟨l, l', hl⟩

end Duplicates

/-! ### A covered duplicate -/

theorem noOtherError_of_match {showWords : Bool} {program : Program} {n : String}
    (h : (match afterItems showWords program 0 program.items with
      | .error e => decide (e = identicalIdentifiers n)
      | .ok _ => true) = true) : NoOtherError showWords program := by
  intro e he
  rw [he] at h
  exact ⟨n, of_decide_eq_true h⟩

/-- The label of the block is twice there, after one of the program itself. -/
def coveredTwice : Program :=
  [.label (.ident "a"), .scopedLines [.label (.ident "a"), .label (.ident "a")]]

/-- The label is twice in the block and nowhere around it. -/
def blockTwice : Program := [.scopedLines [.label (.ident "a"), .label (.ident "a")]]

theorem blockTwice_uncovered : blockTwice.HasUncoveredDuplicate := by
  let l : LabelLine blockTwice :=
    ⟨[.enter], .ident "a", [.label (.ident "a"), .leave], rfl⟩
  let l' : LabelLine blockTwice :=
    ⟨[.enter, .label (.ident "a")], .ident "a", [.leave], rfl⟩
  refine ⟨l, l', ⟨List.prefix_rfl, rfl, rfl⟩, ?_⟩
  -- before the first label there is none
  intro k hk _ _
  have hmem : Item.label k.name ∈ [Item.enter] :=
    hk.subset (List.mem_append_right _ List.mem_cons_self)
  cases List.mem_singleton.mp hmem

/-- The duplicate of `blockTwice` is reported, and that of `coveredTwice` only if it were not
    covered. -/
theorem duplicates_found_iff_blockTwice :
    (StopsForDuplicate true blockTwice ↔ blockTwice.HasDuplicate) ∧
      ((StopsForDuplicate true coveredTwice ↔ coveredTwice.HasDuplicate) ↔
        (coveredTwice.HasDuplicate → coveredTwice.HasUncoveredDuplicate)) :=
  ⟨(duplicates_found_iff (noOtherError_of_match (n := "a") (by decide +kernel))).mpr
      fun _ => blockTwice_uncovered,
    duplicates_found_iff (noOtherError_of_match (n := "a") (by decide +kernel))⟩

/-- **The covered duplicate is assembled without an error.** -/
theorem covered_duplicate_missed :
    NoOtherError true coveredTwice ∧ coveredTwice.HasDuplicate ∧
      ¬ StopsForDuplicate true coveredTwice := by
  refine ⟨noOtherError_of_match (n := "a") (by decide +kernel), ?_, ?_⟩
  · let l : LabelLine coveredTwice :=
      ⟨[.label (.ident "a"), .enter], .ident "a", [.label (.ident "a"), .leave], rfl⟩
    let l' : LabelLine coveredTwice :=
      ⟨[.label (.ident "a"), .enter, .label (.ident "a")], .ident "a", [.leave], rfl⟩
    exact ⟨l, l', List.prefix_rfl, rfl, rfl⟩
  · rintro ⟨name, hname⟩
    have hok : (assemble true coveredTwice).isOk = true := by decide +kernel
    rw [hname] at hok
    cases hok

end Frost32.Asm
