import Mathlib.Data.List.Basic

namespace Frost32

/-!
# Words of infix expressions

What is left of an expression with prefix and infix operators when the grouping is forgotten.
Operands, prefix operators and infix operators are arbitrary.

* `InfixWord` — such a word: prefix operators stand before an operand, and an infix operator
  stands between an operand and the rest.
* `join` — two words with an infix operator between them.
* `PrefixesLast` — no infix operator stands to the right of a prefix operator.
* `Commuting` — every prefix operator, and every infix operator right before one, commutes with
  the infix operators to its right; `commutingScan` decides it in one pass.
* `join_inj_of_last`, `join_inj_of_first` — **a word is split in one way only** at the last, or
  at the first, operator of a class.
* `Spelling` — a way to write words as lists of symbols; `Spelling.word_inj` — what is written
  determines the word.
-/

inductive InfixWord (α π β : Type)
  | operand (a : α)
  | pre (p : π) (w : InfixWord α π β)
  | op (a : α) (b : β) (w : InfixWord α π β)

namespace InfixWord

variable {α π β : Type}

/-- One word, an operator, and another word. -/
def join : InfixWord α π β → β → InfixWord α π β → InfixWord α π β
  | operand a, b, v => op a b v
  | pre p w, b, v => pre p (w.join b v)
  | op a c w, b, v => op a c (w.join b v)

def operands : InfixWord α π β → List α
  | operand a => [a]
  | pre _ w => w.operands
  | op a _ w => a :: w.operands

/-- The infix operators in order. -/
def ops : InfixWord α π β → List β
  | operand _ => []
  | pre _ w => w.ops
  | op _ b w => b :: w.ops

def NoPrefix : InfixWord α π β → Prop
  | operand _ => True
  | pre _ _ => False
  | op _ _ w => w.NoPrefix

def hasPrefix : InfixWord α π β → Bool
  | operand _ => false
  | pre _ _ => true
  | op _ _ w => w.hasPrefix

theorem hasPrefix_eq_false (w : InfixWord α π β) : w.hasPrefix = false ↔ w.NoPrefix := by
  induction w with
  | operand a => exact iff_of_true rfl trivial
  | pre p w ih => exact iff_of_false Bool.noConfusion id
  | op a b w ih => exact ih

/-- Prefix operators stand before the last operand only. -/
def PrefixesLast : InfixWord α π β → Prop
  | operand _ => True
  | pre _ w => w.ops = []
  | op _ _ w => w.PrefixesLast

@[simp] theorem ops_join (w : InfixWord α π β) (b : β) (v : InfixWord α π β) :
    (w.join b v).ops = w.ops ++ b :: v.ops := by
  induction w with
  | operand a => rfl
  | pre p w ih => exact ih
  | op a c w ih => exact congrArg (c :: ·) ih

@[simp] theorem operands_join (w : InfixWord α π β) (b : β) (v : InfixWord α π β) :
    (w.join b v).operands = w.operands ++ v.operands := by
  induction w with
  | operand a => rfl
  | pre p w ih => exact ih
  | op a c w ih => exact congrArg (a :: ·) ih

@[simp] theorem noPrefix_join (w : InfixWord α π β) (b : β) (v : InfixWord α π β) :
    (w.join b v).NoPrefix ↔ w.NoPrefix ∧ v.NoPrefix := by
  induction w with
  | operand a => exact (iff_of_eq (true_and _)).symm
  | pre p w ih => exact (iff_of_eq (false_and _)).symm
  | op a c w ih => exact ih

@[simp] theorem hasPrefix_join (w : InfixWord α π β) (b : β) (v : InfixWord α π β) :
    (w.join b v).hasPrefix = (w.hasPrefix || v.hasPrefix) := by
  induction w with
  | operand a => exact (Bool.false_or _).symm
  | pre p w ih => exact (Bool.true_or _).symm
  | op a c w ih => exact ih

/-- A word without infix operators. -/
theorem prefixesLast_of_ops_eq_nil {w : InfixWord α π β} (h : w.ops = []) : w.PrefixesLast := by
  cases w with
  | operand a => trivial
  | pre p w => exact h
  | op a b w => cases h

theorem NoPrefix.prefixesLast {w : InfixWord α π β} (h : w.NoPrefix) : w.PrefixesLast := by
  induction w with
  | operand a => trivial
  | pre p w ih => exact h.elim
  | op a b w ih => exact ih h

/-- Left of an infix operator there are no prefix operators. -/
theorem prefixesLast_join (w : InfixWord α π β) (b : β) (v : InfixWord α π β) :
    (w.join b v).PrefixesLast ↔ w.NoPrefix ∧ v.PrefixesLast := by
  induction w with
  | operand a => exact (iff_of_eq (true_and _)).symm
  | pre p w ih =>
    refine ⟨fun h => ?_, fun h => h.1.elim⟩
    have hops : (w.join b v).ops = [] := h
    simp at hops
  | op a c w ih => exact ih

/-- Other operands in the same places. -/
def map {α' : Type} (f : α → α') : InfixWord α π β → InfixWord α' π β
  | operand a => operand (f a)
  | pre p w => pre p (w.map f)
  | op a b w => op (f a) b (w.map f)

section Map

variable {α' : Type} (f : α → α')

theorem map_join (w : InfixWord α π β) (b : β) (v : InfixWord α π β) :
    (w.join b v).map f = (w.map f).join b (v.map f) := by
  induction w with
  | operand a => rfl
  | pre p w ih => exact congrArg (pre p) ih
  | op a c w ih => exact congrArg (op (f a) c) ih

@[simp] theorem ops_map (w : InfixWord α π β) : (w.map f).ops = w.ops := by
  induction w with
  | operand a => rfl
  | pre p w ih => exact ih
  | op a b w ih => exact congrArg (b :: ·) ih

theorem prefixesLast_map (w : InfixWord α π β) : (w.map f).PrefixesLast ↔ w.PrefixesLast := by
  induction w with
  | operand a => exact Iff.rfl
  | pre p w ih => rw [map, PrefixesLast, PrefixesLast, ops_map]
  | op a b w ih => exact ih

end Map

/-! ### Operators that commute -/

section Commuting

variable (P : π → β → Prop) (B : β → β → Prop)

def StartsPre : InfixWord α π β → Prop
  | pre _ _ => True
  | _ => False

/-- Every prefix operator, and every infix operator right before one, commutes with the infix
    operators to its right. -/
def Commuting : InfixWord α π β → Prop
  | operand _ => True
  | pre p w => (∀ c ∈ w.ops, P p c) ∧ w.Commuting
  | op _ b w => (w.StartsPre → ∀ c ∈ w.ops, B b c) ∧ w.Commuting

variable {P B}

theorem startsPre_join (w : InfixWord α π β) (b : β) (v : InfixWord α π β) :
    (w.join b v).StartsPre ↔ w.StartsPre := by
  cases w <;> exact Iff.rfl

/-- The parts of a word in which operators commute. -/
theorem Commuting.of_join {w : InfixWord α π β} {b : β} {v : InfixWord α π β}
    (h : (w.join b v).Commuting P B) :
    w.Commuting P B ∧ (v.StartsPre → ∀ c ∈ v.ops, B b c) ∧ v.Commuting P B := by
  induction w with
  | operand a => exact ⟨trivial, h⟩
  | pre p w ih =>
    obtain ⟨hp, hw⟩ := h
    obtain ⟨hleft, hright⟩ := ih hw
    exact ⟨⟨fun c hc => hp c (by simp [hc]), hleft⟩, hright⟩
  | op a c w ih =>
    obtain ⟨hc, hw⟩ := h
    obtain ⟨hleft, hright⟩ := ih hw
    exact ⟨⟨fun hpre d hd => hc ((startsPre_join w b v).mpr hpre) d (by simp [hd]), hleft⟩, hright⟩

/-- The same in one pass: `left` is the infix operator right before the word, and `free` says
    which ones commute with everything that is to the left. -/
def commutingScan (P : π → β → Bool) (B : β → β → Bool) :
    (left : Option β) → (free : β → Bool) → InfixWord α π β → Bool
  | _, _, operand _ => true
  | left, free, pre p w =>
    commutingScan P B none (fun c => free c && P p c && left.all (B · c)) w
  | _, free, op _ b w => free b && commutingScan P B (some b) free w

theorem commutingScan_eq_true {P : π → β → Bool} {B : β → β → Bool} (w : InfixWord α π β)
    {left : Option β} {free : β → Bool} : commutingScan P B left free w = true ↔
      (∀ c ∈ w.ops, free c = true) ∧ (w.StartsPre → ∀ b ∈ left, ∀ c ∈ w.ops, B b c = true) ∧
        w.Commuting (P · · = true) (B · · = true) := by
  induction w generalizing left free with
  | operand a => simp [commutingScan, ops, Commuting]
  | pre p w ih =>
    rw [commutingScan, ih]
    simp only [Bool.and_eq_true, Option.all_eq_true]
    constructor
    · rintro ⟨hall, -, hw⟩
      exact ⟨fun c hc => (hall c hc).1.1, fun _ b hb c hc => (hall c hc).2 b hb,
        fun c hc => (hall c hc).1.2, hw⟩
    · rintro ⟨hfree, hleft, hp, hw⟩
      exact ⟨fun c hc => ⟨⟨hfree c hc, hp c hc⟩, fun b hb => hleft trivial b hb c hc⟩,
        fun _ b hb => absurd hb (Option.not_mem_none b), hw⟩
  | op a b w ih =>
    rw [commutingScan, Bool.and_eq_true, ih]
    constructor
    · rintro ⟨hb, hfree, hpre, hw⟩
      exact ⟨List.forall_mem_cons.mpr ⟨hb, hfree⟩, fun h => h.elim,
        fun h c hc => hpre h b rfl c hc, hw⟩
    · rintro ⟨hfree, -, hpre, hw⟩
      obtain ⟨hb, hrest⟩ := List.forall_mem_cons.mp hfree
      refine ⟨hb, hrest, fun h c hc d hd => ?_, hw⟩
      obtain rfl : b = c := Option.some.inj hc
      exact hpre h d hd

end Commuting

/-! ### Splitting -/

section Split

variable {P : β → Prop} {w w' v v' : InfixWord α π β} {b b' : β}

/-- **The last operator of a class splits a word in one way.** -/
theorem join_inj_of_last (hb : P b) (hb' : P b') (hv : ∀ c ∈ v.ops, ¬ P c)
    (hv' : ∀ c ∈ v'.ops, ¬ P c) (h : w.join b v = w'.join b' v') : w = w' ∧ b = b' ∧ v = v' := by
  induction w generalizing w' with
  | operand a =>
    cases w' with
    | operand a' =>
      obtain ⟨rfl, rfl, rfl⟩ := (op.injEq ..).mp h
      exact ⟨rfl, rfl, rfl⟩
    | pre p' w' => cases h
    | op a' c w' =>
      obtain ⟨-, -, hw⟩ := (op.injEq ..).mp h
      -- the operator of the other split would be to the right of the first one
      exact absurd hb' (hv b' (by rw [hw]; simp))
  | pre p w ih =>
    cases w' with
    | operand a' => cases h
    | pre p' w' =>
      obtain ⟨rfl, hw⟩ := (pre.injEq ..).mp h
      obtain ⟨rfl, rfl, rfl⟩ := ih hw
      exact ⟨rfl, rfl, rfl⟩
    | op a' c w' => cases h
  | op a c w ih =>
    cases w' with
    | operand a' =>
      obtain ⟨-, -, hw⟩ := (op.injEq ..).mp h
      exact absurd hb (hv' b (by rw [← hw]; simp))
    | pre p' w' => cases h
    | op a' c' w' =>
      obtain ⟨rfl, rfl, hw⟩ := (op.injEq ..).mp h
      obtain ⟨rfl, rfl, rfl⟩ := ih hw
      exact ⟨rfl, rfl, rfl⟩

/-- **The first operator of a class splits a word in one way.** -/
theorem join_inj_of_first (hb : P b) (hb' : P b') (hw : ∀ c ∈ w.ops, ¬ P c)
    (hw' : ∀ c ∈ w'.ops, ¬ P c) (h : w.join b v = w'.join b' v') : w = w' ∧ b = b' ∧ v = v' := by
  induction w generalizing w' with
  | operand a =>
    cases w' with
    | operand a' =>
      obtain ⟨rfl, rfl, rfl⟩ := (op.injEq ..).mp h
      exact ⟨rfl, rfl, rfl⟩
    | pre p' w' => cases h
    | op a' c w' =>
      obtain ⟨-, rfl, -⟩ := (op.injEq ..).mp h
      exact absurd hb (hw' b (List.mem_cons_self ..))
  | pre p w ih =>
    cases w' with
    | operand a' => cases h
    | pre p' w' =>
      obtain ⟨rfl, hrest⟩ := (pre.injEq ..).mp h
      have hops : ∀ c ∈ w'.ops, ¬ P c := hw'
      obtain ⟨rfl, rfl, rfl⟩ := ih hw hops hrest
      exact ⟨rfl, rfl, rfl⟩
    | op a' c w' => cases h
  | op a c w ih =>
    have hw₁ : ∀ d ∈ w.ops, ¬ P d := fun d hd => hw d (List.mem_cons_of_mem c hd)
    cases w' with
    | operand a' =>
      obtain ⟨-, rfl, -⟩ := (op.injEq ..).mp h
      exact absurd hb' (hw c (List.mem_cons_self ..))
    | pre p' w' => cases h
    | op a' c' w' =>
      obtain ⟨rfl, rfl, hrest⟩ := (op.injEq ..).mp h
      obtain ⟨rfl, rfl, rfl⟩ := ih hw₁ (fun d hd => hw' d (List.mem_cons_of_mem c hd)) hrest
      exact ⟨rfl, rfl, rfl⟩

end Split

/-! ### Writing words down -/

/-- A way to write operands and operators as symbols, so that an operand can be told from what
    follows it and from a prefix operator. -/
structure Spelling (α π β τ : Type) where
  operand : α → List τ
  pre : π → τ
  op : β → τ
  operand_inj : ∀ {a a' : α} {ts ts' : List τ}, operand a ++ ts = operand a' ++ ts' →
    a = a' ∧ ts = ts'
  pre_inj : ∀ {p p' : π}, pre p = pre p' → p = p'
  op_inj : ∀ {b b' : β}, op b = op b' → b = b'
  operand_ne_pre : ∀ (a : α) (p : π) (ts ts' : List τ), operand a ++ ts ≠ pre p :: ts'

namespace Spelling

variable {τ : Type} (s : Spelling α π β τ)

def word : InfixWord α π β → List τ
  | .operand a => s.operand a
  | .pre p w => s.pre p :: word w
  | .op a b w => s.operand a ++ s.op b :: word w

theorem word_join (w : InfixWord α π β) (b : β) (v : InfixWord α π β) :
    s.word (w.join b v) = s.word w ++ s.op b :: s.word v := by
  induction w with
  | operand a => rfl
  | pre p w ih => exact congrArg (s.pre p :: ·) ih
  | op a c w ih =>
    show s.operand a ++ s.op c :: s.word (w.join b v) = _
    rw [ih, word, List.append_assoc, List.cons_append]

/-- **What is written determines the word.** -/
theorem word_inj {w w' : InfixWord α π β} (h : s.word w = s.word w') : w = w' := by
  induction w generalizing w' with
  | operand a =>
    have ha : s.operand a ++ [] = s.word w' := (List.append_nil _).trans h
    cases w' with
    | operand a' => rw [(s.operand_inj (ha.trans (List.append_nil _).symm)).1]
    | pre p' w' => exact (s.operand_ne_pre _ _ _ _ ha).elim
    | op a' b' w' => exact absurd (s.operand_inj ha).2 (by simp)
  | pre p w ih =>
    cases w' with
    | operand a' =>
      exact (s.operand_ne_pre _ _ _ _ (h.trans (List.append_nil _).symm).symm).elim
    | pre p' w' =>
      obtain ⟨hp, hw⟩ := List.cons.inj h
      rw [s.pre_inj hp, ih hw]
    | op a' b' w' => exact (s.operand_ne_pre _ _ _ _ h.symm).elim
  | op a b w ih =>
    cases w' with
    | operand a' =>
      exact absurd (s.operand_inj (h.trans (List.append_nil _).symm)).2 (by simp)
    | pre p' w' => exact (s.operand_ne_pre _ _ _ _ h).elim
    | op a' b' w' =>
      obtain ⟨rfl, hrest⟩ := s.operand_inj h
      obtain ⟨hb, hw⟩ := List.cons.inj hrest
      rw [s.op_inj hb, ih hw]

end Spelling

end InfixWord

end Frost32
