import Frost32.Lib.InfixWord
import Mathlib.Data.List.TakeWhile

namespace Frost32

/-!
# Values of infix words

What an infix word stands for if a prefix operator takes the next operand only, and infix
operators bind as tightly as their numbers say.  Values are those of an arbitrary monad.

* `Precedence` — the meaning of operands and operators, and how tightly infix operators bind.
* `run`, `value` — the value of a word, from the left, with the operators that still wait for
  their right operand on a stack; `value_join` is the rule for two words with an operator
  between them.
* `run_congr` — the value depends on the values of the operands.
* `Passes` — what is applied to the left operand may be applied to the outcome instead;
  `bind_join` is the rule with which such operators are regrouped.
-/

namespace InfixWord

variable {α π β V : Type} {m : Type → Type}

/-- The meaning of a word's operands and operators.  An operator to the left of `b` takes its
    right operand from before `b` if it binds tighter than `lbp b`; `b` itself binds what comes
    after it as tightly as `rbp b`. -/
structure Precedence (α π β V : Type) (m : Type → Type) where
  operand : α → m V
  pre : π → V → V
  op : β → V → V → m V
  lbp : β → Nat
  rbp : β → Nat

namespace Precedence

variable [Monad m] (s : Precedence α π β V m)

/-- Apply all operators that wait, the last one first. -/
def finish : List (Nat × (V → m V)) → V → m V
  | [], x => pure x
  | f :: fs, x => f.2 x >>= finish fs

/-- The value of the word, `k` being applied to the first operand, with operators waiting. -/
def run : (k : V → m V) → List (Nat × (V → m V)) → InfixWord α π β → m V
  | k, fs, .operand a => s.operand a >>= k >>= finish fs
  | k, fs, .pre p w => run (fun x => k (s.pre p x)) fs w
  | k, fs, .op a b w =>
    s.operand a >>= k >>= finish (fs.takeWhile fun f => s.lbp b < f.1) >>= fun x =>
      run pure ((s.rbp b, s.op b x) :: fs.dropWhile fun f => s.lbp b < f.1) w

def value (w : InfixWord α π β) : m V := s.run pure [] w

variable [LawfulMonad m]

theorem finish_append (fs gs : List (Nat × (V → m V))) (x : V) :
    finish (fs ++ gs) x = finish fs x >>= finish gs := by
  induction fs generalizing x with
  | nil => exact (pure_bind x _).symm
  | cons f fs ih =>
    show f.2 x >>= finish (fs ++ gs) = (f.2 x >>= finish fs) >>= finish gs
    rw [bind_assoc]
    exact bind_congr ih

omit [Monad m] [LawfulMonad m] in
/-- What binds looser than an operator still waits after it. -/
theorem settle_append (n : Nat) (fs : List (Nat × (V → m V))) {gs : List (Nat × (V → m V))}
    (h : ∀ g ∈ gs, g.1 ≤ n) :
    ((fs ++ gs).takeWhile fun f => n < f.1) = (fs.takeWhile fun f => n < f.1) ∧
      ((fs ++ gs).dropWhile fun f => n < f.1) = (fs.dropWhile fun f => n < f.1) ++ gs := by
  induction fs with
  | nil =>
    cases gs with
    | nil => exact ⟨rfl, rfl⟩
    | cons g gs =>
      have hg : ¬ n < g.1 := Nat.not_lt.mpr (h g List.mem_cons_self)
      simp [hg]
  | cons f fs ih =>
    by_cases hf : n < f.1 <;> simp [hf, ih]

/-- **What waits below and binds looser waits to the end.** -/
theorem run_append {w : InfixWord α π β} {gs : List (Nat × (V → m V))}
    (h : ∀ c ∈ w.ops, ∀ g ∈ gs, g.1 ≤ s.lbp c) (k : V → m V) (fs : List (Nat × (V → m V))) :
    s.run k (fs ++ gs) w = s.run k fs w >>= finish gs := by
  induction w generalizing k fs with
  | operand a =>
    simp only [run, bind_assoc]
    exact bind_congr fun _ => bind_congr (finish_append fs gs)
  | pre p w ih => exact ih h _ fs
  | op a b w ih =>
    obtain ⟨htake, hdrop⟩ := settle_append (s.lbp b) fs (h b List.mem_cons_self)
    simp only [run, htake, hdrop, bind_assoc]
    refine bind_congr fun _ => bind_congr fun _ => bind_congr fun x => ?_
    exact ih (fun c hc => h c (List.mem_cons_of_mem b hc)) pure
      ((s.rbp b, s.op b x) :: fs.dropWhile fun f => s.lbp b < f.1)

/-- **A looser operator takes all that is before it.** -/
theorem run_join {w : InfixWord α π β} {b : β} (hw : ∀ c ∈ w.ops, s.lbp b < s.rbp c) (k : V → m V)
    {fs : List (Nat × (V → m V))} (hfs : ∀ f ∈ fs, s.lbp b < f.1) (v : InfixWord α π β) :
    s.run k fs (w.join b v) = s.run k fs w >>= fun x => s.run pure [(s.rbp b, s.op b x)] v := by
  induction w generalizing k fs with
  | operand a =>
    have hall : ∀ f ∈ fs, decide (s.lbp b < f.1) = true := fun f hf => decide_eq_true (hfs f hf)
    rw [join, run, run, List.takeWhile_eq_self_iff.mpr hall, List.dropWhile_eq_nil_iff.mpr hall]
  | pre p w ih => exact ih hw _ hfs
  | op a c w ih =>
    simp only [join, run, bind_assoc]
    refine bind_congr fun _ => bind_congr fun _ => bind_congr fun x => ?_
    refine ih (fun d hd => hw d (List.mem_cons_of_mem c hd)) pure fun f hf => ?_
    -- `c` waits now, with what waited before it and is looser than `c`
    rcases List.mem_cons.mp hf with rfl | hf
    · exact hw c List.mem_cons_self
    · exact hfs f ((List.dropWhile_suffix _).mem hf)

/-- The one operator that waits is applied to the first operand if it binds tightest. -/
theorem run_singleton {w : InfixWord α π β} {n : Nat} (h : ∀ c ∈ w.ops, s.lbp c < n)
    (k k' : V → m V) : s.run k [(n, k')] w = s.run (fun x => k x >>= k') [] w := by
  induction w generalizing k with
  | operand a => simp only [run, finish, bind_assoc, bind_pure]
  | pre p w ih => exact ih h _
  | op a b w _ =>
    -- the next operator ends the wait, so no induction hypothesis is needed
    have hn : s.lbp b < n := h b List.mem_cons_self
    simp [run, finish, hn]

/-- **The value of two words with an operator between them** that is looser than those of the
    words. -/
theorem value_join {w v : InfixWord α π β} {b : β} (hw : ∀ c ∈ w.ops, s.lbp b < s.rbp c)
    (hv : ∀ c ∈ v.ops, s.rbp b ≤ s.lbp c) :
    s.value (w.join b v) = s.value w >>= fun x => s.value v >>= s.op b x := by
  unfold value
  rw [s.run_join hw pure (fun _ hf => absurd hf List.not_mem_nil)]
  refine bind_congr fun x => ?_
  have hbelow : ∀ c ∈ v.ops, ∀ g ∈ [(s.rbp b, s.op b x)], g.1 ≤ s.lbp c := by
    intro c hc g hg
    rw [List.mem_singleton.mp hg]
    exact hv c hc
  rw [← List.nil_append [(s.rbp b, s.op b x)], s.run_append hbelow pure []]
  refine bind_congr fun y => ?_
  simp only [finish, bind_pure]

/-! ### Other operands -/

omit [LawfulMonad m] in
/-- Operands that look the same under `f` and have the same value can be exchanged. -/
theorem run_congr {γ : Type} {f : α → γ} {w w' : InfixWord α π β} (hmap : w.map f = w'.map f)
    (hval : ∀ a ∈ w.operands, ∀ a' ∈ w'.operands, f a = f a' → s.operand a = s.operand a')
    (k : V → m V) (fs : List (Nat × (V → m V))) : s.run k fs w = s.run k fs w' := by
  induction w generalizing w' k fs with
  | operand a =>
    cases w' with
    | operand a' =>
      have ha := hval a List.mem_cons_self a' List.mem_cons_self (operand.inj hmap)
      rw [run, run, ha]
    | pre p' w' => cases hmap
    | op a' b' w' => cases hmap
  | pre p w ih =>
    cases w' with
    | operand a' => cases hmap
    | pre p' w' =>
      obtain ⟨rfl, hw⟩ := (pre.injEq ..).mp hmap
      exact ih hw hval _ fs
    | op a' b' w' => cases hmap
  | op a b w ih =>
    cases w' with
    | operand a' => cases hmap
    | pre p' w' => cases hmap
    | op a' b' w' =>
      obtain ⟨ha, rfl, hw⟩ := (op.injEq ..).mp hmap
      have hrest := ih hw fun c hc c' hc' =>
        hval c (List.mem_cons_of_mem a hc) c' (List.mem_cons_of_mem a' hc')
      simp only [run, hval a List.mem_cons_self a' List.mem_cons_self ha, hrest]

/-! ### Operators that commute -/

/-- Apply `k` to the left operand of `b`, or to the outcome: it is the same. -/
def Passes (k : V → m V) (b : β) : Prop :=
  ∃ f : V → V, k = (fun x => pure (f x)) ∧ ∀ x y, s.op b (f x) y = f <$> s.op b x y

variable {s} in
theorem Passes.pure (b : β) : s.Passes Pure.pure b :=
  ⟨id, rfl, fun _ _ => (id_map _).symm⟩

variable {s} in
theorem Passes.pre {k : V → m V} {b : β} {p : π} (h : s.Passes k b)
    (hp : ∀ x y, s.op b (s.pre p x) y = s.pre p <$> s.op b x y) :
    s.Passes (fun x => k (s.pre p x)) b := by
  obtain ⟨f, rfl, hf⟩ := h
  refine ⟨fun x => f (s.pre p x), rfl, fun x y => ?_⟩
  rw [hf, hp, ← comp_map]
  rfl

variable {s} in
/-- **What passes the operator is applied to the left operand.** -/
theorem Passes.bind_join {k : V → m V} {b : β} (h : s.Passes k b) (l r : m V) :
    (l >>= fun x => r >>= fun y => s.op b x y) >>= k =
      (l >>= k) >>= fun x => r >>= fun y => s.op b x y := by
  obtain ⟨f, rfl, hf⟩ := h
  simp only [bind_assoc, pure_bind, hf]
  refine bind_congr fun x => bind_congr fun y => ?_
  exact bind_pure_comp f _

end Precedence

end InfixWord

end Frost32
