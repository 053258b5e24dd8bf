import Frost32.Isa

namespace Frost32.Isa

/-!
# What an instruction does not read

States that differ in `ireta` and in some words of the memory, and the instructions that do not
tell them apart.

* `Agree` — the states agree outside of `ireta` and of the words `D`.
* `Untouched` — the instruction at the program counter uses neither.
* `exec_agree`, `step_agree` — **such an instruction keeps states in agreement.**
-/

/-- The states agree outside of `ireta` and of the memory words in `D`. -/
structure Agree (D : BitVec 11 → Prop) (a b : Arch) : Prop where
  regs : a.regs = b.regs
  pc : a.pc = b.pc
  idsta : a.idsta = b.idsta
  ie : a.ie = b.ie
  mem : ∀ i, ¬D i → a.mem i = b.mem i

/-- The instruction reads `ireta`: `cpy rA, ireta` or `reti`. -/
def ReadsIreta (w : Word) : Prop := group w = 6#4 ∧ (opcodeLow w = 3#4 ∨ opcodeLow w = 6#4)

instance (w : Word) : Decidable (ReadsIreta w) := inferInstanceAs (Decidable (_ ∧ _))

/-- The instruction at the program counter reads no `ireta`, and it is not, and does not access,
    a word in `D`. -/
structure Untouched (D : BitVec 11 → Prop) (a : Arch) : Prop where
  fetch : ¬D (wordIndex a.pc)
  ireta : ¬ReadsIreta a.fetched
  access : group a.fetched = 5#4 → ¬D (wordIndex (a.ldstAddress a.fetched))

variable {D : BitVec 11 → Prop} {a b c : Arch}

namespace Agree

theorem refl (a : Arch) : Agree D a a := ⟨rfl, rfl, rfl, rfl, fun _ _ => rfl⟩

theorem trans (h : Agree D a b) (h' : Agree D b c) : Agree D a c where
  regs := h.regs.trans h'.regs
  pc := h.pc.trans h'.pc
  idsta := h.idsta.trans h'.idsta
  ie := h.ie.trans h'.ie
  mem i hi := (h.mem i hi).trans (h'.mem i hi)

/-- They agree on the following instruction. -/
theorem next (h : Agree D a b) : Agree D a.next b.next :=
  ⟨h.regs, congrArg (· + 4) h.pc, h.idsta, h.ie, h.mem⟩

/-- They have the same instruction, if it is outside of `D`. -/
theorem fetched (h : Agree D a b) (hb : ¬D (wordIndex b.pc)) : a.fetched = b.fetched := by
  unfold Arch.fetched
  rw [h.pc]
  exact h.mem _ hb

theorem writeA (h : Agree D a b) (w v : Word) : Agree D (a.writeA w v) (b.writeA w v) :=
  ⟨congrArg (Regs.set (fieldA w) v) h.regs, h.next.pc, h.idsta, h.ie, h.mem⟩

end Agree

variable (order : ByteOrder) {w : Word}

/-- A load or store outside of `D`. -/
theorem execLdst_agree (h : Agree D a b) (haccess : ¬D (wordIndex (a.ldstAddress w))) :
    Agree D (execLdst order w a) (execLdst order w b) := by
  have haddr : b.ldstAddress w = a.ldstAddress w := by
    unfold Arch.ldstAddress
    rw [h.regs]
  have hold : b.mem (wordIndex (a.ldstAddress w)) = a.mem (wordIndex (a.ldstAddress w)) :=
    (h.mem _ haccess).symm
  unfold execLdst
  simp only [haddr, hold, ← h.regs]
  split
  · exact h.writeA w _
  · refine ⟨h.next.regs, h.next.pc, h.next.idsta, h.next.ie, ?_⟩
    intro i hi
    show Function.update a.mem _ _ i = Function.update b.mem _ _ i
    by_cases hsame : i = wordIndex (a.ldstAddress w)
    · rw [hsame, Function.update_self, Function.update_self]
    · rw [Function.update_of_ne hsame, Function.update_of_ne hsame, h.mem i hi]
  · exact h.next

/-- An instruction of group 6 that does not read `ireta`. -/
theorem execInterrupts_agree (h : Agree D a b) (h3 : opcodeLow w ≠ 3#4) (h6 : opcodeLow w ≠ 6#4) :
    Agree D (execInterrupts w a) (execInterrupts w b) := by
  have hn := h.next
  unfold execInterrupts
  split
  case h_1 => exact ⟨hn.regs, hn.pc, hn.idsta, rfl, hn.mem⟩
  case h_2 => exact ⟨hn.regs, hn.pc, hn.idsta, rfl, hn.mem⟩
  case h_3 => exact ⟨hn.regs, hn.pc, hn.idsta, hn.ie, hn.mem⟩
  case h_4 heq => exact absurd heq h3
  case h_5 =>
    have hidsta : a.regs.val (fieldA w) = b.regs.val (fieldA w) := by rw [h.regs]
    exact ⟨hn.regs, hn.pc, hidsta, hn.ie, hn.mem⟩
  case h_6 =>
    rw [h.idsta]
    exact h.writeA w _
  case h_7 heq => exact absurd heq h6
  case h_8 => exact hn

/-- **An instruction that uses neither `ireta` nor `D` keeps states in agreement.** -/
theorem exec_agree (h : Agree D a b) (hireta : ¬ReadsIreta w)
    (haccess : group w = 5#4 → ¬D (wordIndex (a.ldstAddress w))) :
    Agree D (exec order w a) (exec order w b) := by
  unfold exec
  simp only [← h.regs, ← h.pc, ← h.ie]
  split
  case h_1 => exact h.writeA w _
  case h_2 => exact h.writeA w _
  case h_3 =>
    split
    · exact ⟨rfl, rfl, h.idsta, rfl, h.mem⟩
    · exact h.next
  case h_4 =>
    split
    · exact ⟨rfl, rfl, h.idsta, rfl, h.mem⟩
    · exact h.next
  case h_5 =>
    split
    · exact ⟨rfl, rfl, h.idsta, rfl, h.mem⟩
    · exact h.next
  case h_6 hg => exact execLdst_agree order h (haccess hg)
  case h_7 hg =>
    exact execInterrupts_agree h (fun h3 => hireta ⟨hg, .inl h3⟩) fun h6 => hireta ⟨hg, .inr h6⟩
  case h_8 => exact h.next

/-- **So does a step of the machine**, by the instruction of either state. -/
theorem step_agree (h : Agree D a b) (hu : Untouched D b) :
    Agree D (step order false a) (step order false b) := by
  have haddr : a.ldstAddress b.fetched = b.ldstAddress b.fetched := by
    unfold Arch.ldstAddress
    rw [h.regs]
  unfold step
  rw [h.fetched hu.fetch]
  refine exec_agree order h hu.ireta ?_
  rw [haddr]
  exact hu.access

end Frost32.Isa
