import Frost32.ByteMemory
import Frost32.Hdl.EveryRun

namespace Frost32.Hdl

open Isa (Arch)

/-!
# 16 and 8-bit accesses in every run

The access size travels from the decoder to the memory port, where `MainMem` does not look at
it.

* `SubStoreMeaning` — the documented effect of a 16 or 8-bit store decoded at a given cycle:
  the addressed bytes and no others, and loads of the same size that read them back.
* `subStoreMeaning_iff` — **when a store has it**: if the whole of `rA` is what the word
  addressed has to become.  Reading back works in any case.
-/

/-- `sth`, `sthi` (of 2 bytes), `stb` and `stbi` (of 1 byte). -/
def IsSubStore (n : Nat) (w : Word) : Prop :=
  Isa.group w = 5#4 ∧ ((Isa.opcodeLow w).extractLsb' 0 3 = 6#3 ∧ n = 2 ∨
    (Isa.opcodeLow w).extractLsb' 0 3 = 7#3 ∧ n = 1)

/-- `ldh`, `ldsh`, `ldhi`, `ldshi` (of 2 bytes), `ldb`, `ldsb`, `ldbi` and `ldsbi` (of 1 byte);
    the ones with an `s` extend the sign. -/
def IsSubLoad (n : Nat) (sgn : Bool) (w : Word) : Prop :=
  Isa.group w = 5#4 ∧
    ((Isa.opcodeLow w).extractLsb' 0 3 = 1#3 ∧ n = 2 ∧ sgn = false ∨
      (Isa.opcodeLow w).extractLsb' 0 3 = 2#3 ∧ n = 2 ∧ sgn = true ∨
      (Isa.opcodeLow w).extractLsb' 0 3 = 3#3 ∧ n = 1 ∧ sgn = false ∨
      (Isa.opcodeLow w).extractLsb' 0 3 = 4#3 ∧ n = 1 ∧ sgn = true)

instance (n : Nat) (w : Word) : Decidable (IsSubStore n w) := inferInstanceAs (Decidable (_ ∧ _))

/-- The `n` low bytes of `v` as a word. -/
def extended (n : Nat) (sgn : Bool) (v : Word) : Word :=
  if sgn then (v.extractLsb' 0 (8 * n)).signExtend 32 else (v.extractLsb' 0 (8 * n)).setWidth 32

/-- What a sub-word store does: the whole word becomes `rA`. -/
theorem ldstOutcome_subStore {n : Nat} {w : Word} (hw : IsSubStore n w) (a : Arch) :
    System.ldstOutcome w a = { a.next with
      mem := Function.update a.mem (Isa.wordIndex (a.ldstAddress w))
        (a.regs.val (Isa.fieldA w)) } := by
  obtain ⟨hg, hk⟩ := hw
  unfold System.ldstOutcome
  rw [instrDecoder_of_group5 hg]
  rcases hk with ⟨hk, -⟩ | ⟨hk, -⟩ <;> rw [hk] <;> rfl

/-- What a sub-word load does: it takes the low end of the whole word. -/
theorem ldstOutcome_subLoad {n : Nat} {sgn : Bool} {w : Word} (hw : IsSubLoad n sgn w)
    (a : Arch) :
    System.ldstOutcome w a
      = a.writeA w (extended n sgn (a.mem (Isa.wordIndex (a.ldstAddress w)))) := by
  obtain ⟨hg, hk⟩ := hw
  unfold System.ldstOutcome
  rw [instrDecoder_of_group5 hg]
  rcases hk with ⟨hk, rfl, rfl⟩ | ⟨hk, rfl, rfl⟩ | ⟨hk, rfl, rfl⟩ | ⟨hk, rfl, rfl⟩ <;>
    rw [hk] <;> rfl

/-- The whole of `rA` is what the word addressed has to become. -/
def SubStoreSound (bo : Isa.ByteOrder) (n : Nat) (w : Word) (a : Arch) : Prop :=
  a.regs.val (Isa.fieldA w) = Isa.storeLane bo n (a.ldstAddress w) (a.regs.val (Isa.fieldA w))
    (a.mem (Isa.wordIndex (a.ldstAddress w)))

namespace System

section Run

variable (order : BlockOrder) (junk : System) (mem : BitVec 11 → Word) (irq : Nat → Bool)

/-- The documented effect of the store of `n` bytes decoded at cycle `t` of the run `z`, with
    the bytes of a word in the order `bo`: once it has completed, the bytes at its address
    and no others have changed, to the low bytes of `rA`; and a later load of `n` bytes at the
    same address, with the word still as the store left it, gives those bytes. -/
def SubStoreMeaning (bo : Isa.ByteOrder) (n : Nat) (z : Nat → System) (irq : Nat → Bool)
    (t : Nat) : Prop :=
  let a := (z t).arch
  let addr := a.ldstAddress (z t).decoded
  let v := a.regs.val (Isa.fieldA (z t).decoded)
  ∃ t', Lib.NextAt (fun u => (z u).AtDecode) t t' ∧
    Isa.StoresBytes bo n addr v a.mem (z t').arch.mem ∧
    ∀ (sgn : Bool) (t₁ : Nat), t' ≤ t₁ → (z t₁).AtDecode → (z t₁).sends (irq t₁) = true →
      IsSubLoad n sgn (z t₁).decoded → (z t₁).arch.ldstAddress (z t₁).decoded = addr →
      (z t₁).arch.mem (Isa.wordIndex addr) = (z t').arch.mem (Isa.wordIndex addr) →
      ∃ t₂, Lib.NextAt (fun u => (z u).AtDecode) t₁ t₂ ∧
        (z t₂).arch.regs
          = (z t₁).arch.regs.set (Isa.fieldA (z t₁).decoded) (extended n sgn v)

/-- What a decoded load or store leads to. -/
private theorem ldst_next {t : Nat} (ht : (runFrom order (init junk mem) irq t).AtDecode)
    (hs : (runFrom order (init junk mem) irq t).sends (irq t) = true)
    (hg : Isa.group (runFrom order (init junk mem) irq t).decoded = 5#4) :
    let z := runFrom order (init junk mem) irq
    Lib.NextAt (fun u => (z u).AtDecode) t (t + 1 + 3) ∧
      (z (t + 1 + 3)).arch = ldstOutcome (z t).decoded (z t).arch := by
  intro z
  have hd : Decoding (z t).arch (z t) := decoding_everyRun order junk mem irq ht
  have hg' : Isa.group (z t).decoded = 5#4 := hg
  rw [decoded_eq hd] at hg' ⊢
  exact (ldst_decoded hd (not_accepted_of_sends hs) hg').nextAt order junk mem irq

/-- **When a 16 or 8-bit store has its documented effect**: in every run and wherever it is
    decoded, exactly if the whole of `rA` is the word addressed with its lane replaced by the
    low bytes of `rA`. -/
theorem subStoreMeaning_iff (bo : Isa.ByteOrder) (n t : Nat)
    (ht : (runFrom order (init junk mem) irq t).AtDecode)
    (hs : (runFrom order (init junk mem) irq t).sends (irq t) = true)
    (hw : IsSubStore n (runFrom order (init junk mem) irq t).decoded)
    (ha : ((runFrom order (init junk mem) irq t).arch.ldstAddress
      (runFrom order (init junk mem) irq t).decoded).toNat % n = 0) :
    SubStoreMeaning bo n (runFrom order (init junk mem) irq) irq t ↔
      SubStoreSound bo n (runFrom order (init junk mem) irq t).decoded
        (runFrom order (init junk mem) irq t).arch := by
  let a := (runFrom order (init junk mem) irq t).arch
  let w := (runFrom order (init junk mem) irq t).decoded
  have hn : n = 1 ∨ n = 2 := by
    rcases hw.2 with ⟨-, rfl⟩ | ⟨-, rfl⟩
    · exact Or.inr rfl
    · exact Or.inl rfl
  obtain ⟨hnext, harch⟩ := ldst_next order junk mem irq ht hs hw.1
  rw [ldstOutcome_subStore hw] at harch
  have hmem := congrArg Arch.mem harch
  have hbytes := Isa.storesBytes_iff bo hn ha (a.regs.val (Isa.fieldA w))
    (a.regs.val (Isa.fieldA w)) a.mem
  -- the run writes `rA` whole, and the load-back reads the bytes of one lane
  constructor
  · rintro ⟨t', hnext', hstored, -⟩
    rw [Lib.NextAt.unique hnext' hnext, hmem] at hstored
    exact hbytes.mp hstored
  · intro h
    refine ⟨_, hnext, ?_, ?_⟩
    · rw [hmem]
      exact hbytes.mpr h
    · -- a later load of the same lane finds the word that was stored
      intro sgn t₁ _ ht₁ hs₁ hw₁ haddr hsame
      obtain ⟨hnext₁, harch₁⟩ := ldst_next order junk mem irq ht₁ hs₁ hw₁.1
      refine ⟨_, hnext₁, ?_⟩
      rw [hmem] at hsame
      rw [harch₁, ldstOutcome_subLoad hw₁, haddr, hsame]
      show ((runFrom order (init junk mem) irq t₁).arch.regs.set _ (extended n sgn
        (Function.update a.mem (Isa.wordIndex (a.ldstAddress w)) (a.regs.val (Isa.fieldA w))
          (Isa.wordIndex (a.ldstAddress w))))) = _
      rw [Function.update_self]

end Run

/-- A run over a memory of "stb zero, [zero, zero]", which clears the word it lies in. -/
theorem subStoreMeaning_iff_first :
    let z := runFrom .preEdge (init cleared fun _ => 0x50000007#32) (fun _ => false)
    SubStoreMeaning .bigEndian 1 z (fun _ => false) 2 ↔
      SubStoreSound .bigEndian 1 (z 2).decoded (z 2).arch :=
  subStoreMeaning_iff .preEdge cleared (fun _ => 0x50000007#32) (fun _ => false) .bigEndian 1 2
    (by decide) (by decide) (by decide) (by decide)

/-- That store changes more than the byte at its address, in either byte order. -/
theorem stb_clears_word :
    let z := runFrom .preEdge (init cleared fun _ => 0x50000007#32) (fun _ => false)
    (z 2).AtDecode ∧ (z 2).sends false = true ∧ IsSubStore 1 (z 2).decoded ∧
      ((z 2).arch.ldstAddress (z 2).decoded).toNat % 1 = 0 ∧
      ¬ SubStoreMeaning .littleEndian 1 z (fun _ => false) 2 ∧
      ¬ SubStoreMeaning .bigEndian 1 z (fun _ => false) 2 := by
  obtain ⟨hnext, harch⟩ := ldst_next .preEdge cleared (fun _ => 0x50000007#32)
    (fun _ => false) (t := 2) (by decide) (by decide) (by decide)
  rw [ldstOutcome_subStore (n := 1) (by decide)] at harch
  refine ⟨by decide, by decide, by decide, by decide, ?_, ?_⟩
  · rintro ⟨t', hnext', hstored, -⟩
    rw [Lib.NextAt.unique hnext' hnext, harch] at hstored
    exact absurd ((Isa.storesBytes_iff _ (Or.inl rfl) (Nat.mod_one _) _ _ _).mp hstored) (by decide)
  · rintro ⟨t', hnext', hstored, -⟩
    rw [Lib.NextAt.unique hnext' hnext, harch] at hstored
    exact absurd ((Isa.storesBytes_iff _ (Or.inl rfl) (Nat.mod_one _) _ _ _).mp hstored) (by decide)

end System

end Frost32.Hdl
