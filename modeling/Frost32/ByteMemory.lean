import Frost32.Isa
import Frost32.Lib.BitField

namespace Frost32.Isa

/-!
# The memory as bytes

The memory of the instruction set machine consists of words; a store of one or two bytes
replaces a lane of one of them.  This file reads the same memory byte by byte, in either byte
order, and says what such a store is for there.

* `byteAt` — the byte at an address; addresses are taken modulo the 8 KiB of the memory.
* `StoresBytes` — the addressed bytes get their values and every other byte stays.
* `storesBytes_iff` — **a new word for the one addressed does that exactly if it is the one
  `storeLane` forms.**
-/

variable {order : ByteOrder} {n : Nat}

/-- The byte at `addr`. -/
def byteAt (order : ByteOrder) (mem : BitVec 11 → Word) (addr : Word) : BitVec 8 :=
  loadLane order 1 addr (mem (wordIndex addr))

/-- The byte of the value `v` that a store of `n` bytes puts `k` bytes after its address. -/
def dataByte (order : ByteOrder) (n : Nat) (v : Word) (k : Nat) : BitVec 8 :=
  match order with
  | .littleEndian => v.extractLsb' (8 * k) 8
  | .bigEndian => v.extractLsb' (8 * (n - 1 - k)) 8

/-- From `mem` to `mem'` the `n` bytes at `addr` become the low bytes of `v`, and no other
    byte changes. -/
structure StoresBytes (order : ByteOrder) (n : Nat) (addr v : Word)
    (mem mem' : BitVec 11 → Word) : Prop where
  stored : ∀ k < n, byteAt order mem' (addr + BitVec.ofNat 32 k) = dataByte order n v k
  frame : ∀ b : Word, (∀ k < n, b.setWidth 13 ≠ (addr + BitVec.ofNat 32 k).setWidth 13) →
    byteAt order mem' b = byteAt order mem b

/-! ### Addresses -/

theorem wordIndex_eq_iff (a b : Word) :
    wordIndex a = wordIndex b ↔ a.toNat / 4 % 2048 = b.toNat / 4 % 2048 := by
  have hval : ∀ c : Word, (wordIndex c).toNat = c.toNat / 4 % 2048 := by
    intro c
    rw [wordIndex, BitVec.toNat_setWidth, BitVec.toNat_ushiftRight, Nat.shiftRight_eq_div_pow]
  rw [← hval, ← hval]
  exact BitVec.toNat_inj.symm

theorem sameByte_iff (a b : Word) :
    a.setWidth 13 = b.setWidth 13 ↔ a.toNat % 8192 = b.toNat % 8192 := by
  rw [← BitVec.toNat_inj, BitVec.toNat_setWidth, BitVec.toNat_setWidth]

/-- The place of the lane of `n` bytes at an aligned address, counted in bytes from the low end
    of the word. -/
def lane (order : ByteOrder) (n : Nat) (addr : Word) : Nat :=
  match order with
  | .littleEndian => addr.toNat % 4
  | .bigEndian => 4 - n - addr.toNat % 4

theorem laneShift_eq (hn : n = 1 ∨ n = 2) {addr : Word} (ha : addr.toNat % n = 0) :
    laneShift order n addr = 8 * lane order n addr := by
  have hoffset : addr.toNat % 4 / n * n = addr.toNat % 4 := by
    rcases hn with rfl | rfl <;> omega
  unfold laneShift lane
  dsimp only
  rw [hoffset]
  cases order <;> rfl

theorem laneShift_one (addr : Word) : laneShift order 1 addr = 8 * lane order 1 addr :=
  laneShift_eq (Or.inl rfl) (Nat.mod_one _)

theorem lane_one_lt (addr : Word) : lane order 1 addr < 4 := by
  unfold lane
  cases order <;> dsimp only <;> omega

/-! ### Bytes of a word -/

/-- A word is determined by its bytes. -/
theorem eq_of_bytes {u u' : Word}
    (h : ∀ p < 4, u.extractLsb' (8 * p) 8 = u'.extractLsb' (8 * p) 8) : u = u' := by
  apply BitVec.eq_of_getLsbD_eq
  intro i hi
  have hbyte := congrArg (fun b => b.getLsbD (i % 8)) (h (i / 8) (by omega))
  simp only [BitVec.getLsbD_extractLsb', Nat.mod_lt i (show 0 < 8 by omega), decide_true,
    Bool.true_and, Nat.div_add_mod] at hbyte
  exact hbyte

theorem loadLane_one (addr u : Word) :
    loadLane order 1 addr u = u.extractLsb' (8 * lane order 1 addr) 8 := by
  apply BitVec.eq_of_getLsbD_eq
  intro i hi
  unfold loadLane
  rw [laneShift_one, BitVec.getLsbD_setWidth, BitVec.getLsbD_ushiftRight,
    BitVec.getLsbD_extractLsb']

/-- Storing a lane is replacing its bits. -/
theorem storeLane_eq (hn : n = 1 ∨ n = 2) {addr : Word} (ha : addr.toNat % n = 0)
    (v old : Word) :
    storeLane order n addr v old = BitField.replaceBits old v (8 * lane order n addr) (8 * n) := by
  have hmask : (BitVec.allOnes (8 * n)).setWidth 32 = BitField.lowMask 32 (8 * n) := by
    rcases hn with rfl | rfl <;> decide
  unfold storeLane BitField.replaceBits
  dsimp only
  rw [laneShift_eq hn ha, hmask, BitVec.shiftLeft_and_distrib]

section Lane

variable (hn : n = 1 ∨ n = 2) {addr : Word} (ha : addr.toNat % n = 0) (v old : Word)
include hn ha

variable (order) in
/-- An address in the lane, and where its byte lies. -/
private theorem lane_add {k : Nat} (hk : k < n) :
    wordIndex (addr + BitVec.ofNat 32 k) = wordIndex addr ∧
      lane order 1 (addr + BitVec.ofNat 32 k) = lane order n addr
        + (match order with | .littleEndian => k | .bigEndian => n - 1 - k) := by
  have hlt := addr.isLt
  have hsum : (addr + BitVec.ofNat 32 k).toNat = addr.toNat + k := by
    rw [BitVec.toNat_add, BitVec.toNat_ofNat]
    rcases hn with rfl | rfl <;> omega
  rw [wordIndex_eq_iff]
  unfold lane
  rw [hsum]
  rcases hn with rfl | rfl
  · refine ⟨by omega, ?_⟩
    cases order <;> dsimp only <;> omega
  · refine ⟨by omega, ?_⟩
    cases order <;> dsimp only <;> omega

/-- The bytes of the lane are those of the value. -/
private theorem byte_stored {k : Nat} (hk : k < n) :
    loadLane order 1 (addr + BitVec.ofNat 32 k) (storeLane order n addr v old)
      = dataByte order n v k := by
  have hle : lane order n addr + n ≤ 4 := by
    unfold lane
    rcases hn with rfl | rfl <;> cases order <;> dsimp only <;> omega
  rw [loadLane_one, (lane_add order hn ha hk).2, storeLane_eq hn ha]
  unfold dataByte
  apply BitVec.eq_of_getLsbD_eq
  intro i hi
  cases order with
  | littleEndian =>
    dsimp only
    rw [BitVec.getLsbD_extractLsb', BitField.getLsbD_replaceBits _ _ (by omega) (by omega),
      if_pos (by omega), BitVec.getLsbD_extractLsb']
    congr 2
    omega
  | bigEndian =>
    dsimp only
    rw [BitVec.getLsbD_extractLsb', BitField.getLsbD_replaceBits _ _ (by omega) (by omega),
      if_pos (by omega), BitVec.getLsbD_extractLsb']
    congr 2
    omega

/-- A byte of the word outside of the lane stays. -/
private theorem byte_frame {b : Word} (hb : wordIndex b = wordIndex addr)
    (hout : ∀ k < n, b.setWidth 13 ≠ (addr + BitVec.ofNat 32 k).setWidth 13) :
    loadLane order 1 b (storeLane order n addr v old) = loadLane order 1 b old := by
  have hne : ∀ k < n, b.toNat % 4 ≠ addr.toNat % 4 + k := by
    intro k hk he
    refine hout k hk ((sameByte_iff _ _).mpr ?_)
    have hlt := addr.isLt
    have hsum : (addr + BitVec.ofNat 32 k).toNat = addr.toNat + k := by
      rw [BitVec.toNat_add, BitVec.toNat_ofNat]
      rcases hn with rfl | rfl <;> omega
    rw [wordIndex_eq_iff] at hb
    rw [hsum]
    omega
  have h0 := hne 0 (by omega)
  have hn1 := hne (n - 1) (by omega)
  have hdisj : lane order 1 b + 1 ≤ lane order n addr ∨ lane order n addr + n ≤ lane order 1 b := by
    unfold lane
    rcases hn with rfl | rfl <;> cases order <;> dsimp only <;> omega
  have hlt : lane order 1 b < 4 := lane_one_lt b
  rw [loadLane_one, loadLane_one, storeLane_eq hn ha]
  exact BitField.extractLsb'_replaceBits_of_disjoint _ _ (by omega) (by omega) (by omega)

end Lane

variable (order) in
/-- **The word that a store of bytes leaves.** -/
theorem storesBytes_iff (hn : n = 1 ∨ n = 2) {addr : Word} (ha : addr.toNat % n = 0)
    (v u : Word) (mem : BitVec 11 → Word) :
    StoresBytes order n addr v mem (Function.update mem (wordIndex addr) u) ↔
      u = storeLane order n addr v (mem (wordIndex addr)) := by
  have hin : ∀ b, wordIndex b = wordIndex addr →
      byteAt order (Function.update mem (wordIndex addr) u) b = loadLane order 1 b u := by
    intro b hb
    rw [byteAt, hb, Function.update_self]
  constructor
  · rintro ⟨hstored, hframe⟩
    apply eq_of_bytes
    intro p hp
    -- the address of the byte at place `p` of the word
    obtain ⟨b, hb, hpb⟩ : ∃ b, wordIndex b = wordIndex addr ∧ lane order 1 b = p := by
      have hlt := addr.isLt
      refine ⟨BitVec.ofNat 32 (addr.toNat / 4 * 4
        + (match order with | .littleEndian => p | .bigEndian => 3 - p)), ?_, ?_⟩
      · rw [wordIndex_eq_iff, BitVec.toNat_ofNat]
        cases order <;> dsimp only <;> omega
      · unfold lane
        rw [BitVec.toNat_ofNat]
        cases order <;> dsimp only <;> omega
    rw [← hpb, ← loadLane_one, ← loadLane_one, ← hin b hb]
    by_cases hlane : ∃ k < n, b.setWidth 13 = (addr + BitVec.ofNat 32 k).setWidth 13
    · obtain ⟨k, hk, he⟩ := hlane
      have hsame : lane order 1 b = lane order 1 (addr + BitVec.ofNat 32 k) := by
        rw [sameByte_iff] at he
        unfold lane
        cases order <;> dsimp only <;> omega
      rw [hin b hb, loadLane_one, loadLane_one, hsame, ← loadLane_one, ← loadLane_one,
        byte_stored hn ha v _ hk, ← hin _ (lane_add order hn ha hk).1]
      exact hstored k hk
    · have hout : ∀ k < n, b.setWidth 13 ≠ (addr + BitVec.ofNat 32 k).setWidth 13 :=
        fun k hk he => hlane ⟨k, hk, he⟩
      rw [byte_frame hn ha v _ hb hout, hframe b hout, byteAt, hb]
  · rintro rfl
    constructor
    · intro k hk
      rw [hin _ (lane_add order hn ha hk).1]
      exact byte_stored hn ha v _ hk
    · intro b hout
      by_cases hb : wordIndex b = wordIndex addr
      · rw [hin b hb, byte_frame hn ha v _ hb hout, byteAt, hb]
      · rw [byteAt, Function.update_of_ne hb, byteAt]

end Frost32.Isa
