import Mathlib.Data.BitVec
import Mathlib.Data.List.Basic

namespace Frost32.HexImage

/-!
# Address-tagged hexadecimal text

A memory image as text: an address line sets a byte pointer, each pair of hexadecimal digits
is the byte at the pointer, which moves on by one.  Other characters separate.

* `digitValue`, `digitValue_digitChar` — the value of a digit.
* `Reader`, `read`, `readAll` — the reader, character by character.
* `readAll_address`, `readAll_byte` — what it does with an address line and with a byte.
* `placeBytes`, `readAll_bytes` — **bytes are read at consecutive addresses**.
-/

/-! ### Digits -/

def digitValue (c : Char) : Option Nat :=
  if '0' ≤ c ∧ c ≤ '9' then some (c.toNat - 48)
  else if 'a' ≤ c ∧ c ≤ 'f' then some (c.toNat - 87)
  else if 'A' ≤ c ∧ c ≤ 'F' then some (c.toNat - 55)
  else none

theorem digitValue_digitChar {n : Nat} (h : n < 16) : digitValue (Nat.digitChar n) = some n := by
  revert n
  decide

/-- A number is written with its leading digits first. -/
theorem toDigits_cases (n : Nat) :
    (n < 16 ∧ Nat.toDigits 16 n = [Nat.digitChar n]) ∨
    (16 ≤ n ∧ Nat.toDigits 16 n = Nat.toDigits 16 (n / 16) ++ [Nat.digitChar (n % 16)]) := by
  rcases Nat.lt_or_ge n 16 with h | h
  · exact .inl ⟨h, Nat.toDigits_of_lt_base h⟩
  · exact .inr ⟨h, Nat.toDigits_of_base_le (by decide) h⟩

/-! ### The reader -/

/-- What the reader is in the middle of. -/
inductive Reading
  | between
  | half (high : Nat)
  | address (value : Nat)

structure Reader (w : Nat) where
  pointer : BitVec w
  reading : Reading
  image : List (BitVec w × BitVec 8)

variable {w : Nat}

def Reader.read (r : Reader w) (c : Char) : Reader w :=
  match r.reading, digitValue c with
  | .between, some d => { r with reading := .half d }
  | .between, none => if c = '@' then { r with reading := .address 0 } else r
  | .half high, some d =>
    { pointer := r.pointer + 1
      reading := .between
      image := r.image ++ [(r.pointer, BitVec.ofNat 8 (16 * high + d))] }
  | .half _, none => { r with reading := .between }
  | .address n, some d => { r with reading := .address (16 * n + d) }
  | .address n, none => { r with pointer := BitVec.ofNat w n, reading := .between }

def Reader.readAll (r : Reader w) (cs : List Char) : Reader w := cs.foldl read r

/-- The bytes of a text with their addresses, in the order of the text. -/
def image (w : Nat) (cs : List Char) : List (BitVec w × BitVec 8) :=
  (Reader.readAll { pointer := 0, reading := .between, image := [] } cs).image

namespace Reader

theorem readAll_append (r : Reader w) (cs ds : List Char) :
    r.readAll (cs ++ ds) = (r.readAll cs).readAll ds := List.foldl_append ..

/-- The digits of an address. -/
theorem readAll_toDigits (p : BitVec w) (im : List (BitVec w × BitVec 8)) (n : Nat) :
    readAll ⟨p, .address 0, im⟩ (Nat.toDigits 16 n) = ⟨p, .address n, im⟩ := by
  induction n using Nat.strongRecOn with
  | ind n ih =>
    rcases toDigits_cases n with ⟨hn, heq⟩ | ⟨hn, heq⟩
    · rw [heq]
      show read _ _ = _
      unfold read
      simp only [digitValue_digitChar hn, Nat.mul_zero, Nat.zero_add]
    · rw [heq, readAll_append, ih (n / 16) (by omega)]
      show read _ _ = _
      unfold read
      simp only [digitValue_digitChar (Nat.mod_lt n (by decide : 0 < 16)), Nat.div_add_mod]

/-- **An address line sets the pointer.** -/
theorem readAll_address (p : BitVec w) (im : List (BitVec w × BitVec 8)) (n : Nat) :
    readAll ⟨p, .between, im⟩ ('@' :: Nat.toDigits 16 n ++ ['\n']) =
      ⟨BitVec.ofNat w n, .between, im⟩ := by
  have hat : read ⟨p, .between, im⟩ '@' = ⟨p, .address 0, im⟩ := rfl
  show (readAll (read ⟨p, .between, im⟩ '@') (Nat.toDigits 16 n ++ ['\n'])) = _
  rw [hat, readAll_append, readAll_toDigits]
  rfl

/-- **Two digits are the byte at the pointer.** -/
theorem readAll_byte (p : BitVec w) (im : List (BitVec w × BitVec 8)) (b : BitVec 8) :
    readAll ⟨p, .between, im⟩ [Nat.digitChar (b.toNat / 16), Nat.digitChar (b.toNat % 16)] =
      ⟨p + 1, .between, im ++ [(p, b)]⟩ := by
  have hlt : b.toNat < 2 ^ 8 := b.isLt
  have hhigh := digitValue_digitChar (n := b.toNat / 16) (by omega)
  have hlow := digitValue_digitChar (n := b.toNat % 16) (by omega)
  show read (read _ _) _ = _
  unfold read
  simp only [hhigh, hlow, Nat.div_add_mod, BitVec.ofNat_toNat, BitVec.setWidth_eq]

/-- A separator between two bytes. -/
theorem readAll_separator (p : BitVec w) (im : List (BitVec w × BitVec 8)) {c : Char}
    (hdigit : digitValue c = none) (hat : c ≠ '@') :
    readAll ⟨p, .between, im⟩ [c] = ⟨p, .between, im⟩ := by
  show read _ c = _
  unfold read
  simp only [hdigit, if_neg hat]

end Reader

/-! ### Bytes at consecutive addresses -/

/-- Bytes one after the other from an address on. -/
def placeBytes (p : BitVec w) : List (BitVec 8) → List (BitVec w × BitVec 8)
  | [] => []
  | b :: bs => (p, b) :: placeBytes (p + 1) bs

theorem placeBytes_append (p : BitVec w) (bs cs : List (BitVec 8)) :
    placeBytes p (bs ++ cs) =
      placeBytes p bs ++ placeBytes (p + BitVec.ofNat w bs.length) cs := by
  induction bs generalizing p with
  | nil =>
    rw [List.length_nil, BitVec.add_zero]
    rfl
  | cons b bs ih =>
    rw [List.cons_append, placeBytes, placeBytes, ih, List.length_cons, BitVec.add_assoc,
      Nat.add_comm bs.length 1, BitVec.ofNat_add]
    rfl

/-- The address of one of the bytes. -/
theorem exists_mem_placeBytes (p : BitVec w) {bs : List (BitVec 8)} {b : BitVec 8} (h : b ∈ bs) :
    ∃ k < bs.length, (p + BitVec.ofNat w k, b) ∈ placeBytes p bs := by
  induction bs generalizing p with
  | nil => cases h
  | cons c bs ih =>
    rcases List.mem_cons.mp h with rfl | h
    · exact ⟨0, Nat.zero_lt_succ _, by rw [BitVec.add_zero]; exact List.mem_cons_self⟩
    · obtain ⟨k, hk, hmem⟩ := ih (p + 1) h
      refine ⟨k + 1, Nat.succ_lt_succ hk, List.mem_cons_of_mem _ ?_⟩
      rw [Nat.add_comm k 1, BitVec.ofNat_add, ← BitVec.add_assoc]
      exact hmem

/-- **Bytes written with two digits each are read at consecutive addresses.** -/
theorem Reader.readAll_bytes (p : BitVec w) (im : List (BitVec w × BitVec 8))
    (bs : List (BitVec 8)) :
    readAll ⟨p, .between, im⟩ (bs.flatMap fun b =>
        [Nat.digitChar (b.toNat / 16), Nat.digitChar (b.toNat % 16)]) =
      ⟨p + BitVec.ofNat w bs.length, .between, im ++ placeBytes p bs⟩ := by
  induction bs generalizing p im with
  | nil =>
    rw [List.length_nil, BitVec.add_zero, placeBytes, List.append_nil]
    rfl
  | cons b bs ih =>
    rw [List.flatMap_cons, readAll_append, readAll_byte, ih, placeBytes, List.length_cons,
      BitVec.add_assoc, Nat.add_comm bs.length 1, BitVec.ofNat_add, List.append_assoc]
    rfl

end Frost32.HexImage
