import Frost32.Lib.HexImage
import Mathlib.Logic.Function.Basic

namespace Frost32.Readmemh

open HexImage (digitValue digitValue_digitChar toDigits_cases)

/-!
# `$readmemh`

The text format that a Verilog memory array is loaded from: hexadecimal numbers between white
space go to consecutive elements, an address sets the element for the next one.

* `lastAt` — the last of the values given for a key.
* `Loader`, `readmemh` — the reader, character by character: the numbers with the index of
  their element.
* `readAll_address`, `readAll_bytes` — what it does with an address and with a number.
* `load`, `load_apply` — **an element holds the last number read for it**.
-/

/-! ### The last value for a key -/

section LastAt

variable {α β : Type} [DecidableEq α]

def lastAt : List (α × β) → α → Option β
  | [], _ => none
  | x :: xs, a => (lastAt xs a).or (if x.1 = a then some x.2 else none)

theorem mem_of_lastAt {xs : List (α × β)} {a : α} {b : β} (h : lastAt xs a = some b) :
    (a, b) ∈ xs := by
  induction xs with
  | nil => cases h
  | cons x xs ih =>
    rcases Option.or_eq_some_iff.mp h with htail | ⟨-, hhead⟩
    · exact List.mem_cons_of_mem _ (ih htail)
    · by_cases hx : x.1 = a
      · rw [if_pos hx] at hhead
        rw [← hx, ← Option.some.inj hhead]
        exact List.mem_cons_self
      · rw [if_neg hx] at hhead
        cases hhead

theorem exists_lastAt {xs : List (α × β)} {a : α} {b : β} (h : (a, b) ∈ xs) :
    ∃ b', lastAt xs a = some b' := by
  induction xs with
  | nil => cases h
  | cons x xs ih =>
    rw [lastAt]
    rcases List.mem_cons.mp h with hx | hmem
    · cases hlast : lastAt xs a with
      | none => exact ⟨b, by rw [← hx, if_pos rfl]; rfl⟩
      | some b' => exact ⟨b', rfl⟩
    · obtain ⟨b', hlast⟩ := ih hmem
      exact ⟨b', by rw [hlast]; rfl⟩

/-- Where no key is given twice, every value is the last one. -/
theorem lastAt_of_mem {xs : List (α × β)} (hnodup : (xs.map Prod.fst).Nodup) {a : α} {b : β}
    (h : (a, b) ∈ xs) : lastAt xs a = some b := by
  obtain ⟨b', hlast⟩ := exists_lastAt h
  have hsame := List.inj_on_of_nodup_map hnodup h (mem_of_lastAt hlast) rfl
  rw [hlast, (Prod.mk.inj hsame).2]

/-- Keys and values under two maps. -/
theorem lastAt_map {γ δ : Type} [DecidableEq γ] {f : α → γ} (hf : Function.Injective f)
    (g : β → δ) (xs : List (α × β)) (a : α) :
    lastAt (xs.map fun x => (f x.1, g x.2)) (f a) = (lastAt xs a).map g := by
  induction xs with
  | nil => rfl
  | cons x xs ih =>
    rw [List.map_cons, lastAt, lastAt, ih]
    -- the later entries come first
    by_cases hx : x.1 = a
    · rw [if_pos (congrArg f hx), if_pos hx]
      cases lastAt xs a <;> rfl
    · rw [if_neg fun h => hx (hf h), if_neg hx]
      cases lastAt xs a <;> rfl

end LastAt

/-! ### The reader -/

/-- What the reader is in the middle of. -/
inductive Reading
  | between
  | atSign
  | number (value : Nat)
  | address (value : Nat)

structure Loader where
  index : Nat
  reading : Reading
  numbers : List (Nat × Nat)

def isSpace (c : Char) : Bool := c == ' ' || c == '\n' || c == '\t' || c == '\x0c'

namespace Loader

/-- The end of a number or of an address. -/
def finish (r : Loader) : Loader :=
  match r.reading with
  | .number v =>
    { index := r.index + 1, reading := .between, numbers := r.numbers ++ [(r.index, v)] }
  | .address v => { r with index := v, reading := .between }
  | .between | .atSign => r

/-- There are no other characters than digits, white space and `@`. -/
def read (r : Loader) (c : Char) : Option Loader :=
  match r.reading, digitValue c with
  | .between, some d => some { r with reading := .number d }
  | .between, none =>
    if c = '@' then some { r with reading := .atSign } else if isSpace c then some r else none
  | .atSign, some d => some { r with reading := .address d }
  | .atSign, none => none
  | .number v, some d => some { r with reading := .number (16 * v + d) }
  | .address v, some d => some { r with reading := .address (16 * v + d) }
  | .number _, none | .address _, none => if isSpace c then some r.finish else none

def readAll (r : Loader) (cs : List Char) : Option Loader := cs.foldlM read r

end Loader

/-- The numbers of a text with the indices of their elements, in the order of the text. -/
def readmemh (cs : List Char) : Option (List (Nat × Nat)) :=
  (Loader.readAll { index := 0, reading := .between, numbers := [] } cs).map
    fun r => r.finish.numbers

namespace Loader

variable (i : Nat) (nums : List (Nat × Nat))

theorem readAll_append (r : Loader) (cs ds : List Char) :
    r.readAll (cs ++ ds) = r.readAll cs >>= fun r => r.readAll ds := List.foldlM_append

theorem readAll_append_of_eq {r r' : Loader} {cs : List Char} (h : r.readAll cs = some r')
    (ds : List Char) : r.readAll (cs ++ ds) = r'.readAll ds := by
  rw [readAll_append, h]
  rfl

/-- The digits of an address. -/
theorem readAll_toDigits (n : Nat) :
    readAll ⟨i, .atSign, nums⟩ (Nat.toDigits 16 n) = some ⟨i, .address n, nums⟩ := by
  induction n using Nat.strongRecOn with
  | ind n ih =>
    -- the number without its last digit, then the last one
    rcases toDigits_cases n with ⟨hn, heq⟩ | ⟨hn, heq⟩
    · rw [heq]
      simp only [readAll, List.foldlM_cons, List.foldlM_nil, read, digitValue_digitChar hn]
      rfl
    · rw [heq, readAll_append_of_eq (ih (n / 16) (by omega))]
      simp only [readAll, List.foldlM_cons, List.foldlM_nil, read,
        digitValue_digitChar (Nat.mod_lt n (by decide : 0 < 16)), Nat.div_add_mod]
      rfl

/-- **An address line sets the index.** -/
theorem readAll_address (n : Nat) :
    readAll ⟨i, .between, nums⟩ ('@' :: Nat.toDigits 16 n ++ ['\n']) =
      some ⟨n, .between, nums⟩ := by
  have hat : readAll ⟨i, .between, nums⟩ ['@'] = some ⟨i, .atSign, nums⟩ := rfl
  show readAll _ (['@'] ++ Nat.toDigits 16 n ++ ['\n']) = _
  rw [List.append_assoc, readAll_append_of_eq hat, readAll_append_of_eq (readAll_toDigits i nums n)]
  rfl

end Loader

/-- The number that is written as two digits for each byte. -/
def bytesValue (bs : List (BitVec 8)) : Nat := bs.foldl (fun v b => 256 * v + b.toNat) 0

theorem bytesValue_eq_zero {bs : List (BitVec 8)} (h : ∀ b ∈ bs, b = 0) : bytesValue bs = 0 := by
  unfold bytesValue
  induction bs with
  | nil => rfl
  | cons b bs ih =>
    rw [List.foldl_cons, h b List.mem_cons_self]
    exact ih fun c hc => h c (List.mem_cons_of_mem _ hc)

namespace Loader

variable (i : Nat) (nums : List (Nat × Nat))

/-- The digits of further bytes of a number. -/
private theorem readAll_moreBytes (v : Nat) (bs : List (BitVec 8)) :
    readAll ⟨i, .number v, nums⟩ (bs.flatMap fun b =>
        [Nat.digitChar (b.toNat / 16), Nat.digitChar (b.toNat % 16)]) =
      some ⟨i, .number (bs.foldl (fun v b => 256 * v + b.toNat) v), nums⟩ := by
  induction bs generalizing v with
  | nil => rfl
  | cons b bs ih =>
    have hlt : b.toNat < 2 ^ 8 := b.isLt
    have hbyte : readAll ⟨i, .number v, nums⟩
        [Nat.digitChar (b.toNat / 16), Nat.digitChar (b.toNat % 16)] =
          some ⟨i, .number (256 * v + b.toNat), nums⟩ := by
      have hval : 16 * (16 * v + b.toNat / 16) + b.toNat % 16 = 256 * v + b.toNat := by omega
      have hhigh := digitValue_digitChar (n := b.toNat / 16) (by omega)
      have hlow := digitValue_digitChar (n := b.toNat % 16) (by omega)
      simp only [readAll, List.foldlM_cons, List.foldlM_nil, read, hhigh, hlow]
      exact congrArg (fun v => some (Loader.mk i (.number v) nums)) hval
    rw [List.flatMap_cons, readAll_append_of_eq hbyte, ih, List.foldl_cons]

/-- **Two digits for each byte are one number.** -/
theorem readAll_bytes {bs : List (BitVec 8)} (hne : bs ≠ []) :
    readAll ⟨i, .between, nums⟩ (bs.flatMap fun b =>
        [Nat.digitChar (b.toNat / 16), Nat.digitChar (b.toNat % 16)]) =
      some ⟨i, .number (bytesValue bs), nums⟩ := by
  cases bs with
  | nil => exact absurd rfl hne
  | cons b bs =>
    -- a number that starts with zeros is the same one
    have hzero := readAll_moreBytes i nums 0 (b :: bs)
    rw [bytesValue, ← hzero]
    have hlt : b.toNat < 2 ^ 8 := b.isLt
    have hhigh := digitValue_digitChar (n := b.toNat / 16) (by omega)
    simp only [readAll, List.flatMap_cons, List.cons_append, List.foldlM_cons, read, hhigh,
      Nat.mul_zero, Nat.zero_add]

/-- White space after a number. -/
theorem readAll_space (v : Nat) {c : Char} (hc : isSpace c = true) :
    readAll ⟨i, .number v, nums⟩ [c] = some ⟨i + 1, .between, nums ++ [(i, v)]⟩ := by
  have hdigit : digitValue c = none := by
    unfold isSpace at hc
    simp only [Bool.or_eq_true, beq_iff_eq] at hc
    rcases hc with ((rfl | rfl) | rfl) | rfl <;> rfl
  simp only [readAll, List.foldlM_cons, List.foldlM_nil, read, hdigit, hc]
  rfl

end Loader

/-! ### The array -/

section Load

variable {n w : Nat}

/-- The array of `2 ^ n` elements after the numbers have been stored, one after the other; those
    past its last element are dropped. -/
def load (mem : BitVec n → BitVec w) (nums : List (Nat × Nat)) : BitVec n → BitVec w :=
  nums.foldl (fun mem x =>
    if x.1 < 2 ^ n then Function.update mem (BitVec.ofNat n x.1) (BitVec.ofNat w x.2)
    else mem) mem

/-- **An element holds the last number read for it**, and what it held before if there is
    none. -/
theorem load_apply (mem : BitVec n → BitVec w) (nums : List (Nat × Nat)) (i : BitVec n) :
    load mem nums i = ((lastAt nums i.toNat).map (BitVec.ofNat w)).getD (mem i) := by
  induction nums generalizing mem with
  | nil => rfl
  | cons x nums ih =>
    have hstep : load mem (x :: nums) = load (if x.1 < 2 ^ n then
        Function.update mem (BitVec.ofNat n x.1) (BitVec.ofNat w x.2) else mem) nums := rfl
    rw [hstep, ih, lastAt]
    cases hlast : lastAt nums i.toNat with
    | some v => rfl
    | none =>
      show (if x.1 < 2 ^ n then Function.update mem _ _ else mem) i =
        (Option.map _ (if x.1 = i.toNat then some x.2 else none)).getD (mem i)
      have hlt := i.isLt
      -- no later number is for this element
      by_cases hx : x.1 = i.toNat
      · rw [if_pos (by omega), if_pos hx, hx, BitVec.ofNat_toNat, BitVec.setWidth_eq,
          Function.update_self]
        rfl
      · rw [if_neg hx]
        show _ = mem i
        by_cases hin : x.1 < 2 ^ n
        · rw [if_pos hin, Function.update_of_ne]
          intro hi
          rw [hi, BitVec.toNat_ofNat, Nat.mod_eq_of_lt hin] at hx
          exact hx rfl
        · rw [if_neg hin]

end Load

end Frost32.Readmemh
