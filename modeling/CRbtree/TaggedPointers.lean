import Mathlib.Data.Fintype.Card
import Mathlib.Data.BitVec

set_option autoImplicit false

/-!
Machine words that hold an aligned pointer and two flag bits below it. The word
has `w + 2` bits, so it always has room for the flags.
-/

namespace TaggedPointers

abbrev Word (w : ℕ) := BitVec (w + 2)

/-- The address of a four-byte aligned object, never the null address. -/
structure Address (w : ℕ) where
  word : Word w
  aligned : word &&& 3#(w + 2) = 0#(w + 2)
  nonnull : word ≠ 0#(w + 2)
  deriving DecidableEq

/-- A pointer that may be null. -/
abbrev Pointer (w : ℕ) := Option (Address w)

variable {w : ℕ}

def Pointer.word : Pointer w → Word w
  | none => 0#(w + 2)
  | some a => a.word

theorem Pointer.aligned (p : Pointer w) : p.word &&& 3#(w + 2) = 0#(w + 2) := by
  cases p with
  | none => simp [word]
  | some a => exact a.aligned

theorem mask_clear (x : Word w) : (x &&& ~~~3#(w + 2)) &&& 3#(w + 2) = 0#(w + 2) := by
  rw [BitVec.and_assoc, BitVec.and_comm (~~~3#(w + 2)), BitVec.and_not_self]
  exact BitVec.and_zero

/-- The word with its two flag bits cleared, read as a pointer. -/
def pointerOf (x : Word w) : Pointer w :=
  if h : x &&& ~~~3#(w + 2) = 0#(w + 2) then none
  else some ⟨x &&& ~~~3#(w + 2), mask_clear x, h⟩

/-- A word that only uses the flag bits. -/
def IsFlags (f : Word w) : Prop := f &&& ~~~3#(w + 2) = 0#(w + 2)

instance (f : Word w) : Decidable (IsFlags f) := inferInstanceAs (Decidable (_ = _))

theorem or_flags_and_mask {x f : Word w} (hx : x &&& 3#(w + 2) = 0#(w + 2)) (hf : IsFlags f) :
    (x ||| f) &&& 3#(w + 2) = f := by
  ext i hi
  have h₁ := congrArg (fun y => y.getLsbD i) hx
  have h₂ := congrArg (fun y => y.getLsbD i) hf
  simp [hi] at h₁ h₂ ⊢
  grind

theorem or_flags_clear {x f : Word w} (hx : x &&& 3#(w + 2) = 0#(w + 2)) (hf : IsFlags f) :
    (x ||| f) &&& ~~~3#(w + 2) = x := by
  ext i hi
  have h₁ := congrArg (fun y => y.getLsbD i) hx
  have h₂ := congrArg (fun y => y.getLsbD i) hf
  simp [hi] at h₁ h₂ ⊢
  grind

/-- Or-ing flags into a pointer and reading the pointer back loses nothing. -/
theorem pointerOf_or (p : Pointer w) {f : Word w} (hf : IsFlags f) :
    pointerOf (p.word ||| f) = p := by
  have h := or_flags_clear p.aligned hf
  cases p with
  | none => simp only [pointerOf, h]; simp [Pointer.word]
  | some a =>
    simp only [pointerOf, h]
    simp [Pointer.word, a.nonnull]

theorem isFlags_zero : IsFlags (0#(w + 2)) := by simp [IsFlags]

theorem pointerOf_word (p : Pointer w) : pointerOf p.word = p := by
  simpa using pointerOf_or p isFlags_zero

theorem Address.toNat_mod (a : Address w) : a.word.toNat % 4 = 0 := by
  have h := congrArg BitVec.toNat a.aligned
  have h₄ : 2 ^ 2 ≤ 2 ^ (w + 2) := Nat.pow_le_pow_right (by decide) (by omega)
  have h₃ : 3 % 2 ^ (w + 2) = 2 ^ 2 - 1 := Nat.mod_eq_of_lt (by omega)
  simp only [BitVec.toNat_and, BitVec.toNat_ofNat, h₃, Nat.and_two_pow_sub_one_eq_mod] at h
  simpa using h

/-- Aligned addresses are counted by the bits above the flags. -/
def Address.index (a : Address w) : Fin (2 ^ w) :=
  ⟨a.word.toNat / 4, by
    have h := a.word.isLt
    rw [Nat.pow_add] at h
    omega⟩

theorem Address.index_injective : Function.Injective (Address.index (w := w)) := by
  intro a b h
  have h₁ := a.toNat_mod
  have h₂ := b.toNat_mod
  have h₃ : a.word.toNat / 4 = b.word.toNat / 4 := congrArg Fin.val h
  have h₄ : a.word = b.word := BitVec.eq_of_toNat_eq (by omega)
  cases a
  cases b
  simp_all

theorem Address.index_pos (a : Address w) : 0 < (a.index : ℕ) := by
  have h := a.toNat_mod
  have hne : a.word.toNat ≠ 0 := fun h₀ => a.nonnull (BitVec.eq_of_toNat_eq (by simpa using h₀))
  change 0 < a.word.toNat / 4
  omega

/-- Distinct addresses are fewer than the words of the address space. -/
theorem nodup_length_lt {l : List (Address w)} (h : l.Nodup) : l.length < 2 ^ w := by
  have hpos : 0 < 2 ^ w := Nat.two_pow_pos w
  have hcons : (⟨0, hpos⟩ :: l.map Address.index : List (Fin (2 ^ w))).Nodup := by
    refine List.nodup_cons.mpr ⟨fun hmem => ?_, h.map Address.index_injective⟩
    obtain ⟨a, -, ha⟩ := List.mem_map.mp hmem
    have hne := a.index_pos
    simp [ha] at hne
  have hlen := hcons.length_le_card
  simp at hlen
  omega

end TaggedPointers
