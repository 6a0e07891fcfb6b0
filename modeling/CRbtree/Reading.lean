import CRbtree.Runs

set_option autoImplicit false

/-!
Programs that only read memory, and what the accessors return on a laid out tree.
-/

namespace CRbtree
open RedBlack TaggedPointers PointerGraphs Programs

variable {w : ℕ} {α : Type}

/-- The command has no effect on memory. -/
def Command.isRead : Command w → Bool
  | .load _ | .raw _ | .flags _ | .parent _ => true
  | .store _ _ | .write _ _ _ | .turn _ | .crash _ => false

/-- The program writes nothing. -/
abbrev ReadOnly (p : Prog w α) : Prop := Inspects (machine packed) p

section ReadOnly

variable {n p : Pointer w} {b : Bool}

theorem readOnly_crash (e : Crash) : ReadOnly (crash e : Prog w α) :=
  ⟨fun _ _ _ h => (by cases h), fun r => r.elim⟩

theorem readOnly_issue {c : Command w} (hc : c.isRead) : ReadOnly (issue c) := by
  refine ⟨fun h r h' hm => ?_, fun r => trivial⟩
  rcases machine_cases hm with ⟨s, v, rfl, -⟩ | ⟨a, p, x, l, rfl, -⟩ | ⟨-, rfl⟩
  · cases hc
  · cases hc
  · rfl

theorem readOnly_deref : ReadOnly (deref n) := by
  cases n with
  | none => exact readOnly_crash _
  | some a => exact .pure

theorem readOnly_loadLeft : ReadOnly (loadLeft n) :=
  readOnly_deref.bind fun _ => readOnly_issue rfl

theorem readOnly_loadRight : ReadOnly (loadRight n) :=
  readOnly_deref.bind fun _ => readOnly_issue rfl

theorem readOnly_loadRoot : ReadOnly (loadRoot n) :=
  readOnly_deref.bind fun _ => readOnly_issue rfl

theorem readOnly_parent : ReadOnly (rbnodeParent n) :=
  readOnly_deref.bind fun _ => readOnly_issue rfl

theorem readOnly_flags : ReadOnly (rbnodeFlags n) :=
  readOnly_deref.bind fun _ => readOnly_issue rfl

theorem readOnly_isRed : ReadOnly (rbnodeIsRed n) := readOnly_flags.bind fun _ => .pure

theorem readOnly_isBlack : ReadOnly (rbnodeIsBlack n) := readOnly_flags.bind fun _ => .pure

theorem readOnly_isLinked : ReadOnly (rbnodeIsLinked n) :=
  .ite (readOnly_parent.bind fun _ => .pure) .pure

theorem readOnly_assert : ReadOnly (cAssert b : Prog w Unit) :=
  .ite .pure (readOnly_crash _)

theorem readOnly_isRightOf : ReadOnly (isRightOf n p) :=
  .ite (readOnly_loadRight.bind fun _ => .pure) .pure

theorem readOnly_unsetOrBlack : ReadOnly (unsetOrBlack n) := .ite .pure readOnly_isBlack

end ReadOnly

/-- How an assertion ends. -/
def check (P : Prop) [Decidable P] : Except Crash Unit := if P then .ok () else .error .assertion

theorem check_true {P : Prop} [Decidable P] (h : P) : check P = .ok () := if_pos h

theorem check_seq {P Q : Prop} [Decidable P] [Decidable Q] :
    (check P >>= fun _ => check Q) = check (P ∧ Q) := by
  by_cases hp : P
  · by_cases hq : Q
    · simp only [check, if_pos hp, if_pos hq, if_pos (And.intro hp hq)]
      rfl
    · simp only [check, if_pos hp, if_neg hq, if_neg (mt And.right hq)]
      rfl
  · simp only [check, if_neg hp, if_neg (mt And.left hp)]
    rfl

theorem check_congr {P Q : Prop} [Decidable P] [Decidable Q] (h : P ↔ Q) : check P = check Q := by
  unfold check
  simp only [h]

section Value

variable {m : FieldHeap w} {h : Heap w} {a : Address w} {s : Slot w} {c : Color}
  {l r T : ColorTree (Address w)}

/-- What a program that only reads finds in the words. -/
abbrev value (h : Heap w) (p : Prog w α) : Except Crash α := observe (machine packed) p h

theorem value_bind {β : Type} {p : Prog w β} {k : β → Prog w α} {x : β} (hp : value h p = .ok x) :
    value h (p >>= k) = value h (k x) := by
  rw [value, observe_bind, ← value, hp]
  rfl

theorem value_check {β : Type} {p : Prog w Unit} {k : Unit → Prog w β} {P : Prop} [Decidable P]
    (hp : value h p = check P) :
    value h (p >>= k) = check P >>= fun _ => value h (k ()) := by
  rw [value, observe_bind, ← value, hp]

theorem value_assert (b : Bool) : value h (cAssert b) = check b := by
  cases b <;> rfl

theorem value_loadLeft : value h (loadLeft (some a)) = .ok (h.load (.left a)) := rfl

theorem value_loadRight : value h (loadRight (some a)) = .ok (h.load (.right a)) := rfl

variable (hm : Refines m h)
include hm

theorem value_parent (hk : m.link a = linkAt s c) :
    value h (rbnodeParent (some a)) = .ok s.holder := by
  have hp := hm.2 a
  rw [hk] at hp
  exact congrArg Except.ok (packs_linkAt hp).1

theorem value_isRed (hk : m.link a = linkAt s c) :
    value h (rbnodeIsRed (some a)) = .ok (decide (c = .red)) := by
  have hp := hm.2 a
  rw [hk] at hp
  exact congrArg Except.ok (packs_linkAt hp).2.2.1

theorem value_isBlack (hk : m.link a = linkAt s c) :
    value h (rbnodeIsBlack (some a)) = .ok (decide (c = .black)) := by
  have hp := hm.2 a
  rw [hk] at hp
  have hred := (packs_linkAt hp).2.2.1
  have hval : value h (rbnodeIsBlack (some a)) = .ok (!isRedOf (h.link a)) := rfl
  rw [hval, hred]
  cases c <;> rfl

theorem value_unsetOrBlack (hT : TreeAt m s T) :
    value h (unsetOrBlack T.root?) = .ok (decide (T.isRed = false)) := by
  cases T with
  | nil => rfl
  | node c l a r =>
    refine (value_isBlack hm hT.2.1).trans ?_
    cases c <;> rfl

theorem value_loadLeft_treeAt (hT : TreeAt m (.left a) l) :
    value h (loadLeft (some a)) = .ok l.root? := by
  rw [value_loadLeft, ← hm.1, hT.load]

theorem value_loadRight_treeAt (hT : TreeAt m (.right a) r) :
    value h (loadRight (some a)) = .ok r.root? := by
  rw [value_loadRight, ← hm.1, hT.load]

end Value

/-- c_rbtree_is_empty() -/
def rbtreeIsEmpty (t : Pointer w) : Prog w Bool := do
  let n ← loadRoot t
  pure n.isNone

section Runs

variable {h₀ h : Heap w} {cs : List (Call w)} {tr : List (Command w)} {S : Sequences w}
  {t : Address w} {l : List (Address w)}

theorem Run.root_cases (hr : Run packed h₀ cs tr h S) (hl : S t = some l) :
    h.load (.root t) = none ∧ l = [] ∨ ∃ n ∈ l, h.load (.root t) = some n := by
  obtain ⟨m, F, -, hm, rfl, hh, -⟩ := hr.holds
  obtain ⟨T, -, rfl, hu⟩ := hh.mem_iff hl
  rw [← hm.1, hu.root?]
  cases T with
  | nil => exact .inl ⟨rfl, rfl⟩
  | node c a n b => exact .inr ⟨n, by simp [ColorTree.inorder], rfl⟩

end Runs

end CRbtree
