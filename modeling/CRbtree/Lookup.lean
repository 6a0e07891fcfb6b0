import CRbtree.Searching
import CRbtree.Rules

set_option autoImplicit false

/-!
The search functions of c-rbtree.h, and what they return on a laid out tree.
-/

namespace CRbtree
open RedBlack TaggedPointers PointerGraphs Programs

variable {κ : Type} {w : ℕ}

/-- CRBCompareFunc -/
abbrev CRBCompareFunc (κ : Type) (w : ℕ) := Pointer w → κ → Pointer w → ℤ

/-- The loop of c_rbtree_find_node(), whose body may run so many times. -/
def findNodeLoop (f : CRBCompareFunc κ w) (t : Pointer w) (k : κ) :
    ℕ → Pointer w → Prog w (Pointer w)
  | turns, i =>
    if i.isSome then
      match turns with
      | 0 => crash .endless
      | turns + 1 => do
        if f t k i < 0 then findNodeLoop f t k turns (← loadLeft i)
        else if f t k i > 0 then findNodeLoop f t k turns (← loadRight i)
        else pure i
    else
      pure none

def rbtreeFindNode (turns : ℕ) (f : CRBCompareFunc κ w) (t : Pointer w) (k : κ) :
    Prog w (Pointer w) := do
  cAssert t.isSome
  let i ← loadRoot t
  findNodeLoop f t k turns i

/-- The loop of c_rbtree_find_slot(): returns the slot, if any, and `*p`. -/
def findSlotLoop (f : CRBCompareFunc κ w) (t : Pointer w) (k : κ) :
    ℕ → Slot w → Pointer w → Prog w (Option (Slot w) × Pointer w)
  | turns, i, p => do
    if (← load i).isSome then
      match turns with
      | 0 => crash .endless
      | turns + 1 => do
        let v := f t k (← load i)
        let p ← load i
        if v < 0 then findSlotLoop f t k turns (.left (← deref (← load i))) p
        else if v > 0 then findSlotLoop f t k turns (.right (← deref (← load i))) p
        else pure (none, p)
    else
      pure (some i, p)

def rbtreeFindSlot (turns : ℕ) (f : CRBCompareFunc κ w) (t : Pointer w) (k : κ) :
    Prog w (Option (Slot w) × Pointer w) := do
  cAssert t.isSome
  findSlotLoop f t k turns (.root (← deref t)) none

section Exec

variable {M : Region w} {m : FieldHeap w} {β : Type} {Q : β → FieldHeap w → ℕ → Prop}
  {f : CRBCompareFunc κ w} {t : Pointer w} {k : κ} {s top : Slot w} {ctx : Context (Address w)}
  {T : ColorTree (Address w)} {turns : ℕ}

theorem exec_findNodeLoop {q : Pointer w → Prog w β} (h : TreeAt m s T)
    (hturns : T.height ≤ turns) :
    Exec M (findNodeLoop f t k turns T.root? >>= q) Q m ↔
      Exec M (q (search (fun a => f t k (some a)) ctx T).2.root?) Q m := by
  induction T generalizing turns s ctx with
  | nil => cases turns <;> rfl
  | node c l a r ihl ihr =>
    obtain ⟨-, -, hl, hr⟩ := h
    simp only [ColorTree.height] at hturns
    obtain ⟨turns, rfl⟩ := Nat.exists_eq_add_one_of_ne_zero (show turns ≠ 0 by omega)
    rw [findNodeLoop, ColorTree.root?, if_pos Option.isSome_some, search]
    split
    · rw [bind_assoc]
      refine (exec_loadChild (d := .left)).trans ?_
      rw [show m.load (.child .left a) = l.root? from hl.load]
      exact ihl hl (by omega)
    · split
      · rw [bind_assoc]
        refine (exec_loadChild (d := .right)).trans ?_
        rw [show m.load (.child .right a) = r.root? from hr.load]
        exact ihr hr (by omega)
      · rfl

/-- What a search returns: the hole and its holder, or no slot and the node. -/
def slotOf (top : Slot w) :
    Context (Address w) × ColorTree (Address w) → Option (Slot w) × Pointer w
  | (ctx, .nil) => (some (hole top ctx), (hole top ctx).holder)
  | (_, .node _ _ a _) => (none, some a)

theorem exec_findSlotLoop {q : Option (Slot w) × Pointer w → Prog w β}
    (h : TreeAt m (hole top ctx) T) (hturns : T.height ≤ turns) :
    Exec M (findSlotLoop f t k turns (hole top ctx) (hole top ctx).holder >>= q) Q m ↔
      Exec M (q (slotOf top (search (fun a => f t k (some a)) ctx T))) Q m := by
  have hload := h.load
  induction T generalizing turns ctx with
  | nil =>
    cases turns <;>
    · rw [findSlotLoop, bind_assoc, exec_load, hload, if_neg (by simp [ColorTree.root?])]
      rfl
  | node c l a r ihl ihr =>
    obtain ⟨-, -, hl, hr⟩ := h
    simp only [ColorTree.height] at hturns
    obtain ⟨turns, rfl⟩ := Nat.exists_eq_add_one_of_ne_zero (show turns ≠ 0 by omega)
    rw [findSlotLoop, bind_assoc, exec_load, hload, ColorTree.root?,
      if_pos Option.isSome_some, search]
    simp only [bind_assoc]
    rw [exec_load, exec_load, hload, ColorTree.root?]
    split
    · rw [bind_assoc, exec_load, hload]
      exact @ihl (⟨.left, c, a, r⟩ :: ctx) turns hl (by omega) hl.load
    · split
      · rw [bind_assoc, exec_load, hload]
        exact @ihr (⟨.right, c, a, l⟩ :: ctx) turns hr (by omega) hr.load
      · rfl

end Exec

/-- No place at all: what runs here only reads. -/
def nowhere : Region w := ⟨∅, ∅, ∅, ∅⟩

/-- A program that only reads leaves the words as they are. -/
theorem Exec.reads {α : Type} {p : Prog w α} {Q : α → FieldHeap w → ℕ → Prop} {m : FieldHeap w}
    {h : Heap w} (hp : Exec nowhere p Q m) (hm : Refines m h) :
    ∃ a tr i, run (machine packed) p h = .ok (a, h, tr) ∧ Q a m i := by
  induction p generalizing Q with
  | done a => exact ⟨a, [], 0, rfl, hp⟩
  | step c q ih =>
    obtain ⟨r, m', hc, hg, hq⟩ := hp
    obtain ⟨h', hc', -⟩ := refines_command c m h r m' hm hc
    have hstore : ∀ s v, c ≠ .store s v := by
      rintro s v rfl
      obtain ⟨⟨hedge, hroot⟩, -⟩ := hg
      cases s with
      | left a | right a => exact hedge a rfl
      | root t => exact hroot t rfl
    have hwrite : ∀ n p f, c ≠ .write n p f := by
      rintro n p f rfl
      exact hg
    obtain rfl : m' = m := by
      rcases machine_cases hc with ⟨s, v, rfl, -⟩ | ⟨n, p, x, l, rfl, -⟩ | ⟨-, rfl⟩
      · exact absurd rfl (hstore s v)
      · exact absurd rfl (hwrite n p x)
      · rfl
    obtain rfl : h' = h := by
      rcases machine_cases hc' with ⟨s, v, rfl, -⟩ | ⟨n, p, x, l, rfl, -⟩ | ⟨-, rfl⟩
      · exact absurd rfl (hstore s v)
      · exact absurd rfl (hwrite n p x)
      · rfl
    obtain ⟨a, tr, i, hrun, hQ⟩ := ih r hq
    exact ⟨a, c :: tr, _, by rw [run_step hc', hrun]; rfl, hQ⟩

section Run

variable {m : FieldHeap w} {h : Heap w} (hm : Refines m h) {t : Address w}
  {T : ColorTree (Address w)} (hT : TreeAt m (.root t) T) {turns : ℕ} (hturns : T.height ≤ turns)
include hm hT hturns

theorem run_findNode (f : CRBCompareFunc κ w) (k : κ) :
    ∃ tr, run (machine packed) (rbtreeFindNode turns f (some t) k) h =
      .ok ((search (fun a => f (some t) k (some a)) [] T).2.root?, h, tr) := by
  have he : Exec nowhere (rbtreeFindNode turns f (some t) k)
      (fun a _ _ => a = (search (fun a => f (some t) k (some a)) [] T).2.root?) m := by
    refine (exec_assert Option.isSome_some).mpr (exec_load.mpr (exec_last ?_))
    rw [hT.load]
    exact (exec_findNodeLoop hT hturns).mpr rfl
  obtain ⟨_, tr, -, hrun, rfl⟩ := he.reads hm
  exact ⟨tr, hrun⟩

theorem run_findSlot (f : CRBCompareFunc κ w) (k : κ) :
    ∃ tr, run (machine packed) (rbtreeFindSlot turns f (some t) k) h =
      .ok (slotOf (.root t) (search (fun a => f (some t) k (some a)) [] T), h, tr) := by
  have he : Exec nowhere (rbtreeFindSlot turns f (some t) k)
      (fun a _ _ => a = slotOf (.root t) (search (fun a => f (some t) k (some a)) [] T)) m := by
    refine (exec_assert Option.isSome_some).mpr (exec_last ?_)
    exact (@exec_findSlotLoop _ _ _ _ _ _ _ _ _ (.root t) [] _ _ _ hT hturns).mpr rfl
  obtain ⟨_, tr, -, hrun, rfl⟩ := he.reads hm
  exact ⟨tr, hrun⟩

end Run

end CRbtree
