import CRbtree.ColorTrees
import Mathlib.Data.Finset.Card
import Mathlib.Logic.Function.Basic

set_option autoImplicit false

/-!
Graphs of left, right and root pointers, and the finite trees they unfold to. An
unfolding may meet a node twice; it exists exactly where following pointers ends.
-/

namespace PointerGraphs
open RedBlack

/-- The places that hold a pointer: both child fields of a node, and a root. -/
inductive Slot (α τ : Type) where
  | left (a : α)
  | right (a : α)
  | root (t : τ)
  deriving DecidableEq, Repr

variable {α τ : Type}

def Slot.child (d : Side) (a : α) : Slot α τ :=
  match d with
  | .left => .left a
  | .right => .right a

/-- The node a slot is a field of. -/
def Slot.holder : Slot α τ → Option α
  | .left a | .right a => some a
  | .root _ => none

@[simp] theorem Slot.holder_child (d : Side) (a : α) :
    (Slot.child d a : Slot α τ).holder = some a := by cases d <;> rfl

@[simp] theorem Slot.child_inj {d e : Side} {a b : α} :
    (Slot.child d a : Slot α τ) = Slot.child e b ↔ d = e ∧ a = b := by
  cases d <;> cases e <;> simp [child]

@[simp] theorem Slot.child_ne_root (d : Side) (a : α) (t : τ) :
    (Slot.child d a : Slot α τ) ≠ .root t := by cases d <;> simp [child]

@[simp] theorem Slot.root_ne_child (d : Side) (a : α) (t : τ) :
    (Slot.root t : Slot α τ) ≠ .child d a := by cases d <;> simp [child]

abbrev Graph (α τ : Type) := Slot α τ → Option α

/-- Following pointers from `p` ends on every path, and meets exactly the nodes of `t`. -/
def Unfolds (g : Graph α τ) : Option α → ColorTree α → Prop
  | p, .nil => p = none
  | p, .node _ l a r => p = some a ∧ Unfolds g (g (.left a)) l ∧ Unfolds g (g (.right a)) r

theorem Unfolds.root? {g : Graph α τ} {p : Option α} {t : ColorTree α} (h : Unfolds g p t) :
    p = t.root? := by
  cases t with
  | nil => exact h
  | node c l a r => exact h.1

theorem unfolds_join {g : Graph α τ} {p : Option α} {d : Side} {c : Color} {t u : ColorTree α}
    {a : α} : Unfolds g p (.join d c t a u) ↔
      p = some a ∧ Unfolds g (g (.child d a)) t ∧ Unfolds g (g (.child d.flip a)) u := by
  cases d with
  | left => rfl
  | right => simp only [ColorTree.join, Unfolds, Slot.child, Side.flip]; tauto

/-- Where a path of child pointers leads. -/
def follow (g : Graph α τ) : Option α → List Side → Option α
  | p, [] => p
  | none, _ :: _ => none
  | some a, d :: ds => follow g (g (.child d a)) ds

theorem Unfolds.follow {g : Graph α τ} {p : Option α} {t : ColorTree α} (h : Unfolds g p t)
    (ds : List Side) : follow g p ds = (t.sub ds).root? := by
  induction ds generalizing p t with
  | nil =>
    rw [h.root?]
    cases t <;> rfl
  | cons d ds ih =>
    cases t with
    | nil =>
      obtain rfl : p = none := h
      rw [ColorTree.sub_nil]
      rfl
    | node c l a r =>
      obtain ⟨rfl, hl, hr⟩ := h
      cases d with
      | left => exact ih hl
      | right => exact ih hr

theorem Unfolds.sub {g : Graph α τ} {p : Option α} {t : ColorTree α} (h : Unfolds g p t)
    (ds : List Side) : Unfolds g (PointerGraphs.follow g p ds) (t.sub ds) := by
  induction ds generalizing p t with
  | nil => cases p <;> exact h
  | cons d ds ih =>
    cases t with
    | nil =>
      obtain rfl : p = none := h
      rw [ColorTree.sub_nil]
      rfl
    | node c l a r =>
      obtain ⟨rfl, hl, hr⟩ := h
      cases d with
      | left => exact ih hl
      | right => exact ih hr

/-- What a pointer unfolds to is determined but for the colours. -/
theorem Unfolds.size_eq {g : Graph α τ} {p : Option α} {t t' : ColorTree α} (h : Unfolds g p t)
    (h' : Unfolds g p t') : t.size = t'.size := by
  induction t generalizing p t' with
  | nil =>
    obtain rfl : p = none := h
    cases t' with
    | nil => rfl
    | node c l a r => cases h'.1
  | node c l a r ihl ihr =>
    obtain ⟨rfl, hl, hr⟩ := h
    cases t' with
    | nil => cases h'
    | node c' l' a' r' =>
      obtain ⟨ha, hl', hr'⟩ := h'
      cases ha
      rw [ColorTree.size, ColorTree.size, ihl hl hl', ihr hr hr']

/-- A finite unfolding has no path from a node back to it. -/
theorem Unfolds.follow_ne {g : Graph α τ} {a : α} {t : ColorTree α} (h : Unfolds g (some a) t)
    (d : Side) (ds : List Side) : PointerGraphs.follow g (some a) (d :: ds) ≠ some a := by
  intro hback
  have hsub := h.sub (d :: ds)
  rw [hback] at hsub
  have hne : t ≠ .nil := by
    rintro rfl
    cases h
  exact absurd (h.size_eq hsub)
    ((ColorTree.size_sub_le _ ds).trans_lt (ColorTree.size_child_lt hne d)).ne'

/-- The number of nodes on the longest path down from `p`. -/
structure IsHeight (g : Graph α τ) (p : Option α) (k : ℕ) : Prop where
  bound : ∀ ds, follow g p ds ≠ none → ds.length < k
  path : 0 < k → ∃ ds, ds.length + 1 = k ∧ follow g p ds ≠ none

theorem IsHeight.unique {g : Graph α τ} {p : Option α} {k k' : ℕ} (h : IsHeight g p k)
    (h' : IsHeight g p k') : k = k' := by
  have hle : ∀ {k k' : ℕ}, IsHeight g p k → IsHeight g p k' → k ≤ k' := by
    intro k k' h h'
    rcases Nat.eq_zero_or_pos k with rfl | hk
    · exact Nat.zero_le k'
    · obtain ⟨ds, rfl, hds⟩ := h.path hk
      exact h'.bound ds hds
  exact Nat.le_antisymm (hle h h') (hle h' h)

theorem Unfolds.isHeight {g : Graph α τ} {p : Option α} {t : ColorTree α} (h : Unfolds g p t) :
    IsHeight g p t.height := by
  constructor
  · intro ds hds
    rw [h.follow] at hds
    exact ColorTree.length_lt_height (mt ColorTree.root?_eq_none.mpr hds)
  · intro hk
    obtain ⟨ds, hds, hne⟩ :=
      ColorTree.exists_path (t := t) (by rintro rfl; simp [ColorTree.height] at hk)
    exact ⟨ds, hds, by rw [h.follow]; exact mt ColorTree.root?_eq_none.mp hne⟩

/-- Child pointers lead from `p` to `a`. -/
def Reachable (g : Graph α τ) (p : Option α) (a : α) : Prop := ∃ ds, follow g p ds = some a

/-- Child pointers lead from `p` to no node that they lead back to. -/
def Loopless (g : Graph α τ) (p : Option α) : Prop :=
  ∀ a, Reachable g p a → ∀ d ds, follow g (some a) (d :: ds) ≠ some a

theorem Unfolds.reachable_iff {g : Graph α τ} {p : Option α} {t : ColorTree α} (h : Unfolds g p t)
    {a : α} : Reachable g p a ↔ a ∈ t.inorder := by
  simp only [Reachable, h.follow]
  exact ColorTree.mem_iff_exists_sub.symm

theorem Unfolds.loopless {g : Graph α τ} {p : Option α} {t : ColorTree α} (h : Unfolds g p t) :
    Loopless g p := by
  rintro a ⟨ds, hds⟩
  have hsub := h.sub ds
  rw [hds] at hsub
  exact hsub.follow_ne

/-- The nodes that a pointer leads to, in order. -/
inductive InOrder (g : Graph α τ) : Option α → List α → Prop
  | null : InOrder g none []
  | node {a : α} {l r : List α} (hl : InOrder g (g (.left a)) l) (hr : InOrder g (g (.right a)) r) :
    InOrder g (some a) (l ++ a :: r)

theorem Unfolds.inOrder {g : Graph α τ} {p : Option α} {t : ColorTree α} (h : Unfolds g p t) :
    InOrder g p t.inorder := by
  induction t generalizing p with
  | nil =>
    obtain rfl : p = none := h
    exact .null
  | node c l a r ihl ihr =>
    obtain ⟨rfl, hl, hr⟩ := h
    exact .node (ihl hl) (ihr hr)

/-- No path down is longer than there are nodes. -/
theorem Unfolds.height_le [DecidableEq α] {g : Graph α τ} {p : Option α} {t : ColorTree α}
    {A : Finset α} (h : Unfolds g p t) (hA : ∀ a ∈ t.inorder, a ∈ A) : t.height ≤ A.card := by
  induction t generalizing p A with
  | nil => exact Nat.zero_le _
  | node c l a r ihl ihr =>
    have hchild : ∀ d, ∀ b ∈ ((ColorTree.node c l a r).child d).inorder, b ∈ A.erase a := by
      intro d b hb
      refine Finset.mem_erase.mpr ⟨?_, hA b (ColorTree.mem_of_mem_child hb)⟩
      rintro rfl
      obtain ⟨ds, hds⟩ := ColorTree.mem_iff_exists_sub.mp hb
      obtain rfl := h.1
      exact h.follow_ne d ds (by rw [h.follow]; exact hds)
    have hcard := Finset.card_erase_add_one (hA a (by simp [ColorTree.inorder]))
    have hl := ihl h.2.1 (hchild .left)
    have hr := ihr h.2.2 (hchild .right)
    simp only [ColorTree.height]
    omega

/-- Stores to slots of nodes outside a tree do not touch what unfolds to it. -/
theorem unfolds_congr {g g' : Graph α τ} {p : Option α} {t : ColorTree α}
    (h : ∀ a ∈ t.inorder, g' (.left a) = g (.left a) ∧ g' (.right a) = g (.right a)) :
    Unfolds g' p t ↔ Unfolds g p t := by
  induction t generalizing p with
  | nil => rfl
  | node c l a r hl hr =>
    obtain ⟨h₁, h₂⟩ := h a (by simp [ColorTree.inorder])
    simp only [Unfolds, h₁, h₂, hl (fun b hb => h b (by simp [ColorTree.inorder, hb])),
      hr (fun b hb => h b (by simp [ColorTree.inorder, hb]))]

/-- The slot is not a field of a node of the tree. -/
def Slot.Off (s : Slot α τ) (t : ColorTree α) : Prop := ∀ a ∈ s.holder, a ∉ t.inorder

@[simp] theorem Slot.off_child {d : Side} {a : α} {t : ColorTree α} :
    (Slot.child d a : Slot α τ).Off t ↔ a ∉ t.inorder := by
  simp [Off]

@[simp] theorem Slot.off_root {r : τ} {t : ColorTree α} : (Slot.root r : Slot α τ).Off t := by
  simp [Off, holder]

variable [DecidableEq α] [DecidableEq τ]

theorem unfolds_update {g : Graph α τ} {s : Slot α τ} {v p : Option α} {t : ColorTree α}
    (h : s.Off t) : Unfolds (Function.update g s v) p t ↔ Unfolds g p t := by
  apply unfolds_congr
  intro a ha
  constructor
  · refine Function.update_of_ne (fun hs => ?_) _ _
    exact h a (by simp [← hs, Slot.holder]) ha
  · refine Function.update_of_ne (fun hs => ?_) _ _
    exact h a (by simp [← hs, Slot.holder]) ha

/-- A store of a pointer whose unfolding does not meet the written node: what unfolded
before still does. -/
theorem Unfolds.update {g : Graph α τ} {s : Slot α τ} {v p : Option α} {t u : ColorTree α}
    (h : Unfolds g p t) (hv : Unfolds g v u) (hs : s.Off u) :
    ∃ t', Unfolds (Function.update g s v) p t' ∧
      ∀ a ∈ t'.inorder, a ∈ t.inorder ∨ a ∈ u.inorder := by
  have hslot : ∀ s' t, Unfolds (Function.update g s v) (g s') t → ∃ t',
      Unfolds (Function.update g s v) (Function.update g s v s') t' ∧
        ∀ a ∈ t'.inorder, a ∈ t.inorder ∨ a ∈ u.inorder := by
    intro s' t ht
    by_cases hss : s' = s
    · rw [hss, Function.update_self]
      exact ⟨u, (unfolds_update hs).mpr hv, fun a ha => .inr ha⟩
    · rw [Function.update_of_ne hss]
      exact ⟨t, ht, fun a ha => .inl ha⟩
  induction t generalizing p with
  | nil => exact ⟨.nil, h, by simp [ColorTree.inorder]⟩
  | node c l a r ihl ihr =>
    obtain ⟨rfl, hl, hr⟩ := h
    obtain ⟨l₁, hl₁, hml₁⟩ := ihl hl
    obtain ⟨r₁, hr₁, hmr₁⟩ := ihr hr
    obtain ⟨l₂, hl₂, hml₂⟩ := hslot (.left a) l₁ hl₁
    obtain ⟨r₂, hr₂, hmr₂⟩ := hslot (.right a) r₁ hr₁
    refine ⟨.node c l₂ a r₂, ⟨rfl, hl₂, hr₂⟩, fun b hb => ?_⟩
    have hbl := hml₂ b
    have hbl' := hml₁ b
    have hbr := hmr₂ b
    have hbr' := hmr₁ b
    simp only [ColorTree.inorder, List.mem_append, List.mem_cons] at hb ⊢
    grind

/-- Following pointers from `p` ends on every path, and meets only nodes of `A`. -/
def EndsIn (g : Graph α τ) (A : Set α) (p : Option α) : Prop :=
  ∃ t, Unfolds g p t ∧ ∀ a ∈ t.inorder, a ∈ A

namespace EndsIn

omit [DecidableEq α] [DecidableEq τ]

variable {g : Graph α τ} {A B : Set α} {p : Option α}

theorem null (g : Graph α τ) (A : Set α) : EndsIn g A none :=
  ⟨.nil, rfl, by simp [ColorTree.inorder]⟩

theorem mono (h : EndsIn g A p) (hAB : A ⊆ B) : EndsIn g B p := by
  obtain ⟨t, ht, hA⟩ := h
  exact ⟨t, ht, fun a ha => hAB (hA a ha)⟩

theorem loopless (h : EndsIn g A p) : Loopless g p := by
  obtain ⟨t, ht, -⟩ := h
  exact ht.loopless

theorem mem (h : EndsIn g A p) {a : α} (ha : Reachable g p a) : a ∈ A := by
  obtain ⟨t, ht, hA⟩ := h
  exact hA a (ht.reachable_iff.mp ha)

end EndsIn

/-- What it takes to turn the edge from `q` down to `r`: the subtree `b` between the two
goes to `q`, and `q` goes below `r`. -/
structure Turnable (g : Graph α τ) (d : Side) (q r : α) (a b u : ColorTree α) : Prop where
  outer : Unfolds g (g (.child d r)) a
  inner : Unfolds g b.root? b
  other : Unfolds g (g (.child d.flip q)) u
  nodup : (ColorTree.join d .black (.join d .black a r b) q u).inorder.Nodup

namespace Turnable

variable {g : Graph α τ} {d : Side} {q r : α} {a b u : ColorTree α}

theorem lower (h : Turnable g d q r a b u) (c : Color) :
    Unfolds (Function.update g (.child d q) b.root?) (some q) (.join d c b q u) := by
  obtain ⟨-, hb, hu, hnd⟩ := h
  simp only [ColorTree.nodup_join, ColorTree.mem_join, not_or] at hnd
  obtain ⟨⟨-, -, hqb⟩, hqu, -⟩ := hnd
  refine unfolds_join.mpr ⟨rfl, ?_, ?_⟩
  · rw [Function.update_self]
    exact (unfolds_update (by simpa using hqb)).mpr hb
  · rw [Function.update_of_ne (by simp)]
    exact (unfolds_update (by simpa using hqu)).mpr hu

theorem upper (h : Turnable g d q r a b u) (c c' : Color) :
    Unfolds (Function.update (Function.update g (.child d q) b.root?) (.child d.flip r) (some q))
      (some r) (.join d c a r (.join d c' b q u)) := by
  have hlow := h.lower c'
  obtain ⟨ha, -, -, hnd⟩ := h
  simp only [ColorTree.nodup_join, ColorTree.mem_join, not_or,
    ColorTree.disjoint_join_left] at hnd
  obtain ⟨⟨hqr, hqa, -⟩, -, ⟨hra, hrb, -⟩, -, hru, -⟩ := hnd
  refine unfolds_join.mpr ⟨rfl, ?_, ?_⟩
  · rw [Function.update_of_ne (by simp), Function.update_of_ne (by simp [Ne.symm hqr])]
    refine (unfolds_update (by simpa using hra)).mpr ?_
    exact (unfolds_update (by simpa using hqa)).mpr ha
  · rw [Function.update_self]
    refine (unfolds_update ?_).mpr hlow
    simpa [ColorTree.mem_join] using ⟨Ne.symm hqr, hrb, hru⟩

end Turnable

end PointerGraphs
