import CRbtree.ColorTrees

set_option autoImplicit false

/-!
The children of the nodes of a coloured tree, and trees in which few nodes have other
children than in another tree.
-/

namespace RedBlack

open ColorTree

variable {α : Type}

/-- The node `a` of the tree has these children. -/
def Family : ColorTree α → α → (Side → Option α) → Prop
  | .nil, _, _ => False
  | .node c l b r, a, k =>
    (a = b ∧ k = fun d => ((ColorTree.node c l b r).child d).root?) ∨ Family l a k ∨ Family r a k

/-- The children that a node has in the first tree it has in the second too, but for the
nodes of the list. -/
def Alike (A : List α) (t u : ColorTree α) : Prop := ∀ a, a ∉ A → ∀ k, Family t a k → Family u a k

/-- The node that a hole hangs from. -/
def owner : Context α → List α
  | [] => []
  | f :: _ => [f.label]

section Families

variable {A B : List α} {t u v : ColorTree α} {ctx : Context α} {a b : α} {k : Side → Option α}

theorem family_join {d : Side} {c : Color} : Family (.join d c t b u) a k ↔
    (a = b ∧ k = fun e => ((ColorTree.join d c t b u).child e).root?) ∨
      Family t a k ∨ Family u a k := by
  cases d with
  | left => rfl
  | right =>
    simp only [ColorTree.join, Family]
    tauto

theorem family_paint {c : Color} : Family (t.paint c) a k ↔ Family t a k := by
  cases t with
  | nil => rfl
  | node c' l b r =>
    have hchild : ∀ d, (ColorTree.node c l b r).child d = (ColorTree.node c' l b r).child d := by
      rintro (- | -) <;> rfl
    simp only [ColorTree.paint, Family, hchild]

theorem exists_family (ha : a ∈ t.inorder) : ∃ k, Family t a k := by
  induction t with
  | nil => cases ha
  | node c l b r hl hr =>
    simp only [inorder, List.mem_append, List.mem_cons] at ha
    rcases ha with ha | rfl | ha
    · obtain ⟨k, hk⟩ := hl ha
      exact ⟨k, .inr (.inl hk)⟩
    · exact ⟨_, .inl ⟨rfl, rfl⟩⟩
    · obtain ⟨k, hk⟩ := hr ha
      exact ⟨k, .inr (.inr hk)⟩

namespace Alike

theorem refl (A : List α) (t : ColorTree α) : Alike A t t := fun _ _ _ => id

theorem mono (h : Alike A t u) (hAB : A ⊆ B) : Alike B t u := fun a ha => h a fun hA => ha (hAB hA)

theorem trans (h : Alike A t u) (h' : Alike A u v) : Alike A t v :=
  fun a ha k hk => h' a ha k (h a ha k hk)

theorem paint (A : List α) (t : ColorTree α) (c : Color) : Alike A t (t.paint c) :=
  fun _ _ _ => family_paint.mpr

/-- Subtrees may be exchanged below a node of the list. -/
theorem join {d : Side} {c c' : Color} {t' u' : ColorTree α} (ht : Alike A t t') (hu : Alike A u u')
    (hb : b ∈ A) : Alike A (.join d c t b u) (.join d c' t' b u') := by
  intro a ha k hk
  have hab : a ≠ b := by
    rintro rfl
    exact ha hb
  simp only [family_join, hab, false_and, false_or] at hk ⊢
  exact hk.imp (ht a ha k) (hu a ha k)

theorem wrap (f : Frame α) (h : Alike A t u) (hr : t.root? = u.root?) :
    Alike A (f.wrap t) (f.wrap u) := by
  intro a ha k hk
  obtain ⟨d, c, b, v⟩ := f
  have hchild : ∀ e,
      ((ColorTree.join d c t b v).child e).root? = ((ColorTree.join d c u b v).child e).root? := by
    intro e
    by_cases he : e = d
    · subst he
      simpa using hr
    · obtain rfl := Side.eq_flip he
      simp
  simp only [Frame.wrap, family_join, hchild] at hk ⊢
  exact hk.imp id (Or.imp (h a ha k) id)

/-- Colours do not count. -/
theorem recolor (A : List α) (d : Side) (c c' : Color) (t : ColorTree α) (b : α) (u : ColorTree α) :
    Alike A (.join d c t b u) (.join d c' t b u) := by
  have h := paint A (.join d c t b u) c'
  rwa [ColorTree.paint_join] at h

theorem paint_sibling (A : List α) (d : Side) (c c' : Color) (t : ColorTree α) (b : α)
    (u : ColorTree α) : Alike A (.join d c t b u) (.join d c t b (u.paint c')) := by
  have h := (paint A u c').wrap ⟨d.flip, c, b, t⟩ (by simp)
  simpa [Frame.wrap, ColorTree.join_flip] using h

theorem fill_of_root (h : Alike A t u) (hr : t.root? = u.root?) :
    Alike A (fill ctx t) (fill ctx u) := by
  induction ctx generalizing t u with
  | nil => exact h
  | cons f ctx ih => exact ih (h.wrap f hr) (by simp [Frame.wrap])

/-- Only the node that the hole hangs from gets another child. -/
theorem fill (h : Alike A t u) : Alike (owner ctx ++ A) (fill ctx t) (fill ctx u) := by
  cases ctx with
  | nil => exact h
  | cons f ctx =>
    have hA : A ⊆ owner (f :: ctx) ++ A := fun a ha => List.mem_append_right _ ha
    have hf : f.label ∈ owner (f :: ctx) ++ A := List.mem_append_left _ (List.mem_singleton_self _)
    have hr : (f.wrap t).root? = (f.wrap u).root? := by simp [Frame.wrap]
    have hwrap : Alike (owner (f :: ctx) ++ A) (f.wrap t) (f.wrap u) :=
      (h.mono hA).join (.refl _ _) hf
    exact hwrap.fill_of_root hr

end Alike

theorem length_owner_le (ctx : Context α) : (owner ctx).length ≤ 1 := by cases ctx <;> simp [owner]

end Families

/-- The second tree has the first one in it, with any colour at its root. -/
inductive Contains (u : ColorTree α) : ColorTree α → Prop
  | here (c : Color) : Contains u (u.paint c)
  | join (d : Side) (c : Color) {t : ColorTree α} (a : α) (v : ColorTree α) (h : Contains u t) :
    Contains u (.join d c t a v)

namespace Contains

variable {t u v : ColorTree α} {ctx : Context α} {f : Frame α} {d : Side} {c : Color} {a : α}

theorem refl (u : ColorTree α) : Contains u u := by
  cases u with
  | nil => exact .here .red
  | node c l a r => exact @here _ (.node c l a r) c

theorem join_flip (h : Contains u v) : Contains u (.join d c t a v) :=
  ColorTree.join_flip d c v t a ▸ h.join d.flip c a t

theorem paint (h : Contains u t) : Contains u (t.paint c) := by
  cases h with
  | here c' => exact ColorTree.paint_paint u c' c ▸ here c
  | join d c' a v h => exact (ColorTree.paint_join d c' _ v a c) ▸ h.join d c a v

theorem child (h : Contains u (t.child d)) : Contains u t := by
  cases t with
  | nil => exact h
  | node c l a r =>
    rw [ColorTree.node_eq_join d]
    exact h.join d c a _

theorem fill (h : Contains u t) : Contains u (fill ctx t) := by
  induction ctx generalizing t with
  | nil => exact h
  | cons f ctx ih => exact ih (h.join f.side f.color f.label f.sibling)

theorem subset (h : Contains u t) (ha : a ∈ u.inorder) : a ∈ t.inorder := by
  induction h with
  | here c => simpa using ha
  | join d c b v h ih => simp [ColorTree.mem_join, ih]

end Contains

theorem contains_sibling {ctx : Context α} {f : Frame α} (hf : f ∈ ctx) (t : ColorTree α) :
    Contains f.sibling (fill ctx t) := by
  induction ctx generalizing t with
  | nil => cases hf
  | cons g ctx ih =>
    rcases List.mem_cons.mp hf with rfl | hf
    · exact (Contains.join_flip (.refl _)).fill
    · exact ih hf _

end RedBlack
