import CRbtree.Balance
import CRbtree.Families

set_option autoImplicit false

/-!
Which nodes of a coloured tree get other children when a node is added or removed, and
which subtrees stay.
-/

namespace CRbtree
open RedBlack

variable {α : Type}

section Insertion

variable {f g : Frame α} {ctx : Context α} {t u : ColorTree α} {n : α}

theorem alike_turned {c : Color} {l r : ColorTree α} :
    Alike [n, f.label, g.label] (g.wrap (f.wrap (.node c l n r))) (turned f g (.node c l n r)) := by
  intro a ha k hk
  simp only [List.mem_cons, List.not_mem_nil, or_false, not_or] at ha
  obtain ⟨hn, hf, hg⟩ := ha
  simp only [turned]
  split
  · simp only [Frame.wrap, family_join, hf, hg, false_and, false_or] at hk ⊢
    tauto
  · rw [ColorTree.node_eq_join g.side] at hk
    simp only [Frame.wrap, family_join, hn, hf, hg, false_and, false_or] at hk ⊢
    tauto

theorem alike_recolored : Alike [] (g.wrap (f.wrap t)) (recolored f g t) := by
  have hinner : Alike [] (g.wrap (f.wrap t)) (g.wrap (.join f.side .black t f.label f.sibling)) :=
    (Alike.recolor _ _ _ _ _ _ _).wrap g (by simp)
  exact (hinner.trans (.recolor _ _ _ .red _ _ _)).trans (.paint_sibling _ _ _ _ _ _ _)

/-- Only the last turn of the loop moves nodes. -/
theorem alike_repaint (ctx : Context α) {t : ColorTree α} (ht : t ≠ .nil) :
    ∃ A : List α, A.length ≤ 4 ∧ Alike A (fill ctx t) (repaint ctx t) := by
  fun_induction repaint ctx t with
  | case1 t => exact ⟨[], by simp, .paint _ _ _⟩
  | case2 f t => exact ⟨[], by simp, .refl _ _⟩
  | case3 f g ctx t hf => exact ⟨[], by simp, .refl _ _⟩
  | case4 f g ctx t hf hu ih =>
    obtain ⟨A, hA, h⟩ := ih (recolored_ne_nil f g t)
    have hroot : (g.wrap (f.wrap t)).root? = (recolored f g t).root? :=
      (ColorTree.root?_join _ _ _ _ _).trans (ColorTree.root?_join _ _ _ _ _).symm
    exact ⟨A, hA, (alike_recolored.fill_of_root hroot |>.mono (by simp)).trans h⟩
  | case5 f g ctx t hf hu =>
    cases t with
    | nil => contradiction
    | node c l n r =>
      refine ⟨owner ctx ++ [n, f.label, g.label], ?_, alike_turned.fill⟩
      have := length_owner_le ctx
      simp only [List.length_append, List.length_cons, List.length_nil]
      omega

/-- Besides the new node, its parent and the nodes of a rotation. -/
theorem alike_insertAt (ctx : Context α) (n : α) :
    ∃ A : List α, A.length ≤ 5 ∧ Alike (n :: A) (fill ctx .nil) (insertAt ctx n) := by
  obtain ⟨A, hA, h⟩ := alike_repaint ctx (t := leaf n) (by simp [leaf])
  have hleaf : Alike (owner ctx ++ []) (fill ctx .nil) (fill ctx (leaf n)) :=
    Alike.fill fun _ _ _ hk => hk.elim
  have := length_owner_le ctx
  refine ⟨owner ctx ++ A, by simp; omega, (hleaf.mono ?_).trans (h.mono ?_)⟩
  · exact fun a ha => by simp_all
  · exact fun a ha => by simp [ha]

theorem contains_turned (ht : t ≠ .nil)
    (h : (∃ d, Contains u (t.child d)) ∨ u = f.sibling ∨ u = g.sibling) :
    Contains u (turned f g t) := by
  cases t with
  | nil => contradiction
  | node c l n r =>
    simp only [turned]
    split
    · rcases h with ⟨d, h⟩ | rfl | rfl
      · exact h.child.join _ _ _ _
      · exact ((Contains.refl _).join _ _ _ _).join_flip
      · exact (Contains.refl _).join_flip.join_flip
    · rcases h with ⟨d, h⟩ | rfl | rfl
      · by_cases hd : d = g.side
        · exact (hd ▸ h).join_flip.join _ _ _ _
        · exact ((Side.eq_flip hd ▸ h).join _ _ _ _).join_flip
      · exact ((Contains.refl _).join _ _ _ _).join _ _ _ _
      · exact (Contains.refl _).join_flip.join_flip

/-- What hangs from the path stays as it is, and so do the subtrees of the defect. -/
theorem contains_repaint (ctx : Context α) {t u : ColorTree α} (ht : t ≠ .nil)
    (h : (∃ d, Contains u (t.child d)) ∨ ∃ f ∈ ctx, u = f.sibling) :
    Contains u (repaint ctx t) := by
  fun_induction repaint ctx t with
  | case1 t =>
    rcases h with ⟨d, h⟩ | ⟨f, hf, -⟩
    · exact h.child.paint
    · cases hf
  | case2 f t =>
    rcases h with ⟨d, h⟩ | ⟨g, hg, rfl⟩
    · exact h.child.join _ _ _ _
    · exact contains_sibling hg t
  | case3 f g ctx t hf =>
    rcases h with ⟨d, h⟩ | ⟨g, hg, rfl⟩
    · exact h.child.fill
    · exact contains_sibling hg t
  | case4 f g ctx t hf hu ih =>
    refine ih (recolored_ne_nil f g t) ?_
    rcases h with ⟨d, h⟩ | ⟨e, he, rfl⟩
    · exact .inl ⟨g.side, by simpa [recolored] using h.child.join _ _ _ _⟩
    · rcases List.mem_cons.mp he with rfl | he
      · exact .inl ⟨g.side, by simpa [recolored] using (Contains.refl _).join_flip⟩
      · rcases List.mem_cons.mp he with rfl | he
        · exact .inl ⟨e.side.flip, by simpa [recolored] using (Contains.refl _).paint⟩
        · exact .inr ⟨e, he, rfl⟩
  | case5 f g ctx t hf hu =>
    rcases h with ⟨d, h⟩ | ⟨e, he, rfl⟩
    · exact (contains_turned ht (.inl ⟨d, h⟩)).fill
    · rcases List.mem_cons.mp he with rfl | he
      · exact (contains_turned ht (.inr (.inl rfl))).fill
      · rcases List.mem_cons.mp he with rfl | he
        · exact (contains_turned ht (.inr (.inr rfl))).fill
        · exact contains_sibling he _

end Insertion

section Removal

variable {ctx : Context α} {d : Side} {c : Color} {t l r : ColorTree α} {p n : α}

theorem alike_levelled (sib : ColorTree α) :
    ∃ A : List α, A.length ≤ 2 ∧ Alike (p :: A) (.join d c t p sib) (levelled d c t p sib) := by
  by_cases hsib : sib = .nil
  · subst hsib
    exact ⟨[], by simp, .recolor _ _ _ _ _ _ _⟩
  obtain ⟨cs, x, s, o, rfl⟩ := ColorTree.exists_join d hsib
  rw [levelled_join]
  split
  · refine ⟨[s], by simp, fun a ha k hk => ?_⟩
    simp only [List.mem_cons, List.not_mem_nil, or_false, not_or] at ha
    simp only [family_join, family_paint, ha, false_and, false_or] at hk ⊢
    tauto
  · split
    case isTrue hx =>
      obtain ⟨cy, b, y, x, rfl⟩ := ColorTree.exists_join d (t := x) (by rintro rfl; cases hx)
      rw [straightened_join, hoisted_join]
      refine ⟨[s, y], by simp, fun a ha k hk => ?_⟩
      simp only [List.mem_cons, List.not_mem_nil, or_false, not_or] at ha
      simp only [ColorTree.paint_join, family_join, family_paint, ha, false_and, false_or] at hk ⊢
      tauto
    · exact ⟨[], by simp, .join (.refl _ _) (.recolor _ _ _ _ _ _ _) (by simp)⟩

theorem alike_rebalanced (f : Frame α) (t : ColorTree α) :
    ∃ A : List α, A.length ≤ 4 ∧ Alike A (f.wrap t) (rebalanced f t) := by
  obtain ⟨d, c, p, sib⟩ := f
  by_cases hsib : sib.isRed = true
  · obtain ⟨cs, x, s, o, rfl⟩ := ColorTree.exists_join d (t := sib) (by rintro rfl; cases hsib)
    obtain rfl : cs = .red := by simpa using hsib
    obtain ⟨A, hA, h⟩ := alike_levelled (d := d) (c := .red) (t := t) (p := p) x
    rw [rebalanced_red]
    have hturn : Alike (s :: p :: A) (Frame.wrap ⟨d, c, p, .join d .red x s o⟩ t)
        (.join d .black (.join d .red t p x) s o) := by
      intro a ha k hk
      simp only [List.mem_cons, not_or] at ha
      simp only [Frame.wrap, family_join, ha, false_and, false_or] at hk ⊢
      tauto
    refine ⟨s :: p :: A, by simp only [List.length_cons]; omega,
      hturn.trans (.join (h.mono ?_) (.refl _ _) (by simp))⟩
    exact fun a ha => List.mem_cons_of_mem _ ha
  · obtain ⟨A, hA, h⟩ := alike_levelled (d := d) (c := c) (t := t) (p := p) sib
    rw [rebalanced_not_red d c t p hsib]
    exact ⟨p :: A, by simp only [List.length_cons]; omega, h⟩

theorem alike_rebalance (ctx : Context α) (t : ColorTree α) :
    ∃ A : List α, A.length ≤ 5 ∧ Alike A (fill ctx t) (rebalance ctx t) := by
  have hflip : ∀ (f : Frame α) (t : ColorTree α) (ctx : Context α),
      Alike [] (fill (f :: ctx) t)
        (fill ctx (.join f.side .black t f.label (f.sibling.paint .red))) := by
    intro f t ctx
    have h : Alike [] (f.wrap t) (.join f.side .black t f.label (f.sibling.paint .red)) :=
      (Alike.recolor _ _ _ _ _ _ _).trans (.paint_sibling _ _ _ _ _ _ _)
    exact h.fill_of_root
      ((ColorTree.root?_join _ _ _ _ _).trans (ColorTree.root?_join _ _ _ _ _).symm)
  fun_induction rebalance ctx t with
  | case1 t => exact ⟨[], by simp, .refl _ _⟩
  | case2 f ctx t hs =>
    obtain ⟨A, hA, h⟩ := alike_rebalanced f t
    have := length_owner_le ctx
    exact ⟨owner ctx ++ A, by simp; omega, h.fill⟩
  | case3 f ctx t hs hf => exact ⟨[], by simp, hflip f t ctx⟩
  | case4 f ctx t hs hf ih =>
    obtain ⟨A, hA, h⟩ := ih
    exact ⟨A, hA, ((hflip f t ctx).mono (by simp)).trans h⟩

theorem alike_close (ctx : Context α) (c : Color) (child : ColorTree α) :
    ∃ A : List α, A.length ≤ 5 ∧ Alike A (fill ctx child) (close ctx c child) := by
  cases child with
  | nil =>
    simp only [close]
    split
    · exact alike_rebalance ctx .nil
    · exact ⟨[], by simp, .refl _ _⟩
  | node e l a r => exact ⟨[], by simp, Alike.fill_of_root (.paint _ _ _) (by simp)⟩

/-- The removed node, the nodes that it and its successor hang from, and its successor. -/
theorem alike_unlinkHole (ctx : Context α) (c : Color) (l : ColorTree α) (n : α) (r : ColorTree α) :
    ∃ A : List α, A.length ≤ 3 ∧ Alike (n :: A) (fill ctx (.node c l n r))
      (fill (unlinkHole ctx (.node c l n r)).1 (unlinkHole ctx (.node c l n r)).2.2) := by
  have howner := length_owner_le ctx
  have honly : ∀ u : ColorTree α, (∀ a k, a ≠ n → Family (.node c l n r) a k → Family u a k) →
      ∃ A : List α, A.length ≤ 3 ∧ Alike (n :: A) (fill ctx (.node c l n r)) (fill ctx u) := by
    intro u hu
    have h : Alike [n] (.node c l n r) u := fun a ha k => hu a k (by simpa using ha)
    exact ⟨owner ctx, by omega, h.fill.mono (by simp)⟩
  cases l with
  | nil =>
    have hright : ∀ a k, a ≠ n → Family (.node c .nil n r) a k → Family r a k :=
      fun a k ha => by simp [Family, ha]
    cases r with
    | nil => exact honly _ hright
    | node cr a' v' b' => exact honly _ hright
  | node cl a v b =>
    cases r with
    | nil => exact honly (.node cl a v b) fun a k ha => by simp [Family, ha]
    | node cr a' v' b' =>
      obtain ⟨path, cs, s, child, heq, hfill, -⟩ := descend_eq [] (t := .node cr a' v' b') (by simp)
      rw [List.append_nil] at heq
      simp only [unlinkHole, heq]
      rw [fill_append]
      have hsub : Alike (owner path ++ [s]) (.node cr a' v' b') (fill path child) := by
        rw [← hfill]
        refine Alike.fill fun e he k hk => ?_
        simpa [Family, show e ≠ s by simpa using he] using hk
      have hjoin : Alike (n :: s :: owner path) (.node c (.node cl a v b) n (.node cr a' v' b'))
          (.node c (.node cl a v b) s (fill path child)) := by
        intro e he k hk
        simp only [List.mem_cons, not_or] at he
        rcases hk with ⟨rfl, -⟩ | hk | hk
        · exact absurd rfl he.1
        · exact .inr (.inl hk)
        · exact .inr (.inr (hsub e (by simp [he]) k hk))
      refine ⟨owner ctx ++ s :: owner path, ?_, hjoin.fill.mono fun e he => ?_⟩
      · have := length_owner_le path
        simp only [List.length_append, List.length_cons]
        omega
      · simp only [List.mem_append, List.mem_cons] at he ⊢
        tauto

theorem alike_unlinkAt (ctx : Context α) (c : Color) (l : ColorTree α) (n : α) (r : ColorTree α) :
    ∃ A : List α, A.length ≤ 8 ∧
      Alike (n :: A) (fill ctx (.node c l n r)) (unlinkAt ctx (.node c l n r)) := by
  obtain ⟨A, hA, h⟩ := alike_unlinkHole ctx c l n r
  obtain ⟨B, hB, h'⟩ := alike_close (unlinkHole ctx (.node c l n r)).1
    (unlinkHole ctx (.node c l n r)).2.1 (unlinkHole ctx (.node c l n r)).2.2
  refine ⟨A ++ B, by simp; omega, (h.mono ?_).trans (h'.mono ?_)⟩
  · exact fun a ha => by simp_all; tauto
  · exact fun a ha => by simp [ha]

end Removal

end CRbtree
