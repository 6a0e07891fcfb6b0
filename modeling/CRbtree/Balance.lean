import CRbtree.Repairs

set_option autoImplicit false

/-!
The repairs end with a red-black tree, and move no node past another one.
-/

namespace CRbtree
open RedBlack

variable {α : Type}

@[simp] theorem balanced_paint (c : Color) (t : ColorTree α) :
    (t.paint c).Balanced ↔ t.Balanced := by
  cases t <;> rfl

theorem blackHeight_paint_black {t : ColorTree α} (h : t.isRed = true) :
    (t.paint .black).blackHeight = t.blackHeight + 1 := by
  cases t with
  | nil => cases h
  | node c l a r =>
    obtain rfl : c = .red := by simpa using h
    rfl

namespace RedDefect

variable {f g : Frame α} {ctx : Context α} {t : ColorTree α}

theorem sound_below_black (h : RedDefect (f :: ctx) t) (hb : (fill (f :: ctx) t).Balanced)
    (hf : f.color = .black) : (fill (f :: ctx) t).IsRedBlack := by
  obtain ⟨-, ht, hctx, htop⟩ := h
  refine isRedBlack_fill.mpr ⟨?_, ⟨ht, ?_⟩, balanced_fill.mp hb⟩
  · rw [topRed_cons _ _ _ false]
    exact htop
  · exact ⟨fun hr => by simp [hf] at hr, hctx.2⟩

theorem balanced_recolored (h : RedDefect (f :: g :: ctx) t) (hf : f.color = .red)
    (hu : g.sibling.isRed = true) (hb : (fill (f :: g :: ctx) t).Balanced) :
    (fill ctx (recolored f g t)).Balanced := by
  have hg := h.grandparent hf
  obtain ⟨ht, ⟨hs, hsl, hub, hul, hctx⟩⟩ := balanced_fill.mp hb
  simp only [hf, hg, Color.weight, Nat.add_zero] at hul hctx
  have hup := blackHeight_paint_black hu
  have hp : (ColorTree.join f.side .black t f.label f.sibling).blackHeight = t.blackHeight + 1 :=
    ColorTree.blackHeight_join _ _ _ _ _ hsl.symm
  refine balanced_fill.mpr ⟨?_, ?_⟩
  · simp only [recolored, ColorTree.balanced_join, balanced_paint, hp, hup]
    exact ⟨⟨ht, hs, hsl.symm⟩, hub, by omega⟩
  · rw [recolored, ColorTree.blackHeight_join _ _ _ _ _ (by rw [hp, hup]; omega), hp]
    exact hctx

theorem sound_turned (h : RedDefect (f :: g :: ctx) t) (hf : f.color = .red)
    (hu : g.sibling.isRed = false) (hb : (fill (f :: g :: ctx) t).Balanced) :
    (fill ctx (turned f g t)).IsRedBlack := by
  have hg := h.grandparent hf
  have hne := h.ne_nil
  obtain ⟨ht, hsb, hsl, hub, hul, hlev⟩ := balanced_fill.mp hb
  obtain ⟨hr, htn, ⟨hs, hsn, -, hun, halt⟩, htop⟩ := h
  simp only [hf, hg, Color.weight, Nat.add_zero] at hul hlev
  have hsr := (hs hf).2
  obtain ⟨d, cf, p, a⟩ := f
  obtain ⟨e, cg, q, u⟩ := g
  simp only at hf hg hsb hsl hub hul hsr hsn hun hu
  subst hf hg
  suffices hs : (turned ⟨d, .red, p, a⟩ ⟨e, .black, q, u⟩ t).isRed = false ∧
      (turned ⟨d, .red, p, a⟩ ⟨e, .black, q, u⟩ t).NoRedRed ∧
      (turned ⟨d, .red, p, a⟩ ⟨e, .black, q, u⟩ t).Balanced ∧
      (turned ⟨d, .red, p, a⟩ ⟨e, .black, q, u⟩ t).blackHeight = t.blackHeight + 1 by
    obtain ⟨hr', hn', hb', hh'⟩ := hs
    refine isRedBlack_fill.mpr ⟨?_, ⟨hn', ?_⟩, hb', ?_⟩
    · simpa [hr', topRed] using htop
    · simpa [hr'] using halt
    · rwa [hh']
  by_cases hed : d = e
  · subst hed
    rw [turned_straight d .black p q hne]
    have hq : (ColorTree.join d .red a q u).blackHeight = t.blackHeight := by
      rw [ColorTree.blackHeight_join _ _ _ _ _ (by omega), hsl]
      rfl
    refine ⟨by simp, by simp [htn, hsr, hu, hsn, hun], ?_, ?_⟩
    · simp only [ColorTree.balanced_join, hq]
      exact ⟨ht, ⟨hsb, hub, by omega⟩, trivial⟩
    · rw [ColorTree.blackHeight_join _ _ _ _ _ hq.symm]
      rfl
  · obtain rfl := Side.eq_flip hed
    obtain ⟨c, b, n, b', rfl⟩ := ColorTree.exists_join e hne
    obtain rfl : c = .red := by simpa using hr
    simp only [ColorTree.balanced_join, ColorTree.noRedRed_join] at ht htn
    obtain ⟨hbb, hbb', hbl⟩ := ht
    obtain ⟨hrr, hbn, hbn'⟩ := htn
    obtain ⟨hbr, hbr'⟩ := hrr trivial
    have htl : (ColorTree.join e .red b n b').blackHeight = b.blackHeight :=
      ColorTree.blackHeight_join _ _ _ _ _ hbl
    rw [htl] at hsl hul
    have hp : (ColorTree.join e .red a p b).blackHeight = b.blackHeight := by
      rw [ColorTree.blackHeight_join _ _ _ _ _ hsl, hsl]
      rfl
    have hq : (ColorTree.join e .red b' q u).blackHeight = b.blackHeight := by
      rw [ColorTree.blackHeight_join _ _ _ _ _ (by omega), hbl]
      rfl
    rw [turned_bent, htl]
    refine ⟨by simp, by simp [hsr, hbr, hbr', hu, hsn, hbn, hbn', hun], ?_, ?_⟩
    · simp only [ColorTree.balanced_join, hp, hq]
      exact ⟨⟨hsb, hbb, hsl⟩, ⟨hbb', hub, by omega⟩, trivial⟩
    · rw [ColorTree.blackHeight_join _ _ _ _ _ (by rw [hp, hq]), hp]
      rfl

end RedDefect

theorem isRedBlack_repaint (ctx : Context α) {t : ColorTree α} (h : RedDefect ctx t)
    (hb : (fill ctx t).Balanced) : (repaint ctx t).IsRedBlack := by
  fun_induction repaint ctx t with
  | case1 t =>
    exact ⟨ColorTree.isRed_paint_black t, ColorTree.noRedRed_paint_black h.below,
      (balanced_paint _ _).mpr hb⟩
  | case2 f t =>
    have hf : f.color = .black := by simpa [topRed] using h.top
    exact h.sound_below_black hb hf
  | case3 f g ctx t hf => exact h.sound_below_black hb hf
  | case4 f g ctx t hf hu ih =>
    have hf' := Color.not_black.mp hf
    exact ih (h.recolor hf') (h.balanced_recolored hf' hu hb)
  | case5 f g ctx t hf hu =>
    exact h.sound_turned (Color.not_black.mp hf) (by simpa using hu) hb

theorem isRedBlack_insertAt {ctx : Context α} (h : (fill ctx .nil).IsRedBlack) (n : α) :
    (insertAt ctx n).IsRedBlack := by
  refine isRedBlack_repaint ctx (RedDefect.leaf h n) (balanced_fill.mpr ⟨?_, ?_⟩)
  · exact ⟨trivial, trivial, rfl⟩
  · exact (isRedBlack_fill.mp h).2.2.2

theorem inorder_insertAt (ctx : Context α) (n : α) :
    (insertAt ctx n).inorder = before ctx ++ n :: after ctx := by
  rw [insertAt, inorder_repaint ctx (by simp [leaf]), inorder_fill]
  simp [leaf, ColorTree.inorder]

section Levelled

variable {d : Side} {c : Color} {t sib : ColorTree α} {p : α}

theorem inorder_straightened (d : Side) (sib : ColorTree α) :
    (straightened d sib).inorder = sib.inorder := by
  by_cases hs : sib = .nil
  · subst hs
    cases d <;> rfl
  · obtain ⟨cs, x, s, o, rfl⟩ := ColorTree.exists_join d hs
    by_cases hx : x = .nil
    · subst hx
      cases d <;> rfl
    · obtain ⟨cy, b, y, b', rfl⟩ := ColorTree.exists_join d hx
      rw [straightened_join]
      cases d <;> simp [ColorTree.join, ColorTree.inorder]

theorem inorder_hoisted (hs : sib ≠ .nil) :
    (hoisted d c t p sib).inorder = (ColorTree.join d c t p sib).inorder := by
  obtain ⟨cs, x, s, o, rfl⟩ := ColorTree.exists_join d hs
  rw [hoisted_join]
  cases d <;> simp [ColorTree.join, ColorTree.inorder]

theorem straightened_ne_nil (hs : sib ≠ .nil) : straightened d sib ≠ .nil := by
  intro h
  have hin := inorder_straightened d sib
  rw [h] at hin
  cases sib with
  | nil => contradiction
  | node cs l s r => simp [ColorTree.inorder] at hin

theorem inorder_levelled (hs : sib ≠ .nil) :
    (levelled d c t p sib).inorder = (ColorTree.join d c t p sib).inorder := by
  unfold levelled
  split
  · exact inorder_hoisted hs
  · split
    · rw [inorder_hoisted (straightened_ne_nil hs)]
      cases d <;> simp [ColorTree.join, ColorTree.inorder, inorder_straightened]
    · cases d <;> simp [ColorTree.join, ColorTree.inorder]

/-- The light subtree and its black sibling end up at the same level. -/
theorem levelled_sound {x o : ColorTree α} {s : α} (htn : t.NoRedRed) (htb : t.Balanced)
    (hn : (ColorTree.join d .black x s o).NoRedRed)
    (hb : (ColorTree.join d .black x s o).Balanced)
    (hl : (ColorTree.join d .black x s o).blackHeight = t.blackHeight + 1)
    (hc : c = .red ∨ x.isRed = true ∨ o.isRed = true) :
    (levelled d c t p (.join d .black x s o)).NoRedRed ∧
      (levelled d c t p (.join d .black x s o)).Balanced ∧
      (levelled d c t p (.join d .black x s o)).blackHeight = t.blackHeight + 1 + c.weight ∧
      ((levelled d c t p (.join d .black x s o)).isRed = true → c = .red) := by
  simp only [ColorTree.noRedRed_join, ColorTree.balanced_join] at hn hb
  obtain ⟨-, hxn, hon⟩ := hn
  obtain ⟨hxb, hob, hxo⟩ := hb
  rw [ColorTree.blackHeight_join _ _ _ _ _ hxo] at hl
  simp only [Color.weight, Nat.add_right_cancel_iff] at hl
  rw [levelled_join]
  by_cases ho : o.isRed = true
  · have hol := blackHeight_paint_black ho
    have hpl : (ColorTree.join d .black t p x).blackHeight = t.blackHeight + 1 :=
      ColorTree.blackHeight_join _ _ _ _ _ hl.symm
    rw [if_pos ho]
    refine ⟨by simp [htn, hxn, ColorTree.noRedRed_paint_black hon], ?_, ?_, by simp⟩
    · simp only [ColorTree.balanced_join, balanced_paint, hpl, hol]
      exact ⟨⟨htb, hxb, hl.symm⟩, hob, by omega⟩
    · rw [ColorTree.blackHeight_join _ _ _ _ _ (by omega), hpl]
  · rw [if_neg ho]
    rw [Bool.not_eq_true] at ho
    by_cases hx : x.isRed = true
    · rw [if_pos hx]
      obtain ⟨cy, b, y, b', rfl⟩ := ColorTree.exists_join d (t := x) (by rintro rfl; cases hx)
      obtain rfl : cy = .red := by simpa using hx
      simp only [ColorTree.noRedRed_join, ColorTree.balanced_join] at hxn hxb
      obtain ⟨hbr, hbn, hbn'⟩ := hxn
      obtain ⟨hbb, hbb', hbl⟩ := hxb
      rw [ColorTree.blackHeight_join _ _ _ _ _ hbl] at hl hxo
      simp only [Color.weight, Nat.add_zero] at hl hxo
      have hpl : (ColorTree.join d .black t p b).blackHeight = t.blackHeight + 1 :=
        ColorTree.blackHeight_join _ _ _ _ _ hl.symm
      have hsl : (ColorTree.join d .black b' s o).blackHeight = t.blackHeight + 1 := by
        rw [ColorTree.blackHeight_join _ _ _ _ _ (by omega), ← hbl, hl]
        rfl
      rw [straightened_join, hoisted_join, ColorTree.paint_black_of_not_red (hbr trivial).2,
        ColorTree.paint_join]
      refine ⟨by simp [htn, hbn, hbn', hon], ?_, ?_, by simp⟩
      · simp only [ColorTree.balanced_join, hpl, hsl]
        exact ⟨⟨htb, hbb, hl.symm⟩, ⟨hbb', hob, by omega⟩, trivial⟩
      · rw [ColorTree.blackHeight_join _ _ _ _ _ (by rw [hpl, hsl]), hpl]
    · rw [Bool.not_eq_true] at hx
      obtain rfl : c = .red := by simpa [hx, ho] using hc
      have hsl : (ColorTree.join d .red x s o).blackHeight = t.blackHeight := by
        rw [ColorTree.blackHeight_join _ _ _ _ _ hxo, hl]
        rfl
      rw [if_neg (by simp [hx])]
      refine ⟨by simp [htn, hxn, hon, hx, ho], ?_, ?_, by simp⟩
      · simp only [ColorTree.balanced_join, hsl]
        exact ⟨htb, ⟨hxb, hob, hxo⟩, trivial⟩
      · rw [ColorTree.blackHeight_join _ _ _ _ _ hsl.symm]
        rfl

end Levelled

namespace Deficit

variable {f : Frame α} {ctx : Context α} {t : ColorTree α}

theorem inorder_rebalanced (h : Deficit (f :: ctx) t) :
    (rebalanced f t).inorder = (f.wrap t).inorder := by
  have hne := h.sibling_ne_nil
  obtain ⟨d, c, p, sib⟩ := f
  obtain ⟨cs, x, s, o, rfl⟩ := ColorTree.exists_join d hne
  cases cs with
  | red =>
    obtain ⟨-, hx, -⟩ := h.red_sibling
    have hlev := inorder_levelled (d := d) (c := .red) (t := t) (p := p) hx
    rw [rebalanced_red]
    cases d <;>
      simp_all [Frame.wrap, ColorTree.join, ColorTree.inorder]
  | black =>
    rw [rebalanced_black]
    exact inorder_levelled hne

/-- What takes the place of the defect when a rotation ends the loop. -/
theorem rebalanced_sound (h : Deficit (f :: ctx) t) (hs : redNear f.sibling = true) :
    (rebalanced f t).NoRedRed ∧ (rebalanced f t).Balanced ∧
      (rebalanced f t).blackHeight = t.blackHeight + 1 + f.color.weight ∧
      ((rebalanced f t).isRed = true → f.color = .red) := by
  have hne := h.sibling_ne_nil
  obtain ⟨d, c, p, sib⟩ := f
  obtain ⟨cs, x, s, o, rfl⟩ := ColorTree.exists_join d hne
  have hl := h.level.2.1
  have hb := h.level.1
  have hn := h.above.2.1
  cases cs with
  | red =>
    obtain ⟨rfl, hx, hxr⟩ := h.red_sibling
    simp only [ColorTree.noRedRed_join, ColorTree.balanced_join] at hn hb
    obtain ⟨-, hxn, hon⟩ := hn
    obtain ⟨hxb, hob, hxo⟩ := hb
    rw [ColorTree.blackHeight_join _ _ _ _ _ hxo] at hl
    simp only [Color.weight, Nat.add_zero] at hl
    obtain ⟨cx, a, v, b, rfl⟩ := ColorTree.exists_join d hx
    obtain rfl : cx = .black := by simpa using hxr
    obtain ⟨hn', hb', hh', -⟩ :=
      levelled_sound (p := p) h.below h.balanced hxn hxb hl (.inl rfl)
    simp only [Color.weight, Nat.add_zero] at hh'
    rw [rebalanced_red]
    refine ⟨by simp [hn', hon], ?_, ?_, by simp⟩
    · simp only [ColorTree.balanced_join]
      exact ⟨hb', hob, by omega⟩
    · rw [ColorTree.blackHeight_join _ _ _ _ _ (by omega), hh']
  | black =>
    rw [rebalanced_black]
    refine levelled_sound h.below h.balanced hn hb hl ?_
    exact .inr (by simpa [redNear_join] using hs)

theorem sound_rebalanced (h : Deficit (f :: ctx) t) (hs : redNear f.sibling = true) :
    (fill ctx (rebalanced f t)).IsRedBlack := by
  obtain ⟨hn, hb, hh, hr⟩ := h.rebalanced_sound hs
  obtain ⟨-, -, hlev⟩ := h.level
  obtain ⟨-, -, halt⟩ := h.above
  have htop := h.top
  simp only [topRed] at htop
  refine isRedBlack_fill.mpr ⟨?_, ⟨hn, ?_⟩, hb, by rwa [hh]⟩
  · cases ctx with
    | nil =>
      simp only [topRed] at htop ⊢
      rw [Bool.eq_false_iff]
      intro hred
      simp [hr hred] at htop
    | cons g ctx => exact htop
  · cases hred : (rebalanced f t).isRed with
    | false => exact halt.black
    | true => simpa [hr hred] using halt

theorem sound_flipped (h : Deficit (f :: ctx) t) (hs : redNear f.sibling = false)
    (hf : f.color = .red) :
    (fill ctx (.join f.side .black t f.label (f.sibling.paint .red))).IsRedBlack := by
  have hne := h.sibling_ne_nil
  obtain ⟨d, c, p, sib⟩ := f
  obtain ⟨cs, x, s, o, rfl⟩ := ColorTree.exists_join d hne
  simp only at hf
  subst hf
  obtain ⟨ht, htn, htb, ⟨hb, hl, hlev⟩, ⟨-, hn, halt⟩, htop⟩ := h
  simp only [redNear_join, Bool.or_eq_false_iff, decide_eq_false_iff_not, Color.not_red] at hs
  obtain ⟨⟨rfl, hx⟩, ho⟩ := hs
  simp only [ColorTree.noRedRed_join, ColorTree.balanced_join] at hn hb
  rw [ColorTree.blackHeight_join _ _ _ _ _ hb.2.2] at hl
  simp only [Color.weight, Nat.add_right_cancel_iff] at hl
  have hsl : (ColorTree.join d .red x s o).blackHeight = t.blackHeight := by
    rw [ColorTree.blackHeight_join _ _ _ _ _ hb.2.2, hl]
    rfl
  refine isRedBlack_fill.mpr ⟨?_, ⟨by simp [htn, hn, hx, ho], ?_⟩, ?_, ?_⟩
  · cases ctx with
    | nil => simp [topRed]
    | cons g ctx => simpa [topRed] using htop
  · simpa using halt.black
  · simp [htb, hb, hsl]
  · rw [ColorTree.paint_join, ColorTree.blackHeight_join _ _ _ _ _ hsl.symm]
    simpa [Color.weight] using hlev

end Deficit

theorem inorder_rebalance (ctx : Context α) {t : ColorTree α} (h : Deficit ctx t) :
    (rebalance ctx t).inorder = (fill ctx t).inorder := by
  fun_induction rebalance ctx t with
  | case1 t => rfl
  | case2 f ctx t hs => exact inorder_fill_congr ctx h.inorder_rebalanced
  | case3 f ctx t hs hf =>
    refine inorder_fill_congr ctx ?_
    cases hd : f.side <;> simp [Frame.wrap, hd, ColorTree.join, ColorTree.inorder]
  | case4 f ctx t hs hf ih =>
    rw [ih (h.up (by simpa using hs) (Color.not_red.mp hf))]
    refine inorder_fill_congr ctx ?_
    cases hd : f.side <;> simp [Frame.wrap, hd, ColorTree.join, ColorTree.inorder]

theorem isRedBlack_rebalance (ctx : Context α) {t : ColorTree α} (h : Deficit ctx t) :
    (rebalance ctx t).IsRedBlack := by
  fun_induction rebalance ctx t with
  | case1 t => exact ⟨h.black, h.below, h.balanced⟩
  | case2 f ctx t hs => exact h.sound_rebalanced hs
  | case3 f ctx t hs hf => exact h.sound_flipped (by simpa using hs) hf
  | case4 f ctx t hs hf ih => exact ih (h.up (by simpa using hs) (Color.not_red.mp hf))

/-- c_rbnode_unlink_stale() cuts out a node with at most one child, from a tree that looks
like the given one. -/
theorem unlinkHole_spec (ctx : Context α) (c : Color) (l : ColorTree α) (n : α) (r : ColorTree α) :
    ∃ ctx' cs child d s, unlinkHole ctx (.node c l n r) = (ctx', cs, child) ∧
      (fill ctx (.node c l n r)).shape = (fill ctx' (.join d cs child s .nil)).shape ∧
      (fill ctx' child).inorder = before ctx ++ (l.inorder ++ r.inorder) ++ after ctx := by
  cases l with
  | nil =>
    refine ⟨ctx, c, r, .right, n, ?_, rfl, ?_⟩
    · cases r <;> rfl
    · simp [inorder_fill, ColorTree.inorder]
  | node cl a v b =>
    cases r with
    | nil =>
      exact ⟨ctx, c, .node cl a v b, .left, n, rfl, rfl,
        by simp [inorder_fill, ColorTree.inorder]⟩
    | node cr a' v' b' =>
      obtain ⟨path, cs, s, child, heq, hfill, hleft⟩ :=
        descend_eq [] (t := .node cr a' v' b') (by simp)
      rw [List.append_nil] at heq
      refine ⟨path ++ ⟨.right, c, s, .node cl a v b⟩ :: ctx, cs, child, .right, s, ?_, ?_, ?_⟩
      · simp only [unlinkHole, heq]
      · rw [← shape_relabel ctx path .right c n s]
        rw [fill_append]
        change _ = (fill ctx (.node c (.node cl a v b) n (fill path (.node cs .nil s child)))).shape
        rw [hfill]
      · have hr : (ColorTree.node cr a' v' b').inorder = s :: (fill path child).inorder := by
          rw [← hfill, inorder_fill, inorder_fill, before_eq_nil hleft]
          simp [ColorTree.inorder]
        rw [fill_append, inorder_fill, hr]
        simp [before, after, ColorTree.inorder]

section Close

variable {ctx : Context α} {c : Color} {child : ColorTree α} {d : Side} {s : α}
  (h : (fill ctx (.join d c child s .nil)).IsRedBlack)
include h

theorem deficit_of_close (hc : c = .black) (hchild : child = .nil) : Deficit ctx .nil := by
  subst hc hchild
  refine Deficit.of_leaf (n := s) ?_
  cases d <;> exact h

/-- An only child is a red leaf below a black node. -/
theorem only_child (hchild : child ≠ .nil) : child.isRed = true ∧ c = .black := by
  obtain ⟨-, ⟨hn, -⟩, hb, -⟩ := isRedBlack_fill.mp h
  simp only [ColorTree.noRedRed_join, ColorTree.balanced_join] at hn hb
  cases child with
  | nil => contradiction
  | node cc a v b =>
    cases cc with
    | black => simp [ColorTree.blackHeight, Color.weight] at hb
    | red =>
      cases c with
      | red => simpa using (hn.1 rfl).1
      | black => exact ⟨rfl, rfl⟩

theorem isRedBlack_close : (close ctx c child).IsRedBlack := by
  have honly := only_child h
  obtain ⟨htop, ⟨hn, halt⟩, hb, hlev⟩ := isRedBlack_fill.mp h
  simp only [ColorTree.isRed_join, ColorTree.noRedRed_join, ColorTree.balanced_join]
    at htop halt hn hb
  obtain ⟨hcb, -, hch⟩ := hb
  rw [ColorTree.blackHeight_join _ _ _ _ _ hch] at hlev
  cases child with
  | nil =>
    cases c with
    | black =>
      simp only [close, if_true]
      exact isRedBlack_rebalance ctx (deficit_of_close h rfl rfl)
    | red =>
      simp only [close, reduceCtorEq, if_false]
      refine isRedBlack_fill.mpr ⟨?_, ⟨trivial, halt.black⟩, trivial, hlev⟩
      cases ctx with
      | nil => rfl
      | cons f ctx => exact htop
  | node cc a v b =>
    obtain ⟨hred, rfl⟩ := honly (by simp)
    have hpl := blackHeight_paint_black hred
    refine isRedBlack_fill.mpr ⟨?_, ⟨ColorTree.noRedRed_paint_black hn.2.1, ?_⟩, ?_, ?_⟩
    · simpa using htop
    · simpa using halt
    · exact (balanced_paint _ _).mpr hcb
    · rw [hpl]
      exact hlev

theorem inorder_close : (close ctx c child).inorder = (fill ctx child).inorder := by
  cases child with
  | nil =>
    cases c with
    | black =>
      simp only [close, if_true]
      exact inorder_rebalance ctx (deficit_of_close h rfl rfl)
    | red => rfl
  | node cc a v b => exact inorder_fill_congr ctx (ColorTree.inorder_paint _ _)

end Close

section Unlink

variable {ctx : Context α} {c : Color} {l r : ColorTree α} {n : α}
  (h : (fill ctx (.node c l n r)).IsRedBlack)
include h

theorem isRedBlack_unlinkAt : (unlinkAt ctx (.node c l n r)).IsRedBlack := by
  obtain ⟨ctx', cs, child, d, s, heq, hs, -⟩ := unlinkHole_spec ctx c l n r
  rw [unlinkAt, heq]
  exact isRedBlack_close (h.of_shape hs)

theorem inorder_unlinkAt : (unlinkAt ctx (.node c l n r)).inorder =
    before ctx ++ (l.inorder ++ r.inorder) ++ after ctx := by
  obtain ⟨ctx', cs, child, d, s, heq, hs, hin⟩ := unlinkHole_spec ctx c l n r
  rw [unlinkAt, heq, ← hin]
  exact inorder_close (h.of_shape hs)

end Unlink

end CRbtree
