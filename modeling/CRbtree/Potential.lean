import CRbtree.Balance

set_option autoImplicit false

/-!
A potential that pays for the recolouring turns of both loops. A black node has 1, 0 or 2
units of it when it has none, one or two red children, and a red node has none.
-/

namespace CRbtree
open RedBlack

variable {α : Type}

def charge : Color → Bool → Bool → ℕ
  | .red, _, _ => 0
  | .black, false, false => 1
  | .black, true, true => 2
  | .black, _, _ => 0

def potential : ColorTree α → ℕ
  | .nil => 0
  | .node c l _ r => potential l + potential r + charge c l.isRed r.isRed

/-- The potential of the frames, given whether the hole is red. -/
def framePotential : Context α → Bool → ℕ
  | [], _ => 0
  | f :: ctx, b =>
    potential f.sibling + charge f.color b f.sibling.isRed + framePotential ctx (f.color = .red)

theorem charge_comm (c : Color) (b b' : Bool) : charge c b b' = charge c b' b := by
  cases c <;> cases b <;> cases b' <;> rfl

/-- A child that turns red costs at most two units, and one that turns black at most one. -/
theorem charge_true_le (c : Color) (b : Bool) : charge c true b ≤ charge c false b + 2 := by
  cases c <;> cases b <;> decide

theorem charge_false_le (c : Color) (b : Bool) : charge c false b ≤ charge c true b + 1 := by
  cases c <;> cases b <;> decide

@[simp] theorem potential_join (d : Side) (c : Color) (t u : ColorTree α) (a : α) :
    potential (.join d c t a u) = potential t + potential u + charge c t.isRed u.isRed := by
  cases d with
  | left => rfl
  | right =>
    simp only [ColorTree.join, potential, charge_comm c u.isRed]
    omega

theorem potential_fill (ctx : Context α) (t : ColorTree α) :
    potential (fill ctx t) = potential t + framePotential ctx t.isRed := by
  induction ctx generalizing t with
  | nil => rfl
  | cons f ctx ih =>
    simp only [fill, ih, Frame.wrap, potential_join, ColorTree.isRed_join, framePotential]
    omega

/-- A red node that is painted black gets one unit. -/
theorem potential_paint_black {t : ColorTree α} (hr : t.isRed = true) (hn : t.NoRedRed) :
    potential (t.paint .black) = potential t + 1 := by
  cases t with
  | nil => cases hr
  | node c l a r =>
    obtain rfl : c = .red := by simpa using hr
    obtain ⟨hl, hr'⟩ := hn.1 rfl
    simp [ColorTree.paint, potential, charge, hl, hr']

theorem framePotential_true_le (ctx : Context α) :
    framePotential ctx true ≤ framePotential ctx false + 2 := by
  cases ctx with
  | nil => exact Nat.zero_le _
  | cons f ctx =>
    have h := charge_true_le f.color f.sibling.isRed
    simp only [framePotential]
    omega

theorem framePotential_false_le (ctx : Context α) :
    framePotential ctx false ≤ framePotential ctx true + 1 := by
  cases ctx with
  | nil => exact Nat.zero_le _
  | cons f ctx =>
    have h := charge_false_le f.color f.sibling.isRed
    simp only [framePotential]
    omega

namespace RedDefect

variable {f g : Frame α} {ctx : Context α} {t : ColorTree α}

theorem potential_recolored (h : RedDefect (f :: g :: ctx) t) (hf : f.color = .red)
    (hu : g.sibling.isRed = true) :
    potential (recolored f g t) + framePotential ctx false + 1 =
      potential t + framePotential (f :: g :: ctx) false := by
  have hg := h.grandparent hf
  obtain ⟨hr, -, ⟨hs, -, -, hun, -⟩, -⟩ := h
  have hup := potential_paint_black hu hun
  simp [recolored, framePotential, hf, hg, hr, hu, (hs hf).2, hup, charge]
  omega

theorem potential_turned (h : RedDefect (f :: g :: ctx) t) (hf : f.color = .red)
    (hu : g.sibling.isRed = false) :
    potential (turned f g t) + framePotential ctx false ≤
      potential t + framePotential (f :: g :: ctx) false + 2 := by
  have hg := h.grandparent hf
  have hne := h.ne_nil
  have hr := h.red
  obtain ⟨d, cf, p, a⟩ := f
  obtain ⟨e, cg, q, u⟩ := g
  simp only at hf hg hu
  subst hf hg
  by_cases hed : d = e
  · subst hed
    rw [turned_straight d .black p q hne]
    simp [framePotential, hr, hu, charge]
    omega
  · obtain rfl := Side.eq_flip hed
    obtain ⟨c, b, n, b', rfl⟩ := ColorTree.exists_join e hne
    obtain rfl : c = .red := by simpa using hr
    rw [turned_bent]
    simp [framePotential, hu, charge]
    omega

end RedDefect

theorem potential_repaint (ctx : Context α) {t : ColorTree α} (h : RedDefect ctx t) :
    repaintTurns ctx t + potential (repaint ctx t) ≤
      potential t + framePotential ctx false + 2 := by
  fun_induction repaint ctx t with
  | case1 t =>
    have hp := potential_paint_black h.red h.below
    simp only [repaintTurns, framePotential]
    omega
  | case2 f t =>
    have hf := potential_fill [f] t
    have hle := framePotential_true_le [f]
    rw [h.red] at hf
    change 0 + potential (fill [f] t) ≤ _
    omega
  | case3 f g ctx t hf =>
    have hfill := potential_fill (f :: g :: ctx) t
    have hle := framePotential_true_le (f :: g :: ctx)
    rw [h.red] at hfill
    simp only [repaintTurns, if_pos hf]
    omega
  | case4 f g ctx t hf hu ih =>
    have hf' := Color.not_black.mp hf
    have hrec := h.potential_recolored hf' hu
    have hstep := ih (h.recolor hf')
    simp only [repaintTurns, if_neg hf, if_pos hu]
    omega
  | case5 f g ctx t hf hu =>
    rw [Bool.not_eq_true] at hu
    have hf' := Color.not_black.mp hf
    have hturn := h.potential_turned hf' hu
    rw [potential_fill, isRed_turned]
    simp only [repaintTurns, if_neg hf, hu, Bool.false_eq_true, if_false]
    omega

/-- Painting a leaf's place costs at most two units, whatever the turns. -/
theorem potential_insertAt {ctx : Context α} (h : (fill ctx .nil).IsRedBlack) (n : α) :
    repaintTurns ctx (leaf n) + potential (insertAt ctx n) ≤ potential (fill ctx .nil) + 2 := by
  have hle := potential_repaint ctx (RedDefect.leaf h n)
  rw [potential_fill]
  exact hle

/-- A rotation around a black sibling with a red child costs at most two units. -/
theorem potential_levelled {d : Side} {c : Color} {t x o : ColorTree α} {p s : α}
    (ht : t.isRed = false) (hx : x.NoRedRed) (ho : o.NoRedRed)
    (hr : x.isRed = true ∨ o.isRed = true) :
    potential (levelled d c t p (.join d .black x s o)) ≤
      potential t + potential (.join d .black x s o) + charge c false false + 2 := by
  rw [levelled_join]
  by_cases hor : o.isRed = true
  · have hop := potential_paint_black hor ho
    rw [if_pos hor]
    cases hxr : x.isRed <;> simp [ht, hxr, hor, hop, charge] <;> omega
  · rw [if_neg hor]
    have hxr := hr.resolve_right hor
    rw [Bool.not_eq_true] at hor
    obtain ⟨cy, b, y, b', rfl⟩ := ColorTree.exists_join d (t := x) (by rintro rfl; cases hxr)
    obtain rfl : cy = .red := by simpa using hxr
    obtain ⟨hbr, hbr'⟩ := ((ColorTree.noRedRed_join _ _ _ _ _).mp hx).1 rfl
    rw [if_pos hxr, straightened_join, hoisted_join, ColorTree.paint_black_of_not_red hbr']
    simp [ht, hbr, hbr', hor, charge]
    omega

theorem isRed_levelled {d : Side} {c : Color} {t x o : ColorTree α} {p s : α} :
    (levelled d c t p (.join d .black x s o)).isRed =
      (decide (c = .red) && (x.isRed || o.isRed)) := by
  rw [levelled_join]
  by_cases ho : o.isRed = true
  · simp [ho]
  · by_cases hx : x.isRed = true
    · obtain ⟨cy, b, y, b', rfl⟩ := ColorTree.exists_join d (t := x) (by rintro rfl; cases hx)
      simp [ho, hx, straightened_join, hoisted_join]
    · simp [ho, hx]

/-- Recolouring the black sibling of a light subtree frees what it had. -/
theorem potential_flipped {d : Side} {t x o : ColorTree α} {p s : α} (ht : t.isRed = false)
    (hx : x.isRed = false) (ho : o.isRed = false) :
    potential (.join d .black t p (.join d .red x s o)) + 1 =
      potential t + potential (.join d .black x s o) := by
  simp [ht, hx, ho, charge]
  omega

namespace Deficit

variable {f : Frame α} {ctx : Context α} {t : ColorTree α}

theorem potential_rebalanced (h : Deficit (f :: ctx) t) (hs : redNear f.sibling = true) :
    potential (fill ctx (rebalanced f t)) ≤
      potential t + framePotential (f :: ctx) false + 2 := by
  have hne := h.sibling_ne_nil
  have hn := h.above.2.1
  have hred := (h.rebalanced_sound hs).2.2.2
  obtain ⟨d, c, p, sib⟩ := f
  obtain ⟨cs, x, s, o, rfl⟩ := ColorTree.exists_join d hne
  rw [potential_fill]
  cases cs with
  | red =>
    obtain ⟨rfl, hx, hxr⟩ := h.red_sibling
    obtain ⟨hrr, hxn, hon⟩ := (ColorTree.noRedRed_join _ _ _ _ _).mp hn
    obtain ⟨cx, a, v, b, rfl⟩ := ColorTree.exists_join d hx
    obtain rfl : cx = .black := by simpa using hxr
    obtain ⟨-, han, hbn⟩ := (ColorTree.noRedRed_join _ _ _ _ _).mp hxn
    have hor := (hrr rfl).2
    rw [rebalanced_red, ColorTree.isRed_join]
    have hlev : potential (levelled d .red t p (.join d .black a v b)) +
        charge .black (levelled d .red t p (.join d .black a v b)).isRed false ≤
        potential t + potential (ColorTree.join d .black a v b) + 2 := by
      by_cases hr : a.isRed = true ∨ b.isRed = true
      · have hle := potential_levelled (c := .red) (p := p) (s := v) (d := d) h.black han hbn hr
        have hroot : (levelled d .red t p (.join d .black a v b)).isRed = true := by
          rw [isRed_levelled]
          simpa using hr
        simpa only [hroot, charge, Nat.add_zero] using hle
      · rw [not_or, Bool.not_eq_true, Bool.not_eq_true] at hr
        have hfl := potential_flipped (d := d) (p := p) (s := v) h.black hr.1 hr.2
        rw [levelled_join, if_neg (by simp [hr]), if_neg (by simp [hr])]
        simp only [ColorTree.isRed_join, reduceCtorEq, decide_false, charge]
        omega
    simp only [framePotential, potential_join, hor, charge, ColorTree.isRed_join, decide_true,
      reduceCtorEq, decide_false] at hlev ⊢
    omega
  | black =>
    have hr : x.isRed = true ∨ o.isRed = true := by simpa [redNear_join] using hs
    obtain ⟨-, hxn, hon⟩ := (ColorTree.noRedRed_join _ _ _ _ _).mp hn
    have hle := potential_levelled (c := c) (p := p) (s := s) (d := d) h.black hxn hon hr
    have hroot : (levelled d c t p (.join d .black x s o)).isRed = decide (c = .red) := by
      rw [isRed_levelled]
      simpa using fun _ => hr
    rw [rebalanced_black, hroot]
    simp only [framePotential, ColorTree.isRed_join, reduceCtorEq, decide_false]
    omega

/-- The sibling and its children are black. -/
theorem potential_up (h : Deficit (f :: ctx) t) (hs : redNear f.sibling = false) :
    potential (.join f.side .black t f.label (f.sibling.paint .red)) + 1 =
      potential t + potential f.sibling := by
  have hne := h.sibling_ne_nil
  have ht := h.black
  obtain ⟨d, c, p, sib⟩ := f
  obtain ⟨cs, x, s, o, rfl⟩ := ColorTree.exists_join d hne
  simp only [redNear_join, Bool.or_eq_false_iff, decide_eq_false_iff_not, Color.not_red] at hs
  obtain ⟨⟨rfl, hx⟩, ho⟩ := hs
  rw [ColorTree.paint_join, potential_flipped ht hx ho]

theorem not_red_of_far (h : redNear f.sibling = false) : f.sibling.isRed = false := by
  simp only [redNear, Bool.or_eq_false_iff] at h
  exact h.1.1

end Deficit

theorem potential_rebalance (ctx : Context α) {t : ColorTree α} (h : Deficit ctx t) :
    2 * rebalanceTurns ctx t + potential (rebalance ctx t) ≤
      potential t + framePotential ctx false + 2 := by
  fun_induction rebalance ctx t with
  | case1 t =>
    simp only [rebalanceTurns, framePotential]
    omega
  | case2 f ctx t hs =>
    have hle := h.potential_rebalanced hs
    simp only [rebalanceTurns, hs, if_true]
    omega
  | case3 f ctx t hs hf =>
    rw [Bool.not_eq_true] at hs
    have hup := h.potential_up hs
    have hle := framePotential_false_le ctx
    rw [potential_fill]
    simp only [rebalanceTurns, hs, hf, framePotential, charge, ColorTree.isRed_join, reduceCtorEq,
      decide_false, decide_true, Bool.false_eq_true, if_false, if_true] at hup hle ⊢
    omega
  | case4 f ctx t hs hf ih =>
    rw [Bool.not_eq_true] at hs
    have hf' := Color.not_red.mp hf
    have hup := h.potential_up hs
    have hstep := ih (h.up hs hf')
    simp only [rebalanceTurns, hs, hf', framePotential, Deficit.not_red_of_far hs, charge,
      reduceCtorEq, decide_false, Bool.false_eq_true, if_false] at hup hstep ⊢
    omega

theorem potential_shape (t : ColorTree α) : potential t.shape = potential t := by
  induction t with
  | nil => rfl
  | node c l a r hl hr => simp [ColorTree.shape, potential, hl, hr]

theorem potential_close {ctx : Context α} {c : Color} {child : ColorTree α} {d : Side} {s : α}
    (h : (fill ctx (.join d c child s .nil)).IsRedBlack) :
    2 * closeTurns ctx c child + potential (close ctx c child) ≤
      potential (fill ctx (.join d c child s .nil)) + 2 := by
  have hdef := deficit_of_close h
  have honly := only_child h
  obtain ⟨-, ⟨hn, -⟩, hb, -⟩ := isRedBlack_fill.mp h
  rw [potential_fill]
  cases child with
  | nil =>
    cases c with
    | black =>
      have hle := potential_rebalance ctx (hdef rfl rfl)
      simp only [close, closeTurns, if_true, potential_join, ColorTree.isRed_join, reduceCtorEq,
        decide_false, ColorTree.isRed_nil, charge, potential] at hle ⊢
      omega
    | red =>
      have hle := framePotential_false_le ctx
      simp [close, closeTurns, potential_fill, potential, charge]
      omega
  | node cc a v b =>
    obtain ⟨hred, rfl⟩ := honly (by simp)
    have hpaint := potential_paint_black hred ((ColorTree.noRedRed_join _ _ _ _ _).mp hn).2.1
    simp [close, closeTurns, potential_fill, potential_join, hpaint, hred, charge, potential]
    omega

/-- Unlinking a node costs at most two units, with two for each turn. -/
theorem potential_unlinkAt {ctx : Context α} {c : Color} {l r : ColorTree α} {n : α}
    (h : (fill ctx (.node c l n r)).IsRedBlack) :
    2 * unlinkTurns ctx (.node c l n r) + potential (unlinkAt ctx (.node c l n r)) ≤
      potential (fill ctx (.node c l n r)) + 2 := by
  obtain ⟨ctx', cs, child, d, s, heq, hs, -⟩ := unlinkHole_spec ctx c l n r
  rw [unlinkTurns, unlinkAt, heq, ← potential_shape (fill ctx _), hs, potential_shape]
  exact potential_close (h.of_shape hs)

end CRbtree
