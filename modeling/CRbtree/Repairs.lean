import CRbtree.ColorTrees

set_option autoImplicit false

/-!
What the loops and the rotations of c-rbtree.c do to a coloured tree, from the place of
the defect upwards.
-/

namespace CRbtree
open RedBlack

variable {α : Type}

/-- The rotations of c_rbtree_paint_terminal(), for a red subtree below the red frame `f`
below the frame `g`. -/
def turned (f g : Frame α) : ColorTree α → ColorTree α
  | .nil => .nil
  | .node c l n r =>
    if f.side = g.side then
      .join g.side .black (.node c l n r) f.label (.join g.side .red f.sibling g.label g.sibling)
    else
      .join g.side .black
        (.join g.side .red f.sibling f.label ((ColorTree.node c l n r).child g.side)) n
        (.join g.side .red ((ColorTree.node c l n r).child g.side.flip) g.label g.sibling)

theorem turned_straight (d : Side) (c : Color) {t a u : ColorTree α} (p g : α) (ht : t ≠ .nil) :
    turned ⟨d, .red, p, a⟩ ⟨d, c, g, u⟩ t =
      .join d .black t p (.join d .red a g u) := by
  cases t with
  | nil => contradiction
  | node c l n r => simp [turned]

theorem turned_bent (d : Side) (c c' : Color) (a b b' u : ColorTree α) (p n g : α) :
    turned ⟨d.flip, .red, p, a⟩ ⟨d, c, g, u⟩ (.join d c' b n b') =
      .join d .black (.join d .red a p b) n (.join d .red b' g u) := by
  cases d <;> rfl

@[simp] theorem isRed_turned (f g : Frame α) (t : ColorTree α) : (turned f g t).isRed = false := by
  cases t with
  | nil => rfl
  | node c l n r =>
    simp only [turned]
    split <;> simp

/-- The recolouring of Case 3: the frames `f` and `g` and the sibling at `g`. -/
def recolored (f g : Frame α) (t : ColorTree α) : ColorTree α :=
  .join g.side .red (.join f.side .black t f.label f.sibling) g.label (g.sibling.paint .black)

/-- c_rbtree_paint() of the red root of a tree in a context. -/
def repaint : Context α → ColorTree α → ColorTree α
  | [], t => t.paint .black
  | [f], t => f.wrap t
  | f :: g :: ctx, t =>
    if f.color = .black then fill (f :: g :: ctx) t
    else if g.sibling.isRed then repaint ctx (recolored f g t)
    else fill ctx (turned f g t)

/-- The turns of c_rbtree_paint_path() that go on, in Case 3. -/
def repaintTurns : Context α → ColorTree α → ℕ
  | [], _ | [_], _ => 0
  | f :: g :: ctx, t =>
    if f.color = .black then 0
    else if g.sibling.isRed then repaintTurns ctx (recolored f g t) + 1
    else 0

theorem recolored_ne_nil (f g : Frame α) (t : ColorTree α) : recolored f g t ≠ .nil := by
  unfold recolored
  cases g.side <;> simp [ColorTree.join]

theorem inorder_turned (f g : Frame α) {t : ColorTree α} (ht : t ≠ .nil) :
    (turned f g t).inorder = (g.wrap (f.wrap t)).inorder := by
  obtain ⟨e, -, p, a⟩ := f
  obtain ⟨d, -, g, u⟩ := g
  cases t with
  | nil => contradiction
  | node c l n r =>
    cases d <;> cases e <;>
      simp [turned, Frame.wrap, ColorTree.join, ColorTree.inorder, ColorTree.child, Side.flip]

theorem inorder_recolored (f g : Frame α) (t : ColorTree α) :
    (recolored f g t).inorder = (g.wrap (f.wrap t)).inorder := by
  obtain ⟨e, -, p, a⟩ := f
  obtain ⟨d, -, g, u⟩ := g
  cases d <;> cases e <;> simp [recolored, Frame.wrap, ColorTree.join, ColorTree.inorder]

theorem inorder_repaint (ctx : Context α) {t : ColorTree α} (ht : t ≠ .nil) :
    (repaint ctx t).inorder = (fill ctx t).inorder := by
  fun_induction repaint ctx t with
  | case1 t => exact ColorTree.inorder_paint _ _
  | case2 f t => rfl
  | case3 f g ctx t hf => rfl
  | case4 f g ctx t hf hu ih =>
    rw [ih (recolored_ne_nil f g t)]
    exact inorder_fill_congr ctx (inorder_recolored f g t)
  | case5 f g ctx t hf hu => exact inorder_fill_congr ctx (inorder_turned f g ht)

/-- A new node in the hole of a context, before and after it is painted. -/
def leaf (n : α) : ColorTree α := .node .red .nil n .nil

/-- c_rbnode_link() or c_rbtree_add() of `n` at the hole of a context. -/
def insertAt (ctx : Context α) (n : α) : ColorTree α := repaint ctx (leaf n)

/-- A red subtree whose root may lie below a red node or at the top, and no other defect
of colour. -/
structure RedDefect (ctx : Context α) (t : ColorTree α) : Prop where
  red : t.isRed = true
  below : t.NoRedRed
  above : Alternating ctx false
  top : topRed ctx false = false

namespace RedDefect

variable {f g : Frame α} {ctx : Context α} {t : ColorTree α}

theorem ne_nil (h : RedDefect ctx t) : t ≠ .nil := by
  rintro rfl
  simpa [ColorTree.isRed] using h.red

theorem grandparent (h : RedDefect (f :: g :: ctx) t) (hf : f.color = .red) : g.color = .black := by
  obtain ⟨-, -, hg, -⟩ := h.above
  cases hc : g.color with
  | red => simpa [hf] using (hg hc).1
  | black => rfl

theorem recolor (h : RedDefect (f :: g :: ctx) t) (hf : f.color = .red) :
    RedDefect ctx (recolored f g t) := by
  have hg := h.grandparent hf
  obtain ⟨-, ht, ⟨hs, hsn, -, hun, hctx⟩, htop⟩ := h
  refine ⟨by simp [recolored], ?_, hctx.black, ?_⟩
  · simp [recolored, ht, hsn, ColorTree.noRedRed_paint_black hun]
  · simpa [topRed, hg] using htop

theorem leaf {ctx : Context α} (h : (fill ctx .nil).IsRedBlack) (n : α) :
    RedDefect ctx (leaf n) := by
  obtain ⟨htop, ⟨-, halt⟩, -⟩ := isRedBlack_fill.mp h
  refine ⟨rfl, by simp [CRbtree.leaf, ColorTree.NoRedRed, ColorTree.isRed], halt, htop⟩

end RedDefect

/-- Case 5 on a sibling: its red inner child comes up in its place. -/
def straightened (d : Side) (sib : ColorTree α) : ColorTree α :=
  match sib, sib.child d with
  | .node cs _ s _, .node cy _ y _ =>
    .join d cy ((sib.child d).child d) y
      (.join d cs (((sib.child d).child d.flip).paint .black) s (sib.child d.flip))
  | _, _ => sib

/-- Case 6 at the node `p` with colour `c`, the light subtree `t` and the sibling. -/
def hoisted (d : Side) (c : Color) (t : ColorTree α) (p : α) (sib : ColorTree α) : ColorTree α :=
  match sib with
  | .nil => .nil
  | .node _ _ s _ =>
    .join d c (.join d .black t p (sib.child d)) s ((sib.child d.flip).paint .black)

/-- The rest of c_rbnode_rebalance_terminal() once the sibling is black. -/
def levelled (d : Side) (c : Color) (t : ColorTree α) (p : α) (sib : ColorTree α) : ColorTree α :=
  if (sib.child d.flip).isRed then hoisted d c t p sib
  else if (sib.child d).isRed then hoisted d c t p (straightened d sib)
  else .join d .black t p (sib.paint .red)

/-- c_rbnode_rebalance_terminal() at the frame `f` around the light subtree `t`. -/
def rebalanced (f : Frame α) (t : ColorTree α) : ColorTree α :=
  match f.sibling with
  | .node .red l s r =>
    .join f.side .black
      (levelled f.side .red t f.label ((ColorTree.node .red l s r).child f.side)) s
      ((ColorTree.node .red l s r).child f.side.flip)
  | sib => levelled f.side f.color t f.label sib

/-- Whether the sibling or one of its children is red, so that a rotation ends the loop. -/
def redNear (sib : ColorTree α) : Bool :=
  sib.isRed || (sib.child .left).isRed || (sib.child .right).isRed

/-- c_rbnode_rebalance() above a subtree with one black node too few on its paths. -/
def rebalance : Context α → ColorTree α → ColorTree α
  | [], t => t
  | f :: ctx, t =>
    if redNear f.sibling then fill ctx (rebalanced f t)
    else if f.color = .red then fill ctx (.join f.side .black t f.label (f.sibling.paint .red))
    else rebalance ctx (.join f.side .black t f.label (f.sibling.paint .red))

/-- The turns of c_rbnode_rebalance_path() that go on one layer up. -/
def rebalanceTurns : Context α → ColorTree α → ℕ
  | [], _ => 0
  | f :: ctx, t =>
    if redNear f.sibling then 0
    else if f.color = .red then 0
    else rebalanceTurns ctx (.join f.side .black t f.label (f.sibling.paint .red)) + 1

section Join

variable (d : Side) (c cs cy : Color) (t b x y o : ColorTree α) (p s : α)

theorem straightened_join (y : α) : straightened d (.join d cs (.join d cy b y x) s o) =
    .join d cy b y (.join d cs (x.paint .black) s o) := by cases d <;> rfl

theorem hoisted_join : hoisted d c t p (.join d cs x s o) =
    .join d c (.join d .black t p x) s (o.paint .black) := by cases d <;> rfl

theorem levelled_join : levelled d c t p (.join d cs x s o) =
    if o.isRed then .join d c (.join d .black t p x) s (o.paint .black)
    else if x.isRed then hoisted d c t p (straightened d (.join d cs x s o))
    else .join d .black t p (.join d .red x s o) := by
  simp [levelled, hoisted_join]

theorem rebalanced_red : rebalanced ⟨d, c, p, .join d .red x s o⟩ t =
    .join d .black (levelled d .red t p x) s o := by cases d <;> rfl

theorem rebalanced_black : rebalanced ⟨d, c, p, .join d .black x s o⟩ t =
    levelled d c t p (.join d .black x s o) := by cases d <;> rfl

theorem rebalanced_not_red {sib : ColorTree α} (h : ¬sib.isRed = true) :
    rebalanced ⟨d, c, p, sib⟩ t = levelled d c t p sib := by
  cases sib with
  | nil => rfl
  | node cs l s r =>
    obtain rfl : cs = .black := by simpa [ColorTree.isRed] using h
    rfl

theorem redNear_join : redNear (.join d cs x s o) =
    (decide (cs = .red) || x.isRed || o.isRed) := by
  cases d <;> simp [redNear, ColorTree.join, ColorTree.isRed, ColorTree.child, Bool.or_right_comm]

end Join

/-- Follows left children down to a node without one, and collects the frames. -/
def descend : Context α → ColorTree α → Context α × ColorTree α
  | ctx, .node c (.node c' l' a' r') a r => descend (⟨.left, c, a, r⟩ :: ctx) (.node c' l' a' r')
  | ctx, t => (ctx, t)

theorem descend_eq (ctx : Context α) {t : ColorTree α} (ht : t ≠ .nil) :
    ∃ path c s child, descend ctx t = (path ++ ctx, .node c .nil s child) ∧
      fill path (.node c .nil s child) = t ∧ ∀ f ∈ path, f.side = .left := by
  fun_induction descend ctx t with
  | case1 ctx c c' l' a' r' a r ih =>
    obtain ⟨path, cs, s, child, heq, hfill, hleft⟩ := ih (by simp)
    refine ⟨path ++ [⟨.left, c, a, r⟩], cs, s, child, by simp [heq], ?_, ?_⟩
    · rw [fill_append, hfill]
      rfl
    · simpa [or_imp, forall_and] using hleft
  | case2 ctx t hne =>
    cases t with
    | nil => contradiction
    | node c l a r =>
      cases l with
      | nil => exact ⟨[], c, a, r, rfl, rfl, by simp⟩
      | node c' l' a' r' => exact absurd rfl (hne c c' l' a' r' a r)

/-- The place that c_rbnode_unlink_stale() empties, the colour that it takes away there,
and the subtree that moves up. The successor of a node with two children takes its place. -/
def unlinkHole (ctx : Context α) : ColorTree α → Context α × Color × ColorTree α
  | .nil => (ctx, .red, .nil)
  | .node c .nil _ r => (ctx, c, r)
  | .node c l _ .nil => (ctx, c, l)
  | .node c l _ r =>
    match descend [] r with
    | (path, .node cs _ s child) => (path ++ ⟨.right, c, s, l⟩ :: ctx, cs, child)
    | (_, .nil) => (ctx, c, l)

/-- Closes a hole with the child that moves up, or with nothing. -/
def close (ctx : Context α) (c : Color) (child : ColorTree α) : ColorTree α :=
  match child with
  | .nil => if c = .black then rebalance ctx .nil else fill ctx .nil
  | child => fill ctx (child.paint .black)

def closeTurns (ctx : Context α) (c : Color) (child : ColorTree α) : ℕ :=
  match child with
  | .nil => if c = .black then rebalanceTurns ctx .nil else 0
  | _ => 0

/-- c_rbnode_unlink_stale() of the root of the tree in a context. -/
def unlinkAt (ctx : Context α) (t : ColorTree α) : ColorTree α :=
  close (unlinkHole ctx t).1 (unlinkHole ctx t).2.1 (unlinkHole ctx t).2.2

def unlinkTurns (ctx : Context α) (t : ColorTree α) : ℕ :=
  closeTurns (unlinkHole ctx t).1 (unlinkHole ctx t).2.1 (unlinkHole ctx t).2.2

/-- A subtree that is sound but for one black node too few on its paths. -/
structure Deficit (ctx : Context α) (t : ColorTree α) : Prop where
  black : t.isRed = false
  below : t.NoRedRed
  balanced : t.Balanced
  level : Level ctx (t.blackHeight + 1)
  above : Alternating ctx false
  top : topRed ctx false = false

namespace Deficit

variable {f : Frame α} {ctx : Context α} {t : ColorTree α}

/-- A black leaf leaves a deficit behind. -/
theorem of_leaf {n : α} (h : (fill ctx (.node .black .nil n .nil)).IsRedBlack) :
    Deficit ctx .nil := by
  obtain ⟨htop, ⟨-, halt⟩, -, hl⟩ := isRedBlack_fill.mp h
  exact ⟨rfl, trivial, trivial, hl, halt, htop⟩

theorem sibling_ne_nil (h : Deficit (f :: ctx) t) : f.sibling ≠ .nil := by
  intro hs
  have hl := h.level.2.1
  rw [hs] at hl
  simp [ColorTree.blackHeight] at hl

/-- A red sibling has a black child, and hangs from a black node. -/
theorem red_sibling {d : Side} {c : Color} {x o : ColorTree α} {p s : α}
    (h : Deficit (⟨d, c, p, .join d .red x s o⟩ :: ctx) t) :
    c = .black ∧ x ≠ .nil ∧ x.isRed = false := by
  obtain ⟨hb, hl, -⟩ := h.level
  obtain ⟨hc, hs, -⟩ := h.above
  simp only [ColorTree.balanced_join] at hb
  rw [ColorTree.blackHeight_join _ _ _ _ _ hb.2.2] at hl
  refine ⟨?_, ?_, (((ColorTree.noRedRed_join _ _ _ _ _).mp hs).1 rfl).1⟩
  · cases c with
    | red => simpa using (hc rfl).2
    | black => rfl
  · rintro rfl
    simp [ColorTree.blackHeight, Color.weight] at hl

theorem up (h : Deficit (f :: ctx) t) (hs : redNear f.sibling = false) (hf : f.color = .black) :
    Deficit ctx (.join f.side .black t f.label (f.sibling.paint .red)) := by
  obtain ⟨ht, htn, htb, ⟨hsb, hsl, hctx⟩, ⟨-, hsn, halt⟩, htop⟩ := h
  have hpaint : (f.sibling.paint .red).Balanced ∧ (f.sibling.paint .red).NoRedRed ∧
      (f.sibling.paint .red).blackHeight = t.blackHeight := by
    cases hsib : f.sibling with
    | nil => simp [hsib, ColorTree.blackHeight] at hsl
    | node c l s r =>
      rw [hsib] at hs hsb hsl hsn
      simp only [redNear, Bool.or_eq_false_iff, ColorTree.child] at hs
      cases c with
      | red => simp [ColorTree.isRed] at hs
      | black =>
        simp only [ColorTree.blackHeight, Color.weight, Nat.add_right_cancel_iff] at hsl
        exact ⟨hsb, ⟨fun _ => ⟨hs.1.2, hs.2⟩, hsn.2⟩, by simpa [ColorTree.paint,
          ColorTree.blackHeight, Color.weight] using hsl⟩
  obtain ⟨hb, hn, hh⟩ := hpaint
  refine ⟨by simp, by simp [htn, hn], by simp [htb, hb, hh], ?_, ?_, ?_⟩
  · rw [ColorTree.blackHeight_join _ _ _ _ _ hh.symm]
    simpa [hf, Color.weight] using hctx
  · exact halt.black
  · simpa [topRed, hf] using htop

end Deficit

end CRbtree
