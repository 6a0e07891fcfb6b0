import CRbtree.Placement

set_option autoImplicit false

/-!
The textbook algorithms on coloured trees: one rotation for each side, recolouring apart
from it, and one case in each turn of a loop. The code reaches the same trees.
-/

namespace CRbtree
open RedBlack TaggedPointers PointerGraphs Programs

variable {α : Type}

/-- The node that a textbook loop stands on: its surroundings, and the subtree below it. -/
abbrev Cursor (α : Type) := Context α × ColorTree α

def rotateLeft : ColorTree α → ColorTree α
  | .node c l x (.node c' a y b) => .node c' (.node c l x a) y b
  | t => t

def rotateRight : ColorTree α → ColorTree α
  | .node c (.node c' a x b) y r => .node c' a x (.node c b y r)
  | t => t

/-- The rotation that takes the root down to side `d`. -/
def rotate : Side → ColorTree α → ColorTree α
  | .left => rotateLeft
  | .right => rotateRight

def paintChild (d : Side) (c : Color) : ColorTree α → ColorTree α
  | .nil => .nil
  | .node c' l a r =>
    match d with
    | .left => .node c' (l.paint c) a r
    | .right => .node c' l a (r.paint c)

/-- Steps down to the child on side `d`. -/
def enter (d : Side) : Cursor α → Cursor α
  | (ctx, .nil) => (ctx, .nil)
  | (ctx, .node c l a r) =>
    (⟨d, c, a, (ColorTree.node c l a r).child d.flip⟩ :: ctx, (ColorTree.node c l a r).child d)

/-- One turn of a loop: it goes on from another cursor, or ends with a tree. -/
abbrev Outcome (α : Type) := Cursor α ⊕ ColorTree α

/-- The tree that a loop ends with, if it makes at most so many turns. -/
def loop (turn : Cursor α → Outcome α) : ℕ → Cursor α → Option (ColorTree α)
  | 0, _ => none
  | k + 1, s =>
    match turn s with
    | .inl s' => loop turn k s'
    | .inr t => some t

/-- Insertion fix-up at a red node. -/
def insertTurn : Cursor α → Outcome α
  | (f :: g :: ctx, t) =>
    if f.color = .black then
      .inr ((fill (f :: g :: ctx) t).paint .black)
    else if g.sibling.isRed then
      -- the parent and the uncle turn black, the grandparent red
      .inl (ctx, paintChild g.side .black
        (paintChild g.side.flip .black ((g.wrap (f.wrap t)).paint .red)))
    else if f.side = g.side then
      -- an outer child: the parent turns black, the grandparent red, and goes down
      .inr ((fill ctx (rotate g.side.flip
        (paintChild g.side .black ((g.wrap (f.wrap t)).paint .red)))).paint .black)
    else
      -- an inner child: the parent goes down and is the cursor
      .inl (enter g.side (g :: ctx, rotate g.side (f.wrap t)))
  | (ctx, t) => .inr ((fill ctx t).paint .black)

/-- Deletion fix-up at a subtree that is one black node short. -/
def deleteTurn : Cursor α → Outcome α
  | ([], t) => .inr (t.paint .black)
  | (f :: ctx, t) =>
    if t.isRed then
      .inr (fill (f :: ctx) (t.paint .black))
    else if f.sibling.isRed then
      -- the sibling turns black, the parent red and goes down
      .inl (enter f.side (enter f.side
        (ctx, rotate f.side (paintChild f.side.flip .black ((f.wrap t).paint .red)))))
    else if (f.sibling.child f.side.flip).isRed then
      -- the sibling takes the parent's colour, the parent and the outer nephew turn black
      .inr ((fill ctx (rotate f.side (ColorTree.join f.side .black t f.label
        ((paintChild f.side.flip .black f.sibling).paint f.color)))).paint .black)
    else if (f.sibling.child f.side).isRed then
      -- the inner nephew turns black, the sibling red and goes down
      .inl (⟨f.side, f.color, f.label,
        rotate f.side.flip (paintChild f.side .black (f.sibling.paint .red))⟩ :: ctx, t)
    else
      -- the sibling turns red, and the parent is one black node short
      .inl (ctx, .join f.side f.color t f.label (f.sibling.paint .red))

/-- The result of the textbook's insertion of `n` at the hole of a context. -/
def TextbookInsert (ctx : Context α) (n : α) (t : ColorTree α) : Prop :=
  ∃ k, loop insertTurn k (ctx, .node .red .nil n .nil) = some t

/-- Cuts the least node out of a tree: the place that it leaves, its colour, and the
subtree that moves up. -/
def cutLeast : Context α → ColorTree α → Context α × Color × ColorTree α
  | ctx, .nil => (ctx, .red, .nil)
  | ctx, .node c .nil _ r => (ctx, c, r)
  | ctx, .node c l a r => cutLeast (⟨.left, c, a, r⟩ :: ctx) l

/-- Cuts out the root of a tree, or its successor, which takes over its place and its
colour. -/
def splice (ctx : Context α) : ColorTree α → Context α × Color × ColorTree α
  | .nil => (ctx, .red, .nil)
  | .node c .nil _ r => (ctx, c, r)
  | .node c l _ .nil => (ctx, c, l)
  | .node c l _ r =>
    match r.inorder with
    | [] => (ctx, c, l)
    | s :: _ => cutLeast (⟨.right, c, s, l⟩ :: ctx) r

/-- The result of the textbook's deletion of the root of `t`: the fix-up starts where a
black node was cut out. -/
def TextbookDelete (ctx : Context α) (t u : ColorTree α) : Prop :=
  match splice ctx t with
  | (place, .red, child) => u = fill place child
  | (place, .black, child) => ∃ k, loop deleteTurn k (place, child) = some u

section Join

variable {d : Side} {c c' : Color} {t a b u : ColorTree α} {x y : α}

theorem rotate_join : rotate d (.join d c t x (.join d c' a y b)) =
    .join d c' (.join d c t x a) y b := by cases d <;> rfl

theorem rotate_flip_join : rotate d.flip (.join d c (.join d c' a x b) y u) =
    .join d c' a x (.join d c b y u) := by cases d <;> rfl

@[simp] theorem paintChild_join :
    paintChild d c (.join d c' t x u) = .join d c' (t.paint c) x u := by
  cases d <;> rfl

@[simp] theorem paintChild_flip_join :
    paintChild d.flip c (.join d c' t x u) = .join d c' t x (u.paint c) := by cases d <;> rfl

@[simp] theorem enter_join (ctx : Context α) :
    enter d (ctx, .join d c t x u) = (⟨d, c, x, u⟩ :: ctx, t) := by cases d <;> rfl

end Join

section Insert

variable {f g : Frame α} {ctx : Context α} {t : ColorTree α}

/-- The root is black, so the textbook's last step changes nothing. -/
theorem paint_black_fill {f : Frame α} {ctx : Context α} {t : ColorTree α}
    (h : topRed (f :: ctx) false = false) :
    (fill (f :: ctx) t).paint .black = fill (f :: ctx) t := by
  refine ColorTree.paint_black_of_not_red ?_
  rw [isRed_fill, topRed_cons _ _ _ false, h]

theorem insertTurn_recolor (hf : f.color = .red) (hu : g.sibling.isRed = true) :
    insertTurn (f :: g :: ctx, t) = .inl (ctx, recolored f g t) := by
  simp only [insertTurn, hf, hu, reduceCtorEq, if_false, if_true, recolored, Frame.wrap,
    ColorTree.paint_join, paintChild_flip_join, paintChild_join]

theorem insertTurn_outer (ctx : Context α) (hf : f.color = .red) (hu : g.sibling.isRed = false)
    (hside : f.side = g.side) (ht : t ≠ .nil) :
    insertTurn (f :: g :: ctx, t) = .inr ((fill ctx (turned f g t)).paint .black) := by
  obtain ⟨d, cf, p, a⟩ := f
  obtain ⟨e, cg, q, u⟩ := g
  simp only at hf hu hside
  subst hf hside
  rw [turned_straight d cg p q ht]
  simp only [insertTurn, hu, reduceCtorEq, if_false, if_true, Frame.wrap, ColorTree.paint_join,
    paintChild_join, rotate_flip_join, Bool.false_eq_true]

theorem insertTurn_inner {d : Side} {cg : Color} {a b b' u : ColorTree α} {p n q : α}
    (hu : u.isRed = false) :
    insertTurn (⟨d.flip, .red, p, a⟩ :: ⟨d, cg, q, u⟩ :: ctx, .join d .red b n b') =
      .inl (⟨d, .red, n, b'⟩ :: ⟨d, cg, q, u⟩ :: ctx, .join d .red a p b) := by
  simp [insertTurn, hu, Frame.wrap, ColorTree.join_flip, rotate_join]

theorem turned_swap {d : Side} {cg : Color} {a b b' u : ColorTree α} {p n q : α} :
    turned ⟨d, .red, n, b'⟩ ⟨d, cg, q, u⟩ (.join d .red a p b) =
      turned ⟨d.flip, .red, p, a⟩ ⟨d, cg, q, u⟩ (.join d .red b n b') := by
  rw [turned_bent, turned_straight d cg n q (by cases d <;> simp [ColorTree.join])]

theorem loop_insert (ctx : Context α) {t : ColorTree α} (h : RedDefect ctx t) :
    ∃ k, loop insertTurn k (ctx, t) = some (repaint ctx t) := by
  fun_induction repaint ctx t with
  | case1 t => exact ⟨1, rfl⟩
  | case2 f t =>
    refine ⟨1, ?_⟩
    simp only [loop, insertTurn]
    rw [paint_black_fill h.top]
    rfl
  | case3 f g ctx t hf =>
    refine ⟨1, ?_⟩
    simp only [loop, insertTurn, if_pos hf]
    rw [paint_black_fill h.top]
  | case4 f g ctx t hf hu ih =>
    have hf' := Color.not_black.mp hf
    obtain ⟨k, hk⟩ := ih (h.recolor hf')
    exact ⟨k + 1, by rw [loop, insertTurn_recolor hf' hu]; exact hk⟩
  | case5 f g ctx t hf hu =>
    have hf' := Color.not_black.mp hf
    rw [Bool.not_eq_true] at hu
    have hblack : (fill ctx (turned f g t)).paint .black = fill ctx (turned f g t) := by
      refine ColorTree.paint_black_of_not_red ?_
      have hg := h.grandparent hf'
      have htop := h.top
      simpa [isRed_fill, topRed, hg] using htop
    by_cases hside : f.side = g.side
    · refine ⟨1, ?_⟩
      rw [loop, insertTurn_outer ctx hf' hu hside h.ne_nil, hblack]
    · refine ⟨2, ?_⟩
      have hne := h.ne_nil
      have hr := h.red
      obtain ⟨d, cf, p, a⟩ := f
      obtain ⟨e, cg, q, u⟩ := g
      simp only at hf' hu hside
      subst hf'
      obtain rfl := Side.eq_flip hside
      obtain ⟨c, b, n, b', rfl⟩ := ColorTree.exists_join e hne
      obtain rfl : c = .red := by simpa using hr
      rw [loop, insertTurn_inner hu]
      have hlast := insertTurn_outer (f := ⟨e, .red, n, b'⟩) (g := ⟨e, cg, q, u⟩)
        (t := .join e .red a p b) ctx rfl hu rfl (by cases e <;> simp [ColorTree.join])
      simp only [loop, hlast]
      rw [turned_swap, hblack]

/-- The code's insertion is the textbook's. -/
theorem textbookInsert_insertAt {ctx : Context α} (h : (fill ctx .nil).IsRedBlack) (n : α) :
    TextbookInsert ctx n (insertAt ctx n) :=
  loop_insert ctx (RedDefect.leaf h n)

end Insert

section Delete

variable {ctx : Context α} {d : Side} {c : Color} {t x o : ColorTree α} {p s : α}

theorem deleteTurn_red (ht : t.isRed = false) :
    deleteTurn (⟨d, c, p, .join d .red x s o⟩ :: ctx, t) =
      .inl (⟨d, .red, p, x⟩ :: ⟨d, .black, s, o⟩ :: ctx, t) := by
  simp [deleteTurn, ht, Frame.wrap, rotate_join]

theorem deleteTurn_outer (ht : t.isRed = false) (ho : o.isRed = true) :
    deleteTurn (⟨d, c, p, .join d .black x s o⟩ :: ctx, t) =
      .inr ((fill ctx (hoisted d c t p (.join d .black x s o))).paint .black) := by
  simp [deleteTurn, ht, ho, rotate_join, hoisted_join]

theorem deleteTurn_inner (ht : t.isRed = false) (hx : x.isRed = true) (ho : o.isRed = false) :
    deleteTurn (⟨d, c, p, .join d .black x s o⟩ :: ctx, t) =
      .inl (⟨d, c, p, rotate d.flip (.join d .red (x.paint .black) s o)⟩ :: ctx, t) := by
  simp [deleteTurn, ht, hx, ho]

theorem deleteTurn_far (ht : t.isRed = false) (hx : x.isRed = false) (ho : o.isRed = false) :
    deleteTurn (⟨d, c, p, .join d .black x s o⟩ :: ctx, t) =
      .inl (ctx, .join d c t p (.join d .red x s o)) := by
  simp [deleteTurn, ht, hx, ho]

theorem deleteTurn_end (ht : t.isRed = true) :
    deleteTurn (ctx, t) = .inr (fill ctx (t.paint .black)) := by
  cases ctx with
  | nil => rfl
  | cons f ctx => simp [deleteTurn, ht]

/-- Below a black sibling with a red child the loop ends in one turn or two. -/
theorem loop_levelled (ht : t.isRed = false) (hx : x.NoRedRed)
    (hr : x.isRed = true ∨ o.isRed = true)
    (hblack : (fill ctx (levelled d c t p (.join d .black x s o))).isRed = false) :
    ∃ k, loop deleteTurn k (⟨d, c, p, .join d .black x s o⟩ :: ctx, t) =
      some (fill ctx (levelled d c t p (.join d .black x s o))) := by
  rw [levelled_join] at hblack ⊢
  by_cases ho : o.isRed = true
  · rw [if_pos ho] at hblack ⊢
    refine ⟨1, ?_⟩
    rw [loop, deleteTurn_outer ht ho, hoisted_join, ColorTree.paint_black_of_not_red hblack]
  · rw [if_neg ho] at hblack ⊢
    have hxr := hr.resolve_right ho
    rw [Bool.not_eq_true] at ho
    rw [if_pos hxr] at hblack ⊢
    obtain ⟨cy, b, y, b', rfl⟩ := ColorTree.exists_join d (t := x) (by rintro rfl; cases hxr)
    obtain rfl : cy = .red := by simpa using hxr
    obtain ⟨-, hb'⟩ := ((ColorTree.noRedRed_join _ _ _ _ _).mp hx).1 rfl
    have hlast := @deleteTurn_outer _ ctx d c t b (.join d .red b' s o) p y ht (by simp)
    refine ⟨2, ?_⟩
    rw [straightened_join, ColorTree.paint_black_of_not_red hb', hoisted_join, ColorTree.paint_join]
      at hblack ⊢
    rw [hoisted_join, ColorTree.paint_join, ColorTree.paint_black_of_not_red hblack] at hlast
    simp only [loop, deleteTurn_inner ht hxr ho, ColorTree.paint_join, rotate_flip_join, hlast]

/-- The rest of the loop, after a turn that goes on. -/
theorem loop_next {turn : Cursor α → Outcome α} {u v : Cursor α} {b : ColorTree α}
    (hturn : turn u = .inl v) (h : ∃ k, loop turn k v = some b) : ∃ k, loop turn k u = some b := by
  obtain ⟨k, hk⟩ := h
  exact ⟨k + 1, by rw [loop, hturn]; exact hk⟩

theorem loop_last {turn : Cursor α → Outcome α} {u : Cursor α} {b : ColorTree α}
    (hturn : turn u = .inr b) : ∃ k, loop turn k u = some b :=
  ⟨1, by rw [loop, hturn]⟩

theorem loop_rebalanced {f : Frame α} (h : Deficit (f :: ctx) t) (hs : redNear f.sibling = true) :
    ∃ k, loop deleteTurn k (f :: ctx, t) = some (fill ctx (rebalanced f t)) := by
  have hne := h.sibling_ne_nil
  have hn := h.above.2.1
  have hroot := (h.sound_rebalanced hs).root
  obtain ⟨d, c, p, sib⟩ := f
  obtain ⟨cs, x, s, o, rfl⟩ := ColorTree.exists_join d hne
  cases cs with
  | red =>
    obtain ⟨rfl, hx, hxr⟩ := h.red_sibling
    obtain ⟨-, hxn, hon⟩ := (ColorTree.noRedRed_join _ _ _ _ _).mp hn
    obtain ⟨cx, a, v, b, rfl⟩ := ColorTree.exists_join d hx
    obtain rfl : cx = .black := by simpa using hxr
    have han := ((ColorTree.noRedRed_join _ _ _ _ _).mp hxn).2.1
    refine loop_next (deleteTurn_red h.black) ?_
    rw [rebalanced_red] at hroot ⊢
    by_cases hr : a.isRed = true ∨ b.isRed = true
    · exact @loop_levelled _ (⟨d, .black, s, o⟩ :: ctx) _ _ _ _ _ _ _ h.black han hr hroot
    · rw [not_or, Bool.not_eq_true, Bool.not_eq_true] at hr
      refine loop_next (deleteTurn_far h.black hr.1 hr.2) (loop_last ?_)
      rw [deleteTurn_end (by simp), levelled_join, if_neg (by simp [hr]), if_neg (by simp [hr]),
        ColorTree.paint_join]
      rfl
  | black =>
    rw [rebalanced_black] at hroot ⊢
    have hxn := ((ColorTree.noRedRed_join _ _ _ _ _).mp hn).2.1
    refine loop_levelled h.black hxn ?_ hroot
    simpa [redNear_join] using hs

/-- A turn at a black sibling with no red child, that leaves the parent one short. -/
theorem loop_up {f : Frame α} {u : ColorTree α} (h : Deficit (f :: ctx) t)
    (hs : redNear f.sibling = false)
    (hk : ∃ k, loop deleteTurn k (ctx, .join f.side f.color t f.label (f.sibling.paint .red)) =
      some u) : ∃ k, loop deleteTurn k (f :: ctx, t) = some u := by
  have hne := h.sibling_ne_nil
  obtain ⟨d, c, p, sib⟩ := f
  obtain ⟨cs, x, s, o, rfl⟩ := ColorTree.exists_join d hne
  simp only [redNear_join, Bool.or_eq_false_iff, decide_eq_false_iff_not, Color.not_red] at hs
  obtain ⟨⟨rfl, hx⟩, ho⟩ := hs
  refine loop_next (deleteTurn_far h.black hx ho) ?_
  simpa using hk

theorem loop_rebalance (ctx : Context α) {t : ColorTree α} (h : Deficit ctx t) :
    ∃ k, loop deleteTurn k (ctx, t) = some (rebalance ctx t) := by
  fun_induction rebalance ctx t with
  | case1 t => exact loop_last (by rw [deleteTurn, ColorTree.paint_black_of_not_red h.black])
  | case2 f ctx t hs => exact loop_rebalanced h hs
  | case3 f ctx t hs hf =>
    refine loop_up h (by simpa using hs) (loop_last ?_)
    rw [deleteTurn_end (by simp [hf]), ColorTree.paint_join]
  | case4 f ctx t hs hf ih =>
    have hb := Color.not_red.mp hf
    refine loop_up h (by simpa using hs) ?_
    rw [hb]
    exact ih (h.up (by simpa using hs) hb)

/-- What is left of a deletion once a node with one empty side is spliced out. -/
theorem loop_close {d : Side} {child : ColorTree α}
    (h : (fill ctx (.join d .black child s .nil)).IsRedBlack) :
    ∃ k, loop deleteTurn k (ctx, child) = some (close ctx .black child) := by
  cases hchild : child with
  | nil => exact loop_rebalance ctx (deficit_of_close h rfl hchild)
  | node cc a v b =>
    have hred := (only_child h (by simp [hchild])).1
    exact loop_last (by rw [deleteTurn_end (hchild ▸ hred)]; rfl)

theorem cutLeast_eq (acc ctx : Context α) {t : ColorTree α} (ht : t ≠ .nil) :
    ∃ path c s child, descend acc t = (path ++ acc, .node c .nil s child) ∧
      cutLeast ctx t = (path ++ ctx, c, child) ∧ t.inorder.head? = some s := by
  fun_induction descend acc t generalizing ctx with
  | case1 acc c c' l' a' r' a r ih =>
    obtain ⟨path, cs, s, child, hd, hc, hs⟩ := ih (⟨.left, c, a, r⟩ :: ctx) (by simp)
    refine ⟨path ++ [⟨.left, c, a, r⟩], cs, s, child, by simp [hd], by simp [cutLeast, hc], ?_⟩
    rw [ColorTree.inorder, List.head?_append, hs]
    rfl
  | case2 acc t hne =>
    cases t with
    | nil => contradiction
    | node c l a r =>
      cases l with
      | nil => exact ⟨[], c, a, r, rfl, rfl, rfl⟩
      | node c' l' a' r' => exact absurd rfl (hne c c' l' a' r' a r)

theorem splice_eq (ctx : Context α) (t : ColorTree α) : splice ctx t = unlinkHole ctx t := by
  cases t with
  | nil => rfl
  | node c l a r =>
    cases l with
    | nil => cases r <;> rfl
    | node cl la x lb =>
      cases r with
      | nil => rfl
      | node cr ra y rb =>
        obtain ⟨path, cs, s, child, hd, -, hs⟩ :=
          cutLeast_eq [] [] (t := .node cr ra y rb) (by simp)
        obtain ⟨path', cs', s', child', hd', hc, hs'⟩ :=
          cutLeast_eq [] (⟨.right, c, s, .node cl la x lb⟩ :: ctx) (t := .node cr ra y rb) (by simp)
        obtain ⟨tail, hin⟩ := List.head?_eq_some_iff.mp hs
        rw [hd] at hd'
        simp only [Prod.mk.injEq, List.append_left_inj, ColorTree.node.injEq] at hd'
        obtain ⟨rfl, rfl, -, -, rfl⟩ := hd'
        simp only [splice, unlinkHole, hin, hd, hc, List.append_nil]

/-- The code's removal is the textbook's. -/
theorem textbookDelete_unlinkAt {ctx : Context α} {l r : ColorTree α} {n : α}
    (h : (fill ctx (.node c l n r)).IsRedBlack) :
    TextbookDelete ctx (.node c l n r) (unlinkAt ctx (.node c l n r)) := by
  obtain ⟨ctx', cs, child, d, s, heq, hs, -⟩ := unlinkHole_spec ctx c l n r
  have hclose := h.of_shape hs
  rw [TextbookDelete, unlinkAt, splice_eq, heq]
  cases cs with
  | red =>
    cases child with
    | nil => rfl
    | node cc a v b => simpa using (only_child hclose (by simp)).2
  | black => exact loop_close hclose

end Delete

section Unique

theorem loop_unique {turn : Cursor α → Outcome α} {k k' : ℕ} {u : Cursor α} {a b : ColorTree α}
    (ha : loop turn k u = some a) (hb : loop turn k' u = some b) : a = b := by
  induction k generalizing k' u with
  | zero => cases ha
  | succ k ih =>
    cases k' with
    | zero => cases hb
    | succ k' =>
      simp only [loop] at ha hb
      cases hturn : turn u with
      | inl v =>
        rw [hturn] at ha hb
        exact ih ha hb
      | inr t =>
        rw [hturn] at ha hb
        exact Option.some.inj (ha.symm.trans hb)

theorem TextbookInsert.unique {ctx : Context α} {n : α} {a b : ColorTree α}
    (ha : TextbookInsert ctx n a) (hb : TextbookInsert ctx n b) : a = b := by
  obtain ⟨k, hk⟩ := ha
  obtain ⟨k', hk'⟩ := hb
  exact loop_unique hk hk'

theorem TextbookDelete.unique {ctx : Context α} {t a b : ColorTree α}
    (ha : TextbookDelete ctx t a) (hb : TextbookDelete ctx t b) : a = b := by
  unfold TextbookDelete at ha hb
  rcases hs : splice ctx t with ⟨place, c, child⟩
  simp only [hs] at ha hb
  cases c with
  | red => exact ha.trans hb.symm
  | black =>
    obtain ⟨k, hk⟩ := ha
    obtain ⟨k', hk'⟩ := hb
    exact loop_unique hk hk'

end Unique

section Memory

variable {w : ℕ} {h : Heap w} {t : Address w} {T U : ColorTree (Address w)}

/-- The call ends, and the coloured tree at `t` is then the one that `P` describes. -/
def Reaches (h : Heap w) (c : Call w) (t : Address w) (P : ColorTree (Address w) → Prop) : Prop :=
  ∃ h' tr, run (machine packed) c.code h = .ok ((), h', tr) ∧ (∃ U, Laid h' t U) ∧
    ∀ U, Laid h' t U ↔ P U

theorem reaches_of_change {c : Call w} {k : ℕ} {P : ColorTree (Address w) → Prop}
    (hc : Change t c T U k) (hT : Laid h t T) (hrb : T.IsRedBlack)
    (hnd : (T.inorder ++ c.added).Nodup) (hP : P U) (huniq : ∀ V, P V → V = U) :
    Reaches h c t P := by
  obtain ⟨m, hm, hT⟩ := hT
  obtain ⟨⟨⟩, m', tr, hrun, ⟨⟨hU, -⟩, -⟩, -⟩ :=
    wp_sound (exec_change hc hT hrb hnd (owns_regionOf (List.mem_singleton_self t)))
  obtain ⟨h', hrun', hm'⟩ := run_packed hm hrun
  refine ⟨h', tr, hrun', ⟨U, m', hm', hU⟩, fun V => ⟨?_, fun hV => ?_⟩⟩
  · rintro ⟨m'', hm'', hV⟩
    rwa [treeAt_unique hm'' hm' hV hU]
  · rw [huniq V hV]
    exact ⟨m', hm', hU⟩

/-- On every red-black tree the code's insertion and removal reach the coloured trees of
the textbook. -/
theorem reaches_textbook (hT : Laid h t T) (hrb : T.IsRedBlack) (hnd : T.inorder.Nodup) :
    (∀ l n, (l = .root t ∨ ∃ p ∈ T.inorder, l = .left p ∨ l = .right p) → h.load l = none →
      n ∉ T.inorder → ∃ ctx, T = fill ctx .nil ∧ l = hole (.root t) ctx ∧
        Reaches h (.add t l.holder l n) t (TextbookInsert ctx n) ∧
        ∀ p ∈ l.holder, Reaches h (.link p l n) t (TextbookInsert ctx n)) ∧
      ∀ n ∈ T.inorder, ∃ ctx c a b, T = fill ctx (.node c a n b) ∧
        Reaches h (.unlinkStale n) t (TextbookDelete ctx (.node c a n b)) ∧
        Reaches h (.unlink n) t (TextbookDelete ctx (.node c a n b)) := by
  obtain ⟨m, hm, hTm⟩ := id hT
  refine ⟨fun l n hl hload hn => ?_, fun n hn => ?_⟩
  · have hndn : (T.inorder ++ [n]).Nodup :=
      List.nodup_append'.mpr ⟨hnd, List.nodup_singleton n, List.disjoint_singleton.mpr hn⟩
    rcases hl with rfl | ⟨p, hp, hl⟩
    · obtain rfl : T = .nil := by
        rw [← ColorTree.root?_eq_none, ← hTm.load, hm.1, hload]
      have hins := @textbookInsert_insertAt _ [] hrb n
      refine ⟨[], rfl, rfl, ?_, nofun⟩
      exact reaches_of_change (.plant n) hT hrb hndn hins fun V hV => hV.unique hins
    · obtain ⟨d, rfl⟩ : ∃ d, l = .child d p := by
        rcases hl with rfl | rfl
        · exact ⟨.left, rfl⟩
        · exact ⟨.right, rfl⟩
      obtain ⟨f, ctx, rfl, rfl, rfl⟩ := hTm.exists_slot d hp (by rw [hm.1, hload])
      have hins := textbookInsert_insertAt hrb n
      refine ⟨f :: ctx, rfl, rfl, ?_, ?_⟩
      · rw [Slot.holder_child]
        exact reaches_of_change (.add t f ctx n) hT hrb hndn hins fun V hV => hV.unique hins
      · rintro p hp
        rw [Slot.holder_child, Option.mem_some_iff] at hp
        subst hp
        exact reaches_of_change (.link f ctx n) hT hrb hndn hins fun V hV => hV.unique hins
  · obtain ⟨ctx, c, a, b, rfl⟩ := exists_fill_of_mem hn
    have hdel := textbookDelete_unlinkAt hrb
    refine ⟨ctx, c, a, b, rfl, ?_, ?_⟩
    · exact reaches_of_change (.unlinkStale ctx c a n b) hT hrb (by simpa [Call.added] using hnd)
        hdel fun V hV => hV.unique hdel
    · exact reaches_of_change (.unlink ctx c a n b) hT hrb (by simpa [Call.added] using hnd)
        hdel fun V hV => hV.unique hdel

/-- An insertion that rotates, and the removals of a root with a successor further down and of
a black leaf. -/
theorem reaches_textbook_sample :
    (∃ ctx, sampleTree = fill ctx .nil ∧ .right (cell 8) = hole (.root (cell 1)) ctx ∧
      Reaches sampleHeap (.add (cell 1) (some (cell 8)) (.right (cell 8)) (cell 2)) (cell 1)
        (TextbookInsert ctx (cell 2)) ∧
      Reaches sampleHeap (.link (cell 8) (.right (cell 8)) (cell 2)) (cell 1)
        (TextbookInsert ctx (cell 2))) ∧
      ∀ n ∈ [cell 6, cell 9], ∃ ctx c a b, sampleTree = fill ctx (.node c a n b) ∧
        Reaches sampleHeap (.unlinkStale n) (cell 1) (TextbookDelete ctx (.node c a n b)) ∧
        Reaches sampleHeap (.unlink n) (cell 1) (TextbookDelete ctx (.node c a n b)) := by
  obtain ⟨hinsert, hdelete⟩ :=
    reaches_textbook laid_sampleTree isRedBlack_sampleTree nodup_sampleTree
  obtain ⟨ctx, hfill, hhole, hadd, hlink⟩ := hinsert (.right (cell 8)) (cell 2)
    (.inr ⟨cell 8, by decide, .inr rfl⟩) (by decide +kernel) (by decide)
  refine ⟨⟨ctx, hfill, hhole, hadd, hlink _ rfl⟩, fun n hn => hdelete n ?_⟩
  revert n
  simp [sampleTree, ColorTree.inorder]

end Memory

end CRbtree
