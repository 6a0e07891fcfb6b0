import Mathlib.Data.List.Nodup
import Mathlib.Data.List.Perm.Basic
import Mathlib.Tactic.Ring

set_option autoImplicit false

/-!
Coloured binary trees and the contexts that surround a subtree. A context is the
list of its frames from the hole up to the root, each with the side the hole is on.
-/

namespace RedBlack

inductive Color where
  | red | black
  deriving DecidableEq, Repr

inductive Side where
  | left | right
  deriving DecidableEq, Repr

def Side.flip : Side → Side
  | .left => .right
  | .right => .left

@[simp] theorem Side.flip_flip (d : Side) : d.flip.flip = d := by cases d <;> rfl

@[simp] theorem Side.flip_ne (d : Side) : d.flip ≠ d := by cases d <;> decide

@[simp] theorem Side.ne_flip (d : Side) : d ≠ d.flip := by cases d <;> decide

theorem Side.eq_flip {d e : Side} (h : d ≠ e) : d = e.flip := by
  cases d <;> cases e <;> simp_all [flip]

@[simp] theorem Color.not_red {c : Color} : ¬c = .red ↔ c = .black := by cases c <;> simp

@[simp] theorem Color.not_black {c : Color} : ¬c = .black ↔ c = .red := by cases c <;> simp

/-- What a node adds to the black count of the paths through it. -/
def Color.weight : Color → ℕ
  | .red => 0
  | .black => 1

inductive ColorTree (α : Type) where
  | nil : ColorTree α
  | node (c : Color) (l : ColorTree α) (a : α) (r : ColorTree α) : ColorTree α
  deriving DecidableEq, Repr

namespace ColorTree

variable {α : Type}

def root? : ColorTree α → Option α
  | nil => none
  | node _ _ a _ => some a

def isRed : ColorTree α → Bool
  | nil => false
  | node c _ _ _ => c = .red

def paint (c : Color) : ColorTree α → ColorTree α
  | nil => nil
  | node _ l a r => node c l a r

def child : Side → ColorTree α → ColorTree α
  | _, nil => nil
  | .left, node _ l _ _ => l
  | .right, node _ _ _ r => r

/-- The node `a` with `t` on side `d` and `u` on the other side. -/
def join (d : Side) (c : Color) (t : ColorTree α) (a : α) (u : ColorTree α) : ColorTree α :=
  match d with
  | .left => node c t a u
  | .right => node c u a t

/-- The subtree at the end of a path. -/
def sub : ColorTree α → List Side → ColorTree α
  | t, [] => t
  | t, d :: ds => (t.child d).sub ds

def inorder : ColorTree α → List α
  | nil => []
  | node _ l a r => l.inorder ++ a :: r.inorder

def size : ColorTree α → ℕ
  | nil => 0
  | node _ l _ r => l.size + r.size + 1

/-- The number of nodes on the longest path down from the root. -/
def height : ColorTree α → ℕ
  | nil => 0
  | node _ l _ r => max l.height r.height + 1

/-- The first node in order, or the last one. -/
def extreme (d : Side) : ColorTree α → Option α
  | nil => none
  | node _ l a r =>
    match d with
    | .left => (l.extreme d).or (some a)
    | .right => (r.extreme d).or (some a)

/-- The first leaf on the way down along side `d`, that turns off where it must. -/
def deepest (d : Side) : ColorTree α → Option α
  | nil => none
  | node _ l a r =>
    match d with
    | .left => ((l.deepest d).or (r.deepest d)).or (some a)
    | .right => ((r.deepest d).or (l.deepest d)).or (some a)

/-- The number of black nodes on the path along the left spine. -/
def blackHeight : ColorTree α → ℕ
  | nil => 0
  | node c l _ _ => l.blackHeight + c.weight

/-- Every path down to an empty subtree passes the same number of black nodes. -/
def Balanced : ColorTree α → Prop
  | nil => True
  | node _ l _ r => l.Balanced ∧ r.Balanced ∧ l.blackHeight = r.blackHeight

def NoRedRed : ColorTree α → Prop
  | nil => True
  | node c l _ r => (c = .red → l.isRed = false ∧ r.isRed = false) ∧ l.NoRedRed ∧ r.NoRedRed

instance : (t : ColorTree α) → Decidable t.Balanced
  | nil => .isTrue trivial
  | node _ l _ r =>
    have := instDecidableBalanced l
    have := instDecidableBalanced r
    inferInstanceAs (Decidable (_ ∧ _ ∧ _))

instance : (t : ColorTree α) → Decidable t.NoRedRed
  | nil => .isTrue trivial
  | node c l _ r =>
    have := instDecidableNoRedRed l
    have := instDecidableNoRedRed r
    inferInstanceAs (Decidable ((c = .red → _ ∧ _) ∧ _ ∧ _))

/-- The tree without its labels. -/
def shape : ColorTree α → ColorTree Unit
  | nil => nil
  | node c l _ r => node c l.shape () r.shape

structure IsRedBlack (t : ColorTree α) : Prop where
  root : t.isRed = false
  alternating : t.NoRedRed
  balanced : t.Balanced

@[simp] theorem size_eq_length (t : ColorTree α) : t.inorder.length = t.size := by
  induction t with
  | nil => rfl
  | node c l a r hl hr => simp [inorder, size, hl, hr]; omega

@[simp] theorem isRed_nil : (nil : ColorTree α).isRed = false := rfl

@[simp] theorem isRed_node (c : Color) (l : ColorTree α) (a : α) (r : ColorTree α) :
    (node c l a r).isRed = decide (c = .red) := rfl

@[simp] theorem root?_paint (c : Color) (t : ColorTree α) : (t.paint c).root? = t.root? := by
  cases t <;> rfl

theorem paint_paint (t : ColorTree α) (c c' : Color) : (t.paint c).paint c' = t.paint c' := by
  cases t <;> rfl

@[simp] theorem inorder_paint (c : Color) (t : ColorTree α) : (t.paint c).inorder = t.inorder := by
  cases t <;> rfl

@[simp] theorem isRed_paint_black (t : ColorTree α) : (t.paint .black).isRed = false := by
  cases t <;> simp [paint, isRed]

theorem noRedRed_paint_black {t : ColorTree α} (h : t.NoRedRed) : (t.paint .black).NoRedRed := by
  cases t with
  | nil => trivial
  | node c l a r => exact ⟨nofun, h.2⟩

/-- Painting black what is not red changes nothing. -/
theorem paint_black_of_not_red {t : ColorTree α} (h : t.isRed = false) : t.paint .black = t := by
  cases t with
  | nil => rfl
  | node c l a r =>
    cases c with
    | red => simp [isRed] at h
    | black => rfl

theorem mem_of_root? {t : ColorTree α} {a : α} (h : t.root? = some a) : a ∈ t.inorder := by
  cases t with
  | nil => simp [root?] at h
  | node c l b r =>
    simp only [root?, Option.some.injEq] at h
    simp [inorder, h]

theorem root?_of_isRed {t : ColorTree α} (h : t.isRed = true) : ∃ a, t.root? = some a := by
  cases t with
  | nil => cases h
  | node c l a r => exact ⟨a, rfl⟩

@[simp] theorem root?_eq_none {t : ColorTree α} : t.root? = none ↔ t = nil := by
  cases t <;> simp [root?]

@[simp] theorem isRed_shape (t : ColorTree α) : t.shape.isRed = t.isRed := by cases t <;> rfl

@[simp] theorem blackHeight_shape (t : ColorTree α) : t.shape.blackHeight = t.blackHeight := by
  induction t with
  | nil => rfl
  | node c l a r hl hr => simp [shape, blackHeight, hl]

theorem noRedRed_shape (t : ColorTree α) : t.shape.NoRedRed ↔ t.NoRedRed := by
  induction t with
  | nil => rfl
  | node c l a r hl hr => simp [shape, NoRedRed, hl, hr]

theorem balanced_shape (t : ColorTree α) : t.shape.Balanced ↔ t.Balanced := by
  induction t with
  | nil => rfl
  | node c l a r hl hr => simp [shape, Balanced, hl, hr]

/-- Labels do not matter for the balance of a tree. -/
theorem IsRedBlack.of_shape {t u : ColorTree α} (h : t.IsRedBlack) (hs : t.shape = u.shape) :
    u.IsRedBlack := by
  refine ⟨?_, ?_, ?_⟩
  · rw [← isRed_shape, ← hs, isRed_shape]
    exact h.root
  · rw [← noRedRed_shape, ← hs, noRedRed_shape]
    exact h.alternating
  · rw [← balanced_shape, ← hs, balanced_shape]
    exact h.balanced

section Join

variable (d : Side) (c : Color) (t u : ColorTree α) (a : α)

@[simp] theorem root?_join : (join d c t a u).root? = some a := by cases d <;> rfl

@[simp] theorem isRed_join : (join d c t a u).isRed = decide (c = .red) := by cases d <;> rfl

@[simp] theorem paint_join (c' : Color) : (join d c t a u).paint c' = join d c' t a u := by
  cases d <;> rfl

@[simp] theorem child_join : (join d c t a u).child d = t := by cases d <;> rfl

@[simp] theorem child_flip_join : (join d c t a u).child d.flip = u := by cases d <;> rfl

@[simp] theorem extreme_join : (join d c t a u).extreme d = (t.extreme d).or (some a) := by
  cases d <;> rfl

@[simp] theorem deepest_join :
    (join d c t a u).deepest d = ((t.deepest d).or (u.deepest d)).or (some a) := by
  cases d <;> rfl

theorem height_join : (join d c t a u).height = max t.height u.height + 1 := by
  cases d <;> simp [join, height, Nat.max_comm]

theorem join_flip : join d.flip c t a u = join d c u a t := by cases d <;> rfl

@[simp] theorem size_join : (join d c t a u).size = t.size + u.size + 1 := by
  cases d <;> simp [join, size, Nat.add_comm]

@[simp] theorem mem_join {b : α} :
    b ∈ (join d c t a u).inorder ↔ b = a ∨ b ∈ t.inorder ∨ b ∈ u.inorder := by
  cases d <;> simp [join, inorder] <;> tauto

@[simp] theorem nodup_join : (join d c t a u).inorder.Nodup ↔
    a ∉ t.inorder ∧ a ∉ u.inorder ∧ t.inorder.Nodup ∧ u.inorder.Nodup ∧
      t.inorder.Disjoint u.inorder := by
  cases d <;> simp [join, inorder, List.nodup_append', List.disjoint_comm] <;> tauto

@[simp] theorem disjoint_join_left {l : List α} : (join d c t a u).inorder.Disjoint l ↔
    a ∉ l ∧ t.inorder.Disjoint l ∧ u.inorder.Disjoint l := by
  cases d <;> simp [join, inorder, List.disjoint_append_left, List.disjoint_cons_left] <;> tauto

@[simp] theorem disjoint_join_right {l : List α} : l.Disjoint (join d c t a u).inorder ↔
    a ∉ l ∧ l.Disjoint t.inorder ∧ l.Disjoint u.inorder := by
  rw [List.disjoint_comm, disjoint_join_left, @List.disjoint_comm _ l, @List.disjoint_comm _ l]

@[simp] theorem noRedRed_join : (join d c t a u).NoRedRed ↔
    (c = .red → t.isRed = false ∧ u.isRed = false) ∧ t.NoRedRed ∧ u.NoRedRed := by
  cases d with
  | left => rfl
  | right => simp only [join, NoRedRed]; tauto

@[simp] theorem balanced_join : (join d c t a u).Balanced ↔
    t.Balanced ∧ u.Balanced ∧ t.blackHeight = u.blackHeight := by
  cases d with
  | left => rfl
  | right => simp only [join, Balanced]; grind

theorem blackHeight_join (h : t.blackHeight = u.blackHeight) :
    (join d c t a u).blackHeight = t.blackHeight + c.weight := by
  cases d <;> simp [join, blackHeight, h]

end Join

theorem inorder_turn (d : Side) (c₁ c₂ c₃ c₄ : Color) (t u v : ColorTree α) (a b : α) :
    (join d c₁ (join d c₂ t a u) b v).inorder = (join d c₃ t a (join d c₄ u b v)).inorder := by
  cases d <;> simp [join, inorder]

/-- Every nonempty tree is a join on either side. -/
theorem node_eq_join (d : Side) (c : Color) (l : ColorTree α) (a : α) (r : ColorTree α) :
    node c l a r = join d c ((node c l a r).child d) a ((node c l a r).child d.flip) := by
  cases d <;> rfl

theorem exists_join (d : Side) {t : ColorTree α} (h : t ≠ nil) :
    ∃ c u a v, t = join d c u a v := by
  cases t with
  | nil => exact absurd rfl h
  | node c l a r => exact ⟨c, _, a, _, node_eq_join d c l a r⟩

@[simp] theorem sub_nil (ds : List Side) : (nil : ColorTree α).sub ds = nil := by
  induction ds with
  | nil => rfl
  | cons d ds ih => exact ih

theorem mem_of_mem_child {d : Side} {t : ColorTree α} {a : α} (h : a ∈ (t.child d).inorder) :
    a ∈ t.inorder := by
  cases t with
  | nil => exact h
  | node c l b r => cases d <;> simp_all [child, inorder]

theorem mem_of_mem_sub {t : ColorTree α} {ds : List Side} {a : α} (h : a ∈ (t.sub ds).inorder) :
    a ∈ t.inorder := by
  induction ds generalizing t with
  | nil => exact h
  | cons d ds ih => exact mem_of_mem_child (ih h)

theorem mem_iff_exists_sub {t : ColorTree α} {a : α} :
    a ∈ t.inorder ↔ ∃ ds, (t.sub ds).root? = some a := by
  refine ⟨fun h => ?_, fun ⟨ds, hds⟩ => mem_of_mem_sub (mem_of_root? hds)⟩
  induction t with
  | nil => simp [inorder] at h
  | node c l b r hl hr =>
    simp only [inorder, List.mem_append, List.mem_cons] at h
    rcases h with h | rfl | h
    · obtain ⟨ds, hds⟩ := hl h
      exact ⟨.left :: ds, hds⟩
    · exact ⟨[], rfl⟩
    · obtain ⟨ds, hds⟩ := hr h
      exact ⟨.right :: ds, hds⟩

/-- Without repeated labels every node is at the end of one path. -/
theorem eq_of_sub {t : ColorTree α} (hnd : t.inorder.Nodup) {ds ds' : List Side} {a : α}
    (h : (t.sub ds).root? = some a) (h' : (t.sub ds').root? = some a) : ds = ds' := by
  induction ds generalizing t ds' with
  | nil =>
    cases ds' with
    | nil => rfl
    | cons e ds' =>
      obtain ⟨c, u, b, v, rfl⟩ := exists_join e (t := t) (by rintro rfl; simp [sub, root?] at h)
      simp only [sub, child_join, root?_join, Option.some.injEq] at h h'
      obtain rfl := h
      rw [nodup_join] at hnd
      exact absurd (mem_of_mem_sub (mem_of_root? h')) hnd.1
  | cons d ds ih =>
    obtain ⟨c, u, b, v, rfl⟩ := exists_join d (t := t) (by rintro rfl; simp [root?] at h)
    rw [nodup_join] at hnd
    simp only [sub, child_join] at h
    have ha := mem_of_mem_sub (mem_of_root? h)
    cases ds' with
    | nil =>
      simp only [sub, root?_join, Option.some.injEq] at h'
      exact absurd (h' ▸ ha) hnd.1
    | cons e ds' =>
      by_cases hde : e = d
      · subst hde
        simp only [sub, child_join] at h'
        rw [ih hnd.2.2.1 h h']
      · obtain rfl := Side.eq_flip hde
        simp only [sub, child_flip_join] at h'
        exact absurd (mem_of_mem_sub (mem_of_root? h')) (hnd.2.2.2.2 ha)

theorem length_lt_height {t : ColorTree α} {ds : List Side} (h : t.sub ds ≠ nil) :
    ds.length < t.height := by
  induction ds generalizing t with
  | nil =>
    cases t with
    | nil => contradiction
    | node c l a r => simp [height]
  | cons d ds ih =>
    obtain ⟨c, u, b, v, rfl⟩ := exists_join d (t := t) (by rintro rfl; simp at h)
    simp only [sub, child_join] at h
    have hlt := ih h
    rw [height_join, List.length_cons]
    omega

theorem size_child_lt {t : ColorTree α} (h : t ≠ nil) (d : Side) : (t.child d).size < t.size := by
  cases t with
  | nil => contradiction
  | node c l a r => cases d <;> simp only [child, size] <;> omega

theorem size_sub_le (t : ColorTree α) (ds : List Side) : (t.sub ds).size ≤ t.size := by
  induction ds generalizing t with
  | nil => exact Nat.le_refl _
  | cons d ds ih =>
    refine (ih (t.child d)).trans ?_
    cases t with
    | nil => exact Nat.le_refl _
    | node c l a r => exact (size_child_lt (by simp) d).le

/-- Some path is as long as the tree is high. -/
theorem exists_path {t : ColorTree α} (h : t ≠ nil) :
    ∃ ds, ds.length + 1 = t.height ∧ t.sub ds ≠ nil := by
  induction t with
  | nil => contradiction
  | node c l a r ihl ihr =>
    by_cases hl : r.height < l.height
    · obtain ⟨ds, hds, hne⟩ := ihl (by rintro rfl; simp [height] at hl)
      exact ⟨.left :: ds, by simp only [List.length_cons, height]; omega, hne⟩
    · by_cases hr : r = nil
      · subst hr
        have hzero : l.height = 0 := by simpa [height] using hl
        exact ⟨[], by simp [height, hzero], by simp [sub]⟩
      · obtain ⟨ds, hds, hne⟩ := ihr hr
        exact ⟨.right :: ds, by simp only [List.length_cons, height]; omega, hne⟩

theorem extreme_eq_none {d : Side} {t : ColorTree α} : t.extreme d = none ↔ t = nil := by
  cases t with
  | nil => simp [extreme]
  | node c l a r => cases d <;> simp [extreme]

theorem deepest_eq_none {d : Side} {t : ColorTree α} : t.deepest d = none ↔ t = nil := by
  cases t with
  | nil => simp [deepest]
  | node c l a r => cases d <;> simp [deepest]

theorem height_le_size (t : ColorTree α) : t.height ≤ t.size := by
  induction t with
  | nil => exact Nat.le_refl 0
  | node c l a r hl hr => simp only [height, size]; omega

theorem size_lt_two_pow_height (t : ColorTree α) : t.size < 2 ^ t.height := by
  induction t with
  | nil => simp [size, height]
  | node c l a r hl hr =>
    have hmaxl := Nat.pow_le_pow_right (show 0 < 2 by decide) (Nat.le_max_left l.height r.height)
    have hmaxr := Nat.pow_le_pow_right (show 0 < 2 by decide) (Nat.le_max_right l.height r.height)
    rw [size, height, Nat.pow_succ]
    omega

theorem height_le_blackHeight {t : ColorTree α} (hb : t.Balanced) (hn : t.NoRedRed) :
    t.height ≤ 2 * t.blackHeight + t.isRed.toNat := by
  induction t with
  | nil => simp [height]
  | node c l a r hl hr =>
    obtain ⟨hbl, hbr, heq⟩ := hb
    obtain ⟨hc, hnl, hnr⟩ := hn
    have h₁ := hl hbl hnl
    have h₂ := hr hbr hnr
    cases c with
    | red =>
      obtain ⟨hl', hr'⟩ := hc rfl
      simp only [hl', hr', Bool.toNat_false] at h₁ h₂
      simp [height, blackHeight, isRed, Color.weight]
      omega
    | black =>
      have h₃ := l.isRed.toNat_le
      have h₄ := r.isRed.toNat_le
      simp [height, blackHeight, isRed, Color.weight]
      omega

theorem two_pow_blackHeight_le {t : ColorTree α} (hb : t.Balanced) :
    2 ^ t.blackHeight ≤ t.size + 1 := by
  induction t with
  | nil => simp [blackHeight]
  | node c l a r hl hr =>
    obtain ⟨hbl, hbr, heq⟩ := hb
    have h₁ := hl hbl
    have h₂ := hr hbr
    rw [← heq] at h₂
    cases c <;> simp only [blackHeight, size, Color.weight, Nat.pow_succ, Nat.add_zero] <;> omega

/-- A red-black tree of `n` nodes and height `h` has `2 ^ h ≤ (n + 1) ^ 2`. -/
theorem IsRedBlack.two_pow_height_le {t : ColorTree α} (h : t.IsRedBlack) :
    2 ^ t.height ≤ (t.size + 1) ^ 2 := by
  have hh := height_le_blackHeight h.balanced h.alternating
  simp only [h.root, Bool.toNat_false, Nat.add_zero] at hh
  calc 2 ^ t.height ≤ 2 ^ (2 * t.blackHeight) := Nat.pow_le_pow_right (by decide) hh
    _ = (2 ^ t.blackHeight) ^ 2 := by rw [Nat.mul_comm, Nat.pow_mul]
    _ ≤ (t.size + 1) ^ 2 := Nat.pow_le_pow_left (two_pow_blackHeight_le h.balanced) 2

end ColorTree

/-- One ancestor of the hole: the hole is its child on `side`, `sibling` the other one. -/
structure Frame (α : Type) where
  side : Side
  color : Color
  label : α
  sibling : ColorTree α
  deriving DecidableEq, Repr

/-- The surroundings of a hole, innermost ancestor first. -/
abbrev Context (α : Type) := List (Frame α)

open ColorTree

variable {α : Type}

def Frame.wrap (f : Frame α) (t : ColorTree α) : ColorTree α :=
  join f.side f.color t f.label f.sibling

def fill : Context α → ColorTree α → ColorTree α
  | [], t => t
  | f :: ctx, t => fill ctx (f.wrap t)

/-- The labels of the context, in no particular order. -/
def elems : Context α → List α
  | [] => []
  | f :: ctx => f.label :: (f.sibling.inorder ++ elems ctx)

def before : Context α → List α
  | [] => []
  | f :: ctx =>
    match f.side with
    | .left => before ctx
    | .right => before ctx ++ f.sibling.inorder ++ [f.label]

def after : Context α → List α
  | [] => []
  | f :: ctx =>
    match f.side with
    | .left => f.label :: f.sibling.inorder ++ after ctx
    | .right => after ctx

@[simp] theorem fill_nil (t : ColorTree α) : fill [] t = t := rfl

theorem fill_append (ctx ctx' : Context α) (t : ColorTree α) :
    fill (ctx ++ ctx') t = fill ctx' (fill ctx t) := by
  induction ctx generalizing t with
  | nil => rfl
  | cons f ctx ih => exact ih (f.wrap t)

theorem inorder_fill (ctx : Context α) (t : ColorTree α) :
    (fill ctx t).inorder = before ctx ++ t.inorder ++ after ctx := by
  induction ctx generalizing t with
  | nil => simp [fill, before, after]
  | cons f ctx ih =>
    obtain ⟨d, c, a, u⟩ := f
    cases d <;> simp [fill, ih, Frame.wrap, join, before, after, inorder]

theorem length_add_height_le (ctx : Context α) (t : ColorTree α) :
    ctx.length + t.height ≤ (fill ctx t).height := by
  induction ctx generalizing t with
  | nil => simp
  | cons f ctx ih =>
    have hwrap := ih (f.wrap t)
    simp only [Frame.wrap, ColorTree.height_join] at hwrap
    simp only [fill, List.length_cons, Frame.wrap]
    omega

/-- Only the in-order list of what fills the hole matters for the in-order list. -/
theorem inorder_fill_congr (ctx : Context α) {t u : ColorTree α} (h : t.inorder = u.inorder) :
    (fill ctx t).inorder = (fill ctx u).inorder := by
  rw [inorder_fill, inorder_fill, h]

theorem before_eq_nil {ctx : Context α} (h : ∀ f ∈ ctx, f.side = .left) : before ctx = [] := by
  induction ctx with
  | nil => rfl
  | cons f ctx ih =>
    obtain ⟨hf, hctx⟩ := List.forall_mem_cons.mp h
    simp only [before, hf, ih hctx]

theorem elems_perm (ctx : Context α) : (elems ctx).Perm (before ctx ++ after ctx) := by
  induction ctx with
  | nil => exact .refl _
  | cons f ctx ih =>
    obtain ⟨d, c, a, u⟩ := f
    cases d with
    | left =>
      simp only [elems, before, after, List.cons_append]
      refine .trans ?_ List.perm_middle.symm
      refine List.Perm.cons _ ?_
      refine .trans (List.Perm.append_left _ ih) ?_
      rw [← List.append_assoc, ← List.append_assoc]
      exact List.Perm.append_right _ List.perm_append_comm
    | right =>
      simp only [elems, before, after, List.append_assoc, List.singleton_append]
      rw [← List.append_assoc (before ctx)]
      refine .trans (List.Perm.cons _ ?_) List.perm_middle.symm
      refine .trans (List.Perm.append_left _ ih) ?_
      rw [← List.append_assoc]
      exact List.Perm.append_right _ List.perm_append_comm

theorem fill_perm (ctx : Context α) (t : ColorTree α) :
    (fill ctx t).inorder.Perm (t.inorder ++ elems ctx) := by
  rw [inorder_fill]
  refine .trans (List.Perm.append_right _ List.perm_append_comm) ?_
  rw [List.append_assoc]
  exact List.Perm.append_left _ (elems_perm ctx).symm

theorem nodup_fill {ctx : Context α} {t : ColorTree α} :
    (fill ctx t).inorder.Nodup ↔ (t.inorder ++ elems ctx).Nodup :=
  (fill_perm ctx t).nodup_iff

theorem nodup_wrap {f : Frame α} {ctx : Context α} {t : ColorTree α}
    (h : (fill (f :: ctx) t).inorder.Nodup) :
    (f.wrap t).inorder.Nodup ∧ (f.wrap t).inorder.Disjoint (elems ctx) := by
  rw [fill, nodup_fill, List.nodup_append'] at h
  exact ⟨h.1, h.2.2⟩

theorem mem_fill {ctx : Context α} {t : ColorTree α} {a : α} :
    a ∈ (fill ctx t).inorder ↔ a ∈ t.inorder ∨ a ∈ elems ctx := by
  rw [(fill_perm ctx t).mem_iff, List.mem_append]

@[simp] theorem disjoint_fill_left {ctx : Context α} {t : ColorTree α} {l : List α} :
    (fill ctx t).inorder.Disjoint l ↔ t.inorder.Disjoint l ∧ (elems ctx).Disjoint l := by
  rw [(fill_perm ctx t).disjoint_left, List.disjoint_append_left]

@[simp] theorem disjoint_fill_right {ctx : Context α} {t : ColorTree α} {l : List α} :
    l.Disjoint (fill ctx t).inorder ↔ l.Disjoint t.inorder ∧ l.Disjoint (elems ctx) := by
  rw [(fill_perm ctx t).disjoint_right, List.disjoint_append_right]

theorem extreme_fill {d : Side} {ctx : Context α} {t : ColorTree α} {a : α}
    (hctx : ∀ f ∈ ctx, f.side = d) (ht : t.extreme d = some a) :
    (fill ctx t).extreme d = some a := by
  induction ctx generalizing t with
  | nil => exact ht
  | cons f ctx ih =>
    obtain ⟨rfl, hctx⟩ := List.forall_mem_cons.mp hctx
    exact ih hctx (by simp [Frame.wrap, ht])

theorem fill_ne_nil (ctx : Context α) {t : ColorTree α} (ht : t ≠ .nil) : fill ctx t ≠ .nil := by
  induction ctx generalizing t with
  | nil => exact ht
  | cons f ctx ih => exact ih (by cases h : f.side <;> simp [Frame.wrap, h, join])

/-- Every node of a tree is the root of what fills some context. -/
theorem exists_fill_of_mem {t : ColorTree α} {a : α} (h : a ∈ t.inorder) :
    ∃ ctx c l r, t = fill ctx (.node c l a r) := by
  induction t with
  | nil => simp [inorder] at h
  | node c l b r hl hr =>
    simp only [inorder, List.mem_append, List.mem_cons] at h
    rcases h with h | rfl | h
    · obtain ⟨ctx, c', l', r', rfl⟩ := hl h
      exact ⟨ctx ++ [⟨.left, c, b, r⟩], c', l', r', by rw [fill_append]; rfl⟩
    · exact ⟨[], c, l, r, rfl⟩
    · obtain ⟨ctx, c', l', r', rfl⟩ := hr h
      exact ⟨ctx ++ [⟨.right, c, b, l⟩], c', l', r', by rw [fill_append]; rfl⟩

theorem root?_fill_cons (f : Frame α) (ctx : Context α) (t : ColorTree α) :
    ∃ x ∈ elems (f :: ctx), (fill (f :: ctx) t).root? = some x := by
  induction ctx generalizing f t with
  | nil => exact ⟨f.label, by simp [elems], by simp [fill, Frame.wrap]⟩
  | cons g ctx ih =>
    obtain ⟨x, hx, hroot⟩ := ih g (f.wrap t)
    refine ⟨x, ?_, hroot⟩
    simp only [elems, List.mem_cons, List.mem_append] at hx ⊢
    tauto

theorem length_le_elems (ctx : Context α) : ctx.length ≤ (elems ctx).length := by
  induction ctx with
  | nil => exact Nat.le_refl 0
  | cons f ctx ih => simp [elems]; omega

theorem mem_elems {ctx : Context α} {a : α} :
    a ∈ elems ctx ↔ ∃ f ∈ ctx, a = f.label ∨ a ∈ f.sibling.inorder := by
  induction ctx with
  | nil => simp [elems]
  | cons f ctx ih => simp [elems, ih, or_assoc]

theorem elems_append (ctx ctx' : Context α) : elems (ctx ++ ctx') = elems ctx ++ elems ctx' := by
  induction ctx with
  | nil => rfl
  | cons f ctx ih => simp [elems, ih]

/-- What a context asks of the black height in its hole to be balanced. -/
def Level : Context α → ℕ → Prop
  | [], _ => True
  | f :: ctx, k => f.sibling.Balanced ∧ f.sibling.blackHeight = k ∧ Level ctx (k + f.color.weight)

/-- No two neighbouring red nodes in a context, given whether its hole is red. -/
def Alternating : Context α → Bool → Prop
  | [], _ => True
  | f :: ctx, b =>
    (f.color = .red → b = false ∧ f.sibling.isRed = false) ∧ f.sibling.NoRedRed ∧
      Alternating ctx (f.color = .red)

/-- Whether the root is red, given whether the hole is. -/
def topRed : Context α → Bool → Bool
  | [], b => b
  | f :: ctx, _ => topRed ctx (f.color = .red)

theorem balanced_fill {ctx : Context α} {t : ColorTree α} :
    (fill ctx t).Balanced ↔ t.Balanced ∧ Level ctx t.blackHeight := by
  induction ctx generalizing t with
  | nil => simp [Level]
  | cons f ctx ih =>
    simp only [fill, ih, Frame.wrap, balanced_join, Level]
    constructor
    · rintro ⟨⟨ht, hu, he⟩, hl⟩
      rw [blackHeight_join _ _ _ _ _ he] at hl
      exact ⟨ht, hu, he.symm, hl⟩
    · rintro ⟨ht, hu, he, hl⟩
      rw [blackHeight_join _ _ _ _ _ he.symm]
      exact ⟨⟨ht, hu, he.symm⟩, hl⟩

theorem noRedRed_fill {ctx : Context α} {t : ColorTree α} :
    (fill ctx t).NoRedRed ↔ t.NoRedRed ∧ Alternating ctx t.isRed := by
  induction ctx generalizing t with
  | nil => simp [Alternating]
  | cons f ctx ih =>
    simp only [fill, ih, Frame.wrap, noRedRed_join, isRed_join, Alternating]
    tauto

theorem isRed_fill (ctx : Context α) (t : ColorTree α) :
    (fill ctx t).isRed = topRed ctx t.isRed := by
  induction ctx generalizing t with
  | nil => rfl
  | cons f ctx ih => simp only [fill, ih, Frame.wrap, isRed_join, topRed]

theorem isRedBlack_fill {ctx : Context α} {t : ColorTree α} :
    (fill ctx t).IsRedBlack ↔ topRed ctx t.isRed = false ∧ (t.NoRedRed ∧ Alternating ctx t.isRed) ∧
      t.Balanced ∧ Level ctx t.blackHeight := by
  rw [← isRed_fill, ← noRedRed_fill, ← balanced_fill]
  exact ⟨fun h => ⟨h.root, h.alternating, h.balanced⟩, fun h => ⟨h.1, h.2.1, h.2.2⟩⟩

/-- A context that takes a red hole takes a black one. -/
theorem Alternating.black {ctx : Context α} {b : Bool} (h : Alternating ctx b) :
    Alternating ctx false := by
  cases ctx with
  | nil => trivial
  | cons f ctx => exact ⟨fun hr => ⟨rfl, (h.1 hr).2⟩, h.2⟩

theorem shape_fill_congr (ctx : Context α) {t u : ColorTree α} (h : t.shape = u.shape) :
    (fill ctx t).shape = (fill ctx u).shape := by
  induction ctx generalizing t u with
  | nil => exact h
  | cons f ctx ih => exact ih (by cases hd : f.side <;> simp [Frame.wrap, hd, join, shape, h])

theorem shape_relabel (ctx ctx' : Context α) (d : Side) (c : Color) (a b : α)
    (t u : ColorTree α) :
    (fill (ctx' ++ ⟨d, c, a, u⟩ :: ctx) t).shape =
      (fill (ctx' ++ ⟨d, c, b, u⟩ :: ctx) t).shape := by
  rw [fill_append, fill_append]
  refine shape_fill_congr ctx ?_
  cases d <;> rfl

theorem topRed_cons (f : Frame α) (ctx : Context α) (b b' : Bool) :
    topRed (f :: ctx) b = topRed (f :: ctx) b' := rfl

end RedBlack
