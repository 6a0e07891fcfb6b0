import CRbtree.Orders
import CRbtree.PointerGraphs

set_option autoImplicit false

/-!
Mirror images of coloured trees and contexts, and of slots.
-/

namespace RedBlack

variable {α : Type}

namespace ColorTree

def mirror : ColorTree α → ColorTree α
  | nil => nil
  | node c l a r => node c r.mirror a l.mirror

variable {d : Side} {c : Color} {t u : ColorTree α} {a : α}

@[simp] theorem mirror_nil : (nil : ColorTree α).mirror = nil := rfl

@[simp] theorem mirror_node (l r : ColorTree α) :
    (node c l a r).mirror = node c r.mirror a l.mirror := rfl

@[simp] theorem mirror_join : (join d c t a u).mirror = join d.flip c t.mirror a u.mirror := by
  cases d <;> rfl

@[simp] theorem root?_mirror (t : ColorTree α) : t.mirror.root? = t.root? := by cases t <;> rfl

@[simp] theorem isRed_mirror (t : ColorTree α) : t.mirror.isRed = t.isRed := by cases t <;> rfl

@[simp] theorem mirror_paint (t : ColorTree α) : (t.paint c).mirror = t.mirror.paint c := by
  cases t <;> rfl

@[simp] theorem child_mirror (d : Side) (t : ColorTree α) :
    t.mirror.child d = (t.child d.flip).mirror := by
  cases t <;> cases d <;> rfl

@[simp] theorem inorder_mirror (t : ColorTree α) : t.mirror.inorder = t.inorder.reverse := by
  induction t with
  | nil => rfl
  | node c l a r hl hr => simp [inorder, hl, hr]

theorem extreme_mirror (d : Side) (t : ColorTree α) : t.mirror.extreme d = t.extreme d.flip := by
  induction t with
  | nil => rfl
  | node c l a r hl hr => cases d <;> simp [extreme, Side.flip, hl, hr]

theorem deepest_mirror (d : Side) (t : ColorTree α) : t.mirror.deepest d = t.deepest d.flip := by
  induction t with
  | nil => rfl
  | node c l a r hl hr => cases d <;> simp [deepest, Side.flip, hl, hr]

@[simp] theorem noRedRed_mirror (t : ColorTree α) : t.mirror.NoRedRed ↔ t.NoRedRed := by
  induction t with
  | nil => rfl
  | node c l a r hl hr =>
    simp only [mirror_node, NoRedRed, isRed_mirror, hl, hr]
    tauto

theorem Balanced.mirror (h : t.Balanced) :
    t.mirror.Balanced ∧ t.mirror.blackHeight = t.blackHeight := by
  induction t with
  | nil => exact ⟨trivial, rfl⟩
  | node c l a r hl hr =>
    obtain ⟨hbl, hbr, heq⟩ := h
    obtain ⟨hl, hlh⟩ := hl hbl
    obtain ⟨hr, hrh⟩ := hr hbr
    exact ⟨⟨hr, hl, by omega⟩, by simp only [mirror_node, blackHeight]; omega⟩

theorem IsRedBlack.mirror (h : t.IsRedBlack) : t.mirror.IsRedBlack :=
  ⟨by rw [isRed_mirror, h.root], (noRedRed_mirror t).mpr h.alternating, h.balanced.mirror.1⟩

end ColorTree

def Frame.mirror (f : Frame α) : Frame α := ⟨f.side.flip, f.color, f.label, f.sibling.mirror⟩

@[simp] theorem Frame.side_mirror (f : Frame α) : f.mirror.side = f.side.flip := rfl

@[simp] theorem Frame.color_mirror (f : Frame α) : f.mirror.color = f.color := rfl

@[simp] theorem Frame.label_mirror (f : Frame α) : f.mirror.label = f.label := rfl

@[simp] theorem Frame.sibling_mirror (f : Frame α) : f.mirror.sibling = f.sibling.mirror := rfl

@[simp] theorem Frame.mirror_wrap (f : Frame α) (t : ColorTree α) :
    (f.wrap t).mirror = f.mirror.wrap t.mirror :=
  ColorTree.mirror_join

theorem mirror_fill (ctx : Context α) (t : ColorTree α) :
    (fill ctx t).mirror = fill (ctx.map Frame.mirror) t.mirror := by
  induction ctx generalizing t with
  | nil => rfl
  | cons f ctx ih =>
    rw [List.map_cons, fill, fill, ih, Frame.mirror_wrap]

end RedBlack

namespace PointerGraphs
open RedBlack

variable {α τ : Type}

namespace Slot

def mirror : Slot α τ → Slot α τ
  | .left a => .right a
  | .right a => .left a
  | .root t => .root t

@[simp] theorem mirror_mirror (s : Slot α τ) : s.mirror.mirror = s := by cases s <;> rfl

@[simp] theorem mirror_child (d : Side) (a : α) :
    (Slot.child d a : Slot α τ).mirror = Slot.child d.flip a := by cases d <;> rfl

@[simp] theorem holder_mirror (s : Slot α τ) : s.mirror.holder = s.holder := by cases s <;> rfl

end Slot

end PointerGraphs
