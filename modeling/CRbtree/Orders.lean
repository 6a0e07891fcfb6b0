import CRbtree.ColorTrees

set_option autoImplicit false

/-!
The in-order and post-order lists of a tree, from the place of one node on.
-/

namespace RedBlack

variable {α : Type}

namespace ColorTree

def postorder : ColorTree α → List α
  | nil => []
  | node _ l a r => l.postorder ++ (r.postorder ++ [a])

theorem postorder_perm (t : ColorTree α) : t.postorder.Perm t.inorder := by
  induction t with
  | nil => exact .refl _
  | node c l a r hl hr =>
    rw [postorder, inorder]
    exact hl.append ((List.perm_append_singleton a _).trans (hr.cons a))

theorem nodup_postorder {t : ColorTree α} : t.postorder.Nodup ↔ t.inorder.Nodup :=
  t.postorder_perm.nodup_iff

theorem mem_postorder {t : ColorTree α} {a : α} : a ∈ t.postorder ↔ a ∈ t.inorder :=
  t.postorder_perm.mem_iff

theorem extreme_left (t : ColorTree α) : t.extreme .left = t.inorder.head? := by
  induction t with
  | nil => rfl
  | node c l a r hl hr => simp [extreme, inorder, hl]

theorem extreme_right (t : ColorTree α) : t.extreme .right = t.inorder.getLast? := by
  induction t with
  | nil => rfl
  | node c l a r hl hr => simp [extreme, inorder, hr, List.getLast?_cons]

theorem deepest_left (t : ColorTree α) : t.deepest .left = t.postorder.head? := by
  induction t with
  | nil => rfl
  | node c l a r hl hr => simp [deepest, postorder, hl, hr]

theorem root?_eq_getLast? (t : ColorTree α) : t.root? = t.postorder.getLast? := by
  cases t with
  | nil => rfl
  | node c l a r => simp [root?, postorder]

end ColorTree

open ColorTree

/-- What a post-order traversal visits before the hole. -/
def visited : Context α → List α
  | [] => []
  | f :: ctx =>
    match f.side with
    | .left => visited ctx
    | .right => visited ctx ++ f.sibling.postorder

/-- What a post-order traversal visits after the hole. -/
def pending : Context α → List α
  | [] => []
  | f :: ctx =>
    match f.side with
    | .left => f.sibling.postorder ++ f.label :: pending ctx
    | .right => f.label :: pending ctx

theorem postorder_fill (ctx : Context α) (t : ColorTree α) :
    (fill ctx t).postorder = visited ctx ++ (t.postorder ++ pending ctx) := by
  induction ctx generalizing t with
  | nil => simp [visited, pending]
  | cons f ctx ih =>
    obtain ⟨d, c, a, u⟩ := f
    cases d <;> simp [fill, ih, Frame.wrap, join, visited, pending, postorder]

/-- Where a list without repetitions is split is determined by the element there. -/
theorem split_unique {xs ys xs' ys' : List α} {a : α} (hnd : (xs ++ a :: ys).Nodup)
    (h : xs ++ a :: ys = xs' ++ a :: ys') : xs = xs' ∧ ys = ys' := by
  rw [List.nodup_middle, List.nodup_cons, List.mem_append, not_or] at hnd
  obtain ⟨hxs, -, hys⟩ := (List.append_cons_inj_of_notMem hnd.1.1 hnd.1.2).mp h
  exact ⟨hxs, hys⟩

end RedBlack
