import CRbtree.Orders
import CRbtree.Placement

set_option autoImplicit false

/-!
The traversal functions step through the in-order and the post-order list of a tree, in
both directions.
-/

namespace CRbtree
open RedBlack TaggedPointers PointerGraphs Programs

variable {w : ℕ}

/-- The program leaves the words as they are and returns this. -/
def Returns {α : Type} (h : Heap w) (p : Prog w α) (a : α) : Prop :=
  ∃ tr, run (machine packed) p h = .ok (a, h, tr)

theorem Returns.unique {α : Type} {h : Heap w} {p : Prog w α} {a b : α} (ha : Returns h p a)
    (hb : Returns h p b) : a = b := by
  obtain ⟨tr, ha⟩ := ha
  obtain ⟨tr', hb⟩ := hb
  rw [ha] at hb
  cases hb
  rfl

/-- On every node of the list the program returns the node after it, or NULL. -/
def Follows (h : Heap w) (next : Pointer w → Prog w (Pointer w)) (l : List (Address w)) : Prop :=
  ∀ xs a ys, l = xs ++ a :: ys → Returns h (next (some a)) ys.head?

/-- The program, run again and again from `p` on, returns the nodes of the list and then NULL. -/
def Yields (h : Heap w) (next : Pointer w → Prog w (Pointer w)) :
    Pointer w → List (Address w) → Prop
  | p, [] => p = none
  | p, a :: l => p = some a ∧ ∃ q, Returns h (next p) q ∧ Yields h next q l

section Lists

variable {h : Heap w} {next prev : Pointer w → Prog w (Pointer w)} {l : List (Address w)}

theorem Follows.yields (hn : Follows h next l) : Yields h next l.head? l := by
  have hsuffix : ∀ xs ys, l = xs ++ ys → Yields h next ys.head? ys := by
    intro xs ys hl
    induction ys generalizing xs with
    | nil => rfl
    | cons a ys ih => exact ⟨rfl, ys.head?, hn xs a ys hl, ih (xs ++ [a]) (by simp [hl])⟩
  exact hsuffix [] l rfl

/-- Stepping forwards and stepping backwards undo each other. -/
theorem Follows.inverse (hn : Follows h next l) (hp : Follows h prev l.reverse) {a b : Address w}
    (ha : a ∈ l) (hr : Returns h (next (some a)) (some b)) :
    Returns h (prev (some b)) (some a) := by
  obtain ⟨xs, ys, rfl⟩ := List.append_of_mem ha
  have hb := hr.unique (hn xs a ys rfl)
  cases ys with
  | nil => cases hb
  | cons b' ys =>
    obtain rfl : b = b' := Option.some.inj hb
    exact hp ys.reverse b (a :: xs.reverse) (by simp)

end Lists

section Steps

variable {m : FieldHeap w} {top : Address w} {ctx : Context (Address w)} {c : Color}
  {l r : ColorTree (Address w)} {n : Address w} {A : Set (Address w)}

theorem climb_right (ctx : Context (Address w)) : climb .right ctx = (after ctx).head? := by
  induction ctx with
  | nil => rfl
  | cons f ctx ih => cases hf : f.side <;> simp [climb, after, hf, ih]

theorem climb_left (ctx : Context (Address w)) : climb .left ctx = (before ctx).getLast? := by
  induction ctx with
  | nil => rfl
  | cons f ctx ih => cases hf : f.side <;> simp [climb, before, hf, ih]

theorem leftSibling_eq (ctx : Context (Address w)) : leftSibling ctx = (visited ctx).getLast? := by
  induction ctx with
  | nil => rfl
  | cons f ctx ih =>
    cases hf : f.side with
    | left => simp [leftSibling, visited, hf, ih]
    | right =>
      by_cases hs : f.sibling = .nil
      · simp [leftSibling, visited, hf, hs, ih, ColorTree.postorder]
      · obtain ⟨a, ha⟩ := Option.ne_none_iff_exists'.mp (mt ColorTree.root?_eq_none.mp hs)
        have hlast := f.sibling.root?_eq_getLast?
        rw [ha] at hlast
        simp [leftSibling, visited, hf, hs, ha, ← hlast]

theorem peeks_isLinked (hk : m.link n = linkAt (hole (.root top) ctx) c) (hn : n ∉ elems ctx)
    (hA : n ∈ A) : Peeks A m true (rbnodeIsLinked (some n)) := by
  unfold rbnodeIsLinked
  rw [if_pos Option.isSome_some, peeks_parent hk hA, bne_iff_ne.mpr (holder_hole_ne hn)]
  rfl

section Node

variable (h : TreeAt m (.root top) (fill ctx (.node c l n r)))
  (hnd : (fill ctx (.node c l n r)).inorder.Nodup)
include hnd

theorem not_mem_elems : n ∉ elems ctx :=
  (List.nodup_append'.mp (nodup_fill.mp hnd)).2.2 (by simp [ColorTree.inorder])

theorem nodup_children : l.inorder.Nodup ∧ r.inorder.Nodup := by
  rw [nodup_fill, ColorTree.inorder, List.nodup_append', List.nodup_append', List.nodup_cons] at hnd
  exact ⟨hnd.1.1, hnd.1.2.1.2⟩

include h

theorem peeks_rbnodeNext :
    Peeks Set.univ m (r.inorder ++ after ctx).head? (rbnodeNext (some n)) := by
  obtain ⟨⟨-, hk, -, hr⟩, -⟩ := treeAt_fill.mp h
  have hA : n ∈ (Set.univ : Set (Address w)) := Set.mem_univ n
  have hload : m.load (.child .right n) = r.root? := hr.load
  unfold rbnodeNext
  refine peeks_bind (peeks_isLinked hk (not_mem_elems hnd) hA) ?_
  rw [if_pos rfl]
  refine (peeks_loadChild (d := .right) hA).mpr ?_
  rw [hload]
  cases r with
  | nil =>
    rw [if_neg (by simp [ColorTree.root?]), nextLoop_eq, ColorTree.inorder, List.nil_append,
      ← climb_right]
    exact peeks_climbLoop .right h hnd rfl hA (fun a _ => Set.mem_univ a)
      (length_lt_of_nodup hnd).le
  | node cr a v b =>
    rw [if_pos (by simp [ColorTree.root?])]
    refine (peeks_loadChild (d := .right) hA).mpr ?_
    rw [hload]
    have hdown := peeks_rbnodeLeftmost hr (nodup_children hnd).2 fun a _ => Set.mem_univ a
    rw [ColorTree.extreme_left] at hdown
    simpa [ColorTree.inorder] using hdown

theorem peeks_rbnodePrev :
    Peeks Set.univ m (before ctx ++ l.inorder).getLast? (rbnodePrev (some n)) := by
  obtain ⟨⟨-, hk, hl, -⟩, -⟩ := treeAt_fill.mp h
  have hA : n ∈ (Set.univ : Set (Address w)) := Set.mem_univ n
  have hload : m.load (.child .left n) = l.root? := hl.load
  unfold rbnodePrev
  refine peeks_bind (peeks_isLinked hk (not_mem_elems hnd) hA) ?_
  rw [if_pos rfl]
  refine (peeks_loadChild (d := .left) hA).mpr ?_
  rw [hload]
  cases l with
  | nil =>
    rw [if_neg (by simp [ColorTree.root?]), prevLoop_eq, ColorTree.inorder, List.append_nil,
      ← climb_left]
    exact peeks_climbLoop .left h hnd rfl hA (fun a _ => Set.mem_univ a) (length_lt_of_nodup hnd).le
  | node cl a v b =>
    rw [if_pos (by simp [ColorTree.root?])]
    refine (peeks_loadChild (d := .left) hA).mpr ?_
    rw [hload]
    have hdown := peeks_rbnodeRightmost hl (nodup_children hnd).1 fun a _ => Set.mem_univ a
    rw [List.getLast?_append_of_ne_nil _ (by simp [ColorTree.inorder]), ← ColorTree.extreme_right]
    exact hdown

/-- The next node in post-order is found by reading `n` and nodes that come later. -/
theorem peeks_rbnodeNextPostorder (hA : ∀ a ∈ n :: pending ctx, a ∈ A) :
    Peeks A m (pending ctx).head? (rbnodeNextPostorder (some n)) := by
  obtain ⟨ht, hctx⟩ := treeAt_fill.mp h
  have hk := ht.2.1
  have hn : n ∈ A := hA n (by simp)
  unfold rbnodeNextPostorder
  refine peeks_bind (peeks_isLinked hk (not_mem_elems hnd) hn) ?_
  rw [if_pos rfl, peeks_parent hk hn]
  cases ctx with
  | nil => rfl
  | cons f ctx =>
    have hne := (treeAt_wrap h).load_flip_ne (nodup_wrap hnd).1 rfl
    have hload : m.load (.child f.side f.label) = some n := ht.1
    have hsib := hctx.2.2.1
    have hndw := (nodup_wrap hnd).1
    obtain ⟨d, cf, p, u⟩ := f
    rw [hole_cons, Slot.holder_child, isLeftOf, if_pos Option.isSome_some, bind_assoc]
    cases d with
    | left =>
      have hp : p ∈ A := hA p (by simp [pending])
      refine (peeks_loadChild (d := .left) hp).mpr ?_
      rw [hload, pure_bind, if_pos (by simp)]
      refine (peeks_loadChild (d := .right) hp).mpr ?_
      have hright : m.load (.child .right p) = u.root? := hsib.load
      rw [hright]
      cases u with
      | nil => simp [pending, ColorTree.root?, ColorTree.postorder, Peeks]
      | node cu a v b =>
        rw [if_pos (by simp [ColorTree.root?])]
        refine (peeks_loadChild (d := .right) hp).mpr ?_
        rw [hright]
        rw [Frame.wrap, ColorTree.nodup_join] at hndw
        have hdown := peeks_rbnodeLeftdeepest hsib hndw.2.2.2.1 fun a ha =>
          hA a (by simp [pending, ColorTree.mem_postorder.mpr ha])
        rw [ColorTree.deepest_left] at hdown
        simpa [pending, ColorTree.postorder] using hdown
    | right =>
      have hp : p ∈ A := hA p (by simp [pending])
      have hne' : some n ≠ m.load (.child .left p) := Ne.symm hne
      refine (peeks_loadChild (d := .left) hp).mpr ?_
      rw [pure_bind, if_neg (by simpa using hne')]
      rfl

theorem peeks_rbnodePrevPostorder :
    Peeks Set.univ m (visited ctx ++ (l.postorder ++ r.postorder)).getLast?
      (rbnodePrevPostorder (some n)) := by
  obtain ⟨⟨-, hk, hl, hr⟩, -⟩ := treeAt_fill.mp h
  have hA : n ∈ (Set.univ : Set (Address w)) := Set.mem_univ n
  have hloadl : m.load (.child .left n) = l.root? := hl.load
  have hloadr : m.load (.child .right n) = r.root? := hr.load
  unfold rbnodePrevPostorder
  refine peeks_bind (peeks_isLinked hk (not_mem_elems hnd) hA) ?_
  rw [if_pos rfl]
  refine (peeks_loadChild (d := .right) hA).mpr ?_
  rw [hloadr]
  cases r with
  | node cr a v b =>
    rw [if_pos (by simp [ColorTree.root?])]
    refine ⟨⟨n, rfl, hA⟩, _, rfl, ?_⟩
    simp [ColorTree.postorder, show m.load (.right n) = some v from hloadr, Peeks]
  | nil =>
    rw [if_neg (by simp [ColorTree.root?])]
    refine (peeks_loadChild (d := .left) hA).mpr ?_
    rw [hloadl]
    cases l with
    | node cl a v b =>
      rw [if_pos (by simp [ColorTree.root?])]
      refine ⟨⟨n, rfl, hA⟩, _, rfl, ?_⟩
      simp [ColorTree.postorder, show m.load (.left n) = some v from hloadl, Peeks]
    | nil =>
      rw [if_neg (by simp [ColorTree.root?])]
      have hup := peeks_prevPostorderLoop h hnd rfl hA (fun a _ => Set.mem_univ a)
        (length_lt_of_nodup hnd).le
      rw [leftSibling_eq] at hup
      simpa [ColorTree.postorder] using hup

end Node

end Steps

section Orders

variable {h : Heap w} {t : Address w} {T : ColorTree (Address w)}

theorem Peeks.returns {α : Type} {m : FieldHeap w} {A : Set (Address w)} {p : Prog w α} {r : α}
    (hp : Peeks A m r p) (hm : Refines m h) : Returns h p r := by
  obtain ⟨tr, hrun, -⟩ := hp.run hm
  exact ⟨tr, hrun⟩

/-- The functions that start at the root. -/
theorem returns_ofRoot {f : Pointer w → Prog w (Pointer w)} {q : Pointer w}
    (hf : Returns h (f (h.load (.root t))) q) :
    Returns h (do cAssert (some t).isSome; f (← loadRoot (some t))) q := by
  obtain ⟨tr, hrun⟩ := hf
  have hload : run (machine packed) (loadRoot (some t) >>= f) h =
      (run (machine packed) (f (h.load (.root t))) h).map fun x =>
        (x.1, x.2.1, .load (.root t) :: x.2.2) :=
    run_step rfl
  refine ⟨.load (.root t) :: tr, hload.trans ?_⟩
  rw [hrun]
  rfl

section Laid

variable (hT : Laid h t T) (hnd : T.inorder.Nodup)
include hT hnd

theorem Laid.follows_next : Follows h rbnodeNext T.inorder := by
  obtain ⟨m, hm, hT⟩ := hT
  intro xs a ys hl
  obtain ⟨ctx, c, l, r, rfl⟩ := exists_fill_of_mem (show a ∈ T.inorder by simp [hl])
  have hsplit := hl
  rw [inorder_fill, ColorTree.inorder, List.append_assoc, List.append_assoc, List.cons_append,
    ← List.append_assoc] at hsplit
  obtain ⟨-, rfl⟩ := split_unique (hsplit ▸ hl ▸ hnd) hsplit
  exact (peeks_rbnodeNext hT hnd).returns hm

theorem Laid.follows_prev : Follows h rbnodePrev T.inorder.reverse := by
  obtain ⟨m, hm, hT⟩ := hT
  intro xs a ys hl
  have hl' : T.inorder = ys.reverse ++ a :: xs.reverse := by
    rw [← List.reverse_reverse T.inorder, hl]
    simp
  obtain ⟨ctx, c, l, r, rfl⟩ := exists_fill_of_mem (show a ∈ T.inorder by simp [hl'])
  have hsplit := hl'
  rw [inorder_fill, ColorTree.inorder, List.append_assoc, List.append_assoc, List.cons_append,
    ← List.append_assoc] at hsplit
  obtain ⟨hys, -⟩ := split_unique (hsplit ▸ hl' ▸ hnd) hsplit
  have hprev := (peeks_rbnodePrev hT hnd).returns hm
  rwa [hys, List.getLast?_reverse] at hprev

theorem Laid.follows_nextPostorder : Follows h rbnodeNextPostorder T.postorder := by
  obtain ⟨m, hm, hT⟩ := hT
  intro xs a ys hl
  obtain ⟨ctx, c, l, r, rfl⟩ :=
    exists_fill_of_mem (ColorTree.mem_postorder.mp (show a ∈ T.postorder by simp [hl]))
  have hsplit := hl
  rw [postorder_fill, ColorTree.postorder, ← List.append_assoc l.postorder, List.append_assoc,
    List.singleton_append, ← List.append_assoc] at hsplit
  obtain ⟨-, rfl⟩ := split_unique (hsplit ▸ hl ▸ ColorTree.nodup_postorder.mpr hnd) hsplit
  exact (peeks_rbnodeNextPostorder hT hnd fun a _ => Set.mem_univ a).returns hm

theorem Laid.follows_prevPostorder : Follows h rbnodePrevPostorder T.postorder.reverse := by
  obtain ⟨m, hm, hT⟩ := hT
  intro xs a ys hl
  have hl' : T.postorder = ys.reverse ++ a :: xs.reverse := by
    rw [← List.reverse_reverse T.postorder, hl]
    simp
  obtain ⟨ctx, c, l, r, rfl⟩ :=
    exists_fill_of_mem (ColorTree.mem_postorder.mp (show a ∈ T.postorder by simp [hl']))
  have hsplit := hl'
  rw [postorder_fill, ColorTree.postorder, ← List.append_assoc l.postorder, List.append_assoc,
    List.singleton_append, ← List.append_assoc] at hsplit
  obtain ⟨hys, -⟩ := split_unique (hsplit ▸ hl' ▸ ColorTree.nodup_postorder.mpr hnd) hsplit
  have hprev := (peeks_rbnodePrevPostorder hT hnd).returns hm
  rwa [hys, List.getLast?_reverse] at hprev

theorem Laid.first : Returns h (rbtreeFirst (some t)) T.inorder.head? := by
  obtain ⟨m, hm, hT⟩ := hT
  have hfirst := peeks_rbnodeLeftmost hT hnd fun a _ => Set.mem_univ a
  rw [← hT.load, hm.1, ColorTree.extreme_left] at hfirst
  exact returns_ofRoot (hfirst.returns hm)

theorem Laid.last : Returns h (rbtreeLast (some t)) T.inorder.reverse.head? := by
  obtain ⟨m, hm, hT⟩ := hT
  have hlast := peeks_rbnodeRightmost hT hnd fun a _ => Set.mem_univ a
  rw [← hT.load, hm.1, ColorTree.extreme_right, ← List.head?_reverse] at hlast
  exact returns_ofRoot (hlast.returns hm)

theorem Laid.firstPostorder : Returns h (rbtreeFirstPostorder (some t)) T.postorder.head? := by
  obtain ⟨m, hm, hT⟩ := hT
  have hfirst := peeks_rbnodeLeftdeepest hT hnd fun a _ => Set.mem_univ a
  rw [← hT.load, hm.1, ColorTree.deepest_left] at hfirst
  exact returns_ofRoot (hfirst.returns hm)

omit hnd in
theorem Laid.lastPostorder :
    Returns h (rbtreeLastPostorder (some t)) T.postorder.reverse.head? := by
  obtain ⟨m, hm, hT⟩ := hT
  refine ⟨[.load (.root t)], ?_⟩
  rw [List.head?_reverse, ← ColorTree.root?_eq_getLast?, ← hT.load, hm.1]
  rfl

end Laid

/-- Both in-order traversals are exact, on trees of any shape. -/
theorem inorder_exact (hT : Laid h t T) (hnd : T.inorder.Nodup) :
    (∃ p, Returns h (rbtreeFirst (some t)) p ∧ Yields h rbnodeNext p T.inorder) ∧
      (∃ p, Returns h (rbtreeLast (some t)) p ∧ Yields h rbnodePrev p T.inorder.reverse) ∧
      ∀ a ∈ T.inorder, ∀ b ∈ T.inorder,
        Returns h (rbnodeNext (some a)) (some b) ↔ Returns h (rbnodePrev (some b)) (some a) := by
  have hnext := hT.follows_next hnd
  have hprev := hT.follows_prev hnd
  refine ⟨⟨_, hT.first hnd, hnext.yields⟩, ⟨_, hT.last hnd, hprev.yields⟩, fun a ha b hb => ?_⟩
  exact ⟨hnext.inverse hprev ha,
    hprev.inverse (by rwa [List.reverse_reverse]) (List.mem_reverse.mpr hb)⟩

theorem inorder_exact_sample :
    ∃ p, Returns (layOut (cell 0) crooked) (rbtreeFirst (some (cell 0))) p ∧
      Yields (layOut (cell 0) crooked) rbnodeNext p [cell 1, cell 2, cell 3] :=
  (inorder_exact laid_crooked nodup_crooked).1

/-- Both post-order traversals are exact, on trees of any shape. -/
theorem postorder_exact (hT : Laid h t T) (hnd : T.inorder.Nodup) :
    (∃ p, Returns h (rbtreeFirstPostorder (some t)) p ∧
      Yields h rbnodeNextPostorder p T.postorder) ∧
      (∃ p, Returns h (rbtreeLastPostorder (some t)) p ∧
        Yields h rbnodePrevPostorder p T.postorder.reverse) ∧
      ∀ a ∈ T.inorder,
        (∀ b, Returns h (rbnodeNextPostorder (some a)) (some b) →
          Returns h (rbnodePrevPostorder (some b)) (some a)) ∧
        ∀ b, Returns h (rbnodePrevPostorder (some a)) (some b) →
          Returns h (rbnodeNextPostorder (some b)) (some a) := by
  have hnext := hT.follows_nextPostorder hnd
  have hprev := hT.follows_prevPostorder hnd
  refine ⟨⟨_, hT.firstPostorder hnd, hnext.yields⟩, ⟨_, hT.lastPostorder, hprev.yields⟩,
    fun a ha => ?_⟩
  have ha' := ColorTree.mem_postorder.mpr ha
  exact ⟨fun b => hnext.inverse hprev ha',
    fun b => hprev.inverse (by rwa [List.reverse_reverse]) (List.mem_reverse.mpr ha')⟩

theorem postorder_exact_sample :
    ∃ p, Returns (layOut (cell 0) crooked) (rbtreeFirstPostorder (some (cell 0))) p ∧
      Yields (layOut (cell 0) crooked) rbnodeNextPostorder p
        [cell 2, cell 1, cell 3] :=
  (postorder_exact laid_crooked nodup_crooked).1

end Orders

end CRbtree
