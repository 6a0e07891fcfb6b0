import CRbtree.Prices
import CRbtree.Reading
import CRbtree.Traversing

set_option autoImplicit false

/-!
What the traversal functions cost, by the nodes that their loops pass.
-/

namespace CRbtree
open RedBlack TaggedPointers PointerGraphs Programs

section Lengths

variable {α : Type}

/-- The number of nodes down one side. -/
def spine (d : Side) : ColorTree α → ℕ
  | .nil => 0
  | .node _ l _ r => (if d = .left then spine d l else spine d r) + 1

/-- The number of nodes down to the first in post-order. -/
def plunge : ColorTree α → ℕ
  | .nil => 0
  | .node _ l _ r => (if plunge l = 0 then plunge r else plunge l) + 1

/-- The number of frames up to the first one on the other side. -/
def climbs (d : Side) : Context α → ℕ
  | [] => 0
  | f :: ctx => if f.side = d then climbs d ctx + 1 else 0

/-- The number of frames up to the first one with a left sibling, with that one. -/
def retreat : Context α → ℕ
  | [] => 0
  | f :: ctx => (if f.side = .right ∧ f.sibling.root?.isSome then 0 else retreat ctx) + 1

@[simp] theorem spine_join (d : Side) (c : Color) (t u : ColorTree α) (a : α) :
    spine d (.join d c t a u) = spine d t + 1 := by
  cases d <;> simp [ColorTree.join, spine]

theorem spine_le_height (d : Side) (t : ColorTree α) : spine d t ≤ t.height := by
  induction t with
  | nil => exact Nat.zero_le _
  | node c l a r hl hr =>
    simp only [spine, ColorTree.height]
    split <;> omega

end Lengths

variable {w : ℕ} {P : Prices} {I : Command w → ℕ} {h : Heap w}

abbrev Spends {α : Type} (P : Prices) (I : Command w → ℕ) (N : ℕ) (p : Prog w α) (h : Heap w) :
    Prop :=
  Within (machine packed) P.price I N p h

section Down

variable {a : Address w} {q : Pointer w} {T : ColorTree (Address w)}

theorem readOnly_loadChild {d : Side} : ReadOnly (loadChild d q) :=
  readOnly_deref.bind fun _ => readOnly_issue rfl

theorem value_loadChild {d : Side} : value h (loadChild d (some a)) = .ok (h.load (.child d a)) :=
  rfl

theorem spends_null {α : Type} {N : ℕ} {k : Pointer w → Prog w α} {d : Side} :
    Spends P I N (loadChild d none >>= k) h := fun x t tr hrun => by cases hrun

theorem spends_extremeLoop (d : Side) (turns : ℕ) (hT : Unfolds h.load q T) :
    Spends P I (2 * spine d T * P.read) (extremeLoop d turns q) h := by
  induction turns generalizing q T with
  | zero =>
    by_cases hne : T = .nil
    · subst hne
      obtain rfl : q = none := hT
      exact spends_null
    · obtain ⟨c, u, a, v, rfl⟩ := ColorTree.exists_join d hne
      obtain ⟨rfl, hu, -⟩ := unfolds_join.mp hT
      refine Within.mono (Within.look readOnly_loadChild value_loadChild (costs_loadChild h) ?_)
        (show P.read + 0 ≤ _ by rw [spine_join, Nat.mul_add, Nat.add_mul]; omega)
      split
      · exact costs_crash .endless h
      · exact within_pure _ h
  | succ turns ih =>
    by_cases hne : T = .nil
    · subst hne
      obtain rfl : q = none := hT
      exact spends_null
    · obtain ⟨c, u, a, v, rfl⟩ := ColorTree.exists_join d hne
      obtain ⟨rfl, hu, -⟩ := unfolds_join.mp hT
      refine Within.mono (Within.look readOnly_loadChild value_loadChild (costs_loadChild h) ?_)
        (show P.read + (P.read + 2 * spine d u * P.read) ≤ _ by
          rw [spine_join, Nat.mul_add, Nat.add_mul]; omega)
      split
      · exact Within.look readOnly_loadChild value_loadChild (costs_loadChild h) (ih hu)
      · exact Within.mono (within_pure _ h) (Nat.zero_le _)

/-- A run from `h` accesses memory at most `N` times. -/
abbrev Accesses {α : Type} (N : ℕ) (p : Prog w α) (h : Heap w) : Prop :=
  Spends ⟨1, 1⟩ (fun _ => 0) N p h

theorem Accesses.accesses_le {α : Type} {N : ℕ} {p : Prog w α} {x : α} {h' : Heap w}
    {tr : List (Command w)} (hp : Accesses N p h)
    (hrun : run (machine packed) p h = .ok (x, h', tr)) : accesses tr ≤ N := by
  have hle := hp x h' tr hrun
  rw [sum_price_accesses] at hle
  simpa using hle

theorem accesses_leftdeepestLoop (turns : ℕ) (hT : Unfolds h.load q T) :
    Accesses (3 * plunge T) (leftdeepestLoop turns q) h := by
  induction turns generalizing q T with
  | zero =>
    cases T with
    | nil =>
      obtain rfl : q = none := hT
      exact spends_null (d := .left)
    | node c l a r =>
      obtain ⟨rfl, hl, hr⟩ := hT
      refine Within.mono (Within.look readOnly_loadLeft value_loadLeft (costs_loadLeft h) ?_)
        (show 1 + 1 ≤ _ by rw [plunge]; omega)
      split
      · exact Within.mono (costs_crash .endless h) (Nat.zero_le _)
      · refine Within.look readOnly_loadRight value_loadRight (costs_loadRight h) (N := 0) ?_
        split
        · exact costs_crash .endless h
        · exact within_pure _ h
  | succ turns ih =>
    cases T with
    | nil =>
      obtain rfl : q = none := hT
      exact spends_null (d := .left)
    | node c l a r =>
      obtain ⟨rfl, hl, hr⟩ := hT
      rw [leftdeepestLoop]
      refine Within.mono (Within.look readOnly_loadLeft value_loadLeft (costs_loadLeft h) ?_)
        (show 1 + (2 + 3 * if plunge l = 0 then plunge r else plunge l) ≤ _ by rw [plunge]; omega)
      rw [hl.root?]
      cases l with
      | nil =>
        refine Within.mono (Within.look readOnly_loadRight value_loadRight (costs_loadRight h) ?_)
          (show 1 + (1 + 3 * plunge r) ≤ _ by simp [plunge]; omega)
        split
        · exact Within.look readOnly_loadRight value_loadRight (costs_loadRight h) (ih hr)
        · exact Within.mono (within_pure _ h) (Nat.zero_le _)
      | node c' l' b r' =>
        have hpos : plunge (.node c' l' b r') ≠ 0 := by simp [plunge]
        rw [if_neg hpos]
        exact Within.mono (Within.look readOnly_loadLeft value_loadLeft (costs_loadLeft h) (ih hl))
          (show 1 + _ ≤ _ by omega)

end Down

section Up

variable {m : FieldHeap w} {top n : Address w} {ctx : Context (Address w)}
  {T : ColorTree (Address w)} {p q : Pointer w} {d : Side}

theorem readOnly_isChildOf : ReadOnly (isChildOf d q p) :=
  .ite (readOnly_loadChild.bind fun _ => .pure) .pure

theorem value_isChildOf {a : Address w} :
    value h (isChildOf d q (some a)) = .ok (decide (q = h.load (.child d a))) := rfl

theorem costs_isChildOf : Costs P I P.read (isChildOf d q p) :=
  Priced.mono (.ite (costs_loadChild.bind fun _ => .pure) .pure) (by omega)

theorem readOnly_hasOtherLeft : ReadOnly (hasOtherLeft q p) :=
  readOnly_loadLeft.bind fun _ => .ite (readOnly_loadLeft.bind fun _ => .pure) .pure

theorem value_hasOtherLeft {a : Address w} : value h (hasOtherLeft q (some a)) =
    .ok (decide ((h.load (.left a)).isSome ∧ q ≠ h.load (.left a))) := by
  refine (value_bind value_loadLeft).trans ?_
  cases hl : h.load (.left a) with
  | none => rfl
  | some b =>
    refine (value_bind value_loadLeft).trans ?_
    rw [hl]
    exact congrArg Except.ok (by simp)

theorem costs_hasOtherLeft : Costs P I (2 * P.read) (hasOtherLeft q p) :=
  Priced.mono (costs_loadLeft.bind fun _ => .ite (costs_loadLeft.bind fun _ => .pure) .pure)
    (by omega)

variable (hm : Refines m h)
include hm

theorem accesses_climbLoop (d : Side) (turns : ℕ) (hT : TreeAt m (.root top) (fill ctx T))
    (hnd : (fill ctx T).inorder.Nodup) (hn : T.root? = some n) :
    Accesses (3 * climbs d ctx + 3) (climbLoop d turns (some n)) h := by
  induction ctx generalizing T n turns with
  | nil =>
    obtain ⟨c, hk, -⟩ := (treeAt_fill.mp hT).1.exists_link hn
    cases turns <;>
    · refine Within.mono (Within.look readOnly_parent (value_parent hm hk) (costs_parent h) ?_)
        (show 2 + 0 ≤ _ by omega)
      exact within_pure _ h
  | cons f ctx ih =>
    obtain ⟨ht, -⟩ := treeAt_fill.mp hT
    obtain ⟨c, hk, -⟩ := ht.exists_link hn
    have hne := (treeAt_wrap hT).load_flip_ne (nodup_wrap hnd).1 hn
    have hp := value_parent hm hk
    rw [hm.1] at hne
    rw [hole_cons, Slot.holder_child] at hp
    cases turns with
    | zero =>
      refine Within.mono (Within.look readOnly_parent hp (costs_parent h) ?_)
        (show 2 + (1 + 0) ≤ _ by omega)
      refine Within.look readOnly_isChildOf value_isChildOf (costs_isChildOf h) ?_
      split
      · exact costs_crash .endless h
      · exact within_pure _ h
    | succ turns =>
      have hup := ih turns hT hnd (n := f.label) (by simp [Frame.wrap])
      rw [climbLoop]
      by_cases hfd : f.side = d
      · refine Within.mono (Within.look readOnly_parent hp (costs_parent h) ?_)
          (show 2 + (1 + (3 * climbs d ctx + 3)) ≤ _ by rw [climbs, if_pos hfd]; omega)
        refine Within.look readOnly_isChildOf value_isChildOf (costs_isChildOf h) ?_
        split
        · exact hup
        · exact Within.mono (within_pure _ h) (Nat.zero_le _)
      · obtain hd := Side.eq_flip (Ne.symm hfd)
        rw [← hd] at hne
        refine Within.mono (Within.look readOnly_parent hp (costs_parent h) ?_)
          (show 2 + (1 + 0) ≤ _ by omega)
        refine Within.look readOnly_isChildOf value_isChildOf (costs_isChildOf h) ?_
        rw [if_neg (by simpa using Ne.symm hne)]
        exact within_pure _ h

theorem accesses_prevPostorderLoop (turns : ℕ) (hT : TreeAt m (.root top) (fill ctx T))
    (hnd : (fill ctx T).inorder.Nodup) (hn : T.root? = some n) :
    Accesses (4 * retreat ctx + 2) (prevPostorderLoop turns (some n)) h := by
  induction ctx generalizing T n turns with
  | nil =>
    obtain ⟨c, hk, -⟩ := (treeAt_fill.mp hT).1.exists_link hn
    cases turns <;>
    · refine Within.mono (Within.look readOnly_parent (value_parent hm hk) (costs_parent h) ?_)
        (show 2 + 0 ≤ _ by omega)
      exact within_pure _ h
  | cons f ctx ih =>
    obtain ⟨ht, hctx⟩ := treeAt_fill.mp hT
    obtain ⟨c, hk, -⟩ := ht.exists_link hn
    have hne := (treeAt_wrap hT).load_flip_ne (nodup_wrap hnd).1 hn
    have hsib := hctx.2.2.1.load
    have hp := value_parent hm hk
    rw [hm.1] at hne hsib
    rw [hole_cons, Slot.holder_child] at hp
    cases turns with
    | zero =>
      refine Within.mono (Within.look readOnly_parent hp (costs_parent h) ?_)
        (show 2 + 0 ≤ _ by omega)
      exact costs_crash .endless h
    | succ turns =>
      have hup := ih turns hT hnd (n := f.label) (by simp [Frame.wrap])
      rw [prevPostorderLoop]
      by_cases hf : f.side = .right ∧ f.sibling.root?.isSome
      · refine Within.mono (Within.look readOnly_parent hp (costs_parent h) ?_)
          (show 2 + (2 + 1) ≤ _ by rw [retreat, if_pos hf]; omega)
        refine Within.look readOnly_hasOtherLeft value_hasOtherLeft (costs_hasOtherLeft h) ?_
        rw [hf.1] at hne hsib
        have hleft : h.load (.left f.label) = f.sibling.root? := hsib
        rw [if_pos (by simpa [hleft, hf.2] using Ne.symm (hleft ▸ hne))]
        exact costs_loadLeft h
      · refine Within.mono (Within.look readOnly_parent hp (costs_parent h) ?_)
          (show 2 + (2 + (4 * retreat ctx + 2)) ≤ _ by rw [retreat, if_neg hf]; omega)
        refine Within.look readOnly_hasOtherLeft value_hasOtherLeft (costs_hasOtherLeft h) ?_
        split
        · exact Within.mono (costs_loadLeft h) (show 1 ≤ _ by omega)
        · exact hup

end Up

section Steps

variable {m : FieldHeap w} {top n : Address w} {ctx : Context (Address w)} {c : Color}
  {l r : ColorTree (Address w)} {q : Pointer w}

/-- c_rbnode_next() to the right, c_rbnode_prev() to the left. -/
def stepTo (d : Side) (n : Pointer w) : Prog w (Pointer w) := do
  if ← rbnodeIsLinked n then
    if (← loadChild d n).isSome then do
      let x ← loadChild d n
      if x.isSome then extremeLoop d.flip (2 ^ w) x else pure x
    else
      climbLoop d (2 ^ w) n
  else
    pure none

theorem rbnodeNext_eq (n : Pointer w) : rbnodeNext n = stepTo .right n := by
  simp only [rbnodeNext, rbnodeLeftmost, leftmostLoop_eq, nextLoop_eq]
  rfl

theorem rbnodePrev_eq (n : Pointer w) : rbnodePrev n = stepTo .left n := by
  simp only [rbnodePrev, rbnodeRightmost, rightmostLoop_eq, prevLoop_eq]
  rfl

theorem look_isLinked {α : Type} {N : ℕ} {k : Bool → Prog w α} {b : Bool}
    (hv : value h (rbnodeIsLinked q) = .ok b) (hk : Accesses N (k b) h) :
    Accesses (2 + N) (rbnodeIsLinked q >>= k) h :=
  Within.look readOnly_isLinked hv (costs_isLinked h) hk

theorem value_isLinked {T : ColorTree (Address w)} (hm : Refines m h)
    (hT : TreeAt m (.root top) (fill ctx T)) (hnd : (fill ctx T).inorder.Nodup)
    (hn : T.root? = some n) : value h (rbnodeIsLinked (some n)) = .ok true := by
  obtain ⟨c, hk, -⟩ := (treeAt_fill.mp hT).1.exists_link hn
  have hout : n ∉ elems ctx := (List.nodup_append'.mp (nodup_fill.mp hnd)).2.2
    (ColorTree.mem_of_root? hn)
  obtain ⟨tr, hrun, -⟩ := (peeks_isLinked hk hout (Set.mem_univ n)).run hm
  exact (readOnly_isLinked.run_eq hrun).2

theorem accesses_stepTo (d : Side) {u v : ColorTree (Address w)} (hm : Refines m h)
    (hT : TreeAt m (.root top) (fill ctx (.join d c u n v)))
    (hnd : (fill ctx (.join d c u n v)).inorder.Nodup) :
    Accesses (if u.root?.isSome then 4 + 2 * spine d.flip u else 6 + 3 * climbs d ctx)
      (stepTo d (some n)) h := by
  have hn : (ColorTree.join d c u n v).root? = some n := ColorTree.root?_join ..
  have hu := (treeAt_join.mp (treeAt_fill.mp hT).1).2.2.1
  have hload : h.load (.child d n) = u.root? := hm.1 ▸ hu.load
  have hup := accesses_climbLoop hm d (2 ^ w) hT hnd hn
  have hchild : value h (loadChild d (some n)) = .ok u.root? := hload ▸ value_loadChild
  cases hroot : u.root? with
  | none =>
    rw [hroot] at hchild
    refine Within.mono (look_isLinked (value_isLinked hm hT hnd hn) ?_)
      (show 2 + (1 + (3 * climbs d ctx + 3)) ≤ _ by simp; omega)
    exact Within.look readOnly_loadChild hchild (costs_loadChild h) hup
  | some x =>
    rw [hroot] at hchild
    have hdown : Accesses (2 * spine d.flip u) (extremeLoop d.flip (2 ^ w) (some x)) h := by
      have hspine := spends_extremeLoop (P := ⟨1, 1⟩) (I := fun _ => 0) d.flip (2 ^ w)
        (hm.1 ▸ hu.unfolds)
      rw [hload, hroot] at hspine
      exact Within.mono hspine (by simp)
    refine Within.mono (look_isLinked (value_isLinked hm hT hnd hn) ?_)
      (show 2 + (1 + (1 + 2 * spine d.flip u)) ≤ _ by simp; omega)
    refine Within.look readOnly_loadChild hchild (costs_loadChild h) ?_
    exact Within.look readOnly_loadChild hchild (costs_loadChild h) hdown

/-- What c_rbnode_next_postorder() costs: from the root, after a right child, and after a left
child with or without a sibling. -/
def ascent : Context (Address w) → ℕ
  | [] => 4
  | ⟨.right, _, _, _⟩ :: _ => 5
  | ⟨.left, _, _, u⟩ :: _ => if u.root?.isSome then 7 + 3 * plunge u else 6

theorem accesses_nextPostorder {T : ColorTree (Address w)} (hm : Refines m h)
    (hT : TreeAt m (.root top) (fill ctx T)) (hnd : (fill ctx T).inorder.Nodup)
    (hn : T.root? = some n) : Accesses (ascent ctx) (rbnodeNextPostorder (some n)) h := by
  obtain ⟨ht, hctx⟩ := treeAt_fill.mp hT
  obtain ⟨c, hk, -⟩ := ht.exists_link hn
  have hp := value_parent hm hk
  have hlinked := value_isLinked hm hT hnd hn
  cases ctx with
  | nil =>
    refine Within.mono (look_isLinked hlinked ?_) (show 2 + (2 + 0) ≤ _ by simp [ascent])
    rw [if_pos rfl]
    exact Within.look readOnly_parent hp (costs_parent h) (within_pure _ h)
  | cons f ctx =>
    have hne := (treeAt_wrap hT).load_flip_ne (nodup_wrap hnd).1 hn
    have hsib := hctx.2.2.1
    rw [hole_cons, Slot.holder_child] at hp
    obtain ⟨d, cf, p, u⟩ := f
    have hside : value h (isLeftOf (some n) (some p)) =
      .ok (decide (some n = h.load (.child .left p))) := rfl
    have hcost : Accesses 1 (isLeftOf (some n) (some p)) h := costs_isChildOf (d := .left) h
    cases d with
    | left =>
      have hleft : decide (some n = h.load (.child .left p)) = true :=
        decide_eq_true (by rw [← hm.1, ← hn, ← ht.load, hole_cons])
      have hright : value h (loadRight (some p)) = .ok u.root? := by
        rw [value_loadRight, ← hm.1]
        exact congrArg Except.ok hsib.load
      have hdown : Accesses (3 * plunge u) (rbnodeLeftdeepest u.root?) h := by
        have hplunge := accesses_leftdeepestLoop (2 ^ w) (hm.1 ▸ hsib.unfolds)
        rw [show h.load (.child (Side.flip .left) p) = u.root? from hm.1 ▸ hsib.load] at hplunge
        unfold rbnodeLeftdeepest
        split
        · exact hplunge
        · exact Within.mono (within_pure _ h) (Nat.zero_le _)
      refine Within.mono (look_isLinked hlinked ?_)
        (show 2 + (2 + (1 + (1 + if u.root?.isSome then 1 + 3 * plunge u else 0))) ≤ _ by
          rw [ascent]; split <;> omega)
      rw [if_pos rfl]
      refine Within.look readOnly_parent hp (costs_parent h) ?_
      refine Within.look (readOnly_isChildOf (d := .left)) hside hcost ?_
      rw [if_pos hleft]
      refine Within.look readOnly_loadRight hright (costs_loadRight h) ?_
      split
      · exact Within.look readOnly_loadRight hright (costs_loadRight h) hdown
      · exact within_pure _ h
    | right =>
      have hleft : some n ≠ h.load (.child .left p) := hm.1 ▸ Ne.symm hne
      refine Within.mono (look_isLinked hlinked ?_)
        (show 2 + (2 + (1 + 0)) ≤ _ by simp [ascent])
      rw [if_pos rfl]
      refine Within.look readOnly_parent hp (costs_parent h) ?_
      refine Within.look (readOnly_isChildOf (d := .left)) hside hcost ?_
      rw [if_neg (by simpa using hleft)]
      exact within_pure _ h

theorem accesses_prevPostorder (hm : Refines m h)
    (hT : TreeAt m (.root top) (fill ctx (.node c l n r)))
    (hnd : (fill ctx (.node c l n r)).inorder.Nodup) :
    Accesses (if r.root?.isSome then 4 else if l.root?.isSome then 5 else 6 + 4 * retreat ctx)
      (rbnodePrevPostorder (some n)) h := by
  obtain ⟨⟨-, -, hl, hr⟩, -⟩ := treeAt_fill.mp hT
  have hup := accesses_prevPostorderLoop hm (2 ^ w) hT hnd (n := n) rfl
  have hright := value_loadRight_treeAt hm hr
  have hleft := value_loadLeft_treeAt hm hl
  cases hr' : r.root? with
  | some a =>
    rw [hr'] at hright
    refine Within.mono (look_isLinked (value_isLinked hm hT hnd rfl) ?_)
      (show 2 + (1 + 1) ≤ 4 from le_rfl)
    exact Within.look readOnly_loadRight hright (costs_loadRight h) (costs_loadRight h)
  | none =>
    rw [hr'] at hright
    cases hl' : l.root? with
    | some a =>
      rw [hl'] at hleft
      refine Within.mono (look_isLinked (value_isLinked hm hT hnd rfl) ?_)
        (show 2 + (1 + (1 + 1)) ≤ 5 from le_rfl)
      refine Within.look readOnly_loadRight hright (costs_loadRight h) ?_
      exact Within.look readOnly_loadLeft hleft (costs_loadLeft h) (costs_loadLeft h)
    | none =>
      rw [hl'] at hleft
      refine Within.mono (look_isLinked (value_isLinked hm hT hnd rfl) ?_)
        (show 2 + (1 + (1 + (4 * retreat ctx + 2))) ≤ 6 + 4 * retreat ctx by omega)
      refine Within.look readOnly_loadRight hright (costs_loadRight h) ?_
      exact Within.look readOnly_loadLeft hleft (costs_loadLeft h) hup

end Steps

end CRbtree
