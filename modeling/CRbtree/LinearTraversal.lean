import CRbtree.TraversalCosts
import CRbtree.ForEachLoops

set_option autoImplicit false

/-!
Whole traversals: from the first node to the last each takes linear time, although a single
step may pass a path of logarithmic length.
-/

namespace CRbtree
open RedBlack TaggedPointers PointerGraphs Programs

variable {w : ℕ}

/-- The loop, with a body that makes a list of the nodes. -/
def collect (L : Loop (Command w) Answer (Pointer w)) :
    ℕ → Pointer w → Prog w (List (Pointer w))
  | 0, iter => if L.more iter then crash .endless else pure []
  | turns + 1, iter =>
    if L.more iter then do
      let i ← L.next iter
      let is ← collect L turns i
      pure (iter :: is)
    else pure []

/-- c_rbtree_last() and c_rbnode_prev(), for which there is no macro. -/
def backwards (t : Pointer w) : Loop (Command w) Answer (Pointer w) where
  first := rbtreeLast t
  more iter := iter.isSome
  next := rbnodePrev

def backwardsPostorder (t : Pointer w) : Loop (Command w) Answer (Pointer w) where
  first := rbtreeLastPostorder t
  more iter := iter.isSome
  next := rbnodePrevPostorder

/-- How often the step from a node accesses memory. -/
def stepCost (h : Heap w) (next : Pointer w → Prog w (Pointer w)) (a : Address w) : ℕ :=
  match run (machine packed) (next (some a)) h with
  | .ok (_, _, tr) => accesses tr
  | .error _ => 0

section Collecting

variable {h : Heap w} {next : Pointer w → Prog w (Pointer w)} {l : List (Address w)}
  {L : Loop (Command w) Answer (Pointer w)} {a : Address w} {N turns : ℕ}

theorem stepCost_le (hp : Accesses N (next (some a)) h) : stepCost h next a ≤ N := by
  unfold stepCost
  split
  · rename_i x h' tr hrun
    exact hp.accesses_le hrun
  · exact Nat.zero_le _

theorem Follows.collect (hmore : L.more = Option.isSome) (hn : Follows h L.next l)
    (hturns : l.length ≤ turns) :
    ∃ tr, run (machine packed) (CRbtree.collect L turns l.head?) h = .ok (l.map some, h, tr) ∧
      accesses tr = (l.map (stepCost h L.next)).sum := by
  have hsuffix : ∀ xs ys turns, l = xs ++ ys → ys.length ≤ turns → ∃ tr,
      run (machine packed) (CRbtree.collect L turns ys.head?) h = .ok (ys.map some, h, tr) ∧
        accesses tr = (ys.map (stepCost h L.next)).sum := by
    intro xs ys turns hl hle
    induction ys generalizing xs turns with
    | nil =>
      have hstop : L.more none ≠ true := by simp [hmore]
      refine ⟨[], ?_, rfl⟩
      cases turns <;> exact congrArg (run (machine packed) · h) (if_neg hstop)
    | cons a ys ih =>
      obtain ⟨turns, rfl⟩ := Nat.exists_eq_add_one_of_ne_zero
        (show turns ≠ 0 by simp only [List.length_cons] at hle; omega)
      have hgo : L.more (some a) = true := by simp [hmore]
      obtain ⟨tr₁, hstep⟩ := hn xs a ys hl
      obtain ⟨tr₂, hrest, hcount⟩ := ih (xs ++ [a]) turns (by simp [hl]) (by simpa using hle)
      refine ⟨tr₁ ++ tr₂, ?_, ?_⟩
      · rw [List.head?_cons, CRbtree.collect, if_pos hgo]
        exact run_bind hstep (run_bind_pure hrest (some a :: ·))
      · rw [accesses_append, hcount, List.map_cons, List.sum_cons, stepCost, hstep]
  exact hsuffix [] l turns rfl hturns

end Collecting

section Sums

variable {h : Heap w} {m : FieldHeap w} {top : Address w} {T : ColorTree (Address w)}

/-- Each edge below the root is passed once on the way down and once on the way up. -/
theorem sum_stepTo_le (d : Side) (ctx : Context (Address w)) (hm : Refines m h)
    (hT : TreeAt m (.root top) (fill ctx T)) (hnd : (fill ctx T).inorder.Nodup) :
    (T.inorder.map (stepCost h (stepTo d))).sum + 2 * spine d.flip T ≤
      9 * T.size + 3 * climbs d ctx := by
  induction T generalizing ctx with
  | nil => simp [ColorTree.inorder, spine]
  | node c l a r hl hr =>
    have hleft := hl (⟨.left, c, a, r⟩ :: ctx) hT hnd
    have hright := hr (⟨.right, c, a, l⟩ :: ctx) hT hnd
    simp only [ColorTree.inorder, List.map_append, List.map_cons, List.sum_append, List.sum_cons,
      ColorTree.size]
    cases d with
    | left =>
      have hstep := stepCost_le (accesses_stepTo .left (u := l) (v := r) hm hT hnd)
      simp only [climbs, spine, Side.flip, reduceCtorEq, if_true, if_false] at hleft hright hstep ⊢
      cases l with
      | nil =>
        simp only [ColorTree.root?, Option.isSome_none, Bool.false_eq_true, if_false] at hstep
        simp only [ColorTree.inorder, ColorTree.size, List.map_nil, List.sum_nil]
        omega
      | node c' l' b r' =>
        simp only [ColorTree.root?, Option.isSome_some, if_true] at hstep
        omega
    | right =>
      have hstep := stepCost_le (accesses_stepTo .right (u := r) (v := l) hm hT hnd)
      simp only [climbs, spine, Side.flip, reduceCtorEq, if_true, if_false] at hleft hright hstep ⊢
      cases r with
      | nil =>
        simp only [ColorTree.root?, Option.isSome_none, Bool.false_eq_true, if_false] at hstep
        simp only [ColorTree.inorder, ColorTree.size, List.map_nil, List.sum_nil]
        omega
      | node c' l' b r' =>
        simp only [ColorTree.root?, Option.isSome_some, if_true] at hstep
        omega

theorem sum_nextPostorder_le (ctx : Context (Address w)) (hm : Refines m h)
    (hT : TreeAt m (.root top) (fill ctx T)) (hnd : (fill ctx T).inorder.Nodup) (hne : T ≠ .nil) :
    (T.inorder.map (stepCost h rbnodeNextPostorder)).sum + 3 * plunge T + 6 ≤
      9 * T.size + ascent ctx := by
  induction T generalizing ctx with
  | nil => contradiction
  | node c l a r hl hr =>
    have hleft := hl (⟨.left, c, a, r⟩ :: ctx) hT hnd
    have hright := hr (⟨.right, c, a, l⟩ :: ctx) hT hnd
    have hstep := stepCost_le (accesses_nextPostorder (n := a) hm hT hnd rfl)
    simp only [ColorTree.inorder, List.map_append, List.map_cons, List.sum_append, List.sum_cons,
      ColorTree.size]
    simp only [ascent] at hleft hright
    cases l with
    | nil =>
      cases r with
      | nil =>
        simp only [ColorTree.inorder, ColorTree.size, plunge, List.map_nil, List.sum_nil, if_true]
        omega
      | node c' l' b r' =>
        have hcost := hright (by simp)
        rw [plunge, if_pos (by rfl)]
        simp only [ColorTree.inorder, ColorTree.size, List.map_nil, List.sum_nil] at hcost ⊢
        omega
    | node c' l' b r' =>
      have hpos : plunge (.node c' l' b r') ≠ 0 := by simp [plunge]
      have hcost := hleft (by simp)
      rw [plunge, if_neg hpos]
      cases r with
      | nil =>
        simp only [ColorTree.root?, Option.isSome_none, Bool.false_eq_true, if_false] at hcost
        simp only [ColorTree.inorder, ColorTree.size, List.map_nil, List.sum_nil] at hcost ⊢
        omega
      | node c'' l'' b' r'' =>
        have hcost' := hright (by simp)
        simp only [ColorTree.root?, Option.isSome_some, if_true] at hcost
        omega

theorem sum_prevPostorder_le (ctx : Context (Address w)) (hm : Refines m h)
    (hT : TreeAt m (.root top) (fill ctx T)) (hnd : (fill ctx T).inorder.Nodup) (hne : T ≠ .nil) :
    (T.inorder.map (stepCost h rbnodePrevPostorder)).sum + 3 ≤ 9 * T.size + 4 * retreat ctx := by
  induction T generalizing ctx with
  | nil => contradiction
  | node c l a r hl hr =>
    have hleft := hl (⟨.left, c, a, r⟩ :: ctx) hT hnd
    have hright := hr (⟨.right, c, a, l⟩ :: ctx) hT hnd
    have hstep := stepCost_le (accesses_prevPostorder (n := a) hm hT hnd)
    simp only [ColorTree.inorder, List.map_append, List.map_cons, List.sum_append, List.sum_cons,
      ColorTree.size]
    simp only [retreat] at hleft hright
    cases l with
    | nil =>
      cases r with
      | nil =>
        simp only [ColorTree.root?, Option.isSome_none, Bool.false_eq_true, if_false] at hstep
        simp only [ColorTree.inorder, ColorTree.size, List.map_nil, List.sum_nil]
        omega
      | node c' l' b r' =>
        have hcost := hright (by simp)
        simp only [ColorTree.root?, Option.isSome_none, Option.isSome_some,
          Bool.false_eq_true, and_false, if_true, if_false] at hstep hcost
        simp only [ColorTree.inorder, ColorTree.size, List.map_nil, List.sum_nil] at hcost ⊢
        omega
    | node c' l' b r' =>
      have hcost := hleft (by simp)
      cases r with
      | nil =>
        simp only [ColorTree.root?, Option.isSome_none, Option.isSome_some, Bool.false_eq_true,
          reduceCtorEq, false_and, if_true, if_false] at hstep hcost
        simp only [ColorTree.inorder, ColorTree.size, List.map_nil, List.sum_nil] at hcost ⊢
        omega
      | node c'' l'' b' r'' =>
        have hcost' := hright (by simp)
        simp only [ColorTree.root?, Option.isSome_some, reduceCtorEq, false_and,
          and_self, if_true, if_false] at hstep hcost hcost'
        omega

end Sums

section Whole

variable {h : Heap w} {t : Address w} {T : ColorTree (Address w)} {N turns : ℕ}
  {L : Loop (Command w) Answer (Pointer w)} {l : List (Address w)}

/-- The loop goes through the nodes of the list and accesses memory at most `N` times. -/
def Tours (h : Heap w) (L : Loop (Command w) Answer (Pointer w)) (turns : ℕ)
    (l : List (Address w)) (N : ℕ) : Prop :=
  ∃ tr, run (machine packed) (L.first >>= collect L turns) h = .ok (l.map some, h, tr) ∧
    accesses tr ≤ N

theorem tours (hmore : L.more = Option.isSome) (hfirst : Returns h L.first l.head?)
    (hcost : Accesses N L.first h) (hnext : Follows h L.next l) (hperm : l.Perm T.inorder)
    (hturns : T.size ≤ turns)
    (hsum : N + (T.inorder.map (stepCost h L.next)).sum ≤ 9 * T.size + 1) :
    Tours h L turns l (9 * T.size + 1) := by
  obtain ⟨tr₁, hstart⟩ := hfirst
  obtain ⟨tr₂, hrest, hcount⟩ := hnext.collect hmore
    (show l.length ≤ turns by rwa [hperm.length_eq, ColorTree.size_eq_length])
  refine ⟨tr₁ ++ tr₂, run_bind hstart hrest, ?_⟩
  have hle := hcost.accesses_le hstart
  rw [accesses_append, hcount, (hperm.map _).sum_eq]
  omega

theorem accesses_ofRoot {f : Pointer w → Prog w (Pointer w)}
    (hwalk : Accesses N (f (h.load (.root t))) h) :
    Accesses (1 + N) (do cAssert (some t).isSome; f (← loadRoot (some t))) h :=
  Within.look (p := loadRoot (some t)) readOnly_loadRoot rfl (costs_loadRoot h) hwalk

section First

variable (hroot : Unfolds h.load (h.load (.root t)) T)
include hroot

theorem accesses_extreme (d : Side) :
    Accesses (2 * spine d T) (extremeLoop d (2 ^ w) (h.load (.root t))) h := by
  have hspine := spends_extremeLoop (P := ⟨1, 1⟩) (I := fun _ => 0) d (2 ^ w) hroot
  rwa [Nat.mul_one] at hspine

theorem accesses_first : Accesses (1 + 2 * spine .left T) (rbtreeFirst (some t)) h := by
  refine accesses_ofRoot (f := rbnodeLeftmost) ?_
  rw [rbnodeLeftmost, leftmostLoop_eq]
  split
  · exact accesses_extreme hroot .left
  · exact Within.mono (within_pure _ h) (Nat.zero_le _)

theorem accesses_last : Accesses (1 + 2 * spine .right T) (rbtreeLast (some t)) h := by
  refine accesses_ofRoot (f := rbnodeRightmost) ?_
  rw [rbnodeRightmost, rightmostLoop_eq]
  split
  · exact accesses_extreme hroot .right
  · exact Within.mono (within_pure _ h) (Nat.zero_le _)

theorem accesses_firstPostorder :
    Accesses (1 + 3 * plunge T) (rbtreeFirstPostorder (some t)) h := by
  refine accesses_ofRoot (f := rbnodeLeftdeepest) ?_
  rw [rbnodeLeftdeepest]
  split
  · exact accesses_leftdeepestLoop (2 ^ w) hroot
  · exact Within.mono (within_pure _ h) (Nat.zero_le _)

end First

/-- The loops in any of the four orders go through all the nodes and access memory at most nine
times for each. -/
theorem tours_linear (hT : Laid h t T) (hnd : T.inorder.Nodup) (hturns : T.size ≤ turns) :
    Tours h (rbtreeForEach (some t)) turns T.inorder (9 * T.size + 1) ∧
    Tours h (backwards (some t)) turns T.inorder.reverse (9 * T.size + 1) ∧
    Tours h (rbtreeForEachPostorder (some t)) turns T.postorder (9 * T.size + 1) ∧
    Tours h (backwardsPostorder (some t)) turns T.postorder.reverse (9 * T.size + 1) := by
  obtain ⟨m, hm, hlaid⟩ := id hT
  have hroot : Unfolds h.load (h.load (.root t)) T := hm.1 ▸ hlaid.unfolds
  have hsteps : ∀ d, (T.inorder.map (stepCost h (stepTo d))).sum + 2 * spine d.flip T ≤
      9 * T.size := fun d => sum_stepTo_le d [] hm hlaid hnd
  refine ⟨?_, ?_, ?_, ?_⟩
  · have hsum := hsteps .right
    rw [← show rbnodeNext = stepTo .right from funext rbnodeNext_eq, Side.flip] at hsum
    refine tours rfl (Laid.first hT hnd) (accesses_first hroot) (Laid.follows_next hT hnd)
      (.refl _) hturns ?_
    simp only [rbtreeForEach]
    omega
  · have hsum := hsteps .left
    rw [← show rbnodePrev = stepTo .left from funext rbnodePrev_eq, Side.flip] at hsum
    refine tours rfl (Laid.last hT hnd) (accesses_last hroot) (Laid.follows_prev hT hnd)
      (List.reverse_perm _) hturns ?_
    simp only [backwards]
    omega
  · have hsum : (T.inorder.map (stepCost h rbnodeNextPostorder)).sum + 3 * plunge T ≤
        9 * T.size := by
      by_cases hne : T = .nil
      · simp [hne, ColorTree.inorder, plunge]
      · have hle := sum_nextPostorder_le [] hm hlaid hnd hne
        simp only [ascent] at hle
        omega
    refine tours rfl (Laid.firstPostorder hT hnd) (accesses_firstPostorder hroot)
      (Laid.follows_nextPostorder hT hnd) T.postorder_perm hturns ?_
    simp only [rbtreeForEachPostorder]
    omega
  · have hsum : (T.inorder.map (stepCost h rbnodePrevPostorder)).sum ≤ 9 * T.size := by
      by_cases hne : T = .nil
      · simp [hne, ColorTree.inorder]
      · have hle := sum_prevPostorder_le [] hm hlaid hnd hne
        simp only [retreat] at hle
        omega
    refine tours rfl (Laid.lastPostorder hT) (accesses_ofRoot (f := pure) (within_pure _ h))
      (Laid.follows_prevPostorder hT hnd) ((List.reverse_perm _).trans T.postorder_perm) hturns
      (N := 1 + 0) ?_
    simp only [backwardsPostorder]
    omega

theorem tours_linear_sample :
    Tours sampleHeap (rbtreeForEachPostorder (some (cell 1))) 7
      [cell 4, cell 3, cell 8, cell 7, cell 9, cell 10, cell 6] (9 * 7 + 1) ∧
    Tours (layOut (cell 0) crooked) (backwardsPostorder (some (cell 0))) 3
      [cell 3, cell 1, cell 2] (9 * 3 + 1) :=
  ⟨(tours_linear laid_sampleTree nodup_sampleTree (by decide)).2.2.1,
    (tours_linear laid_crooked nodup_crooked (by decide)).2.2.2⟩

end Whole

end CRbtree
