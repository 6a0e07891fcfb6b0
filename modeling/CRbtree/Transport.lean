import CRbtree.Lookup
import CRbtree.Matchings

set_option autoImplicit false

/-!
Every function of c-rbtree.c runs in lockstep on memories that correspond.
-/

namespace CRbtree
open TaggedPointers PointerGraphs Programs

variable {w : ℕ} {M : Matching w} {n n' p p' g g' gg gg' s s' t t' x x' y y' : Pointer w}

namespace Matching

/-- A pair of pointers that correspond. -/
def SameTwo (M : Matching w) (u v : Pointer w × Pointer w) : Prop :=
  M.Same u.1 v.1 ∧ M.Same u.2 v.2

theorem isFlags_clear (k f : Word w) (hf : IsFlags f) : IsFlags (f &&& k) := isFlags_and k hf

theorem repaint_red (f : Word w) (hf : IsFlags f) :
    IsFlags (f ||| rbnodeRed) ∧ (f ||| rbnodeRed) &&& rbnodeRoot = f &&& rbnodeRoot := by
  refine ⟨isFlags_or hf isFlags_red, ?_⟩
  rw [BitVec.and_or_distrib_right, red_and_root, BitVec.or_zero]

theorem repaint_black (f : Word w) (hf : IsFlags f) :
    IsFlags (f &&& ~~~rbnodeRed) ∧ f &&& ~~~rbnodeRed &&& rbnodeRoot = f &&& rbnodeRoot := by
  refine ⟨isFlags_and _ hf, ?_⟩
  rw [BitVec.and_assoc, BitVec.and_comm (~~~rbnodeRed), root_and_not_red]

section Insertion

theorem tie_uncleNotRed {child : Pointer w → Prog w (Pointer w)}
    (hchild : M.Tie M.Same (child g) (child g')) (hp : M.Same p p') :
    M.Tie Eq (uncleNotRed child p g) (uncleNotRed child p' g') := by
  refine hchild.bind fun _ _ h₁ => .ite (hp.eq_iff h₁).symm (fun _ => .pure rfl) fun _ => ?_
  refine hchild.bind fun _ _ h₂ => .ite (by rw [h₂.alike.isNone_eq]) (fun _ => .pure rfl)
    fun _ => ?_
  exact hchild.bind fun _ _ h₃ => tie_rbnodeIsBlack h₃

theorem tie_paintTerminalAsserts (hp : M.Same p p') (hg : M.Same g g') :
    M.Tie Eq (rbtreePaintTerminalAsserts p g) (rbtreePaintTerminalAsserts p' g') := by
  refine (tie_rbnodeIsRed hp).bind fun _ _ h => (tie_assert h.symm).bind fun _ _ _ => ?_
  refine (tie_rbnodeIsBlack hg).bind fun _ _ h => (tie_assert h.symm).bind fun _ _ _ => ?_
  refine (tie_uncleNotRed (tie_loadLeft hg) hp).bind fun _ _ h => ?_
  refine (tie_assert h.symm).bind fun _ _ _ => ?_
  exact (tie_uncleNotRed (tie_loadRight hg) hp).bind fun _ _ h => tie_assert h.symm

theorem tie_paintInnerLeft (hn : M.Same n n') (hp : M.Same p p') :
    M.Tie M.Same (rbtreePaintInnerLeft n p) (rbtreePaintInnerLeft n' p') := by
  refine (tie_loadRight hp).bind fun _ _ hr => .ite (hn.eq_iff hr).symm (fun _ => ?_)
    fun _ => .pure hp
  refine (tie_loadLeft hn).bind fun _ _ hx => (tie_storeRight hp hx).bind fun _ _ _ => ?_
  refine (tie_storeLeft hn hp).bind fun _ _ _ => ?_
  refine (tie_whenSet hx.alike (tie_reflag hx hp hx fun _ => id)).bind fun _ _ _ => ?_
  exact (tie_rbnodeFlags hp).bind fun _ _ hf => (tie_setLink hp hn hf).bind fun _ _ _ => .pure hn

theorem tie_paintOuterLeft (hp : M.Same p p') (hg : M.Same g g') (hgg : M.Same gg gg') :
    M.Tie Eq (rbtreePaintOuterLeft p g gg) (rbtreePaintOuterLeft p' g' gg') := by
  refine (tie_loadRight hp).bind fun _ _ hx => (tie_rbnodePopRoot hg).bind fun _ _ ht => ?_
  refine (tie_storeLeft hg hx).bind fun _ _ _ => (tie_storeRight hp hg).bind fun _ _ _ => ?_
  refine (tie_rbnodeSwapChild hg hp).bind fun _ _ _ => ?_
  refine (tie_whenSet hx.alike (tie_reflag hx hg hx (isFlags_clear _))).bind fun _ _ _ => ?_
  refine (tie_rbnodeFlags hp).bind fun _ _ hf =>
    (tie_setLink hp hgg (hf.and _)).bind fun _ _ _ => ?_
  refine (tie_rbnodeFlags hg).bind fun _ _ hf => (tie_setLink hg hp hf.setRed).bind fun _ _ _ => ?_
  exact (tie_rbnodePushRoot hp ht).bind fun _ _ _ => .pure rfl

theorem tie_paintInnerRight (hn : M.Same n n') (hp : M.Same p p') :
    M.Tie M.Same (rbtreePaintInnerRight n p) (rbtreePaintInnerRight n' p') := by
  refine (tie_loadLeft hp).bind fun _ _ hl => .ite (hn.eq_iff hl).symm (fun _ => ?_)
    fun _ => .pure hp
  refine (tie_loadRight hn).bind fun _ _ hx => (tie_loadRight hn).bind fun _ _ hy => ?_
  refine (tie_storeLeft hp hy).bind fun _ _ _ => (tie_storeRight hn hp).bind fun _ _ _ => ?_
  refine (tie_whenSet hx.alike (tie_reflag hx hp hx fun _ => id)).bind fun _ _ _ => ?_
  exact (tie_rbnodeFlags hp).bind fun _ _ hf => (tie_setLink hp hn hf).bind fun _ _ _ => .pure hn

theorem tie_paintOuterRight (hp : M.Same p p') (hg : M.Same g g') (hgg : M.Same gg gg') :
    M.Tie Eq (rbtreePaintOuterRight p g gg) (rbtreePaintOuterRight p' g' gg') := by
  refine (tie_loadLeft hp).bind fun _ _ hx => (tie_rbnodePopRoot hg).bind fun _ _ ht => ?_
  refine (tie_storeRight hg hx).bind fun _ _ _ => (tie_storeLeft hp hg).bind fun _ _ _ => ?_
  refine (tie_rbnodeSwapChild hg hp).bind fun _ _ _ => ?_
  refine (tie_whenSet hx.alike (tie_reflag hx hg hx (isFlags_clear _))).bind fun _ _ _ => ?_
  refine (tie_rbnodeFlags hp).bind fun _ _ hf =>
    (tie_setLink hp hgg (hf.and _)).bind fun _ _ _ => ?_
  refine (tie_rbnodeFlags hg).bind fun _ _ hf => (tie_setLink hg hp hf.setRed).bind fun _ _ _ => ?_
  exact (tie_rbnodePushRoot hp ht).bind fun _ _ _ => .pure rfl

theorem tie_paintTerminal (hn : M.Same n n') :
    M.Tie Eq (rbtreePaintTerminal n) (rbtreePaintTerminal n') := by
  refine (tie_rbnodeParent hn).bind fun _ _ hp => (tie_rbnodeParent hp).bind fun _ _ hg => ?_
  refine (tie_rbnodeParent hg).bind fun _ _ hgg => ?_
  refine (tie_paintTerminalAsserts hp hg).bind fun _ _ _ => (tie_loadLeft hg).bind fun _ _ hl => ?_
  refine .ite (hp.eq_iff hl).symm (fun _ => ?_) fun _ => ?_
  · exact (tie_paintInnerLeft hn hp).bind fun _ _ hp => tie_paintOuterLeft hp hg hgg
  · exact (tie_paintInnerRight hn hp).bind fun _ _ hp => tie_paintOuterRight hp hg hgg

theorem tie_otherChild (hx : M.Same x x') (hp : M.Same p p') :
    M.Tie M.Same (otherChild x p) (otherChild x' p') :=
  (tie_loadLeft hp).bind fun _ _ hl => .ite (hx.eq_iff hl).symm (fun _ => tie_loadRight hp)
    fun _ => tie_loadLeft hp

theorem tie_unsetOrNotRed (hx : M.Same x x') : M.Tie Eq (unsetOrNotRed x) (unsetOrNotRed x') :=
  .ite (by rw [hx.alike.isNone_eq]) (fun _ => .pure rfl)
    fun _ => (tie_rbnodeIsRed hx).bind fun _ _ h => .pure (by rw [h])

theorem tie_paintPath (turns : ℕ) (hn : M.Same n n') :
    M.Tie M.Same (rbtreePaintPath turns n) (rbtreePaintPath turns n') := by
  induction turns generalizing n n' with
  | zero => exact tie_crash .endless
  | succ turns ih =>
    refine (tie_rbnodeParent hn).bind fun p p' hp => .ite (by rw [hp.alike.isNone_eq])
      (fun _ => ?_) fun _ => ?_
    · have hcase1 := tie_repaint hn (g := (· &&& ~~~rbnodeRed)) repaint_black
      simpa only [bind_assoc] using hcase1.bind fun _ _ _ => .pure same_none
    refine (tie_rbnodeIsBlack hp).bind fun _ _ hb => .ite (by rw [hb])
      (fun _ => .pure same_none) fun _ => ?_
    refine (tie_rbnodeParent hp).bind fun g g' hg => (tie_otherChild hp hg).bind fun u u' hu => ?_
    refine (tie_unsetOrNotRed hu).bind fun _ _ hb => .ite (by rw [hb]) (fun _ => .pure hn)
      fun _ => ?_
    refine (tie_rbnodeFlags hp).bind fun _ _ hf =>
      (tie_setLink hp hg (hf.and _)).bind fun _ _ _ => ?_
    refine (tie_rbnodeFlags hu).bind fun _ _ hf =>
      (tie_setLink hu hg (hf.and _)).bind fun _ _ _ => ?_
    have hcase3 := (tie_repaint hg (g := (· ||| rbnodeRed)) repaint_red).bind fun _ _ _ =>
      (tie_countTurn (M := M) .paint).bind fun _ _ _ => ih hg
    simpa only [bind_assoc] using hcase3

theorem tie_rbtreePaint (hn : M.Same n n') : M.Tie Eq (rbtreePaint n) (rbtreePaint n') :=
  (tie_paintPath _ hn).bind fun _ _ h => tie_whenSet h.alike (tie_paintTerminal h)

end Insertion

section Traversal

theorem tie_leftmostLoop (turns : ℕ) (hn : M.Same n n') :
    M.Tie M.Same (leftmostLoop turns n) (leftmostLoop turns n') := by
  induction turns generalizing n n' with
  | zero =>
    unfold leftmostLoop
    exact (tie_loadLeft hn).bind fun _ _ hl => .ite (by rw [hl.alike.isSome_eq])
      (fun _ => tie_crash .endless) fun _ => .pure hn
  | succ turns ih =>
    unfold leftmostLoop
    exact (tie_loadLeft hn).bind fun _ _ hl => .ite (by rw [hl.alike.isSome_eq])
      (fun _ => (tie_loadLeft hn).bind fun _ _ hl => ih hl) fun _ => .pure hn

theorem tie_rbnodeLeftmost (hn : M.Same n n') :
    M.Tie M.Same (rbnodeLeftmost n) (rbnodeLeftmost n') :=
  .ite (by rw [hn.alike.isSome_eq]) (fun _ => tie_leftmostLoop _ hn) fun _ => .pure hn

theorem tie_rightmostLoop (turns : ℕ) (hn : M.Same n n') :
    M.Tie M.Same (rightmostLoop turns n) (rightmostLoop turns n') := by
  induction turns generalizing n n' with
  | zero =>
    unfold rightmostLoop
    exact (tie_loadRight hn).bind fun _ _ hr => .ite (by rw [hr.alike.isSome_eq])
      (fun _ => tie_crash .endless) fun _ => .pure hn
  | succ turns ih =>
    unfold rightmostLoop
    exact (tie_loadRight hn).bind fun _ _ hr => .ite (by rw [hr.alike.isSome_eq])
      (fun _ => (tie_loadRight hn).bind fun _ _ hr => ih hr) fun _ => .pure hn

theorem tie_leftdeepestLoop (turns : ℕ) (hn : M.Same n n') :
    M.Tie M.Same (leftdeepestLoop turns n) (leftdeepestLoop turns n') := by
  induction turns generalizing n n' with
  | zero =>
    unfold leftdeepestLoop
    refine (tie_loadLeft hn).bind fun _ _ hl => .ite (by rw [hl.alike.isSome_eq])
      (fun _ => tie_crash .endless) fun _ => ?_
    exact (tie_loadRight hn).bind fun _ _ hr => .ite (by rw [hr.alike.isSome_eq])
      (fun _ => tie_crash .endless) fun _ => .pure hn
  | succ turns ih =>
    unfold leftdeepestLoop
    refine (tie_loadLeft hn).bind fun _ _ hl => .ite (by rw [hl.alike.isSome_eq])
      (fun _ => (tie_loadLeft hn).bind fun _ _ hl => ih hl) fun _ => ?_
    exact (tie_loadRight hn).bind fun _ _ hr => .ite (by rw [hr.alike.isSome_eq])
      (fun _ => (tie_loadRight hn).bind fun _ _ hr => ih hr) fun _ => .pure hn

theorem tie_rbnodeRightmost (hn : M.Same n n') :
    M.Tie M.Same (rbnodeRightmost n) (rbnodeRightmost n') :=
  .ite (by rw [hn.alike.isSome_eq]) (fun _ => tie_rightmostLoop _ hn) fun _ => .pure hn

theorem tie_rbnodeLeftdeepest (hn : M.Same n n') :
    M.Tie M.Same (rbnodeLeftdeepest n) (rbnodeLeftdeepest n') :=
  .ite (by rw [hn.alike.isSome_eq]) (fun _ => tie_leftdeepestLoop _ hn) fun _ => .pure hn

theorem tie_isRightOf (hn : M.Same n n') (hp : M.Same p p') :
    M.Tie Eq (isRightOf n p) (isRightOf n' p') :=
  .ite (by rw [hp.alike.isSome_eq]) (fun _ => (tie_loadRight hp).bind fun _ _ hr =>
    .pure (decide_eq_decide.mpr (hn.eq_iff hr).symm)) fun _ => .pure rfl

theorem tie_isLeftOf (hn : M.Same n n') (hp : M.Same p p') :
    M.Tie Eq (isLeftOf n p) (isLeftOf n' p') :=
  .ite (by rw [hp.alike.isSome_eq]) (fun _ => (tie_loadLeft hp).bind fun _ _ hl =>
    .pure (decide_eq_decide.mpr (hn.eq_iff hl).symm)) fun _ => .pure rfl

theorem tie_nextLoop (turns : ℕ) (hn : M.Same n n') :
    M.Tie M.Same (nextLoop turns n) (nextLoop turns n') := by
  induction turns generalizing n n' with
  | zero =>
    unfold nextLoop
    exact (tie_rbnodeParent hn).bind fun _ _ hp => (tie_isRightOf hn hp).bind fun _ _ hb =>
      .ite (by rw [hb]) (fun _ => tie_crash .endless) fun _ => .pure hp
  | succ turns ih =>
    unfold nextLoop
    exact (tie_rbnodeParent hn).bind fun _ _ hp => (tie_isRightOf hn hp).bind fun _ _ hb =>
      .ite (by rw [hb]) (fun _ => ih hp) fun _ => .pure hp

theorem tie_prevLoop (turns : ℕ) (hn : M.Same n n') :
    M.Tie M.Same (prevLoop turns n) (prevLoop turns n') := by
  induction turns generalizing n n' with
  | zero =>
    unfold prevLoop
    exact (tie_rbnodeParent hn).bind fun _ _ hp => (tie_isLeftOf hn hp).bind fun _ _ hb =>
      .ite (by rw [hb]) (fun _ => tie_crash .endless) fun _ => .pure hp
  | succ turns ih =>
    unfold prevLoop
    exact (tie_rbnodeParent hn).bind fun _ _ hp => (tie_isLeftOf hn hp).bind fun _ _ hb =>
      .ite (by rw [hb]) (fun _ => ih hp) fun _ => .pure hp

theorem tie_hasOtherLeft (hn : M.Same n n') (hp : M.Same p p') :
    M.Tie Eq (hasOtherLeft n p) (hasOtherLeft n' p') :=
  (tie_loadLeft hp).bind fun _ _ hl => .ite (by rw [hl.alike.isSome_eq])
    (fun _ => (tie_loadLeft hp).bind fun _ _ hl =>
      .pure (decide_eq_decide.mpr (not_congr (hn.eq_iff hl).symm))) fun _ => .pure rfl

theorem tie_prevPostorderLoop (turns : ℕ) (hn : M.Same n n') :
    M.Tie M.Same (prevPostorderLoop turns n) (prevPostorderLoop turns n') := by
  induction turns generalizing n n' with
  | zero =>
    unfold prevPostorderLoop
    exact (tie_rbnodeParent hn).bind fun _ _ hp => .ite (by rw [hp.alike.isSome_eq])
      (fun _ => tie_crash .endless) fun _ => .pure same_none
  | succ turns ih =>
    unfold prevPostorderLoop
    exact (tie_rbnodeParent hn).bind fun _ _ hp => .ite (by rw [hp.alike.isSome_eq])
      (fun _ => (tie_hasOtherLeft hn hp).bind fun _ _ hb => .ite (by rw [hb])
        (fun _ => tie_loadLeft hp) fun _ => ih hp) fun _ => .pure same_none

theorem tie_rbnodeNext (hn : M.Same n n') : M.Tie M.Same (rbnodeNext n) (rbnodeNext n') := by
  refine (tie_rbnodeIsLinked hn).bind fun _ _ hb => .ite (by rw [hb]) (fun _ => ?_)
    fun _ => .pure same_none
  exact (tie_loadRight hn).bind fun _ _ hr => .ite (by rw [hr.alike.isSome_eq])
    (fun _ => (tie_loadRight hn).bind fun _ _ hr => tie_rbnodeLeftmost hr)
    fun _ => tie_nextLoop _ hn

theorem tie_rbnodePrev (hn : M.Same n n') : M.Tie M.Same (rbnodePrev n) (rbnodePrev n') := by
  refine (tie_rbnodeIsLinked hn).bind fun _ _ hb => .ite (by rw [hb]) (fun _ => ?_)
    fun _ => .pure same_none
  exact (tie_loadLeft hn).bind fun _ _ hl => .ite (by rw [hl.alike.isSome_eq])
    (fun _ => (tie_loadLeft hn).bind fun _ _ hl => tie_rbnodeRightmost hl)
    fun _ => tie_prevLoop _ hn

theorem tie_rbnodeNextPostorder (hn : M.Same n n') :
    M.Tie M.Same (rbnodeNextPostorder n) (rbnodeNextPostorder n') := by
  refine (tie_rbnodeIsLinked hn).bind fun _ _ hb => .ite (by rw [hb]) (fun _ => ?_)
    fun _ => .pure same_none
  refine (tie_rbnodeParent hn).bind fun _ _ hp => (tie_isLeftOf hn hp).bind fun _ _ hb => ?_
  refine .ite (by rw [hb]) (fun _ => ?_) fun _ => .pure hp
  exact (tie_loadRight hp).bind fun _ _ hr => .ite (by rw [hr.alike.isSome_eq])
    (fun _ => (tie_loadRight hp).bind fun _ _ hr => tie_rbnodeLeftdeepest hr) fun _ => .pure hp

theorem tie_rbnodePrevPostorder (hn : M.Same n n') :
    M.Tie M.Same (rbnodePrevPostorder n) (rbnodePrevPostorder n') := by
  refine (tie_rbnodeIsLinked hn).bind fun _ _ hb => .ite (by rw [hb]) (fun _ => ?_)
    fun _ => .pure same_none
  refine (tie_loadRight hn).bind fun _ _ hr => .ite (by rw [hr.alike.isSome_eq])
    (fun _ => tie_loadRight hn) fun _ => ?_
  exact (tie_loadLeft hn).bind fun _ _ hl => .ite (by rw [hl.alike.isSome_eq])
    (fun _ => tie_loadLeft hn) fun _ => tie_prevPostorderLoop _ hn

variable {tree : Address w} (htree : tree ∈ M.trees)
include htree

/-- A function of a tree that starts with its root. -/
theorem tie_fromRoot {k : Pointer w → Prog w (Pointer w)}
    (hk : ∀ {n n'}, M.Same n n' → M.Tie M.Same (k n) (k n')) :
    M.Tie M.Same (cAssert (some tree).isSome >>= fun _ => loadRoot (some tree) >>= k)
      (cAssert (some (M.rename tree)).isSome >>= fun _ => loadRoot (some (M.rename tree)) >>= k) :=
  (tie_assert rfl).bind fun _ _ _ => (tie_loadRoot htree).bind fun _ _ hr => hk hr

theorem tie_rbtreeFirst :
    M.Tie M.Same (rbtreeFirst (some tree)) (rbtreeFirst (some (M.rename tree))) :=
  tie_fromRoot htree tie_rbnodeLeftmost

theorem tie_rbtreeLast :
    M.Tie M.Same (rbtreeLast (some tree)) (rbtreeLast (some (M.rename tree))) :=
  tie_fromRoot htree tie_rbnodeRightmost

theorem tie_rbtreeFirstPostorder :
    M.Tie M.Same (rbtreeFirstPostorder (some tree)) (rbtreeFirstPostorder (some (M.rename tree))) :=
  tie_fromRoot htree tie_rbnodeLeftdeepest

theorem tie_rbtreeLastPostorder :
    M.Tie M.Same (rbtreeLastPostorder (some tree)) (rbtreeLastPostorder (some (M.rename tree))) :=
  (tie_assert rfl).bind fun _ _ _ => tie_loadRoot htree

end Traversal

section Lookup

variable {κ : Type} {f f' : CRBCompareFunc κ w} {k : κ}

theorem tie_findNodeLoop (turns : ℕ) (hf : ∀ p p', M.Same p p' → f' t' k p' = f t k p)
    (hn : M.Same n n') :
    M.Tie M.Same (findNodeLoop f t k turns n) (findNodeLoop f' t' k turns n') := by
  induction turns generalizing n n' with
  | zero =>
    unfold findNodeLoop
    exact .ite (by rw [hn.alike.isSome_eq]) (fun _ => tie_crash .endless) fun _ => .pure same_none
  | succ turns ih =>
    unfold findNodeLoop
    refine .ite (by rw [hn.alike.isSome_eq]) (fun _ => ?_) fun _ => .pure same_none
    have hv := hf n n' hn
    refine .ite (by rw [hv]) (fun _ => (tie_loadLeft hn).bind fun _ _ hl => ih hl) fun _ => ?_
    exact .ite (by rw [hv]) (fun _ => (tie_loadRight hn).bind fun _ _ hr => ih hr) fun _ => .pure hn

/-- A slot of a shared node, or the root of a shared tree. -/
def Has (M : Matching w) : Slot w → Prop
  | .left a | .right a => a ∈ M.nodes
  | .root t => t ∈ M.trees

theorem Has.object_mem {s : Slot w} (hs : M.Has s) : s.object ∈ M.objects := by
  cases s with
  | left a | right a => exact mem_objects hs
  | root t => exact .inr hs

theorem tie_load {s : Slot w} (hs : M.Has s) :
    M.Tie M.Same (load s) (load (s.rename M.rename)) := by
  refine tie_issue (.load s) hs.object_mem fun _ _ hj => ⟨_, _, _, _, rfl, rfl, ?_, hj⟩
  cases s with
  | left a => exact (hj.node a hs (by simp)).left
  | right a => exact (hj.node a hs (by simp)).right
  | root t => exact hj.tree t hs (by simp)

/-- What c_rbtree_find_slot() returns. -/
def SameSlot (M : Matching w) (u v : Option (Slot w) × Pointer w) : Prop :=
  (v.1 = u.1.map (Slot.rename M.rename) ∧ ∀ s ∈ u.1, M.Has s) ∧ M.Same u.2 v.2

theorem tie_findSlotLoop (turns : ℕ) {s : Slot w}
    (hf : ∀ p p', M.Same p p' → f' t' k p' = f t k p) (hs : M.Has s)
    (hp : M.Same p p') :
    M.Tie M.SameSlot (findSlotLoop f t k turns s p)
      (findSlotLoop f' t' k turns (s.rename M.rename) p') := by
  induction turns generalizing s p p' with
  | zero =>
    unfold findSlotLoop
    exact (tie_load hs).bind fun _ _ hx => .ite (by rw [hx.alike.isSome_eq])
      (fun _ => tie_crash .endless) fun _ => .pure ⟨⟨rfl, by simpa using hs⟩, hp⟩
  | succ turns ih =>
    unfold findSlotLoop
    refine (tie_load hs).bind fun _ _ hx => .ite (by rw [hx.alike.isSome_eq]) (fun _ => ?_)
      fun _ => .pure ⟨⟨rfl, by simpa using hs⟩, hp⟩
    refine (tie_load hs).bind fun y y' hy => (tie_load hs).bind fun q q' hq => ?_
    have hv := hf y y' hy
    refine .ite (by rw [hv]) (fun _ => ?_) fun _ => .ite (by rw [hv]) (fun _ => ?_)
      fun _ => .pure ⟨⟨rfl, by simp⟩, hq⟩
    · exact (tie_load hs).bind fun _ _ hx => tie_deref hx fun a ha => ih (s := .left a) ha hq
    · exact (tie_load hs).bind fun _ _ hx => tie_deref hx fun a ha => ih (s := .right a) ha hq

theorem tie_rbtreeFindNode (turns : ℕ) {tree : Address w} (htree : tree ∈ M.trees)
    (hf : ∀ p p', M.Same p p' → f' (some (M.rename tree)) k p' = f (some tree) k p) :
    M.Tie M.Same (rbtreeFindNode turns f (some tree) k)
      (rbtreeFindNode turns f' (some (M.rename tree)) k) :=
  (tie_assert rfl).bind fun _ _ _ => (tie_loadRoot htree).bind fun _ _ hr =>
    tie_findNodeLoop turns hf hr

theorem tie_rbtreeFindSlot (turns : ℕ) {tree : Address w} (htree : tree ∈ M.trees)
    (hf : ∀ p p', M.Same p p' → f' (some (M.rename tree)) k p' = f (some tree) k p) :
    M.Tie M.SameSlot (rbtreeFindSlot turns f (some tree) k)
      (rbtreeFindSlot turns f' (some (M.rename tree)) k) :=
  (tie_assert rfl).bind fun _ _ _ => tie_findSlotLoop (s := .root tree) turns hf htree same_none

end Lookup

section Removal

theorem tie_redLeft (hp : M.Same p p') (hs : M.Same s s') :
    M.Tie M.Same (rebalanceRedLeft p s) (rebalanceRedLeft p' s') := by
  refine (tie_rbnodePopRoot hp).bind fun _ _ ht => (tie_rbnodeParent hp).bind fun _ _ hg => ?_
  refine (tie_loadLeft hs).bind fun _ _ hx => (tie_storeRight hp hx).bind fun _ _ _ => ?_
  refine (tie_storeLeft hs hp).bind fun _ _ _ => (tie_rbnodeSwapChild hp hs).bind fun _ _ _ => ?_
  refine (tie_rbnodeFlags hx).bind fun _ _ hf => (tie_setLink hx hp (hf.and _)).bind fun _ _ _ => ?_
  refine (tie_rbnodeFlags hs).bind fun _ _ hf => (tie_setLink hs hg (hf.and _)).bind fun _ _ _ => ?_
  refine (tie_rbnodeFlags hp).bind fun _ _ hf => (tie_setLink hp hs hf.setRed).bind fun _ _ _ => ?_
  exact (tie_rbnodePushRoot hs ht).bind fun _ _ _ => .pure hx

theorem tie_redRight (hp : M.Same p p') (hs : M.Same s s') :
    M.Tie M.Same (rebalanceRedRight p s) (rebalanceRedRight p' s') := by
  refine (tie_rbnodePopRoot hp).bind fun _ _ ht => (tie_rbnodeParent hp).bind fun _ _ hg => ?_
  refine (tie_loadRight hs).bind fun _ _ hx => (tie_storeLeft hp hx).bind fun _ _ _ => ?_
  refine (tie_storeRight hs hp).bind fun _ _ _ => (tie_rbnodeSwapChild hp hs).bind fun _ _ _ => ?_
  refine (tie_rbnodeFlags hx).bind fun _ _ hf => (tie_setLink hx hp (hf.and _)).bind fun _ _ _ => ?_
  refine (tie_rbnodeFlags hs).bind fun _ _ hf => (tie_setLink hs hg (hf.and _)).bind fun _ _ _ => ?_
  refine (tie_rbnodeFlags hp).bind fun _ _ hf => (tie_setLink hp hs hf.setRed).bind fun _ _ _ => ?_
  exact (tie_rbnodePushRoot hs ht).bind fun _ _ _ => .pure hx

theorem tie_flip (hp : M.Same p p') (hs : M.Same s s') :
    M.Tie Eq (rebalanceFlip p s) (rebalanceFlip p' s') := by
  refine (tie_rbnodeIsRed hp).bind fun _ _ h => (tie_assert h.symm).bind fun _ _ _ => ?_
  refine (tie_rbnodeFlags hs).bind fun _ _ hf => (tie_setLink hs hp hf.setRed).bind fun _ _ _ => ?_
  refine (tie_rbnodeParent hp).bind fun _ _ hg => (tie_rbnodeFlags hp).bind fun _ _ hf => ?_
  exact tie_setLink hp hg (hf.and _)

theorem tie_innerLeft (hp : M.Same p p') (hs : M.Same s s') (hy : M.Same y y') :
    M.Tie Eq (rebalanceInnerLeft p s y) (rebalanceInnerLeft p' s' y') := by
  refine (tie_loadRight hy).bind fun _ _ hx => (tie_loadRight hy).bind fun _ _ hx' => ?_
  refine (tie_storeLeft hs hx').bind fun _ _ _ => (tie_storeRight hy hs).bind fun _ _ _ => ?_
  refine (tie_storeRight hp hy).bind fun _ _ _ => ?_
  exact tie_whenSet hx.alike (tie_reflag hx hs hx (isFlags_clear _))

theorem tie_innerRight (hp : M.Same p p') (hs : M.Same s s') (hy : M.Same y y') :
    M.Tie Eq (rebalanceInnerRight p s y) (rebalanceInnerRight p' s' y') := by
  refine (tie_loadLeft hy).bind fun _ _ hx => (tie_loadLeft hy).bind fun _ _ hx' => ?_
  refine (tie_storeRight hs hx').bind fun _ _ _ => (tie_storeLeft hy hs).bind fun _ _ _ => ?_
  refine (tie_storeLeft hp hy).bind fun _ _ _ => ?_
  exact tie_whenSet hx.alike (tie_reflag hx hs hx (isFlags_clear _))

theorem tie_outerLeft (hp : M.Same p p') (hs : M.Same s s') (hx : M.Same x x') :
    M.Tie Eq (rebalanceOuterLeft p s x) (rebalanceOuterLeft p' s' x') := by
  refine (tie_rbnodePopRoot hp).bind fun _ _ ht => (tie_rbnodeParent hp).bind fun _ _ hg => ?_
  refine (tie_loadLeft hs).bind fun _ _ hy => (tie_storeRight hp hy).bind fun _ _ _ => ?_
  refine (tie_storeLeft hs hp).bind fun _ _ _ => (tie_rbnodeSwapChild hp hs).bind fun _ _ _ => ?_
  refine (tie_rbnodeFlags hx).bind fun _ _ hf => (tie_setLink hx hs (hf.and _)).bind fun _ _ _ => ?_
  refine (tie_whenSet hy.alike (tie_reflag hy hp hy fun _ => id)).bind fun _ _ _ => ?_
  refine (tie_rbnodeFlags hp).bind fun _ _ hf => (tie_setLink hs hg hf).bind fun _ _ _ => ?_
  refine (tie_rbnodeFlags hp).bind fun _ _ hf => (tie_setLink hp hs (hf.and _)).bind fun _ _ _ => ?_
  exact (tie_rbnodePushRoot hs ht).bind fun _ _ _ => .pure rfl

theorem tie_outerRight (hp : M.Same p p') (hs : M.Same s s') (hx : M.Same x x') :
    M.Tie Eq (rebalanceOuterRight p s x) (rebalanceOuterRight p' s' x') := by
  refine (tie_rbnodePopRoot hp).bind fun _ _ ht => (tie_rbnodeParent hp).bind fun _ _ hg => ?_
  refine (tie_loadRight hs).bind fun _ _ hy => (tie_storeLeft hp hy).bind fun _ _ _ => ?_
  refine (tie_storeRight hs hp).bind fun _ _ _ => (tie_rbnodeSwapChild hp hs).bind fun _ _ _ => ?_
  refine (tie_rbnodeFlags hx).bind fun _ _ hf => (tie_setLink hx hs (hf.and _)).bind fun _ _ _ => ?_
  refine (tie_whenSet hy.alike (tie_reflag hy hp hy fun _ => id)).bind fun _ _ _ => ?_
  refine (tie_rbnodeFlags hp).bind fun _ _ hf => (tie_setLink hs hg hf).bind fun _ _ _ => ?_
  refine (tie_rbnodeFlags hp).bind fun _ _ hf => (tie_setLink hp hs (hf.and _)).bind fun _ _ _ => ?_
  exact (tie_rbnodePushRoot hs ht).bind fun _ _ _ => .pure rfl

theorem tie_unsetOrBlack (hx : M.Same x x') : M.Tie Eq (unsetOrBlack x) (unsetOrBlack x') :=
  .ite (by rw [hx.alike.isNone_eq]) (fun _ => .pure rfl) fun _ => tie_rbnodeIsBlack hx

theorem tie_blackLeft (hp : M.Same p p') (hs : M.Same s s') :
    M.Tie Eq (rebalanceBlackLeft p s) (rebalanceBlackLeft p' s') := by
  refine (tie_loadRight hs).bind fun _ _ hx => (tie_unsetOrBlack hx).bind fun _ _ hb => ?_
  refine .ite (by rw [hb]) (fun _ => ?_) fun _ => tie_outerLeft hp hs hx
  refine (tie_loadLeft hs).bind fun _ _ hy => (tie_unsetOrBlack hy).bind fun _ _ hb => ?_
  refine .ite (by rw [hb]) (fun _ => tie_flip hp hs) fun _ => ?_
  exact (tie_innerLeft hp hs hy).bind fun _ _ _ => tie_outerLeft hp hy hs

theorem tie_blackRight (hp : M.Same p p') (hs : M.Same s s') :
    M.Tie Eq (rebalanceBlackRight p s) (rebalanceBlackRight p' s') := by
  refine (tie_loadLeft hs).bind fun _ _ hx => (tie_unsetOrBlack hx).bind fun _ _ hb => ?_
  refine .ite (by rw [hb]) (fun _ => ?_) fun _ => tie_outerRight hp hs hx
  refine (tie_loadRight hs).bind fun _ _ hy => (tie_unsetOrBlack hy).bind fun _ _ hb => ?_
  refine .ite (by rw [hb]) (fun _ => tie_flip hp hs) fun _ => ?_
  exact (tie_innerRight hp hs hy).bind fun _ _ _ => tie_outerRight hp hy hs

theorem tie_rebalanceTerminal (hp : M.Same p p') (hx : M.Same x x') :
    M.Tie Eq (rbnodeRebalanceTerminal p x) (rbnodeRebalanceTerminal p' x') := by
  refine (tie_loadLeft hp).bind fun _ _ hl => .ite (hx.eq_iff hl).symm (fun _ => ?_) fun _ => ?_
  · refine (tie_loadRight hp).bind fun s s' hs => ?_
    refine Together.bind (Q := M.Same) ?_ fun _ _ hs => tie_blackLeft hp hs
    exact (tie_rbnodeIsRed hs).bind fun _ _ hb => .ite (by rw [hb]) (fun _ => tie_redLeft hp hs)
      fun _ => .pure hs
  · refine (tie_loadLeft hp).bind fun s s' hs => ?_
    refine Together.bind (Q := M.Same) ?_ fun _ _ hs => tie_blackRight hp hs
    exact (tie_rbnodeIsRed hs).bind fun _ _ hb => .ite (by rw [hb]) (fun _ => tie_redRight hp hs)
      fun _ => .pure hs

theorem tie_setAndRed (hx : M.Same x x') : M.Tie Eq (setAndRed x) (setAndRed x') :=
  .ite (by rw [hx.alike.isSome_eq]) (fun _ => tie_rbnodeIsRed hx) fun _ => .pure rfl

theorem tie_anyRed (hs : M.Same s s') (hx : M.Same x x') (hy : M.Same y y') :
    M.Tie Eq (anyRed s x y) (anyRed s' x' y') := by
  refine (tie_rbnodeIsRed hs).bind fun _ _ hb => .ite (by rw [hb]) (fun _ => .pure rfl) fun _ => ?_
  exact (tie_setAndRed hx).bind fun _ _ hb => .ite (by rw [hb]) (fun _ => .pure rfl)
    fun _ => tie_setAndRed hy

theorem tie_rebalancePath (turns : ℕ) (hp : M.Same p p') (hx : M.Same x x') :
    M.Tie M.SameTwo (rbnodeRebalancePath turns p x) (rbnodeRebalancePath turns p' x') := by
  induction turns generalizing p p' x x' with
  | zero => exact tie_crash .endless
  | succ turns ih =>
    refine .ite (by rw [hp.alike.isNone_eq]) (fun _ => .pure ⟨same_none, hx⟩) fun _ => ?_
    refine (tie_otherChild hx hp).bind fun s s' hs => (tie_loadLeft hs).bind fun _ _ hl => ?_
    refine (tie_loadRight hs).bind fun _ _ hr => (tie_anyRed hs hl hr).bind fun _ _ hb => ?_
    refine .ite (by rw [hb]) (fun _ => .pure ⟨hp, hx⟩) fun _ => ?_
    refine (tie_rbnodeFlags hs).bind fun _ _ hf =>
      (tie_setLink hs hp hf.setRed).bind fun _ _ _ => ?_
    refine (tie_rbnodeIsRed hp).bind fun _ _ hb => .ite (by rw [hb]) (fun _ => ?_) fun _ => ?_
    · refine (tie_rbnodeParent hp).bind fun _ _ hg => (tie_rbnodeFlags hp).bind fun _ _ hf => ?_
      exact (tie_setLink hp hg (hf.and _)).bind fun _ _ _ => .pure ⟨same_none, hx⟩
    · exact (tie_countTurn _).bind fun _ _ _ => (tie_rbnodeParent hp).bind fun _ _ hg => ih hg hp

theorem tie_rebalance (hn : M.Same n n') : M.Tie Eq (rbnodeRebalance n) (rbnodeRebalance n') :=
  (tie_rebalancePath _ hn same_none).bind fun _ _ h =>
    tie_whenSet h.1.alike (tie_rebalanceTerminal h.1 h.2)

theorem tie_unlinkLeaf (hn : M.Same n n') : M.Tie Eq (unlinkLeaf n) (unlinkLeaf n') := by
  refine (tie_rbnodePopRoot hn).bind fun _ _ ht => ?_
  refine (tie_rbnodeSwapChild hn same_none).bind fun _ _ _ => ?_
  refine (tie_rbnodePushRoot same_none ht).bind fun _ _ _ => ?_
  refine (tie_rbnodeIsBlack hn).bind fun _ _ hb => .ite (by rw [hb]) (fun _ => ?_)
    fun _ => .pure rfl
  exact (tie_rbnodeParent hn).bind fun _ _ hp => tie_rebalance hp

theorem tie_unlinkRightOnly (hn : M.Same n n') :
    M.Tie Eq (unlinkRightOnly n) (unlinkRightOnly n') := by
  refine (tie_rbnodePopRoot hn).bind fun _ _ ht => (tie_loadRight hn).bind fun _ _ h₁ => ?_
  refine (tie_rbnodeSwapChild hn h₁).bind fun _ _ _ => (tie_loadRight hn).bind fun _ _ h₂ => ?_
  refine (tie_rbnodeParent hn).bind fun _ _ hp => (tie_loadRight hn).bind fun _ _ h₃ => ?_
  refine (tie_rbnodeFlags h₃).bind fun _ _ hf => (tie_setLink h₂ hp (hf.and _)).bind fun _ _ _ => ?_
  exact (tie_loadRight hn).bind fun _ _ h₄ => (tie_rbnodePushRoot h₄ ht).bind fun _ _ _ => .pure rfl

theorem tie_unlinkLeftOnly (hn : M.Same n n') :
    M.Tie Eq (unlinkLeftOnly n) (unlinkLeftOnly n') := by
  refine (tie_rbnodePopRoot hn).bind fun _ _ ht => (tie_loadLeft hn).bind fun _ _ h₁ => ?_
  refine (tie_rbnodeSwapChild hn h₁).bind fun _ _ _ => (tie_loadLeft hn).bind fun _ _ h₂ => ?_
  refine (tie_rbnodeParent hn).bind fun _ _ hp => (tie_loadLeft hn).bind fun _ _ h₃ => ?_
  refine (tie_rbnodeFlags h₃).bind fun _ _ hf => (tie_setLink h₂ hp (hf.and _)).bind fun _ _ _ => ?_
  exact (tie_loadLeft hn).bind fun _ _ h₄ => (tie_rbnodePushRoot h₄ ht).bind fun _ _ _ => .pure rfl

/-- What the search for the successor returns. -/
def SameThree (M : Matching w) (u v : Pointer w × Pointer w × Pointer w) : Prop :=
  M.Same u.1 v.1 ∧ M.SameTwo u.2 v.2

theorem tie_unlinkSuccessor (hn : M.Same n n') :
    M.Tie M.SameThree (unlinkSuccessor n) (unlinkSuccessor n') := by
  refine (tie_loadRight hn).bind fun s s' hs => (tie_loadLeft hs).bind fun _ _ hl => ?_
  refine .ite (by rw [hl.alike.isNone_eq]) (fun _ => ?_) fun _ => ?_
  · exact (tie_loadRight hs).bind fun _ _ hc => .pure ⟨hs, hs, hc⟩
  · refine (tie_rbnodeLeftmost hs).bind fun s s' hs => (tie_rbnodeParent hs).bind fun _ _ hp => ?_
    refine (tie_loadRight hs).bind fun _ _ hc => (tie_storeLeft hp hc).bind fun _ _ _ => ?_
    refine (tie_loadRight hn).bind fun _ _ h₁ => (tie_storeRight hs h₁).bind fun _ _ _ => ?_
    refine (tie_loadRight hn).bind fun _ _ h₂ => (tie_loadRight hn).bind fun _ _ h₃ => ?_
    exact (tie_rbnodeFlags h₃).bind fun _ _ hf => (tie_setLink h₂ hs hf).bind fun _ _ _ =>
      .pure ⟨hs, hp, hc⟩

theorem tie_unlinkChild (hs : M.Same s s') (hp : M.Same p p') (hx : M.Same x x') :
    M.Tie M.Same (unlinkChild s p x) (unlinkChild s' p' x') := by
  refine .ite (by rw [hx.alike.isSome_eq]) (fun _ => ?_) fun _ => ?_
  · exact (tie_rbnodeFlags hx).bind fun _ _ hf => (tie_setLink hx hp (hf.and _)).bind fun _ _ _ =>
      .pure same_none
  · exact (tie_rbnodeIsBlack hs).bind fun _ _ hb => .ite (by rw [hb]) (fun _ => .pure hp)
      fun _ => .pure same_none

theorem tie_unlinkInherit (hn : M.Same n n') (hs : M.Same s s') :
    M.Tie Eq (unlinkInherit n s) (unlinkInherit n' s') := by
  refine (tie_rbnodeIsRed hn).bind fun _ _ hb => .ite (by rw [hb]) (fun _ => ?_) fun _ => ?_
  · exact (tie_rbnodeParent hn).bind fun _ _ hp => (tie_rbnodeFlags hs).bind fun _ _ hf =>
      tie_setLink hs hp hf.setRed
  · exact (tie_rbnodeParent hn).bind fun _ _ hp => (tie_rbnodeFlags hs).bind fun _ _ hf =>
      tie_setLink hs hp (hf.and _)

theorem tie_unlinkReplace (hn : M.Same n n') (ht : M.Alike t t') (hs : M.Same s s')
    (hp : M.Same p p') (hx : M.Same x x') :
    M.Tie Eq (unlinkReplace n t s p x) (unlinkReplace n' t' s' p' x') := by
  refine (tie_loadLeft hn).bind fun _ _ h₁ => (tie_storeLeft hs h₁).bind fun _ _ _ => ?_
  refine (tie_loadLeft hn).bind fun _ _ h₂ => (tie_loadLeft hn).bind fun _ _ h₃ => ?_
  refine (tie_rbnodeFlags h₃).bind fun _ _ hf => (tie_setLink h₂ hs hf).bind fun _ _ _ => ?_
  refine (tie_unlinkChild hs hp hx).bind fun _ _ hnext =>
    (tie_unlinkInherit hn hs).bind fun _ _ _ => ?_
  refine (tie_rbnodeSwapChild hn hs).bind fun _ _ _ =>
    (tie_rbnodePushRoot hs ht).bind fun _ _ _ => ?_
  exact tie_whenSet hnext.alike (tie_rebalance hnext)

theorem tie_hasNoChild (hn : M.Same n n') : M.Tie Eq (hasNoChild n) (hasNoChild n') :=
  (tie_loadLeft hn).bind fun _ _ hl => .ite (by rw [hl.alike.isNone_eq])
    (fun _ => (tie_loadRight hn).bind fun _ _ hr => .pure hr.alike.isNone_eq.symm)
    fun _ => .pure rfl

theorem tie_hasRightOnly (hn : M.Same n n') : M.Tie Eq (hasRightOnly n) (hasRightOnly n') :=
  (tie_loadLeft hn).bind fun _ _ hl => .ite (by rw [hl.alike.isNone_eq])
    (fun _ => (tie_loadRight hn).bind fun _ _ hr => .pure hr.alike.isSome_eq.symm)
    fun _ => .pure rfl

theorem tie_hasLeftOnly (hn : M.Same n n') : M.Tie Eq (hasLeftOnly n) (hasLeftOnly n') :=
  (tie_loadLeft hn).bind fun _ _ hl => .ite (by rw [hl.alike.isSome_eq])
    (fun _ => (tie_loadRight hn).bind fun _ _ hr => .pure hr.alike.isNone_eq.symm)
    fun _ => .pure rfl

theorem tie_unlinkTwo (hn : M.Same n n') : M.Tie Eq (unlinkTwo n) (unlinkTwo n') := by
  refine (tie_rbnodePopRoot hn).bind fun _ _ ht => (tie_unlinkSuccessor hn).bind fun _ _ hs => ?_
  exact tie_unlinkReplace hn ht hs.1 hs.2.1 hs.2.2

theorem tie_unlinkStale (hn : M.Same n n') :
    M.Tie Eq (rbnodeUnlinkStale n) (rbnodeUnlinkStale n') := by
  refine (tie_assert hn.alike.isSome_eq).bind fun _ _ _ =>
    (tie_rbnodeIsLinked hn).bind fun _ _ h => ?_
  refine (tie_assert h.symm).bind fun _ _ _ => (tie_hasNoChild hn).bind fun _ _ hb => ?_
  refine .ite (by rw [hb]) (fun _ => tie_unlinkLeaf hn) fun _ => ?_
  refine (tie_hasRightOnly hn).bind fun _ _ hb => .ite (by rw [hb])
    (fun _ => tie_unlinkRightOnly hn) fun _ => ?_
  exact (tie_hasLeftOnly hn).bind fun _ _ hb => .ite (by rw [hb])
    (fun _ => tie_unlinkLeftOnly hn) fun _ => tie_unlinkTwo hn

theorem tie_unlink (hn : M.Same n n') : M.Tie Eq (rbnodeUnlink n) (rbnodeUnlink n') :=
  (tie_rbnodeIsLinked hn).bind fun _ _ hb => .ite (by rw [hb])
    (fun _ => (tie_unlinkStale hn).bind fun _ _ _ => tie_rbnodeInit hn) fun _ => .pure rfl

end Removal

section Slots

variable {l : Slot w} {a : Address w}

theorem tie_storeSlot (hl : l.object ∈ M.objects) (hn : M.Same n n') :
    M.Tie Eq (storeSlot (some l) n) (storeSlot (some (l.rename M.rename)) n') :=
  tie_store hl hn

theorem tie_storeOrPushRoot (ht : p = none → M.Alike t t') (hp : M.Same p p')
    (hl : l.object ∈ M.objects) (hn : M.Same n n') :
    M.Tie Eq (storeOrPushRoot t p (some l) n)
      (storeOrPushRoot t' p' (some (l.rename M.rename)) n') :=
  .ite (by rw [hp.alike.isSome_eq]) (fun _ => tie_storeSlot hl hn) fun hnone =>
    (tie_rbnodePushRoot hn (ht (by simpa using hnone))).bind fun _ _ _ => .pure rfl

theorem isChildSlot_rename (hp : M.Same p p') :
    isChildSlot p' (some (l.rename M.rename)) = isChildSlot p (some l) := by
  have hinj := fun b => (Slot.rename_injective M.injective).eq_iff (a := l) (b := b)
  obtain ⟨rfl, -⟩ := hp
  cases p with
  | none => rfl
  | some a =>
    have h₁ : l.rename M.rename = .left (M.rename a) ↔ l = .left a := hinj (.left a)
    have h₂ : l.rename M.rename = .right (M.rename a) ↔ l = .right a := hinj (.right a)
    simp only [isChildSlot, Option.map_some, Option.any_some, Option.some.injEq, h₁, h₂]

/-- An assertion, whatever the memories hold. -/
theorem lockstep_assert {h h' : Heap w} {b b' : Bool} {k k' : Unit → Prog w Unit} (hb : b' = b)
    (hk : Lockstep (machine packed) (machine packed) M.Pair (M.Joins [] []) Eq
      (k ()) h (k' ()) h') :
    Lockstep (machine packed) (machine packed) M.Pair (M.Joins [] []) Eq
      (cAssert b >>= k) h (cAssert b' >>= k') h' := by
  subst hb
  cases b' with
  | false => exact .fail ⟨rfl, trivial⟩ rfl rfl
  | true => exact hk

/-- All fields of a node set anew. -/
theorem Joins.anew {ts : List (Address w)} {h h' : Heap w} {x y : Word w}
    (hj : M.Joins [a] ts h h') (hw : M.Words x y) :
    M.Joins [] ts (((h.setLink a x).store (.left a) none).store (.right a) none)
      (((h'.setLink (M.rename a) y).store (.left (M.rename a)) none).store
        (.right (M.rename a)) none) := by
  have hj' := ((hj.setLink (a := a) hw).store (s := .left a) same_none).store (s := .right a)
    same_none
  refine ⟨fun b hb _ => ?_, hj'.tree⟩
  by_cases hba : b = a
  · subst hba
    exact ⟨by simpa using same_none, by simpa using same_none, by simpa using hw⟩
  · exact hj'.node b hb (by simpa using hba)

/-- A node that is set anew need not correspond before. -/
theorem lockstep_fresh {h h' : Heap w} (ha : a ∈ M.nodes)
    (hp : M.Same p p') {f : Word w} (hf : IsFlags f) {k q : Prog w Unit} (hk : M.Tie Eq k q)
    (hj : M.Joins [a] [] h h') :
    Lockstep (machine packed) (machine packed) M.Pair (M.Joins [] []) Eq
      (rbnodeSetParentAndFlags (some a) p f >>= fun _ => storeLeft (some a) none >>= fun _ =>
        storeRight (some a) none >>= fun _ => k) h
      (rbnodeSetParentAndFlags (some (M.rename a)) p' f >>= fun _ =>
        storeLeft (some (M.rename a)) none >>= fun _ =>
          storeRight (some (M.rename a)) none >>= fun _ => q) h' := by
  obtain ⟨rfl, hp'⟩ := id hp
  refine .step ⟨rfl, mem_objects ha, fun b hb => mem_objects (hp' b hb)⟩ rfl rfl <|
    .step ⟨rfl, mem_objects ha, nofun⟩ rfl rfl <| .step ⟨rfl, mem_objects ha, nofun⟩ rfl rfl <|
    hk _ _ (hj.anew (words_or hp.alike hf fun _ => hp))

end Slots

end Matching

end CRbtree
