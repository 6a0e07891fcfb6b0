import CRbtree.LeafCounts
import CRbtree.Reading
import CRbtree.Traversing

set_option autoImplicit false

/-!
The check of test-basic.c: one walk through a tree in order, which counts the black nodes
on the path as it goes up and down.
-/

namespace CRbtree
open RedBlack TaggedPointers PointerGraphs Programs

variable {w : ℕ}

/-- `o < n` -/
def Precedes (o n : Pointer w) : Prop := o.word < n.word

instance (o n : Pointer w) : Decidable (Precedes o n) := inferInstanceAs (Decidable (_ < _))

instance : Trans (Precedes (w := w)) Precedes Precedes := ⟨fun h₁ h₂ => BitVec.lt_trans h₁ h₂⟩

/-- `if (c_rbnode_is_black(n)) ++i_black` -/
def countUp (n : Pointer w) (iBlack : BitVec 32) : Prog w (BitVec 32) := do
  if ← rbnodeIsBlack n then pure (iBlack + 1) else pure iBlack

def countDown (n : Pointer w) (iBlack : BitVec 32) : Prog w (BitVec 32) := do
  if ← rbnodeIsBlack n then pure (iBlack - 1) else pure iBlack

/-- `n && n->left` -/
def hasLeft (n : Pointer w) : Prog w Bool :=
  if n.isSome then do pure (← loadLeft n).isSome else pure false

/-- The first loop of validate(), which does not count the node it ends at. -/
def validateFirst : ℕ → Pointer w → BitVec 32 → Prog w (Pointer w × BitVec 32)
  | turns, n, iBlack => do
    if ← hasLeft n then
      match turns with
      | 0 => crash .endless
      | turns + 1 => do
        let iBlack ← countUp n iBlack
        validateFirst turns (← loadLeft n) iBlack
    else
      pure (n, iBlack)

/-- `while (n->left)` -/
def validateDown : ℕ → Pointer w → BitVec 32 → Prog w (Pointer w × BitVec 32)
  | turns, n, iBlack => do
    if (← loadLeft n).isSome then
      match turns with
      | 0 => crash .endless
      | turns + 1 => do
        let n ← loadLeft n
        let iBlack ← countUp n iBlack
        validateDown turns n iBlack
    else
      pure (n, iBlack)

/-- `while ((p = c_rbnode_parent(n)) && n == p->right)`, and what follows it. -/
def validateUp : ℕ → Pointer w → BitVec 32 → Prog w (Pointer w × BitVec 32)
  | turns, n, iBlack => do
    let p ← rbnodeParent n
    if ← isRightOf n p then
      match turns with
      | 0 => crash .endless
      | turns + 1 => do
        let iBlack ← countDown (← loadRight p) iBlack
        validateUp turns p iBlack
    else
      if p.isSome then do
        let iBlack ← countDown (← loadLeft p) iBlack
        pure (p, iBlack)
      else
        pure (p, iBlack)

def validateNext (n : Pointer w) (iBlack : BitVec 32) : Prog w (Pointer w × BitVec 32) := do
  if (← loadRight n).isSome then do
    let n ← loadRight n
    let iBlack ← countUp n iBlack
    validateDown (2 ^ w) n iBlack
  else
    validateUp (2 ^ w) n iBlack

/-- `!x || c_rbnode_parent(x) == n` -/
def unsetOrChildOf (n x : Pointer w) : Prog w Bool :=
  if x.isNone then pure true else do pure ((← rbnodeParent x) = n)

/-- verify 2) -/
def validateRoot (n : Pointer w) : Prog w Unit := do
  if (← rbnodeParent n).isNone then
    cAssert (← rbnodeIsBlack n)

/-- verify 4), or 1) -/
def validateColors (n : Pointer w) : Prog w Unit := do
  if ← rbnodeIsRed n then
    cAssert (← unsetOrBlack (← loadLeft n))
    cAssert (← unsetOrBlack (← loadRight n))
  else
    cAssert (← rbnodeIsBlack n)

/-- verify 5) -/
def validateLeaf (nBlack : BitVec 32) (n : Pointer w) (iBlack : BitVec 32) : Prog w Unit := do
  if (← loadLeft n).isNone then
    if (← loadRight n).isNone then
      cAssert (iBlack = nBlack)

/-- The assertions on the node `n`, when the node before it is `o`. -/
def validateNode (nBlack : BitVec 32) (o n : Pointer w) (iBlack : BitVec 32) : Prog w Unit := do
  cAssert (Precedes o n)
  cAssert (← unsetOrChildOf n (← loadRight n))
  cAssert (← unsetOrChildOf n (← loadLeft n))
  validateRoot n
  validateColors n
  validateLeaf nBlack n iBlack

/-- The second loop of validate(), whose body may run so many times. -/
def validateLoop (nBlack : BitVec 32) :
    ℕ → (n o : Pointer w) → BitVec 32 → ℕ → Prog w ℕ
  | turns, n, o, iBlack, count =>
    if n.isSome then
      match turns with
      | 0 => crash .endless
      | turns + 1 => do
        validateNode nBlack o n iBlack
        let (next, iBlack) ← validateNext n iBlack
        validateLoop nBlack turns next n iBlack (count + 1)
    else
      pure count

def validate (t : Pointer w) : Prog w ℕ := do
  cAssert t.isSome
  cAssert (← unsetOrBlack (← loadRoot t))
  let (n, iBlack) ← validateFirst (2 ^ w) (← loadRoot t) 0
  validateLoop iBlack (2 ^ w) n none iBlack 0

section Inspects

variable {n o p t : Pointer w} {i k : BitVec 32}

theorem readOnly_countUp : ReadOnly (countUp n i) :=
  readOnly_isBlack.bind fun _ => .ite .pure .pure

theorem readOnly_countDown : ReadOnly (countDown n i) :=
  readOnly_isBlack.bind fun _ => .ite .pure .pure

theorem readOnly_hasLeft : ReadOnly (hasLeft n) :=
  .ite (readOnly_loadLeft.bind fun _ => .pure) .pure

theorem readOnly_validateFirst (turns : ℕ) : ReadOnly (validateFirst turns n i) := by
  induction turns generalizing n i with
  | zero => exact readOnly_hasLeft.bind fun _ => .ite (readOnly_crash _) .pure
  | succ turns ih =>
    exact readOnly_hasLeft.bind fun _ => .ite
      (readOnly_countUp.bind fun _ => readOnly_loadLeft.bind fun _ => ih) .pure

theorem readOnly_validateDown (turns : ℕ) : ReadOnly (validateDown turns n i) := by
  induction turns generalizing n i with
  | zero => exact readOnly_loadLeft.bind fun _ => .ite (readOnly_crash _) .pure
  | succ turns ih =>
    exact readOnly_loadLeft.bind fun _ => .ite
      (readOnly_loadLeft.bind fun _ => readOnly_countUp.bind fun _ => ih) .pure

theorem readOnly_validateUp (turns : ℕ) : ReadOnly (validateUp turns n i) := by
  induction turns generalizing n i with
  | zero =>
    exact readOnly_parent.bind fun _ => readOnly_isRightOf.bind fun _ => .ite (readOnly_crash _) <|
      .ite (readOnly_loadLeft.bind fun _ => readOnly_countDown.bind fun _ => .pure) .pure
  | succ turns ih =>
    exact readOnly_parent.bind fun _ => readOnly_isRightOf.bind fun _ => .ite
      (readOnly_loadRight.bind fun _ => readOnly_countDown.bind fun _ => ih) <|
      .ite (readOnly_loadLeft.bind fun _ => readOnly_countDown.bind fun _ => .pure) .pure

theorem readOnly_validateNext : ReadOnly (validateNext n i) :=
  readOnly_loadRight.bind fun _ => .ite
    (readOnly_loadRight.bind fun _ => readOnly_countUp.bind fun _ => readOnly_validateDown _)
    (readOnly_validateUp _)

theorem readOnly_unsetOrChildOf : ReadOnly (unsetOrChildOf n p) :=
  .ite .pure (readOnly_parent.bind fun _ => .pure)

theorem readOnly_validateColors : ReadOnly (validateColors n) :=
  readOnly_isRed.bind fun _ => .ite
    (readOnly_loadLeft.bind fun _ => readOnly_unsetOrBlack.bind fun _ =>
      readOnly_assert.bind fun _ => readOnly_loadRight.bind fun _ =>
      readOnly_unsetOrBlack.bind fun _ => readOnly_assert)
    (readOnly_isBlack.bind fun _ => readOnly_assert)

theorem readOnly_validateNode : ReadOnly (validateNode k o n i) :=
  readOnly_assert.bind fun _ => readOnly_loadRight.bind fun _ =>
    readOnly_unsetOrChildOf.bind fun _ => readOnly_assert.bind fun _ =>
    readOnly_loadLeft.bind fun _ => readOnly_unsetOrChildOf.bind fun _ =>
    readOnly_assert.bind fun _ =>
    Inspects.bind (readOnly_parent.bind fun _ => .ite (readOnly_isBlack.bind fun _ =>
      readOnly_assert) .pure) fun _ =>
    readOnly_validateColors.bind fun _ => readOnly_loadLeft.bind fun _ => .ite
      (readOnly_loadRight.bind fun _ => .ite readOnly_assert .pure) .pure

theorem readOnly_validateLoop (turns count : ℕ) :
    ReadOnly (validateLoop k turns n o i count) := by
  induction turns generalizing n o i count with
  | zero => exact .ite (readOnly_crash _) .pure
  | succ turns ih =>
    exact .ite (readOnly_validateNode.bind fun _ => readOnly_validateNext.bind fun _ => ih _) .pure

theorem readOnly_validate : ReadOnly (validate t) :=
  readOnly_assert.bind fun _ => readOnly_loadRoot.bind fun _ =>
    readOnly_unsetOrBlack.bind fun _ => readOnly_assert.bind fun _ =>
    readOnly_loadRoot.bind fun _ => (readOnly_validateFirst _).bind fun _ =>
    readOnly_validateLoop _ _

end Inspects

section Positions

/-- The number of black nodes on the left spine, without the last node of it. -/
def spineCount : ColorTree (Address w) → ℕ
  | .nil | .node _ .nil _ _ => 0
  | .node c l _ _ => spineCount l + c.weight

/-- Where the way up from the hole ends, and the count there. The hole holds a node of the
colour. -/
def climbed : Context (Address w) → Color → BitVec 32 → Pointer w × BitVec 32
  | [], _, i => (none, i)
  | f :: ctx, c, i =>
    match f.side with
    | .left => (some f.label, i - c.weight)
    | .right => climbed ctx f.color (i - c.weight)

/-- Every node comes after the one before it in memory, and the first one after `o`. -/
def Rises (o : Pointer w) (as : List (Address w)) : Prop := (o :: as.map some).IsChain Precedes

instance (o : Pointer w) (as : List (Address w)) : Decidable (Rises o as) :=
  inferInstanceAs (Decidable (List.IsChain _ _))

theorem rises_append {o : Pointer w} {as bs : List (Address w)} {a : Address w} :
    Rises o (as ++ a :: bs) ↔
      Rises o as ∧ Precedes (as.getLast?.or o) (some a) ∧ Rises (some a) bs := by
  have hlast : (o :: as.map some).getLast? = some (as.getLast?.or o) := by
    rw [List.getLast?_cons, List.getLast?_map]
    cases as.getLast? <;> rfl
  unfold Rises
  rw [List.map_append, List.map_cons, ← List.cons_append, List.isChain_append, hlast]
  refine and_congr_right fun _ => and_comm.trans (and_congr_left fun _ => ?_)
  simp

theorem rises_none {as : List (Address w)} :
    Rises none as ↔ as.Pairwise fun a b => a.word < b.word := by
  unfold Rises
  rw [List.isChain_iff_pairwise, List.pairwise_cons, List.pairwise_map]
  refine and_iff_right fun q hq => ?_
  obtain ⟨a, -, rfl⟩ := List.mem_map.mp hq
  exact BitVec.lt_def.mpr (BitVec.toNat_pos_of_ne_zero a.nonnull)

/-- The walk finds nothing wrong below a node with the count `b` whose subtree is `T`. -/
def Passes (nBlack b : BitVec 32) (o : Pointer w) (T : ColorTree (Address w)) : Prop :=
  Rises o T.inorder ∧ T.NoRedRed ∧ ∀ k ∈ leafCounts T, b + (k : BitVec 32) = nBlack

instance (nBlack b : BitVec 32) (o : Pointer w) (T : ColorTree (Address w)) :
    Decidable (Passes nBlack b o T) := inferInstanceAs (Decidable (_ ∧ _ ∧ _))

theorem forall_leafCounts {c : Color} {l r : ColorTree (Address w)} {a : Address w}
    {b nBlack : BitVec 32} :
    (∀ k ∈ leafCounts (.node c l a r), b + (k : BitVec 32) = nBlack) ↔
      (∀ k ∈ leafCounts l, b + c.weight + (k : BitVec 32) = nBlack) ∧
      (l = .nil → r = .nil → b + c.weight = nBlack) ∧
      ∀ k ∈ leafCounts r, b + c.weight + (k : BitVec 32) = nBlack := by
  by_cases hleaf : l = .nil ∧ r = .nil
  · obtain ⟨rfl, rfl⟩ := hleaf
    simp [leafCounts]
  · have hcount : ∀ k : ℕ, b + ((k + c.weight : ℕ) : BitVec 32) =
        b + c.weight + (k : BitVec 32) := by
      intro k
      rw [Nat.cast_add, add_comm (k : BitVec 32), add_assoc]
    rw [leafCounts_node hleaf, List.forall_mem_map, List.forall_mem_append]
    simp only [hcount]
    refine and_congr_right fun _ => (and_iff_right fun hl hr => absurd ⟨hl, hr⟩ hleaf).symm

theorem count_node (c : Color) (l r : ColorTree (Address w)) (a : Address w) (b : BitVec 32) :
    b + ((ColorTree.node c l a r).blackHeight : BitVec 32) = b + c.weight + l.blackHeight := by
  rw [ColorTree.blackHeight, Nat.cast_add, add_comm (l.blackHeight : BitVec 32), add_assoc]

theorem last_node (c : Color) (l r : ColorTree (Address w)) (a : Address w) (o : Pointer w) :
    (ColorTree.node c l a r).inorder.getLast?.or o = r.inorder.getLast?.or (some a) := by
  rw [ColorTree.inorder, List.getLast?_append, List.getLast?_cons]
  cases r.inorder.getLast? <;> rfl

theorem passes_nil {o : Pointer w} {b nBlack : BitVec 32} : Passes nBlack b o .nil :=
  ⟨.singleton _, trivial, by simp [leafCounts]⟩

theorem passes_node {c : Color} {l r : ColorTree (Address w)} {a : Address w} {o : Pointer w}
    {b nBlack : BitVec 32} :
    Passes nBlack b o (.node c l a r) ↔ Passes nBlack (b + c.weight) o l ∧
      (Precedes (l.inorder.getLast?.or o) (some a) ∧
        (c = .red → l.isRed = false ∧ r.isRed = false) ∧
        (l = .nil → r = .nil → b + c.weight = nBlack)) ∧
      Passes nBlack (b + c.weight) (some a) r := by
  unfold Passes
  rw [ColorTree.inorder, rises_append, ColorTree.NoRedRed, forall_leafCounts]
  tauto

end Positions

section Evaluation

variable {m : FieldHeap w} {h : Heap w} {t a : Address w} {s : Slot w} {c : Color} {d : Side}
  {l r T : ColorTree (Address w)} {ctx : Context (Address w)} {i nBlack : BitVec 32} {turns : ℕ}
  (hm : Refines m h)
include hm

theorem value_unsetOrChildOf (hT : TreeAt m (.child d a) T) :
    value h (unsetOrChildOf (some a) T.root?) = .ok true := by
  cases T with
  | nil => rfl
  | node c l b r =>
    refine (value_bind (value_parent hm hT.2.1)).trans (congrArg Except.ok ?_)
    simp

theorem value_countUp (hk : m.link a = linkAt s c) :
    value h (countUp (some a) i) = .ok (i + c.weight) := by
  refine (value_bind (value_isBlack hm hk)).trans ?_
  cases c with
  | red => exact congrArg Except.ok (by simp [Color.weight])
  | black => rfl

theorem value_countDown (hk : m.link a = linkAt s c) :
    value h (countDown (some a) i) = .ok (i - c.weight) := by
  refine (value_bind (value_isBlack hm hk)).trans ?_
  cases c with
  | red => exact congrArg Except.ok (by simp [Color.weight])
  | black => rfl

theorem value_validateDown (hT : TreeAt m s (.node c l a r)) (hturns : l.height ≤ turns) :
    value h (validateDown turns (some a) i) =
      .ok ((ColorTree.node c l a r).extreme .left, i + l.blackHeight) := by
  induction l generalizing s c a r i turns with
  | nil =>
    have hl := value_loadLeft_treeAt hm hT.2.2.1
    have hval : value h (validateDown turns (some a) i) = .ok (some a, i) := by
      cases turns <;> exact value_bind hl
    simpa [ColorTree.extreme, ColorTree.blackHeight] using hval
  | node c' l' a' r' ihl _ =>
    obtain ⟨-, -, htl, -⟩ := hT
    have hl := value_loadLeft_treeAt hm htl
    simp only [ColorTree.height] at hturns
    obtain ⟨turns, rfl⟩ := Nat.exists_eq_add_one_of_ne_zero (show turns ≠ 0 by omega)
    have hrest := ihl htl (i := i + c'.weight) (show l'.height ≤ turns by omega)
    refine (value_bind hl).trans ((value_bind hl).trans ((value_bind
      (value_countUp hm htl.2.1)).trans (hrest.trans (congrArg Except.ok ?_))))
    rw [count_node]
    simp [ColorTree.extreme]

theorem value_validateFirst (hT : TreeAt m s T) (hturns : T.height ≤ turns) :
    value h (validateFirst turns T.root? i) =
      .ok (T.extreme .left, i + spineCount T) := by
  induction T generalizing s i turns with
  | nil =>
    have hval : value h (validateFirst turns none i) = .ok (none, i) := by cases turns <;> rfl
    simpa [ColorTree.extreme, ColorTree.root?, spineCount] using hval
  | node c l a r ihl _ =>
    obtain ⟨-, hk, htl, -⟩ := hT
    have hl := value_loadLeft_treeAt hm htl
    have hleft : value h (hasLeft (some a)) = .ok l.root?.isSome := value_bind hl
    cases l with
    | nil =>
      have hval : value h (validateFirst turns (some a) i) = .ok (some a, i) := by
        cases turns <;> exact value_bind hleft
      simpa [ColorTree.extreme, ColorTree.root?, spineCount] using hval
    | node c' l' a' r' =>
      rw [ColorTree.height] at hturns
      obtain ⟨turns, rfl⟩ := Nat.exists_eq_add_one_of_ne_zero (show turns ≠ 0 by omega)
      have hrest := ihl htl (i := i + c.weight)
        (show (ColorTree.node c' l' a' r').height ≤ turns by omega)
      refine (value_bind hleft).trans ((value_bind (value_countUp hm hk)).trans
        ((value_bind hl).trans (hrest.trans (congrArg Except.ok ?_))))
      rw [add_assoc, ← Nat.cast_add, add_comm c.weight]
      simp [ColorTree.extreme, spineCount]

theorem value_validateUp (hT : TreeAt m (.root t) (fill ctx (.node c l a r)))
    (hnd : (fill ctx (.node c l a r)).inorder.Nodup) (hturns : ctx.length ≤ turns) :
    value h (validateUp turns (some a) i) = .ok (climbed ctx c i) := by
  induction ctx generalizing c l a r i turns with
  | nil =>
    have hp := value_parent hm hT.2.1
    cases turns <;> exact value_bind hp
  | cons f ctx ih =>
    obtain ⟨d, c', p, u⟩ := f
    have hnode := (treeAt_fill.mp hT).1
    have hp := value_parent hm hnode.2.1
    have hload : h.load (.child d p) = some a := hm.1 ▸ hnode.1
    have hflip := (treeAt_wrap hT).load_flip_ne (nodup_wrap hnd).1 rfl
    rw [hole_cons, Slot.holder_child] at hp
    cases d with
    | left =>
      have hright : value h (isRightOf (some a) (some p)) = .ok false := by
        refine (value_bind value_loadRight).trans (congrArg Except.ok (decide_eq_false ?_))
        rw [← hm.1]
        exact fun heq => hflip heq.symm
      have hl : value h (loadLeft (some p)) = .ok (some a) := congrArg Except.ok hload
      have hdown := value_countDown (i := i) hm hnode.2.1
      cases turns <;> exact (value_bind hp).trans ((value_bind hright).trans
        ((value_bind hl).trans (value_bind hdown)))
    | right =>
      have hr : value h (loadRight (some p)) = .ok (some a) := congrArg Except.ok hload
      have hright : value h (isRightOf (some a) (some p)) = .ok true :=
        (value_bind hr).trans (congrArg Except.ok (decide_eq_true rfl))
      have hdown := value_countDown (i := i) hm hnode.2.1
      obtain ⟨turns, rfl⟩ := Nat.exists_eq_add_one_of_ne_zero
        (show turns ≠ 0 by simp at hturns; omega)
      refine (value_bind hp).trans ((value_bind hright).trans ((value_bind hr).trans
        ((value_bind hdown).trans ?_)))
      exact ih hT hnd (by simpa using hturns)

variable (hT : TreeAt m s (.node c l a r)) (hroot : s.holder = none → c = .black)
include hT

theorem value_validateColors : value h (validateColors (some a)) =
    check (c = .red → l.isRed = false ∧ r.isRed = false) := by
  obtain ⟨-, hk, htl, htr⟩ := hT
  refine (value_bind (value_isRed hm hk)).trans ?_
  cases c with
  | black =>
    refine (value_bind (value_isBlack hm hk)).trans ((value_assert _).trans ?_)
    exact check_congr (by simp)
  | red =>
    refine (value_bind (value_loadLeft_treeAt hm htl)).trans ((value_bind
      (value_unsetOrBlack hm htl)).trans ?_)
    have hright : value h (do cAssert (← unsetOrBlack (← loadRight (some a)))) =
        check (decide (r.isRed = false)) :=
      (value_bind (value_loadRight_treeAt hm htr)).trans ((value_bind
        (value_unsetOrBlack hm htr)).trans (value_assert _))
    rw [value_check (value_assert _), hright, check_seq]
    exact check_congr (by simp)

theorem value_validateLeaf : value h (validateLeaf nBlack (some a) i) =
    check (l = .nil → r = .nil → i = nBlack) := by
  obtain ⟨-, -, htl, htr⟩ := hT
  refine (value_bind (value_loadLeft_treeAt hm htl)).trans ?_
  cases l with
  | node c' l' a' r' => exact (check_true (by simp)).symm
  | nil =>
    refine (value_bind (value_loadRight_treeAt hm htr)).trans ?_
    cases r with
    | node c' l' a' r' => exact (check_true (by simp)).symm
    | nil =>
      refine (value_assert _).trans (check_congr ?_)
      simp

include hroot

theorem value_validateRoot : value h (validateRoot (some a)) = .ok () := by
  refine (value_bind (value_parent hm hT.2.1)).trans ?_
  by_cases hs : s.holder = none
  · rw [hs]
    refine (value_bind (value_isBlack hm hT.2.1)).trans ((value_assert _).trans (check_true ?_))
    simpa using hroot hs
  · obtain ⟨p, hp⟩ := Option.ne_none_iff_exists'.mp hs
    rw [hp]
    rfl

theorem value_validateNode (o : Pointer w) : value h (validateNode nBlack o (some a) i) =
    check (Precedes o (some a) ∧ (c = .red → l.isRed = false ∧ r.isRed = false) ∧
      (l = .nil → r = .nil → i = nBlack)) := by
  have hrest : value h (do
      cAssert (← unsetOrChildOf (some a) (← loadRight (some a)))
      cAssert (← unsetOrChildOf (some a) (← loadLeft (some a)))
      validateRoot (some a)
      validateColors (some a)
      validateLeaf nBlack (some a) i) =
      check (c = .red → l.isRed = false ∧ r.isRed = false) >>= fun _ =>
        check (l = .nil → r = .nil → i = nBlack) := by
    refine (value_bind (value_loadRight_treeAt hm hT.2.2.2)).trans ((value_bind
      (value_unsetOrChildOf (d := .right) hm hT.2.2.2)).trans ?_)
    refine (value_bind (value_loadLeft_treeAt hm hT.2.2.1)).trans ((value_bind
      (value_unsetOrChildOf (d := .left) hm hT.2.2.1)).trans ?_)
    refine (value_bind (value_validateRoot hm hT hroot)).trans ?_
    rw [value_check (value_validateColors hm hT), value_validateLeaf hm hT]
  refine (value_check (value_assert _)).trans ((congrArg _ (funext fun _ => hrest)).trans ?_)
  rw [check_seq, check_seq]
  exact check_congr (by simp)

end Evaluation

section Walk

variable {m : FieldHeap w} {h : Heap w} {t a : Address w} {c : Color} {o : Pointer w}
  {l r T : ColorTree (Address w)} {i b nBlack : BitVec 32} {ctx : Context (Address w)}

theorem value_validateNext (hm : Refines m h)
    (hT : TreeAt m (.root t) (fill ctx (.node c l a r)))
    (hnd : (fill ctx (.node c l a r)).inorder.Nodup) :
    value h (validateNext (some a) i) = .ok (if r = .nil then climbed ctx c i
      else (r.extreme .left, i + r.blackHeight)) := by
  have htr := (treeAt_fill.mp hT).1.2.2.2
  have hr := value_loadRight_treeAt hm htr
  refine (value_bind hr).trans ?_
  cases r with
  | nil => exact value_validateUp hm hT hnd (length_lt_of_nodup hnd).le
  | node c' l' a' r' =>
    refine (value_bind hr).trans ((value_bind (value_countUp hm htr.2.1)).trans ?_)
    have hheight := height_lt_of_nodup (nodup_children hnd).2
    rw [ColorTree.height] at hheight
    refine (value_validateDown hm htr (by omega)).trans ?_
    rw [if_neg (by simp), count_node]

/-- The colour of the root of a tree that has one. -/
def rootColor : ColorTree (Address w) → Color
  | .nil => .black
  | .node c _ _ _ => c

/-- The walk through a subtree, by induction on it. -/
theorem value_validateLoop (ctx : Context (Address w)) (hm : Refines m h)
    (hT : TreeAt m (.root t) (fill ctx T)) (hnd : (fill ctx T).inorder.Nodup) (hne : T ≠ .nil)
    (hroot : ctx = [] → T.isRed = false) (turns k : ℕ) :
    value h (validateLoop nBlack (turns + T.size) (T.extreme .left) o (b + T.blackHeight) k) =
      check (Passes nBlack b o T) >>= fun _ =>
        value h (validateLoop nBlack turns (climbed ctx (rootColor T) (b + (rootColor T).weight)).1
          (T.inorder.getLast?.or o) (climbed ctx (rootColor T) (b + (rootColor T).weight)).2
          (k + T.size)) := by
  induction T generalizing ctx b o turns k with
  | nil => exact absurd rfl hne
  | node c l a r ihl ihr =>
    have hnode := (treeAt_fill.mp hT).1
    have hblack : (hole (.root t) ctx).holder = none → c = .black := by
      intro hs
      cases ctx with
      | nil => simpa using hroot rfl
      | cons f ctx => simp at hs
    have hturn : ∀ (o : Pointer w) (turns k : ℕ),
        value h (validateLoop nBlack (turns + r.size + 1) (some a) o (b + c.weight) k) =
          check (Precedes o (some a) ∧ (c = .red → l.isRed = false ∧ r.isRed = false) ∧
            (l = .nil → r = .nil → b + c.weight = nBlack)) >>= fun _ =>
          check (Passes nBlack (b + c.weight) (some a) r) >>= fun _ =>
          value h (validateLoop nBlack turns (climbed ctx c (b + c.weight)).1
            (r.inorder.getLast?.or (some a)) (climbed ctx c (b + c.weight)).2
            (k + 1 + r.size)) := by
      intro o turns k
      refine (value_check (value_validateNode hm hnode hblack o)).trans ?_
      refine congrArg _ (funext fun _ => (value_bind (value_validateNext hm hT hnd)).trans ?_)
      by_cases hr : r = .nil
      · subst hr
        rw [check_true passes_nil, if_pos rfl]
        rfl
      · rw [if_neg hr]
        refine (ihr (⟨.right, c, a, l⟩ :: ctx) hT hnd hr (by simp) turns (k + 1)).trans ?_
        simp only [climbed, add_sub_cancel_right]
    have hsize : turns + (ColorTree.node c l a r).size = turns + r.size + 1 + l.size := by
      rw [ColorTree.size]
      omega
    have hcount : k + (ColorTree.node c l a r).size = k + l.size + 1 + r.size := by
      rw [ColorTree.size]
      omega
    have hrest : (check (Passes nBlack b o (.node c l a r)) >>= fun _ =>
        value h (validateLoop nBlack turns (climbed ctx c (b + c.weight)).1
          ((ColorTree.node c l a r).inorder.getLast?.or o) (climbed ctx c (b + c.weight)).2
          (k + (ColorTree.node c l a r).size))) =
        check (Passes nBlack (b + c.weight) o l) >>= fun _ => value h (validateLoop nBlack
          (turns + r.size + 1) (some a) (l.inorder.getLast?.or o) (b + c.weight) (k + l.size)) := by
      rw [check_congr passes_node, ← check_seq, ← check_seq, bind_assoc, last_node, hcount]
      simp only [bind_assoc, hturn]
    refine Eq.trans ?_ hrest.symm
    rw [hsize, count_node, ColorTree.extreme]
    by_cases hl : l = .nil
    · subst hl
      rw [check_true passes_nil]
      simp only [ColorTree.blackHeight, Nat.cast_zero, add_zero]
      rfl
    · have hsome : (l.extreme .left).or (some a) = l.extreme .left := by
        obtain ⟨x, hx⟩ := Option.ne_none_iff_exists'.mp
          (mt (ColorTree.extreme_eq_none (d := .left)).mp hl)
        rw [hx, Option.some_or]
      have hl' := ihl (o := o) (b := b + c.weight) (⟨.left, c, a, r⟩ :: ctx) hT hnd hl (by simp)
        (turns + r.size + 1) k
      simp only [climbed, add_sub_cancel_right] at hl'
      rw [hsome]
      exact hl'

/-- What validate() asserts of a tree: less than the red-black rules, since it does not look
at the NULL slot of a node with one child. -/
structure Validated (T : ColorTree (Address w)) : Prop where
  root : T.isRed = false
  alternating : T.NoRedRed
  level : ∀ k ∈ leafCounts T, (k : BitVec 32) = T.blackHeight
  ascending : T.inorder.Pairwise fun a b => a.word < b.word

theorem validated_iff (nBlack : BitVec 32) : Validated T ↔
    T.isRed = false ∧ Passes nBlack (nBlack - T.blackHeight) none T := by
  have hlevel : ∀ k : ℕ, nBlack - T.blackHeight + (k : BitVec 32) = nBlack ↔
      (k : BitVec 32) = T.blackHeight := by
    intro k
    rw [sub_add_eq_add_sub, sub_eq_iff_eq_add, add_right_inj]
  unfold Passes
  simp only [rises_none, hlevel]
  exact ⟨fun hv => ⟨hv.root, hv.ascending, hv.alternating, hv.level⟩,
    fun ⟨hr, ha, hn, hl⟩ => ⟨hr, hn, hl, ha⟩⟩

instance : Decidable (Validated T) := decidable_of_iff _ (validated_iff 0).symm

theorem value_secondLoop (hm : Refines m h) (hT : TreeAt m (.root t) T) (hnd : T.inorder.Nodup)
    (hroot : T.isRed = false) :
    value h (validateLoop nBlack (2 ^ w) (T.extreme .left) none nBlack 0) =
      check (Passes nBlack (nBlack - T.blackHeight) none T) >>= fun _ => .ok T.size := by
  have hsize := nodup_length_lt hnd
  rw [ColorTree.size_eq_length] at hsize
  obtain ⟨turns, hturns⟩ := Nat.exists_eq_add_of_le' hsize.le
  by_cases hne : T = .nil
  · subst hne
    rw [check_true passes_nil]
    cases 2 ^ w <;> rfl
  · have hloop : value h (validateLoop nBlack (turns + T.size) (T.extreme .left) none
        (nBlack - T.blackHeight + T.blackHeight) 0) = _ :=
      value_validateLoop [] hm hT hnd hne (fun _ => hroot) turns 0
    rw [sub_add_cancel, ← hturns, zero_add] at hloop
    rw [hloop]
    cases turns <;> rfl

theorem value_validate (hm : Refines m h) (hT : TreeAt m (.root t) T) (hnd : T.inorder.Nodup) :
    value h (validate (some t)) = check (Validated T) >>= fun _ => .ok T.size := by
  have hroot : value h (loadRoot (some t)) = .ok T.root? := by
    rw [← hT.load, hm.1]
    rfl
  have hfirst := value_validateFirst (i := 0) hm hT (height_lt_of_nodup hnd).le
  have hrest : value h (do
      let (n, iBlack) ← validateFirst (2 ^ w) (← loadRoot (some t)) 0
      validateLoop iBlack (2 ^ w) n none iBlack 0) = value h (validateLoop (0 + spineCount T)
        (2 ^ w) (T.extreme .left) none (0 + spineCount T) 0) :=
    (value_bind hroot).trans (value_bind hfirst)
  have hval : value h (validate (some t)) = check (decide (T.isRed = false)) >>= fun _ =>
      value h (validateLoop (0 + spineCount T) (2 ^ w) (T.extreme .left) none
        (0 + spineCount T) 0) := by
    rw [← hrest]
    exact (value_bind hroot).trans ((value_bind (value_unsetOrBlack hm hT)).trans
      (value_check (value_assert _)))
  rw [hval, check_congr (validated_iff (0 + (spineCount T : BitVec 32))), ← check_seq, bind_assoc]
  by_cases hred : T.isRed = false
  · rw [value_secondLoop hm hT hnd hred]
    simp only [decide_eq_true_eq]
  · simp only [check, if_neg hred, decide_eq_true_eq]
    rfl

end Walk

section Validate

theorem validated_of_isRedBlack {T : ColorTree (Address w)} (hrb : T.IsRedBlack)
    (ha : T.inorder.Pairwise fun a b => a.word < b.word) : Validated T := by
  refine ⟨hrb.root, hrb.alternating, fun k hk => ?_, ha⟩
  rw [leafCounts_eq hrb.balanced k hk]

/-- The tree is a red-black tree in the order of addresses if it passes and every child without
a sibling is a red node without children. -/
theorem validated_gap {T : ColorTree (Address w)} (hsize : T.size < 2 ^ 32) :
    Validated T ∧ OnlyRedLeaves T ↔
      T.IsRedBlack ∧ T.inorder.Pairwise fun a b => a.word < b.word := by
  constructor
  · rintro ⟨hv, ho⟩
    have hlevel : ∀ k ∈ leafCounts T, k = T.blackHeight := fun k hk => by
      have hle := leafCounts_le k hk
      have hle' := blackHeight_le_size (T := T)
      have heq : k % 2 ^ 32 = T.blackHeight % 2 ^ 32 := by
        simpa using congrArg BitVec.toNat (hv.level k hk)
      omega
    exact ⟨⟨hv.root, hv.alternating, (balanced_of_leafCounts ho hlevel).1⟩, hv.ascending⟩
  · rintro ⟨hrb, ha⟩
    exact ⟨validated_of_isRedBlack hrb ha, onlyRedLeaves_of_balanced hrb.balanced hrb.alternating⟩

variable {h h₀ : Heap w} {t : Address w} {T : ColorTree (Address w)} {cs : List (Call w)}
  {tr : List (Command w)} {S : Sequences w} {l : List (Address w)}

theorem Laid.validate_passes (hT : Laid h t T) (hnd : T.inorder.Nodup) (hv : Validated T) :
    Returns h (validate (some t)) T.size := by
  obtain ⟨m, hm, hT⟩ := hT
  exact readOnly_validate.run_ok ((value_validate hm hT hnd).trans (by rw [check_true hv]; rfl))

theorem Laid.validate_fails (hT : Laid h t T) (hnd : T.inorder.Nodup) (hv : ¬Validated T) :
    run (machine packed) (validate (some t)) h = .error .assertion := by
  obtain ⟨m, hm, hT⟩ := hT
  exact readOnly_validate.run_error
    ((value_validate hm hT hnd).trans (by rw [check, if_neg hv]; rfl))

/-- On a tree in memory the check returns the number of nodes, or stops at an assertion. -/
theorem validate_exact (hT : Laid h t T) (hnd : T.inorder.Nodup) :
    (Validated T → Returns h (validate (some t)) T.size) ∧
      (¬Validated T → run (machine packed) (validate (some t)) h = .error .assertion) :=
  ⟨hT.validate_passes hnd, hT.validate_fails hnd⟩

/-- A node without a sibling, and one more black node above it than the other side has. -/
def oneSided : ColorTree (Address 6) :=
  .node .black (.node .black .nil (cell 1) .nil) (cell 2) .nil

theorem validated_oneSided : Validated oneSided ∧ ¬oneSided.IsRedBlack :=
  ⟨by decide, fun h => absurd h.balanced (by decide)⟩

theorem validate_exact_sample :
    Returns (layOut (cell 0) oneSided) (validate (some (cell 0))) 2 ∧
      run (machine packed) (validate (some (cell 0))) (layOut (cell 0) crooked) =
        .error .assertion :=
  ⟨(validate_exact (laid_layOut (cell 0) (by decide)) (by decide)).1 validated_oneSided.1,
    (validate_exact laid_crooked nodup_crooked).2 (by decide)⟩

theorem validated_gap_sample : ¬OnlyRedLeaves oneSided := fun ho =>
  validated_oneSided.2 ((validated_gap (by decide)).mp ⟨validated_oneSided.1, ho⟩).1

end Validate

end CRbtree
