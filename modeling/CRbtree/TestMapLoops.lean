import CRbtree.AddressOrder
import CRbtree.LinearTraversal

set_option autoImplicit false

/-!
test-map.c: the loops that go over a tree in each direction, and leave a marker in every object.
-/

namespace CRbtree
open RedBlack TaggedPointers PointerGraphs Programs

variable {w : ℕ}

/-- The loop, with a body that carries a value along. -/
def forLoop {ι σ : Type} (L : Loop (Command w) Answer ι) (body : ι → σ → Prog w σ) :
    ℕ → ι → σ → Prog w σ
  | 0, iter, s => if L.more iter then crash .endless else pure s
  | turns + 1, iter, s =>
    if L.more iter then do
      let s ← body iter s
      let i ← L.next iter
      forLoop L body turns i s
    else pure s

/-- What test_map() counts and marks: `i`, `v` and the markers. The objects are named by the
nodes that they embed. -/
structure Survey (w : ℕ) where
  count : ℕ
  last : ℕ
  marker : Address w → Bool

/-- `!x || node_from_rb(x)->marker == b` -/
def unsetOrMarked (s : Survey w) (b : Bool) (x : Prog w (Pointer w)) : Prog w Bool := do
  if (← x).isNone then pure true else do
    let a ← deref (← x)
    pure (s.marker a == b)

/-- `!next(p) || p == prev(next(p))` -/
def stepsBack (next prev : Pointer w → Prog w (Pointer w)) (p : Pointer w) : Prog w Bool := do
  if (← next p).isNone then pure true else do
    let q ← prev (← next p)
    pure (p = q)

/-- The body of the in-order loops: the marker is `b`, and the key is not on the wrong side of
the last one. -/
def surveyOrder (key : Address w → ℕ) (upwards b : Bool) (p : Pointer w) (s : Survey w) :
    Prog w (Survey w) := do
  let a ← deref p
  cAssert (s.marker a = b)
  cAssert (if upwards then s.last ≤ key a else key a ≤ s.last)
  pure ⟨s.count + 1, key a, Function.update s.marker a !b⟩

/-- The body of the post-order loops: the marker is `b`, and those of its parent and its
children are as given. -/
def surveyLinks (parent child b : Bool) (p : Pointer w) (s : Survey w) : Prog w (Survey w) := do
  let a ← deref p
  cAssert (s.marker a = b)
  cAssert (← unsetOrMarked s parent (rbnodeParent p))
  cAssert (← unsetOrMarked s child (loadLeft p))
  cAssert (← unsetOrMarked s child (loadRight p))
  pure ⟨s.count + 1, s.last, Function.update s.marker a !b⟩

/-- The body, and a check that the step to the next node can be taken back. -/
def andBack (next prev : Pointer w → Prog w (Pointer w))
    (body : Pointer w → Survey w → Prog w (Survey w)) (p : Pointer w) (s : Survey w) :
    Prog w (Survey w) := do
  let s ← body p s
  cAssert (← stepsBack next prev p)
  pure s

/-- A loop of test_map() over `n` objects, from `v = last` on. -/
def survey {ι : Type} (L : Loop (Command w) Answer ι) (body : ι → Survey w → Prog w (Survey w))
    (turns n last : ℕ) (marker : Address w → Bool) : Prog w (Address w → Bool) := do
  let iter ← L.first
  let s ← forLoop L body turns iter ⟨0, last, marker⟩
  cAssert (s.count = n)
  pure s.marker

/-- The eight loops of test_map() that only read the tree. Where the keys fall, `v` starts at -1,
the largest word. -/
def testMapSurveys (off : Word w) (key : Address w → ℕ) (t : Pointer w) (turns n : ℕ)
    (marker : Address w → Bool) : Prog w (Address w → Bool) := do
  let marker ← survey (rbtreeForEach t)
    (andBack rbnodeNext rbnodePrev (surveyOrder key true false)) turns n 0 marker
  let marker ← survey (backwards t) (surveyOrder key false true) turns n (2 ^ (w + 2) - 1) marker
  let marker ← survey (rbtreeForEachPostorder t)
    (andBack rbnodeNextPostorder rbnodePrevPostorder (surveyLinks false true false))
    turns n 0 marker
  let marker ← survey (backwardsPostorder t) (surveyLinks false true true) turns n 0 marker
  let marker ← survey (rbtreeForEach t)
    (andBack rbnodeNext rbnodePrev (surveyOrder key true false)) turns n 0 marker
  let marker ← survey (rbtreeForEachEntry off t)
    (fun iter => surveyOrder key true true (memberOf off iter)) turns n 0 marker
  let marker ← survey (rbtreeForEachPostorder t)
    (andBack rbnodeNextPostorder rbnodePrevPostorder (surveyLinks false true false))
    turns n 0 marker
  survey (rbtreeForEachEntryPostorder off t)
    (fun iter => surveyLinks true false true (memberOf off iter)) turns n 0 marker

section Loops

variable {ι σ : Type} {h : Heap w} {good : Address w → Prop} {view : Pointer w → ι}
  {point : ι → Pointer w} {N : Loop (Command w) Answer (Pointer w)}
  {L : Loop (Command w) Answer ι} {l : List (Address w)}

theorem Returns.bind {α β : Type} {p : Prog w α} {k : α → Prog w β} {a : α} {b : β}
    (hp : Returns h p a) (hk : Returns h (k a) b) : Returns h (p >>= k) b := by
  obtain ⟨tr, hp⟩ := hp
  obtain ⟨tr', hk⟩ := hk
  exact ⟨_, run_bind hp hk⟩

theorem returns_pure {α : Type} (a : α) : Returns h (pure a) a := ⟨[], rfl⟩

theorem returns_assert {b : Bool} (hb : b = true) : Returns h (cAssert b) () := by
  subst hb
  exact ⟨[], rfl⟩

/-- The loop runs its body once for each node of the list. -/
theorem Follows.forLoop {body : ι → σ → Prog w σ} {turns : ℕ} (hn : Follows h N.next l)
    (hS : Shows good view point N L) (hgood : ∀ a ∈ l, good a) (st : List (Address w) → σ)
    (hbody : ∀ xs a ys, l = xs ++ a :: ys →
      Returns h (body (view (some a)) (st xs)) (st (xs ++ [a])))
    (hturns : l.length ≤ turns) :
    Returns h (CRbtree.forLoop L body turns (view l.head?) (st [])) (st l) := by
  have hsuffix : ∀ ys xs turns, l = xs ++ ys → ys.length ≤ turns →
      Returns h (CRbtree.forLoop L body turns (view ys.head?) (st xs)) (st l) := by
    intro ys
    induction ys with
    | nil =>
      intro xs turns hl _
      have hstop : L.more (view none) ≠ true := by simp [hS.stop]
      rw [List.append_nil] at hl
      subst hl
      cases turns <;> exact ⟨[], congrArg (run (machine packed) · h) (if_neg hstop)⟩
    | cons a ys ih =>
      intro xs turns hl hle
      obtain ⟨turns, rfl⟩ := Nat.exists_eq_add_one_of_ne_zero
        (show turns ≠ 0 by simp only [List.length_cons] at hle; omega)
      have ha := hgood a (by simp [hl])
      have hrest := ih (xs ++ [a]) turns (by simp [hl]) (by simpa using hle)
      rw [List.head?_cons, CRbtree.forLoop, if_pos (hS.more a ha).1]
      exact (hbody xs a ys hl).bind ((hS.next ha (hn xs a ys hl)).bind hrest)
  exact hsuffix l [] turns rfl hturns

end Loops

section Bodies

variable {ι : Type} {h : Heap w} {a : Address w} {b : Bool} {s : Survey w} {l : List (Address w)}
  {next prev : Pointer w → Prog w (Pointer w)} {key : Address w → ℕ}

theorem returns_unsetOrMarked {x : Prog w (Pointer w)} {p : Pointer w} (hx : Returns h x p)
    (hp : ∀ c ∈ p, s.marker c = b) : Returns h (unsetOrMarked s b x) true := by
  refine hx.bind ?_
  cases p with
  | none => exact returns_pure true
  | some c =>
    have hc : (s.marker c == b) = true := by rw [hp c rfl, beq_self_eq_true]
    exact hx.bind (hc ▸ returns_pure (s.marker c == b))

theorem returns_stepsBack {xs ys : List (Address w)} (hn : Follows h next l)
    (hp : Follows h prev l.reverse) (hl : l = xs ++ a :: ys) :
    Returns h (stepsBack next prev (some a)) true := by
  have hnext := hn xs a ys hl
  refine hnext.bind ?_
  cases ys with
  | nil => exact returns_pure true
  | cons c ys =>
    have hback : Returns h (prev (some c)) (some a) :=
      hn.inverse hp (by simp [hl]) hnext
    have hsame : decide (some a = some a) = true := decide_eq_true rfl
    exact hnext.bind (hback.bind (hsame ▸ returns_pure (decide (some a = some a))))

theorem returns_surveyOrder {upwards : Bool} (hb : s.marker a = b)
    (hkey : if upwards then s.last ≤ key a else key a ≤ s.last) :
    Returns h (surveyOrder key upwards b (some a) s)
      ⟨s.count + 1, key a, Function.update s.marker a !b⟩ := by
  refine (returns_assert (decide_eq_true hb)).bind ((returns_assert ?_).bind (returns_pure _))
  cases upwards
  · exact decide_eq_true hkey
  · exact decide_eq_true hkey

theorem returns_surveyLinks {parent child : Bool} {p x y : Pointer w}
    (hp : Returns h (rbnodeParent (some a)) p) (hx : Returns h (loadLeft (some a)) x)
    (hy : Returns h (loadRight (some a)) y) (hb : s.marker a = b)
    (hparent : ∀ c ∈ p, s.marker c = parent) (hleft : ∀ c ∈ x, s.marker c = child)
    (hright : ∀ c ∈ y, s.marker c = child) :
    Returns h (surveyLinks parent child b (some a) s)
      ⟨s.count + 1, s.last, Function.update s.marker a !b⟩ := by
  refine (returns_assert (decide_eq_true hb)).bind ?_
  refine (returns_unsetOrMarked hp hparent).bind ((returns_assert rfl).bind ?_)
  refine (returns_unsetOrMarked hx hleft).bind ((returns_assert rfl).bind ?_)
  exact (returns_unsetOrMarked hy hright).bind ((returns_assert rfl).bind (returns_pure _))

theorem returns_andBack {body : Pointer w → Survey w → Prog w (Survey w)} {s' : Survey w}
    {xs ys : List (Address w)} (hn : Follows h next l) (hp : Follows h prev l.reverse)
    (hl : l = xs ++ a :: ys) (hbody : Returns h (body (some a) s) s') :
    Returns h (andBack next prev body (some a) s) s' :=
  hbody.bind ((returns_stepsBack hn hp hl).bind ((returns_assert rfl).bind (returns_pure s')))

end Bodies

section Links

variable {h : Heap w} {t a : Address w} {T : ColorTree (Address w)}

/-- Where the parent and the children of a node are in the post-order list. -/
theorem Laid.links (hT : Laid h t T) (hnd : T.inorder.Nodup) {xs ys : List (Address w)}
    (hl : T.postorder = xs ++ a :: ys) : ∃ p x y, Returns h (rbnodeParent (some a)) p ∧
      Returns h (loadLeft (some a)) x ∧ Returns h (loadRight (some a)) y ∧
      (∀ c ∈ p, c ∈ ys) ∧ (∀ c ∈ x, c ∈ xs) ∧ ∀ c ∈ y, c ∈ xs := by
  obtain ⟨m, hm, hT⟩ := hT
  obtain ⟨ctx, c, l, r, rfl⟩ :=
    exists_fill_of_mem (ColorTree.mem_postorder.mp (show a ∈ T.postorder by simp [hl]))
  have hsplit := hl
  rw [postorder_fill, ColorTree.postorder, ← List.append_assoc l.postorder, List.append_assoc,
    List.singleton_append, ← List.append_assoc] at hsplit
  obtain ⟨rfl, rfl⟩ := split_unique (hsplit ▸ hl ▸ ColorTree.nodup_postorder.mpr hnd) hsplit
  obtain ⟨⟨-, hk, hleft, hright⟩, -⟩ := treeAt_fill.mp hT
  have hparent : parentOf (h.link a) = (hole (.root t) ctx).holder := by
    have hp := hm.2 a
    rw [hk] at hp
    exact (packs_linkAt hp).1
  have hroot : ∀ {u : ColorTree (Address w)}, ∀ c ∈ u.root?, c ∈ u.postorder :=
    fun c hc => ColorTree.mem_postorder.mpr (ColorTree.mem_of_root? hc)
  refine ⟨_, _, _, ⟨_, (run_accessors h a).1⟩, ⟨_, rfl⟩, ⟨_, rfl⟩, fun c hc => ?_, fun c hc => ?_,
    fun c hc => ?_⟩
  · rw [hparent] at hc
    cases ctx with
    | nil => cases hc
    | cons f ctx =>
      rw [hole_cons, Slot.holder_child] at hc
      cases hc
      unfold pending
      cases f.side <;> simp
  · rw [← hm.1, hleft.load] at hc
    simp [hroot c hc]
  · rw [← hm.1, hright.load] at hc
    simp [hroot c hc]

end Links

/-- The markers, where those of the nodes in the list have been turned over. -/
def toggled (b : Bool) (m : Address w → Bool) (xs : List (Address w)) (c : Address w) : Bool :=
  if xs.contains c then !b else m c

/-- The value of `v` after these nodes. -/
def lastKey (key : Address w → ℕ) (v : ℕ) (xs : List (Address w)) : ℕ :=
  (xs.getLast?.map key).getD v

section Turns

variable {ι : Type} {h : Heap w} {a : Address w} {b : Bool} {m : Address w → Bool} {v turns : ℕ}
  {l xs ys : List (Address w)} {key : Address w → ℕ} {good : Address w → Prop}
  {view : Pointer w → ι} {point : ι → Pointer w} {N : Loop (Command w) Answer (Pointer w)}
  {L : Loop (Command w) Answer ι}

theorem toggled_nil : toggled b m [] = m := by
  funext c
  simp [toggled]

theorem toggled_concat : toggled b m (xs ++ [a]) = Function.update (toggled b m xs) a !b := by
  funext c
  by_cases hc : c = a
  · simp [toggled, hc]
  · simp [toggled, hc]

theorem toggled_of_mem (ha : a ∈ xs) : toggled b m xs a = !b := by simp [toggled, ha]

theorem toggled_of_not_mem (ha : a ∉ xs) : toggled b m xs a = m a := by simp [toggled, ha]

theorem lastKey_concat : lastKey key v (xs ++ [a]) = key a := by simp [lastKey]

/-- The loop turns over the markers of all its nodes. -/
theorem Follows.survey {body : ι → Survey w → Prog w (Survey w)} (hn : Follows h N.next l)
    (hfirst : Returns h N.first l.head?) (hS : Shows good view point N L)
    (hgood : ∀ a ∈ l, good a) (hturns : l.length ≤ turns) (f : List (Address w) → ℕ)
    (hbody : ∀ xs a ys, l = xs ++ a :: ys →
      Returns h (body (view (some a)) ⟨xs.length, f xs, toggled b m xs⟩)
        ⟨xs.length + 1, f (xs ++ [a]), Function.update (toggled b m xs) a !b⟩) :
    Returns h (CRbtree.survey L body turns l.length (f []) m) (toggled b m l) := by
  have hloop := hn.forLoop hS hgood (fun xs => (⟨xs.length, f xs, toggled b m xs⟩ : Survey w))
    (fun xs a ys hl => by
      rw [toggled_concat, List.length_append]
      exact hbody xs a ys hl) hturns
  rw [toggled_nil] at hloop
  exact (hS.first hfirst).bind
    (hloop.bind ((returns_assert (decide_eq_true rfl)).bind (returns_pure _)))

theorem lastKey_rel {r : ℕ → ℕ → Prop} (hs : l.Pairwise fun a c => r (key a) (key c))
    (hl : l = xs ++ a :: ys) (hv : r v (key a)) : r (lastKey key v xs) (key a) := by
  rcases List.eq_nil_or_concat xs with rfl | ⟨xs', c, rfl⟩
  · exact hv
  · rw [List.concat_eq_append, lastKey_concat]
    rw [hl, List.pairwise_append] at hs
    exact hs.2.2 c (by simp) a List.mem_cons_self

variable (hnd : l.Nodup) (hmark : ∀ a ∈ l, m a = b) (hl : l = xs ++ a :: ys)
include hnd hmark hl

theorem toggled_next : toggled b m xs a = b := by
  rw [hl, List.nodup_append'] at hnd
  rw [toggled_of_not_mem fun ha => hnd.2.2 ha List.mem_cons_self]
  exact hmark a (by simp [hl])

theorem toggled_ahead {c : Address w} (hc : c ∈ ys) : toggled b m xs c = b := by
  rw [hl, List.nodup_append'] at hnd
  rw [toggled_of_not_mem fun hx => hnd.2.2 hx (List.mem_cons_of_mem a hc)]
  exact hmark c (by simp [hl, hc])

/-- The nodes are in the order of their keys, or in the opposite order. -/
theorem returns_orderTurn {upwards : Bool}
    (hs : l.Pairwise fun a c => if upwards then key a ≤ key c else key c ≤ key a)
    (hv : if upwards then v ≤ key a else key a ≤ v) :
    Returns h (surveyOrder key upwards b (some a) ⟨xs.length, lastKey key v xs, toggled b m xs⟩)
      ⟨xs.length + 1, lastKey key v (xs ++ [a]), Function.update (toggled b m xs) a !b⟩ := by
  rw [lastKey_concat]
  exact returns_surveyOrder (toggled_next hnd hmark hl)
    (lastKey_rel (r := fun i j => if upwards then i ≤ j else j ≤ i) hs hl hv)

end Turns

section Directions

variable {h : Heap w} {t a : Address w} {T : ColorTree (Address w)} {b : Bool}
  {m : Address w → Bool} {v turns : ℕ} {xs ys : List (Address w)} {key : Address w → ℕ}
  {off : Word w}

theorem toggled_perm {l l' : List (Address w)} (hp : l.Perm l') :
    toggled b m l = toggled b m l' := by
  funext c
  simp only [toggled, List.contains_eq_mem, hp.mem_iff]

theorem toggled_back {l : List (Address w)} (hmark : ∀ a ∈ l, m a = b) :
    toggled (!b) (toggled b m l) l = m := by
  funext c
  by_cases hc : c ∈ l
  · rw [toggled_of_mem hc, hmark c hc, Bool.not_not]
  · rw [toggled_of_not_mem hc, toggled_of_not_mem hc]

variable (hT : Laid h t T) (hnd : T.inorder.Nodup)
include hT hnd

/-- A node comes after its children and before its parent. -/
theorem Laid.postorderTurn (hmark : ∀ a ∈ T.postorder, m a = b)
    (hl : T.postorder = xs ++ a :: ys) :
    Returns h (surveyLinks b (!b) b (some a) ⟨xs.length, v, toggled b m xs⟩)
      ⟨xs.length + 1, v, Function.update (toggled b m xs) a !b⟩ := by
  have hnd' := ColorTree.nodup_postorder.mpr hnd
  obtain ⟨p, x, y, hp, hx, hy, hparent, hleft, hright⟩ := hT.links hnd hl
  exact returns_surveyLinks hp hx hy (toggled_next hnd' hmark hl)
    (fun c hc => toggled_ahead hnd' hmark hl (hparent c hc))
    (fun c hc => toggled_of_mem (hleft c hc)) fun c hc => toggled_of_mem (hright c hc)

/-- Backwards it is the other way round. -/
theorem Laid.preorderTurn (hmark : ∀ a ∈ T.postorder.reverse, m a = b)
    (hl : T.postorder.reverse = xs ++ a :: ys) :
    Returns h (surveyLinks (!b) b b (some a) ⟨xs.length, v, toggled b m xs⟩)
      ⟨xs.length + 1, v, Function.update (toggled b m xs) a !b⟩ := by
  have hnd' := List.nodup_reverse.mpr (ColorTree.nodup_postorder.mpr hnd)
  have hl' : T.postorder = ys.reverse ++ a :: xs.reverse := by
    rw [← List.reverse_reverse T.postorder, hl]
    simp
  obtain ⟨p, x, y, hp, hx, hy, hparent, hleft, hright⟩ := hT.links hnd hl'
  exact returns_surveyLinks hp hx hy (toggled_next hnd' hmark hl)
    (fun c hc => toggled_of_mem (List.mem_reverse.mp (hparent c hc)))
    (fun c hc => toggled_ahead hnd' hmark hl (List.mem_reverse.mp (hleft c hc)))
    fun c hc => toggled_ahead hnd' hmark hl (List.mem_reverse.mp (hright c hc))

variable (hmark : ∀ a ∈ T.inorder, m a = b) (hturns : T.size ≤ turns)
include hmark hturns

theorem Laid.surveyPostorder :
    Returns h (survey (rbtreeForEachPostorder (some t))
      (andBack rbnodeNextPostorder rbnodePrevPostorder (surveyLinks b (!b) b)) turns T.size v m)
      (toggled b m T.inorder) := by
  have hlen : T.postorder.length = T.size := by
    rw [T.postorder_perm.length_eq, ColorTree.size_eq_length]
  have hn : Follows h (rbtreeForEachPostorder (some t)).next T.postorder :=
    hT.follows_nextPostorder hnd
  rw [← toggled_perm T.postorder_perm, ← hlen]
  refine hn.survey (hT.firstPostorder hnd) (shows_node _ rfl) (fun _ _ => trivial)
    (hlen.trans_le hturns) (fun _ => v) fun xs a ys hl => ?_
  exact returns_andBack hn (hT.follows_prevPostorder hnd) hl
    (hT.postorderTurn hnd (fun a ha => hmark a (ColorTree.mem_postorder.mp ha)) hl)

theorem Laid.surveyPreorder :
    Returns h (survey (backwardsPostorder (some t)) (surveyLinks (!b) b b) turns T.size v m)
      (toggled b m T.inorder) := by
  have hlen : T.postorder.reverse.length = T.size := by
    rw [List.length_reverse, T.postorder_perm.length_eq, ColorTree.size_eq_length]
  have hn : Follows h (backwardsPostorder (some t)).next T.postorder.reverse :=
    hT.follows_prevPostorder hnd
  rw [← toggled_perm ((List.reverse_perm _).trans T.postorder_perm), ← hlen]
  refine hn.survey hT.lastPostorder (shows_node _ rfl) (fun _ _ => trivial)
    (hlen.trans_le hturns) (fun _ => v) fun xs a ys hl => ?_
  exact hT.preorderTurn hnd
    (fun a ha => hmark a (ColorTree.mem_postorder.mp (List.mem_reverse.mp ha))) hl

theorem Laid.surveyPostorderEntry (hobj : ∀ a ∈ T.inorder, a.word ≠ off) :
    Returns h (survey (rbtreeForEachEntryPostorder off (some t))
      (fun iter => surveyLinks b (!b) b (memberOf off iter)) turns T.size v m)
      (toggled b m T.inorder) := by
  have hlen : T.postorder.length = T.size := by
    rw [T.postorder_perm.length_eq, ColorTree.size_eq_length]
  have hn : Follows h (rbtreeForEachPostorder (some t)).next T.postorder :=
    hT.follows_nextPostorder hnd
  have hS := shows_entry off (rbtreeForEachPostorder (some t))
  rw [← toggled_perm T.postorder_perm, ← hlen]
  refine hn.survey (hT.firstPostorder hnd) hS (fun a ha => hobj a (ColorTree.mem_postorder.mp ha))
    (hlen.trans_le hturns) (fun _ => v) fun xs a ys hl => ?_
  rw [(hS.more a (hobj a (ColorTree.mem_postorder.mp (by simp [hl])))).2]
  exact hT.postorderTurn hnd (fun a ha => hmark a (ColorTree.mem_postorder.mp ha)) hl

variable (hs : Sorted key T.inorder)
include hs

theorem Laid.surveyInorder :
    Returns h (survey (rbtreeForEach (some t))
      (andBack rbnodeNext rbnodePrev (surveyOrder key true b)) turns T.size 0 m)
      (toggled b m T.inorder) := by
  have hn : Follows h (rbtreeForEach (some t)).next T.inorder := hT.follows_next hnd
  rw [← ColorTree.size_eq_length] at hturns ⊢
  refine hn.survey (hT.first hnd) (shows_node _ rfl) (fun _ _ => trivial) hturns
    (lastKey key 0) fun xs a ys hl => ?_
  exact returns_andBack hn (hT.follows_prev hnd) hl
    (returns_orderTurn hnd hmark hl (hs.imp fun h => h.le) (Nat.zero_le _))

theorem Laid.surveyEntry (hobj : ∀ a ∈ T.inorder, a.word ≠ off) :
    Returns h (survey (rbtreeForEachEntry off (some t))
      (fun iter => surveyOrder key true b (memberOf off iter)) turns T.size 0 m)
      (toggled b m T.inorder) := by
  have hn : Follows h (rbtreeForEach (some t)).next T.inorder := hT.follows_next hnd
  have hS := shows_entry off (rbtreeForEach (some t))
  rw [← ColorTree.size_eq_length] at hturns ⊢
  refine hn.survey (hT.first hnd) hS hobj hturns (lastKey key 0) fun xs a ys hl => ?_
  rw [(hS.more a (hobj a (by simp [hl]))).2]
  exact returns_orderTurn hnd hmark hl (hs.imp fun h => h.le) (Nat.zero_le _)

theorem Laid.surveyBackwards (hv : ∀ a ∈ T.inorder, key a ≤ v) :
    Returns h (survey (backwards (some t)) (surveyOrder key false b) turns T.size v m)
      (toggled b m T.inorder) := by
  have hn : Follows h (backwards (some t)).next T.inorder.reverse := hT.follows_prev hnd
  rw [← toggled_perm (List.reverse_perm T.inorder)]
  rw [← ColorTree.size_eq_length, ← List.length_reverse] at hturns ⊢
  refine hn.survey (hT.last hnd) (shows_node _ rfl) (fun _ _ => trivial) hturns (lastKey key v)
    fun xs a ys hl => ?_
  have hdown : T.inorder.reverse.Pairwise fun a c => key c ≤ key a :=
    List.pairwise_reverse.mpr (hs.imp fun h => h.le)
  exact returns_orderTurn (List.nodup_reverse.mpr hnd)
    (fun a ha => hmark a (List.mem_reverse.mp ha)) hl hdown
    (hv a (List.mem_reverse.mp (by simp [hl])))

end Directions

/-- On every tree whose keys ascend, all loops of test_map() that only read the tree pass, and
leave the markers as they were. -/
theorem testMapSurveys_passes {h : Heap w} {t : Address w} {T : ColorTree (Address w)}
    {m : Address w → Bool} {turns : ℕ} {key : Address w → ℕ} {off : Word w} (hT : Laid h t T)
    (hnd : T.inorder.Nodup) (hs : Sorted key T.inorder)
    (hkey : ∀ a ∈ T.inorder, key a < 2 ^ (w + 2)) (hobj : ∀ a ∈ T.inorder, a.word ≠ off)
    (hmark : ∀ a ∈ T.inorder, m a = false) (hturns : T.size ≤ turns) :
    Returns h (testMapSurveys off key (some t) turns T.size m) m := by
  have hset : ∀ a ∈ T.inorder, toggled false m T.inorder a = true := fun a ha => toggled_of_mem ha
  have hback : toggled true (toggled false m T.inorder) T.inorder = m := toggled_back hmark
  have hlast : ∀ a ∈ T.inorder, key a ≤ 2 ^ (w + 2) - 1 := fun a ha => Nat.le_pred_of_lt (hkey a ha)
  have hin := hT.surveyInorder hnd hmark hturns hs
  have hpost := hT.surveyPostorder (v := 0) hnd hmark hturns
  have hrev := hback ▸ hT.surveyBackwards hnd hset hturns hs hlast
  have hpre := hback ▸ hT.surveyPreorder (v := 0) hnd hset hturns
  have hentry := hback ▸ hT.surveyEntry hnd hset hturns hs hobj
  have hentryPost := hback ▸ hT.surveyPostorderEntry (v := 0) hnd hset hturns hobj
  exact hin.bind (hrev.bind (hpost.bind (hpre.bind (hin.bind (hentry.bind
    (hpost.bind hentryPost))))))

end CRbtree
