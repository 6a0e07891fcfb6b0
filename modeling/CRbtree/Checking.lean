import CRbtree.Effects
import CRbtree.Stores

set_option autoImplicit false

/-!
The check that test-parallel.c makes after every instruction of a writer: a search for
loops and stray pointers, depth first, with a mark on each node of the path.
-/

namespace CRbtree
open RedBlack TaggedPointers PointerGraphs Programs

variable {w : ℕ}

/-- What test_parent_step() writes: the `visited` marks of the nodes, and the entries of
`cache` below `i_level`, the last one first. -/
structure StepState (w : ℕ) where
  visited : Address w → Bool
  cache : List (Address w)

/-- How test_parent_step() ends other than by itself. -/
inductive StepFailure where
  | visitedTwice | strayNode | cacheFull | endless
  deriving DecidableEq, Repr

def toggleVisit (visited : Address w → Bool) (n : Address w) (set : Bool) : Address w → Bool :=
  Function.update visited n set

/-- The inner loop, which starts at `n`. It returns NULL when `i_level` is 0 at its end. -/
def stepClimb (g : Slot w → Pointer w) (n : Address w) (visited : Address w → Bool) :
    List (Address w) → Pointer w × StepState w
  | [] => (none, ⟨visited, []⟩)
  | p :: cache =>
    if (g (.right p)).isSome ∧ some n ≠ g (.right p) then (g (.right p), ⟨visited, p :: cache⟩)
    else stepClimb g p (toggleVisit visited p false) cache

/-- `toggle_visit(n, true); ctx->cache[i_level++] = n;` -/
def stepPush (nodes : List (Address w)) (n : Address w) (s : StepState w) :
    Except StepFailure (StepState w) :=
  if s.cache.length < nodes.length then .ok ⟨toggleVisit s.visited n true, n :: s.cache⟩
  else .error .cacheFull

/-- The outer loop, whose body may run so many times. -/
def stepLoop (nodes : List (Address w)) (g : Slot w → Pointer w) :
    ℕ → Pointer w → StepState w → Except StepFailure (StepState w)
  | _, none, s => .ok s
  | 0, some _, _ => .error .endless
  | turns + 1, some n, s =>
    if s.visited n then .error .visitedTwice
    else if n ∉ nodes then .error .strayNode
    else if (g (.left n)).isSome then do
      stepLoop nodes g turns (g (.left n)) (← stepPush nodes n s)
    else if (g (.right n)).isSome then do
      stepLoop nodes g turns (g (.right n)) (← stepPush nodes n s)
    else
      stepLoop nodes g turns (stepClimb g n s.visited s.cache).1
        (stepClimb g n s.visited s.cache).2

/-- The test contexts' `nodes` are all nodes there are; `cache` has as many entries. -/
def testParentStep (turns : ℕ) (nodes : List (Address w)) (t : Address w)
    (g : Slot w → Pointer w) (visited : Address w → Bool) : Except StepFailure (StepState w) :=
  stepLoop nodes g turns (g (.root t)) ⟨visited, []⟩

section Search

variable {nodes : List (Address w)} {g : Slot w → Pointer w} {base : Address w → Bool}
  {n p : Address w} {path : List (Address w)} {turns : ℕ}

/-- The marks while the search is below the nodes of a path. -/
def marked (base : Address w → Bool) : List (Address w) → Address w → Bool
  | [] => base
  | p :: path => toggleVisit (marked base path) p true

theorem marked_eq (hb : base n = false) : marked base path n = true ↔ n ∈ path := by
  induction path with
  | nil => simp [marked, hb]
  | cons p path ih =>
    by_cases hnp : n = p
    · simp [marked, toggleVisit, hnp]
    · simp [marked, toggleVisit, hnp, ih]

/-- Leaving a node takes its mark away. -/
theorem toggle_marked (hb : base p = false) (hp : p ∉ path) :
    toggleVisit (marked base (p :: path)) p false = marked base path := by
  have hoff : marked base path p = false := by
    rw [← Bool.not_eq_true]
    exact mt (marked_eq hb).mp hp
  rw [marked, toggleVisit, toggleVisit, Function.update_idem, ← hoff, Function.update_eq_self]

theorem follow_append (q : Pointer w) (ds es : List Side) :
    follow g q (ds ++ es) = follow g (follow g q ds) es := by
  induction ds generalizing q with
  | nil => rfl
  | cons d ds ih =>
    cases q with
    | none => cases es <;> rfl
    | some a => exact ih _

/-- The path leads from each of its nodes down to `n`. -/
def LeadsTo (g : Slot w → Pointer w) : List (Address w) → Address w → Prop
  | [], _ => True
  | p :: path, n => (∃ d, g (.child d p) = some n) ∧ LeadsTo g path p

theorem LeadsTo.follow {a : Address w} (h : LeadsTo g path n) (ha : a ∈ path) :
    ∃ d ds, follow g (some a) (d :: ds) = some n := by
  induction path generalizing n with
  | nil => cases ha
  | cons p path ih =>
    obtain ⟨⟨d, hd⟩, hp⟩ := h
    rcases List.mem_cons.mp ha with rfl | ha
    · exact ⟨d, [], by simp [PointerGraphs.follow, hd]⟩
    · obtain ⟨e, es, he⟩ := ih hp ha
      refine ⟨e, es ++ [d], ?_⟩
      rw [← List.cons_append, follow_append, he]
      exact hd

/-- Where the search goes on after the subtree of `n`. -/
def resume (nodes : List (Address w)) (g : Slot w → Pointer w) (base : Address w → Bool)
    (turns : ℕ) (n : Address w) (path : List (Address w)) : Except StepFailure (StepState w) :=
  stepLoop nodes g turns (stepClimb g n (marked base path) path).1
    (stepClimb g n (marked base path) path).2

theorem resume_right {r : Address w} (hr : g (.right p) = some r) (hn : n ≠ r) :
    resume nodes g base turns n (p :: path) =
      stepLoop nodes g turns (some r) ⟨marked base (p :: path), p :: path⟩ := by
  rw [resume, stepClimb, if_pos ⟨by simp [hr], by simpa [hr] using hn⟩, hr]

theorem resume_pop (hr : g (.right p) = none ∨ g (.right p) = some n) (hb : base p = false)
    (hp : p ∉ path) :
    resume nodes g base turns n (p :: path) = resume nodes g base turns p path := by
  have hpop : ¬((g (.right p)).isSome ∧ some n ≠ g (.right p)) := by
    rcases hr with hr | hr <;> simp [hr]
  rw [resume, stepClimb, if_neg hpop, toggle_marked hb hp]
  rfl

/-- The search is on a path without loops, through nodes of the context. -/
structure OnPath (nodes : List (Address w)) (g : Slot w → Pointer w) (path : List (Address w))
    (n : Address w) : Prop where
  nodup : path.Nodup
  subset : ∀ a ∈ path, a ∈ nodes
  leads : LeadsTo g path n

/-- The search below `n` has a result after some turns: it finds a finite tree and goes on, or
it fails for a loop or a stray node. -/
inductive Searched (nodes : List (Address w)) (g : Slot w → Pointer w) (base : Address w → Bool)
    (path : List (Address w)) (n : Address w) : Prop
  | found {T : ColorTree (Address w)} {j : ℕ} (hT : Unfolds g (some n) T)
      (hmem : ∀ a ∈ T.inorder, a ∈ nodes) (hj : j ≤ T.size)
      (h : ∀ turns, stepLoop nodes g (turns + j) (some n) ⟨marked base path, path⟩ =
        resume nodes g base turns n path)
  | failed {j : ℕ} {e : StepFailure} (hbad : ¬EndsIn g {a | a ∈ nodes} (some n))
      (he : e = .visitedTwice ∨ e = .strayNode)
      (h : ∀ turns, stepLoop nodes g (turns + j) (some n) ⟨marked base path, path⟩ = .error e)

theorem endsIn_child {A : Set (Address w)} (h : EndsIn g A (some n)) (d : Side) :
    EndsIn g A (g (.child d n)) := by
  obtain ⟨T, hT, hmem⟩ := h
  cases T with
  | nil => cases hT
  | node c l a r =>
    obtain ⟨ha, hl, hr⟩ := hT
    cases ha
    cases d with
    | left => exact ⟨l, hl, fun b hb => hmem b (by simp [ColorTree.inorder, hb])⟩
    | right => exact ⟨r, hr, fun b hb => hmem b (by simp [ColorTree.inorder, hb])⟩

section Node

variable (hb : ∀ a ∈ nodes, base a = false) (hpath : OnPath nodes g path n)
include hb hpath

/-- A mark on the way is a loop. -/
theorem searched_of_mem (hn : n ∈ path) : Searched nodes g base path n := by
  have hmark : marked base path n = true := (marked_eq (hb n (hpath.subset n hn))).mpr hn
  refine .failed (j := 1) ?_ (.inl rfl) fun turns => if_pos hmark
  rintro ⟨T, hT, -⟩
  obtain ⟨d, ds, hds⟩ := hpath.leads.follow hn
  exact hT.follow_ne d ds hds

omit hb hpath in
theorem searched_of_stray (hn : n ∉ nodes) : Searched nodes g base path n := by
  have hbad : ¬EndsIn g {a | a ∈ nodes} (some n) := fun h => hn (h.mem ⟨[], rfl⟩)
  by_cases hmark : marked base path n = true
  · exact .failed (j := 1) hbad (.inl rfl) fun turns => if_pos hmark
  · refine .failed (j := 1) hbad (.inr rfl) fun turns => ?_
    rw [stepLoop, if_neg hmark, if_pos hn]

variable (hn : n ∈ nodes) (hnew : n ∉ path)
include hn hnew

omit hb in
/-- The way down has room in the cache. -/
theorem length_lt : path.length < nodes.length := by
  have hnd : (n :: path).Nodup := List.nodup_cons.mpr ⟨hnew, hpath.nodup⟩
  have hsub : n :: path ⊆ nodes := by
    intro a ha
    rcases List.mem_cons.mp ha with rfl | ha
    · exact hn
    · exact hpath.subset a ha
  exact (List.subperm_of_subset hnd hsub).length_le

omit hb in
theorem OnPath.down {b : Address w} {d : Side} (hd : g (.child d n) = some b) :
    OnPath nodes g (n :: path) b := by
  refine ⟨List.nodup_cons.mpr ⟨hnew, hpath.nodup⟩, ?_, ⟨d, hd⟩, hpath.leads⟩
  intro a ha
  rcases List.mem_cons.mp ha with rfl | ha
  · exact hn
  · exact hpath.subset a ha

/-- One turn of the outer loop at a node that passes its checks. -/
theorem stepLoop_node (turns : ℕ) :
    stepLoop nodes g (turns + 1) (some n) ⟨marked base path, path⟩ =
      if (g (.left n)).isSome then
        stepLoop nodes g turns (g (.left n)) ⟨marked base (n :: path), n :: path⟩
      else if (g (.right n)).isSome then
        stepLoop nodes g turns (g (.right n)) ⟨marked base (n :: path), n :: path⟩
      else resume nodes g base turns n path := by
  have hmark : ¬marked base path n = true := mt (marked_eq (hb n hn)).mp hnew
  have hpush : stepPush nodes n ⟨marked base path, path⟩ =
      .ok ⟨marked base (n :: path), n :: path⟩ := if_pos (length_lt hpath hn hnew)
  rw [stepLoop, if_neg hmark, if_neg (not_not.mpr hn), hpush]
  rfl

end Node

/-- The search below a node, by induction on the nodes that are not on the path. -/
theorem searched (hb : ∀ a ∈ nodes, base a = false) (m : ℕ) (hm : nodes.length ≤ path.length + m)
    (hpath : OnPath nodes g path n) : Searched nodes g base path n := by
  induction m generalizing path n with
  | zero =>
    by_cases hp : n ∈ path
    · exact searched_of_mem hb hpath hp
    · refine searched_of_stray fun hn => ?_
      have hlt := length_lt hpath hn hp
      omega
  | succ m ih =>
    by_cases hp : n ∈ path
    · exact searched_of_mem hb hpath hp
    by_cases hn : n ∈ nodes
    case neg => exact searched_of_stray hn
    have hbn := hb n hn
    have hnode := stepLoop_node hb hpath hn hp
    have hdown : ∀ d b, g (.child d n) = some b → Searched nodes g base (n :: path) b :=
      fun d b hd => ih (by simp only [List.length_cons]; omega) (hpath.down hn hp hd)
    have hnil : ∀ a ∈ (ColorTree.nil : ColorTree (Address w)).inorder, a ∈ nodes := by
      simp [ColorTree.inorder]
    have hmemN : ∀ (L R : ColorTree (Address w)), (∀ a ∈ L.inorder, a ∈ nodes) →
        (∀ a ∈ R.inorder, a ∈ nodes) → ∀ a ∈ (ColorTree.node .black L n R).inorder, a ∈ nodes := by
      intro L R hL hR a ha
      simp only [ColorTree.inorder, List.mem_append, List.mem_cons] at ha
      rcases ha with ha | rfl | ha
      · exact hL a ha
      · exact hn
      · exact hR a ha
    have hright : ∀ (L : ColorTree (Address w)) (j : ℕ) (r : Address w),
        Unfolds g (g (.left n)) L → (∀ a ∈ L.inorder, a ∈ nodes) → j ≤ L.size + 1 →
        g (.right n) = some r →
        (∀ turns, stepLoop nodes g (turns + j) (some n) ⟨marked base path, path⟩ =
          stepLoop nodes g turns (some r) ⟨marked base (n :: path), n :: path⟩) →
        Searched nodes g base path n := by
      intro L j r hL hmemL hj hr hloop
      rcases hdown .right r hr with @⟨T, j', hT, hmem, hj', h⟩ | @⟨j', e, hbad, he, h⟩
      · refine .found (T := .node .black L n T) (j := j' + j) ⟨rfl, hL, hr ▸ hT⟩ ?_ ?_
          fun turns => ?_
        · intro a ha
          simp only [ColorTree.inorder, List.mem_append, List.mem_cons] at ha
          rcases ha with ha | rfl | ha
          · exact hmemL a ha
          · exact hn
          · exact hmem a ha
        · simp only [ColorTree.size]
          omega
        · rw [← Nat.add_assoc, hloop, h, resume_pop (.inr hr) hbn hp]
      · refine .failed (j := j' + j) (fun hends => hbad (hr ▸ endsIn_child hends .right)) he
          fun turns => ?_
        rw [← Nat.add_assoc, hloop, h]
    rcases hl : g (.left n) with _ | b
    · rcases hr : g (.right n) with _ | r
      · exact .found (T := .node .black .nil n .nil) (j := 1) ⟨rfl, hl, hr⟩
          (hmemN _ _ hnil hnil) (by simp [ColorTree.size])
          fun turns => by simp [hnode, hl, hr]
      · exact hright .nil 1 r hl hnil (by simp) hr fun turns => by simp [hnode, hl, hr]
    · have hleft : ∀ turns, stepLoop nodes g (turns + 1) (some n) ⟨marked base path, path⟩ =
          stepLoop nodes g turns (some b) ⟨marked base (n :: path), n :: path⟩ :=
        fun turns => by simp [hnode, hl]
      rcases hdown .left b hl with @⟨L, j, hL, hmem, hj, h⟩ | @⟨j, e, hbad, he, h⟩
      case failed =>
        refine .failed (j := j + 1) (fun hends => hbad (hl ▸ endsIn_child hends .left)) he
          fun turns => ?_
        rw [← Nat.add_assoc, hleft, h]
      rcases hr : g (.right n) with _ | r
      · refine .found (T := .node .black L n .nil) (j := j + 1) ⟨rfl, hl ▸ hL, hr⟩
          (hmemN _ _ hmem hnil) (by simp only [ColorTree.size]; omega) fun turns => ?_
        rw [← Nat.add_assoc, hleft, h, resume_pop (.inl hr) hbn hp]
      · by_cases hbr : b = r
        · subst hbr
          refine .found (T := .node .black L n L) (j := j + 1) ⟨rfl, hl ▸ hL, hr ▸ hL⟩
            (hmemN _ _ hmem hmem) (by simp only [ColorTree.size]; omega) fun turns => ?_
          rw [← Nat.add_assoc, hleft, h, resume_pop (.inr hr) hbn hp]
        · refine hright L (j + 1) r (hl ▸ hL) hmem (by omega) hr fun turns => ?_
          rw [← Nat.add_assoc, hleft, h, resume_right hr hbr]

theorem testParentStep_passes {t : Address w} (hb : ∀ a ∈ nodes, base a = false)
    (hends : EndsIn g {a | a ∈ nodes} (g (.root t))) :
    ∃ T, Unfolds g (g (.root t)) T ∧ (∀ a ∈ T.inorder, a ∈ nodes) ∧
      ∀ turns ≥ T.size, testParentStep turns nodes t g base = .ok ⟨base, []⟩ := by
  unfold testParentStep
  rcases hroot : g (.root t) with _ | n
  · exact ⟨.nil, rfl, nofun, fun turns _ => by simp [stepLoop]⟩
  · have hstart : OnPath nodes g [] n := ⟨.nil, nofun, trivial⟩
    rcases searched hb nodes.length (by simp) hstart with
      @⟨T, j, hT, hmem, hj, h⟩ | @⟨j, e, hbad, he, h⟩
    · refine ⟨T, hT, hmem, fun turns hturns => ?_⟩
      obtain ⟨k, rfl⟩ := Nat.exists_eq_add_of_le' (hj.trans hturns)
      exact (h k).trans (by cases k <;> rfl)
    · exact absurd (hroot ▸ hends) hbad

/-- The check ends on any memory. It passes, and leaves its marks as they were, exactly where
the child pointers below the root lead through finitely many nodes of the context. -/
theorem testParentStep_exact (nodes : List (Address w)) (t : Address w) (g : Slot w → Pointer w)
    (visited : Address w → Bool) (hb : ∀ a ∈ nodes, visited a = false) :
    (∃ T, Unfolds g (g (.root t)) T ∧ (∀ a ∈ T.inorder, a ∈ nodes) ∧
        ∀ turns ≥ T.size, testParentStep turns nodes t g visited = .ok ⟨visited, []⟩) ∨
      ¬EndsIn g {a | a ∈ nodes} (g (.root t)) ∧ ∃ j e, (e = .visitedTwice ∨ e = .strayNode) ∧
        ∀ turns ≥ j, testParentStep turns nodes t g visited = .error e := by
  by_cases hends : EndsIn g {a | a ∈ nodes} (g (.root t))
  · exact .inl (testParentStep_passes hb hends)
  · unfold testParentStep
    rcases hroot : g (.root t) with _ | n
    · exact absurd (hroot ▸ ⟨.nil, rfl, nofun⟩) hends
    · have hstart : OnPath nodes g [] n := ⟨.nil, nofun, trivial⟩
      rcases searched hb nodes.length (by simp) hstart with
        @⟨T, j, hT, hmem, hj, h⟩ | @⟨j, e, hbad, he, h⟩
      · exact absurd (hroot ▸ ⟨T, hT, hmem⟩) hends
      · refine .inr ⟨hbad, j, e, he, fun turns hturns => ?_⟩
        obtain ⟨k, rfl⟩ := Nat.exists_eq_add_of_le' hturns
        exact h k

/-- A node whose children are the node itself. -/
theorem testParentStep_exact_sample : ∃ j e, (e = .visitedTwice ∨ e = .strayNode) ∧
    ∀ turns ≥ j, testParentStep turns [cell 1] (cell 0) (fun _ => some (cell 1))
      (fun _ => false) = .error e := by
  have hno : ∀ T, ¬Unfolds (fun _ : Slot 6 => some (cell 1)) (some (cell 1)) T := by
    intro T
    induction T with
    | nil => exact nofun
    | node c l a r ihl _ => exact fun h => ihl h.2.1
  rcases testParentStep_exact [cell 1] (cell 0) (fun _ => some (cell 1))
    (fun _ => false) (fun _ _ => rfl) with ⟨T, hT, -⟩ | ⟨-, hfail⟩
  · exact absurd hT (hno T)
  · exact hfail

end Search

section Calls

variable {M : Region w} {Q : FieldHeap w → Prop} {m : FieldHeap w} {h h' : Heap w} {F : Forest w}
  {K : Address w → Bool} {c : Call w} {p p' : Prog w Unit} {tr : List (Command w)}
  {t : Address w} {T : ColorTree (Address w)}

theorem Underway.spares (hp : Underway M Q p h) (hst : Steps (machine packed) p h tr p' h') :
    Spares M h h' := by
  suffices hall : ∀ h₀, Spares M h₀ h → Spares M h₀ h' from hall h (.refl M h)
  induction hst with
  | refl p h => exact fun _ => id
  | step hc _ ih =>
    obtain ⟨hg, hp'⟩ := hp.command hc
    exact fun h₀ hs => ih hp' h₀ (hs.command hg hc)

/-- The call works in a region that is either apart from the tree `T` at `t`, or in which all
nodes belong to that tree before the call or after it. -/
def Confined (S : Sequences w) (c : Call w) (l ts : List (Address w)) (t : Address w)
    (T : ColorTree (Address w)) : Prop :=
  (t ∉ ts ∧ l.Disjoint T.inorder) ∨ ∀ a ∈ l, a ∈ T.inorder ∨ ∃ k, c.after S t = some k ∧ a ∈ k

/-- Every legal call stays in a region of this kind, whichever trees there are. -/
theorem Holds.exists_region (hh : Holds m F K) (hm : Refines m h)
    (hc : c.Legal F.sequences h.load) : ∃ l ts, Underway (regionOf l ts) (fun _ => True) c.code h ∧
      ∀ t T, F.tree t = some T → Confined F.sequences c l ts t T := by
  have hunderway : ∀ {l ts : List (Address w)} {Q : Unit → FieldHeap w → ℕ → Prop},
      Exec (regionOf l ts) c.code Q m → Underway (regionOf l ts) (fun _ => True) c.code h :=
    fun he => ⟨m, hm, exec_mono (fun _ _ _ _ => trivial) he⟩
  by_cases hch : c.Changes = true
  · obtain ⟨t₀, T₀, T', k, hT₀, hchange, hnd, hnew⟩ := hh.exists_change (hm.1 ▸ hc) hch
    obtain ⟨F', -, -, -, he⟩ := hh.exec_change hT₀ hchange hnd hnew
    refine ⟨_, _, hunderway he, fun t T hT => ?_⟩
    by_cases ht : t = t₀
    · subst ht
      obtain rfl := Option.some.inj (hT.symm.trans hT₀)
      refine .inr fun a ha => (List.mem_append.mp ha).imp_right fun hadd => ?_
      exact ⟨T'.inorder, by rw [hchange.after hT, Function.update_self], hchange.added_mem hadd⟩
    · refine .inl ⟨by simpa using ht, List.disjoint_append_left.mpr ⟨?_, fun n hn hnT => ?_⟩⟩
      · exact F.apart t₀ t T₀ T hT₀ hT (Ne.symm ht)
      · exact hnew n hn (F.linked_iff.mpr ⟨t, T, hT, hnT⟩)
  · cases c with
    | add t p l n | link p l n | unlink n | unlinkStale n => exact absurd rfl hch
    | treeInit t₀ =>
      obtain ⟨F', -, -, he⟩ := hh.exec_treeInit hc
      exact ⟨_, _, hunderway he, fun t T hT => .inr nofun⟩
    | nodeInit n =>
      refine ⟨_, _, hunderway (hh.exec_nodeInit hc), fun t T hT => .inl ⟨List.not_mem_nil, ?_⟩⟩
      exact List.singleton_disjoint.mpr fun hn => hc (F.linked_iff.mpr ⟨t, T, hT, hn⟩)
    | move dst src =>
      obtain ⟨hd, hl, hs⟩ := hc
      obtain ⟨D, hD⟩ : ∃ D, F.tree dst = some D := by
        simpa [Forest.sequences, ← Option.ne_none_iff_exists'] using hd
      obtain ⟨U, hU⟩ : ∃ U, F.tree src = some U := by
        simpa [Forest.sequences, ← Option.ne_none_iff_exists'] using hs
      obtain rfl : D = .nil := by
        rw [← ColorTree.root?_eq_none, ← (hh.tree dst D hD).load, hm.1, hl]
      obtain ⟨F', -, -, he⟩ := hh.exec_move hD hU
      refine ⟨_, _, hunderway he, fun t T hT => ?_⟩
      by_cases hts : t = src
      · subst hts
        obtain rfl := Option.some.inj (hT.symm.trans hU)
        exact .inr fun a ha => .inl ha
      by_cases htd : t = dst
      · subst htd
        refine .inr fun a ha => .inr ⟨U.inorder, ?_, ha⟩
        simp [Call.after, hts, Forest.sequences, hU]
      · exact .inl ⟨by simp [hts, htd], F.apart src t U T hU hT (Ne.symm hts)⟩

/-- Between any two commands of a call, a tree ends in its nodes, and in those that it gets. -/
theorem Confined.endsIn {l ts : List (Address w)} {A : Set (Address w)}
    (hd : Confined F.sequences c l ts t T) (hp : Underway (regionOf l ts) Q p h)
    (hst : Steps (machine packed) p h tr p' h') (hT : Unfolds h.load (h.load (.root t)) T)
    (hA : ∀ a ∈ T.inorder, a ∈ A) (hA' : ∀ k, c.after F.sequences t = some k → ∀ a ∈ k, a ∈ A) :
    EndsIn h'.load A (h'.load (.root t)) := by
  rcases hd with ⟨ht, hl⟩ | hmem
  · have hs := hp.spares hst
    have hsame : Unfolds h'.load (h.load (.root t)) T := by
      refine (unfolds_congr fun a ha => ?_).mpr hT
      have hal : a ∉ l := fun hal => hl hal ha
      exact ⟨hs.edge a hal .left, hs.edge a hal .right⟩
    exact ⟨T, by rwa [hs.root t ht], hA⟩
  · refine (hp.endsIn (fun a ha => ?_) hst ⟨T, hT, hA⟩).2
    rcases hmem a ha with haT | ⟨k, hk, hak⟩
    · exact hA a haT
    · exact hA' k hk a hak

end Calls

section Run

variable {h₀ h h' : Heap w} {cs : List (Call w)} {tr tr' : List (Command w)} {S : Sequences w}
  {c : Call w} {t : Address w} {p : Prog w Unit} {nodes : List (Address w)}
  {visited : Address w → Bool}

theorem Run.endsIn_steps (hr : Run packed h₀ cs tr h S) (hc : c.Legal S h.load) (ht : S t ≠ none)
    (hs : Steps (machine packed) c.code h tr' p h')
    (hnodes : ∀ l, S t = some l ∨ c.after S t = some l → ∀ a ∈ l, a ∈ nodes) :
    EndsIn h'.load {a | a ∈ nodes} (h'.load (.root t)) := by
  obtain ⟨m, F, -, hm, rfl, hh, -⟩ := hr.holds
  obtain ⟨l, hl⟩ := Option.ne_none_iff_exists'.mp ht
  obtain ⟨T, hT, rfl, hu⟩ := hh.mem_iff hl
  obtain ⟨k, ts, hp, hconfined⟩ := hh.exists_region hm hc
  exact (hconfined t T hT).endsIn hp hs (hm.1 ▸ hu) (hnodes _ (.inl hl))
    fun k hk => hnodes k (.inr hk)

/-- After every command of every call the check passes on every tree. -/
theorem run_checked (hr : Run packed h₀ cs tr h S) (hc : c.Legal S h.load) (ht : S t ≠ none)
    (hs : Steps (machine packed) c.code h tr' p h')
    (hnodes : ∀ l, S t = some l ∨ c.after S t = some l → ∀ a ∈ l, a ∈ nodes)
    (hv : ∀ a ∈ nodes, visited a = false) :
    ∃ T, Unfolds h'.load (h'.load (.root t)) T ∧
      ∀ turns ≥ T.size, testParentStep turns nodes t h'.load visited = .ok ⟨visited, []⟩ := by
  obtain ⟨U, hU, -, hpass⟩ := testParentStep_passes hv (hr.endsIn_steps hc ht hs hnodes)
  exact ⟨U, hU, hpass⟩

/-- In a removal, when the successor has its new children but is not linked yet, and in a move,
when both roots lead to the tree. -/
theorem run_checked_sample :
    (∃ tr p h', ∃ T : ColorTree (Address 6),
      Steps (machine packed) (Call.unlinkStale (cell 6)).code sampleHeap tr p h' ∧
      (h'.load (.left (cell 7)) = some (cell 3) ∧ h'.load (.root (cell 1)) = some (cell 6)) ∧
      ∀ turns ≥ T.size, testParentStep turns
        [cell 3, cell 4, cell 6, cell 7, cell 8, cell 10, cell 9] (cell 1) h'.load
          (fun _ => false) = .ok ⟨fun _ => false, []⟩) ∧
    ∃ tr p h', ∃ T : ColorTree (Address 6),
      Steps (machine packed) (Call.move (cell 2) (cell 1)).code
        (sampleHeap.store (.root (cell 2)) none) tr p h' ∧
      (h'.load (.root (cell 2)) = some (cell 6) ∧ h'.load (.root (cell 1)) = some (cell 6)) ∧
      ∀ turns ≥ T.size, testParentStep turns
        [cell 3, cell 4, cell 6, cell 7, cell 8, cell 10, cell 9] (cell 2) h'.load
          (fun _ => false) = .ok ⟨fun _ => false, []⟩ := by
  have hpoint : ∀ {cs : List (Call 6)} {tr : List (Command 6)} {h : Heap 6} {S : Sequences 6}
      (_ : Run packed zeroes cs tr h S) (k : ℕ) (c : Call 6) (t : Address 6) (P : Heap 6 → Prop)
      [DecidablePred P],
      (advance (machine packed) k c.code h).any (fun x => decide (P x.2.2)) = true →
      c.Legal S h.load → S t ≠ none → ∀ nodes,
      (∀ l, S t = some l ∨ c.after S t = some l → ∀ a ∈ l, a ∈ nodes) →
      ∃ tr p h', ∃ T : ColorTree (Address 6), Steps (machine packed) c.code h tr p h' ∧ P h' ∧
        ∀ turns ≥ T.size, testParentStep turns nodes t h'.load (fun _ => false) =
          .ok ⟨fun _ => false, []⟩ := by
    intro cs tr h S hr k c t P _ hP hc ht nodes hnodes
    obtain ⟨tr', p, h', hs, hP⟩ := exists_steps hP
    obtain ⟨T, -, hpass⟩ := run_checked hr hc ht hs hnodes fun _ _ => rfl
    exact ⟨tr', p, h', T, hs, hP, hpass⟩
  have hmoved : Run packed zeroes (sampleCalls ++ [.treeInit (cell 2)]) _ _ _ :=
    .call (c := .treeInit (cell 2)) run_sample (run_sample.legal (by decide +kernel)) rfl
  constructor
  · refine hpoint run_sample 25 (.unlinkStale (cell 6)) (cell 1) (fun h =>
      h.load (.left (cell 7)) = some (cell 3) ∧ h.load (.root (cell 1)) = some (cell 6))
      (by decide +kernel) (run_sample.legal (by decide +kernel)) (by simp [sampleLists_second])
      _ ?_
    rintro l (hl | hl) a ha
    · obtain rfl := Option.some.inj (sampleLists_second.symm.trans hl)
      exact ha
    · simp only [Call.after, sampleLists_second, Option.map_some, Option.some.injEq] at hl
      exact List.mem_of_mem_erase (hl ▸ ha)
  · refine hpoint hmoved 9 (.move (cell 2) (cell 1)) (cell 2) (fun h =>
      h.load (.root (cell 2)) = some (cell 6) ∧ h.load (.root (cell 1)) = some (cell 6))
      (by decide +kernel) (hmoved.legal (by decide +kernel)) (by simp [Call.after]) _ ?_
    have hafter : (Call.move (cell 2) (cell 1)).after ((Call.treeInit (cell 2)).after sampleLists)
        (cell 2) = some [cell 3, cell 4, cell 6, cell 7, cell 8, cell 10, cell 9] := by
      decide +kernel
    rintro l (hl | hl) a ha
    · simp only [Call.after, Function.update_self, Option.some.injEq] at hl
      exact absurd (hl ▸ ha) List.not_mem_nil
    · obtain rfl := Option.some.inj (hafter.symm.trans hl)
      exact ha

end Run

end CRbtree
