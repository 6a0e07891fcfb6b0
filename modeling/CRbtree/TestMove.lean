import CRbtree.AddressOrder

set_option autoImplicit false

/-!
test_move() of test-misc.c, which moves a tree and drains it, as a whole program.
-/

namespace CRbtree
open RedBlack TaggedPointers PointerGraphs Programs

variable {w : ℕ} {α : Type}

/-- The loop of test_move() that fills the tree. -/
def initInsertAll (t : Pointer w) : List (Address w) → Prog w Unit
  | [] => pure ()
  | a :: as => do
    rbnodeInit (some a)
    testInsert t (some a)
    initInsertAll t as

/-- test_move() after this loop, with so many turns for its last loop. -/
def testMoveFilled (turns : ℕ) (t₁ t₂ : Pointer w) : Prog w Unit := do
  cAssert !(← rbtreeIsEmpty t₁)
  cAssert (← rbtreeIsEmpty t₂)
  rbtreeMove t₂ t₁
  cAssert (← rbtreeIsEmpty t₁)
  cAssert !(← rbtreeIsEmpty t₂)
  drain t₂ turns
  cAssert (← rbtreeIsEmpty t₁)
  cAssert (← rbtreeIsEmpty t₂)

def testMove (turns : ℕ) (t₁ t₂ : Pointer w) (nodes : List (Address w)) : Prog w Unit := do
  rbtreeInit t₁
  rbtreeInit t₂
  initInsertAll t₁ nodes
  testMoveFilled turns t₁ t₂

section Moves

variable {h₀ h : Heap w} {cs : List (Call w)} {tr : List (Command w)} {S : Sequences w}
  {t t₁ t₂ : Address w} {l as : List (Address w)} {b : Bool}

theorem Run.exists_initInsertAll (hr : Run packed h₀ cs tr h S) (hl : S t = some l)
    (hs : Sorted position l) (hfree : ∀ a ∈ as, ¬Linked S a) (hnd : as.Nodup) :
    ∃ h' tr₁ cs' tr' l', run (machine packed) (initInsertAll (some t) as) h = .ok ((), h', tr₁) ∧
      Run packed h₀ cs' tr' h' (Function.update S t (some l')) ∧
      l'.length = as.length + l.length := by
  induction as generalizing h cs tr S l with
  | nil => exact ⟨h, [], cs, tr, l, rfl, by rwa [← hl, Function.update_eq_self], by simp⟩
  | cons a as ih =>
    have ha := hfree a List.mem_cons_self
    obtain ⟨h₁, tr₁, hinit, hr₁⟩ := hr.exists_call (c := .nodeInit a) ha
    obtain ⟨c, h₂, tr₂, tr₃, hinsert, hr₂, -, hs₂⟩ :=
      hr₁.exists_insert hl hs ha (by rw [settled_concat]; simp [Call.settles])
    have hfree₂ : ∀ n ∈ as, ¬Linked (Function.update S t (some (inserted a l))) n := by
      rintro n hn ⟨t', l', hl', hmem⟩
      by_cases ht : t' = t
      · subst ht
        rw [Function.update_self, Option.some.injEq] at hl'
        subst hl'
        rcases List.mem_cons.mp ((inserted_perm a l).mem_iff.mp hmem) with rfl | hmem
        · exact (List.nodup_cons.mp hnd).1 hn
        · exact hfree n (List.mem_cons_of_mem a hn) ⟨t', l, hl, hmem⟩
      · rw [Function.update_of_ne ht] at hl'
        exact hfree n (List.mem_cons_of_mem a hn) ⟨t', l', hl', hmem⟩
    obtain ⟨h', tr₄, cs', tr', l', hrun, hr', hlen⟩ :=
      ih hr₂ (Function.update_self ..) hs₂ hfree₂ (List.nodup_cons.mp hnd).2
    rw [Function.update_idem] at hr'
    refine ⟨h', _, cs', tr', l', run_bind hinit (run_bind hinsert hrun), hr', ?_⟩
    rw [hlen, (inserted_perm a l).length_eq, List.length_cons, List.length_cons]
    omega

/-- A tree is empty if and only if nothing is linked in it. -/
theorem Run.returns_isEmpty (hr : Run packed h₀ cs tr h S) (hl : S t = some l) :
    Returns h (rbtreeIsEmpty (some t)) l.isEmpty := by
  refine ⟨[.load (.root t)], ?_⟩
  have hrun : run (machine packed) (rbtreeIsEmpty (some t)) h =
      .ok ((h.load (.root t)).isNone, h, [.load (.root t)]) := rfl
  rcases hr.root_cases hl with ⟨hroot, rfl⟩ | ⟨n, hn, hroot⟩
  · rw [hrun, hroot]
    rfl
  · rw [hrun, hroot, List.isEmpty_eq_false_iff_exists_mem.mpr ⟨n, hn⟩]
    rfl

theorem run_check {q : Prog w Bool} {p : Prog w α} {f : Bool → Bool} {x : α} {h' : Heap w}
    (hq : Returns h q b) (hf : f b = true) (hp : ∃ tr, run (machine packed) p h = .ok (x, h', tr)) :
    ∃ tr, run (machine packed) (do
      cAssert (f (← q))
      p) h = .ok (x, h', tr) := by
  obtain ⟨tr₁, hrun⟩ := hq
  obtain ⟨tr₂, hp⟩ := hp
  have hassert : run (machine packed) (cAssert (f b) : Prog w Unit) h = .ok ((), h, []) := by
    rw [hf]
    rfl
  exact ⟨_, run_bind hrun (run_bind hassert hp)⟩

theorem Run.testMoveFilled_passes {turns : ℕ} (hr : Run packed h₀ cs tr h S) (ht : t₁ ≠ t₂)
    (hl₁ : S t₁ = some l) (hl₂ : S t₂ = some []) (hne : l ≠ []) (hturns : l.length ≤ turns) :
    ∃ h' tr', run (machine packed) (testMoveFilled turns (some t₁) (some t₂)) h =
      .ok ((), h', tr') := by
  have hcons : l.isEmpty = false := List.isEmpty_eq_false_iff.mpr hne
  obtain ⟨hroot, -⟩ := (hr.root_cases hl₂).resolve_right fun ⟨n, hn, _⟩ => by cases hn
  obtain ⟨h₁, tr₁, hmove, hr₁⟩ := hr.exists_call (c := .move t₂ t₁)
    ⟨by simp [hl₂], hroot, by simp [hl₁]⟩
  have hmoved₁ : (Call.move t₂ t₁).after S t₁ = some [] := by simp [Call.after]
  have hmoved₂ : (Call.move t₂ t₁).after S t₂ = some l := by simp [Call.after, ht.symm, hl₁]
  obtain ⟨ns, h₂, tr₂, -, hr₂, -, hdrain⟩ := hr₁.drained l.length hmoved₂ rfl
  obtain ⟨k, rfl⟩ := Nat.exists_eq_add_of_le' hturns
  obtain ⟨tr₃, hdrain⟩ := hdrain k
  have hdrained₁ : Function.update ((Call.move t₂ t₁).after S) t₂ (some []) t₁ = some [] := by
    rw [Function.update_of_ne ht, hmoved₁]
  obtain ⟨tr₄, hlast⟩ := hr₂.returns_isEmpty (t := t₂) (l := []) (Function.update_self ..)
  obtain ⟨tr₅, hend⟩ := run_check (f := id) (hr₂.returns_isEmpty hdrained₁) rfl
    ⟨_, run_bind (k := fun b => cAssert b) hlast rfl⟩
  have hmid := run_check (f := id) (hr₁.returns_isEmpty hmoved₁) rfl
    (run_check (f := not) (hr₁.returns_isEmpty hmoved₂) (by rw [hcons]; rfl)
      ⟨_, run_bind (k := fun _ => _) hdrain hend⟩)
  obtain ⟨tr₆, hmid⟩ := hmid
  obtain ⟨tr₇, hrun⟩ := run_check (f := not) (hr.returns_isEmpty hl₁) (by rw [hcons]; rfl)
    (run_check (f := id) (hr.returns_isEmpty hl₂) rfl ⟨_, run_bind (k := fun _ => _) hmove hmid⟩)
  exact ⟨h₂, tr₇, hrun⟩

theorem Run.testMoveFilled_stops {turns : ℕ} (hr : Run packed h₀ cs tr h S)
    (hl : S t₁ = some []) :
    run (machine packed) (testMoveFilled turns (some t₁) (some t₂)) h = .error .assertion := by
  obtain ⟨tr', hempty⟩ := hr.returns_isEmpty hl
  exact run_bind_error hempty rfl

/-- test_move() passes for any number of nodes that its counter can hold, but zero. -/
theorem testMove_exact {nodes : List (Address w)} (ht : t₁ ≠ t₂) (hnd : nodes.Nodup)
    (_hlen : nodes.length < 2 ^ 32) {turns : ℕ} (hturns : nodes.length ≤ turns) (h : Heap w) :
    (nodes ≠ [] → ∃ h' tr,
      run (machine packed) (testMove turns (some t₁) (some t₂) nodes) h = .ok ((), h', tr)) ∧
    (nodes = [] → run (machine packed) (testMove turns (some t₁) (some t₂) nodes) h =
      .error .assertion) := by
  have hr₀ : Run packed h [] [] h fun _ => none := .start
  obtain ⟨h₁, tr₁, hinit₁, hr₁⟩ := hr₀.exists_call (c := .treeInit t₁) (by simp [Call.Legal])
  obtain ⟨h₂, tr₂, hinit₂, hr₂⟩ := hr₁.exists_call (c := .treeInit t₂)
    (by simp [Call.Legal, Call.after, ht.symm])
  generalize hS : (Call.treeInit t₂).after ((Call.treeInit t₁).after fun _ => none) = S at hr₂
  have hl₁ : S t₁ = some [] := by simp [← hS, Call.after, ht]
  have hl₂ : S t₂ = some [] := by simp [← hS, Call.after]
  have hfree : ∀ a ∈ nodes, ¬Linked S a := by
    rintro a - ⟨t, l, hl, hmem⟩
    have hnil : l = [] := by
      by_cases ht₂ : t = t₂
      · simpa [ht₂, hl₂] using hl.symm
      · by_cases ht₁ : t = t₁
        · simpa [ht₁, hl₁] using hl.symm
        · simp [← hS, Call.after, ht₁, ht₂] at hl
    simp [hnil] at hmem
  obtain ⟨h₃, tr₃, cs₃, tr₃', l, hfill, hr₃, hlen⟩ :=
    hr₂.exists_initInsertAll hl₁ .nil hfree hnd
  rw [List.length_nil, Nat.add_zero] at hlen
  refine ⟨fun hne => ?_, fun hnil => ?_⟩
  · have hl : l ≠ [] := fun hnil => hne (List.length_eq_zero_iff.mp (by rw [← hlen, hnil]; rfl))
    obtain ⟨h', tr₄, hrun⟩ := hr₃.testMoveFilled_passes ht (Function.update_self ..)
      (by rw [Function.update_of_ne ht.symm, hl₂]) hl (hlen.trans_le hturns)
    exact ⟨h', _, run_bind hinit₁ (run_bind hinit₂ (run_bind hfill hrun))⟩
  · obtain rfl : l = [] := List.length_eq_zero_iff.mp (by rw [hlen, hnil]; rfl)
    exact run_bind_error hinit₁ (run_bind_error hinit₂
      (run_bind_error hfill (hr₃.testMoveFilled_stops (Function.update_self ..))))

end Moves

theorem testMove_exact_sample : ∃ h' tr, run (machine packed) (testMove 5 (some (cell 0))
    (some (cell 1)) [cell 6, cell 4, cell 9, cell 2, cell 3]) sampleHeap = .ok ((), h', tr) :=
  (testMove_exact (by decide) (by decide) (by decide) (by decide) _).1 (by decide)

end CRbtree
