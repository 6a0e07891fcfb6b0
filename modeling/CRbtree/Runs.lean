import CRbtree.Replay
import CRbtree.Soundness

set_option autoImplicit false

/-!
Runs of legal calls: none gets stuck, and what holds after each call.
-/

namespace CRbtree
open RedBlack TaggedPointers PointerGraphs Programs

variable {w : ℕ}

/-- The same pointers, and nothing known of the words. -/
def blank (h : Heap w) : FieldHeap w where
  node n := ⟨.unknown, (h.node n).left, (h.node n).right⟩
  tree := h.tree

theorem refines_blank (h : Heap w) : Refines (blank h) h := by
  refine ⟨?_, fun _ => trivial⟩
  funext s
  cases s <;> rfl

/-- Whether the node has been initialised, or removed by c_rbnode_unlink(), since it was
last removed by c_rbnode_unlink_stale(). -/
def settled (cs : List (Call w)) (n : Address w) : Bool :=
  cs.foldl (fun b c => c.settles n b) false

theorem settled_concat (cs : List (Call w)) (c : Call w) (n : Address w) :
    settled (cs ++ [c]) n = c.settles n (settled cs n) := by
  simp [settled]

/-- It is enough to be initialised and never to be removed by c_rbnode_unlink_stale(). -/
theorem settled_of_mem {cs : List (Call w)} {n : Address w} (hi : .nodeInit n ∈ cs)
    (hs : .unlinkStale n ∉ cs) : settled cs n = true := by
  induction cs using List.reverseRecOn with
  | nil => simp at hi
  | append_singleton cs c ih =>
    rw [settled_concat]
    simp only [List.mem_append, List.mem_singleton, not_or] at hi hs
    rcases hi with hi | rfl
    · have hset := ih hi hs.1
      cases c with
      | unlinkStale a =>
        have hne : a ≠ n := by
          rintro rfl
          exact hs.2 rfl
        simp [Call.settles, hset, hne]
      | treeInit t | nodeInit a | add t p l a | link p l a | unlink a | move dst src =>
        simp [Call.settles, hset]
    · simp [Call.settles]

/-- What one legal call does, on separate fields and on packed words at once. -/
theorem Holds.step {m : FieldHeap w} {h : Heap w} {F : Forest w} {K : Address w → Bool} {c : Call w}
    (hh : Holds m F K) (hm : Refines m h) (hc : c.Legal F.sequences h.load) :
    ∃ m' h' tr, ∃ F' : Forest w, run (machine separate) c.code m = .ok ((), m', tr) ∧
      run (machine packed) c.code h = .ok ((), h', tr) ∧ Refines m' h' ∧
      F'.sequences = c.after F.sequences ∧ Holds m' F' (fun n => c.settles n (K n)) ∧
      (tr.map turnCost).sum + F'.potential ≤ F.potential + if c.Changes then 2 else 0 := by
  obtain ⟨M, F', hseq, he⟩ := hh.exec_call (hm.1 ▸ hc)
  obtain ⟨⟨⟩, m', tr, hrun, ⟨hh', hpot⟩, -⟩ := wp_sound he
  obtain ⟨h', hrun', hm'⟩ := run_packed hm hrun
  exact ⟨m', h', tr, F', hrun, hrun', hm', hseq, hh', hpot⟩

/-- A run on packed words is a run on separate fields that holds a forest. -/
theorem Run.holds {h₀ h : Heap w} {cs : List (Call w)} {tr : List (Command w)} {S : Sequences w}
    (hr : Run packed h₀ cs tr h S) :
    ∃ m, ∃ F : Forest w, Run separate (blank h₀) cs tr m S ∧ Refines m h ∧ F.sequences = S ∧
      Holds m F (settled cs) ∧
      (tr.map turnCost).sum + F.potential ≤ 2 * cs.countP Call.Changes := by
  induction hr with
  | start =>
    refine ⟨blank h₀, .empty, .start, refines_blank h₀, rfl, ⟨nofun, nofun⟩, ?_⟩
    simp [Forest.potential, Forest.empty, potential?]
  | @call cs tr tr' h h' S c hr hc hrun ih =>
    obtain ⟨m, F, hrm, hm, rfl, hh, hpot⟩ := ih
    obtain ⟨m', h'', tr'', F', hrun₁, hrun₂, hm', hseq, hh', hpot'⟩ := hh.step hm hc
    rw [hrun] at hrun₂
    cases hrun₂
    refine ⟨m', F', .call hrm (hm.1 ▸ hc) hrun₁, hm', hseq, ?_, ?_⟩
    · rwa [show settled (cs ++ [c]) = _ from funext (settled_concat cs c)]
    · rw [List.map_append, List.sum_append, List.countP_append, List.countP_singleton]
      split at hpot' <;> rename_i hch <;> simp only [hch] <;> simp <;> omega

/-- A legal call never fails, so every run goes on. -/
theorem Run.exists_call {h₀ h : Heap w} {cs : List (Call w)} {tr : List (Command w)}
    {S : Sequences w} {c : Call w} (hr : Run packed h₀ cs tr h S) (hc : c.Legal S h.load) :
    ∃ h' tr', run (machine packed) c.code h = .ok ((), h', tr') ∧
      Run packed h₀ (cs ++ [c]) (tr ++ tr') h' (c.after S) := by
  obtain ⟨m, F, -, hm, rfl, hh, -⟩ := hr.holds
  obtain ⟨m', h', tr', F', -, hrun, -⟩ := hh.step hm hc
  exact ⟨h', tr', hrun, .call hr hc hrun⟩

theorem Run.wellFormed {h₀ h : Heap w} {cs : List (Call w)} {tr : List (Command w)}
    {S : Sequences w} (hr : Run packed h₀ cs tr h S) : WellFormed h S := by
  obtain ⟨m, F, -, hm, rfl, hh, -⟩ := hr.holds
  exact hh.wellFormed hm

theorem Run.inOrder {h₀ h : Heap w} {cs : List (Call w)} {tr : List (Command w)}
    {S : Sequences w} (hr : Run packed h₀ cs tr h S) {t : Address w} {l : List (Address w)}
    (hl : S t = some l) : InOrder h.load (h.load (.root t)) l := by
  obtain ⟨m, F, -, hm, rfl, hh, -⟩ := hr.holds
  obtain ⟨T, hT, rfl, hu⟩ := hh.mem_iff hl
  exact hm.1 ▸ hu.inOrder

section Guarantees

variable {h₀ h : Heap w} {cs : List (Call w)} {tr : List (Command w)} {S : Sequences w}

theorem sum_turnCost (tr : List (Command w)) :
    (tr.map turnCost).sum = tr.count (.turn .paint) + 2 * tr.count (.turn .rebalance) := by
  induction tr with
  | nil => rfl
  | cons c tr ih =>
    rw [List.map_cons, List.sum_cons, ih, List.count_cons, List.count_cons]
    rcases c with _ | _ | _ | _ | _ | _ | (_ | _) | _ <;> simp [turnCost] <;> omega

/-- After every call the trees are red-black trees of exactly the linked nodes, whichever
legal call comes next. -/
theorem run_wellFormed (hr : Run packed h₀ cs tr h S) :
    WellFormed h S ∧ ∀ c : Call w, c.Legal S h.load →
      ∃ h' tr', run (machine packed) c.code h = .ok ((), h', tr') ∧ WellFormed h' (c.after S) := by
  refine ⟨hr.wellFormed, fun c hc => ?_⟩
  obtain ⟨h', tr', hrun, hr'⟩ := hr.exists_call hc
  exact ⟨h', tr', hrun, hr'.wellFormed⟩

/-- Ten nodes in two trees, and the removal of a root with two children. -/
theorem run_wellFormed_sample : WellFormed sampleHeap sampleLists ∧
    ∃ h' tr', run (machine packed) (Call.unlink (cell 6)).code sampleHeap = .ok ((), h', tr') ∧
      WellFormed h' ((Call.unlink (cell 6)).after sampleLists) := by
  obtain ⟨hwf, hnext⟩ := run_wellFormed run_sample
  exact ⟨hwf, hnext (.unlink (cell 6)) (run_sample.legal (by decide +kernel))⟩

/-- The in-order lists in memory are the abstract ones, before and after every legal call. -/
theorem run_inOrder (hr : Run packed h₀ cs tr h S) :
    (∀ t l, S t = some l → InOrder h.load (h.load (.root t)) l) ∧
      ∀ c : Call w, c.Legal S h.load → ∃ h' tr', run (machine packed) c.code h = .ok ((), h', tr') ∧
        ∀ t l, c.after S t = some l → InOrder h'.load (h'.load (.root t)) l := by
  refine ⟨fun t l => hr.inOrder, fun c hc => ?_⟩
  obtain ⟨h', tr', hrun, hr'⟩ := hr.exists_call hc
  exact ⟨h', tr', hrun, fun t l => hr'.inOrder⟩

/-- The lists after links, unlinks and a move, and after one more node is put between two. -/
theorem run_inOrder_sample :
    InOrder sampleHeap.load (sampleHeap.load (.root (cell 0))) [cell 5, cell 12, cell 13] ∧
    InOrder sampleHeap.load (sampleHeap.load (.root (cell 1)))
      [cell 3, cell 4, cell 6, cell 7, cell 8, cell 10, cell 9] ∧
    ∃ h' tr', run (machine packed) (Call.link (cell 7) (.left (cell 7)) (cell 2)).code sampleHeap =
        .ok ((), h', tr') ∧
      InOrder h'.load (h'.load (.root (cell 1)))
        [cell 3, cell 4, cell 6, cell 2, cell 7, cell 8, cell 10, cell 9] := by
  obtain ⟨hin, hnext⟩ := run_inOrder run_sample
  refine ⟨hin _ _ sampleLists_first, hin _ _ sampleLists_second, ?_⟩
  obtain ⟨h', tr', hrun, hin'⟩ := hnext (.link (cell 7) (.left (cell 7)) (cell 2))
    (run_sample.legal (by decide +kernel))
  exact ⟨h', tr', hrun, hin' _ _ (by decide +kernel)⟩

/-- No legal call fails an assertion, follows NULL or loops for ever. -/
theorem run_progress {c : Call w} (hr : Run packed h₀ cs tr h S) (hc : c.Legal S h.load) :
    ∃ h' tr', run (machine packed) c.code h = .ok ((), h', tr') := by
  obtain ⟨h', tr', hrun, -⟩ := hr.exists_call hc
  exact ⟨h', tr', hrun⟩

/-- An insertion that rotates, and the removal of a root with a successor further down. -/
theorem run_progress_sample :
    (∃ h' tr', run (machine packed)
      (rbnodeLink (some (cell 8)) (some (.right (cell 8))) (some (cell 2))) sampleHeap =
        .ok ((), h', tr')) ∧
      ∃ h' tr', run (machine packed) (rbnodeUnlinkStale (some (cell 6))) sampleHeap =
        .ok ((), h', tr') :=
  ⟨run_progress (c := .link (cell 8) (.right (cell 8)) (cell 2)) run_sample
      (run_sample.legal (by decide +kernel)),
    run_progress (c := .unlinkStale (cell 6)) run_sample (run_sample.legal (by decide +kernel))⟩

/-- The recolouring turns are amortised constant. -/
theorem run_turns_le (hr : Run packed h₀ cs tr h S) :
    tr.count (.turn .paint) + 2 * tr.count (.turn .rebalance) ≤ 2 * cs.countP Call.Changes := by
  obtain ⟨m, F, -, -, -, -, hpot⟩ := hr.holds
  rw [sum_turnCost] at hpot
  omega

/-- Turns of both loops. -/
theorem run_turns_le_sample : sampleTrace.count (.turn .paint) = 4 ∧
    sampleTrace.count (.turn .rebalance) = 1 ∧
    sampleTrace.count (.turn .paint) + 2 * sampleTrace.count (.turn .rebalance) ≤ 2 * 18 :=
  ⟨by decide +kernel, by decide +kernel, run_turns_le run_sample⟩

/-- The accessors on packed words, each by the one command it issues. -/
theorem run_accessors (h : Heap w) (n : Address w) :
    run (machine packed) (rbnodeParent (some n)) h = .ok (parentOf (h.link n), h, [.parent n]) ∧
      run (machine packed) (rbnodeRaw (some n)) h = .ok (rawOf (h.link n), h, [.raw n]) ∧
      run (machine packed) (rbnodeIsRed (some n)) h = .ok (isRedOf (h.link n), h, [.flags n]) ∧
      run (machine packed) (rbnodeIsRoot (some n)) h = .ok (isRootOf (h.link n), h, [.flags n]) ∧
      run (machine packed) (rbnodeIsLinked (some n)) h =
        .ok (parentOf (h.link n) != some n, h, [.parent n]) :=
  ⟨rfl, rfl, rfl, rfl, rfl⟩

/-- What the fields of the members say: which one is the root, and of which tree. -/
theorem Holds.fields {m : FieldHeap w} {F : Forest w} {K : Address w → Bool} (hh : Holds m F K)
    {t : Address w} {l : List (Address w)} (hl : F.sequences t = some l) {n : Address w}
    (hn : n ∈ l) : ∃ p c,
      m.link n = .linked p c (if m.load (.root t) = some n then some t else none) ∧
      p ≠ some n ∧ (p = none ↔ m.load (.root t) = some n) ∧
      ∀ q, p = some q → ∃ d, m.load (.child d q) = some n := by
  obtain ⟨T, hT, rfl, hu⟩ := hh.mem_iff hl
  obtain ⟨ctx, c, l, r, rfl⟩ := exists_fill_of_mem hn
  obtain ⟨hj, -⟩ := treeAt_fill.mp (hh.tree t _ hT)
  have hctx : n ∉ elems ctx :=
    (List.nodup_append'.mp (nodup_fill.mp (F.nodup t _ hT))).2.2 (by simp [ColorTree.inorder])
  rw [hu.root?, hj.2.1]
  cases ctx with
  | nil => exact ⟨none, c, by simp [linkAt, treeOf, Slot.holder, ColorTree.root?], by simp,
      by simp [ColorTree.root?], nofun⟩
  | cons f ctx =>
    obtain ⟨x, hx, hroot⟩ := root?_fill_cons f ctx (.node c l n r)
    have hxn : x ≠ n := by
      rintro rfl
      exact hctx hx
    refine ⟨some f.label, c, by simp [hroot, hxn], ?_, by simp [hroot, hxn], ?_⟩
    · rintro hf
      obtain rfl := Option.some.inj hf
      simp [elems] at hctx
    · rintro _ h
      cases h
      exact ⟨f.side, hj.1⟩

/-- c_rbnode_is_linked() tells the members among the nodes that are initialised or members. -/
theorem Run.isLinked (hr : Run packed h₀ cs tr h S) {n : Address w} (hn : settled cs n = true) :
    ∃ b, run (machine packed) (rbnodeIsLinked (some n)) h = .ok (b, h, [.parent n]) ∧
      (b = true ↔ Linked S n) := by
  obtain ⟨m, F, -, hm, rfl, hh, -⟩ := hr.holds
  refine ⟨_, (run_accessors h n).2.2.2.2, ?_⟩
  by_cases hl : Linked F.sequences n
  · obtain ⟨t, l, ht, hnl⟩ := id hl
    obtain ⟨p, c, hk, hp, -⟩ := hh.fields ht hnl
    simpa [(packs_linked (hk ▸ hm.2 n)).1, hl] using hp
  · have hp := hm.2 n
    rw [hh.marked n hn hl] at hp
    simp [packs_parent hp rfl, hl]

end Guarantees

end CRbtree
