import CRbtree.Stores
import CRbtree.TraversalCosts
import Mathlib.Data.Nat.Log

set_option autoImplicit false

/-!
What calls cost in every state of every run: a logarithmic number of accesses each, and a
constant number of stores on average.
-/

namespace CRbtree
open RedBlack TaggedPointers PointerGraphs Programs

section Turns

variable {α : Type}

theorem repaintTurns_le (ctx : Context α) (t : ColorTree α) : repaintTurns ctx t ≤ ctx.length := by
  fun_induction repaintTurns ctx t with
  | case1 => simp
  | case2 => simp
  | case3 => simp
  | case4 f g ctx t _ _ ih => simp only [List.length_cons]; omega
  | case5 => simp

theorem rebalanceTurns_le (ctx : Context α) (t : ColorTree α) :
    rebalanceTurns ctx t ≤ ctx.length := by
  fun_induction rebalanceTurns ctx t with
  | case1 => simp
  | case2 => simp
  | case3 => simp
  | case4 f ctx t _ _ ih => simpa using ih

theorem closeTurns_le (ctx : Context α) (c : Color) (t : ColorTree α) :
    closeTurns ctx c t ≤ ctx.length := by
  unfold closeTurns
  split
  · split
    · exact rebalanceTurns_le ctx .nil
    · exact Nat.zero_le _
  · exact Nat.zero_le _

/-- The successor is no deeper than the tree is high. -/
theorem length_unlinkHole_le (ctx : Context α) (t : ColorTree α) :
    (unlinkHole ctx t).1.length ≤ (fill ctx t).height := by
  have hctx := length_add_height_le ctx t
  fun_cases unlinkHole ctx t with
  | case1 => exact (Nat.le_add_right _ _).trans hctx
  | case2 c a r => exact (Nat.le_add_right _ _).trans hctx
  | case3 => exact (Nat.le_add_right _ _).trans hctx
  | case4 c l a r _ hr path cs s child x hd =>
    obtain ⟨path', cs', s', child', hd', hfill, -⟩ := descend_eq [] (t := r) hr
    rw [hd, List.append_nil] at hd'
    obtain rfl : path = path' := congrArg Prod.fst hd'
    have hpath := length_add_height_le path (.node cs' .nil s' child')
    rw [hfill] at hpath
    simp only [ColorTree.height] at hctx hpath
    simp only [List.length_append, List.length_cons]
    omega
  | case5 => exact (Nat.le_add_right _ _).trans hctx

theorem unlinkTurns_le (ctx : Context α) (t : ColorTree α) :
    unlinkTurns ctx t ≤ (fill ctx t).height :=
  (closeTurns_le _ _ _).trans (length_unlinkHole_le ctx t)

end Turns

theorem Change.turns_le {w : ℕ} {top : Address w} {c : Call w} {T T' : ColorTree (Address w)}
    {k : ℕ} (h : Change top c T T' k) : k ≤ 2 * T.height := by
  cases h with
  | plant n => exact Nat.zero_le _
  | add t f ctx n | link f ctx n =>
    have hctx := length_add_height_le (f :: ctx) (.nil : ColorTree (Address w))
    have hturns := repaintTurns_le (f :: ctx) (leaf n)
    omega
  | unlink ctx c l n r | unlinkStale ctx c l n r =>
    exact Nat.mul_le_mul_left 2 (unlinkTurns_le ctx (.node c l n r))

section Successor

variable {w : ℕ} {P : Prices} {I : Command w → ℕ} {h : Heap w} {a : Address w}
  {T : ColorTree (Address w)}

theorem spends_rbnodeLeftmost {q : Pointer w} (hT : Unfolds h.load q T) :
    Spends P I (2 * spine .left T * P.read) (rbnodeLeftmost q) h := by
  unfold rbnodeLeftmost
  split
  · rw [leftmostLoop_eq]
    exact spends_extremeLoop .left _ hT
  · exact Within.mono (within_pure q h) (Nat.zero_le _)

theorem spends_unlinkSuccessor (hT : Unfolds h.load (h.load (.right a)) T) :
    Spends P I (2 * spine .left T * P.read + 9 * P.read + 3 * P.write)
      (unlinkSuccessor (some a)) h := by
  refine Within.mono (Within.look readOnly_loadRight value_loadRight (costs_loadRight h) ?_)
    (show P.read + (P.read + (2 * spine .left T * P.read + (7 * P.read + 3 * P.write))) ≤ _ by
      omega)
  refine Within.bind (costs_loadLeft h) fun x t tr hrun => ?_
  obtain rfl := (readOnly_loadLeft.run_eq hrun).1
  split
  · exact Within.mono ((costs_loadRight.bind fun _ => .pure) t) (by omega)
  · refine Within.bind (spends_rbnodeLeftmost hT) fun y v tr' _ => ?_
    exact Priced.mono (costs_parent.bind fun _ => costs_loadRight.bind fun _ =>
      costs_storeLeft.bind fun _ => costs_loadRight.bind fun _ => costs_storeRight.bind fun _ =>
        costs_loadRight.bind fun _ => costs_loadRight.bind fun _ => costs_flags.bind fun _ =>
          costs_setLink.bind fun _ => .pure) (by omega) v

theorem load_popRoot {t : Heap w} {x : Pointer w} {tr : List (Command w)}
    (hrun : run (machine packed) (rbnodePopRoot (some a)) h = .ok (x, t, tr)) :
    t.load = h.load := by
  obtain ⟨b, s, tr₁, tr₂, hroot, hpop, -⟩ := run_bind_ok hrun
  obtain rfl : h = s := (Prod.mk.inj (Prod.mk.inj (Except.ok.inj hroot)).2).1
  cases b with
  | false =>
    cases hpop
    rfl
  | true =>
    cases hpop
    exact Memory.load_setLink ..

theorem spends_unlinkTwo (hT : Unfolds h.load (h.load (.right a)) T) :
    Spends P P.income (2 * spine .left T * P.read + 74 * P.read + 36 * P.write)
      (unlinkTwo (some a)) h := by
  refine Within.mono (Within.bind (costs_popRoot h) fun x u tr hrun => ?_)
    (show 3 * P.read + P.write + (2 * spine .left T * P.read + 9 * P.read + 3 * P.write +
      (62 * P.read + 32 * P.write)) ≤ _ by omega)
  rw [← load_popRoot hrun] at hT
  exact (spends_unlinkSuccessor hT).bind fun _ _ _ _ => costs_unlinkReplace _

theorem readOnly_hasNoChild : ReadOnly (hasNoChild (some a)) :=
  readOnly_loadLeft.bind fun _ => .ite (readOnly_loadRight.bind fun _ => .pure) .pure

theorem readOnly_hasRightOnly : ReadOnly (hasRightOnly (some a)) :=
  readOnly_loadLeft.bind fun _ => .ite (readOnly_loadRight.bind fun _ => .pure) .pure

theorem readOnly_hasLeftOnly : ReadOnly (hasLeftOnly (some a)) :=
  readOnly_loadLeft.bind fun _ => .ite (readOnly_loadRight.bind fun _ => .pure) .pure

theorem spends_unlinkStale (hT : Unfolds h.load (h.load (.right a)) T) :
    Spends P P.income (2 * spine .left T * P.read + 82 * P.read + 36 * P.write)
      (rbnodeUnlinkStale (some a)) h := by
  refine Within.mono (Within.bind (costs_assert h) fun _ s tr hrun => ?_)
    (show 0 + (2 * P.read + (0 + (2 * P.read + (2 * P.read + (2 * P.read +
      (2 * spine .left T * P.read + 74 * P.read + 36 * P.write)))))) ≤ _ by omega)
  cases hrun
  refine Within.bind (costs_isLinked h) fun b s tr hrun => ?_
  obtain rfl := (readOnly_isLinked.run_eq hrun).1
  refine Within.bind (costs_assert s) fun _ t tr hrun => ?_
  obtain rfl : s = t := by
    cases b with
    | false => cases hrun
    | true => cases hrun; rfl
  refine Within.bind (costs_hasNoChild s) fun _ t tr hrun => ?_
  obtain rfl := (readOnly_hasNoChild.run_eq hrun).1
  split
  · exact Within.mono (costs_unlinkLeaf t) (by omega)
  refine Within.bind (costs_hasRightOnly t) fun _ s tr hrun => ?_
  obtain rfl := (readOnly_hasRightOnly.run_eq hrun).1
  split
  · exact Within.mono (costs_unlinkOnly .right s) (by omega)
  refine Within.bind (costs_hasLeftOnly s) fun _ t tr hrun => ?_
  obtain rfl := (readOnly_hasLeftOnly.run_eq hrun).1
  split
  · exact Within.mono (costs_unlinkOnly .left t) (by omega)
  · exact spends_unlinkTwo hT

theorem spends_unlink (hT : Unfolds h.load (h.load (.right a)) T) :
    Spends P P.income (2 * spine .left T * P.read + 84 * P.read + 39 * P.write)
      (rbnodeUnlink (some a)) h := by
  refine Within.mono (Within.bind (costs_isLinked h) fun b s tr hrun => ?_)
    (show 2 * P.read + (2 * spine .left T * P.read + 82 * P.read + 39 * P.write) ≤ _ by omega)
  obtain rfl := (readOnly_isLinked.run_eq hrun).1
  split
  · exact Within.mono ((spends_unlinkStale hT).bind fun _ _ _ _ => costs_rbnodeInit _) (by omega)
  · exact Within.mono (within_pure _ s) (Nat.zero_le _)

/-- A tree below the right child of `a` is all that matters to a removal. -/
theorem Call.spends {c : Call w} {k : ℕ} (hk : ∀ n, c = .unlink n ∨ c = .unlinkStale n →
    ∃ T, Unfolds h.load (h.load (.right n)) T ∧ spine .left T ≤ k) :
    Spends P P.income (2 * k * P.read + 84 * P.read + 39 * P.write) c.code h := by
  have hspine : ∀ {T : ColorTree (Address w)}, spine .left T ≤ k →
      2 * spine .left T * P.read ≤ 2 * k * P.read := fun hle =>
    Nat.mul_le_mul_right _ (Nat.mul_le_mul_left 2 hle)
  cases c with
  | treeInit t => exact Within.mono (costs_rbtreeInit h) (by omega)
  | nodeInit n => exact Within.mono (costs_rbnodeInit h) (by omega)
  | add t p l n => exact Within.mono (costs_rbtreeAdd h) (by omega)
  | link p l n => exact Within.mono (costs_rbnodeLink h) (by omega)
  | unlink n =>
    obtain ⟨T, hT, hle⟩ := hk n (.inl rfl)
    have hmul := hspine hle
    exact Within.mono (spends_unlink hT) (by omega)
  | unlinkStale n =>
    obtain ⟨T, hT, hle⟩ := hk n (.inr rfl)
    have hmul := hspine hle
    exact Within.mono (spends_unlinkStale hT) (by omega)
  | move dst src => exact Within.mono (costs_rbtreeMove h) (by omega)

theorem exists_unfolds {m : FieldHeap w} (hm : Refines m h) {t : Address w}
    (hT : TreeAt m (.root t) T) (ha : a ∈ T.inorder) :
    ∃ U, Unfolds h.load (h.load (.right a)) U ∧ spine .left U ≤ T.height := by
  obtain ⟨ctx, c, l, r, rfl⟩ := exists_fill_of_mem ha
  obtain ⟨⟨-, -, -, hr⟩, -⟩ := treeAt_fill.mp hT
  have hheight := length_add_height_le ctx (.node c l a r)
  have hspine := spine_le_height .left r
  rw [ColorTree.height] at hheight
  exact ⟨r, hm.1 ▸ hr.unfolds, by omega⟩

end Successor

section Runs

variable {w : ℕ} {h₀ h : Heap w} {cs : List (Call w)} {tr : List (Command w)} {S : Sequences w}

/-- A turn earns no more than twelve reads and three stores. -/
theorem sum_income_le (P : Prices) (tr : List (Command w)) :
    (tr.map P.income).sum ≤ (12 * P.read + 3 * P.write) * (tr.map turnCost).sum := by
  induction tr with
  | nil => simp
  | cons c tr ih =>
    have hc : P.income c ≤ (12 * P.read + 3 * P.write) * turnCost c := by
      rcases c with _ | _ | _ | _ | _ | _ | (_ | _) | _ <;> simp [Prices.income, turnCost]
      omega
    simp only [List.map_cons, List.sum_cons, Nat.mul_add]
    omega

theorem Run.exists_spends (hr : Run packed h₀ cs tr h S) {c : Call w} (hc : c.Legal S h.load)
    (P : Prices) :
    ∃ k, Spends P P.income (2 * k * P.read + 84 * P.read + 39 * P.write) c.code h := by
  obtain ⟨m, F, -, hm, rfl, hh, -⟩ := hr.holds
  have hbelow : ∀ n, Linked F.sequences n →
      ∃ k T, Unfolds h.load (h.load (.right n)) T ∧ spine .left T ≤ k := by
    intro n hn
    obtain ⟨t, T, hT, hn⟩ := F.linked_iff.mp hn
    exact ⟨_, exists_unfolds hm (hh.tree t T hT) hn⟩
  cases c with
  | treeInit t | nodeInit n | add t p l n | link p l n | move dst src =>
    exact ⟨0, Call.spends fun n hn => by simp at hn⟩
  | unlink n | unlinkStale n =>
    obtain ⟨k, hk⟩ := hbelow n hc
    refine ⟨k, Call.spends fun n' hn => ?_⟩
    obtain rfl : n = n' := by simpa using hn
    exact hk

/-- Whatever the calls are, they store a constant number of times on average. -/
theorem run_writes_le (hr : Run packed h₀ cs tr h S) :
    tr.countP Command.isWrite ≤ 45 * cs.length := by
  have hsum : ∀ {cs tr h S}, Run packed h₀ cs tr h S → (tr.map (Prices.price ⟨1, 0⟩)).sum ≤
      39 * cs.length + (tr.map (Prices.income ⟨1, 0⟩)).sum := by
    intro cs tr h S hr
    induction hr with
    | start => simp
    | @call cs tr tr' h h' S c hr hc hrun ih =>
      obtain ⟨k, hspends⟩ := hr.exists_spends hc ⟨1, 0⟩
      have hle := hspends () h' tr' hrun
      simp only [Nat.mul_zero, Nat.zero_add, Nat.mul_one] at hle
      simp only [List.map_append, List.sum_append, List.length_append, List.length_singleton]
      omega
  obtain ⟨m, F, -, -, -, -, hpot⟩ := hr.holds
  have hle := hsum hr
  have hincome := sum_income_le ⟨1, 0⟩ tr
  have hcount := List.countP_le_length (p := Call.Changes) (l := cs)
  rw [sum_price_writes] at hle
  simp only [Nat.mul_zero, Nat.zero_add, Nat.mul_one] at hincome
  omega

/-- A call on a tree of `n` nodes accesses memory no more often than the logarithm of `n`
allows. -/
theorem run_accesses_le (hr : Run packed h₀ cs tr h S) {c : Call w} (hc : c.Legal S h.load)
    {t : Address w} (hon : c.On S t) {l : List (Address w)} (hl : S t = some l) :
    ∃ h' tr', run (machine packed) c.code h = .ok ((), h', tr') ∧
      accesses tr' ≤ 123 + 32 * Nat.log 2 ((l.length + 1) ^ 2) := by
  obtain ⟨m, F, -, hm, rfl, hh, -⟩ := hr.holds
  obtain ⟨t', T, T', k, hT, hchange, hnd, hnew⟩ := hh.exists_change (hm.1 ▸ hc) hon.changes
  obtain rfl := hchange.on hT hon
  obtain ⟨F', -, -, -, he⟩ := hh.exec_change hT hchange hnd hnew
  obtain ⟨⟨⟩, m', tr', hrun, ⟨-, hk⟩, -⟩ := wp_sound he
  obtain ⟨h', hrun', -⟩ := run_packed hm hrun
  refine ⟨h', tr', hrun', ?_⟩
  obtain rfl : T.inorder = l := by simpa [Forest.sequences, hT] using hl
  have hheight : T.height ≤ Nat.log 2 ((T.inorder.length + 1) ^ 2) := by
    refine Nat.le_log_of_pow_le (by decide) ?_
    rw [ColorTree.size_eq_length]
    exact (F.redBlack t T hT).two_pow_height_le
  have hspends : Spends ⟨1, 1⟩ (Prices.income ⟨1, 1⟩) (2 * T.height * 1 + 84 * 1 + 39 * 1)
      c.code h := by
    refine Call.spends fun n hn => exists_unfolds hm (hh.tree t T hT) ?_
    obtain ⟨l, hl', hn⟩ : ∃ l, F.sequences t = some l ∧ n ∈ l := by
      rcases hn with rfl | rfl
      · exact hon
      · exact hon
    rw [hl] at hl'
    cases hl'
    exact hn
  have hle := hspends () h' tr' hrun'
  have hincome := sum_income_le ⟨1, 1⟩ tr'
  have hturns := hchange.turns_le
  rw [sum_price_accesses] at hle
  simp only [Nat.mul_one, hk] at hincome
  omega

section Sample

/-- The sample run recolours paths and rebalances. -/
theorem run_writes_le_sample : sampleTrace.count (.turn .paint) = 4 ∧
    sampleTrace.count (.turn .rebalance) = 1 ∧ sampleTrace.countP Command.isWrite ≤ 45 * 22 :=
  ⟨by decide +kernel, by decide +kernel, run_writes_le run_sample⟩

/-- An insertion that rotates, and the removal of a root, on a tree of seven nodes. -/
theorem run_accesses_le_sample :
    (∃ h' tr', run (machine packed) (rbnodeLink (some (cell 8)) (some (.right (cell 8)))
        (some (cell 2))) sampleHeap = .ok ((), h', tr') ∧
      accesses tr' ≤ 123 + 32 * Nat.log 2 ((7 + 1) ^ 2)) ∧
    ∃ h' tr', run (machine packed) (rbnodeUnlink (some (cell 6))) sampleHeap = .ok ((), h', tr') ∧
      accesses tr' ≤ 123 + 32 * Nat.log 2 ((7 + 1) ^ 2) :=
  ⟨run_accesses_le run_sample (c := .link (cell 8) (.right (cell 8)) (cell 2))
      (run_sample.legal (by decide +kernel)) ⟨_, sampleLists_second, by simp⟩ sampleLists_second,
    run_accesses_le run_sample (c := .unlink (cell 6)) (run_sample.legal (by decide +kernel))
      ⟨_, sampleLists_second, by simp⟩ sampleLists_second⟩

end Sample

end Runs

end CRbtree
