import CRbtree.Footprints
import CRbtree.Maps
import CRbtree.Slots
import CRbtree.Validation
import Mathlib.Data.List.Sort

set_option autoImplicit false

/-!
Trees whose nodes are ordered by their addresses, as test-basic.c and test-misc.c fill and
empty them.
-/

namespace CRbtree
open RedBlack TaggedPointers PointerGraphs Programs

variable {w : ℕ}

/-- The loop of insert(): returns `i` and `p`. -/
def insertLoop (n : Pointer w) : ℕ → Slot w → Pointer w → Prog w (Slot w × Pointer w)
  | turns, i, p => do
    if (← load i).isSome then
      match turns with
      | 0 => crash .endless
      | turns + 1 => do
        let p ← load i
        if Precedes n (← load i) then
          insertLoop n turns (.left (← deref (← load i))) p
        else do
          cAssert (Precedes (← load i) n)
          insertLoop n turns (.right (← deref (← load i))) p
    else
      pure (i, p)

/-- insert() of both tests, which is not part of the library. -/
def testInsert (t n : Pointer w) : Prog w Unit := do
  cAssert t.isSome
  cAssert n.isSome
  cAssert !(← rbnodeIsLinked n)
  let (i, p) ← insertLoop n (2 ^ w) (.root (← deref t)) none
  rbtreeAdd t p (some i) n

/-- `while (t->root) c_rbnode_unlink(t->root)` -/
def drain (t : Pointer w) : ℕ → Prog w Unit
  | 0 => do
    if (← loadRoot t).isSome then crash .endless else pure ()
  | turns + 1 => do
    if (← loadRoot t).isSome then
      rbnodeUnlink (← loadRoot t)
      drain t turns
    else
      pure ()

/-- The place of a node in the order. -/
def position (a : Address w) : ℕ := a.word.toNat

theorem position_injective : Function.Injective (position (w := w)) := by
  intro a b hab
  have hw : a.word = b.word := BitVec.eq_of_toNat_eq hab
  cases a
  cases b
  simp_all

theorem precedes_iff {a b : Address w} :
    Precedes (some a) (some b) ↔ position a < position b := BitVec.lt_def

/-- How `n` compares with a node. -/
def distance (n a : Address w) : ℤ := position n - position a

theorem compares_distance (n : Address w) : Compares (distance n) position (position n) :=
  ⟨fun a => by simp [distance], fun a => by simp [distance]⟩

section Loop

variable {M : Region w} {m : FieldHeap w} {β : Type} {Q : β → FieldHeap w → ℕ → Prop}
  {n : Address w} {top : Slot w} {ctx : Context (Address w)} {T : ColorTree (Address w)} {turns : ℕ}

theorem exec_insertLoop {q : Slot w × Pointer w → Prog w β} (h : TreeAt m (hole top ctx) T)
    (hturns : T.height ≤ turns) (hn : n ∉ T.inorder) :
    Exec M (insertLoop (some n) turns (hole top ctx) (hole top ctx).holder >>= q) Q m ↔
      Exec M (q (hole top (search (distance n) ctx T).1,
        (hole top (search (distance n) ctx T).1).holder)) Q m := by
  have hload := h.load
  induction T generalizing turns ctx with
  | nil =>
    cases turns <;>
    · rw [insertLoop, bind_assoc, exec_load, hload, if_neg (by simp [ColorTree.root?])]
      rfl
  | node c l a r ihl ihr =>
    obtain ⟨-, -, hl, hr⟩ := h
    simp only [ColorTree.height] at hturns
    obtain ⟨turns, rfl⟩ := Nat.exists_eq_add_one_of_ne_zero (show turns ≠ 0 by omega)
    simp only [ColorTree.inorder, List.mem_append, List.mem_cons, not_or] at hn
    have hpos := position_injective.ne hn.2.1
    rw [insertLoop, bind_assoc, exec_load, hload, ColorTree.root?,
      if_pos Option.isSome_some, search]
    simp only [bind_assoc]
    rw [exec_load, exec_load, hload, ColorTree.root?]
    by_cases hlt : position n < position a
    · rw [if_pos (precedes_iff.mpr hlt), if_pos (((compares_distance n).lt a).mpr hlt), bind_assoc,
        exec_load, hload]
      exact @ihl (⟨.left, c, a, r⟩ :: ctx) turns hl (by omega) hn.1 hl.load
    · have hgt : position a < position n := lt_of_le_of_ne (not_lt.mp hlt) hpos.symm
      rw [if_neg (mt precedes_iff.mp hlt), if_neg (mt ((compares_distance n).lt a).mp hlt),
        if_pos (((compares_distance n).gt a).mpr hgt), bind_assoc, exec_load, hload,
        ColorTree.root?, bind_assoc, exec_assert (decide_eq_true (precedes_iff.mpr hgt)),
        bind_assoc, exec_load, hload]
      exact @ihr (⟨.right, c, a, l⟩ :: ctx) turns hr (by omega) hn.2.2 hr.load

end Loop

theorem orderedInsert_append {α : Type} {r : α → α → Prop} [DecidableRel r] {n : α} {l l' : List α}
    (hl : ∀ a ∈ l, ¬r n a) (hl' : ∀ a ∈ l', r n a) :
    (l ++ l').orderedInsert r n = l ++ n :: l' := by
  induction l with
  | nil =>
    cases l' with
    | nil => rfl
    | cons b l' => exact List.orderedInsert_cons_of_le _ _ (hl' b List.mem_cons_self)
  | cons b l ih =>
    rw [List.cons_append, List.orderedInsert_of_not_le _ _ (hl b List.mem_cons_self),
      ih fun a ha => hl a (List.mem_cons_of_mem b ha), List.cons_append]

/-- The list with `n` in its place. -/
def inserted (n : Address w) (l : List (Address w)) : List (Address w) :=
  l.orderedInsert (fun a b => position a ≤ position b) n

theorem inserted_perm (n : Address w) (l : List (Address w)) : (inserted n l).Perm (n :: l) :=
  List.perm_orderedInsert ..

/-- The runs in which every node is added by insert(): the memory, the lists, and the nodes
that are certain to be marked as unlinked when they are in no tree. -/
inductive AddressRun (h₀ : Heap w) : Heap w → Sequences w → (Address w → Bool) → Prop
  | start : AddressRun h₀ h₀ (fun _ => none) fun _ => false
  | call {h h' : Heap w} {S : Sequences w} {K : Address w → Bool} {c : Call w}
      {tr : List (Command w)} (hr : AddressRun h₀ h S K) (hc : c.Legal S h.load)
      (hadded : c.added = []) (hrun : run (machine packed) c.code h = .ok ((), h', tr)) :
      AddressRun h₀ h' (c.after S) fun n => c.settles n (K n)
  | insert {h h' : Heap w} {S : Sequences w} {K : Address w → Bool} {t n : Address w}
      {l : List (Address w)} {tr : List (Command w)} (hr : AddressRun h₀ h S K)
      (hl : S t = some l) (hn : ¬Linked S n) (hset : K n = true)
      (hrun : run (machine packed) (testInsert (some t) (some n)) h = .ok ((), h', tr)) :
      AddressRun h₀ h' (Function.update S t (some (inserted n l))) K

section Run

variable {h₀ h : Heap w} {cs : List (Call w)} {tr : List (Command w)} {S : Sequences w}
  {t n : Address w} {l : List (Address w)}

theorem exec_isLinked_of_unlinked {M : Region w} {m : FieldHeap w} {β : Type}
    {Q : β → FieldHeap w → ℕ → Prop} {q : Bool → Prog w β} (hk : m.link n = .unlinked) :
    Exec M (rbnodeIsLinked (some n) >>= q) Q m ↔ Exec M (q false) Q m := by
  have hparent : separate.parent n (m.link n) = .ok (some n) := by rw [hk, separate]
  unfold rbnodeIsLinked
  simp only [Option.isSome_some, if_true, bind_assoc, pure_bind]
  refine exec_readParent.trans ?_
  simp [hparent]

/-- insert() of a node that is marked as unlinked is one call of c_rbtree_add(), which puts the
node in its place. -/
theorem Run.exists_insert (hr : Run packed h₀ cs tr h S) (hl : S t = some l)
    (hs : Sorted position l) (hn : ¬Linked S n) (hset : settled cs n = true) :
    ∃ c h' tr₁ tr₂, run (machine packed) (testInsert (some t) (some n)) h = .ok ((), h', tr₁) ∧
      Run packed h₀ (cs ++ [c]) (tr ++ tr₂) h' (Function.update S t (some (inserted n l))) ∧
      settled (cs ++ [c]) = settled cs ∧ Sorted position (inserted n l) := by
  obtain ⟨m, F, -, hm, rfl, hh, -⟩ := hr.holds
  obtain ⟨T, hT, rfl, -⟩ := hh.mem_iff hl
  have hnT : n ∉ T.inorder := fun hmem => hn ⟨t, T.inorder, hl, hmem⟩
  have hnil : (RedBlack.search (distance n) [] T).2 = .nil := by
    refine ColorTree.root?_eq_none.mp (Option.eq_none_iff_forall_not_mem.mpr fun a ha => ?_)
    obtain ⟨haT, hpos⟩ := (search_eq_some (compares_distance n) hs).mp ha
    exact hnT (position_injective hpos ▸ haT)
  generalize hctx : (RedBlack.search (distance n) [] T).1 = ctx
  have hread : Exec nowhere (do
      cAssert !(← rbnodeIsLinked (some n))
      insertLoop (some n) (2 ^ w) (.root t) none)
      (fun x _ _ => x = (hole (.root t) ctx, (hole (.root t) ctx).holder)) m := by
    refine (exec_isLinked_of_unlinked (hh.marked n hset hn)).mpr ((exec_assert rfl).mpr
      (exec_last ?_))
    exact (@exec_insertLoop _ _ _ _ _ _ (.root t) [] _ _ _ (hh.tree t T hT)
      (height_lt_of_nodup (F.nodup t T hT)).le hnT).mpr (hctx ▸ rfl)
  obtain ⟨_, tr₁, -, hrun₁, rfl⟩ := hread.reads hm
  have hfill := fill_search (distance n) [] T
  rw [fill_nil, hnil, hctx] at hfill
  have hT' := hT
  rw [← hfill] at hT'
  obtain ⟨hbefore, hafter⟩ := search_bounds (compares_distance n) hs
  have hsorted := sorted_search (compares_distance n) hs hnil
  rw [hctx] at hbefore hafter hsorted
  have hins : inserted n T.inorder = before ctx ++ n :: after ctx := by
    rw [← hfill, inorder_fill, ColorTree.inorder, List.append_nil]
    exact orderedInsert_append (fun a ha => not_le.mpr (hbefore a ha)) fun a ha => (hafter a ha).le
  obtain ⟨k, hchange⟩ := Change.hole t ctx n
  have hlegal := hh.legal_hole hT' hn
  have hseq := hchange.after hT'
  rw [inorder_insertAt, ← hins] at hseq
  rw [← hins] at hsorted
  obtain ⟨h', tr₂, hrun₂, hr'⟩ := hr.exists_call (hm.1 ▸ hlegal)
  rw [hseq] at hr'
  have hcode : testInsert (some t) (some n) = (do
      cAssert !(← rbnodeIsLinked (some n))
      insertLoop (some n) (2 ^ w) (.root t) none) >>= fun x =>
        rbtreeAdd (some t) x.2 (some x.1) (some n) := by
    simp only [bind_assoc]
    rfl
  exact ⟨_, h', _, tr₂, hcode ▸ run_bind hrun₁ hrun₂, hr', funext fun a => settled_concat cs _ a,
    hsorted⟩

theorem sorted_after {c : Call w} (hadded : c.added = [])
    (hs : ∀ t l, S t = some l → Sorted position l) :
    ∀ t l, c.after S t = some l → Sorted position l := by
  intro t l hl
  cases c with
  | nodeInit n => exact hs t l hl
  | add t p s n | link p s n => cases hadded
  | unlink n | unlinkStale n =>
    obtain ⟨l', hl', rfl⟩ := Option.map_eq_some_iff.mp hl
    exact (hs t l' hl').sublist List.erase_sublist
  | treeInit t' =>
    by_cases ht : t = t'
    · subst ht
      rw [Call.after, Function.update_self] at hl
      cases hl
      exact .nil
    · rw [Call.after, Function.update_of_ne ht] at hl
      exact hs t l hl
  | move dst src =>
    by_cases ht : t = src
    · subst ht
      rw [Call.after, Function.update_self] at hl
      cases hl
      exact .nil
    · rw [Call.after, Function.update_of_ne ht] at hl
      by_cases ht' : t = dst
      · subst ht'
        rw [Function.update_self] at hl
        exact hs src l hl
      · rw [Function.update_of_ne ht'] at hl
        exact hs t l hl

theorem AddressRun.keeps {K : Address w → Bool} (hr : AddressRun h₀ h S K) :
    ∃ cs tr, Run packed h₀ cs tr h S ∧ settled cs = K ∧
      ∀ t l, S t = some l → Sorted position l := by
  induction hr with
  | start => exact ⟨[], [], .start, rfl, nofun⟩
  | call hr hc hadded hrun ih =>
    obtain ⟨cs, tr, hr', rfl, hs⟩ := ih
    exact ⟨_, _, hr'.call hc hrun, funext fun n => settled_concat cs _ n, sorted_after hadded hs⟩
  | @insert h h' S K t n l tr' hr hl hn hset hrun ih =>
    obtain ⟨cs, tr, hr', rfl, hs⟩ := ih
    obtain ⟨c, h'', tr₁, tr₂, hrun', hr'', hset', hins⟩ := hr'.exists_insert hl (hs t l hl) hn hset
    rw [hrun] at hrun'
    cases hrun'
    refine ⟨_, _, hr'', hset', fun t' l' hl' => ?_⟩
    by_cases ht : t' = t
    · subst ht
      rw [Function.update_self] at hl'
      cases hl'
      exact hins
    · rw [Function.update_of_ne ht] at hl'
      exact hs t' l' hl'

theorem sorted_position {l : List (Address w)} :
    Sorted position l ↔ l.Pairwise fun a b => a.word < b.word := by
  simp only [Sorted, position, BitVec.lt_def]

theorem Run.validate_passes (hr : Run packed h₀ cs tr h S) (hl : S t = some l)
    (hs : Sorted position l) : Returns h (validate (some t)) l.length := by
  obtain ⟨m, F, -, hm, rfl, hh, -⟩ := hr.holds
  obtain ⟨T, hT, rfl, -⟩ := hh.mem_iff hl
  rw [ColorTree.size_eq_length]
  exact (hh.laid hm hT).validate_passes (F.nodup t T hT)
    (validated_of_isRedBlack (F.redBlack t T hT) (sorted_position.mp hs))

/-- In every state of every run, validate() counts the members of a tree that is in the order
of addresses, and stops at an assertion otherwise. -/
theorem run_validate (hr : Run packed h₀ cs tr h S) (hl : S t = some l) :
    (Sorted position l → Returns h (validate (some t)) l.length) ∧
      (¬Sorted position l → run (machine packed) (validate (some t)) h = .error .assertion) := by
  refine ⟨hr.validate_passes hl, fun hs => ?_⟩
  obtain ⟨m, F, -, hm, rfl, hh, -⟩ := hr.holds
  obtain ⟨T, hT, rfl, -⟩ := hh.mem_iff hl
  exact (hh.laid hm hT).validate_fails (F.nodup t T hT)
    fun hv => hs (sorted_position.mpr hv.ascending)

/-- All trees but the one at `t` keep their roots and the fields of their nodes. -/
def KeepsOthers (S : Sequences w) (t : Address w) (h h' : Heap w) : Prop :=
  ∀ t', t' ≠ t → h'.tree t' = h.tree t' ∧ ∀ l, S t' = some l → ∀ a ∈ l, h'.node a = h.node a

theorem Run.after_unlink (hr : Run packed h₀ cs tr h S) (hl : S t = some l) (hn : n ∈ l) :
    (Call.unlink n).after S = Function.update S t (some (l.erase n)) := by
  obtain ⟨m, F, -, hm, rfl, hh, -⟩ := hr.holds
  obtain ⟨T, hT, rfl, -⟩ := hh.mem_iff hl
  obtain ⟨ctx, c, a, b, rfl⟩ := exists_fill_of_mem hn
  have hchange := Change.unlink (t := t) ctx c a n b
  rw [hchange.after hT, hchange.inorder (F.redBlack t _ hT) (F.nodup t _ hT)]
  rfl

/-- A member of one tree is in no other one. -/
theorem Run.not_linked_update (hr : Run packed h₀ cs tr h S) (hl : S t = some l) (hn : n ∈ l)
    {l' : List (Address w)} (hn' : n ∉ l') : ¬Linked (Function.update S t (some l')) n := by
  obtain ⟨m, F, -, hm, rfl, hh, -⟩ := hr.holds
  rintro ⟨t', k, hk, hnk⟩
  by_cases ht : t' = t
  · subst ht
    rw [Function.update_self, Option.some.injEq] at hk
    exact hn' (hk ▸ hnk)
  · rw [Function.update_of_ne ht] at hk
    obtain ⟨T, hT, rfl, -⟩ := hh.mem_iff hl
    obtain ⟨T', hT', rfl, -⟩ := hh.mem_iff hk
    exact ht (F.eq_of_mem hT' hT hnk hn)

theorem Run.exists_unlink (hr : Run packed h₀ cs tr h S) (hl : S t = some l) (hn : n ∈ l) :
    ∃ h' tr', run (machine packed) (rbnodeUnlink (some n)) h = .ok ((), h', tr') ∧
      Run packed h₀ (cs ++ [.unlink n]) (tr ++ tr') h'
        (Function.update S t (some (l.erase n))) ∧ KeepsOthers S t h h' := by
  have hlegal : (Call.unlink n).Legal S h.load := ⟨t, l, hl, hn⟩
  obtain ⟨h', tr', hrun, hr'⟩ := hr.exists_call hlegal
  rw [hr.after_unlink hl hn] at hr'
  refine ⟨h', tr', hrun, hr', fun t' ht' => hr.spares_others hlegal hrun t' ?_⟩
  rintro (⟨l', hl', hn'⟩ | hc | ⟨u, hc | hc⟩)
  · refine hr.not_linked_update hl hn (show n ∉ [] from List.not_mem_nil) ⟨t', l', ?_, hn'⟩
    rwa [Function.update_of_ne ht']
  all_goals cases hc

/-- The loop that unlinks the root until there is none runs once for every member. -/
theorem Run.drained (k : ℕ) (hr : Run packed h₀ cs tr h S) (hl : S t = some l)
    (hk : l.length = k) :
    ∃ (ns : List (Address w)) (h' : Heap w) (tr' : List (Command w)), ns.Perm l ∧
      Run packed h₀ (cs ++ ns.map .unlink) (tr ++ tr') h' (Function.update S t (some [])) ∧
      KeepsOthers S t h h' ∧ ∀ turns, ∃ tr₁,
        run (machine packed) (drain (some t) (turns + k)) h = .ok ((), h', tr₁) := by
  induction k generalizing cs tr h S l with
  | zero =>
    obtain rfl := List.length_eq_zero_iff.mp hk
    obtain ⟨hnone, -⟩ := (hr.root_cases hl).resolve_right fun ⟨n, hn, _⟩ => nomatch hn
    have hload : run (machine packed) (loadRoot (some t)) h = .ok (none, h, [.load (.root t)]) :=
      hnone ▸ rfl
    refine ⟨[], h, [], .nil, ?_, fun _ _ => ⟨rfl, fun _ _ _ _ => rfl⟩,
      fun turns => ⟨[.load (.root t)], ?_⟩⟩
    · rwa [← hl, Function.update_eq_self, List.map_nil, List.append_nil, List.append_nil]
    · cases turns with
      | zero => exact run_bind hload rfl
      | succ turns => exact run_bind hload rfl
  | succ k ih =>
    obtain ⟨n, hn, hsome⟩ := (hr.root_cases hl).resolve_left fun ⟨_, hnil⟩ => by simp [hnil] at hk
    have hload : run (machine packed) (loadRoot (some t)) h = .ok (some n, h, [.load (.root t)]) :=
      hsome ▸ rfl
    obtain ⟨h₁, tr₁, hrun, hr₁, hkeep⟩ := hr.exists_unlink hl hn
    have hk' : (l.erase n).length = k := by
      rw [List.length_erase_of_mem hn, hk, Nat.add_sub_cancel]
    obtain ⟨ns, h', tr', hperm, hr', hkeep', hdrain⟩ := ih hr₁ (Function.update_self ..) hk'
    rw [Function.update_idem, List.append_assoc, List.append_assoc] at hr'
    refine ⟨n :: ns, h', tr₁ ++ tr', (hperm.cons n).trans (List.perm_cons_erase hn).symm, hr',
      fun t' ht' => ?_, fun turns => ?_⟩
    · obtain ⟨htree, hnode⟩ := hkeep t' ht'
      obtain ⟨htree', hnode'⟩ := hkeep' t' ht'
      refine ⟨htree'.trans htree, fun l' hl' a ha => ?_⟩
      exact (hnode' l' ((Function.update_of_ne ht' _ _).trans hl') a ha).trans (hnode l' hl' a ha)
    · obtain ⟨tr₂, hrun'⟩ := hdrain turns
      exact ⟨_, run_bind hload (run_bind hload (run_bind hrun hrun'))⟩

theorem settled_append_unlink {ns : List (Address w)} (hn : n ∈ ns) :
    settled (cs ++ ns.map .unlink) n = true := by
  induction ns using List.reverseRecOn with
  | nil => cases hn
  | append_singleton ns a ih =>
    rw [List.map_append, ← List.append_assoc, List.map_singleton, settled_concat]
    rcases List.mem_append.mp hn with hn | hn
    · simp [Call.settles, ih hn]
    · simp [Call.settles, List.mem_singleton.mp hn]

/-- The loop ends, with a tree that is empty, nodes that are ready to be added again, and all
other trees as they were. -/
theorem run_drained (hr : Run packed h₀ cs tr h S) (hl : S t = some l) :
    ∃ (ns : List (Address w)) (h' : Heap w) (tr' : List (Command w)), ns.Perm l ∧
      Run packed h₀ (cs ++ ns.map .unlink) (tr ++ tr') h' (Function.update S t (some [])) ∧
      (∀ turns ≥ l.length, ∃ tr₁,
        run (machine packed) (drain (some t) turns) h = .ok ((), h', tr₁)) ∧
      KeepsOthers S t h h' ∧ h'.load (.root t) = none ∧
      ∀ n ∈ l, parentOf (h'.link n) = some n := by
  obtain ⟨ns, h', tr', hperm, hr', hkeep, hdrain⟩ := hr.drained l.length hl rfl
  refine ⟨ns, h', tr', hperm, hr', fun turns hturns => ?_, hkeep, ?_, fun n hn => ?_⟩
  · obtain ⟨k, rfl⟩ := Nat.exists_eq_add_of_le' hturns
    exact hdrain k
  · exact ((hr'.root_cases (Function.update_self ..)).resolve_right
      fun ⟨n, hn, _⟩ => by cases hn).1
  · have hset : settled (cs ++ ns.map .unlink) n = true :=
      settled_append_unlink (hperm.mem_iff.mpr hn)
    have hfree := hr.not_linked_update hl hn (show n ∉ [] from List.not_mem_nil)
    obtain ⟨m, F, -, hm, hseq, hh, -⟩ := hr'.holds
    have hp := hm.2 n
    rw [hh.marked n hset (hseq ▸ hfree)] at hp
    exact packs_parent hp rfl

section Address

variable {K : Address w → Bool}

theorem AddressRun.exists_call {c : Call w} (hr : AddressRun h₀ h S K) (hc : c.Legal S h.load)
    (hadded : c.added = []) :
    ∃ h', AddressRun h₀ h' (c.after S) fun n => c.settles n (K n) := by
  obtain ⟨cs, tr, hr', -, -⟩ := hr.keeps
  obtain ⟨h', tr', hrun, -⟩ := hr'.exists_call hc
  exact ⟨h', hr.call hc hadded hrun⟩

theorem AddressRun.exists_insert (hr : AddressRun h₀ h S K) (hl : S t = some l)
    (hn : ¬Linked S n) (hset : K n = true) : ∃ h' tr,
      run (machine packed) (testInsert (some t) (some n)) h = .ok ((), h', tr) ∧
      AddressRun h₀ h' (Function.update S t (some (inserted n l))) K ∧
      InOrder h'.load (h'.load (.root t)) (inserted n l) := by
  obtain ⟨cs, tr, hr', rfl, hs⟩ := hr.keeps
  obtain ⟨c, h', tr₁, tr₂, hrun, hr'', -⟩ := hr'.exists_insert hl (hs t l hl) hn hset
  exact ⟨h', tr₁, hrun, hr.insert hl hn hset hrun, hr''.inOrder (Function.update_self ..)⟩

/-- Nodes that are in no tree can be initialised and inserted one after the other. -/
theorem AddressRun.exists_insertAll (ns : List (Address w)) (hr : AddressRun h₀ h S K)
    (hl : S t = some l) (hn : ∀ n ∈ ns, ¬Linked S n) (hnd : ns.Nodup) :
    ∃ h' S' K', AddressRun h₀ h' S' K' ∧ S' t = some (ns.foldl (fun l n => inserted n l) l) := by
  induction ns generalizing h S K l with
  | nil => exact ⟨h, S, K, hr, hl⟩
  | cons n ns ih =>
    rw [List.nodup_cons] at hnd
    have hfree := hn n List.mem_cons_self
    obtain ⟨h₁, hr₁⟩ := hr.exists_call (c := .nodeInit n) hfree rfl
    obtain ⟨h₂, tr, -, hr₂, -⟩ := hr₁.exists_insert hl hfree (by simp [Call.settles])
    refine ih hr₂ (Function.update_self ..) (fun a ha => ?_) hnd.2
    rintro ⟨t', l', hl', ha'⟩
    by_cases ht : t' = t
    · subst ht
      rw [Function.update_self, Option.some.injEq] at hl'
      rcases List.mem_cons.mp ((inserted_perm n l).mem_iff.mp (hl' ▸ ha')) with rfl | hal
      · exact hnd.1 ha
      · exact hn a (List.mem_cons_of_mem n ha) ⟨t', l, hl, hal⟩
    · rw [Function.update_of_ne ht] at hl'
      exact hn a (List.mem_cons_of_mem n ha) ⟨t', l', hl', ha'⟩

/-- In every state of such a run memory has the lists, in the order of addresses, validate()
returns their lengths, and insert() of a node that is in no tree puts it in its place. -/
theorem addressRun_validated (hr : AddressRun h₀ h S K) :
    (∀ t l, S t = some l → Sorted position l ∧ InOrder h.load (h.load (.root t)) l ∧
        Returns h (validate (some t)) l.length) ∧
      ∀ t l n, S t = some l → ¬Linked S n → K n = true → ∃ h' tr,
        run (machine packed) (testInsert (some t) (some n)) h = .ok ((), h', tr) ∧
          InOrder h'.load (h'.load (.root t)) (inserted n l) := by
  refine ⟨fun t l hl => ?_, fun t l n hl hn hset => ?_⟩
  · obtain ⟨cs, tr, hr', -, hs⟩ := hr.keeps
    exact ⟨hs t l hl, hr'.inOrder hl, hr'.validate_passes hl (hs t l hl)⟩
  · obtain ⟨h', tr, hrun, -, hin⟩ := hr.exists_insert hl hn hset
    exact ⟨h', tr, hrun, hin⟩

end Address

end Run

section Sample

/-- The second tree is emptied, the first one stays. -/
theorem run_drained_sample : ∃ h' tr,
    run (machine packed) (drain (some (cell 1)) 7) sampleHeap = .ok ((), h', tr) ∧
      h'.load (.root (cell 1)) = none ∧
      (∀ n ∈ [cell 3, cell 4, cell 6, cell 7, cell 8, cell 10, cell 9],
        parentOf (h'.link n) = some n) ∧
      h'.tree (cell 0) = sampleHeap.tree (cell 0) ∧
      ∀ n ∈ [cell 5, cell 12, cell 13], h'.node n = sampleHeap.node n := by
  obtain ⟨ns, h', tr', -, -, hdrain, hkeep, hnone, hmarked⟩ :=
    run_drained run_sample sampleLists_second
  obtain ⟨tr, hrun⟩ := hdrain 7 le_rfl
  obtain ⟨htree, hnodes⟩ := hkeep (cell 0) (by decide)
  exact ⟨h', tr, hrun, hnone, hmarked, htree, hnodes _ sampleLists_first⟩

/-- One tree is in the order of addresses, the other one is not. -/
theorem run_validate_sample : Returns sampleHeap (validate (some (cell 0))) 3 ∧
    run (machine packed) (validate (some (cell 1))) sampleHeap = .error .assertion :=
  ⟨(run_validate run_sample sampleLists_first).1 (by unfold Sorted; decide),
    (run_validate run_sample sampleLists_second).2 (by unfold Sorted; decide)⟩

/-- Four nodes in any order; one is unlinked and inserted again. -/
theorem addressRun_validated_sample : ∃ h h' S K tr, AddressRun zeroes h S K ∧
    InOrder h.load (h.load (.root (cell 0))) [cell 2, cell 4, cell 5] ∧
    Returns h (validate (some (cell 0))) 3 ∧
    run (machine packed) (testInsert (some (cell 0)) (some (cell 3))) h = .ok ((), h', tr) ∧
    InOrder h'.load (h'.load (.root (cell 0))) [cell 2, cell 3, cell 4, cell 5] := by
  have hinit : AddressRun zeroes _ _ _ := .call (c := .treeInit (cell 0)) .start nofun rfl rfl
  have hempty : ∀ n, ¬Linked (Call.after (fun _ => none) (.treeInit (cell 0))) n := by
    rintro n ⟨t, l, hl, hn⟩
    by_cases ht : t = cell 0 <;> simp_all [Call.after]
  obtain ⟨h₁, S₁, K₁, hr₁, hl₁⟩ := hinit.exists_insertAll [cell 5, cell 3, cell 2, cell 4]
    (t := cell 0) (l := []) (by simp [Call.after]) (fun n _ => hempty n) (by decide)
  have hlist : [cell 5, cell 3, cell 2, cell 4].foldl (fun l n => inserted n l) [] =
      [cell 2, cell 3, cell 4, cell 5] := by decide
  rw [hlist] at hl₁
  obtain ⟨h, hr⟩ := hr₁.exists_call (c := .unlink (cell 3)) ⟨cell 0, _, hl₁, by decide⟩ rfl
  obtain ⟨cs, tr₁, hrun₁, -, -⟩ := hr₁.keeps
  rw [hrun₁.after_unlink hl₁ (by decide)] at hr
  obtain ⟨hstate, hinsert⟩ := addressRun_validated hr
  obtain ⟨-, hin, hvalid⟩ := hstate (cell 0) _ (Function.update_self ..)
  obtain ⟨h', tr, hrun, hin'⟩ := hinsert (cell 0) _ (cell 3) (Function.update_self ..)
    (hrun₁.not_linked_update hl₁ (by decide) (by decide)) (by simp [Call.settles])
  exact ⟨h, h', _, _, tr, hr, hin, hvalid, hrun, hin'⟩

end Sample

end CRbtree
