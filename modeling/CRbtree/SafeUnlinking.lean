import CRbtree.Iterators
import CRbtree.Runs
import CRbtree.Traversing

set_option autoImplicit false

/-!
In-order iteration whose bodies remove nodes from the tree.
-/

namespace CRbtree
open RedBlack TaggedPointers PointerGraphs Programs

variable {w : ℕ} {α ι : Type}

/-- The memories differ at most in the fields of `a`. -/
def Elsewhere (a : Address w) (h h' : Heap w) : Prop :=
  h'.tree = h.tree ∧ ∀ b, b ≠ a → h'.node b = h.node b

/-- What a body may do with its node. The label says whether it removes it. -/
inductive Disposal (a : Address w) (h : Heap w) : Bool → Heap w → Prop
  | keep : Disposal a h false h
  | unlink {h' : Heap w} {tr : List (Command w)}
      (hrun : run (machine packed) (rbnodeUnlink (some a)) h = .ok ((), h', tr)) :
      Disposal a h true h'
  | unlinkStale {h₁ h' : Heap w} {tr : List (Command w)}
      (hrun : run (machine packed) (rbnodeUnlinkStale (some a)) h = .ok ((), h₁, tr))
      (hover : Elsewhere a h₁ h') : Disposal a h true h'

/-- The nodes that have had their turn and have not been removed. -/
def kept (node : ι → Pointer w) (seen : List (ι × Bool)) : List (Address w) :=
  (seen.filter fun x => !x.2).filterMap fun x => node x.1

/-- Every body may remove its node or leave it alone. The tree at `t` keeps the others. -/
def unlinking (node : ι → Pointer w) (S : Sequences w) (t : Address w) :
    Contract (Command w) ι Bool (Heap w) where
  body i b h h' := ∃ a, node i = some a ∧ Disposal a h b h'
  ready i h := ∃ a, node i = some a ∧ ∀ c : Call w, c = .unlink a ∨ c = .unlinkStale a →
    ∃ h' tr, run (machine packed) c.code h = .ok ((), h', tr)
  quiet _ _ := True
  done seen h := WellFormed h (Function.update S t (some (kept node seen))) ∧
    InOrder h.load (h.load (.root t)) (kept node seen) ∧
    (h.load (.root t) = none ↔ kept node seen = [])

section Overwriting

variable {m : FieldHeap w} {h h' : Heap w} {F : Forest w} {K : Address w → Bool} {a : Address w}

/-- What happens to a node that is in no tree does not matter. -/
theorem Holds.overwrite (hh : Holds m F K) (hm : Refines m h) (ha : ¬Linked F.sequences a)
    (he : Elsewhere a h h') :
    ∃ m', Refines m' h' ∧ Holds m' F fun n => n ≠ a && K n := by
  let m' : FieldHeap w :=
    ⟨Function.update m.node a ⟨.unknown, (h'.node a).left, (h'.node a).right⟩, m.tree⟩
  have hother : ∀ b, b ≠ a → m'.node b = m.node b := fun b hb => Function.update_of_ne hb _ _
  have hself : m'.node a = ⟨.unknown, (h'.node a).left, (h'.node a).right⟩ :=
    Function.update_self ..
  refine ⟨m', ⟨?_, fun b => ?_⟩, fun t T hT => ?_, fun b hb hnl => ?_⟩
  · funext s
    have hload := congrFun hm.1 s
    cases s with
    | root t => simpa [Memory.load, m', he.1] using hload
    | left b | right b =>
      by_cases hb : b = a
      · subst hb
        simp [Memory.load, hself]
      · simpa [Memory.load, hother b hb, he.2 b hb] using hload
  · by_cases hb : b = a
    · subst hb
      simp [Memory.link, hself, Packs]
    · have hp := hm.2 b
      rwa [Memory.link, Memory.link, ← hother b hb, ← he.2 b hb] at hp
  · have hT' : ∀ b ∈ T.inorder, b ≠ a := by
      rintro b hb rfl
      exact ha (F.linked_iff.mpr ⟨t, T, hT, hb⟩)
    have hroot : m'.load (.root t) = m.load (.root t) := rfl
    have hsame : SameOn m m' T.inorder := fun b hb => by
      simp [Memory.load, Memory.link, hother b (hT' b hb)]
    exact (treeAt_congr hroot hsame).mpr (hh.tree t T hT)
  · have hba : b ≠ a ∧ K b = true := by simpa using hb
    rw [Memory.link, hother b hba.1]
    exact hh.marked b hba.2 hnl

end Overwriting

section Removal

variable {m : FieldHeap w} {h : Heap w} {F : Forest w} {K : Address w → Bool} {t a : Address w}
  {xs ys : List (Address w)}

/-- A removal takes the node out of its list. -/
theorem Holds.remove (hh : Holds m F K) (hm : Refines m h)
    (hl : F.sequences t = some (xs ++ a :: ys))
    {c : Call w} (hc : c = .unlink a ∨ c = .unlinkStale a) :
    ∃ m' h' tr, ∃ F' : Forest w, ∃ K',
      run (machine packed) c.code h = .ok ((), h', tr) ∧ Refines m' h' ∧
      Holds m' F' K' ∧ F'.sequences = Function.update F.sequences t (some (xs ++ ys)) ∧
      ¬Linked F'.sequences a := by
  obtain ⟨T, hT, hin, -⟩ := hh.mem_iff hl
  have ha : a ∈ T.inorder := by simp [hin]
  have hnd := F.nodup t T hT
  obtain ⟨hax, hay⟩ : a ∉ xs ∧ a ∉ ys := by
    rw [hin, List.nodup_middle, List.nodup_cons] at hnd
    simpa using hnd.1
  have hlinked : Linked F.sequences a := ⟨t, _, hl, by simp⟩
  have hlegal : c.Legal F.sequences h.load := by
    rcases hc with rfl | rfl
    · exact hlinked
    · exact hlinked
  obtain ⟨m', h', tr, F', -, hrun, hm', hseq, hh', -⟩ := hh.step hm hlegal
  have hafter : F'.sequences = Function.update F.sequences t (some (xs ++ ys)) := by
    have herase : T.inorder.erase a = xs ++ ys := by
      rw [hin, List.erase_append_right _ hax, List.erase_cons_head]
    obtain ⟨ctx, e, l, r, rfl⟩ := exists_fill_of_mem ha
    have hrb := F.redBlack t _ hT
    rcases hc with rfl | rfl
    · have hchange := Change.unlink (t := t) ctx e l a r
      rw [hseq, hchange.after hT, hchange.inorder hrb hnd, ← herase, Call.onList]
    · have hchange := Change.unlinkStale (t := t) ctx e l a r
      rw [hseq, hchange.after hT, hchange.inorder hrb hnd, ← herase, Call.onList]
  refine ⟨m', h', tr, F', _, hrun, hm', hh', hafter, ?_⟩
  rintro ⟨t', l', hl', ha'⟩
  rw [hafter] at hl'
  by_cases ht : t' = t
  · subst ht
    rw [Function.update_self, Option.some.injEq] at hl'
    subst hl'
    exact (List.mem_append.mp ha').elim hax hay
  · rw [Function.update_of_ne ht] at hl'
    obtain ⟨T', hT', rfl, -⟩ := hh.mem_iff hl'
    exact ht (F.eq_of_mem hT' hT ha' ha)

end Removal

section Visits

variable {h₀ h : Heap w} {cs : List (Call w)} {tr : List (Command w)} {S : Sequences w}
  {t : Address w}
  {l : List (Address w)}

/-- The trees when some nodes have had their turn and others have not: `t` has lost the nodes
that were removed. -/
def Midway (S : Sequences w) (t : Address w) (point : ι → Pointer w) (node : α → Address w)
    (seen : List (ι × Bool)) (rest : List α) (h : Heap w) : Prop :=
  ∃ m, ∃ F : Forest w, ∃ K, Refines m h ∧ Holds m F K ∧
    F.sequences = Function.update S t (some (kept point seen ++ rest.map node))

variable {point : ι → Pointer w} {node : α → Address w} {view : Option α → ι}
  {L : SafeLoop (Command w) Answer ι} {seen : List (ι × Bool)} {rest : List α} {a : α} {i : ι}

theorem kept_concat (hi : point i = some (node a)) (b : Bool) :
    kept point (seen ++ [(i, b)]) = kept point seen ++ if b then [] else [node a] := by
  cases b <;> simp [kept, hi]

/-- One turn. -/
theorem Midway.turn {b : Bool} {h' : Heap w} (hm : Midway S t point node seen (a :: rest) h)
    (hi : point i = some (node a)) (hd : Disposal (node a) h b h') :
    Midway S t point node (seen ++ [(i, b)]) rest h' := by
  obtain ⟨m, F, K, hm, hh, hseq⟩ := hm
  rw [List.map_cons] at hseq
  have hl := (congrFun hseq t).trans (Function.update_self ..)
  cases hd with
  | keep => exact ⟨m, F, K, hm, hh, by simpa [kept_concat hi] using hseq⟩
  | @unlink _ tr hrun =>
    obtain ⟨m', h₁, tr', F', K', hrun', hm', hh', hseq', -⟩ := hh.remove hm hl (.inl rfl)
    rw [Call.code, hrun] at hrun'
    cases hrun'
    exact ⟨m', F', K', hm', hh', by rw [hseq', hseq, Function.update_idem, kept_concat hi]; simp⟩
  | @unlinkStale h₁ _ tr hrun hover =>
    obtain ⟨m', h₂, tr', F', K', hrun', hm', hh', hseq', hn⟩ := hh.remove hm hl (.inr rfl)
    rw [Call.code, hrun] at hrun'
    cases hrun'
    obtain ⟨m'', hm'', hh''⟩ := hh'.overwrite hm' hn hover
    exact ⟨m'', F', _, hm'', hh'', by rw [hseq', hseq, Function.update_idem, kept_concat hi]; simp⟩

theorem Midway.laid (hm : Midway S t point node seen rest h) : ∃ T, Laid h t T ∧ T.inorder.Nodup ∧
    T.inorder = kept point seen ++ rest.map node := by
  obtain ⟨m, F, K, hm, hh, hseq⟩ := hm
  obtain ⟨T, hT, hin, -⟩ := hh.mem_iff ((congrFun hseq t).trans (Function.update_self ..))
  exact ⟨T, ⟨m, hm, hh.tree t T hT⟩, F.nodup t T hT, hin⟩

/-- The loop over nodes, and each loop that presents it, carry this on. -/
theorem carries_unlinking (hp : Presents node view (rbtreeForEachSafe (some t)) L)
    (hpoint : ∀ a, point (view (some a)) = some (node a))
    (hr : Run packed h₀ cs tr h S) {xs : List α} (hl : S t = some (xs.map node)) :
    SafeLoop.Carries (machine packed) L (unlinking point S t) h view xs
      (Midway S t point node) where
  start := by
    obtain ⟨m, F, -, hm, rfl, hh, -⟩ := hr.holds
    exact ⟨m, F, _, hm, hh, by simp [kept, ← hl]⟩
  first := by
    obtain ⟨m, F, -, hm, rfl, hh, -⟩ := hr.holds
    obtain ⟨T, hT, hin, -⟩ := hh.mem_iff hl
    obtain ⟨tr', hfirst⟩ := Laid.first ⟨m, hm, hh.tree t T hT⟩ (F.nodup t T hT)
    rw [hin, List.head?_map] at hfirst
    exact ⟨tr', hp.first hfirst⟩
  next seen rest s hm := by
    obtain ⟨T, hT, hnd, hin⟩ := hm.laid
    have hnext : ∃ tr, run (machine packed) (rbnodeNext (rest.head?.map node)) s =
        .ok (rest.tail.head?.map node, s, tr) := by
      cases rest with
      | nil => exact ⟨[], rfl⟩
      | cons a rest =>
        have hfollows := hT.follows_next hnd _ (node a) (rest.map node) hin
        rwa [List.head?_map] at hfollows
    obtain ⟨tr, hnext⟩ := hnext
    exact ⟨tr, hp.next hnext, fun _ _ => trivial⟩
  more seen a rest s hm := by
    refine ⟨s, [], by rw [hp.more]; rfl, nofun, ⟨node a, hpoint a, fun c hc => ?_⟩, ?_⟩
    · obtain ⟨m, F, K, hm, hh, hseq⟩ := hm
      have hl := (congrFun hseq t).trans (Function.update_self ..)
      obtain ⟨-, h', tr, -, -, hrun, -⟩ := hh.remove hm hl hc
      exact ⟨h', tr, hrun⟩
    · rintro b s' ⟨n, hn, hd⟩
      obtain rfl := Option.some.inj ((hpoint a).symm.trans hn)
      exact hm.turn (hpoint a) hd
  stop seen s hm := by
    refine ⟨s, [], by rw [hp.more]; rfl, nofun, ?_⟩
    obtain ⟨m, F, K, hm, hh, hseq⟩ := hm
    rw [List.map_nil, List.append_nil] at hseq
    obtain ⟨T, hT, hin, hu⟩ := hh.mem_iff ((congrFun hseq t).trans (Function.update_self ..))
    refine ⟨hseq ▸ hh.wellFormed hm, hin ▸ hm.1 ▸ hu.inOrder, ?_⟩
    rw [← hm.1, hu.root?, ColorTree.root?_eq_none, ← hin]
    cases T <;> simp [ColorTree.inorder]

/-- The safe in-order loops visit the whole list of any tree that calls have built, in order,
whatever nodes their bodies remove. -/
theorem forEachSafe_unlink (hr : Run packed h₀ cs tr h S) (hl : S t = some l) :
    SafeLoop.Visits (machine packed) (rbtreeForEachSafe (some t)) (unlinking id S t) h
        (l.map some) ∧
      ∀ (off : Word w) (es : List (Entry off)), es.map Entry.node = l →
        SafeLoop.Visits (machine packed) (rbtreeForEachEntrySafe off (some t))
          (unlinking (memberOf off) S t) h (es.map Entry.address) := by
  refine ⟨?_, ?_⟩
  · have hl' : S t = some (l.map fun a => a) := by simpa using hl
    exact (carries_unlinking (presents_node _) (fun _ => rfl) hr hl').visits
  · rintro off es rfl
    exact (carries_unlinking (presents_entrySafe off (some t))
      (fun e => e.memberOf_address) hr hl).visits

/-- The bodies remove a leaf and two nodes with two children, and overwrite what they remove. -/
theorem forEachSafe_unlink_sample : ∃ i s h₁ h₂ tr,
    SafeLoop.Turns (machine packed) (rbtreeForEachSafe (some (cell 1)))
      (unlinking id sampleLists (cell 1)).body sampleHeap
        [(some (cell 3), false), (some (cell 4), true), (some (cell 6), true),
          (some (cell 7), false), (some (cell 8), false), (some (cell 10), true),
          (some (cell 9), false)] i s h₁ ∧
    run (machine packed) ((rbtreeForEachSafe (some (cell 1))).more i) h₁ = .ok (false, h₂, tr) ∧
    WellFormed h₂ (Function.update sampleLists (cell 1)
      (some [cell 3, cell 7, cell 8, cell 9])) ∧
    InOrder h₂.load (h₂.load (.root (cell 1))) [cell 3, cell 7, cell 8, cell 9] := by
  obtain ⟨hvisits, -⟩ := forEachSafe_unlink run_sample sampleLists_second
  obtain ⟨i, s, h₁, h₂, tr, hturns, hend, hwf, hin, -⟩ := hvisits.ends
    (fun i => decide (i ∈ [some (cell 4), some (cell 6), some (cell 10)])) fun i s hi => by
    obtain ⟨a, ha, hrun⟩ := hi
    cases decide (i ∈ [some (cell 4), some (cell 6), some (cell 10)]) with
    | false => exact ⟨s, a, ha, .keep⟩
    | true =>
      obtain ⟨h', tr, hrun⟩ := hrun (.unlinkStale a) (.inr rfl)
      exact ⟨⟨Function.update h'.node a ⟨0#8, none, none⟩, h'.tree⟩, a, ha,
        .unlinkStale hrun ⟨rfl, fun b hb => Function.update_of_ne hb _ _⟩⟩
  exact ⟨i, s, h₁, h₂, tr, hturns, hend, hwf, hin⟩

end Visits

end CRbtree
