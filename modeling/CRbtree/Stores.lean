import CRbtree.Runs

set_option autoImplicit false

/-!
The graph of child pointers between the stores of a call.
-/

namespace CRbtree
open RedBlack TaggedPointers PointerGraphs Programs

variable {w : ℕ}

/-- The tree at `t` is the one that the call works on. -/
def Call.On (S : Sequences w) (t : Address w) : Call w → Prop
  | add t' none _ _ => t' = t
  | add _ (some p) _ _ | link p _ _ => ∃ l, S t = some l ∧ p ∈ l
  | unlink n | unlinkStale n => ∃ l, S t = some l ∧ n ∈ l
  | treeInit _ | nodeInit _ | move _ _ => False

theorem Call.On.changes {S : Sequences w} {t : Address w} {c : Call w} (h : c.On S t) :
    c.Changes = true := by
  cases c with
  | treeInit t | nodeInit n | move dst src => exact h.elim
  | add t p l n | link p l n | unlink n | unlinkStale n => rfl

theorem Change.on {F : Forest w} {t t' : Address w} {c : Call w} {T T' : ColorTree (Address w)}
    {k : ℕ} (h : Change t c T T' k) (hT : F.tree t = some T)
    (hon : c.On F.sequences t') : t' = t := by
  have hmem : ∀ a ∈ T.inorder, (∃ l, F.sequences t' = some l ∧ a ∈ l) → t' = t := by
    rintro a ha ⟨l, hl, hal⟩
    obtain ⟨U, hU, rfl⟩ : ∃ U, F.tree t' = some U ∧ U.inorder = l := by
      simpa [Forest.sequences] using hl
    exact F.eq_of_mem hU hT hal ha
  cases h with
  | plant n => exact hon.symm
  | add t' f ctx n | link f ctx n => exact hmem f.label (by simp [mem_fill, elems]) hon
  | unlink ctx c l n r | unlinkStale ctx c l n r =>
    exact hmem n (by simp [mem_fill, ColorTree.inorder]) hon

/-- A program in progress on packed words, that runs to its end in the region and
establishes `Q` there, as it does on separate fields. -/
def Underway (M : Region w) (Q : FieldHeap w → Prop) (p : Prog w Unit) (h : Heap w) : Prop :=
  ∃ m, Refines m h ∧ Exec M p (fun _ m' _ => Q m') m

section Underway

variable {M : Region w} {Q : FieldHeap w → Prop} {h h' : Heap w}

theorem Underway.command {c : Command w} {q : Answer c → Prog w Unit} {r : Answer c}
    (hp : Underway M Q (.step c q) h) (hc : machine packed c h = .ok (r, h')) :
    M.Allows h.load c ∧ Underway M Q (q r) h' := by
  obtain ⟨m, hm, r', m', hc', hg, hq⟩ := hp
  obtain ⟨h'', hc'', hm'⟩ := refines_command c m h r' m' hm hc'
  rw [hc] at hc''
  cases hc''
  exact ⟨hm.1 ▸ hg, m', hm', hq⟩

theorem Underway.done (hp : Underway M Q (.done ()) h) : ∃ m, Refines m h ∧ Q m := hp

end Underway

section Graph

variable {M : Region w} {h h' : Heap w} {c : Command w} {r : Answer c} {A : Set (Address w)}
  (hM : M.members ⊆ A) (hg : M.Allows h.load c) (hc : machine packed c h = .ok (r, h'))
include hM hg hc

/-- An allowed command closes no loop. -/
theorem endsIn_command {p : Pointer w} (hp : EndsIn h.load A p) : EndsIn h'.load A p := by
  rcases machine_cases hc with ⟨s, v, rfl, rfl⟩ | ⟨n, q, x, l, rfl, -, rfl⟩ | ⟨-, rfl⟩
  · obtain ⟨-, u, hu, hoff, hmem⟩ := hg
    obtain ⟨t, ht, hA⟩ := hp
    obtain ⟨t', ht', hmem'⟩ := ht.update hu hoff
    refine ⟨t', by rwa [Memory.load_store], fun a ha => ?_⟩
    rcases hmem' a ha with ha | ha
    · exact hA a ha
    · exact hM (hmem a ha)
  · rwa [Memory.load_setLink]
  · exact hp

theorem endsIn_slot {s : Slot w} (hs : EndsIn h.load A (h.load s)) :
    EndsIn h'.load A (h'.load s) := by
  have hkeep := endsIn_command hM hg hc hs
  rcases machine_cases hc with ⟨s', v, rfl, rfl⟩ | ⟨n, q, x, l, rfl, -, rfl⟩ | ⟨-, rfl⟩
  · by_cases hss : s = s'
    · subst hss
      obtain ⟨-, u, hu, hoff, hmem⟩ := hg
      rw [Memory.load_store_self, Memory.load_store]
      exact ⟨u, (unfolds_update hoff).mpr hu, fun a ha => hM (hmem a ha)⟩
    · rwa [Memory.load_store_of_ne _ hss]
  · rwa [Memory.load_setLink] at hkeep ⊢
  · exact hkeep

end Graph

/-- The slot leads to a finite tree in `A` throughout a program that stays in `A`. -/
theorem Underway.endsIn {M : Region w} {Q : FieldHeap w → Prop} {p p' : Prog w Unit} {h h' : Heap w}
    {tr : List (Command w)} {A : Set (Address w)} {s : Slot w} (hp : Underway M Q p h)
    (hM : M.members ⊆ A) (hst : Steps (machine packed) p h tr p' h')
    (hs : EndsIn h.load A (h.load s)) : Underway M Q p' h' ∧ EndsIn h'.load A (h'.load s) := by
  induction hst with
  | refl p h => exact ⟨hp, hs⟩
  | step hc hst ih =>
    obtain ⟨hg, hp'⟩ := hp.command hc
    exact ih hp' (endsIn_slot hM hg hc hs)

/-- What a legal call on the tree at `t` promises from its start. -/
theorem Holds.underway {m : FieldHeap w} {h : Heap w} {F : Forest w} {K : Address w → Bool}
    {c : Call w} {t : Address w} (hh : Holds m F K) (hm : Refines m h)
    (hc : c.Legal F.sequences h.load) (hon : c.On F.sequences t) :
    ∃ T l, F.tree t = some T ∧ (∀ n ∈ c.added, n ∉ T.inorder ∧ n ∈ l) ∧
      c.after F.sequences t = some l ∧
      Underway (regionOf (T.inorder ++ c.added) [t])
        (fun m' => ∃ F' K', F'.sequences = c.after F.sequences ∧ Holds m' F' K') c.code h := by
  obtain ⟨t', T, T', k, hT, hchange, hnd, hnew⟩ := hh.exists_change (hm.1 ▸ hc) hon.changes
  obtain rfl := hchange.on hT hon
  obtain ⟨F', -, hseq, -, he⟩ := hh.exec_change hT hchange hnd hnew
  refine ⟨T, T'.inorder, hT, fun n hn => ⟨fun hnT => ?_, hchange.added_mem hn⟩, ?_, m, hm, ?_⟩
  · exact hnew n hn (F.linked_iff.mpr ⟨t, T, hT, hnT⟩)
  · rw [hchange.after hT, Function.update_self]
  · refine exec_mono ?_ he
    rintro _ m' i ⟨hm', -⟩
    exact ⟨F', _, hseq, hm'⟩

/-- A call that adds a node first sets its fields. -/
theorem Call.Legal.code_eq {S : Sequences w} {g : Slot w → Pointer w} {c : Call w} {n : Address w}
    (hc : c.Legal S g) (hn : n ∈ c.added) : ∃ p k, c.code =
      .step (.write n p rbnodeRed) fun _ => .step (.store (.left n) none) fun _ =>
        .step (.store (.right n) none) k := by
  cases c with
  | treeInit t | nodeInit a | move dst src | unlink a | unlinkStale a => cases hn
  | add t p l a =>
    obtain rfl : n = a := by simpa [Call.added] using hn
    cases p with
    | none =>
      obtain ⟨-, rfl, -⟩ := hc
      exact ⟨_, _, by simp [Call.code, rbtreeAdd, cAssert]; rfl⟩
    | some p =>
      obtain ⟨-, rfl | rfl, -⟩ := hc
      all_goals exact ⟨_, _, by simp [Call.code, rbtreeAdd, cAssert, isChildSlot]; rfl⟩
  | link p l a =>
    obtain rfl : n = a := by simpa [Call.added] using hn
    obtain ⟨-, rfl | rfl, -⟩ := hc
    all_goals exact ⟨_, _, by simp [Call.code, rbnodeLink, cAssert, isChildSlot]; rfl⟩

section Between

variable {h₀ h h' : Heap w} {cs : List (Call w)} {tr tr' : List (Command w)} {S : Sequences w}
  {c : Call w} {t : Address w} {p : Prog w Unit}

/-- Until a new node's fields are set, the old tree is what the root leads to. -/
theorem steps_unfolds {T : ColorTree (Address w)} {n : Address w}
    (hT : Unfolds h.load (h.load (.root t)) T) (hn : n ∉ T.inorder) {q : Pointer w} {f : Word w}
    {k : Unit → Prog w Unit}
    (hs : Steps (machine packed) (.step (.write n q f) fun _ => .step (.store (.left n) none)
      fun _ => .step (.store (.right n) none) k) h tr' p h') :
    Unfolds h'.load (h'.load (.root t)) T ∨
      .store (.left n) none ∈ tr' ∧ .store (.right n) none ∈ tr' := by
  have hstore : ∀ (h : Heap w) d, Unfolds h.load (h.load (.root t)) T →
      Unfolds (h.store (.child d n) none).load ((h.store (.child d n) none).load (.root t)) T := by
    intro h d hT
    rw [Memory.load_store_of_ne _ (by simp), Memory.load_store]
    exact (unfolds_update (by simpa using hn)).mpr hT
  rcases steps_step hs with ⟨-, rfl⟩ | ⟨_, h₁, tr₁, hc₁, rfl, hs⟩
  · exact .inl hT
  cases hc₁
  have hT₁ : Unfolds (h.setLink n (q.word ||| f)).load
      ((h.setLink n (q.word ||| f)).load (.root t)) T := by
    rwa [Memory.load_setLink]
  rcases steps_step hs with ⟨-, rfl⟩ | ⟨_, h₂, tr₂, hc₂, rfl, hs⟩
  · exact .inl hT₁
  cases hc₂
  rcases steps_step hs with ⟨-, rfl⟩ | ⟨_, h₃, tr₃, hc₃, rfl, hs⟩
  · exact .inl (hstore _ .left hT₁)
  · exact .inr (by simp)

/-- Between any two stores of a call, the pointers below the root of its tree close no
loop, and lead to old members or to the added node, once its own pointers are set. -/
theorem run_loopless (hr : Run packed h₀ cs tr h S) (hc : c.Legal S h.load) (hon : c.On S t)
    (hs : Steps (machine packed) c.code h tr' p h') :
    Loopless h'.load (h'.load (.root t)) ∧ ∀ a, Reachable h'.load (h'.load (.root t)) a →
      (∃ l, S t = some l ∧ a ∈ l) ∨
        a ∈ c.added ∧ .store (.left a) none ∈ tr' ∧ .store (.right a) none ∈ tr' := by
  obtain ⟨m, F, -, hm, rfl, hh, -⟩ := hr.holds
  obtain ⟨T, l, hT, hnew, -, hp⟩ := hh.underway hm hc hon
  have hu : Unfolds h.load (h.load (.root t)) T := hm.1 ▸ (hh.tree t T hT).unfolds
  have hseq : F.sequences t = some T.inorder := by simp [Forest.sequences, hT]
  have hends := (hp.endsIn (A := {a | a ∈ T.inorder ++ c.added}) (fun _ => id) hs
    ⟨T, hu, fun a ha => List.mem_append_left _ ha⟩).2
  refine ⟨hends.loopless, fun a ha => ?_⟩
  rcases List.mem_append.mp (hends.mem ha) with haT | hac
  · exact .inl ⟨_, hseq, haT⟩
  · obtain ⟨q, k, hcode⟩ := hc.code_eq hac
    rw [hcode] at hs
    rcases steps_unfolds hu (hnew a hac).1 hs with hold | hset
    · exact absurd (hold.reachable_iff.mp ha) (hnew a hac).1
    · exact .inr ⟨hac, hset⟩

/-- In a removal, when the successor has its new children but is not linked yet; in another
one, halfway through a rotation; in an insertion, when the new node is linked. -/
theorem run_loopless_sample :
    (∃ tr p h', Steps (machine packed) (Call.unlinkStale (cell 6)).code sampleHeap tr p h' ∧
      (h'.load (.left (cell 7)) = some (cell 3) ∧ h'.load (.root (cell 1)) = some (cell 6)) ∧
      Loopless h'.load (h'.load (.root (cell 1))) ∧
      ∀ a, Reachable h'.load (h'.load (.root (cell 1))) a →
        a ∈ [cell 3, cell 4, cell 6, cell 7, cell 8, cell 10, cell 9]) ∧
    (∃ tr p h', Steps (machine packed) (Call.unlink (cell 9)).code sampleHeap tr p h' ∧
      (h'.load (.left (cell 8)) = some (cell 7) ∧ h'.load (.left (cell 10)) = none) ∧
      Loopless h'.load (h'.load (.root (cell 1))) ∧
      ∀ a, Reachable h'.load (h'.load (.root (cell 1))) a →
        a ∈ [cell 3, cell 4, cell 6, cell 7, cell 8, cell 10, cell 9]) ∧
    ∃ tr p h', Steps (machine packed) (Call.link (cell 8) (.right (cell 8)) (cell 2)).code
        sampleHeap tr p h' ∧
      (h'.load (.right (cell 8)) = some (cell 2) ∧ h'.load (.right (cell 7)) = some (cell 8)) ∧
      Loopless h'.load (h'.load (.root (cell 1))) ∧
      ∀ a, Reachable h'.load (h'.load (.root (cell 1))) a →
        a ∈ [cell 3, cell 4, cell 6, cell 7, cell 8, cell 10, cell 9] ∨ a = cell 2 := by
  have hpoint : ∀ (k : ℕ) (c : Call 6) (P : Heap 6 → Prop) [DecidablePred P],
      (advance (machine packed) k c.code sampleHeap).any (fun x => decide (P x.2.2)) = true →
      c.Legal sampleLists sampleHeap.load → c.On sampleLists (cell 1) →
      ∃ tr p h', Steps (machine packed) c.code sampleHeap tr p h' ∧ P h' ∧
        Loopless h'.load (h'.load (.root (cell 1))) ∧
        ∀ a, Reachable h'.load (h'.load (.root (cell 1))) a →
          a ∈ [cell 3, cell 4, cell 6, cell 7, cell 8, cell 10, cell 9] ∨ a ∈ c.added := by
    intro k c P _ hP hc hon
    obtain ⟨tr, p, h', hs, hP⟩ := exists_steps hP
    obtain ⟨hloopless, hreach⟩ := run_loopless run_sample hc hon hs
    refine ⟨tr, p, h', hs, hP, hloopless, fun a ha => ?_⟩
    rcases hreach a ha with ⟨l, hl, hal⟩ | ⟨hadded, -⟩
    · obtain rfl := Option.some.inj (sampleLists_second.symm.trans hl)
      exact .inl hal
    · exact .inr hadded
  have hremoval := hpoint 25 (.unlinkStale (cell 6)) (fun h => h.load (.left (cell 7)) =
    some (cell 3) ∧ h.load (.root (cell 1)) = some (cell 6)) (by decide +kernel)
    (run_sample.legal (by decide +kernel)) ⟨_, sampleLists_second, by simp⟩
  have hrotation := hpoint 31 (.unlink (cell 9)) (fun h => h.load (.left (cell 8)) =
    some (cell 7) ∧ h.load (.left (cell 10)) = none) (by decide +kernel)
    (run_sample.legal (by decide +kernel)) ⟨_, sampleLists_second, by simp⟩
  have hinsertion := hpoint 4 (.link (cell 8) (.right (cell 8)) (cell 2)) (fun h =>
    h.load (.right (cell 8)) = some (cell 2) ∧ h.load (.right (cell 7)) = some (cell 8))
    (by decide +kernel) (run_sample.legal (by decide +kernel)) ⟨_, sampleLists_second, by simp⟩
  simp only [Call.added, List.not_mem_nil, or_false] at hremoval hrotation
  simp only [Call.added, List.mem_singleton] at hinsertion
  exact ⟨hremoval, hrotation, hinsertion⟩

end Between

end CRbtree
