import CRbtree.Iterators
import CRbtree.Traversing

set_option autoImplicit false

/-!
Post-order iteration whose bodies destroy the nodes, while nothing repairs the tree.
-/

namespace CRbtree
open RedBlack TaggedPointers PointerGraphs Programs

variable {w : ℕ} {α ι : Type}

section Reads

variable {h h' : Heap w} {A : Set (Address w)} {r : α} {tr : List (Command w)}

theorem Command.Reads.mem {a : Address w} {c : Command w} (h : c.Reads A)
    (ha : c.Reads {a}) : a ∈ A := by
  cases c with
  | load s =>
    obtain ⟨n, hn, hA⟩ := h
    obtain ⟨n', hn', rfl⟩ := ha
    obtain rfl := Option.some.inj (hn.symm.trans hn')
    exact hA
  | raw n | flags n | parent n => exact (show n = a from ha) ▸ h
  | store s v | write n p f | turn k | crash e => exact h.elim

theorem machine_congr {c : Command w} {x : Answer c} {s : Heap w}
    (hA : ∀ a ∈ A, h'.node a = h.node a) (hc : c.Reads A) (hm : machine packed c h = .ok (x, s)) :
    s = h ∧ machine packed c h' = .ok (x, h') := by
  cases c with
  | load l =>
    obtain ⟨n, hn, hA'⟩ := hc
    cases hm
    cases l with
    | left a | right a =>
      obtain rfl := Option.some.inj hn
      simp [machine, Memory.load, hA _ hA']
    | root t => cases hn
  | raw n | flags n | parent n =>
    have hlink : h'.link n = h.link n := congrArg _ (hA n hc)
    cases hm
    simp [machine, packed, hlink, Except.map]
  | store s v | write n p f | turn k | crash e => exact hc.elim

/-- A program that only reads some nodes does not notice what happens to the others. -/
theorem run_congr {p : Prog w α} (hA : ∀ a ∈ A, h'.node a = h.node a)
    (hrun : run (machine packed) p h = .ok (r, h, tr)) (htr : ∀ c ∈ tr, c.Reads A) :
    run (machine packed) p h' = .ok (r, h', tr) := by
  induction p generalizing tr with
  | done a =>
    cases hrun
    rfl
  | step c q ih =>
    obtain ⟨x, s, tr', hm, hq, rfl⟩ := run_step_ok hrun
    obtain ⟨rfl, hm'⟩ := machine_congr hA (htr c (by simp)) hm
    rw [run_step hm', ih x hq fun c hc => htr c (by simp [hc])]
    rfl

end Reads

section Suffixes

variable {h : Heap w} {t a : Address w} {T : ColorTree (Address w)} {xs ys : List (Address w)}

/-- The step from a node only reads that node and nodes that come after it. -/
theorem Laid.nextPostorder (hT : Laid h t T) (hnd : T.inorder.Nodup)
    (hl : T.postorder = xs ++ a :: ys) :
    ∃ tr, run (machine packed) (rbnodeNextPostorder (some a)) h = .ok (ys.head?, h, tr) ∧
      ∀ c ∈ tr, c.Reads {b | b ∈ a :: ys} := by
  obtain ⟨m, hm, hT⟩ := hT
  obtain ⟨ctx, c, l, r, rfl⟩ :=
    exists_fill_of_mem (ColorTree.mem_postorder.mp (show a ∈ T.postorder by simp [hl]))
  have hsplit := hl
  rw [postorder_fill, ColorTree.postorder, ← List.append_assoc l.postorder, List.append_assoc,
    List.singleton_append, ← List.append_assoc] at hsplit
  obtain ⟨-, rfl⟩ := split_unique (hsplit ▸ hl ▸ ColorTree.nodup_postorder.mpr hnd) hsplit
  exact (peeks_rbnodeNextPostorder hT hnd fun b hb => hb).run hm

end Suffixes

/-- A body may do anything to its node. It must find it initialised, if it shall be. -/
def dismantling (point : ι → Pointer w) (t : Address w) (unlink : Bool) :
    Contract (Command w) ι Unit (Heap w) where
  body i _ h h' := ∃ a, point i = some a ∧ ∀ b, b ≠ a → h'.node b = h.node b
  ready i h := unlink = true → ∃ a, point i = some a ∧ h.node a = ⟨a.word, none, none⟩
  quiet seen c := ∀ i ∈ seen, ∀ a, point i = some a → ¬c.Reads {a}
  done _ h := unlink = true → h.load (.root t) = none

section Loops

variable {h₀ h : Heap w} {t : Address w} {T : ColorTree (Address w)} {unlink : Bool}
  {point : ι → Pointer w} {node : α → Address w} {view : Option α → ι}
  {N : SafeLoop (Command w) Answer (Pointer w)} {L : SafeLoop (Command w) Answer ι}
  {xs : List α} {seen : List (ι × Unit)} {rest : List α}

/-- A post-order loop over nodes, whose condition may initialise the node and empty the tree. -/
structure Dismantles (t : Address w) (unlink : Bool)
    (N : SafeLoop (Command w) Answer (Pointer w)) : Prop where
  first : N.first = rbtreeFirstPostorder (some t)
  next : N.next = rbnodeNextPostorder
  more : ∀ (a : Address w) (h : Heap w), ∃ h' tr,
    run (machine packed) (N.more (some a)) h = .ok (true, h', tr) ∧
    (∀ c ∈ tr, ∀ A, ¬c.Reads A) ∧ (∀ b, b ≠ a → h'.node b = h.node b) ∧
    (unlink = true → h'.node a = ⟨a.word, none, none⟩)
  stop : ∀ h : Heap w, ∃ h' tr, run (machine packed) (N.more none) h = .ok (false, h', tr) ∧
    (∀ c ∈ tr, ∀ A, ¬c.Reads A) ∧ (unlink = true → h'.load (.root t) = none)

theorem dismantles_safePostorder (t : Address w) :
    Dismantles t false (rbtreeForEachSafePostorder (some t)) where
  first := rfl
  next := rfl
  more _ h := ⟨h, [], rfl, nofun, fun _ _ => rfl, nofun⟩
  stop h := ⟨h, [], rfl, nofun, nofun⟩

theorem dismantles_safePostorderUnlink (t : Address w) :
    Dismantles t true (rbtreeForEachSafePostorderUnlink (some t)) where
  first := rfl
  next := rfl
  more a h := by
    refine ⟨((h.setLink a (a.word ||| 0#(w + 2))).store (.left a) none).store (.right a) none,
      [.write a (some a) 0#(w + 2), .store (.left a) none, .store (.right a) none], rfl, ?_, ?_, ?_⟩
    · simp [Command.Reads]
    · intro b hb
      simp [Memory.store, Memory.setLink, hb]
    · simp [Memory.store, Memory.setLink]
  stop h := by
    refine ⟨h.store (.root t) none, [.store (.root t) none], rfl, ?_, fun _ => by simp⟩
    simp [Command.Reads]

/-- The nodes that have not had their turn are as they were. -/
structure Intact (h₀ : Heap w) (node : α → Address w) (view : Option α → ι) (xs : List α)
    (seen : List (ι × Unit)) (rest : List α) (h : Heap w) : Prop where
  split : ∃ pre, xs = pre ++ rest ∧ seen.map Prod.fst = pre.map fun a => view (some a)
  same : ∀ a ∈ rest, h.node (node a) = h₀.node (node a)

/-- Reading nodes that have not had their turn is reading none that have. -/
theorem Intact.quiet (hi : Intact h₀ node view xs seen rest h) (hnd : (xs.map node).Nodup)
    (hpoint : ∀ a, point (view (some a)) = some (node a)) {c : Command w}
    (hc : c.Reads {b | b ∈ rest.map node}) :
    (dismantling point t unlink).quiet (seen.map Prod.fst) c := by
  obtain ⟨pre, rfl, hpre⟩ := hi.split
  intro i hmem a ha hca
  rw [hpre] at hmem
  obtain ⟨a', ha', rfl⟩ := List.mem_map.mp hmem
  obtain rfl := Option.some.inj ((hpoint a').symm.trans ha)
  rw [List.map_append, List.nodup_append'] at hnd
  exact hnd.2.2 (List.mem_map_of_mem ha') (hc.mem hca)

theorem carries_dismantling (hN : Dismantles t unlink N) (hp : Presents node view N L)
    (hpoint : ∀ a, point (view (some a)) = some (node a)) (hT : Laid h₀ t T) (hnd : T.inorder.Nodup)
    (hxs : xs.map node = T.postorder) :
    SafeLoop.Carries (machine packed) L (dismantling point t unlink) h₀ view xs
      (Intact h₀ node view xs) where
  start := ⟨⟨[], rfl, rfl⟩, fun _ _ => rfl⟩
  first := by
    obtain ⟨tr, hfirst⟩ := hT.firstPostorder hnd
    rw [← hxs, List.head?_map, ← hN.first] at hfirst
    exact ⟨tr, hp.first hfirst⟩
  next seen rest s hi := by
    have hnd' : (xs.map node).Nodup := hxs ▸ ColorTree.nodup_postorder.mpr hnd
    cases rest with
    | nil => exact ⟨[], hp.next (o := none) (by rw [hN.next]; rfl), nofun⟩
    | cons a rest =>
      obtain ⟨pre, hpre, -⟩ := hi.split
      have hsplit : T.postorder = pre.map node ++ node a :: rest.map node := by simp [← hxs, hpre]
      obtain ⟨tr, hrun, htr⟩ := hT.nextPostorder hnd hsplit
      have hsame : ∀ b ∈ {b | b ∈ node a :: rest.map node}, s.node b = h₀.node b := by
        intro b hb
        obtain ⟨a', ha', rfl⟩ := List.mem_map.mp (show b ∈ (a :: rest).map node from hb)
        exact hi.same a' ha'
      have hrun' := run_congr hsame hrun htr
      rw [List.head?_map, ← hN.next] at hrun'
      exact ⟨tr, hp.next (o := some a) hrun', fun c hc => hi.quiet hnd' hpoint (htr c hc)⟩
  more seen a rest s hi := by
    obtain ⟨h', tr, hrun, htr, hother, hready⟩ := hN.more (node a) s
    refine ⟨h', tr, by rw [hp.more]; exact hrun, fun c hc _ _ b _ => htr c hc {b},
      fun hu => ⟨node a, hpoint a, hready hu⟩, ?_⟩
    rintro ⟨⟩ s' ⟨b, hb, hkeep⟩
    obtain rfl := Option.some.inj ((hpoint a).symm.trans hb)
    obtain ⟨pre, hpre, hseen⟩ := hi.split
    refine ⟨⟨pre ++ [a], by simp [hpre], by simp [hseen]⟩, fun a' ha' => ?_⟩
    have hne : node a' ≠ node a := by
      intro he
      have hnd' : (xs.map node).Nodup := hxs ▸ ColorTree.nodup_postorder.mpr hnd
      rw [hpre, List.map_append, List.map_cons, List.nodup_middle, List.nodup_cons] at hnd'
      exact hnd'.1 (List.mem_append_right _ (he ▸ List.mem_map_of_mem ha'))
    rw [hkeep _ hne, hother _ hne]
    exact hi.same a' (by simp [ha'])
  stop seen s hi := by
    obtain ⟨h', tr, hrun, htr, hroot⟩ := hN.stop s
    exact ⟨h', tr, by rw [hp.more]; exact hrun, fun c hc _ _ b _ => htr c hc {b}, hroot⟩

/-- The safe post-order loops visit all nodes of any well-formed tree in post-order, whatever
their bodies do to the nodes that are visited. -/
theorem forEachSafePostorder_destroy (hT : Laid h₀ t T) (hnd : T.inorder.Nodup) :
    (SafeLoop.Visits (machine packed) (rbtreeForEachSafePostorderUnlink (some t))
        (dismantling id t true) h₀ (T.postorder.map some) ∧
      SafeLoop.Visits (machine packed) (rbtreeForEachSafePostorder (some t))
        (dismantling id t false) h₀ (T.postorder.map some)) ∧
      ∀ (off : Word w) (es : List (Entry off)), es.map Entry.node = T.postorder →
        SafeLoop.Visits (machine packed) (rbtreeForEachEntrySafePostorderUnlink off (some t))
            (dismantling (memberOf off) t true) h₀ (es.map Entry.address) ∧
          SafeLoop.Visits (machine packed) (rbtreeForEachEntrySafePostorder off (some t))
            (dismantling (memberOf off) t false) h₀ (es.map Entry.address) := by
  have hid : T.postorder.map (fun a => a) = T.postorder := List.map_id' _
  refine ⟨⟨?_, ?_⟩, fun off es hes => ⟨?_, ?_⟩⟩
  · exact (carries_dismantling (dismantles_safePostorderUnlink t) (presents_node _) (fun _ => rfl)
      hT hnd hid).visits
  · exact (carries_dismantling (dismantles_safePostorder t) (presents_node _) (fun _ => rfl)
      hT hnd hid).visits
  · exact (carries_dismantling (dismantles_safePostorderUnlink t)
      (presents_entrySafePostorderUnlink off (some t))
      (fun e => e.memberOf_address) hT hnd hes).visits
  · exact (carries_dismantling (dismantles_safePostorder t)
      (presents_entrySafePostorder off (some t)) (fun e => e.memberOf_address) hT hnd hes).visits

/-- The bodies overwrite their nodes. -/
theorem forEachSafePostorder_destroy_sample : ∃ i s h₁ h₂ tr,
    SafeLoop.Turns (machine packed) (rbtreeForEachSafePostorderUnlink (some (cell 1)))
      (dismantling id (cell 1) true).body sampleHeap
      ([cell 4, cell 3, cell 8, cell 7, cell 9, cell 10, cell 6].map fun n => (some n, ())) i s h₁ ∧
    run (machine packed) ((rbtreeForEachSafePostorderUnlink (some (cell 1))).more i) h₁ =
      .ok (false, h₂, tr) ∧ h₂.load (.root (cell 1)) = none := by
  obtain ⟨⟨hvisits, -⟩, -⟩ := forEachSafePostorder_destroy laid_sampleTree nodup_sampleTree
  obtain ⟨i, s, h₁, h₂, tr, hturns, hend, hdone⟩ := hvisits.ends (fun _ => ()) fun i s hi => by
    obtain ⟨a, ha, -⟩ := hi rfl
    exact ⟨⟨Function.update s.node a ⟨255#8, some a, some a⟩, s.tree⟩, a, ha,
      fun b hb => Function.update_of_ne hb _ _⟩
  exact ⟨i, s, h₁, h₂, tr, hturns, hend, hdone rfl⟩

end Loops

end CRbtree
