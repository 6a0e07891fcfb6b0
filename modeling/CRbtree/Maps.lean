import CRbtree.Lookup
import CRbtree.Runs

set_option autoImplicit false

/-!
Trees whose nodes are added where c_rbtree_find_slot() says, as maps from keys to nodes.
-/

namespace CRbtree
open RedBlack TaggedPointers PointerGraphs Programs

variable {κ : Type} [LinearOrder κ] {w : ℕ}

/-- For every tree that is used as a map, the node stored under each key. -/
abbrev Maps (κ : Type) (w : ℕ) := Address w → Option (κ → Pointer w)

/-- The runs of a map's operations, from any state that has empty trees. -/
inductive MapRun (f : CRBCompareFunc κ w) (key : Address w → κ) (h₀ : Heap w) :
    Heap w → Sequences w → Maps κ w → Prop
  | start {cs : List (Call w)} {tr : List (Command w)} {h : Heap w} {S : Sequences w}
      (hr : Run packed h₀ cs tr h S) :
      MapRun f key h₀ h S fun t => if S t = some [] then some fun _ => none else none
  | init {h h' : Heap w} {S : Sequences w} {Ms : Maps κ w} {t : Address w} {tr : List (Command w)}
      (hr : MapRun f key h₀ h S Ms) (ht : ∀ l, S t = some l → l = [])
      (hinit : run (machine packed) (rbtreeInit (some t)) h = .ok ((), h', tr)) :
      MapRun f key h₀ h' ((Call.treeInit t).after S) (Function.update Ms t (some fun _ => none))
  | conflict {h h' : Heap w} {S : Sequences w} {Ms : Maps κ w} {t : Address w} {μ : κ → Pointer w}
      {k : κ} {p : Pointer w} {tr : List (Command w)} (hr : MapRun f key h₀ h S Ms)
      (ht : Ms t = some μ)
      (hfind : run (machine packed) (rbtreeFindSlot (2 ^ w) f (some t) k) h =
        .ok ((none, p), h', tr)) :
      MapRun f key h₀ h' S Ms
  | add {h h' h'' : Heap w} {S : Sequences w} {Ms : Maps κ w} {t n : Address w}
      {μ : κ → Pointer w} {l : Slot w} {p : Pointer w} {tr tr' : List (Command w)}
      (hr : MapRun f key h₀ h S Ms) (ht : Ms t = some μ) (hn : ¬Linked S n)
      (hfind : run (machine packed) (rbtreeFindSlot (2 ^ w) f (some t) (key n)) h =
        .ok ((some l, p), h', tr))
      (hadd : run (machine packed) (rbtreeAdd (some t) p (some l) (some n)) h' =
        .ok ((), h'', tr')) :
      MapRun f key h₀ h'' ((Call.add t p l n).after S)
        (Function.update Ms t (some (Function.update μ (key n) (some n))))
  | unlink {h h' : Heap w} {S : Sequences w} {Ms : Maps κ w} {t n : Address w}
      {μ : κ → Pointer w} {l : List (Address w)} {tr : List (Command w)}
      (hr : MapRun f key h₀ h S Ms) (ht : Ms t = some μ) (hl : S t = some l) (hn : n ∈ l)
      (hunlink : run (machine packed) (rbnodeUnlink (some n)) h = .ok ((), h', tr)) :
      MapRun f key h₀ h' ((Call.unlink n).after S)
        (Function.update Ms t (some (Function.update μ (key n) none)))
  | move {h h' : Heap w} {S : Sequences w} {Ms : Maps κ w} {dst src : Address w}
      {μ : κ → Pointer w} {tr : List (Command w)} (hr : MapRun f key h₀ h S Ms)
      (hd : S dst = some []) (hs : Ms src = some μ)
      (hmove : run (machine packed) (rbtreeMove (some dst) (some src)) h = .ok ((), h', tr)) :
      MapRun f key h₀ h' ((Call.move dst src).after S)
        (Function.update (Function.update Ms dst (some μ)) src (some fun _ => none))

/-- The list is sorted, and the map stores its nodes under their keys. -/
structure Stores (key : Address w → κ) (l : List (Address w)) (μ : κ → Pointer w) : Prop where
  sorted : Sorted key l
  stored : ∀ k a, μ k = some a ↔ a ∈ l ∧ key a = k

namespace Stores

variable {key : Address w → κ} {l l' : List (Address w)} {μ : κ → Pointer w} {n : Address w}

theorem nil : Stores key [] fun _ => none := ⟨List.Pairwise.nil, by simp⟩

theorem insert (h : Stores key (l ++ l') μ) (hs : Sorted key (l ++ n :: l')) :
    Stores key (l ++ n :: l') (Function.update μ (key n) (some n)) := by
  refine ⟨hs, fun k a => ?_⟩
  have hmem : ∀ a, a ∈ l ++ n :: l' ↔ a = n ∨ a ∈ l ++ l' := by
    intro a
    simp only [List.mem_append, List.mem_cons]
    tauto
  by_cases hk : k = key n
  · subst hk
    rw [Function.update_self, Option.some.injEq]
    refine ⟨fun ha => ha ▸ ⟨(hmem n).mpr (.inl rfl), rfl⟩, fun ⟨ha, hka⟩ => ?_⟩
    exact hs.eq_of_key ((hmem n).mpr (.inl rfl)) ha hka.symm
  · rw [Function.update_of_ne hk, h.stored, hmem]
    refine and_congr_left fun hka => ⟨.inr, fun ha => ha.resolve_left ?_⟩
    rintro rfl
    exact hk hka.symm

theorem erase (h : Stores key l μ) (hn : n ∈ l) :
    Stores key (l.erase n) (Function.update μ (key n) none) := by
  have hnd : l.Nodup := h.sorted.imp fun hlt hab => hlt.ne (congrArg key hab)
  refine ⟨h.sorted.sublist List.erase_sublist, fun k a => ?_⟩
  rw [hnd.mem_erase_iff]
  by_cases hk : k = key n
  · subst hk
    rw [Function.update_self]
    exact ⟨nofun, fun ⟨⟨hne, ha⟩, hka⟩ => absurd (h.sorted.eq_of_key ha hn hka) hne⟩
  · rw [Function.update_of_ne hk, h.stored]
    refine and_congr_left fun hka => ⟨fun ha => ⟨?_, ha⟩, fun ha => ha.2⟩
    rintro rfl
    exact hk hka.symm

end Stores

/-- The lists of the trees that are used as maps hold what the maps store. -/
def Keeps (key : Address w → κ) (S : Sequences w) (Ms : Maps κ w) : Prop :=
  ∀ t μ, Ms t = some μ → ∃ l, S t = some l ∧ Stores key l μ

theorem Keeps.update {key : Address w → κ} {S : Sequences w} {Ms : Maps κ w} {t : Address w}
    {l : List (Address w)} {μ : κ → Pointer w} (h : Keeps key S Ms) (hl : Stores key l μ) :
    Keeps key (Function.update S t (some l)) (Function.update Ms t (some μ)) := by
  intro t' μ' hμ
  by_cases ht : t' = t
  · subst ht
    rw [Function.update_self, Option.some.injEq] at hμ
    exact ⟨l, Function.update_self _ _ _, hμ ▸ hl⟩
  · rw [Function.update_of_ne ht] at hμ
    rw [Function.update_of_ne ht]
    exact h t' μ' hμ

/-- A new node may be added at any hole of a tree. -/
theorem Holds.legal_hole {m : FieldHeap w} {F : Forest w} {K : Address w → Bool} (hh : Holds m F K)
    {t n : Address w} {ctx : Context (Address w)} (hT : F.tree t = some (fill ctx .nil))
    (hn : ¬Linked F.sequences n) :
    (Call.add t (hole (.root t) ctx).holder (hole (.root t) ctx) n).Legal F.sequences m.load := by
  have hload := (treeAt_fill.mp (hh.tree t _ hT)).1.load
  cases ctx with
  | nil => exact ⟨by simp [Forest.sequences, hT], rfl, hload, hn⟩
  | cons f ctx =>
    rw [hole_cons, Slot.holder_child]
    refine ⟨F.linked_iff.mpr ⟨t, _, hT, by simp [mem_fill, elems]⟩, ?_, hload, hn⟩
    cases f.side with
    | left => exact .inl rfl
    | right => exact .inr rfl

section Run

variable {f : CRBCompareFunc κ w} {key : Address w → κ}
  (hf : ∀ t k, Compares (fun a => f t k (some a)) key k)

omit [LinearOrder κ] in
theorem Holds.search {m : FieldHeap w} {h : Heap w} {F : Forest w} {K : Address w → Bool}
    (hh : Holds m F K) (hm : Refines m h) {t : Address w} {l : List (Address w)}
    (hl : F.sequences t = some l) (f : CRBCompareFunc κ w) (k : κ) :
    ∃ T, F.tree t = some T ∧ T.inorder = l ∧
      (∃ tr, run (machine packed) (rbtreeFindNode (2 ^ w) f (some t) k) h =
        .ok ((RedBlack.search (fun a => f (some t) k (some a)) [] T).2.root?, h, tr)) ∧
      ∃ tr, run (machine packed) (rbtreeFindSlot (2 ^ w) f (some t) k) h =
        .ok (slotOf (.root t) (RedBlack.search (fun a => f (some t) k (some a)) [] T), h, tr) := by
  obtain ⟨T, hT, rfl, -⟩ := hh.mem_iff hl
  have hturns := (height_lt_of_nodup (F.nodup t T hT)).le
  exact ⟨T, hT, rfl, run_findNode hm (hh.tree t T hT) hturns f k,
    run_findSlot hm (hh.tree t T hT) hturns f k⟩

/-- Where the search for the key of a new node ends, the node may be added, and is then
sorted in. -/
theorem Holds.add_slot {m : FieldHeap w} {F : Forest w} {K : Address w → Bool} (hh : Holds m F K)
    {t n : Address w} {T : ColorTree (Address w)} (hT : F.tree t = some T)
    {v : Address w → ℤ} (hv : Compares v key (key n)) (hn : ¬Linked F.sequences n)
    {μ : κ → Pointer w} (hs : Stores key T.inorder μ) {l : Slot w} {p : Pointer w}
    (hslot : slotOf (.root t) (RedBlack.search v [] T) = (some l, p)) :
    (Call.add t p l n).Legal F.sequences m.load ∧
      ∃ l', Stores key l' (Function.update μ (key n) (some n)) ∧
      (Call.add t p l n).after F.sequences = Function.update F.sequences t (some l') := by
  have hfill := fill_search v [] T
  have hsort := sorted_search hv hs.sorted
  rcases hres : RedBlack.search v [] T with ⟨ctx, U⟩
  rw [hres] at hslot hfill hsort
  cases U with
  | node c a x b => cases hslot
  | nil =>
    cases hslot
    rw [fill_nil] at hfill
    subst hfill
    obtain ⟨k, hchange⟩ := Change.hole t ctx n
    rw [inorder_fill, ColorTree.inorder, List.append_nil] at hs
    refine ⟨hh.legal_hole hT hn, _, hs.insert (hsort rfl), ?_⟩
    rw [hchange.after hT, inorder_insertAt]

include hf

theorem MapRun.keeps {h₀ h : Heap w} {S : Sequences w} {Ms : Maps κ w}
    (hr : MapRun f key h₀ h S Ms) : ∃ cs tr, Run packed h₀ cs tr h S ∧ Keeps key S Ms := by
  induction hr with
  | @start cs tr h S hr =>
    refine ⟨cs, tr, hr, fun t μ hμ => ?_⟩
    simp only [Option.ite_none_right_eq_some, Option.some.injEq] at hμ
    exact ⟨[], hμ.1, hμ.2 ▸ .nil⟩
  | @init h h' S Ms t tr hr ht hinit ih =>
    obtain ⟨cs, tr', hrun, hk⟩ := ih
    exact ⟨_, _, hrun.call ht hinit, hk.update .nil⟩
  | @conflict h h' S Ms t μ k p tr hr ht hfind ih =>
    obtain ⟨cs, tr', hrun, hk⟩ := ih
    obtain ⟨m, F, -, hm, rfl, hh, -⟩ := hrun.holds
    obtain ⟨l, hl, -⟩ := hk t μ ht
    obtain ⟨T, -, -, -, tr'', hfind'⟩ := hh.search hm hl f k
    rw [hfind] at hfind'
    simp only [Except.ok.injEq, Prod.mk.injEq] at hfind'
    obtain ⟨-, rfl, -⟩ := hfind'
    exact ⟨cs, tr', hrun, hk⟩
  | @add h h' h'' S Ms t n μ l p tr tr' hr ht hn hfind hadd ih =>
    obtain ⟨cs, tr'', hrun, hk⟩ := ih
    obtain ⟨m, F, -, hm, rfl, hh, -⟩ := hrun.holds
    obtain ⟨l₀, hl, hs⟩ := hk t μ ht
    obtain ⟨T, hT, rfl, -, tr₀, hfind'⟩ := hh.search hm hl f (key n)
    rw [hfind] at hfind'
    simp only [Except.ok.injEq, Prod.mk.injEq] at hfind'
    obtain ⟨hslot, rfl, -⟩ := hfind'
    obtain ⟨hlegal, l', hs', hafter⟩ := hh.add_slot hT (hf (some t) (key n)) hn hs hslot.symm
    exact ⟨_, _, hrun.call (hm.1 ▸ hlegal) hadd, hafter ▸ hk.update hs'⟩
  | @unlink h h' S Ms t n μ l tr hr ht hl hn hunlink ih =>
    obtain ⟨cs, tr', hrun, hk⟩ := ih
    have hlegal : (Call.unlink n).Legal S h.load := ⟨t, l, hl, hn⟩
    obtain ⟨m, F, -, hm, rfl, hh, -⟩ := hrun.holds
    obtain ⟨T, hT, rfl, -⟩ := hh.mem_iff hl
    obtain ⟨l', hl', hs⟩ := hk t μ ht
    obtain rfl := Option.some.inj (hl.symm.trans hl')
    refine ⟨_, _, hrun.call hlegal hunlink, ?_⟩
    have hs' := hs.erase hn
    obtain ⟨ctx, c, a, b, rfl⟩ := exists_fill_of_mem hn
    have hchange := Change.unlink (t := t) ctx c a n b
    have hin := hchange.inorder (F.redBlack t _ hT) (F.nodup t _ hT)
    rw [hchange.after hT, hin]
    exact hk.update hs'
  | @move h h' S Ms dst src μ tr hr hd hs hmove ih =>
    obtain ⟨cs, tr', hrun, hk⟩ := ih
    obtain ⟨l, hl, hstores⟩ := hk src μ hs
    obtain ⟨m, F, -, hm, rfl, hh, -⟩ := hrun.holds
    have hroot : h.load (.root dst) = none := by
      obtain ⟨T, -, hT, hu⟩ := hh.mem_iff hd
      cases T with
      | nil => rw [← hm.1]; exact hu
      | node c a x b => simp [ColorTree.inorder] at hT
    refine ⟨_, _, hrun.call (c := .move dst src) ⟨by simp [hd], hroot, by simp [hl]⟩ hmove, ?_⟩
    rw [Call.after, hl]
    exact (hk.update hstores).update .nil

/-- The two searches look up the map. -/
theorem MapRun.search {h₀ h : Heap w} {S : Sequences w} {Ms : Maps κ w}
    (hr : MapRun f key h₀ h S Ms) {t : Address w} {μ : κ → Pointer w} (ht : Ms t = some μ) (k : κ) :
    (∃ tr, run (machine packed) (rbtreeFindNode (2 ^ w) f (some t) k) h = .ok (μ k, h, tr)) ∧
      ∃ slot p tr, run (machine packed) (rbtreeFindSlot (2 ^ w) f (some t) k) h =
          .ok ((slot, p), h, tr) ∧
        (slot = none ↔ μ k ≠ none) ∧ (slot = none → p = μ k) := by
  obtain ⟨cs, tr, hrun, hk⟩ := hr.keeps hf
  obtain ⟨m, F, -, hm, rfl, hh, -⟩ := hrun.holds
  obtain ⟨l, hl, hs⟩ := hk t μ ht
  obtain ⟨T, hT, rfl, ⟨tr₁, hfind⟩, tr₂, hslot⟩ := hh.search hm hl f k
  have hroot : (RedBlack.search (fun a => f (some t) k (some a)) [] T).2.root? = μ k := by
    refine Option.ext fun a => ?_
    rw [search_eq_some (hf (some t) k) hs.sorted, hs.stored]
  rw [hroot] at hfind
  refine ⟨⟨tr₁, hfind⟩, _, _, tr₂, hslot, ?_⟩
  rw [← hroot]
  rcases RedBlack.search (fun a => f (some t) k (some a)) [] T with ⟨ctx, U⟩
  cases U <;> simp [ColorTree.root?]

/-- Where the slot search ends, a new node may be added. -/
theorem MapRun.exists_add {h₀ h h' : Heap w} {S : Sequences w} {Ms : Maps κ w}
    (hr : MapRun f key h₀ h S Ms) {t n : Address w} {μ : κ → Pointer w} (ht : Ms t = some μ)
    (hn : ¬Linked S n) {l : Slot w} {p : Pointer w} {tr : List (Command w)}
    (hslot : run (machine packed) (rbtreeFindSlot (2 ^ w) f (some t) (key n)) h =
      .ok ((some l, p), h', tr)) :
    h = h' ∧ ∃ h'' tr', run (machine packed) (rbtreeAdd (some t) p (some l) (some n)) h =
        .ok ((), h'', tr') ∧
      MapRun f key h₀ h'' ((Call.add t p l n).after S)
        (Function.update Ms t (some (Function.update μ (key n) (some n)))) := by
  obtain ⟨cs, tr₀, hrun, hkeep⟩ := hr.keeps hf
  obtain ⟨m, F, -, hm, rfl, hh, -⟩ := hrun.holds
  obtain ⟨l₀, hl₀, hs⟩ := hkeep t μ ht
  obtain ⟨T, hT, rfl, -, tr₁, hfound⟩ := hh.search hm hl₀ f (key n)
  rw [hslot] at hfound
  simp only [Except.ok.injEq, Prod.mk.injEq] at hfound
  obtain ⟨hfound, rfl, -⟩ := hfound
  obtain ⟨hlegal, -⟩ := hh.add_slot hT (hf (some t) (key n)) hn hs hfound.symm
  obtain ⟨h'', tr', hadd, -⟩ := hrun.exists_call (hm.1 ▸ hlegal)
  exact ⟨rfl, h'', tr', hadd, hr.add ht hn hslot hadd⟩

/-- A node with a new key can be inserted. -/
theorem MapRun.exists_insert {h₀ h : Heap w} {S : Sequences w} {Ms : Maps κ w}
    (hr : MapRun f key h₀ h S Ms) {t n : Address w} {μ : κ → Pointer w} (ht : Ms t = some μ)
    (hn : ¬Linked S n) (hk : μ (key n) = none) :
    ∃ h' S', MapRun f key h₀ h' S'
        (Function.update Ms t (some (Function.update μ (key n) (some n)))) ∧
      ∀ a, Linked S' a → Linked S a ∨ a = n := by
  obtain ⟨-, slot, p, tr, hslot, hnone, -⟩ := hr.search hf ht (key n)
  obtain ⟨l, rfl⟩ := Option.ne_none_iff_exists'.mp fun hs => (hnone.mp hs) hk
  obtain ⟨-, h', tr', -, hr'⟩ := hr.exists_add hf ht hn hslot
  exact ⟨h', _, hr', fun a ha => by simpa [Call.setsNode] using linked_of_after ha⟩

/-- A stored node can be removed. -/
theorem MapRun.exists_unlink {h₀ h : Heap w} {S : Sequences w} {Ms : Maps κ w}
    (hr : MapRun f key h₀ h S Ms) {t n : Address w} {μ : κ → Pointer w} (ht : Ms t = some μ)
    (hn : μ (key n) = some n) :
    ∃ h' S', MapRun f key h₀ h' S'
        (Function.update Ms t (some (Function.update μ (key n) none))) ∧ ¬Linked S' n := by
  obtain ⟨cs, tr, hrun, hkeep⟩ := hr.keeps hf
  obtain ⟨l, hl, hs⟩ := hkeep t μ ht
  have hmem : n ∈ l := ((hs.stored _ _).mp hn).1
  obtain ⟨h', tr', hunlink, hrun'⟩ := hrun.exists_call (c := .unlink n) ⟨t, l, hl, hmem⟩
  refine ⟨h', _, hr.unlink ht hl hmem hunlink, ?_⟩
  rintro ⟨t', l', hl', hn'⟩
  obtain ⟨k, hk, rfl⟩ := Option.map_eq_some_iff.mp hl'
  obtain ⟨m, F, -, hm, rfl, hh, -⟩ := hrun.holds
  obtain ⟨T, hT, rfl, -⟩ := hh.mem_iff hl
  obtain ⟨T', hT', rfl, -⟩ := hh.mem_iff hk
  exact ((F.nodup t' T' hT').mem_erase_iff.mp hn').1 rfl

/-- Nodes with new and different keys can be inserted one after the other. -/
theorem MapRun.exists_insertAll (ns : List (Address w)) {h₀ h : Heap w} {S : Sequences w}
    {Ms : Maps κ w} (hr : MapRun f key h₀ h S Ms) {t : Address w} {μ : κ → Pointer w}
    (ht : Ms t = some μ) (hn : ∀ n ∈ ns, ¬Linked S n ∧ μ (key n) = none)
    (hnd : (ns.map key).Nodup) :
    ∃ h' S' Ms', MapRun f key h₀ h' S' Ms' ∧
      Ms' t = some (ns.foldl (fun μ n => Function.update μ (key n) (some n)) μ) := by
  induction ns generalizing h S Ms μ with
  | nil => exact ⟨h, S, Ms, hr, ht⟩
  | cons n ns ih =>
    rw [List.map_cons, List.nodup_cons] at hnd
    obtain ⟨hfree, hnew⟩ := hn n (by simp)
    obtain ⟨h', S', hr', hlinked⟩ := hr.exists_insert hf ht hfree hnew
    refine ih hr' (Function.update_self ..) (fun a ha => ?_) hnd.2
    have hkey : key a ≠ key n := fun he => hnd.1 (he ▸ List.mem_map_of_mem ha)
    obtain ⟨hfree', hnew'⟩ := hn a (List.mem_cons_of_mem n ha)
    refine ⟨fun hl => (hlinked a hl).elim hfree' fun he => hkey (congrArg key he), ?_⟩
    show Function.update μ (key n) (some n) (key a) = none
    rwa [Function.update_of_ne hkey]

/-- In every state of a run the two searches look up the map, and where the slot search
finds nothing, a new node may be added and is stored under its key. -/
theorem mapRun_lookup {h₀ h : Heap w} {S : Sequences w} {Ms : Maps κ w}
    (hr : MapRun f key h₀ h S Ms) {t : Address w} {μ : κ → Pointer w} (ht : Ms t = some μ) (k : κ) :
    (∃ tr, run (machine packed) (rbtreeFindNode (2 ^ w) f (some t) k) h = .ok (μ k, h, tr)) ∧
      ∃ slot p tr, run (machine packed) (rbtreeFindSlot (2 ^ w) f (some t) k) h =
          .ok ((slot, p), h, tr) ∧
        (slot = none ↔ μ k ≠ none) ∧ (slot = none → p = μ k) ∧
        ∀ l n, slot = some l → ¬Linked S n → key n = k → ∃ h' tr',
          run (machine packed) (rbtreeAdd (some t) p (some l) (some n)) h = .ok ((), h', tr') ∧
            ∀ k', ∃ tr'', run (machine packed) (rbtreeFindNode (2 ^ w) f (some t) k') h' =
              .ok (Function.update μ k (some n) k', h', tr'') := by
  obtain ⟨hfind, slot, p, tr, hslot, hnone, hp⟩ := hr.search hf ht k
  refine ⟨hfind, slot, p, tr, hslot, hnone, hp, ?_⟩
  rintro l n rfl hn rfl
  obtain ⟨-, h', tr', hadd, hr'⟩ := hr.exists_add hf ht hn hslot
  exact ⟨h', tr', hadd, fun k' => (hr'.search hf (Function.update_self _ _ _) k').1⟩

end Run

/-- Compares with the key of a node. -/
def compareBy (key : Address w → ℕ) : CRBCompareFunc ℕ w := fun _ k n => k - (n.elim 0 key : ℕ)

theorem compares_compareBy (key : Address w → ℕ) (t : Pointer w) (k : ℕ) :
    Compares (fun a => compareBy key t k (some a)) key k :=
  ⟨fun a => by simp [compareBy], fun a => by simp [compareBy]⟩

def addressOf (a : Address w) : ℕ := a.word.toNat

/-- A map of five nodes loses one, which is then found no more and can be added again. -/
theorem mapRun_lookup_sample : ∃ h S Ms, MapRun (compareBy addressOf) addressOf zeroes h S Ms ∧
    (∃ tr, run (machine packed) (rbtreeFindNode 64 (compareBy addressOf) (some (cell 0)) 60) h =
      .ok (some (cell 4), h, tr)) ∧
    (∃ tr, run (machine packed) (rbtreeFindSlot 64 (compareBy addressOf) (some (cell 0)) 60) h =
      .ok ((none, some (cell 4)), h, tr)) ∧
    (∃ tr, run (machine packed) (rbtreeFindNode 64 (compareBy addressOf) (some (cell 0)) 48) h =
      .ok (none, h, tr)) ∧
    ∃ l p h' tr tr' tr'',
      run (machine packed) (rbtreeFindSlot 64 (compareBy addressOf) (some (cell 0)) 48) h =
        .ok ((some l, p), h, tr) ∧
      run (machine packed) (rbtreeAdd (some (cell 0)) p (some l) (some (cell 3))) h =
        .ok ((), h', tr') ∧
      run (machine packed) (rbtreeFindNode 64 (compareBy addressOf) (some (cell 0)) 48) h' =
        .ok (some (cell 3), h', tr'') := by
  have hinit : Run packed zeroes [.treeInit (cell 0)] _ _ _ :=
    .call (c := .treeInit (cell 0)) .start nofun rfl
  have hstart : MapRun (compareBy addressOf) addressOf zeroes _ _ _ := .start hinit
  have hempty : ∀ n, ¬Linked (Call.after (fun _ => none) (.treeInit (cell 0))) n := by
    rintro n ⟨t, l, hl, hn⟩
    by_cases ht : t = cell 0 <;> simp_all [Call.after, Function.update_apply]
  obtain ⟨h, S, Ms, hr, ht⟩ := hstart.exists_insertAll (compares_compareBy addressOf)
    [cell 2, cell 3, cell 4, cell 5, cell 6] (t := cell 0) (if_pos (by simp [Call.after]))
    (fun n _ => ⟨hempty n, rfl⟩) (by decide)
  obtain ⟨h', S', hr', hfree⟩ := hr.exists_unlink (compares_compareBy addressOf) ht (n := cell 3)
    (by decide)
  obtain ⟨hfour, slot, p, tr, hslot, hnone, hconflict, -⟩ :=
    mapRun_lookup (compares_compareBy addressOf) hr' (Function.update_self ..) 60
  obtain ⟨hthree, slot', p', tr', hslot', hnone', -, hadd⟩ :=
    mapRun_lookup (compares_compareBy addressOf) hr' (Function.update_self ..) 48
  obtain rfl : slot = none := hnone.mpr (by decide)
  obtain rfl := hconflict rfl
  obtain ⟨l, rfl⟩ := Option.ne_none_iff_exists'.mp fun hs => (hnone'.mp hs) (by decide)
  obtain ⟨h'', tr'', hrun, hfind⟩ := hadd l (cell 3) rfl hfree rfl
  obtain ⟨tr₃, hfind⟩ := hfind 48
  exact ⟨h', S', _, hr', hfour, ⟨tr, hslot⟩, hthree, l, p', h'', tr', tr'', tr₃, hslot', hrun,
    hfind⟩

end CRbtree
