import CRbtree.Maps
import CRbtree.Traversing

set_option autoImplicit false

/-!
The slot search and the node search on any tree and with any comparator, and runs that
add nodes wherever the slot search says.
-/

namespace CRbtree
open RedBlack TaggedPointers PointerGraphs Programs

variable {κ : Type} {w : ℕ}

/-- What c_rbtree_find_slot() returns, and `*p`, if c_rbtree_find_node() returns `q`. -/
structure SlotFor (h : Heap w) (t : Address w) (l : List (Address w)) (q : Pointer w)
    (slot : Option (Slot w)) (p : Pointer w) : Prop where
  conflict : slot = none ↔ q ≠ none
  found : slot = none → p = q
  empty : ∀ s, slot = some s → h.load s = none
  place : ∀ s, slot = some s → (p = none ∧ l = [] ∧ s = .root t) ∨
    ∃ a ∈ l, p = some a ∧ (s = .left a ∨ s = .right a)

/-- The runs of c_rbtree_find_slot() and c_rbtree_add(), and of removals, from any state
that other calls have reached. The key that is looked for need not be the node's. -/
inductive SlotRun (f : CRBCompareFunc κ w) (h₀ : Heap w) : Heap w → Sequences w → Prop
  | start {cs : List (Call w)} {tr : List (Command w)} {h : Heap w} {S : Sequences w}
      (hr : Run packed h₀ cs tr h S) : SlotRun f h₀ h S
  | conflict {h h' : Heap w} {S : Sequences w} {t : Address w} {k : κ} {p : Pointer w}
      {tr : List (Command w)} (hr : SlotRun f h₀ h S) (ht : S t ≠ none)
      (hfind : run (machine packed) (rbtreeFindSlot (2 ^ w) f (some t) k) h =
        .ok ((none, p), h', tr)) :
      SlotRun f h₀ h' S
  | add {h h' h'' : Heap w} {S : Sequences w} {t n : Address w} {k : κ} {s : Slot w} {p : Pointer w}
      {tr tr' : List (Command w)} (hr : SlotRun f h₀ h S) (ht : S t ≠ none) (hn : ¬Linked S n)
      (hfind : run (machine packed) (rbtreeFindSlot (2 ^ w) f (some t) k) h =
        .ok ((some s, p), h', tr))
      (hadd : run (machine packed) (rbtreeAdd (some t) p (some s) (some n)) h' =
        .ok ((), h'', tr')) :
      SlotRun f h₀ h'' ((Call.add t p s n).after S)
  | remove {h h' : Heap w} {S : Sequences w} {n : Address w} {c : Call w} {tr : List (Command w)}
      (hr : SlotRun f h₀ h S) (hn : Linked S n) (hc : c = .unlink n ∨ c = .unlinkStale n)
      (hrun : run (machine packed) c.code h = .ok ((), h', tr)) : SlotRun f h₀ h' (c.after S)

section Search

variable {h : Heap w} {t : Address w} {T : ColorTree (Address w)}

/-- The two searches end at the same place. -/
theorem slotFor_search (hT : Laid h t T) (v : Address w → ℤ) :
    SlotFor h t T.inorder (search v [] T).2.root? (slotOf (.root t) (search v [] T)).1
      (slotOf (.root t) (search v [] T)).2 := by
  have hfill := fill_search v [] T
  rcases hres : search v [] T with ⟨ctx, U⟩
  rw [hres, fill_nil] at hfill
  cases U with
  | node c l a r =>
    exact ⟨by simp [slotOf, ColorTree.root?], fun _ => rfl, by simp [slotOf], by simp [slotOf]⟩
  | nil =>
    obtain ⟨m, hm, hT⟩ := hT
    rw [← hfill, treeAt_fill] at hT
    refine ⟨by simp [slotOf, ColorTree.root?], by simp [slotOf], ?_, ?_⟩
    · rintro s ⟨⟩
      rw [← hm.1]
      exact hT.1
    · rintro s ⟨⟩
      cases ctx with
      | nil => exact .inl ⟨rfl, by simp [← hfill, ColorTree.inorder], rfl⟩
      | cons f ctx =>
        refine .inr ⟨f.label, by simp [← hfill, mem_fill, elems], by simp [slotOf], ?_⟩
        obtain ⟨d, c, a, u⟩ := f
        cases d with
        | left => exact .inl rfl
        | right => exact .inr rfl

theorem Laid.search (hT : Laid h t T) (hnd : T.inorder.Nodup) (f : CRBCompareFunc κ w) (k : κ) :
    ∃ q slot p, Returns h (rbtreeFindNode (2 ^ w) f (some t) k) q ∧
      Returns h (rbtreeFindSlot (2 ^ w) f (some t) k) (slot, p) ∧
        SlotFor h t T.inorder q slot p := by
  have hslot := slotFor_search hT fun a => f (some t) k (some a)
  obtain ⟨m, hm, hTm⟩ := hT
  have hturns := (height_lt_of_nodup hnd).le
  exact ⟨_, _, _, run_findNode hm hTm hturns f k, run_findSlot hm hTm hturns f k, hslot⟩

end Search

section Runs

variable {f : CRBCompareFunc κ w} {h₀ h : Heap w} {S : Sequences w}

/-- The slot that is returned may be used to add a node. -/
theorem SlotFor.legal {t n : Address w} {l : List (Address w)} {q : Pointer w} {s : Slot w}
    {p : Pointer w} (hs : SlotFor h t l q (some s) p) (ht : S t = some l) (hn : ¬Linked S n) :
    (Call.add t p s n).Legal S h.load := by
  have hempty := hs.empty s rfl
  rcases hs.place s rfl with ⟨rfl, -, rfl⟩ | ⟨a, ha, rfl, hsa⟩
  · exact ⟨by simp [ht], rfl, hempty, hn⟩
  · exact ⟨⟨t, l, ht, ha⟩, hsa, hempty, hn⟩

theorem Holds.laid {m : FieldHeap w} {F : Forest w} {K : Address w → Bool} (hh : Holds m F K)
    (hm : Refines m h) {t : Address w} {T : ColorTree (Address w)} (hT : F.tree t = some T) :
    Laid h t T :=
  ⟨m, hm, hh.tree t T hT⟩

theorem Run.search {cs : List (Call w)} {tr : List (Command w)} (hr : Run packed h₀ cs tr h S)
    {t : Address w} {l : List (Address w)} (ht : S t = some l) (f : CRBCompareFunc κ w) (k : κ) :
    ∃ q slot p, Returns h (rbtreeFindNode (2 ^ w) f (some t) k) q ∧
      Returns h (rbtreeFindSlot (2 ^ w) f (some t) k) (slot, p) ∧ SlotFor h t l q slot p := by
  obtain ⟨m, F, -, hm, rfl, hh, -⟩ := hr.holds
  obtain ⟨T, hT, rfl, -⟩ := hh.mem_iff ht
  exact (hh.laid hm hT).search (F.nodup t T hT) f k

/-- Whatever the comparator says, such a run is a run of legal calls. -/
theorem SlotRun.run (hr : SlotRun f h₀ h S) : ∃ cs tr, Run packed h₀ cs tr h S := by
  induction hr with
  | start hr => exact ⟨_, _, hr⟩
  | @conflict h h' S t k p tr hr ht hfind ih =>
    obtain ⟨cs, tr', hrun⟩ := ih
    obtain ⟨l, hl⟩ := Option.ne_none_iff_exists'.mp ht
    obtain ⟨q, slot, p', -, ⟨tr'', hfind'⟩, -⟩ := hrun.search hl f k
    rw [hfind] at hfind'
    cases hfind'
    exact ⟨cs, tr', hrun⟩
  | @add h h' h'' S t n k s p tr tr' hr ht hn hfind hadd ih =>
    obtain ⟨cs, tr'', hrun⟩ := ih
    obtain ⟨l, hl⟩ := Option.ne_none_iff_exists'.mp ht
    obtain ⟨q, slot, p', -, ⟨tr₀, hfind'⟩, hslot⟩ := hrun.search hl f k
    rw [hfind] at hfind'
    cases hfind'
    exact ⟨_, _, hrun.call (hslot.legal hl hn) hadd⟩
  | @remove h h' S n c tr hr hn hc hrun ih =>
    obtain ⟨cs, tr', hr'⟩ := ih
    refine ⟨_, _, hr'.call ?_ hrun⟩
    rcases hc with rfl | rfl
    · exact hn
    · exact hn

/-- The two searches agree on every tree, with every comparator; and in every state that is
reached by adding nodes where the slot search says, and by removing nodes, the trees are
red-black trees and every such operation ends in one more such state. -/
theorem findSlot_findNode (f : CRBCompareFunc κ w) (h₀ : Heap w) :
    (∀ (h : Heap w) (t : Address w) (T : ColorTree (Address w)), Laid h t T → T.inorder.Nodup →
      ∀ k, ∃ q slot p, Returns h (rbtreeFindNode (2 ^ w) f (some t) k) q ∧
        Returns h (rbtreeFindSlot (2 ^ w) f (some t) k) (slot, p) ∧
        SlotFor h t T.inorder q slot p) ∧
      ∀ (h : Heap w) (S : Sequences w), SlotRun f h₀ h S → WellFormed h S ∧
        (∀ t l, S t = some l → ∀ k, ∃ q slot p, Returns h (rbtreeFindNode (2 ^ w) f (some t) k) q ∧
          Returns h (rbtreeFindSlot (2 ^ w) f (some t) k) (slot, p) ∧ SlotFor h t l q slot p ∧
          ∀ s n, slot = some s → ¬Linked S n → ∃ h' tr,
            run (machine packed) (rbtreeAdd (some t) p (some s) (some n)) h = .ok ((), h', tr) ∧
              SlotRun f h₀ h' ((Call.add t p s n).after S)) ∧
        ∀ (n : Address w) (c : Call w), Linked S n → (c = .unlink n ∨ c = .unlinkStale n) → ∃ h' tr,
          run (machine packed) c.code h = .ok ((), h', tr) ∧ SlotRun f h₀ h' (c.after S) := by
  refine ⟨fun h t T hT hnd k => hT.search hnd f k, fun h S hr => ?_⟩
  obtain ⟨cs, tr, hrun⟩ := hr.run
  refine ⟨hrun.wellFormed, fun t l ht k => ?_, fun n c hn hc => ?_⟩
  · obtain ⟨q, slot, p, hnode, hfind, hslot⟩ := hrun.search ht f k
    refine ⟨q, slot, p, hnode, hfind, hslot, ?_⟩
    rintro s n rfl hn
    obtain ⟨h', tr', hadd, -⟩ := hrun.exists_call (hslot.legal ht hn)
    obtain ⟨tr'', hfind⟩ := hfind
    exact ⟨h', tr', hadd, hr.add (by simp [ht]) hn hfind hadd⟩
  · have hlegal : c.Legal S h.load := by
      rcases hc with rfl | rfl
      · exact hn
      · exact hn
    obtain ⟨h', tr', hcode, -⟩ := hrun.exists_call hlegal
    exact ⟨h', tr', hcode, hr.remove hn hc hcode⟩

/-- A comparator that says the same of every node is no order. -/
theorem findSlot_findNode_sample : ∃ q slot p,
    Returns (layOut (cell 0) crooked)
        (rbtreeFindNode 64 (fun _ _ _ => 1) (some (cell 0)) ()) q ∧
      Returns (layOut (cell 0) crooked)
        (rbtreeFindSlot 64 (fun _ _ _ => 1) (some (cell 0)) ()) (slot, p) ∧
      SlotFor (layOut (cell 0) crooked) (cell 0) crooked.inorder q slot p :=
  (findSlot_findNode (fun _ _ _ => 1) zeroes).1 _ _ _ laid_crooked nodup_crooked ()

end Runs

end CRbtree
