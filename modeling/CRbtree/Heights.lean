import CRbtree.Maps
import CRbtree.Placement
import CRbtree.Walking

set_option autoImplicit false

/-!
How high the trees of a run are, and how often the loops that read them go round.
-/

namespace CRbtree
open RedBlack TaggedPointers PointerGraphs Programs

variable {w : ℕ}

/-- The program ends, and leaves the words as they are. -/
def Ends {α : Type} (h : Heap w) (p : Prog w α) : Prop :=
  ∃ a tr, run (machine packed) p h = .ok (a, h, tr)

section Ends

variable {α : Type} {m : FieldHeap w} {h : Heap w} (hm : Refines m h)
include hm

theorem Peeks.ends {p : Prog w α} {A : Set (Address w)} {r : α} (hp : Peeks A m r p) :
    Ends h p := by
  obtain ⟨tr, hrun, -⟩ := hp.run hm
  exact ⟨r, tr, hrun⟩

theorem ends_down {s : Slot w} {T : ColorTree (Address w)} (hT : TreeAt m s T) {n : Address w}
    (hn : T.root? = some n) {turns : ℕ} (hturns : T.height ≤ turns) :
    Ends h (leftmostLoop turns (some n)) ∧ Ends h (rightmostLoop turns (some n)) ∧
      Ends h (leftdeepestLoop turns (some n)) ∧ Ends h (rightdeepestLoop turns (some n)) := by
  have hne : T ≠ .nil := by
    rintro rfl
    cases hn
  rw [leftmostLoop_eq, rightmostLoop_eq, leftdeepestLoop_eq, rightdeepestLoop_eq, ← hn]
  have hle : T.height ≤ turns + 1 := by omega
  exact ⟨(peeks_extremeLoop hT hne (fun _ => id) hle).ends hm,
    (peeks_extremeLoop hT hne (fun _ => id) hle).ends hm,
    (peeks_deepestLoop hT hne (fun _ => id) hle).ends hm,
    (peeks_deepestLoop hT hne (fun _ => id) hle).ends hm⟩

theorem ends_up {t : Address w} {ctx : Context (Address w)} {T : ColorTree (Address w)}
    (hT : TreeAt m (.root t) (fill ctx T)) (hnd : (fill ctx T).inorder.Nodup) {n : Address w}
    (hn : T.root? = some n) {turns : ℕ} (hturns : ctx.length ≤ turns) :
    Ends h (nextLoop turns (some n)) ∧ Ends h (prevLoop turns (some n)) ∧
      Ends h (prevPostorderLoop turns (some n)) := by
  have hA : ∀ a ∈ elems ctx, a ∈ (Set.univ : Set (Address w)) := fun a _ => Set.mem_univ a
  rw [nextLoop_eq, prevLoop_eq]
  exact ⟨(peeks_climbLoop .right hT hnd hn (Set.mem_univ n) hA hturns).ends hm,
    (peeks_climbLoop .left hT hnd hn (Set.mem_univ n) hA hturns).ends hm,
    (peeks_prevPostorderLoop hT hnd hn (Set.mem_univ n) hA hturns).ends hm⟩

end Ends

/-- Trees are of logarithmic height, and no loop that reads them goes round more often than
they are high. -/
theorem run_height_le {h₀ h : Heap w} {cs : List (Call w)} {tr : List (Command w)} {S : Sequences w}
    (hr : Run packed h₀ cs tr h S) {t : Address w} {l : List (Address w)} (hl : S t = some l) :
    ∃ k, IsHeight h.load (h.load (.root t)) k ∧ 2 ^ k ≤ (l.length + 1) ^ 2 ∧
      (∀ (κ : Type) (f : CRBCompareFunc κ w) (key : κ),
        Ends h (rbtreeFindNode k f (some t) key) ∧ Ends h (rbtreeFindSlot k f (some t) key)) ∧
      ∀ n ∈ l, (Ends h (leftmostLoop k (some n)) ∧ Ends h (rightmostLoop k (some n)) ∧
          Ends h (leftdeepestLoop k (some n)) ∧ Ends h (rightdeepestLoop k (some n))) ∧
        Ends h (nextLoop k (some n)) ∧ Ends h (prevLoop k (some n)) ∧
          Ends h (prevPostorderLoop k (some n)) := by
  obtain ⟨m, F, -, hm, rfl, hh, -⟩ := hr.holds
  obtain ⟨T, hT, rfl, hu⟩ := hh.mem_iff hl
  have hTt := hh.tree t T hT
  refine ⟨T.height, ?_, ?_, fun κ f key => ?_, fun n hn => ?_⟩
  · exact hm.1 ▸ hu.isHeight
  · rw [ColorTree.size_eq_length]
    exact (F.redBlack t T hT).two_pow_height_le
  · exact ⟨⟨_, run_findNode hm hTt (Nat.le_refl _) f key⟩,
      ⟨_, run_findSlot hm hTt (Nat.le_refl _) f key⟩⟩
  · obtain ⟨ctx, c, a, b, rfl⟩ := exists_fill_of_mem hn
    have hle := length_add_height_le ctx (.node c a n b)
    exact ⟨ends_down hm (treeAt_fill.mp hTt).1 rfl (by omega),
      ends_up hm hTt (F.nodup t _ hT) rfl (by omega)⟩

/-- The second tree is four nodes high, and four turns are enough for each of the loops. -/
theorem run_height_le_sample :
    IsHeight sampleHeap.load (sampleHeap.load (.root (cell 1))) 4 ∧ 2 ^ 4 ≤ (7 + 1) ^ 2 ∧
      (Ends sampleHeap (rbtreeFindNode 4 (compareBy addressOf) (some (cell 1)) 108) ∧
        Ends sampleHeap (rbtreeFindSlot 4 (compareBy addressOf) (some (cell 1)) 114)) ∧
      (Ends sampleHeap (leftdeepestLoop 4 (some (cell 6))) ∧
        Ends sampleHeap (rightdeepestLoop 4 (some (cell 6)))) ∧
      Ends sampleHeap (nextLoop 4 (some (cell 8))) ∧
      Ends sampleHeap (prevPostorderLoop 4 (some (cell 3))) := by
  obtain ⟨k, hk, hle, hfind, hloops⟩ := run_height_le run_sample sampleLists_second
  obtain ⟨m, hm, hT⟩ := laid_sampleTree
  have hfour : IsHeight sampleHeap.load (sampleHeap.load (.root (cell 1))) 4 :=
    hm.1 ▸ hT.unfolds.isHeight
  obtain rfl := hk.unique hfour
  obtain ⟨⟨-, -, hleft, hright⟩, -⟩ := hloops (cell 6) (by simp)
  exact ⟨hk, hle, ⟨(hfind ℕ (compareBy addressOf) 108).1, (hfind ℕ (compareBy addressOf) 114).2⟩,
    ⟨hleft, hright⟩, (hloops (cell 8) (by simp)).2.1, (hloops (cell 3) (by simp)).2.2.2⟩

end CRbtree
