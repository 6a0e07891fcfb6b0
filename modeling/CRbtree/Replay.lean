import CRbtree.Calls

set_option autoImplicit false

/-!
Runs that can be computed: each call is checked before it is made, and the commands it issues
are recorded. A list of calls has such a run exactly if the calls are legal and end.
-/

namespace CRbtree
open TaggedPointers Programs

variable {w : ℕ}

/-- The node is a member of one of the trees. -/
def linkedIn (ts : List (Address w)) (S : Sequences w) (n : Address w) : Bool :=
  ts.any fun t => ((S t).getD []).contains n

theorem linkedIn_iff {ts : List (Address w)} {S : Sequences w} (hts : ∀ t, S t ≠ none → t ∈ ts)
    (n : Address w) : linkedIn ts S n = true ↔ Linked S n := by
  simp only [linkedIn, List.any_eq_true, List.contains_iff_mem]
  constructor
  · rintro ⟨t, -, hn⟩
    cases hl : S t with
    | none => simp [hl] at hn
    | some l => exact ⟨t, l, hl, by simpa [hl] using hn⟩
  · rintro ⟨t, l, hl, hn⟩
    exact ⟨t, hts t (by simp [hl]), by simpa [hl] using hn⟩

namespace Call

/-- Whether the call is legal, where all trees are among those of `ts`. -/
def isLegal (ts : List (Address w)) (S : Sequences w) (g : Slot w → Pointer w) : Call w → Bool
  | treeInit t => (S t).all fun l => l.isEmpty
  | nodeInit n => !linkedIn ts S n
  | add t none l n =>
    (S t).isSome && decide (l = .root t) && (g l).isNone && !linkedIn ts S n
  | add _ (some p) l n | link p l n =>
    linkedIn ts S p && decide (l = .left p ∨ l = .right p) && (g l).isNone && !linkedIn ts S n
  | unlink n | unlinkStale n => linkedIn ts S n
  | move dst src => (S dst).isSome && (g (.root dst)).isNone && (S src).isSome

theorem isLegal_iff {ts : List (Address w)} {S : Sequences w} (hts : ∀ t, S t ≠ none → t ∈ ts)
    (g : Slot w → Pointer w) (c : Call w) : c.isLegal ts S g = true ↔ c.Legal S g := by
  have hlinked := linkedIn_iff hts
  cases c with
  | treeInit t => simp [isLegal, Legal, Option.all_eq_true]
  | nodeInit n => simp [isLegal, Legal, ← hlinked]
  | add t p l n =>
    cases p with
    | none => simp [isLegal, Legal, ← hlinked, and_assoc, Option.isSome_iff_ne_none]
    | some p => simp [isLegal, Legal, ← hlinked, and_assoc]
  | link p l n => simp [isLegal, Legal, ← hlinked, and_assoc]
  | unlink n | unlinkStale n => exact hlinked n
  | move dst src => simp [isLegal, Legal, and_assoc, Option.isSome_iff_ne_none]

end Call

/-- What a run has come to. -/
structure Played (w : ℕ) where
  trace : List (Command w)
  heap : Heap w
  lists : Sequences w

/-- Makes the calls one after the other, unless one is illegal or fails. -/
def replay (ts : List (Address w)) : List (Call w) → Played w → Option (Played w)
  | [], s => some s
  | c :: cs, s =>
    if c.isLegal ts s.lists s.heap.load then
      match run (machine packed) c.code s.heap with
      | .ok (_, h', tr) => replay ts cs ⟨s.trace ++ tr, h', c.after s.lists⟩
      | .error _ => none
    else none

/-- The calls made in a memory in which nothing has been initialised. -/
def play (h₀ : Heap w) (cs : List (Call w)) : Option (Played w) :=
  replay (cs.flatMap Call.setsTree) cs ⟨[], h₀, fun _ => none⟩

section Exact

variable {h₀ h : Heap w} {cs cs' : List (Call w)} {tr : List (Command w)} {S : Sequences w}
  {ts : List (Address w)} {s : Played w}

theorem Run.setsTree (hr : Run packed h₀ cs tr h S) {t : Address w} (ht : S t ≠ none) :
    t ∈ cs.flatMap Call.setsTree := by
  induction hr with
  | start => exact absurd rfl ht
  | call hr hc hm ih =>
    rw [List.flatMap_append, List.mem_append]
    rcases ne_none_of_after hc ht with ht | ht
    · exact .inl (ih ht)
    · exact .inr (by simpa using ht)

theorem replay_append : replay ts (cs ++ cs') s = (replay ts cs s).bind (replay ts cs') := by
  induction cs generalizing s with
  | nil => rfl
  | cons c cs ih =>
    simp only [List.cons_append, replay]
    split
    · split
      · exact ih
      · rfl
    · rfl

theorem Run.replay (hr : Run packed h₀ cs tr h S)
    (hts : ∀ t ∈ (cs ++ cs').flatMap Call.setsTree, t ∈ ts)
    (hs : CRbtree.replay ts cs' ⟨tr, h, S⟩ = some s) :
    Run packed h₀ (cs ++ cs') s.trace s.heap s.lists := by
  induction cs' generalizing cs tr h S with
  | nil =>
    cases hs
    rwa [List.append_nil]
  | cons c cs' ih =>
    have hlegal := Call.isLegal_iff (fun t ht => hts t (by
      rw [List.flatMap_append, List.mem_append]
      exact .inl (hr.setsTree ht))) h.load c
    simp only [CRbtree.replay] at hs
    split at hs
    · rename_i hc
      cases hrun : run (machine packed) c.code h with
      | error e => simp [hrun] at hs
      | ok x =>
        obtain ⟨⟨⟩, h', tr'⟩ := x
        simp only [hrun] at hs
        have hrest := ih (hr.call (hlegal.mp hc) hrun) (by simpa using hts) hs
        rwa [List.append_assoc] at hrest
    · cases hs

/-- The replay is exact. -/
theorem run_iff_play :
    Run packed h₀ cs tr h S ↔ play h₀ cs = some ⟨tr, h, S⟩ := by
  constructor
  · intro hr
    suffices hall : ∀ ts : List (Address w), (∀ t ∈ cs.flatMap Call.setsTree, t ∈ ts) →
        CRbtree.replay ts cs ⟨[], h₀, fun _ => none⟩ = some ⟨tr, h, S⟩ from hall _ fun _ => id
    intro ts hts
    induction hr with
    | start => rfl
    | @call cs tr tr' h h' S c hr hc hm ih =>
      simp only [List.flatMap_append, List.mem_append] at hts
      rw [replay_append, ih fun t ht => hts t (.inl ht)]
      have hlegal := (Call.isLegal_iff (fun t ht => hts t (.inl (hr.setsTree ht))) h.load c).mpr hc
      simp only [Option.bind_some, CRbtree.replay, hlegal, if_true, hm]
  · exact Run.replay (.start : Run packed h₀ [] [] h₀ fun _ => none) fun t ht => ht

theorem run_of_play (hp : play h₀ cs = some s) : Run packed h₀ cs s.trace s.heap s.lists :=
  run_iff_play.mpr hp

/-- What the check allows after a run is legal. -/
theorem Run.legal (hr : Run packed h₀ cs tr h S) {c : Call w}
    (hc : c.isLegal (cs.flatMap Call.setsTree) S h.load = true) : c.Legal S h.load :=
  (Call.isLegal_iff (fun _ => hr.setsTree) h.load c).mp hc

end Exact

section Sample

theorem aligned_cell (i : Fin 20) : BitVec.ofNat 8 (12 * i.val + 12) &&& 3#8 = 0#8 ∧
    BitVec.ofNat 8 (12 * i.val + 12) ≠ 0#8 := by
  revert i
  decide

/-- Twenty objects to run examples on, twelve bytes apart. -/
def cell (i : ℕ) : Address 6 :=
  have h := aligned_cell ⟨i % 20, Nat.mod_lt i (Nat.succ_pos 19)⟩
  ⟨BitVec.ofNat 8 (12 * (i % 20) + 12), h.1, h.2⟩

def zeroes : Heap 6 := ⟨fun _ => ⟨0#8, none, none⟩, fun _ => ⟨none⟩⟩

/-- Two trees. The first is filled in ascending order but for its last node, loses its root
and a leaf, and is moved; then it is filled anew. -/
def sampleCalls : List (Call 6) := [
  .treeInit (cell 0), .treeInit (cell 1), .nodeInit (cell 5),
  .add (cell 0) none (.root (cell 0)) (cell 2),
  .add (cell 0) (some (cell 2)) (.right (cell 2)) (cell 3),
  .link (cell 3) (.right (cell 3)) (cell 4),
  .link (cell 4) (.right (cell 4)) (cell 5),
  .link (cell 5) (.right (cell 5)) (cell 6),
  .add (cell 0) (some (cell 6)) (.right (cell 6)) (cell 7),
  .link (cell 7) (.right (cell 7)) (cell 8),
  .link (cell 8) (.right (cell 8)) (cell 9),
  .add (cell 0) (some (cell 9)) (.left (cell 9)) (cell 10),
  .unlink (cell 5), .unlinkStale (cell 2), .move (cell 1) (cell 0),
  .add (cell 0) none (.root (cell 0)) (cell 12),
  .link (cell 12) (.left (cell 12)) (cell 11),
  .link (cell 12) (.right (cell 12)) (cell 13),
  .link (cell 13) (.right (cell 13)) (cell 14),
  .unlink (cell 14), .unlinkStale (cell 11),
  .link (cell 12) (.left (cell 12)) (cell 5)]

def samplePlayed : Played 6 := (play zeroes sampleCalls).getD ⟨[], zeroes, fun _ => none⟩

def sampleHeap : Heap 6 := samplePlayed.heap

def sampleTrace : List (Command 6) := samplePlayed.trace

def sampleLists : Sequences 6 := samplePlayed.lists

theorem run_sample : Run packed zeroes sampleCalls sampleTrace sampleHeap sampleLists := by
  have hsome : (play zeroes sampleCalls).isSome := by decide +kernel
  obtain ⟨s, hs⟩ := Option.isSome_iff_exists.mp hsome
  have heq : samplePlayed = s := by rw [samplePlayed, hs, Option.getD_some]
  simpa only [sampleTrace, sampleHeap, sampleLists, heq] using run_of_play hs

attribute [irreducible] samplePlayed sampleHeap sampleTrace sampleLists

theorem sampleLists_first : sampleLists (cell 0) = some [cell 5, cell 12, cell 13] := by
  decide +kernel

theorem sampleLists_second :
    sampleLists (cell 1) = some [cell 3, cell 4, cell 6, cell 7, cell 8, cell 10, cell 9] := by
  decide +kernel

end Sample

end CRbtree
