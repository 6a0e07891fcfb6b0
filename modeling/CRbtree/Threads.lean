import CRbtree.DisjointParties
import CRbtree.Relocation
import Mathlib.Order.CompletePartialOrder

set_option autoImplicit false

/-!
Any number of threads that call the library at the same time, each on trees and nodes of
its own. Their commands may be interleaved in any order.
-/

namespace CRbtree
open RedBlack TaggedPointers PointerGraphs Programs Parties

variable {ι : Type} {w : ℕ}

/-- The memories hold the same in the nodes and trees at the addresses of `D`. -/
structure AgreeOn (D : Set (Address w)) (g h : Heap w) : Prop where
  load : ∀ s : Slot w, s.object ∈ D → g.load s = h.load s
  link : ∀ a ∈ D, g.link a = h.link a

namespace AgreeOn

variable {D : Set (Address w)} {g h k : Heap w}

theorem refl (D : Set (Address w)) (h : Heap w) : AgreeOn D h h :=
  ⟨fun _ _ => rfl, fun _ _ => rfl⟩

theorem symm (hgh : AgreeOn D g h) : AgreeOn D h g :=
  ⟨fun s hs => (hgh.load s hs).symm, fun a ha => (hgh.link a ha).symm⟩

theorem trans (hgh : AgreeOn D g h) (hhk : AgreeOn D h k) : AgreeOn D g k :=
  ⟨fun s hs => (hgh.load s hs).trans (hhk.load s hs),
    fun a ha => (hgh.link a ha).trans (hhk.link a ha)⟩

theorem store (hgh : AgreeOn D g h) (s : Slot w) (v : Pointer w) :
    AgreeOn D (g.store s v) (h.store s v) := by
  refine ⟨fun s' hs' => ?_, by simpa using hgh.link⟩
  rw [Memory.load_store, Memory.load_store, Function.update_apply, Function.update_apply,
    hgh.load s' hs']

theorem setLink (hgh : AgreeOn D g h) (n : Address w) (x : Word w) :
    AgreeOn D (g.setLink n x) (h.setLink n x) := by
  refine ⟨by simpa using hgh.load, fun a ha => ?_⟩
  rw [Memory.link_setLink, Memory.link_setLink, Function.update_apply, Function.update_apply,
    hgh.link a ha]

theorem store_elsewhere {s : Slot w} (hs : s.object ∉ D) (v : Pointer w) :
    AgreeOn D h (h.store s v) := by
  refine ⟨fun s' hs' => ?_, by simp⟩
  rw [Memory.load_store_of_ne]
  rintro rfl
  exact hs hs'

theorem setLink_elsewhere {n : Address w} (hn : n ∉ D) (x : Word w) :
    AgreeOn D h (h.setLink n x) := by
  refine ⟨by simp, fun a ha => ?_⟩
  rw [Memory.link_setLink_of_ne]
  rintro rfl
  exact hn ha

/-- A command on objects of `D` does the same in both memories, and nothing elsewhere. -/
theorem command {c : Command w} {r : Answer c} {g' : Heap w} (hgh : AgreeOn D g h)
    (hc : c.Within D) (hm : machine packed c g = .ok (r, g')) :
    ∃ h', machine packed c h = .ok (r, h') ∧ AgreeOn D g' h' ∧
      ∀ E : Set (Address w), Disjoint D E → AgreeOn E h h' := by
  have hstay : ∀ E : Set (Address w), Disjoint D E → AgreeOn E h h := fun E _ => .refl E h
  cases c with
  | load s =>
    cases hm
    exact ⟨h, by rw [hgh.load s hc]; rfl, hgh, hstay⟩
  | store s v =>
    cases hm
    exact ⟨_, rfl, hgh.store s v,
      fun E hE => store_elsewhere (fun hs => Set.disjoint_left.mp hE hc.1 hs) v⟩
  | raw n | flags n | parent n =>
    cases hm
    exact ⟨h, by rw [hgh.link n hc]; rfl, hgh, hstay⟩
  | write n p f =>
    cases hm
    exact ⟨_, rfl, hgh.setLink n _,
      fun E hE => setLink_elsewhere (fun hn => Set.disjoint_left.mp hE hc.1 hn) _⟩
  | turn k =>
    cases hm
    exact ⟨h, rfl, hgh, hstay⟩
  | crash e => cases hm

end AgreeOn

/-- The objects that a call is given. -/
def Call.objects : Call w → List (Address w)
  | treeInit t => [t]
  | nodeInit n | unlink n | unlinkStale n => [n]
  | add t p l n => t :: l.object :: n :: p.toList
  | link p l n => [p, l.object, n]
  | move dst src => [dst, src]

/-- The lists of a thread's trees once its call has ended, and what is left of the call. -/
structure Thread (w : ℕ) where
  lists : Sequences w
  code : Prog w Unit

/-- A thread that has not called anything yet. -/
def Thread.fresh : Thread w := ⟨fun _ => none, .done ()⟩

inductive Action (w : ℕ) where
  | call (c : Call w)
  | command (c : Command w)

/-- Thread `i` begins a legal call on objects of `D i`, or issues one command. -/
inductive ThreadMoves (D : ι → Set (Address w)) (i : ι) :
    Thread w → Heap w → Action w → Thread w → Heap w → Prop
  | call {S : Sequences w} {h : Heap w} {c : Call w} (hc : c.Legal S h.load)
      (hD : ∀ a ∈ c.objects, a ∈ D i) :
      ThreadMoves D i ⟨S, .done ()⟩ h (.call c) ⟨c.after S, c.code⟩ h
  | command {S : Sequences w} {h h' : Heap w} {c : Command w} {q : Answer c → Prog w Unit}
      {a : Answer c} (hc : machine packed c h = .ok (a, h')) :
      ThreadMoves D i ⟨S, .step c q⟩ h (.command c) ⟨S, q a⟩ h'

namespace Action

def call? : Action w → Option (Call w)
  | call c => some c
  | command _ => none

def command? : Action w → Option (Command w)
  | call _ => none
  | command c => some c

end Action

/-- All trees and their members lie in `D`. -/
structure Owns (D : Set (Address w)) (S : Sequences w) : Prop where
  node : ∀ a, Linked S a → a ∈ D
  tree : ∀ t, S t ≠ none → t ∈ D

/-- A thread alone: between two calls, or some commands into one. -/
inductive Working (D : Set (Address w)) (h₀ : Heap w) : List (Action w) → Thread w → Heap w → Prop
  | idle {es : List (Action w)} {h : Heap w} {S : Sequences w} (ho : Owns D S)
      (hr : Run packed h₀ (es.filterMap Action.call?) (es.filterMap Action.command?) h S) :
      Working D h₀ es ⟨S, .done ()⟩ h
  | busy {es es' : List (Action w)} {h g : Heap w} {S : Sequences w} {c : Call w} {p : Prog w Unit}
      (ho : Owns D S) (hD : ∀ a ∈ c.objects, a ∈ D)
      (hr : Run packed h₀ (es.filterMap Action.call?) (es.filterMap Action.command?) h S)
      (hc : c.Legal S h.load) (hes : es'.filterMap Action.call? = [])
      (hs : Steps (machine packed) c.code h (es'.filterMap Action.command?) p g) :
      Working D h₀ (es ++ .call c :: es') ⟨c.after S, p⟩ g

theorem Call.setsNode_subset {c : Call w} {a : Address w} (ha : a ∈ c.setsNode) :
    a ∈ c.objects := by
  cases c <;> simp_all [Call.setsNode, Call.objects]

theorem Call.setsTree_subset {c : Call w} {t : Address w} (ht : t ∈ c.setsTree) :
    t ∈ c.objects := by
  cases c <;> simp_all [Call.setsTree, Call.objects]

theorem Command.Within.mono {A B : Set (Address w)} {c : Command w} (hc : c.Within A)
    (hAB : ∀ a ∈ A, a ∈ B) : c.Within B := by
  cases c with
  | load s | raw n | flags n | parent n => exact hAB _ hc
  | store s v | write n p f => exact ⟨hAB _ hc.1, fun a ha => hAB a (hc.2 a ha)⟩
  | turn k | crash e => trivial

section Working

variable {h₀ g : Heap w} {es : List (Action w)} {S : Sequences w} {T : Thread w} {c : Call w}
  {D : Set (Address w)}

theorem Owns.after (ho : Owns D S) {g : Slot w → Pointer w} (hc : c.Legal S g)
    (hD : ∀ a ∈ c.objects, a ∈ D) : Owns D (c.after S) :=
  ⟨fun a ha => (linked_of_after ha).elim (ho.node a) fun ha => hD a (Call.setsNode_subset ha),
    fun t ht => (ne_none_of_after hc ht).elim (ho.tree t) fun ht => hD t (Call.setsTree_subset ht)⟩

/-- A thread that has nothing left to do is idle. -/
theorem Working.run (hw : Working D h₀ es ⟨S, .done ()⟩ g) : Owns D S ∧
    Run packed h₀ (es.filterMap Action.call?) (es.filterMap Action.command?) g S := by
  generalize hT : (⟨S, .done ()⟩ : Thread w) = T at hw
  cases hw with
  | idle ho hr =>
    cases hT
    exact ⟨ho, hr⟩
  | @busy es es' h g S c p ho hD hr hc hes hs =>
    cases hT
    have hcall := hr.call hc (run_iff_steps.mpr hs)
    exact ⟨ho.after hc hD,
      by simpa [List.filterMap_cons, Action.call?, Action.command?, hes] using hcall⟩

/-- One more command of a call. -/
theorem Working.command {d : Command w} {q : Answer d → Prog w Unit} {r : Answer d} {g' : Heap w}
    (hw : Working D h₀ es ⟨S, .step d q⟩ g) (hd : machine packed d g = .ok (r, g')) :
    Working D h₀ (es ++ [.command d]) ⟨S, q r⟩ g' := by
  generalize hT : (⟨S, .step d q⟩ : Thread w) = T at hw
  cases hw with
  | idle ho hr => cases hT
  | @busy es es' h g S c p ho hD hr hc hes hs =>
    cases hT
    rw [List.append_assoc, List.cons_append]
    refine .busy ho hD hr hc (by simp [hes, Action.call?]) ?_
    simpa [List.filterMap_cons, Action.command?] using hs.concat hd

/-- A thread in a call is not stuck, and goes on with objects of its own. -/
theorem Working.next {d : Command w} {q : Answer d → Prog w Unit}
    (hw : Working D h₀ es ⟨S, .step d q⟩ g) :
    d.Within D ∧ ∃ r g', machine packed d g = .ok (r, g') := by
  generalize hT : (⟨S, .step d q⟩ : Thread w) = T at hw
  cases hw with
  | idle ho hr => cases hT
  | @busy es es' h g S c p ho hD hr hc hes hs =>
    cases hT
    obtain ⟨h', tr', hrun, -⟩ := hr.exists_call hc
    obtain ⟨hmem, hnext⟩ := hs.next hrun
    refine ⟨(hr.within hc hrun d hmem).mono ?_, hnext⟩
    rintro a ((ha | ha) | (ha | ha))
    · exact ho.node a ha
    · exact hD a (Call.setsNode_subset ha)
    · exact ho.tree a ha
    · exact hD a (Call.setsTree_subset ha)

/-- Whether a call is legal depends on its own objects only. -/
theorem Call.Legal.congr {g h : Heap w} (hgh : AgreeOn D g h) (hD : ∀ a ∈ c.objects, a ∈ D)
    (hc : c.Legal S g.load) : c.Legal S h.load := by
  cases c with
  | treeInit t | nodeInit n | unlink n | unlinkStale n => exact hc
  | add t p l n =>
    have hl := hgh.load l (hD _ (by simp [Call.objects]))
    cases p with
    | none => exact ⟨hc.1, hc.2.1, hl ▸ hc.2.2.1, hc.2.2.2⟩
    | some p => exact ⟨hc.1, hc.2.1, hl ▸ hc.2.2.1, hc.2.2.2⟩
  | link p l n =>
    have hl := hgh.load l (hD _ (by simp [Call.objects]))
    exact ⟨hc.1, hc.2.1, hl ▸ hc.2.2.1, hc.2.2.2⟩
  | move dst src =>
    have hd := hgh.load (.root dst) (hD dst (by simp [Call.objects]))
    exact ⟨hc.1, hd ▸ hc.2.1, hc.2.2⟩

end Working

open Classical in
/-- Trees in `D` are laid out wherever the memory is the same in `D`. -/
theorem Holds.agree {m : FieldHeap w} {g h : Heap w} {F : Forest w} {K : Address w → Bool}
    {D : Set (Address w)} (hh : Holds m F K) (hm : Refines m g) (ho : Owns D F.sequences)
    (hgh : AgreeOn D g h) : ∃ m', Refines m' h ∧ Holds m' F fun _ => false := by
  let m' : FieldHeap w :=
    ⟨fun a => ⟨if a ∈ D then m.link a else .unknown, (h.node a).left, (h.node a).right⟩, h.tree⟩
  have hload : m'.load = h.load := by
    funext s
    cases s <;> rfl
  have hlink : ∀ a, m'.link a = if a ∈ D then m.link a else .unknown := fun _ => rfl
  refine ⟨m', ⟨hload, fun a => ?_⟩, fun t T hT => ?_, nofun⟩
  · rw [hlink]
    split
    case isTrue ha => exact hgh.link a ha ▸ hm.2 a
    case isFalse => trivial
  · have hS : F.sequences t = some T.inorder := by simp [Forest.sequences, hT]
    have hsame : ∀ s : Slot w, s.object ∈ D → m'.load s = m.load s := fun s hs => by
      rw [hload, hm.1, hgh.load s hs]
    refine (treeAt_congr (hsame (.root t) (ho.tree t (by simp [hS]))) fun a ha => ?_).mpr
      (hh.tree t T hT)
    have haD := ho.node a ⟨t, _, hS, ha⟩
    exact ⟨hsame (.left a) haD, hsame (.right a) haD, by rw [hlink, if_pos haD]⟩

section Threads

variable {D : ι → Set (Address w)} {h₀ h g : Heap w} {es : List (Action w)} {T : Thread w} {i : ι}

theorem Solo.working (hs : Solo (ThreadMoves D) i .fresh h₀ es T g) : Working (D i) h₀ es T g := by
  induction hs with
  | start => exact .idle ⟨fun a ⟨t, l, hl, _⟩ => (nomatch hl), fun t ht => absurd rfl ht⟩ .start
  | move hs hm ih =>
    cases hm with
    | call hc hD =>
      obtain ⟨ho, hr⟩ := ih.run
      exact .busy ho hD hr hc rfl (.refl _ _)
    | command hc => exact ih.command hc

/-- Threads with objects of their own do not meet. -/
theorem apart_threads (hD : ∀ i j, i ≠ j → Disjoint (D i) (D j)) :
    Apart (ThreadMoves D) (fun _ => .fresh) h₀ (fun i => AgreeOn (D i)) where
  refl i h := .refl _ h
  trans i g h k hgh hhk := hgh.trans hhk
  alone i es T g h e T' h' hs hgh hm := by
    cases hm with
    | call hc hobj => exact ⟨g, .call (hc.congr hgh.symm hobj) hobj, hgh⟩
    | command hc =>
      obtain ⟨g', hc', hgh', -⟩ := hgh.symm.command (Solo.working hs).next.1 hc
      exact ⟨g', .command hc', hgh'.symm⟩
  frame i es T g h e T' h' j hs hgh hm hij := by
    cases hm with
    | call hc hobj => exact .refl _ _
    | command hc =>
      obtain ⟨k, hk, -, hstay⟩ := (AgreeOn.refl (D i) h).command (Solo.working hs).next.1 hc
      rw [hc] at hk
      cases hk
      exact hstay (D j) (hD i j (Ne.symm hij))

variable [DecidableEq ι] {es : List (ι × Action w)} {L : ι → Thread w}

/-- However the commands of the threads are interleaved, each thread is where it would be
alone, and so are its objects. None gets stuck, and the trees of an idle thread are sound. -/
theorem threads_apart (hD : ∀ i j, i ≠ j → Disjoint (D i) (D j))
    (hj : Joint (ThreadMoves D) (fun _ => .fresh) h₀ es L h) (i : ι) :
    (∃ g, Working (D i) h₀ (eventsOf i es) (L i) g ∧ AgreeOn (D i) g h) ∧
      (∀ c q, (L i).code = .step c q → ∃ a h', machine packed c h = .ok (a, h')) ∧
      ((L i).code = .done () → WellFormed h (L i).lists) := by
  obtain ⟨g, hg, hgh⟩ := hj.solo (apart_threads hD) i
  have hw := Solo.working hg
  refine ⟨⟨g, hw, hgh⟩, fun c q hcode => ?_, fun hcode => ?_⟩
  · rw [show L i = ⟨(L i).lists, .step c q⟩ from hcode ▸ rfl] at hw
    obtain ⟨hc, a, g', hm⟩ := hw.next
    obtain ⟨h', hm', -⟩ := hgh.command hc hm
    exact ⟨a, h', hm'⟩
  · rw [show L i = ⟨(L i).lists, .done ()⟩ from hcode ▸ rfl] at hw
    obtain ⟨ho, hr⟩ := hw.run
    obtain ⟨m, F, -, hm, hF, hh, -⟩ := hr.holds
    rw [← hF] at ho ⊢
    obtain ⟨m', hm', hh'⟩ := hh.agree hm ho hgh
    exact hh'.wellFormed hm'

end Threads

section Schedules

/-- What a thread may do next: a command of its call, or to begin the first of the calls `cs`. -/
def Thread.act (D : List (Address w)) (T : Thread w) (cs : List (Call w)) (h : Heap w) :
    Option (Action w × Thread w × List (Call w) × Heap w) :=
  match T.code with
  | .step c q =>
    match machine packed c h with
    | .ok (a, h') => some (.command c, ⟨T.lists, q a⟩, cs, h')
    | .error _ => none
  | .done _ =>
    match cs with
    | [] => none
    | c :: cs =>
      if c.isLegal D T.lists h.load && c.objects.all fun a => D.contains a then
        some (.call c, ⟨c.after T.lists, c.code⟩, cs, h)
      else none

variable {D : ι → List (Address w)} {h₀ h h' : Heap w} {es es' : List (ι × Action w)}
  {L L' : ι → Thread w} {i : ι}

theorem moves_of_act {T T' : Thread w} {cs cs' : List (Call w)} {a : Action w}
    (hT : ∀ t, T.lists t ≠ none → t ∈ D i) (h : T.act (D i) cs h₀ = some (a, T', cs', h')) :
    ThreadMoves (fun i => {a | a ∈ D i}) i T h₀ a T' h' ∧ ∀ t, T'.lists t ≠ none → t ∈ D i := by
  obtain ⟨S, p⟩ := T
  cases p with
  | step c q =>
    simp only [Thread.act] at h
    cases hc : machine packed c h₀ with
    | error e => simp [hc] at h
    | ok x =>
      rw [hc] at h
      cases h
      exact ⟨.command hc, hT⟩
  | done u =>
    cases cs with
    | nil => cases h
    | cons c cs =>
      simp only [Thread.act] at h
      split at h
      · rename_i hc
        rw [Bool.and_eq_true, Call.isLegal_iff hT, List.all_eq_true] at hc
        have hD : ∀ a ∈ c.objects, a ∈ D i := fun a ha => List.contains_iff_mem.mp (hc.2 a ha)
        cases h
        refine ⟨.call hc.1 hD, fun t ht => ?_⟩
        rcases ne_none_of_after hc.1 ht with ht | ht
        · exact hT t ht
        · exact hD t (Call.setsTree_subset ht)
      · cases h

variable [DecidableEq ι]

/-- Lets the threads act in the given order. -/
def schedule (D : ι → List (Address w)) : List ι → (ι → Thread w) → (ι → List (Call w)) →
    Heap w → Option (List (ι × Action w) × (ι → Thread w) × Heap w)
  | [], L, _, h => some ([], L, h)
  | i :: is, L, C, h =>
    ((L i).act (D i) (C i) h).bind fun x =>
      (schedule D is (Function.update L i x.2.1) (Function.update C i x.2.2.1) x.2.2.2).map
        fun y => ((i, x.1) :: y.1, y.2)

theorem joint_of_schedule {is : List ι} {C : ι → List (Call w)}
    (hj : Joint (ThreadMoves fun i => {a | a ∈ D i}) (fun _ => .fresh) h₀ es L h)
    (hL : ∀ i t, (L i).lists t ≠ none → t ∈ D i)
    (hs : schedule D is L C h = some (es', L', h')) :
    Joint (ThreadMoves fun i => {a | a ∈ D i}) (fun _ => .fresh) h₀ (es ++ es') L' h' := by
  induction is generalizing L C h es es' with
  | nil =>
    cases hs
    rwa [List.append_nil]
  | cons i is ih =>
    simp only [schedule, Option.bind_eq_some_iff, Option.map_eq_some_iff] at hs
    obtain ⟨⟨a, T, cs, h₁⟩, hact, ⟨es₁, L₁, h₂⟩, hrest, heq⟩ := hs
    cases heq
    obtain ⟨hmove, hT⟩ := moves_of_act (hL i) hact
    have hL₁ : ∀ j t, (Function.update L i T j).lists t ≠ none → t ∈ D j := by
      intro j t ht
      by_cases hij : j = i
      · subst hij
        rw [Function.update_self] at ht
        exact hT t ht
      · rw [Function.update_of_ne hij] at ht
        exact hL j t ht
    have hall := ih (hj.move hmove) hL₁ hrest
    rwa [List.append_assoc] at hall

end Schedules

section Sample

/-- What two threads own, and what they call: each fills a tree of its own, which rotates, and
removes its root. -/
def halves : Bool → List (Address 6)
  | true => [cell 0, cell 2, cell 4, cell 6]
  | false => [cell 1, cell 3, cell 5, cell 7]

def halvesCalls : Bool → List (Call 6)
  | true => [.treeInit (cell 0), .add (cell 0) none (.root (cell 0)) (cell 2),
      .link (cell 2) (.right (cell 2)) (cell 4), .link (cell 4) (.right (cell 4)) (cell 6),
      .unlink (cell 4)]
  | false => [.treeInit (cell 1), .add (cell 1) none (.root (cell 1)) (cell 3),
      .link (cell 3) (.left (cell 3)) (cell 5), .link (cell 5) (.left (cell 5)) (cell 7),
      .unlinkStale (cell 5)]

theorem disjoint_halves (i j : Bool) (h : i ≠ j) :
    Disjoint {a | a ∈ halves i} {a | a ∈ halves j} := by
  rw [Set.disjoint_left]
  cases i <;> cases j <;> simp [halves] at h ⊢ <;> decide

/-- In turns, until one thread is done and the other one is still in its last call, and on to
the end. -/
theorem threads_apart_sample :
    (∃ es L h, Joint (ThreadMoves fun i => {a | a ∈ halves i}) (fun _ => .fresh) zeroes es L h ∧
      WellFormed h (L false).lists ∧ (L false).lists (cell 1) = some [cell 7, cell 3] ∧
      ∃ c q a h', (L true).code = .step c q ∧ machine packed c h = .ok (a, h')) ∧
    ∃ es L h, Joint (ThreadMoves fun i => {a | a ∈ halves i}) (fun _ => .fresh) zeroes es L h ∧
      (L true).lists (cell 0) = some [cell 2, cell 6] ∧
      (L false).lists (cell 1) = some [cell 7, cell 3] ∧
      ∀ i, WellFormed h (L i).lists ∧ ∃ g,
        Working {a | a ∈ halves i} zeroes (eventsOf i es) (L i) g ∧
          AgreeOn {a | a ∈ halves i} g h := by
  have hplan : ∀ (is : List Bool) (P : (Bool → Thread 6) → Bool),
      (schedule halves is (fun _ => .fresh) halvesCalls zeroes).any (fun x => P x.2.1) = true →
      ∃ es L h, Joint (ThreadMoves fun i => {a | a ∈ halves i}) (fun _ => .fresh) zeroes es L h ∧
        P L = true := by
    intro is P hP
    cases hs : schedule halves is (fun _ => .fresh) halvesCalls zeroes with
    | none => simp [hs] at hP
    | some x =>
      rw [hs] at hP
      exact ⟨_, _, _, joint_of_schedule .start (fun _ _ ht => absurd rfl ht) hs, hP⟩
  constructor
  · obtain ⟨es, L, h, hj, hP⟩ := hplan (List.replicate 83 [true, false]).flatten
      (fun L => decide ((L false).code.result = some () ∧ (L true).code.result = none ∧
        (L false).lists (cell 1) = some [cell 7, cell 3])) (by decide +kernel)
    obtain ⟨hfalse, htrue, hlist⟩ := of_decide_eq_true hP
    obtain ⟨-, -, hwf⟩ := threads_apart disjoint_halves hj false
    obtain ⟨-, hnext, -⟩ := threads_apart disjoint_halves hj true
    refine ⟨es, L, h, hj, hwf (Program.result_eq_some.mp hfalse), hlist, ?_⟩
    cases hcode : (L true).code with
    | done a => simp [hcode, Program.result] at htrue
    | step c q =>
      obtain ⟨a, h', hc⟩ := hnext c q hcode
      exact ⟨c, q, a, h', rfl, hc⟩
  · obtain ⟨es, L, h, hj, hP⟩ := hplan
      ((List.replicate 83 [true, false]).flatten ++ List.replicate 4 true)
      (fun L => decide ((∀ i, (L i).code.result = some ()) ∧
        (L true).lists (cell 0) = some [cell 2, cell 6] ∧
        (L false).lists (cell 1) = some [cell 7, cell 3])) (by decide +kernel)
    obtain ⟨hdone, htrue, hfalse⟩ := of_decide_eq_true hP
    refine ⟨es, L, h, hj, htrue, hfalse, fun i => ?_⟩
    obtain ⟨halone, -, hwf⟩ := threads_apart disjoint_halves hj i
    exact ⟨hwf (Program.result_eq_some.mp (hdone i)), halone⟩

end Sample

end CRbtree
