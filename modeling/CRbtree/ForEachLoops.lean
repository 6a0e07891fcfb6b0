import CRbtree.Cursors
import CRbtree.Iterators
import CRbtree.Reading
import CRbtree.Traversing

set_option autoImplicit false

/-!
The iterator macros of c-rbtree.h that fetch the next node after their body has run. The
body may change the tree around the current node.
-/

namespace CRbtree
open RedBlack TaggedPointers PointerGraphs Programs Cursors

variable {w : ℕ} {ι : Type}

/-- `for (i = first; more(i); i = next(i))` -/
structure Loop (C : Type) (R : C → Type) (ι : Type) where
  first : Program C R ι
  more : ι → Bool
  next : ι → Program C R ι

/-- c_rbtree_for_each() -/
def rbtreeForEach (t : Pointer w) : Loop (Command w) Answer (Pointer w) where
  first := rbtreeFirst t
  more iter := iter.isSome
  next := rbnodeNext

/-- A loop over nodes, as one over the objects that embed them. -/
def entryLoop (off : Word w) (N : Loop (Command w) Answer (Pointer w)) :
    Loop (Command w) Answer (Word w) where
  first := do pure (rbnodeEntry off (← N.first))
  more iter := iter ≠ 0#(w + 2)
  next iter := do pure (rbnodeEntry off (← N.next (memberOf off iter)))

/-- c_rbtree_for_each_entry() -/
def rbtreeForEachEntry (off : Word w) (t : Pointer w) : Loop (Command w) Answer (Word w) :=
  entryLoop off (rbtreeForEach t)

/-- c_rbtree_for_each_postorder() -/
def rbtreeForEachPostorder (t : Pointer w) : Loop (Command w) Answer (Pointer w) where
  first := rbtreeFirstPostorder t
  more iter := iter.isSome
  next := rbnodeNextPostorder

/-- c_rbtree_for_each_entry_postorder() -/
def rbtreeForEachEntryPostorder (off : Word w) (t : Pointer w) :
    Loop (Command w) Answer (Word w) :=
  entryLoop off (rbtreeForEachPostorder t)

/-- The loop `L` shows each node to its body as `view` has it. -/
structure Shows (good : Address w → Prop) (view : Pointer w → ι) (point : ι → Pointer w)
    (N : Loop (Command w) Answer (Pointer w)) (L : Loop (Command w) Answer ι) : Prop where
  first : ∀ {h p}, Returns h N.first p → Returns h L.first (view p)
  next : ∀ {h a p}, good a → Returns h (N.next (some a)) p →
    Returns h (L.next (view (some a))) (view p)
  more : ∀ a, good a → L.more (view (some a)) = true ∧ point (view (some a)) = some a
  stop : L.more (view none) = false

theorem shows_node (N : Loop (Command w) Answer (Pointer w)) (hmore : N.more = Option.isSome) :
    Shows (fun _ => True) id id N N where
  first h := h
  next _ h := h
  more a _ := ⟨by simp [hmore], rfl⟩
  stop := by simp [hmore]

theorem rbnodeEntry_some (off : Word w) (a : Address w) :
    rbnodeEntry off (some a) = a.word - off := by
  simp [rbnodeEntry, Pointer.word, a.nonnull]

/-- An object at address zero would end the loop. -/
theorem shows_entry (off : Word w) (N : Loop (Command w) Answer (Pointer w)) :
    Shows (fun a => a.word ≠ off) (rbnodeEntry off) (memberOf off) N (entryLoop off N) := by
  have hpoint : ∀ a : Address w, memberOf off (rbnodeEntry off (some a)) = some a := fun a => by
    rw [rbnodeEntry_some, memberOf, BitVec.sub_add_cancel]
    exact pointerOf_word (some a)
  constructor
  · rintro h p ⟨tr, hrun⟩
    exact ⟨tr, run_bind_pure hrun _⟩
  · rintro h a p - ⟨tr, hrun⟩
    have hentry := run_bind_pure hrun (rbnodeEntry off)
    rw [← hpoint a] at hentry
    exact ⟨tr, hentry⟩
  · refine fun a ha => ⟨?_, hpoint a⟩
    have hne : a.word - off ≠ 0#(w + 2) := sub_ne_zero.mpr ha
    simpa [entryLoop, rbnodeEntry_some] using hne
  · simp [entryLoop, rbnodeEntry, Pointer.word]

/-- The turns of a loop over the tree at `t` and the calls of its bodies: the items that have
had their turn, the iterator, memory and lists, and the nodes that have been in the tree all
the time. The bodies make allowed calls and leave the current node in the tree. -/
inductive Sweep (L : Loop (Command w) Answer ι) (point : ι → Pointer w) (allowed : Call w → Prop)
    (t : Address w) (h₀ : Heap w) (S₀ : Sequences w) :
    List ι → ι → Heap w → Sequences w → List (Address w) → Prop
  | start {i : ι} {h : Heap w} {tr : List (Command w)} {l : List (Address w)} (hl : S₀ t = some l)
      (hfirst : run (machine packed) L.first h₀ = .ok (i, h, tr)) :
      Sweep L point allowed t h₀ S₀ [] i h S₀ l
  | call {seen : List ι} {i : ι} {h h' : Heap w} {S : Sequences w} {stay l : List (Address w)}
      {a : Address w} {c : Call w} {tr : List (Command w)}
      (hs : Sweep L point allowed t h₀ S₀ seen i h S stay) (hi : L.more i = true)
      (hc : c.Legal S h.load) (hallow : allowed c)
      (hrun : run (machine packed) c.code h = .ok ((), h', tr)) (hl : c.after S t = some l)
      (ha : point i = some a) (hkeep : a ∈ l) :
      Sweep L point allowed t h₀ S₀ seen i h' (c.after S) (stay.filter (· ∈ l))
  | turn {seen : List ι} {i j : ι} {h h' : Heap w} {S : Sequences w} {stay : List (Address w)}
      {tr : List (Command w)} (hs : Sweep L point allowed t h₀ S₀ seen i h S stay)
      (hi : L.more i = true) (hrun : run (machine packed) (L.next i) h = .ok (j, h', tr)) :
      Sweep L point allowed t h₀ S₀ (seen ++ [i]) j h' S stay

section Lists

variable {S : Sequences w} {g : Slot w → Pointer w} {t a : Address w} {l l' : List (Address w)}
  {c : Call w}

theorem agree_insertBeside (d : Side) {p n : Address w} (hn : l.Nodup) (hnl : n ∉ l) :
    Agree l (insertBeside d p n l) ∧ ∀ b ∈ insertBeside d p n l, b ∈ l ∨ b = n := by
  by_cases hp : p ∈ l
  · obtain ⟨xs, ys, rfl⟩ := List.append_of_mem hp
    have hpx : p ∉ xs := fun h => (List.nodup_append'.mp hn).2.2 h (by simp)
    cases d with
    | left =>
      rw [insertBeside_left hpx]
      refine ⟨Agree.insert hnl rfl rfl, fun b hb => ?_⟩
      simp only [List.mem_append, List.mem_cons] at hb ⊢
      grind
    | right =>
      rw [insertBeside_right hpx]
      refine ⟨Agree.insert hnl (List.append_cons xs p ys) (List.append_cons xs p _), fun b hb => ?_⟩
      simp only [List.mem_append, List.mem_cons] at hb ⊢
      grind
  · rw [insertBeside_of_not_mem hp]
    exact ⟨rfl, fun b hb => .inl hb⟩

/-- A call that leaves `a` in the tree keeps the order of the others, and adds what it adds. -/
theorem Call.agree (hc : c.Legal S g) (hl : S t = some l) (hn : l.Nodup) (ha : a ∈ l)
    (hroot : g (.root t) ≠ none) (hl' : c.after S t = some l') (ha' : a ∈ l') :
    Agree l l' ∧ ∀ b ∈ l', b ∈ l ∨ b ∈ c.added := by
  have hsame : c.after S t = S t → Agree l l' ∧ ∀ b ∈ l', b ∈ l ∨ b ∈ c.added := by
    intro hS
    obtain rfl : l = l' := Option.some.inj (hl.symm.trans (hS.symm.trans hl'))
    exact ⟨rfl, fun b hb => .inl hb⟩
  have hfree : ∀ n, ¬Linked S n → n ∉ l := fun n hfree h => hfree ⟨t, l, hl, h⟩
  have hbeside : ∀ {d : Side} {p n : Address w}, ¬Linked S n →
      (S t).map (insertBeside d p n) = some l' → Agree l l' ∧ ∀ b ∈ l', b ∈ l ∨ b ∈ [n] := by
    intro d p n hnl hS
    rw [hl, Option.map_some] at hS
    cases hS
    simpa using agree_insertBeside d hn (hfree n hnl)
  have herase : ∀ {n : Address w}, (S t).map (fun l => l.erase n) = some l' →
      Agree l l' ∧ ∀ b ∈ l', b ∈ l ∨ b ∈ c.added := by
    intro n hS
    rw [hl, Option.map_some] at hS
    cases hS
    exact ⟨Agree.erase hn n, fun b hb => .inl (List.mem_of_mem_erase hb)⟩
  cases c with
  | treeInit t' =>
    by_cases ht : t' = t
    · subst ht
      obtain rfl := hc l hl
      cases ha
    · exact hsame (Function.update_of_ne (Ne.symm ht) ..)
  | nodeInit n => exact hsame rfl
  | add t' p s n =>
    cases p with
    | none =>
      obtain ⟨-, rfl, hnone, -⟩ := hc
      have ht : t ≠ t' := by
        rintro rfl
        exact hroot hnone
      exact hsame (Function.update_of_ne ht ..)
    | some p => exact hbeside hc.2.2.2 hl'
  | link p s n => exact hbeside hc.2.2.2 hl'
  | unlink n | unlinkStale n => exact herase hl'
  | move dst src =>
    obtain ⟨-, hnone, -⟩ := hc
    have hdst : t ≠ dst := by
      rintro rfl
      exact hroot hnone
    by_cases hsrc : t = src
    · subst hsrc
      rw [Call.after, Function.update_self] at hl'
      cases hl'
      cases ha'
    · exact hsame (by rw [Call.after, Function.update_of_ne hsrc, Function.update_of_ne hdst])

end Lists

section Sweeps

variable {z h₀ h : Heap w} {cs : List (Call w)} {tr : List (Command w)} {S₀ S : Sequences w}
  {t : Address w} {l l₀ stay : List (Address w)} {L : Loop (Command w) Answer ι}
  {view : Pointer w → ι} {point : ι → Pointer w} {good : Address w → Prop}
  {allowed : Call w → Prop} {seen : List ι} {i : ι}

theorem Run.steps (hr : Run packed z cs tr h S) (hl : S t = some l) :
    l.Nodup ∧ Returns h (rbtreeFirst (some t)) l.head? ∧ Follows h rbnodeNext l := by
  obtain ⟨m, F, -, hm, rfl, hh, -⟩ := hr.holds
  obtain ⟨T, hT, rfl, -⟩ := hh.mem_iff hl
  have hlaid : Laid h t T := ⟨m, hm, hh.tree t T hT⟩
  have hnd := F.nodup t T hT
  exact ⟨hnd, hlaid.first hnd, hlaid.follows_next hnd⟩

theorem Returns.run_eq {α : Type} {p : Prog w α} {a b : α} {h' : Heap w} {tr : List (Command w)}
    (ha : Returns h p a) (hb : run (machine packed) p h = .ok (b, h', tr)) : b = a ∧ h' = h := by
  obtain ⟨tr', ha⟩ := ha
  rw [hb] at ha
  cases ha
  exact ⟨rfl, rfl⟩

/-- Where a loop stands, whatever its bodies have done. -/
theorem Sweep.position (hL : Shows good view point (rbtreeForEach (some t)) L)
    (hr : Run packed z cs tr h₀ S₀) (hl₀ : S₀ t = some l₀) (hgood : ∀ a ∈ l₀, good a)
    (hallow : ∀ c, allowed c → ∀ n ∈ c.added, good n)
    (hs : Sweep L point allowed t h₀ S₀ seen i h S stay) :
    ∃ cs' tr' l o, Run packed z cs' tr' h S ∧ S t = some l ∧ (∀ a ∈ l, good a) ∧ i = view o ∧
      AtOrEnd stay (seen.filterMap point) o l ∧
      ((∀ c, allowed c → c.added = []) → AheadOrEnd l₀ (seen.filterMap point) o l) := by
  induction hs with
  | @start i h₁ tr₁ l hl hfirst =>
    obtain rfl : l₀ = l := Option.some.inj (hl₀.symm.trans hl)
    obtain ⟨-, hhead, -⟩ := hr.steps hl
    obtain ⟨rfl, rfl⟩ := (hL.first hhead).run_eq hfirst
    refine ⟨cs, tr, l₀, l₀.head?, hr, hl, hgood, rfl, .start l₀, fun _ => ?_⟩
    cases l₀ with
    | nil => exact List.Sublist.refl []
    | cons a ys => exact ⟨[], ys, rfl, List.Sublist.refl _⟩
  | @call seen i h h' S stay l' a c tr' hs hi hc hallow' hrun hl' ha hkeep ih =>
    obtain ⟨cs₁, tr₁, l, o, hr₁, hl, hgood₁, rfl, hat, hahead⟩ := ih
    obtain ⟨hn, -, -⟩ := hr₁.steps hl
    cases o with
    | none => rw [hL.stop] at hi; cases hi
    | some b =>
      obtain ⟨xs, ys, hxy, -⟩ := hat.split
      have hb : b ∈ l := by simp [hxy]
      obtain rfl : b = a := Option.some.inj ((hL.more b (hgood₁ b hb)).2.symm.trans ha)
      have hroot : h.load (.root t) ≠ none := by
        rcases hr₁.root_cases hl with ⟨-, rfl⟩ | ⟨n, -, hroot⟩
        · cases hb
        · simp [hroot]
      obtain ⟨hagree, hadded⟩ := Call.agree hc hl hn hb hroot hl' hkeep
      refine ⟨_, _, l', some b, hr₁.call hc hrun, hl', fun x hx => ?_, rfl,
        At.change hat hn hagree hkeep, fun hnone => ?_⟩
      · exact (hadded x hx).elim (hgood₁ x) (hallow c hallow' x)
      · refine Ahead.change (hahead hnone) hn hagree hkeep fun x hx => ?_
        simpa [hnone c hallow'] using hadded x hx
  | @turn seen i j h h' S stay tr' hs hi hrun ih =>
    obtain ⟨cs₁, tr₁, l, o, hr₁, hl, hgood₁, rfl, hat, hahead⟩ := ih
    obtain ⟨hn, -, hfollows⟩ := hr₁.steps hl
    cases o with
    | none => rw [hL.stop] at hi; cases hi
    | some b =>
      obtain ⟨xs, ys, hxy, -⟩ := hat.split
      have hb := hgood₁ b (by simp [hxy])
      obtain ⟨rfl, rfl⟩ := (hL.next hb (hfollows xs b ys hxy)).run_eq hrun
      refine ⟨cs₁, tr₁, l, ys.head?, hr₁, hl, hgood₁, rfl, ?_, fun hnone => ?_⟩
      · simpa [(hL.more b hb).2] using At.next hat hn hxy
      · simpa [(hL.more b hb).2] using Ahead.next (hahead hnone) hn hxy

/-- What a loop does with the nodes that are in the tree all the time, and how it goes on. -/
structure Orderly (L : Loop (Command w) Answer ι) (point : ι → Pointer w) (allowed : Call w → Prop)
    (t : Address w) (l₀ : List (Address w)) (seen : List ι) (i : ι) (h : Heap w) (S : Sequences w)
    (stay : List (Address w)) : Prop where
  wellFormed : WellFormed h S
  /-- The body finds its node in the tree, and may make any legal call. -/
  go : L.more i = true → (∃ a l, point i = some a ∧ S t = some l ∧ a ∈ l) ∧
    (∀ c : Call w, c.Legal S h.load → ∃ h' tr, run (machine packed) c.code h = .ok ((), h', tr)) ∧
      ∃ j, Returns h (L.next i) j
  inOrder : (seen.filterMap point).filter (· ∈ stay) <+: stay
  done : L.more i = false → (seen.filterMap point).filter (· ∈ stay) = stay
  bounded : (∀ c, allowed c → c.added = []) → (seen.filterMap point).Sublist l₀

theorem Sweep.orderly (hL : Shows good view point (rbtreeForEach (some t)) L)
    (hr : Run packed z cs tr h₀ S₀) (hl₀ : S₀ t = some l₀) (hgood : ∀ a ∈ l₀, good a)
    (hallow : ∀ c, allowed c → ∀ n ∈ c.added, good n)
    (hs : Sweep L point allowed t h₀ S₀ seen i h S stay) :
    Orderly L point allowed t l₀ seen i h S stay := by
  obtain ⟨cs', tr', l, o, hr', hl, hgood', rfl, hat, hahead⟩ := hs.position hL hr hl₀ hgood hallow
  obtain ⟨-, -, hfollows⟩ := hr'.steps hl
  have hwf : WellFormed h S := by
    obtain ⟨m, F, -, hm, rfl, hh, -⟩ := hr'.holds
    exact hh.wellFormed hm
  cases o with
  | none =>
    have hdone : (seen.filterMap point).filter (· ∈ stay) = stay := hat
    refine ⟨hwf, fun hi => ?_, ?_, fun _ => hdone, hahead⟩
    · rw [hL.stop] at hi
      cases hi
    · rw [hdone]
  | some a =>
    obtain ⟨⟨xs, ys, hxy, hseen⟩, hstay⟩ := hat
    have ha : a ∈ l := by simp [hxy]
    obtain ⟨hmore, hpoint⟩ := hL.more a (hgood' a ha)
    refine ⟨hwf, fun _ => ⟨⟨a, l, hpoint, hl, ha⟩, fun c hc => ?_, _,
      hL.next (hgood' a ha) (hfollows xs a ys hxy)⟩, ?_, fun hi => ?_, fun hnone => ?_⟩
    · obtain ⟨h', tr'', hrun, -⟩ := hr'.exists_call hc
      exact ⟨h', tr'', hrun⟩
    · rw [← hseen]
      refine ⟨(a :: ys).filter (· ∈ stay), ?_⟩
      rw [← List.filter_append, ← hxy, hstay]
    · rw [hmore] at hi
      cases hi
    · obtain ⟨xs', ys', -, hsub⟩ := hahead hnone
      exact (List.sublist_append_left _ _).trans hsub

/-- Bodies may add nodes to the tree and remove others than their own: c_rbtree_for_each() still
visits every node that stays, once and in order. So do objects that are not at address zero. -/
theorem forEach_orderly (hr : Run packed z cs tr h₀ S₀) (hl₀ : S₀ t = some l₀)
    (allowed : Call w → Prop) :
    (∀ seen i h S stay, Sweep (rbtreeForEach (some t)) id allowed t h₀ S₀ seen i h S stay →
      Orderly (rbtreeForEach (some t)) id allowed t l₀ seen i h S stay) ∧
    ∀ off : Word w, (∀ a ∈ l₀, a.word ≠ off) → (∀ c, allowed c → ∀ n ∈ c.added, n.word ≠ off) →
      ∀ seen i h S stay,
        Sweep (rbtreeForEachEntry off (some t)) (memberOf off) allowed t h₀ S₀ seen i h S stay →
          Orderly (rbtreeForEachEntry off (some t)) (memberOf off) allowed t l₀ seen i h S stay :=
  ⟨fun _ _ _ _ _ hs => hs.orderly (shows_node _ rfl) hr hl₀ (fun _ _ => trivial)
      fun _ _ _ _ => trivial,
    fun off hobj hadd _ _ _ _ _ hs =>
      hs.orderly (shows_entry off (rbtreeForEach (some t))) hr hl₀ hobj hadd⟩

section Sample

variable {a n : Address w} {c : Call w} {ys : List (Address w)} {nodes : List (Pointer w)}

/-- A turn whose body does no more. -/
theorem Sweep.step (xs : List (Address w)) (hr : Run packed z cs tr h S)
    (hs : Sweep (rbtreeForEach (some t)) id allowed t h₀ S₀ nodes (some a) h S stay)
    (hl : S t = some (xs ++ a :: ys)) :
    Sweep (rbtreeForEach (some t)) id allowed t h₀ S₀ (nodes ++ [some a]) ys.head? h S stay := by
  obtain ⟨-, -, hfollows⟩ := hr.steps hl
  obtain ⟨tr', hnext⟩ := hfollows xs a ys rfl
  exact hs.turn rfl hnext

/-- A body that makes a call. -/
theorem Sweep.body (hr : Run packed z cs tr h S)
    (hs : Sweep (rbtreeForEach (some t)) id allowed t h₀ S₀ nodes (some a) h S stay)
    (hc : c.Legal S h.load) (hallow : allowed c) (hl : c.after S t = some l) (ha : a ∈ l) :
    ∃ cs' tr' h' S', Run packed z cs' tr' h' S' ∧ S' t = some l ∧
      Sweep (rbtreeForEach (some t)) id allowed t h₀ S₀ nodes (some a) h' S'
        (stay.filter (· ∈ l)) := by
  obtain ⟨h', tr', hrun, hr'⟩ := hr.exists_call hc
  exact ⟨_, _, h', _, hr', hl, hs.call rfl hc hallow hrun hl rfl ha⟩

/-- A body that unlinks another node. -/
theorem Sweep.unlink (hr : Run packed z cs tr h S)
    (hs : Sweep (rbtreeForEach (some t)) id allowed t h₀ S₀ nodes (some a) h S stay)
    (hl : S t = some l) (hallow : allowed (.unlink n)) (hn : n ∈ l) (ha : a ∈ l.erase n) :
    ∃ cs' tr' h' S', Run packed z cs' tr' h' S' ∧ S' t = some (l.erase n) ∧
      Sweep (rbtreeForEach (some t)) id allowed t h₀ S₀ nodes (some a) h' S'
        (stay.filter (· ∈ l.erase n)) :=
  hs.body hr (c := .unlink n) ⟨t, l, hl, hn⟩ hallow (by simp [Call.after, hl]) ha

/-- The first body adds a node further on, the second one removes the root, and the one of the
new node removes the next node. -/
theorem forEach_orderly_sample : ∃ h S,
    Sweep (rbtreeForEach (some (cell 1))) id (fun _ => True) (cell 1) sampleHeap sampleLists
      [some (cell 3), some (cell 4), some (cell 2), some (cell 8), some (cell 10), some (cell 9)]
      none h S [cell 3, cell 4, cell 8, cell 10, cell 9] ∧
    Orderly (rbtreeForEach (some (cell 1))) id (fun _ => True) (cell 1)
      [cell 3, cell 4, cell 6, cell 7, cell 8, cell 10, cell 9]
      [some (cell 3), some (cell 4), some (cell 2), some (cell 8), some (cell 10), some (cell 9)]
      none h S [cell 3, cell 4, cell 8, cell 10, cell 9] ∧
    S (cell 1) = some [cell 3, cell 4, cell 2, cell 8, cell 10, cell 9] := by
  obtain ⟨-, ⟨tr₀, hfirst⟩, -⟩ := run_sample.steps sampleLists_second
  have hs₀ : Sweep (rbtreeForEach (some (cell 1))) id (fun _ => True) (cell 1) sampleHeap
      sampleLists [] (some (cell 3)) sampleHeap sampleLists _ := .start sampleLists_second hfirst
  have hadded : (Call.link (cell 7) (.left (cell 7)) (cell 2)).after sampleLists (cell 1) =
      some [cell 3, cell 4, cell 6, cell 2, cell 7, cell 8, cell 10, cell 9] := by decide +kernel
  obtain ⟨_, _, _, _, hr₁, hl₁, hs₁⟩ := hs₀.body run_sample (run_sample.legal (by decide +kernel))
    trivial hadded (by simp)
  have hs₂ := hs₁.step [] hr₁ hl₁
  obtain ⟨_, _, _, _, hr₃, hl₃, hs₃⟩ := hs₂.unlink hr₁ hl₁ trivial (n := cell 6) (by simp)
    (by decide)
  have hs₄ := hs₃.step [cell 3] hr₃ hl₃
  obtain ⟨_, _, h, S, hr₅, hl₅, hs₅⟩ := hs₄.unlink hr₃ hl₃ trivial (n := cell 7) (by decide)
    (by decide)
  have hs₆ := hs₅.step [cell 3, cell 4] hr₅ hl₅
  have hs₇ := hs₆.step [cell 3, cell 4, cell 2] hr₅ hl₅
  have hs₈ := hs₇.step [cell 3, cell 4, cell 2, cell 8] hr₅ hl₅
  have hs₉ := hs₈.step [cell 3, cell 4, cell 2, cell 8, cell 10] hr₅ hl₅
  exact ⟨h, S, hs₉, (forEach_orderly run_sample sampleLists_second _).1 _ _ _ _ _ hs₉, hl₅⟩

end Sample

end Sweeps

end CRbtree
