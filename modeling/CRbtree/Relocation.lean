import CRbtree.Footprints
import CRbtree.Maps
import CRbtree.Transport

set_option autoImplicit false

/-!
Runs of calls on memories that correspond: neither the addresses of the objects nor what
the memory held before count for what the library does.
-/

namespace CRbtree
open RedBlack TaggedPointers PointerGraphs Programs

variable {w : ℕ}

namespace Call

def rename (f : Address w → Address w) : Call w → Call w
  | treeInit t => treeInit (f t)
  | nodeInit n => nodeInit (f n)
  | add t p l n => add (f t) (p.map f) (l.rename f) (f n)
  | link p l n => link (f p) (l.rename f) (f n)
  | unlink n => unlink (f n)
  | unlinkStale n => unlinkStale (f n)
  | move dst src => move (f dst) (f src)

end Call

namespace Matching

variable {M : Matching w} {h h' : Heap w} {c : Call w}

/-- The objects of the call are shared. -/
def Shares (M : Matching w) : Call w → Prop
  | .treeInit t => t ∈ M.trees
  | .nodeInit n | .unlink n | .unlinkStale n => n ∈ M.nodes
  | .add t p l n =>
    (p = none → t ∈ M.trees) ∧ (∀ a ∈ p, a ∈ M.nodes) ∧ l.object ∈ M.objects ∧ n ∈ M.nodes
  | .link p l n => p ∈ M.nodes ∧ l.object ∈ M.objects ∧ n ∈ M.nodes
  | .move dst src => dst ∈ M.trees ∧ src ∈ M.trees

theorem alike_tree {t : Address w} (ht : t ∈ M.trees) : M.Alike (some t) (some (M.rename t)) :=
  ⟨rfl, by simpa using .inr ht⟩

theorem Joins.anewRoot {t : Address w} {ns : List (Address w)} (hj : M.Joins ns [t] h h') :
    M.Joins ns [] (h.store (.root t) none) (h'.store (.root (M.rename t)) none) := by
  have hj' := hj.store (s := .root t) same_none
  refine ⟨hj'.node, fun u hu _ => ?_⟩
  by_cases hut : u = t
  · subst hut
    simpa using same_none
  · exact hj'.tree u hu (by simpa using hut)

/-- A call and the renamed call, on memories that correspond. -/
theorem lockstep_call (hc : M.Shares c) (hj : M.Joins c.setsNode c.setsTree h h') :
    Lockstep (machine packed) (machine packed) M.Pair (M.Joins [] []) Eq
      c.code h (c.rename M.rename).code h' := by
  cases c with
  | treeInit t => exact .step ⟨rfl, .inr hc, nofun⟩ rfl rfl (.done rfl hj.anewRoot)
  | nodeInit n =>
    exact lockstep_fresh (k := pure ()) (q := pure ()) hc (same_some hc) isFlags_zero (.pure rfl) hj
  | unlink n => exact tie_unlink (same_some hc) _ _ hj
  | unlinkStale n => exact tie_unlinkStale (same_some hc) _ _ hj
  | move dst src => exact tie_rbtreeMove hc.1 hc.2 _ _ hj
  | add t p l n =>
    obtain ⟨ht, hp, hl, hn⟩ := hc
    have hp' : M.Same p (p.map M.rename) := ⟨rfl, hp⟩
    have hslot : some (l.rename M.rename) = some (.root (M.rename t)) ↔
        some l = some (.root t) := by
      rw [Option.some.injEq, Option.some.injEq]
      exact (Slot.rename_injective M.injective).eq_iff (b := .root t)
    refine lockstep_assert rfl <| lockstep_assert rfl <| lockstep_assert rfl <|
      lockstep_assert ?_ <| lockstep_assert ?_ <| lockstep_fresh hn hp' isFlags_red ?_ hj
    · rw [hp'.alike.isNone_eq, isChildSlot_rename hp']
    · rw [hp'.alike.isSome_eq]
      exact congrArg _ (decide_eq_decide.mpr hslot)
    · exact (tie_storeOrPushRoot (fun h => alike_tree (ht h)) hp' hl (same_some hn)).bind
        fun _ _ _ =>
        tie_rbtreePaint (same_some hn)
  | link p l n =>
    obtain ⟨hp, hl, hn⟩ := hc
    refine lockstep_assert rfl <| lockstep_assert rfl <| lockstep_assert rfl <|
      lockstep_assert (isChildSlot_rename (same_some hp)) <|
      lockstep_fresh hn (same_some hp) isFlags_red ?_ hj
    exact (tie_storeSlot hl (same_some hn)).bind fun _ _ _ => tie_rbtreePaint (same_some hn)

/-- What the shared objects but `ns` and `ts` point to is shared. -/
structure Closed (M : Matching w) (ns ts : List (Address w)) (h : Heap w) : Prop where
  child : ∀ a ∈ M.nodes, a ∉ ns → ∀ d, ∀ b ∈ h.load (.child d a), b ∈ M.nodes
  parent : ∀ a ∈ M.nodes, a ∉ ns → ∀ b ∈ parentOf (h.link a), b ∈ M.nodes
  raw : ∀ a ∈ M.nodes, a ∉ ns → ∀ b ∈ rawOf (h.link a), b ∈ M.objects
  root : ∀ t ∈ M.trees, t ∉ ts → ∀ b ∈ h.load (.root t), b ∈ M.nodes

/-- Memories that correspond for some objects correspond for others, if these are closed. -/
theorem Joins.change {M M' : Matching w} {ns ts ns' ts' : List (Address w)}
    (hj : M.Joins ns ts h h') (hM : M'.rename = M.rename)
    (hn : ∀ a ∈ M'.nodes, a ∉ ns' → a ∈ M.nodes ∧ a ∉ ns)
    (ht : ∀ t ∈ M'.trees, t ∉ ts' → t ∈ M.trees ∧ t ∉ ts) (hc : M'.Closed ns' ts' h) :
    M'.Joins ns' ts' h h' := by
  have hsame : ∀ {p q}, M.Same p q → (∀ a ∈ p, a ∈ M'.nodes) → M'.Same p q :=
    fun hs hp => ⟨hM ▸ hs.1, hp⟩
  refine ⟨fun a ha hl => ?_, fun t ht' hl => ?_⟩
  · obtain ⟨hleft, hright, hflags, hraw, hparent⟩ := hj.node a (hn a ha hl).1 (hn a ha hl).2
    rw [← hM] at hleft hright hflags hraw hparent
    exact ⟨hsame hleft (hc.child a ha hl .left), hsame hright (hc.child a ha hl .right), hflags,
      ⟨hM ▸ hraw.1, hc.raw a ha hl⟩, hsame hparent (hc.parent a ha hl)⟩
  · have hroot := hj.tree t (ht t ht' hl).1 (ht t ht' hl).2
    rw [← hM] at hroot
    exact hsame hroot (hc.root t ht' hl)

/-- All trees and their members, with the nodes of `ns` and the trees of `ts`. -/
def sharing (ρ : Equiv.Perm (Address w)) (S : Sequences w) (ns ts : List (Address w)) :
    Matching w where
  rename := ρ
  injective := ρ.injective
  nodes := {a | Linked S a ∨ a ∈ ns}
  trees := {t | S t ≠ none ∨ t ∈ ts}

theorem closed_sharing {ρ : Equiv.Perm (Address w)} {S : Sequences w} {ns ts : List (Address w)}
    (hw : WellFormed h S) : (sharing ρ S ns ts).Closed ns ts h := by
  refine ⟨fun a ha hl d b hb => ?_, fun a ha hl b hb => ?_, fun a ha hl b hb => ?_,
    fun t ht hl b hb => ?_⟩
  · exact .inl ((hw.closed a (ha.resolve_right hl)).1 d b hb)
  · exact .inl ((hw.closed a (ha.resolve_right hl)).2 b hb)
  · have hlinked := ha.resolve_right hl
    obtain ⟨t, l, ht, hal⟩ := id hlinked
    by_cases hroot : isRootOf (h.link a) = true
    · have htree := hw.tree t a (by simp [ht]) ((hw.root t l ht a hal).mp hroot)
      obtain rfl : t = b := Option.some.inj (htree.1.symm.trans hb)
      exact .inr (.inl (by simp [ht]))
    · rw [← parentOf_eq_rawOf (by simpa [isRootOf] using hroot)] at hb
      exact .inl (.inl ((hw.closed a hlinked).2 b hb))
  · obtain ⟨l, hS⟩ := Option.ne_none_iff_exists'.mp (ht.resolve_right hl)
    exact .inl ⟨t, l, hS, (hw.members t l hS b).mpr ⟨[], hb⟩⟩

end Matching

/-- The lists of the renamed trees, of renamed nodes. -/
def Sequences.rename (ρ : Equiv.Perm (Address w)) (S : Sequences w) : Sequences w :=
  fun t => (S (ρ.symm t)).map (List.map ρ)

section Sequences

variable {ρ : Equiv.Perm (Address w)} {S : Sequences w} {c : Call w}

@[simp] theorem Sequences.rename_apply (t : Address w) :
    S.rename ρ (ρ t) = (S t).map (List.map ρ) := by
  simp [Sequences.rename]

theorem linked_rename {n : Address w} : Linked (S.rename ρ) (ρ n) ↔ Linked S n := by
  constructor
  · rintro ⟨t, l, ht, hn⟩
    obtain ⟨k, hk, rfl⟩ := Option.map_eq_some_iff.mp ht
    exact ⟨_, k, hk, by simpa using hn⟩
  · rintro ⟨t, l, ht, hn⟩
    exact ⟨ρ t, l.map ρ, by simp [ht], List.mem_map_of_mem hn⟩

theorem rename_update {t : Address w} {v : Option (List (Address w))} :
    Sequences.rename ρ (Function.update S t v) =
      Function.update (S.rename ρ) (ρ t) (v.map (List.map ρ)) := by
  funext u
  simp only [Sequences.rename, Function.update_apply, Equiv.symm_apply_eq]
  split <;> rfl

theorem insertBeside_map {d : RedBlack.Side} {p n : Address w} (l : List (Address w)) :
    insertBeside d (ρ p) (ρ n) (l.map ρ) = (insertBeside d p n l).map ρ := by
  induction l with
  | nil => rfl
  | cons a l ih =>
    simp only [List.map_cons, insertBeside, ρ.apply_eq_iff_eq, ih]
    split
    · split <;> rfl
    · rfl

theorem after_rename : (c.rename ρ).after (S.rename ρ) = Sequences.rename ρ (c.after S) := by
  have hmap : ∀ u v : List (Address w) → List (Address w), (∀ l, u (l.map ρ) = (v l).map ρ) →
      (fun t => (S.rename ρ t).map u) = Sequences.rename ρ fun t => (S t).map v := by
    intro u v huv
    funext t
    simp only [Sequences.rename, Option.map_map]
    exact congrArg (Option.map · _) (funext huv)
  have hinsert : ∀ (l : Slot w) (p n : Address w),
      (fun t => (S.rename ρ t).map (insertBeside (sideOf (l.rename ρ)) (ρ p) (ρ n))) =
        Sequences.rename ρ fun t => (S t).map (insertBeside (sideOf l) p n) := by
    intro l p n
    have hside : sideOf (l.rename ρ) = sideOf l := by cases l <;> rfl
    rw [hside]
    exact hmap _ _ insertBeside_map
  cases c with
  | treeInit t | move dst src => simp [Call.rename, Call.after, rename_update]
  | nodeInit n => rfl
  | add t p l n =>
    cases p with
    | none => simp [Call.rename, Call.after, rename_update]
    | some p => exact hinsert l p n
  | link p l n => exact hinsert l p n
  | unlink n | unlinkStale n => exact hmap _ _ fun l => (List.map_erase ρ.injective l).symm

/-- A legal call stays legal on memories that correspond. -/
theorem Call.Legal.rename {h h' : Heap w} (hc : c.Legal S h.load)
    (hj : (Matching.sharing ρ S [] []).Joins [] [] h h') :
    (c.rename ρ).Legal (S.rename ρ) h'.load := by
  have hroot : ∀ t, S t ≠ none → h.load (.root t) = none → h'.load (.root (ρ t)) = none := by
    exact fun t ht => (hj.tree t (.inl ht) (by simp)).eq_none
  have hslot : ∀ {p : Address w} {l : Slot w}, Linked S p → l = .left p ∨ l = .right p →
      h.load l = none →
      (l.rename ρ = .left (ρ p) ∨ l.rename ρ = .right (ρ p)) ∧ h'.load (l.rename ρ) = none := by
    rintro p l hp hl hnone
    have hf := hj.node p (.inl hp) (by simp)
    rcases hl with rfl | rfl
    · exact ⟨.inl rfl, hf.left.eq_none hnone⟩
    · exact ⟨.inr rfl, hf.right.eq_none hnone⟩
  have hset : ∀ {t}, S t ≠ none → S.rename ρ (ρ t) ≠ none := by simp
  have hnew : ∀ {n}, ¬Linked S n → ¬Linked (S.rename ρ) (ρ n) := mt linked_rename.mp
  cases c with
  | treeInit t =>
    intro l hl
    obtain ⟨k, hk, rfl⟩ := Option.map_eq_some_iff.mp (Sequences.rename_apply t ▸ hl)
    simp [hc k hk]
  | nodeInit n => exact hnew hc
  | add t p l n =>
    cases p with
    | none =>
      obtain ⟨ht, rfl, hnone, hn⟩ := hc
      exact ⟨hset ht, rfl, hroot t ht hnone, hnew hn⟩
    | some p =>
      obtain ⟨hp, hl, hnone, hn⟩ := hc
      obtain ⟨hl', hnone'⟩ := hslot hp hl hnone
      exact ⟨linked_rename.mpr hp, hl', hnone', hnew hn⟩
  | link p l n =>
    obtain ⟨hp, hl, hnone, hn⟩ := hc
    obtain ⟨hl', hnone'⟩ := hslot hp hl hnone
    exact ⟨linked_rename.mpr hp, hl', hnone', hnew hn⟩
  | unlink n | unlinkStale n => exact linked_rename.mpr hc
  | move dst src => exact ⟨hset hc.1, hroot dst hc.1 hc.2.1, hset hc.2.2⟩

/-- What a legal call is about is shared, or set by it. -/
theorem Call.Legal.shares {g : Slot w → Pointer w} (hc : c.Legal S g) :
    (Matching.sharing ρ S c.setsNode c.setsTree).Shares c := by
  have hslot : ∀ {p : Address w} {l : Slot w}, Linked S p → l = .left p ∨ l = .right p →
      l.object ∈ (Matching.sharing ρ S c.setsNode c.setsTree).objects := by
    rintro p l hp (rfl | rfl) <;> exact .inl (.inl hp)
  cases c with
  | treeInit t | nodeInit n => exact .inr (List.mem_singleton_self _)
  | add t p l n =>
    have hn : n ∈ (Call.add t p l n).setsNode := List.mem_singleton_self n
    cases p with
    | none =>
      obtain ⟨ht, rfl, -⟩ := hc
      exact ⟨fun _ => .inl ht, nofun, .inr (.inl ht), .inr hn⟩
    | some p =>
      obtain ⟨hp, hl, -⟩ := hc
      exact ⟨nofun, by simpa using .inl hp, hslot hp hl, .inr hn⟩
  | link p l n =>
    obtain ⟨hp, hl, -⟩ := hc
    exact ⟨.inl hp, hslot hp hl, .inr (List.mem_singleton_self n)⟩
  | unlink n | unlinkStale n => exact .inl hc
  | move dst src => exact ⟨.inl hc.1, .inl hc.2.2⟩

end Sequences

section Runs

variable {ρ : Equiv.Perm (Address w)} {h₀ h g₀ : Heap w} {cs : List (Call w)}
  {tr : List (Command w)} {S : Sequences w}

theorem forall₂_pair {M : Matching w} {tr tr' : List (Command w)}
    (h : List.Forall₂ M.Pair tr tr') :
    tr' = tr.map (Command.rename M.rename) ∧ ∀ c ∈ tr, c.Within M.objects := by
  induction h with
  | nil => exact ⟨rfl, nofun⟩
  | cons hp _ ih =>
    obtain ⟨rfl, hw⟩ := hp
    exact ⟨by rw [List.map_cons, ih.1], by simpa using ⟨hw, ih.2⟩⟩

/-- One legal call, on memories that correspond. -/
theorem Run.exists_renamed {g h' : Heap w} {c : Call w} {tr' : List (Command w)}
    (hr : Run packed h₀ cs tr h S) (hc : c.Legal S h.load)
    (hj : (Matching.sharing ρ S [] []).Joins [] [] h g)
    (hrun : run (machine packed) c.code h = .ok ((), h', tr')) :
    ∃ g', run (machine packed) (c.rename ρ).code g = .ok ((), g', tr'.map (Command.rename ρ)) ∧
      (Matching.sharing ρ (c.after S) [] []).Joins [] [] h' g' ∧
      ∀ d ∈ tr', d.Within (Matching.sharing ρ S c.setsNode c.setsTree).objects := by
  have hw := hr.wellFormed
  have hw' := Run.wellFormed (.call hr hc hrun)
  have hj₁ : (Matching.sharing ρ S c.setsNode c.setsTree).Joins c.setsNode c.setsTree h g :=
    hj.change rfl (fun a ha hl => ⟨.inl (ha.resolve_right hl), by simp⟩)
      (fun t ht hl => ⟨.inl (ht.resolve_right hl), by simp⟩) (Matching.closed_sharing hw)
  obtain ⟨⟨⟩, g', tr'', hrun', -, hj₂, hpair⟩ :=
    (Matching.lockstep_call hc.shares hj₁).run_ok hrun
  obtain ⟨rfl, hwithin⟩ := forall₂_pair hpair
  exact ⟨g', hrun', hj₂.change rfl
    (fun a ha _ => ⟨linked_of_after (ha.resolve_right (by simp)), by simp⟩)
    (fun t ht _ => ⟨ne_none_of_after hc (ht.resolve_right (by simp)), by simp⟩)
    (Matching.closed_sharing hw'), hwithin⟩

theorem Run.relocate (g₀ : Heap w) (hr : Run packed h₀ cs tr h S) :
    ∃ g, Run packed g₀ (cs.map (Call.rename ρ)) (tr.map (Command.rename ρ)) g (S.rename ρ) ∧
      (Matching.sharing ρ S [] []).Joins [] [] h g := by
  induction hr with
  | start =>
    refine ⟨g₀, .start, fun a ha => ?_, fun t ht => ?_⟩
    · rcases ha with ⟨t, l, hl, -⟩ | ha
      · cases hl
      · cases ha
    · rcases ht with ht | ht
      · exact absurd rfl ht
      · cases ht
  | @call cs tr tr' h h' S c hr hc hrun ih =>
    obtain ⟨g, hg, hj⟩ := ih
    obtain ⟨g', hrun', hj', -⟩ := hr.exists_renamed hc hj hrun
    refine ⟨g', ?_, hj'⟩
    rw [List.map_append, List.map_append, List.map_singleton, ← after_rename]
    exact .call hg (hc.rename hj) hrun'

/-- A memory corresponds to itself. -/
theorem Matching.joins_refl {ns ts : List (Address w)}
    (hc : (Matching.sharing (Equiv.refl _) S ns ts).Closed ns ts h) :
    (Matching.sharing (Equiv.refl _) S ns ts).Joins ns ts h h := by
  have hsame : ∀ p : Pointer w, p = p.map (Equiv.refl (Address w)) := fun p => by simp
  refine ⟨fun a ha hl => ⟨⟨hsame _, hc.child a ha hl .left⟩, ⟨hsame _, hc.child a ha hl .right⟩,
    rfl, ⟨hsame _, hc.raw a ha hl⟩, ⟨hsame _, hc.parent a ha hl⟩⟩, fun t ht hl => ?_⟩
  exact ⟨hsame _, hc.root t ht hl⟩

/-- A legal call names its own objects, and those of the lists. -/
theorem Run.within {h' : Heap w} {c : Call w} {tr' : List (Command w)}
    (hr : Run packed h₀ cs tr h S) (hc : c.Legal S h.load)
    (hrun : run (machine packed) c.code h = .ok ((), h', tr')) :
    ∀ d ∈ tr', d.Within (Matching.sharing (Equiv.refl _) S c.setsNode c.setsTree).objects := by
  have hj : (Matching.sharing (Equiv.refl _) S [] []).Joins [] [] h h :=
    Matching.joins_refl (Matching.closed_sharing hr.wellFormed)
  obtain ⟨-, -, -, hwithin⟩ := hr.exists_renamed hc hj hrun
  exact hwithin

/-- The same calls for other addresses, from any other memory, issue the same commands for
those addresses, and leave the same trees there. -/
theorem run_relocated (ρ : Equiv.Perm (Address w)) (g₀ : Heap w) (hr : Run packed h₀ cs tr h S) :
    ∃ g, Run packed g₀ (cs.map (Call.rename ρ)) (tr.map (Command.rename ρ)) g (S.rename ρ) ∧
      ∀ t l, S t = some l → g.load (.root (ρ t)) = (h.load (.root t)).map ρ ∧
        ∀ a ∈ l, g.load (.left (ρ a)) = (h.load (.left a)).map ρ ∧
          g.load (.right (ρ a)) = (h.load (.right a)).map ρ ∧
          rawOf (g.link (ρ a)) = (rawOf (h.link a)).map ρ ∧
          parentOf (g.link (ρ a)) = (parentOf (h.link a)).map ρ ∧
          flagsOf (g.link (ρ a)) = flagsOf (h.link a) := by
  obtain ⟨g, hg, hj⟩ := hr.relocate (ρ := ρ) g₀
  refine ⟨g, hg, fun t l hl => ⟨(hj.tree t (.inl (by simp [hl])) (by simp)).1, fun a ha => ?_⟩⟩
  obtain ⟨hleft, hright, hflags, hraw, hparent⟩ := hj.node a (.inl ⟨t, l, hl, ha⟩) (by simp)
  exact ⟨hleft.1, hright.1, hraw.1, hparent.1, hflags⟩

/-- The second tree and its root in each other's places, and a node where nothing was. -/
def shuffled : Equiv.Perm (Address 6) :=
  (Equiv.swap (cell 1) (cell 6)).trans (Equiv.swap (cell 7) (cell 15))

def ones : Heap 6 := ⟨fun _ => ⟨1#8, some (cell 16), none⟩, fun _ => ⟨some (cell 2)⟩⟩

/-- The sample run in a memory of ones. -/
theorem run_relocated_sample : ∃ g,
    Run packed ones (sampleCalls.map (Call.rename shuffled))
      (sampleTrace.map (Command.rename shuffled)) g (sampleLists.rename shuffled) ∧
      g.load (.root (cell 6)) = some (cell 1) ∧ rawOf (g.link (cell 1)) = some (cell 6) ∧
      g.load (.right (cell 1)) = some (cell 10) ∧ parentOf (g.link (cell 10)) = some (cell 1) ∧
      g.load (.left (cell 10)) = some (cell 15) ∧ g.load (.right (cell 15)) = some (cell 8) := by
  obtain ⟨g, hg, hsame⟩ := run_relocated shuffled ones run_sample
  obtain ⟨hroot, hnodes⟩ := hsame (cell 1) _ sampleLists_second
  obtain ⟨-, hright, hraw, -, -⟩ := hnodes (cell 6) (by simp)
  obtain ⟨hleft, -, -, hparent, -⟩ := hnodes (cell 10) (by simp)
  obtain ⟨-, hright', -, -, -⟩ := hnodes (cell 7) (by simp)
  exact ⟨g, hg, hroot.trans (by decide +kernel), hraw.trans (by decide +kernel),
    hright.trans (by decide +kernel), hparent.trans (by decide +kernel),
    hleft.trans (by decide +kernel), hright'.trans (by decide +kernel)⟩

end Runs

/-- The compare function that sees each object where it was before. -/
def relocated {κ : Type} (ρ : Equiv.Perm (Address w)) (f : CRBCompareFunc κ w) :
    CRBCompareFunc κ w :=
  fun t k n => f (t.map ρ.symm) k (n.map ρ.symm)

theorem relocated_map {κ : Type} {ρ : Equiv.Perm (Address w)} (f : CRBCompareFunc κ w)
    (t : Address w) (k : κ) (p : Pointer w) :
    relocated ρ f (some (ρ t)) k (p.map ρ) = f (some t) k p := by
  simp [relocated]

/-- The functions of the library that ask for a node. -/
inductive Question (w : ℕ) where
  | first (t : Address w)
  | last (t : Address w)
  | firstPostorder (t : Address w)
  | lastPostorder (t : Address w)
  | next (n : Address w)
  | prev (n : Address w)
  | nextPostorder (n : Address w)
  | prevPostorder (n : Address w)
  | findNode {κ : Type} (turns : ℕ) (f : CRBCompareFunc κ w) (t : Address w) (k : κ)

namespace Question

def code : Question w → Prog w (Pointer w)
  | first t => rbtreeFirst (some t)
  | last t => rbtreeLast (some t)
  | firstPostorder t => rbtreeFirstPostorder (some t)
  | lastPostorder t => rbtreeLastPostorder (some t)
  | next n => rbnodeNext (some n)
  | prev n => rbnodePrev (some n)
  | nextPostorder n => rbnodeNextPostorder (some n)
  | prevPostorder n => rbnodePrevPostorder (some n)
  | findNode turns f t k => rbtreeFindNode turns f (some t) k

/-- The same question for other addresses. -/
def rename (ρ : Equiv.Perm (Address w)) : Question w → Question w
  | first t => first (ρ t)
  | last t => last (ρ t)
  | firstPostorder t => firstPostorder (ρ t)
  | lastPostorder t => lastPostorder (ρ t)
  | next n => next (ρ n)
  | prev n => prev (ρ n)
  | nextPostorder n => nextPostorder (ρ n)
  | prevPostorder n => prevPostorder (ρ n)
  | findNode turns f t k => findNode turns (relocated ρ f) (ρ t) k

/-- The question is about an initialised tree, or a node in one. -/
def About (S : Sequences w) : Question w → Prop
  | first t | last t | firstPostorder t | lastPostorder t | findNode _ _ t _ => S t ≠ none
  | next n | prev n | nextPostorder n | prevPostorder n => Linked S n

variable {ρ : Equiv.Perm (Address w)} {S : Sequences w} {q : Question w}

theorem tie (hq : q.About S) : (Matching.sharing ρ S [] []).Tie (Matching.sharing ρ S [] []).Same
    q.code (q.rename ρ).code := by
  have hnode : ∀ {n}, Linked S n → (Matching.sharing ρ S [] []).Same (some n) (some (ρ n)) :=
    fun hn => Matching.same_some (.inl hn)
  cases q with
  | first t => exact Matching.tie_rbtreeFirst (.inl hq)
  | last t => exact Matching.tie_rbtreeLast (.inl hq)
  | firstPostorder t => exact Matching.tie_rbtreeFirstPostorder (.inl hq)
  | lastPostorder t => exact Matching.tie_rbtreeLastPostorder (.inl hq)
  | next n => exact Matching.tie_rbnodeNext (hnode hq)
  | prev n => exact Matching.tie_rbnodePrev (hnode hq)
  | nextPostorder n => exact Matching.tie_rbnodeNextPostorder (hnode hq)
  | prevPostorder n => exact Matching.tie_rbnodePrevPostorder (hnode hq)
  | findNode turns f t k =>
    exact Matching.tie_rbtreeFindNode turns (.inl hq) fun p p' hp =>
      hp.1 ▸ relocated_map f t k p

end Question

/-- In lockstep two programs return what corresponds, or fail in the same way. -/
theorem Matching.Tie.run_eq {M : Matching w} {α β : Type} {Q : α → β → Prop} {view : α → β}
    {p : Prog w α} {p' : Prog w β} {h g : Heap w} (hp : M.Tie Q p p')
    (hQ : ∀ a b, Q a b → b = view a) (hj : M.Joins [] [] h g) :
    (run (machine packed) p' g).map (fun x => (x.1, x.2.2)) =
      (run (machine packed) p h).map fun x => (view x.1, x.2.2.map (Command.rename M.rename)) := by
  cases hrun : run (machine packed) p h with
  | error e => rw [(hp h g hj).run_error hrun]; rfl
  | ok x =>
    obtain ⟨a, h', tr⟩ := x
    obtain ⟨b, g', tr', hrun', hab, -, hpair⟩ := (hp h g hj).run_ok hrun
    obtain ⟨rfl, -⟩ := forall₂_pair hpair
    rw [hrun', hQ a b hab]
    rfl

/-- After the same calls for other addresses, from any other memory, each question has the same
answer, at the other address, and reads the same fields. So has the search for a slot. -/
theorem answers_relocated {h₀ h : Heap w} {cs : List (Call w)} {tr : List (Command w)}
    {S : Sequences w} (ρ : Equiv.Perm (Address w)) (g₀ : Heap w) (hr : Run packed h₀ cs tr h S) :
    ∃ g tr', Run packed g₀ (cs.map (Call.rename ρ)) tr' g (S.rename ρ) ∧
      (∀ q : Question w, q.About S →
        (run (machine packed) (q.rename ρ).code g).map (fun x => (x.1, x.2.2)) =
          (run (machine packed) q.code h).map fun x =>
            (x.1.map ρ, x.2.2.map (Command.rename ρ))) ∧
      ∀ {κ : Type} (turns : ℕ) (f : CRBCompareFunc κ w) (t : Address w) (k : κ), S t ≠ none →
        (run (machine packed) (rbtreeFindSlot turns (relocated ρ f) (some (ρ t)) k) g).map
            (fun x => (x.1, x.2.2)) =
          (run (machine packed) (rbtreeFindSlot turns f (some t) k) h).map fun x =>
            ((x.1.1.map (Slot.rename ρ), x.1.2.map ρ), x.2.2.map (Command.rename ρ)) := by
  obtain ⟨g, hg, hj⟩ := hr.relocate (ρ := ρ) g₀
  refine ⟨g, _, hg, fun q hq => (q.tie hq).run_eq (fun a b hab => hab.1) hj,
    fun turns f t k ht => ?_⟩
  have htie := Matching.tie_rbtreeFindSlot (M := Matching.sharing ρ S [] []) turns (.inl ht)
    fun p p' hp => hp.1 ▸ relocated_map f t k p
  have hview : ∀ a b, (Matching.sharing ρ S [] []).SameSlot a b →
      b = (a.1.map (Slot.rename ρ), a.2.map ρ) := fun a b hab => Prod.ext hab.1.1 hab.2.1
  exact htie.run_eq hview hj

/-- A successor further up, and both searches. -/
theorem answers_relocated_sample : ∃ g,
    (run (machine packed) (rbnodeNext (some (cell 8))) g).map (fun x => (x.1, x.2.2)) =
      .ok (some (cell 10), [.parent (cell 8), .load (.right (cell 8)), .parent (cell 8),
        .load (.right (cell 15)), .parent (cell 15), .load (.right (cell 10))]) ∧
    (run (machine packed) (rbtreeFindNode 4 (relocated shuffled (compareBy addressOf))
        (some (cell 6)) 96) g).map (fun x => (x.1, x.2.2)) =
      .ok (some (cell 15),
        [.load (.root (cell 6)), .load (.right (cell 1)), .load (.left (cell 10))]) ∧
    (run (machine packed) (rbtreeFindSlot 4 (relocated shuffled (compareBy addressOf))
        (some (cell 6)) 40) g).map (fun x => (x.1, x.2.2)) =
      .ok ((some (.left (cell 3)), some (cell 3)), List.replicate 4 (.load (.root (cell 6))) ++
        List.replicate 4 (.load (.left (cell 1))) ++ [.load (.left (cell 3))]) := by
  obtain ⟨g, -, -, hask, hslot⟩ := answers_relocated shuffled ones run_sample
  have htree : sampleLists (cell 1) ≠ none := by simp [sampleLists_second]
  have hnext := hask (.next (cell 8)) ⟨_, _, sampleLists_second, by simp⟩
  have hfind := hask (.findNode 4 (compareBy addressOf) (cell 1) 96) htree
  have hfree := hslot 4 (compareBy addressOf) (cell 1) 40 htree
  exact ⟨g, hnext.trans (by decide +kernel), hfind.trans (by decide +kernel),
    hfree.trans (by decide +kernel)⟩

end CRbtree
