import CRbtree.Maps
import CRbtree.Stores

set_option autoImplicit false

/-!
One lookup without a lock beside a writer, whose commands are interleaved with its loads.
-/

namespace CRbtree
open RedBlack TaggedPointers PointerGraphs Programs

variable {κ : Type} {w : ℕ}

/-- The memory, the lists once the writer's call has ended, and what is left of the
writer's call and of the lookup. -/
structure System (w : ℕ) where
  heap : Heap w
  lists : Sequences w
  writer : Prog w Unit
  reader : Prog w (Pointer w)

inductive Event (w : ℕ) where
  | call (c : Call w)
  | write (c : Command w)
  /-- The lookup reads the slot, and what it holds. -/
  | read (s : Slot w) (v : Pointer w)

/-- One step of either party. A writer that is idle calls on the tree at `t`. -/
inductive Step (t : Address w) : System w → Event w → System w → Prop
  | call {h : Heap w} {S : Sequences w} {r : Prog w (Pointer w)} {c : Call w}
      (hc : c.Legal S h.load) (hon : c.On S t) :
      Step t ⟨h, S, .done (), r⟩ (.call c) ⟨h, c.after S, c.code, r⟩
  | write {h h' : Heap w} {S : Sequences w} {r : Prog w (Pointer w)} {c : Command w}
      {q : Answer c → Prog w Unit} {a : Answer c} (hc : machine packed c h = .ok (a, h')) :
      Step t ⟨h, S, .step c q, r⟩ (.write c) ⟨h', S, q a, r⟩
  | read {h : Heap w} {S : Sequences w} {p : Prog w Unit} {s : Slot w}
      {q : Pointer w → Prog w (Pointer w)} :
      Step t ⟨h, S, p, .step (.load s) q⟩ (.read s (h.load s)) ⟨h, S, p, q (h.load s)⟩

inductive Interleaving (t : Address w) (s₀ : System w) : List (Event w) → System w → Prop
  | start : Interleaving t s₀ [] s₀
  | step {es : List (Event w)} {e : Event w} {s s' : System w} (h : Interleaving t s₀ es s)
      (hs : Step t s e s') : Interleaving t s₀ (es ++ [e]) s'

section Moves

/-- Who goes next: a call begins, or the writer or the lookup goes on. -/
inductive Move (w : ℕ) where
  | call (c : Call w)
  | write
  | read

instance (S : Sequences w) (t : Address w) (c : Call w) : Decidable (c.On S t) :=
  have (p : Address w) : Decidable (∃ l, S t = some l ∧ p ∈ l) :=
    decidable_of_iff (((S t).getD []).contains p = true) (by cases S t <;> simp)
  match c with
  | .add _ none _ _ => inferInstanceAs (Decidable (_ = _))
  | .add _ (some p) _ _ | .link p _ _ | .unlink p | .unlinkStale p => this p
  | .treeInit _ | .nodeInit _ | .move _ _ => .isFalse id

/-- Takes a step on the tree at `t`, if it can be taken. All trees are among those of `ts`. -/
def System.move (ts : List (Address w)) (t : Address w) (s : System w) :
    Move w → Option (Event w × System w)
  | .call c =>
    match s.writer with
    | .done _ =>
      if c.isLegal ts s.lists s.heap.load && decide (c.On s.lists t) then
        some (.call c, { s with lists := c.after s.lists, writer := c.code })
      else none
    | .step _ _ => none
  | .write =>
    match s.writer with
    | .done _ => none
    | .step c q =>
      match machine packed c s.heap with
      | .ok (a, h') => some (.write c, { s with heap := h', writer := q a })
      | .error _ => none
  | .read =>
    match s.reader with
    | .step (.load sl) q =>
      some (.read sl (s.heap.load sl), { s with reader := q (s.heap.load sl) })
    | _ => none

def System.moves (ts : List (Address w)) (t : Address w) :
    List (Move w) → System w → Option (List (Event w) × System w)
  | [], s => some ([], s)
  | m :: ms, s =>
    (s.move ts t m).bind fun x => (x.2.moves ts t ms).map fun y => (x.1 :: y.1, y.2)

variable {ts : List (Address w)} {t : Address w} {s₀ s s' : System w} {es es' : List (Event w)}

theorem step_of_move {m : Move w} {e : Event w} (hts : ∀ t, s.lists t ≠ none → t ∈ ts)
    (h : s.move ts t m = some (e, s')) :
    Step t s e s' ∧ ∀ t, s'.lists t ≠ none → t ∈ ts := by
  obtain ⟨hp, S, p, r⟩ := s
  cases m with
  | call c =>
    cases p with
    | step c' q => cases h
    | done a =>
      simp only [System.move] at h
      split at h
      · rename_i hc
        rw [Bool.and_eq_true, Call.isLegal_iff hts, decide_eq_true_eq] at hc
        cases h
        refine ⟨.call hc.1 hc.2, fun t' ht' => ?_⟩
        rcases ne_none_of_after hc.1 ht' with ht' | ht'
        · exact hts t' ht'
        · cases c with
          | treeInit t | nodeInit n | move dst src => exact hc.2.elim
          | add t p l n | link p l n | unlink n | unlinkStale n => cases ht'
      · cases h
  | write =>
    cases p with
    | done a => cases h
    | step c q =>
      simp only [System.move] at h
      cases hc : machine packed c hp with
      | error e => simp [hc] at h
      | ok x =>
        rw [hc] at h
        cases h
        exact ⟨.write hc, hts⟩
  | read =>
    cases r with
    | done a => cases h
    | step c q =>
      cases c <;> cases h
      exact ⟨.read, hts⟩

theorem Interleaving.moves {ms : List (Move w)} (hi : Interleaving t s₀ es s)
    (hts : ∀ t, s.lists t ≠ none → t ∈ ts) (h : s.moves ts t ms = some (es', s')) :
    Interleaving t s₀ (es ++ es') s' := by
  induction ms generalizing s es es' with
  | nil =>
    cases h
    rwa [List.append_nil]
  | cons m ms ih =>
    simp only [System.moves, Option.bind_eq_some_iff, Option.map_eq_some_iff] at h
    obtain ⟨⟨e, s₁⟩, hm, ⟨es₁, s₂⟩, hms, heq⟩ := h
    cases heq
    obtain ⟨hstep, hts'⟩ := step_of_move hts hm
    have hrest := ih (hi.step hstep) hts' hms
    rwa [List.append_assoc] at hrest

end Moves

/-- A writer that is idle, or has issued some commands of a call on the tree at `t`. -/
inductive Writing (t : Address w) (h : Heap w) (S : Sequences w) :
    List (Call w) → Heap w → Sequences w → Prog w Unit → Prop
  | idle : Writing t h S [] h S (.done ())
  | busy {c : Call w} {tr : List (Command w)} {p : Prog w Unit} {h' : Heap w}
      (hc : c.Legal S h.load) (hon : c.On S t) (hs : Steps (machine packed) c.code h tr p h') :
      Writing t h S [c] h' (c.after S) p

namespace Event

def call? : Event w → Option (Call w)
  | call c => some c
  | write _ | read _ _ => none

/-- The lookup comes to a node. -/
def isVisit : Event w → Bool
  | read _ (some _) => true
  | read _ none | call _ | write _ => false

/-- A store to a left, right or root slot. -/
def isStore : Event w → Bool
  | write (.store _ _) => true
  | _ => false

end Event

/-- The lists before and after each of the calls. -/
def boundaries (S : Sequences w) : List (Call w) → List (Sequences w)
  | [] => [S]
  | c :: cs => S :: boundaries (c.after S) cs

/-- The nodes that are members of the tree at `t` before or after one of the calls. -/
def everIn (t : Address w) (S : Sequences w) (cs : List (Call w)) : Finset (Address w) :=
  ((boundaries S cs).flatMap fun S => (S t).getD []).toFinset

section Boundaries

variable {t : Address w} {S : Sequences w} {cs : List (Call w)} {c : Call w} {l : List (Address w)}

/-- The lists after all of the calls. -/
def afterAll (S : Sequences w) (cs : List (Call w)) : Sequences w :=
  cs.foldl (fun S c => c.after S) S

theorem boundaries_concat :
    boundaries S (cs ++ [c]) = boundaries S cs ++ [c.after (afterAll S cs)] := by
  induction cs generalizing S with
  | nil => rfl
  | cons c' cs ih =>
    rw [List.cons_append, boundaries, ih, boundaries, List.cons_append]
    rfl

theorem afterAll_mem : afterAll S cs ∈ boundaries S cs := by
  induction cs generalizing S with
  | nil => simp [afterAll, boundaries]
  | cons c cs ih => exact List.mem_cons_of_mem _ ih

theorem mem_everIn {a : Address w} (hl : afterAll S cs t = some l) (ha : a ∈ l) :
    a ∈ everIn t S cs := by
  simp only [everIn, List.mem_toFinset, List.mem_flatMap]
  exact ⟨_, afterAll_mem, by simpa [hl] using ha⟩

theorem everIn_subset_concat : everIn t S cs ⊆ everIn t S (cs ++ [c]) := by
  intro a ha
  simp only [everIn, List.mem_toFinset, List.mem_flatMap, boundaries_concat,
    List.mem_append] at ha ⊢
  obtain ⟨S', hS', ha⟩ := ha
  exact ⟨S', .inl hS', ha⟩

theorem afterAll_concat : afterAll S (cs ++ [c]) = c.after (afterAll S cs) := by
  simp [afterAll]

end Boundaries

/-- The writer keeps its promise, and the tree at `t` is finite and in `A`. -/
structure Sound (t : Address w) (A : Finset (Address w)) (s : System w) : Prop where
  writer : ∃ M : Region w, M.members ⊆ A ∧
    Underway M (fun m => ∃ F K, F.sequences = s.lists ∧ Holds m F K) s.writer s.heap
  lists : ∀ l, s.lists t = some l → ∀ a ∈ l, a ∈ A
  root : EndsIn s.heap.load A (s.heap.load (.root t))

/-- Where the lookup is, after so many stores and visits. -/
inductive Standing (f : CRBCompareFunc κ w) (t : Address w) (k : κ) (turns : ℕ)
    (A : Finset (Address w)) (h : Heap w) (r : Prog w (Pointer w)) (stores visits : ℕ) : Prop
  | before (hr : r = rbtreeFindNode turns f (some t) k) (hv : visits = 0)
  | within {left : ℕ} {i : Pointer w} {T : ColorTree (Address w)}
      (hr : r = findNodeLoop f (some t) k left i) (hT : Unfolds h.load i T)
      (hA : ∀ a ∈ T.inorder, a ∈ A) (hv : visits + (T.height - 1) ≤ (stores + 1) * A.card)
      (hleft : left + visits = turns + if i.isSome then 1 else 0)

section Steps

variable {t : Address w} {A B : Finset (Address w)} {h h' : Heap w} {S : Sequences w}
  {p : Prog w Unit} {r : Prog w (Pointer w)} {f : CRBCompareFunc κ w} {k : κ}
  {turns stores visits : ℕ}

theorem Sound.call {c : Call w} (hs : Sound t A ⟨h, S, .done (), r⟩) (hc : c.Legal S h.load)
    (hon : c.On S t) (hAB : A ⊆ B) (hB : ∀ l, c.after S t = some l → ∀ a ∈ l, a ∈ B) :
    Sound t B ⟨h, c.after S, c.code, r⟩ := by
  obtain ⟨⟨M, -, hp⟩, hlists, hroot⟩ := hs
  obtain ⟨m, hm, F, K, rfl, hh⟩ := hp.done
  obtain ⟨T, l, hT, hadded, hl, hcode⟩ := hh.underway hm hc hon
  refine ⟨⟨_, ?_, hcode⟩, hB, hroot.mono (by simpa using hAB)⟩
  intro a ha
  rcases List.mem_append.mp ha with ha | ha
  · exact hAB (hlists T.inorder (by simp [Forest.sequences, hT]) a ha)
  · exact hB l hl a (hadded a ha).2

theorem Sound.write {c : Command w} {q : Answer c → Prog w Unit} {a : Answer c}
    (hs : Sound t A ⟨h, S, .step c q, r⟩) (hc : machine packed c h = .ok (a, h')) :
    Sound t A ⟨h', S, q a, r⟩ := by
  obtain ⟨⟨M, hM, hp⟩, hlists, hroot⟩ := hs
  obtain ⟨hg, hp'⟩ := hp.command hc
  exact ⟨⟨M, hM, hp'⟩, hlists, endsIn_slot hM hg hc hroot⟩

theorem Standing.mono (hs : Standing f t k turns A h r stores visits) (hAB : A ⊆ B) :
    Standing f t k turns B h r stores visits := by
  cases hs with
  | before hr hv => exact .before hr hv
  | within hr hT hA hv hleft =>
    refine .within hr hT (fun a ha => hAB (hA a ha)) (hv.trans ?_) hleft
    exact Nat.mul_le_mul_left _ (Finset.card_le_card hAB)

/-- After a store the way down may be longer, but no longer than there are nodes. -/
theorem Standing.write {c : Command w} {q : Answer c → Prog w Unit} {a : Answer c}
    (hs : Sound t A ⟨h, S, .step c q, r⟩) (hst : Standing f t k turns A h r stores visits)
    (hc : machine packed c h = .ok (a, h')) :
    Standing f t k turns A h' r (stores + if (Event.write c).isStore then 1 else 0) visits := by
  cases hst with
  | before hr hv => exact .before hr hv
  | @within left i T hr hT hA hv hleft =>
    obtain ⟨⟨M, hM, hp⟩, -, -⟩ := hs
    obtain ⟨T', hT', hA'⟩ := endsIn_command hM (hp.command hc).1 hc ⟨T, hT, hA⟩
    by_cases hstore : (Event.write c).isStore = true
    · have hheight := hT'.height_le hA'
      refine .within hr hT' hA' ?_ hleft
      rw [if_pos hstore, Nat.add_mul (stores + 1) 1]
      omega
    · have hload : h'.load = h.load := by
        rcases machine_cases hc with ⟨s, v, rfl, -⟩ | ⟨n, x, y, l, rfl, -, rfl⟩ | ⟨-, rfl⟩
        · exact absurd rfl hstore
        · exact Memory.load_setLink _ _ _
        · rfl
      refine .within hr (hload ▸ hT) hA ?_ hleft
      rwa [if_neg hstore]

/-- The loop of a lookup at a node. -/
theorem findNodeLoop_some (f : CRBCompareFunc κ w) (t : Pointer w) (k : κ) (turns : ℕ)
    (a : Address w) :
    findNodeLoop f t k (turns + 1) (some a) =
      if f t k (some a) < 0 then .step (.load (.left a)) (findNodeLoop f t k turns)
      else if f t k (some a) > 0 then .step (.load (.right a)) (findNodeLoop f t k turns)
      else .done (some a) := rfl

/-- A load takes the lookup one node down, or to an end. -/
theorem Standing.read {s : Slot w} {q : Pointer w → Prog w (Pointer w)}
    (hroot : EndsIn h.load A (h.load (.root t)))
    (hst : Standing f t k turns A h (.step (.load s) q) stores visits) :
    Standing f t k turns A h (q (h.load s)) stores
        (visits + if (Event.read s (h.load s)).isVisit then 1 else 0) ∧
      ∀ a, h.load s = some a → a ∈ A := by
  have hdown : ∀ (left : ℕ) (s : Slot w) (T : ColorTree (Address w)), Unfolds h.load (h.load s) T →
      (∀ a ∈ T.inorder, a ∈ A) → visits + T.height ≤ (stores + 1) * A.card →
      left + visits = turns →
      Standing f t k turns A h (findNodeLoop f (some t) k left (h.load s)) stores
        (visits + if (Event.read s (h.load s)).isVisit then 1 else 0) ∧
        ∀ a, h.load s = some a → a ∈ A := by
    intro left s T hT hA hv hleft
    refine ⟨.within rfl hT hA ?_ ?_,
      fun a ha => hA a (ColorTree.mem_of_root? (hT.root?.symm.trans ha))⟩
    · cases T with
      | nil =>
        rw [show h.load s = none from hT]
        simpa [Event.isVisit, ColorTree.height] using hv
      | node c l a u =>
        rw [hT.1]
        simp only [Event.isVisit, if_true, ColorTree.height] at hv ⊢
        omega
    · cases h.load s <;> simp [Event.isVisit] <;> omega
  cases hst with
  | before hr hv =>
    cases hr
    obtain ⟨T, hT, hA⟩ := hroot
    refine hdown turns (.root t) T hT hA ?_ (by omega)
    have hheight := hT.height_le hA
    have hmul := Nat.le_mul_of_pos_left A.card (Nat.succ_pos stores)
    simp only [Nat.succ_eq_add_one] at hmul
    omega
  | @within left i T hr hT hA hv hleft =>
    cases i with
    | none => cases left <;> cases hr
    | some a =>
      cases left with
      | zero => cases hr
      | succ left =>
        rw [findNodeLoop_some] at hr
        cases T with
        | nil => cases hT
        | node c l b u =>
          obtain ⟨hab, hl, hu⟩ := hT
          cases hab
          simp only [ColorTree.inorder, List.mem_append, List.mem_cons] at hA
          simp only [ColorTree.height, Nat.add_sub_cancel] at hv
          simp only [Option.isSome_some, if_true] at hleft
          split at hr
          · cases hr
            exact hdown left (.left a) l hl (fun b hb => hA b (.inl hb)) (by omega) (by omega)
          · split at hr
            · cases hr
              exact hdown left (.right a) u hu (fun b hb => hA b (.inr (.inr hb)))
                (by omega) (by omega)
            · cases hr

/-- What the lookup can do next, once it has started. -/
theorem Standing.next (hst : Standing f t k turns A h r stores visits)
    (hturns : (stores + 1) * A.card ≤ turns) :
    (∃ i, r = .done i) ∨ ∃ s q, r = .step (.load s) q := by
  cases hst with
  | before hr hv => exact .inr ⟨_, _, hr⟩
  | @within left i T hr hT hA hv hleft =>
    cases i with
    | none => cases left <;> exact .inl ⟨_, hr⟩
    | some a =>
      cases left with
      | zero =>
        simp only [Option.isSome_some, if_true] at hleft
        omega
      | succ left =>
        rw [findNodeLoop_some] at hr
        split at hr
        · exact .inr ⟨_, _, hr⟩
        · split at hr
          · exact .inr ⟨_, _, hr⟩
          · exact .inl ⟨_, hr⟩

theorem Standing.result {i : Pointer w} (hst : Standing f t k turns A h (.done i) stores visits) :
    i = none ∨ ∃ a, i = some a ∧ f (some t) k (some a) = 0 := by
  cases hst with
  | before hr hv => cases hr
  | @within left j T hr hT hA hv hleft =>
    cases j with
    | none => cases left <;> exact .inl (by cases hr; rfl)
    | some a =>
      cases left with
      | zero => cases hr
      | succ left =>
        rw [findNodeLoop_some] at hr
        split at hr
        · cases hr
        · split at hr
          · cases hr
          · cases hr
            exact .inr ⟨a, rfl, by omega⟩

end Steps

section Run

variable {t : Address w} {S₀ : Sequences w} {cs₀ : List (Call w)} {s₀ s : System w}
  {es : List (Event w)} {f : CRBCompareFunc κ w} {k : κ} {turns : ℕ}

/-- What holds throughout a lookup, with the nodes of the calls begun so far. -/
theorem Interleaving.sound (hi : Interleaving t s₀ es s) (hl : s₀.lists = afterAll S₀ cs₀)
    (hs : Sound t (everIn t S₀ cs₀) s₀)
    (hst : Standing f t k turns (everIn t S₀ cs₀) s₀.heap s₀.reader 0 0) :
    s.lists = afterAll S₀ (cs₀ ++ es.filterMap Event.call?) ∧
      Sound t (everIn t S₀ (cs₀ ++ es.filterMap Event.call?)) s ∧
      Standing f t k turns (everIn t S₀ (cs₀ ++ es.filterMap Event.call?)) s.heap s.reader
        (es.countP Event.isStore) (es.countP Event.isVisit) ∧
      ∀ sl a, .read sl (some a) ∈ es → a ∈ everIn t S₀ (cs₀ ++ es.filterMap Event.call?) := by
  induction hi with
  | start => simpa using ⟨hl, hs, hst⟩
  | @step es e s s' hi hstep ih =>
    obtain ⟨hlists, hs, hst, hvisit⟩ := ih
    simp only [List.filterMap_append, List.countP_append, List.countP_singleton, List.mem_append,
      List.mem_singleton]
    cases hstep with
    | @call h S r c hc hon =>
      obtain rfl : S = _ := hlists
      simp only [List.filterMap_cons, Event.call?, List.filterMap_nil, ← List.append_assoc]
      have hAB := @everIn_subset_concat w t S₀ (cs₀ ++ es.filterMap Event.call?) c
      have hst' := hst.mono hAB
      refine ⟨afterAll_concat.symm, hs.call hc hon hAB ?_, hst', ?_⟩
      · intro l hl a ha
        exact mem_everIn (by rw [afterAll_concat]; exact hl) ha
      · rintro sl a (ha | ha)
        · exact hAB (hvisit sl a ha)
        · cases ha
    | @write h h' S r c q a hc =>
      simp only [List.filterMap_cons, Event.call?, List.filterMap_nil, List.append_nil]
      refine ⟨hlists, hs.write hc, by simpa [Event.isVisit] using hst.write hs hc, ?_⟩
      rintro sl a (ha | ha)
      · exact hvisit sl a ha
      · cases ha
    | @read h S p sl q =>
      simp only [List.filterMap_cons, Event.call?, List.filterMap_nil, List.append_nil]
      obtain ⟨hst', hmem⟩ := hst.read hs.root
      refine ⟨hlists, ⟨hs.writer, hs.lists, hs.root⟩, by simpa [Event.isStore] using hst', ?_⟩
      rintro sl' a (ha | ha)
      · exact hvisit sl' a ha
      · simp only [Event.read.injEq] at ha
        exact hmem a ha.2.symm

theorem Sound.steps {A : Finset (Address w)} {h h' : Heap w} {S : Sequences w} {p p' : Prog w Unit}
    {r : Prog w (Pointer w)} {tr : List (Command w)} (hs : Sound t A ⟨h, S, p, r⟩)
    (hst : Steps (machine packed) p h tr p' h') : Sound t A ⟨h', S, p', r⟩ := by
  induction hst with
  | refl p h => exact hs
  | step hc _ ih => exact ih (hs.write hc)

theorem Writing.sound {m : FieldHeap w} {h h₁ : Heap w} {F : Forest w} {K : Address w → Bool}
    (hh : Holds m F K) (hm : Refines m h) (ht : F.sequences t ≠ none) {S₁ : Sequences w}
    {p : Prog w Unit} (hw : Writing t h F.sequences cs₀ h₁ S₁ p) (r : Prog w (Pointer w)) :
    S₁ = afterAll F.sequences cs₀ ∧ Sound t (everIn t F.sequences cs₀) ⟨h₁, S₁, p, r⟩ := by
  obtain ⟨l, hl⟩ := Option.ne_none_iff_exists'.mp ht
  obtain ⟨T, hT, rfl, hu⟩ := hh.mem_iff hl
  have hidle : Sound t (everIn t F.sequences []) ⟨h, F.sequences, .done (), r⟩ := by
    refine ⟨⟨nowhere, by simp [nowhere], m, hm, F, K, rfl, hh⟩, fun l hl a ha => ?_, T,
      hm.1 ▸ hu, ?_⟩
    · exact mem_everIn hl ha
    · exact fun a ha => mem_everIn hl ha
  cases hw with
  | idle => exact ⟨rfl, hidle⟩
  | @busy c tr p h' hc hon hs =>
    have hcall := hidle.call hc hon (everIn_subset_concat (c := c)) fun l hl a ha =>
      mem_everIn (by rw [afterAll_concat]; exact hl) ha
    exact ⟨rfl, hcall.steps hs⟩

/-- However a lookup is interleaved with a writer, it visits only nodes that were members
meanwhile, goes round as often as the stores allow, and ends with NULL or a match. -/
theorem interleaving_lookup {h₀ h h₁ : Heap w} {cs : List (Call w)} {tr : List (Command w)}
    {S S₁ : Sequences w} {p : Prog w Unit} (hr : Run packed h₀ cs tr h S) (ht : S t ≠ none)
    (hw : Writing t h S cs₀ h₁ S₁ p)
    (hi : Interleaving t ⟨h₁, S₁, p, rbtreeFindNode turns f (some t) k⟩ es s) :
    (∀ sl a, .read sl (some a) ∈ es → a ∈ everIn t S (cs₀ ++ es.filterMap Event.call?)) ∧
      es.countP Event.isVisit ≤ (es.countP Event.isStore + 1) *
        (everIn t S (cs₀ ++ es.filterMap Event.call?)).card ∧
      ((es.countP Event.isStore + 1) * (everIn t S (cs₀ ++ es.filterMap Event.call?)).card ≤ turns →
        (∃ i, s.reader = .done i) ∨ ∃ sl q, s.reader = .step (.load sl) q) ∧
      ∀ i, s.reader = .done i → i = none ∨ ∃ a, i = some a ∧ f (some t) k (some a) = 0 := by
  obtain ⟨m, F, -, hm, rfl, hh, -⟩ := hr.holds
  obtain ⟨hl, hs⟩ := hw.sound hh hm ht (rbtreeFindNode turns f (some t) k)
  obtain ⟨-, -, hst, hvisit⟩ := hi.sound hl hs (.before rfl rfl)
  refine ⟨hvisit, ?_, hst.next, fun i hr => (hr ▸ hst).result⟩
  cases hst with
  | before hr hv => simp [hv]
  | within hr hT hA hv hleft => exact (Nat.le_add_right _ _).trans hv

end Run

section Sample

/-- A lookup in the second tree of the sample run, while the writer is idle. -/
def sampleLookup : System 6 :=
  ⟨sampleHeap, sampleLists, .done (), rbtreeFindNode 64 (compareBy addressOf) (some (cell 1)) 108⟩

/-- A node is linked below the one that is looked up, which rotates while the lookup is on its
way down. -/
def overtaken : List (Move 6) :=
  .call (.link (cell 8) (.right (cell 8)) (cell 2)) :: .read ::
    (List.replicate 4 .write ++ [.read, .read] ++ List.replicate 18 .write ++ [.read])

/-- The same call ends before the lookup has left the root, which is then removed. -/
def overtakenTwice : List (Move 6) :=
  .call (.link (cell 8) (.right (cell 8)) (cell 2)) :: .read ::
    (List.replicate 30 .write ++ [.read, .call (.unlink (cell 6))] ++ List.replicate 40 .write ++
      [.read])

/-- A member may be missed, but the lookup ends within the bound and sees only members. -/
theorem interleaving_lookup_sample :
    (∃ es s, Interleaving (cell 1) sampleLookup es s ∧ s.reader = .done none ∧
      (∀ sl a, .read sl (some a) ∈ es →
        a ∈ [cell 3, cell 4, cell 6, cell 7, cell 8, cell 10, cell 9, cell 2]) ∧
      es.countP Event.isStore = 4 ∧ es.countP Event.isVisit ≤ (4 + 1) * 8) ∧
    ∃ es s, Interleaving (cell 1) sampleLookup es s ∧ s.reader = .done (some (cell 8)) ∧
      (∀ sl a, .read sl (some a) ∈ es →
        a ∈ [cell 3, cell 4, cell 6, cell 7, cell 8, cell 10, cell 9, cell 2]) ∧
      es.countP Event.isStore = 9 ∧ es.countP Event.isVisit ≤ (9 + 1) * 8 := by
  have hsecond : sampleLists (cell 1) ≠ none := by simp [sampleLists_second]
  have hplan : ∀ (ms : List (Move 6)) (i : Pointer 6) (k : ℕ),
      (sampleLookup.moves (sampleCalls.flatMap Call.setsTree) (cell 1) ms).any (fun x =>
        decide (x.2.reader.result = some i ∧ x.1.countP Event.isStore = k ∧
          everIn (cell 1) sampleLists (x.1.filterMap Event.call?) =
            [cell 3, cell 4, cell 6, cell 7, cell 8, cell 10, cell 9, cell 2].toFinset)) = true →
      ∃ es s, Interleaving (cell 1) sampleLookup es s ∧ s.reader = .done i ∧
        (∀ sl a, .read sl (some a) ∈ es →
          a ∈ [cell 3, cell 4, cell 6, cell 7, cell 8, cell 10, cell 9, cell 2]) ∧
        es.countP Event.isStore = k ∧ es.countP Event.isVisit ≤ (k + 1) * 8 := by
    intro ms i k hms
    cases hx : sampleLookup.moves (sampleCalls.flatMap Call.setsTree) (cell 1) ms with
    | none => simp [hx] at hms
    | some x =>
      rw [hx] at hms
      obtain ⟨hdone, hstores, hever⟩ := of_decide_eq_true hms
      have hi := Interleaving.start.moves (fun t ht => run_sample.setsTree ht) hx
      obtain ⟨hvisit, hcount, -⟩ := interleaving_lookup run_sample hsecond .idle hi
      rw [List.nil_append] at hi hvisit hcount
      rw [List.nil_append, hever] at hvisit hcount
      rw [hstores] at hcount
      exact ⟨x.1, x.2, hi, Program.result_eq_some.mp hdone,
        fun sl a ha => List.mem_toFinset.mp (hvisit sl a ha), hstores, hcount⟩
  exact ⟨hplan overtaken none 4 (by decide +kernel),
    hplan overtakenTwice (some (cell 8)) 9 (by decide +kernel)⟩

end Sample

end CRbtree
