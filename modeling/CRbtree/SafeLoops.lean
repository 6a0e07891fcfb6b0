import CRbtree.Programs

set_option autoImplicit false

/-!
Loops that fetch the next item before their body runs, so that the body may dispose of the
current one.
-/

namespace Programs

variable {C : Type} {R : C → Type} {σ ε α β ι : Type}

/-- `for (i = first, s = next(i); more(i); i = s, s = next(s))` -/
structure SafeLoop (C : Type) (R : C → Type) (ι : Type) where
  first : Program C R ι
  next : ι → Program C R ι
  more : ι → Program C R Bool

/-- What the bodies of a loop may do, with a label for each choice they have, and what is
promised in turn. -/
structure Contract (C ι β σ : Type) where
  /-- The body may take the first state to the second. -/
  body : ι → β → σ → σ → Prop
  /-- What a body finds when it starts. -/
  ready : ι → σ → Prop
  /-- The command may be issued when these items have had their turn. -/
  quiet : List ι → C → Prop
  /-- What holds when the loop has ended after these turns. -/
  done : List (ι × β) → σ → Prop

namespace SafeLoop

variable {m : Machine C R σ ε} {L : SafeLoop C R ι} {K : Contract C ι β σ} {s₀ : σ}

/-- The turns so far, the two iterators and the state, whenever the loop is about to test
its condition. -/
inductive Turns (m : Machine C R σ ε) (L : SafeLoop C R ι) (body : ι → β → σ → σ → Prop) (s₀ : σ) :
    List (ι × β) → ι → ι → σ → Prop
  | start {i s : ι} {s₁ s₂ : σ} {tr tr' : List C} (hfirst : run m L.first s₀ = .ok (i, s₁, tr))
      (hnext : run m (L.next i) s₁ = .ok (s, s₂, tr')) : Turns m L body s₀ [] i s s₂
  | turn {seen : List (ι × β)} {i s s' : ι} {b : β} {s₁ s₂ s₃ s₄ : σ} {tr tr' : List C}
      (h : Turns m L body s₀ seen i s s₁) (hmore : run m (L.more i) s₁ = .ok (true, s₂, tr))
      (hbody : body i b s₂ s₃) (hnext : run m (L.next s) s₃ = .ok (s', s₄, tr')) :
      Turns m L body s₀ (seen ++ [(i, b)]) s s' s₄

/-- Whatever the bodies choose, the loop never gets stuck, visits the items one by one and
ends after the last. -/
structure Visits (m : Machine C R σ ε) (L : SafeLoop C R ι) (K : Contract C ι β σ) (s₀ : σ)
    (items : List ι) : Prop where
  start : ∃ i s s₁, Turns m L K.body s₀ [] i s s₁
  turn : ∀ seen i s s₁, Turns m L K.body s₀ seen i s s₁ → ∃ b s₂ tr,
    run m (L.more i) s₁ = .ok (b, s₂, tr) ∧ (∀ c ∈ tr, K.quiet (seen.map Prod.fst) c) ∧
      if b then
        seen.map Prod.fst ++ [i] <+: items ∧ K.ready i s₂ ∧
          ∀ x s₃, K.body i x s₂ s₃ → ∃ s' tr', run m (L.next s) s₃ = .ok (s', s₃, tr') ∧
            ∀ c ∈ tr', K.quiet (seen.map Prod.fst ++ [i]) c
      else seen.map Prod.fst = items ∧ K.done seen s₂

/-- If a body can always act on its choice, the loop runs to its end. -/
theorem Visits.ends {items : List ι} (h : Visits m L K s₀ items) (f : ι → β)
    (hact : ∀ i s, K.ready i s → ∃ s', K.body i (f i) s s') :
    ∃ i s s₁ s₂ tr, Turns m L K.body s₀ (items.map fun i => (i, f i)) i s s₁ ∧
      run m (L.more i) s₁ = .ok (false, s₂, tr) ∧ K.done (items.map fun i => (i, f i)) s₂ := by
  have hgo : ∀ rest seen i s s₁, items = seen ++ rest →
      Turns m L K.body s₀ (seen.map fun i => (i, f i)) i s s₁ → ∃ i s s₁ s₂ tr,
        Turns m L K.body s₀ (items.map fun i => (i, f i)) i s s₁ ∧
          run m (L.more i) s₁ = .ok (false, s₂, tr) ∧ K.done (items.map fun i => (i, f i)) s₂ := by
    intro rest
    induction rest with
    | nil =>
      intro seen i s s₁ hitems ht
      obtain ⟨b, s₂, tr, hmore, -, hb⟩ := h.turn _ i s s₁ ht
      cases b with
      | true =>
        have hle := hb.1.length_le
        have hlen : items.length = seen.length := by rw [hitems, List.append_nil]
        simp only [List.length_append, List.length_map, List.length_singleton] at hle
        omega
      | false =>
        rw [List.append_nil] at hitems
        exact ⟨i, s, s₁, s₂, tr, hitems ▸ ht, hmore, hitems ▸ hb.2⟩
    | cons a rest ih =>
      intro seen i s s₁ hitems ht
      obtain ⟨b, s₂, tr, hmore, -, hb⟩ := h.turn _ i s s₁ ht
      cases b with
      | true =>
        obtain ⟨hseen, hready, hnext⟩ := hb
        have hmap : (seen.map fun i => (i, f i)).map Prod.fst = seen := by simp [Function.comp_def]
        obtain rfl : i = a := by
          rw [hmap, hitems, List.prefix_append_right_inj, List.cons_prefix_cons] at hseen
          exact hseen.1
        obtain ⟨s₃, hbody⟩ := hact i s₂ hready
        obtain ⟨s', tr', hnext, -⟩ := hnext _ s₃ hbody
        refine ih (seen ++ [i]) s s' s₃ (by simp [hitems]) ?_
        rw [List.map_append]
        exact .turn ht hmore hbody hnext
      | false =>
        have hlen := congrArg List.length hb.1
        simp [hitems] at hlen
  obtain ⟨i, s, s₁, hstart⟩ := h.start
  exact hgo items [] i s s₁ rfl hstart

section Rule

variable {view : Option α → ι} {xs : List α} {I : List (ι × β) → List α → σ → Prop}

/-- The invariant of a loop relates what has been seen, what is left, and the state. The
iterators stand at the first two items that are left. -/
structure Carries (m : Machine C R σ ε) (L : SafeLoop C R ι) (K : Contract C ι β σ) (s₀ : σ)
    (view : Option α → ι) (xs : List α) (I : List (ι × β) → List α → σ → Prop) : Prop where
  start : I [] xs s₀
  first : ∃ tr, run m L.first s₀ = .ok (view xs.head?, s₀, tr)
  next : ∀ seen rest s, I seen rest s → ∃ tr,
    run m (L.next (view rest.head?)) s = .ok (view rest.tail.head?, s, tr) ∧
      ∀ c ∈ tr, K.quiet (seen.map Prod.fst) c
  more : ∀ seen a rest s, I seen (a :: rest) s → ∃ s' tr,
    run m (L.more (view (some a))) s = .ok (true, s', tr) ∧
      (∀ c ∈ tr, K.quiet (seen.map Prod.fst) c) ∧ K.ready (view (some a)) s' ∧
      ∀ b s'', K.body (view (some a)) b s' s'' → I (seen ++ [(view (some a), b)]) rest s''
  stop : ∀ seen s, I seen [] s → ∃ s' tr, run m (L.more (view none)) s = .ok (false, s', tr) ∧
    (∀ c ∈ tr, K.quiet (seen.map Prod.fst) c) ∧ K.done seen s'

/-- The iterators of a loop that carries an invariant. -/
theorem Carries.turns (h : Carries m L K s₀ view xs I) {seen : List (ι × β)} {i s : ι} {s₁ : σ}
    (ht : Turns m L K.body s₀ seen i s s₁) : ∃ rest, I seen rest s₁ ∧ i = view rest.head? ∧
      s = view rest.tail.head? ∧
      xs.map (fun a => view (some a)) = seen.map Prod.fst ++ rest.map fun a => view (some a) := by
  induction ht with
  | start hfirst hnext =>
    obtain ⟨tr, hfirst'⟩ := h.first
    obtain ⟨tr', hnext', -⟩ := h.next [] xs s₀ h.start
    rw [hfirst] at hfirst'
    cases hfirst'
    rw [hnext] at hnext'
    cases hnext'
    exact ⟨xs, h.start, rfl, rfl, rfl⟩
  | @turn seen i s s' b s₁ s₂ s₃ s₄ tr tr' ht hmore hbody hnext ih =>
    obtain ⟨rest, hI, rfl, rfl, hsplit⟩ := ih
    cases rest with
    | nil =>
      obtain ⟨s', tr, hstop, -⟩ := h.stop seen s₁ hI
      rw [List.head?_nil, hstop] at hmore
      cases hmore
    | cons a rest =>
      obtain ⟨s', tr, hmore', -, -, hkeep⟩ := h.more seen a rest s₁ hI
      rw [List.head?_cons, hmore'] at hmore
      cases hmore
      have hI' := hkeep b s₃ hbody
      obtain ⟨tr', hnext', -⟩ := h.next _ rest s₃ hI'
      rw [List.tail_cons, hnext'] at hnext
      cases hnext
      exact ⟨rest, hI', rfl, rfl, by simp [hsplit]⟩

theorem Carries.visits (h : Carries m L K s₀ view xs I) :
    Visits m L K s₀ (xs.map fun a => view (some a)) := by
  constructor
  · obtain ⟨tr, hfirst⟩ := h.first
    obtain ⟨tr', hnext, -⟩ := h.next [] xs s₀ h.start
    exact ⟨_, _, _, .start hfirst hnext⟩
  · intro seen i s s₁ ht
    obtain ⟨rest, hI, rfl, rfl, hsplit⟩ := h.turns ht
    cases rest with
    | nil =>
      obtain ⟨s', tr, hstop, hquiet, hdone⟩ := h.stop seen s₁ hI
      exact ⟨false, s', tr, hstop, hquiet, by simpa using hsplit.symm, hdone⟩
    | cons a rest =>
      obtain ⟨s₂, tr, hmore, hquiet, hready, hkeep⟩ := h.more seen a rest s₁ hI
      refine ⟨true, s₂, tr, hmore, hquiet, ?_, hready, fun b s₃ hbody => ?_⟩
      · rw [hsplit]
        simp
      · obtain ⟨tr', hnext, hquiet'⟩ := h.next _ rest s₃ (hkeep b s₃ hbody)
        exact ⟨_, tr', hnext, by simpa using hquiet'⟩

end Rule

end SafeLoop

end Programs
