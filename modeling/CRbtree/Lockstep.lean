import CRbtree.Programs

set_option autoImplicit false

/-!
Two programs in lockstep, on two machines whose states correspond. They issue paired
commands until both end or both fail.
-/

namespace Programs

variable {C : Type} {R : C → Type} {σ τ ε α β γ δ : Type}

section Lockstep

variable (m : Machine C R σ ε) (m' : Machine C R τ ε) (pair : C → C → Prop) (I : σ → τ → Prop)

/-- The commands of the two runs are paired, and so are their results. -/
inductive Lockstep (Q : α → β → Prop) : Program C R α → σ → Program C R β → τ → Prop
  | done {a : α} {b : β} {s : σ} {t : τ} (hQ : Q a b) (hI : I s t) :
      Lockstep Q (.done a) s (.done b) t
  | step {c d : C} {q : R c → Program C R α} {q' : R d → Program C R β} {s s' : σ} {t t' : τ}
      {r : R c} {r' : R d} (hp : pair c d) (hc : m c s = .ok (r, s')) (hd : m' d t = .ok (r', t'))
      (h : Lockstep Q (q r) s' (q' r') t') : Lockstep Q (.step c q) s (.step d q') t
  | fail {c d : C} {q : R c → Program C R α} {q' : R d → Program C R β} {s : σ} {t : τ} {e : ε}
      (hp : pair c d) (hc : m c s = .error e) (hd : m' d t = .error e) :
      Lockstep Q (.step c q) s (.step d q') t

/-- The two programs run in lockstep from any states that correspond. -/
def Together (Q : α → β → Prop) (p : Program C R α) (p' : Program C R β) : Prop :=
  ∀ s t, I s t → Lockstep m m' pair I Q p s p' t

variable {m m' pair I} {Q Q' : α → β → Prop} {P : γ → δ → Prop} {s : σ} {t : τ}

theorem Lockstep.mono {p : Program C R α} {p' : Program C R β} (hQ : ∀ a b, Q a b → Q' a b)
    (h : Lockstep m m' pair I Q p s p' t) : Lockstep m m' pair I Q' p s p' t := by
  induction h with
  | done h hI => exact .done (hQ _ _ h) hI
  | step hp hc hd _ ih => exact .step hp hc hd ih
  | fail hp hc hd => exact .fail hp hc hd

theorem Lockstep.bind {p : Program C R α} {p' : Program C R β} {k : α → Program C R γ}
    {k' : β → Program C R δ} (h : Lockstep m m' pair I Q p s p' t)
    (hk : ∀ a b, Q a b → Together m m' pair I P (k a) (k' b)) :
    Lockstep m m' pair I P (p >>= k) s (p' >>= k') t := by
  induction h with
  | done h hI => exact hk _ _ h _ _ hI
  | step hp hc hd _ ih => exact .step hp hc hd ih
  | fail hp hc hd => exact .fail hp hc hd

theorem Together.mono {p : Program C R α} {p' : Program C R β}
    (h : Together m m' pair I Q p p') (hQ : ∀ a b, Q a b → Q' a b) :
    Together m m' pair I Q' p p' :=
  fun s t hI => (h s t hI).mono hQ

theorem Together.pure {a : α} {b : β} (h : Q a b) :
    Together m m' pair I Q (Pure.pure a) (Pure.pure b) :=
  fun _ _ hI => .done h hI

theorem Together.bind {p : Program C R α} {p' : Program C R β} {k : α → Program C R γ}
    {k' : β → Program C R δ} (h : Together m m' pair I Q p p')
    (hk : ∀ a b, Q a b → Together m m' pair I P (k a) (k' b)) :
    Together m m' pair I P (p >>= k) (p' >>= k') :=
  fun s t hI => (h s t hI).bind hk

/-- A pair of commands keeps the states in correspondence. -/
theorem Together.issue {c d : C} {Q : R c → R d → Prop} (hp : pair c d)
    (h : ∀ s t, I s t → ∃ r r' s' t', m c s = .ok (r, s') ∧ m' d t = .ok (r', t') ∧ Q r r' ∧
      I s' t') : Together m m' pair I Q (issue c) (issue d) := by
  intro s t hI
  obtain ⟨r, r', s', t', hc, hd, hQ, hI'⟩ := h s t hI
  exact .step hp hc hd (.done hQ hI')

theorem Together.ite {b b' : Prop} [Decidable b] [Decidable b'] {p q : Program C R α}
    {p' q' : Program C R β} (hb : b ↔ b') (hp : b → Together m m' pair I Q p p')
    (hq : ¬b → Together m m' pair I Q q q') :
    Together m m' pair I Q (if b then p else q) (if b' then p' else q') := by
  by_cases h : b
  · rw [if_pos h, if_pos (hb.mp h)]
    exact hp h
  · rw [if_neg h, if_neg (mt hb.mpr h)]
    exact hq h

/-- What one run does, the other does too. -/
theorem Lockstep.run_ok {p : Program C R α} {p' : Program C R β} {s' : σ} {a : α} {tr : List C}
    (h : Lockstep m m' pair I Q p s p' t) (hr : run m p s = .ok (a, s', tr)) :
    ∃ b t' tr', run m' p' t = .ok (b, t', tr') ∧ Q a b ∧ I s' t' ∧ List.Forall₂ pair tr tr' := by
  induction h generalizing tr with
  | done hQ hI =>
    simp only [run, Except.ok.injEq, Prod.mk.injEq] at hr
    obtain ⟨rfl, rfl, rfl⟩ := hr
    exact ⟨_, _, [], rfl, hQ, hI, .nil⟩
  | step hp hc hd _ ih =>
    obtain ⟨r, s₁, tr₁, hc', hq, rfl⟩ := run_step_ok hr
    rw [hc] at hc'
    cases hc'
    obtain ⟨b, t', tr', hq', hQ, hI, htr⟩ := ih hq
    exact ⟨b, t', _ :: tr', by rw [run_step hd, hq']; rfl, hQ, hI, .cons hp htr⟩
  | fail hp hc hd => simp [run, hc] at hr

theorem Lockstep.run_error {p : Program C R α} {p' : Program C R β} {e : ε}
    (h : Lockstep m m' pair I Q p s p' t) (hr : run m p s = .error e) :
    run m' p' t = .error e := by
  induction h with
  | done hQ hI => cases hr
  | @step c d q q' s s' t t' r r' hp hc hd _ ih =>
    rw [run_step hd]
    cases hq : run m (q r) s' with
    | error e' =>
      rw [run_step hc, hq] at hr
      cases hr
      rw [ih hq]
      rfl
    | ok x => simp [run_step hc, hq, Except.map] at hr
  | fail hp hc hd =>
    simp only [run, hc, Except.error.injEq] at hr
    simp only [run, hd, hr]

end Lockstep

end Programs
