import CRbtree.Programs

set_option autoImplicit false

/-!
A program as a part of a larger one: its commands among those of another machine, and idle
commands in between that it knows nothing of.
-/

namespace Programs

variable {C D : Type} {R : C → Type} {A : D → Type} {σ τ ε δ α β : Type}

/-- The program on a machine that has its commands under other names. -/
def Program.embed (f : C → D) (ans : ∀ c, A (f c) → R c) : Program C R α → Program D A α
  | .done a => .done a
  | .step c q => .step (f c) fun x => (q (ans c x)).embed f ans

/-- The second program may issue any number of idle commands before each command of the first,
and at its end. -/
inductive Padded (idle : C) : Program C R α → Program C R α → Prop
  | done (a : α) : Padded idle (.done a) (.done a)
  | step (c : C) {q q' : R c → Program C R α} (h : ∀ r, Padded idle (q r) (q' r)) :
      Padded idle (.step c q) (.step c q')
  | idle {p : Program C R α} {q : R idle → Program C R α} (h : ∀ r, Padded idle p (q r)) :
      Padded idle p (.step idle q)

theorem Padded.refl {idle : C} (p : Program C R α) : Padded idle p p := by
  induction p with
  | done a => exact .done a
  | step c q ih => exact .step c ih

section Embed

variable {m : Machine C R σ ε} {n : Machine D A τ δ} {f : C → D} {ans : ∀ c, A (f c) → R c}
  {G : τ → D → Prop} {J : σ → Prop} {rel : σ → τ → Prop}

/-- A run of the program alone is a part of a run of the larger one, as long as every state
that it goes through is one in which the larger machine goes along. -/
theorem wp_embed
    (hsim : ∀ c s r s' u, J s → J s' → rel s u → m c s = .ok (r, s') →
      G u (f c) ∧ ∃ x u', n (f c) u = .ok (x, u') ∧ ans c x = r ∧ rel s' u')
    {p : Program C R α} {k : α → Program D A β} {Q : β → τ → ℕ → Prop} {s t : σ} {u : τ} {a : α}
    {tr : List C} (hrun : run m p s = .ok (a, t, tr))
    (hJ : ∀ tr' q s', Steps m p s tr' q s' → J s') (hrel : rel s u)
    (hk : ∀ u', rel t u' → wp n G (fun _ => 0) (k a) Q u') :
    wp n G (fun _ => 0) (p.embed f ans >>= k) Q u := by
  induction p generalizing s u tr with
  | done b =>
    cases hrun
    exact hk u hrel
  | step c q ih =>
    obtain ⟨r, s', tr', hc, hq, rfl⟩ := run_step_ok hrun
    have hJ' : ∀ tr' q' s'', Steps m (q r) s' tr' q' s'' → J s'' :=
      fun tr' q' s'' h => hJ _ q' s'' (.step hc h)
    obtain ⟨hg, x, u', hx, hans, hrel'⟩ :=
      hsim c s r s' u (hJ _ _ s (.refl _ s)) (hJ' _ _ s' (.refl _ s')) hrel hc
    refine ⟨x, u', hx, hg, ?_⟩
    simp only [Nat.zero_add]
    exact ih (ans c x) (hans ▸ hq) (hans ▸ hJ') hrel'

end Embed

section Padded

variable {m : Machine C R σ ε} {I : σ → Prop} {rel : σ → σ → Prop} {idle : C} {cost : C → ℕ}
  {p p' : Program C R α} {Q : α → σ → ℕ → Prop} {s u : σ}

/-- Idle commands that change nothing do not matter before the program ends. -/
theorem run_padded_done {a : α} {r : R idle} (hidle : m idle s = .ok (r, s))
    (hpad : Padded idle (.done a) p') : ∃ tr, run m p' s = .ok (a, s, tr) := by
  generalize hp : (Program.done a : Program C R α) = p at hpad
  induction hpad with
  | done b =>
    cases hp
    exact ⟨[], rfl⟩
  | step c h ih => cases hp
  | idle h ih =>
    obtain ⟨tr, hrun⟩ := ih r hp
    exact ⟨idle :: tr, by rw [run_step hidle, hrun]; rfl⟩

theorem run_padded_error {c : C} {q : R c → Program C R α} {r : R idle} {e : ε}
    (hidle : m idle s = .ok (r, s)) (hc : m c s = .error e)
    (hpad : Padded idle (.step c q) p') : run m p' s = .error e := by
  generalize hp : Program.step c q = p at hpad
  induction hpad with
  | done b => cases hp
  | step c h ih =>
    cases hp
    simp only [run, hc]
  | idle h ih =>
    rw [run_step hidle, ih r hp]
    rfl

theorem wp_guarded (h : wp m (fun s _ => I s) cost p (fun a t n => I t ∧ Q a t n) s) : I s := by
  cases p with
  | done a => exact h.1
  | step c q =>
    obtain ⟨r, s', -, hI, -⟩ := h
    exact hI

/-- Idle commands do no harm, where they can run in every state of the program. -/
theorem wp_padded
    (hsim : ∀ c s r s' u, rel s u → m c s = .ok (r, s') → ∃ u', m c u = .ok (r, u') ∧ rel s' u')
    (hidle : ∀ s u, I s → rel s u → ∃ r u', m idle u = .ok (r, u') ∧ rel s u')
    (hpad : Padded idle p p') (hrel : rel s u)
    (hp : wp m (fun s _ => I s) cost p (fun a t n => I t ∧ Q a t n) s) :
    ∃ a t u' n tr, run m p' u = .ok (a, u', tr) ∧ rel t u' ∧ Q a t n := by
  induction hpad generalizing s u Q with
  | done a => exact ⟨a, s, u, 0, [], rfl, hrel, hp.2⟩
  | step c h ih =>
    obtain ⟨r, s', hc, -, hq⟩ := hp
    obtain ⟨u', hc', hrel'⟩ := hsim c s r s' u hrel hc
    obtain ⟨a, t, v, n, tr, hrun, hrel'', hQ⟩ := ih r hrel' hq
    exact ⟨a, t, v, _, c :: tr, by rw [run_step hc', hrun]; rfl, hrel'', hQ⟩
  | idle h ih =>
    obtain ⟨r, u', hc, hrel'⟩ := hidle s u (wp_guarded hp) hrel
    obtain ⟨a, t, v, n, tr, hrun, hrel'', hQ⟩ := ih r hrel' hp
    exact ⟨a, t, v, n, _ :: tr, by rw [run_step hc, hrun]; rfl, hrel'', hQ⟩

end Padded

end Programs
