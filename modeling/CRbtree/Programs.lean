import Mathlib.Algebra.GroupWithZero.Nat
import Mathlib.Data.List.Basic

set_option autoImplicit false

/-!
Programs as trees of commands. A command is answered by the machine it runs on,
so one program text has a run on every machine that understands its commands.
-/

namespace Programs

/-- A program that issues commands `c : C`, each answered by a value of `R c`. -/
inductive Program (C : Type) (R : C → Type) (α : Type) where
  | done : α → Program C R α
  | step (c : C) : (R c → Program C R α) → Program C R α

variable {C : Type} {R : C → Type} {σ τ ε α β : Type}

def Program.bind (p : Program C R α) (k : α → Program C R β) : Program C R β :=
  match p with
  | .done a => k a
  | .step c q => .step c (fun r => (q r).bind k)

instance : Monad (Program C R) where
  pure := .done
  bind := Program.bind

@[simp] theorem pure_eq_done (a : α) : (pure a : Program C R α) = .done a := rfl

@[simp] theorem done_bind (a : α) (k : α → Program C R β) :
    (Program.done a : Program C R α) >>= k = k a := rfl

@[simp] theorem step_bind (c : C) (q : R c → Program C R α) (k : α → Program C R β) :
    Program.step c q >>= k = .step c (fun r => q r >>= k) := rfl

theorem bind_done (p : Program C R α) : p >>= Program.done = p := by
  induction p with
  | done a => rfl
  | step c q ih => simp only [step_bind, ih]

theorem bind_bind {γ : Type} (p : Program C R α) (k : α → Program C R β)
    (l : β → Program C R γ) : p >>= k >>= l = p >>= fun a => k a >>= l := by
  induction p with
  | done a => rfl
  | step c q ih => simp only [step_bind, ih]

instance : LawfulMonad (Program C R) :=
  LawfulMonad.mk' _ bind_done (fun _ _ => rfl) bind_bind

/-- A program of one command, which returns the machine's answer. -/
def issue (c : C) : Program C R (R c) := .step c .done

theorem issue_bind (c : C) (k : R c → Program C R β) : issue c >>= k = .step c k := rfl

/-- What a program returns that issues no more commands. -/
def Program.result : Program C R α → Option α
  | .done a => some a
  | .step _ _ => none

theorem Program.result_eq_some {p : Program C R α} {a : α} : p.result = some a ↔ p = .done a := by
  cases p <;> simp [result]

/-- A machine answers a command in a state and moves on, or fails. -/
abbrev Machine (C : Type) (R : C → Type) (σ ε : Type) := (c : C) → σ → Except ε (R c × σ)

/-- The result, the final state and every command issued, in program order. -/
def run (m : Machine C R σ ε) : Program C R α → σ → Except ε (α × σ × List C)
  | .done a, s => .ok (a, s, [])
  | .step c q, s =>
    match m c s with
    | .error e => .error e
    | .ok (r, s') =>
      match run m (q r) s' with
      | .error e => .error e
      | .ok (a, s'', tr) => .ok (a, s'', c :: tr)

theorem run_step {m : Machine C R σ ε} {c : C} {q : R c → Program C R α} {s s' : σ} {r : R c}
    (h : m c s = .ok (r, s')) :
    run m (.step c q) s = (run m (q r) s').map fun x => (x.1, x.2.1, c :: x.2.2) := by
  simp only [run, h]
  cases run m (q r) s' <;> rfl

theorem run_step_ok {m : Machine C R σ ε} {c : C} {q : R c → Program C R α} {s t : σ} {a : α}
    {tr : List C} (h : run m (.step c q) s = .ok (a, t, tr)) :
    ∃ r s' tr', m c s = .ok (r, s') ∧ run m (q r) s' = .ok (a, t, tr') ∧ tr = c :: tr' := by
  simp only [run] at h
  cases hc : m c s with
  | error e => simp [hc] at h
  | ok x =>
    obtain ⟨r, s'⟩ := x
    cases hq : run m (q r) s' with
    | error e => simp [hc, hq] at h
    | ok y =>
      obtain ⟨b, u, tr'⟩ := y
      simp only [hc, hq, Except.ok.injEq, Prod.mk.injEq] at h
      obtain ⟨rfl, rfl, rfl⟩ := h
      exact ⟨r, s', tr', rfl, hq, rfl⟩

theorem run_bind {m : Machine C R σ ε} {p : Program C R α} {k : α → Program C R β} {s s' t : σ}
    {a : α} {b : β} {tr₁ tr₂ : List C} (hp : run m p s = .ok (a, s', tr₁))
    (hk : run m (k a) s' = .ok (b, t, tr₂)) : run m (p >>= k) s = .ok (b, t, tr₁ ++ tr₂) := by
  induction p generalizing s tr₁ with
  | done a' =>
    cases hp
    exact hk
  | step c q ih =>
    obtain ⟨r, s'', tr', hc, hq, rfl⟩ := run_step_ok hp
    rw [step_bind, run_step hc, ih r hq]
    rfl

theorem run_bind_pure {m : Machine C R σ ε} {p : Program C R α} {s t : σ} {a : α} {tr : List C}
    (hp : run m p s = .ok (a, t, tr)) (g : α → β) :
    run m (p >>= fun a => pure (g a)) s = .ok (g a, t, tr) := by
  have hpure : run m (pure (g a) : Program C R β) t = .ok (g a, t, []) := rfl
  simpa using run_bind (k := fun a => pure (g a)) hp hpure

theorem run_bind_error {m : Machine C R σ ε} {p : Program C R α} {k : α → Program C R β}
    {s s' : σ} {a : α} {tr : List C} {e : ε} (hp : run m p s = .ok (a, s', tr))
    (hk : run m (k a) s' = .error e) : run m (p >>= k) s = .error e := by
  induction p generalizing s tr with
  | done a' =>
    cases hp
    exact hk
  | step c q ih =>
    obtain ⟨r, s'', tr', hc, hq, rfl⟩ := run_step_ok hp
    rw [step_bind, run_step hc, ih r hq]
    rfl

theorem run_bind_error_left {m : Machine C R σ ε} {p : Program C R α} {k : α → Program C R β}
    {s : σ} {e : ε} (hp : run m p s = .error e) : run m (p >>= k) s = .error e := by
  induction p generalizing s with
  | done a => cases hp
  | step c q ih =>
    cases hc : m c s with
    | error e' =>
      simp only [run, hc, Except.error.injEq] at hp
      simp only [step_bind, run, hc, hp]
    | ok x =>
      rw [run_step hc] at hp
      cases hq : run m (q x.1) x.2 with
      | error e' =>
        obtain rfl : e' = e := Except.error.inj (hq ▸ hp)
        rw [step_bind, run_step hc, ih x.1 hq, Except.map]
      | ok y => rw [hq] at hp; cases hp

/-- A run of two programs one after the other is a run of each. -/
theorem run_bind_ok {m : Machine C R σ ε} {p : Program C R α} {k : α → Program C R β} {s t : σ}
    {b : β} {tr : List C} (h : run m (p >>= k) s = .ok (b, t, tr)) :
    ∃ a s' tr₁ tr₂, run m p s = .ok (a, s', tr₁) ∧ run m (k a) s' = .ok (b, t, tr₂) ∧
      tr = tr₁ ++ tr₂ := by
  induction p generalizing s tr with
  | done a => exact ⟨a, s, [], tr, rfl, h, rfl⟩
  | step c q ih =>
    obtain ⟨r, s', tr', hc, hq, rfl⟩ := run_step_ok h
    obtain ⟨a, s'', tr₁, tr₂, hp, hk, rfl⟩ := ih r hq
    exact ⟨a, s'', c :: tr₁, tr₂, by rw [run_step hc, hp]; rfl, hk, rfl⟩

/-- On a machine that may also fail in one way, so may a run. -/
theorem run_eq_or_error {m n : Machine C R σ ε} {e : ε}
    (h : ∀ c s, n c s = m c s ∨ n c s = .error e) (p : Program C R α) (s : σ) :
    run n p s = run m p s ∨ run n p s = .error e := by
  induction p generalizing s with
  | done a => exact .inl rfl
  | step c q ih =>
    rcases h c s with hc | hc
    · cases hm : m c s with
      | error d => exact .inl (by simp only [run, hc, hm])
      | ok x =>
        rw [run_step (hc.trans hm), run_step hm]
        exact (ih x.1 x.2).imp (congrArg _) fun he => by rw [he]; rfl
    · exact .inr (by simp only [run, hc])

/-- A run in progress: the commands issued so far, and what is left of the program. -/
inductive Steps (m : Machine C R σ ε) :
    Program C R α → σ → List C → Program C R α → σ → Prop
  | refl (p : Program C R α) (s : σ) : Steps m p s [] p s
  | step {c : C} {q : R c → Program C R α} {s s' t : σ} {r : R c} {tr : List C}
      {p : Program C R α} (hc : m c s = .ok (r, s')) (h : Steps m (q r) s' tr p t) :
      Steps m (.step c q) s (c :: tr) p t

theorem steps_step {m : Machine C R σ ε} {c : C} {q : R c → Program C R α} {s t : σ} {tr : List C}
    {p : Program C R α} (h : Steps m (.step c q) s tr p t) :
    tr = [] ∧ t = s ∨
      ∃ r s' tr', m c s = .ok (r, s') ∧ tr = c :: tr' ∧ Steps m (q r) s' tr' p t := by
  cases h with
  | refl => exact .inl ⟨rfl, rfl⟩
  | step hc h => exact .inr ⟨_, _, _, hc, rfl, h⟩

/-- A run that ends is a run in progress with nothing left. -/
theorem run_iff_steps {m : Machine C R σ ε} {p : Program C R α} {s t : σ} {a : α} {tr : List C} :
    run m p s = .ok (a, t, tr) ↔ Steps m p s tr (.done a) t := by
  constructor
  · intro h
    induction p generalizing s tr with
    | done b =>
      simp only [run, Except.ok.injEq, Prod.mk.injEq] at h
      obtain ⟨rfl, rfl, rfl⟩ := h
      exact .refl _ _
    | step c q ih =>
      obtain ⟨r, s', tr', hc, hq, rfl⟩ := run_step_ok h
      exact .step hc (ih r hq)
  · intro h
    generalize hp : Program.done a = p' at h
    induction h with
    | refl p s =>
      subst hp
      rfl
    | step hc h ih => rw [run_step hc, ih hp, Except.map]

theorem Steps.concat {m : Machine C R σ ε} {p : Program C R α} {s t t' : σ} {tr : List C} {c : C}
    {q : R c → Program C R α} {r : R c} (h : Steps m p s tr (.step c q) t)
    (hc : m c t = .ok (r, t')) : Steps m p s (tr ++ [c]) (q r) t' := by
  generalize hp : Program.step c q = p' at h
  induction h with
  | refl p s =>
    subst hp
    exact .step hc (.refl _ _)
  | step hc' _ ih => exact .step hc' (ih hc hp)

/-- A program after `k` commands, if it issues so many. -/
def advance (m : Machine C R σ ε) :
    ℕ → Program C R α → σ → Option (List C × Program C R α × σ)
  | 0, p, s => some ([], p, s)
  | _ + 1, .done _, _ => none
  | k + 1, .step c q, s =>
    match m c s with
    | .error _ => none
    | .ok (r, s') => (advance m k (q r) s').map fun x => (c :: x.1, x.2)

theorem steps_of_advance {m : Machine C R σ ε} {k : ℕ} {p q : Program C R α} {s t : σ}
    {tr : List C} (h : advance m k p s = some (tr, q, t)) : Steps m p s tr q t := by
  induction k generalizing p s tr with
  | zero =>
    cases h
    exact .refl _ _
  | succ k ih =>
    cases p with
    | done a => cases h
    | step c q' =>
      cases hc : m c s with
      | error e => simp [advance, hc] at h
      | ok x =>
        simp only [advance, hc, Option.map_eq_some_iff] at h
        obtain ⟨⟨tr', q'', t'⟩, hx, heq⟩ := h
        cases heq
        exact .step hc (ih hx)

theorem exists_steps {m : Machine C R σ ε} {k : ℕ} {p : Program C R α} {s : σ} {P : σ → Prop}
    [DecidablePred P] (h : (advance m k p s).any (fun x => decide (P x.2.2)) = true) :
    ∃ tr q t, Steps m p s tr q t ∧ P t := by
  cases hx : advance m k p s with
  | none => simp [hx] at h
  | some x =>
    rw [hx] at h
    exact ⟨x.1, x.2.1, x.2.2, steps_of_advance hx, of_decide_eq_true h⟩

/-- The next command of a run in progress is one that the whole run issues. -/
theorem Steps.next {m : Machine C R σ ε} {p : Program C R α} {s t u : σ} {tr tr' : List C} {c : C}
    {q : R c → Program C R α} {a : α} (h : Steps m p s tr (.step c q) t)
    (hr : run m p s = .ok (a, u, tr')) : c ∈ tr' ∧ ∃ r t', m c t = .ok (r, t') := by
  generalize hp : Program.step c q = p' at h
  induction h generalizing tr' with
  | refl p s =>
    subst hp
    obtain ⟨r, s', tr₁, hc, -, rfl⟩ := run_step_ok hr
    exact ⟨by simp, r, s', hc⟩
  | step hc' _ ih =>
    obtain ⟨r, s', tr₁, hc, hq, rfl⟩ := run_step_ok hr
    rw [hc'] at hc
    cases hc
    obtain ⟨hmem, hnext⟩ := ih hq hp
    exact ⟨List.mem_cons_of_mem _ hmem, hnext⟩

section Simulation

variable {m₁ : Machine C R σ ε} {m₂ : Machine C R τ ε} {rel : σ → τ → Prop}

/-- When every command that succeeds on `m₁` succeeds on `m₂` with the same answer and
keeps the states related, so does every program, with the same commands issued. -/
theorem run_simulation
    (hsim : ∀ c s t r s', rel s t → m₁ c s = .ok (r, s') →
      ∃ t', m₂ c t = .ok (r, t') ∧ rel s' t')
    {p : Program C R α} {s s' : σ} {t : τ} {a : α} {tr : List C} (hrel : rel s t)
    (h : run m₁ p s = .ok (a, s', tr)) :
    ∃ t', run m₂ p t = .ok (a, t', tr) ∧ rel s' t' := by
  induction p generalizing s t tr with
  | done b =>
    simp only [run, Except.ok.injEq, Prod.mk.injEq] at h
    obtain ⟨rfl, rfl, rfl⟩ := h
    exact ⟨t, rfl, hrel⟩
  | step c q ih =>
    obtain ⟨r, s₁, tr', hc, hq, rfl⟩ := run_step_ok h
    obtain ⟨t₁, hc', hrel₁⟩ := hsim c s t r s₁ hrel hc
    obtain ⟨t', hq', hrel'⟩ := ih r hrel₁ hq
    refine ⟨t', ?_, hrel'⟩
    simp only [run, hc', hq']

end Simulation

/-- Every command of the trace was issued in a state that satisfies the guard. -/
def Guarded (m : Machine C R σ ε) (G : σ → C → Prop) : σ → List C → Prop
  | _, [] => True
  | s, c :: tr => G s c ∧ ∃ r s', m c s = .ok (r, s') ∧ Guarded m G s' tr

section WeakestPrecondition

variable (m : Machine C R σ ε) (G : σ → C → Prop) (cost : C → ℕ)

/-- The weakest precondition of a run that does not fail, issues only guarded commands
and ends with `Q` of its result, its final state and the summed cost of its commands. -/
def wp : Program C R α → (α → σ → ℕ → Prop) → σ → Prop
  | .done a, Q, s => Q a s 0
  | .step c q, Q, s =>
    ∃ r s', m c s = .ok (r, s') ∧ G s c ∧ wp (q r) (fun a t n => Q a t (cost c + n)) s'

variable {m G cost}

theorem wp_mono {p : Program C R α} {Q Q' : α → σ → ℕ → Prop} {s : σ}
    (h : ∀ a t n, Q a t n → Q' a t n) (hp : wp m G cost p Q s) : wp m G cost p Q' s := by
  induction p generalizing s Q Q' with
  | done a => exact h _ _ _ hp
  | step c q ih =>
    obtain ⟨r, s', hc, hg, hq⟩ := hp
    exact ⟨r, s', hc, hg, ih r (fun a t n => h a t (cost c + n)) hq⟩

/-- A weaker guard is easier to satisfy. -/
theorem wp_guard {G' : σ → C → Prop} {p : Program C R α} {Q : α → σ → ℕ → Prop} {s : σ}
    (h : ∀ s c, G s c → G' s c) (hp : wp m G cost p Q s) : wp m G' cost p Q s := by
  induction p generalizing s Q with
  | done a => exact hp
  | step c q ih =>
    obtain ⟨r, s', hc, hg, hq⟩ := hp
    exact ⟨r, s', hc, h s c hg, ih r hq⟩

theorem wp_bind {p : Program C R α} {k : α → Program C R β} {Q : β → σ → ℕ → Prop} {s : σ} :
    wp m G cost (p >>= k) Q s ↔
      wp m G cost p (fun a t n => wp m G cost (k a) (fun b u n' => Q b u (n + n')) t) s := by
  induction p generalizing s Q with
  | done a => simp only [done_bind, wp, Nat.zero_add]
  | step c q ih => simp only [step_bind, wp, ih, Nat.add_assoc]

theorem wp_sound {p : Program C R α} {Q : α → σ → ℕ → Prop} {s : σ} (h : wp m G cost p Q s) :
    ∃ a t tr, run m p s = .ok (a, t, tr) ∧ Q a t (tr.map cost).sum ∧ Guarded m G s tr := by
  induction p generalizing s Q with
  | done a => exact ⟨a, s, [], rfl, h, trivial⟩
  | step c q ih =>
    obtain ⟨r, s', hc, hg, hq⟩ := h
    obtain ⟨a, t, tr, hrun, hQ, htr⟩ := ih r hq
    refine ⟨a, t, c :: tr, ?_, ?_, hg, r, s', hc, htr⟩
    · simp only [run, hc, hrun]
    · simpa only [List.map_cons, List.sum_cons] using hQ

/-- What is preserved by guarded commands holds at the end too. -/
theorem wp_invariant {I : σ → Prop}
    (hI : ∀ c s r s', I s → G s c → m c s = .ok (r, s') → I s') {p : Program C R α}
    {Q : α → σ → ℕ → Prop} {s : σ} (h : wp m G cost p Q s) (hs : I s) :
    wp m G cost p (fun a t n => Q a t n ∧ I t) s := by
  induction p generalizing s Q with
  | done a => exact ⟨h, hs⟩
  | step c q ih =>
    obtain ⟨r, s', hc, hg, hq⟩ := h
    exact ⟨r, s', hc, hg, ih r hq (hI c s r s' hs hg hc)⟩

end WeakestPrecondition

section Observation

variable {m : Machine C R σ ε} {p : Program C R α} {s : σ}

/-- What the program returns when no command changes the state. -/
def observe (m : Machine C R σ ε) : Program C R α → σ → Except ε α
  | .done a, _ => .ok a
  | .step c q, s => m c s >>= fun x => observe m (q x.1) s

@[simp] theorem observe_done (a : α) : observe m (.done a : Program C R α) s = .ok a := rfl

@[simp] theorem observe_bind (k : α → Program C R β) :
    observe m (p >>= k) s = observe m p s >>= fun a => observe m (k a) s := by
  induction p with
  | done a => rfl
  | step c q ih =>
    simp only [step_bind, observe]
    cases m c s with
    | error e => rfl
    | ok x => exact ih x.1

/-- No command that the program may issue changes a state. -/
def Inspects (m : Machine C R σ ε) : Program C R α → Prop
  | .done _ => True
  | .step c q => (∀ s r s', m c s = .ok (r, s') → s' = s) ∧ ∀ r, Inspects m (q r)

theorem Inspects.bind {k : α → Program C R β} (hp : Inspects m p) (hk : ∀ a, Inspects m (k a)) :
    Inspects m (p >>= k) := by
  induction p with
  | done a => exact hk a
  | step c q ih => exact ⟨hp.1, fun r => ih r (hp.2 r)⟩

theorem Inspects.pure {a : α} : Inspects m (pure a : Program C R α) := trivial

theorem Inspects.ite {q : Program C R α} {c : Prop} [Decidable c] (hp : Inspects m p)
    (hq : Inspects m q) : Inspects m (if c then p else q) := by
  split
  · exact hp
  · exact hq

theorem Inspects.run_ok {a : α} (hp : Inspects m p) (h : observe m p s = .ok a) :
    ∃ tr, run m p s = .ok (a, s, tr) := by
  induction p with
  | done b =>
    cases h
    exact ⟨[], rfl⟩
  | step c q ih =>
    rw [observe] at h
    cases hc : m c s with
    | error e =>
      rw [hc] at h
      cases h
    | ok x =>
      obtain ⟨r, s'⟩ := x
      rw [hc] at h
      obtain ⟨tr, hrun⟩ := ih r (hp.2 r) h
      obtain rfl := hp.1 s r s' hc
      exact ⟨c :: tr, by rw [run_step hc, hrun]; rfl⟩

/-- A run changes nothing and returns what is observed. -/
theorem Inspects.run_eq {a : α} {t : σ} {tr : List C} (hp : Inspects m p)
    (h : run m p s = .ok (a, t, tr)) : t = s ∧ observe m p s = .ok a := by
  induction p generalizing tr with
  | done b =>
    cases h
    exact ⟨rfl, rfl⟩
  | step c q ih =>
    obtain ⟨r, s', tr', hc, hq, rfl⟩ := run_step_ok h
    obtain rfl := hp.1 s r s' hc
    obtain ⟨rfl, hobs⟩ := ih r (hp.2 r) hq
    refine ⟨rfl, ?_⟩
    rw [observe, hc]
    exact hobs

theorem Inspects.steps_eq {q : Program C R α} {t : σ} {tr : List C} (hp : Inspects m p)
    (h : Steps m p s tr q t) : t = s := by
  induction h with
  | refl p s => rfl
  | step hc _ ih =>
    obtain rfl := hp.1 _ _ _ hc
    exact ih (hp.2 _)

theorem Inspects.run_error {e : ε} (hp : Inspects m p) (h : observe m p s = .error e) :
    run m p s = .error e := by
  induction p with
  | done b => cases h
  | step c q ih =>
    rw [observe] at h
    cases hc : m c s with
    | error e' =>
      rw [hc] at h
      cases h
      simp only [run, hc]
    | ok x =>
      obtain ⟨r, s'⟩ := x
      rw [hc] at h
      have hrun := ih r (hp.2 r) h
      obtain rfl := hp.1 s r s' hc
      rw [run_step hc, hrun]
      rfl

end Observation

end Programs
