import CRbtree.Programs

set_option autoImplicit false

/-!
What the runs of a program cost. Every command has a price, and some earn an income: a
loop that earns in each turn what the next one costs is paid for by a fixed credit.
-/

namespace Programs

variable {C : Type} {R : C → Type} {α β σ ε : Type}

section Within

variable {m : Machine C R σ ε} {price income : C → ℕ} {M N : ℕ} {p : Program C R α} {s : σ}

/-- A run from `s` costs no more than the credit and what it earns. -/
def Within (m : Machine C R σ ε) (price income : C → ℕ) (N : ℕ) (p : Program C R α) (s : σ) :
    Prop :=
  ∀ a t tr, run m p s = .ok (a, t, tr) → (tr.map price).sum ≤ N + (tr.map income).sum

theorem Within.mono (h : Within m price income M p s) (hle : M ≤ N) :
    Within m price income N p s := by
  intro a t tr hrun
  have hsum := h a t tr hrun
  omega

theorem within_pure (a : α) (s : σ) :
    Within m price income N (pure a : Program C R α) s := by
  intro b t tr hrun
  cases hrun
  simp

theorem within_issue {c : C} (h : price c ≤ N + income c) (s : σ) :
    Within m price income N (issue c) s := by
  intro a t tr hrun
  obtain ⟨r, s', tr', -, hq, rfl⟩ := run_step_ok hrun
  cases hq
  simpa using h

/-- The credit of what comes after is only needed in the states it can start from. -/
theorem Within.bind {k : α → Program C R β} (hp : Within m price income M p s)
    (hk : ∀ a t tr, run m p s = .ok (a, t, tr) → Within m price income N (k a) t) :
    Within m price income (M + N) (p >>= k) s := by
  intro b u tr hrun
  obtain ⟨a, t, tr₁, tr₂, h₁, h₂, rfl⟩ := run_bind_ok hrun
  have hle₁ := hp a t tr₁ h₁
  have hle₂ := hk a t tr₁ h₁ b u tr₂ h₂
  simp only [List.map_append, List.sum_append]
  omega

/-- A program that only looks at the state leaves it to what comes after. -/
theorem Within.look {k : α → Program C R β} {a : α} (hi : Inspects m p)
    (ha : observe m p s = .ok a) (hp : Within m price income M p s)
    (hk : Within m price income N (k a) s) : Within m price income (M + N) (p >>= k) s := by
  refine hp.bind fun b t tr hrun => ?_
  obtain ⟨rfl, hb⟩ := hi.run_eq hrun
  obtain rfl : a = b := Except.ok.inj (ha.symm.trans hb)
  exact hk

end Within

section Priced

variable {m : Machine C R σ ε} {price income : C → ℕ} {M N : ℕ} {p q : Program C R α}

/-- The credit is enough from every state. -/
def Priced (m : Machine C R σ ε) (price income : C → ℕ) (N : ℕ) (p : Program C R α) : Prop :=
  ∀ s, Within m price income N p s

theorem Priced.mono (h : Priced m price income M p) (hle : M ≤ N) : Priced m price income N p :=
  fun s => (h s).mono hle

theorem Priced.pure {a : α} : Priced m price income 0 (pure a : Program C R α) :=
  within_pure a

theorem Priced.bind {k : α → Program C R β} (hp : Priced m price income M p)
    (hk : ∀ a, Priced m price income N (k a)) : Priced m price income (M + N) (p >>= k) :=
  fun s => (hp s).bind fun a t _ _ => hk a t

theorem Priced.ite {c : Prop} [Decidable c] (hp : Priced m price income M p)
    (hq : Priced m price income N q) :
    Priced m price income (max M N) (if c then p else q) := by
  split
  · exact hp.mono (Nat.le_max_left ..)
  · exact hq.mono (Nat.le_max_right ..)

/-- What a command earns is there for what comes after it. -/
theorem Priced.earn {c : C} {k : R c → Program C R α} (hc : price c = 0)
    (hk : ∀ r, Priced m price income (N + income c) (k r)) :
    Priced m price income N (issue c >>= k) := by
  intro s b u tr hrun
  obtain ⟨r, s', tr', -, hq, rfl⟩ := run_step_ok hrun
  have hle := hk r s' b u tr' hq
  simp only [List.map_cons, List.sum_cons, hc]
  omega

end Priced

end Programs
