import Mathlib.Data.List.Basic
import Mathlib.Logic.Function.Basic

set_option autoImplicit false

/-!
Parties that move in any order in one shared state. Where each of them works on a part of
its own, every interleaving is, for each party, a run of that party alone.
-/

namespace Parties

variable {ι σ Λ E : Type}

/-- The moves of party `i`: its own state, the shared state, and an event. -/
abbrev Moves (ι σ Λ E : Type) := ι → Λ → σ → E → Λ → σ → Prop

/-- The runs of one party alone. -/
inductive Solo (M : Moves ι σ Λ E) (i : ι) (l₀ : Λ) (s₀ : σ) : List E → Λ → σ → Prop
  | start : Solo M i l₀ s₀ [] l₀ s₀
  | move {es : List E} {l l' : Λ} {s s' : σ} {e : E} (h : Solo M i l₀ s₀ es l s)
      (hm : M i l s e l' s') : Solo M i l₀ s₀ (es ++ [e]) l' s'

variable [DecidableEq ι]

/-- The runs of all parties in one shared state. -/
inductive Joint (M : Moves ι σ Λ E) (L₀ : ι → Λ) (s₀ : σ) : List (ι × E) → (ι → Λ) → σ → Prop
  | start : Joint M L₀ s₀ [] L₀ s₀
  | move {es : List (ι × E)} {L : ι → Λ} {s s' : σ} {i : ι} {e : E} {l' : Λ}
      (h : Joint M L₀ s₀ es L s) (hm : M i (L i) s e l' s') :
      Joint M L₀ s₀ (es ++ [(i, e)]) (Function.update L i l') s'

/-- The events of one party. -/
def eventsOf (i : ι) (es : List (ι × E)) : List E :=
  es.filterMap fun x => if x.1 = i then some x.2 else none

/-- Each party has a part of the shared state. As far as it has come alone, its moves depend
on that part only, and leave the parts of the others as they are. -/
structure Apart (M : Moves ι σ Λ E) (L₀ : ι → Λ) (s₀ : σ) (agree : ι → σ → σ → Prop) : Prop where
  refl : ∀ i s, agree i s s
  trans : ∀ i s t u, agree i s t → agree i t u → agree i s u
  alone : ∀ i es l g s e l' s', Solo M i (L₀ i) s₀ es l g → agree i g s → M i l s e l' s' →
    ∃ g', M i l g e l' g' ∧ agree i g' s'
  frame : ∀ i es l g s e l' s' j, Solo M i (L₀ i) s₀ es l g → agree i g s → M i l s e l' s' →
    j ≠ i → agree j s s'

variable {M : Moves ι σ Λ E} {L₀ : ι → Λ} {s₀ s : σ} {agree : ι → σ → σ → Prop}
  {es : List (ι × E)} {L : ι → Λ}

theorem eventsOf_append (i : ι) (es es' : List (ι × E)) :
    eventsOf i (es ++ es') = eventsOf i es ++ eventsOf i es' :=
  List.filterMap_append

/-- Every interleaving is a run of each party alone, as far as its own part shows. -/
theorem Joint.solo (hA : Apart M L₀ s₀ agree) (h : Joint M L₀ s₀ es L s) (i : ι) :
    ∃ g, Solo M i (L₀ i) s₀ (eventsOf i es) (L i) g ∧ agree i g s := by
  induction h generalizing i with
  | start => exact ⟨s₀, .start, hA.refl i s₀⟩
  | @move es L s s' j e l' h hm ih =>
    rw [eventsOf_append]
    obtain ⟨g, hg, hag⟩ := ih j
    by_cases hij : i = j
    · subst hij
      obtain ⟨g', hm', hag'⟩ := hA.alone i _ _ g s e l' s' hg hag hm
      refine ⟨g', ?_, hag'⟩
      rw [Function.update_self]
      simpa [eventsOf] using hg.move hm'
    · obtain ⟨k, hk, hak⟩ := ih i
      refine ⟨k, ?_, hA.trans i _ _ _ hak (hA.frame j _ _ g s e l' s' i hg hag hm hij)⟩
      rw [Function.update_of_ne hij]
      simpa [eventsOf, Ne.symm hij] using hk

end Parties
