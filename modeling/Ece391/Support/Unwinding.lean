import Mathlib

/-! Noninterference by unwinding. Every event belongs to one owner or to none, and
two states agree for an owner when the owner cannot tell them apart. If an owner's
own events keep agreement and no other event touches what the owner sees, then the
owner sees after a run what it would see had only its own events taken place. -/

namespace Ece391.Support.Unwinding

variable {σ ε ι : Type*} [DecidableEq ι]

/-- The events of one owner, in order. -/
def purge (owner : ε → Option ι) (i : ι) (es : List ε) : List ε :=
  es.filter fun e => owner e = some i

/-- The unwinding conditions, for the states of an invariant. -/
structure Unwinds (step : σ → ε → σ) (owner : ε → Option ι) (inv : σ → Prop)
    (agree : ι → σ → σ → Prop) : Prop where
  keeps : ∀ {s} e, inv s → inv (step s e)
  consistent : ∀ {s s' e i}, inv s → inv s' → owner e = some i → agree i s s' →
    agree i (step s e) (step s' e)
  respects : ∀ {s s' e i}, inv s → owner e ≠ some i → agree i s s' → agree i (step s e) s'

variable {step : σ → ε → σ} {owner : ε → Option ι} {inv : σ → Prop} {agree : ι → σ → σ → Prop}

/-- A run agrees with the run of the owner's events alone. -/
theorem Unwinds.agree_purge (h : Unwinds step owner inv agree) {i : ι} (es : List ε) {s s' : σ}
    (hs : inv s) (hs' : inv s') (ha : agree i s s') :
    agree i (es.foldl step s) ((purge owner i es).foldl step s') := by
  induction es generalizing s s' with
  | nil => exact ha
  | cons e es ih =>
    by_cases he : owner e = some i
    · rw [purge, List.filter_cons_of_pos (by simpa using he)]
      exact ih (h.keeps e hs) (h.keeps e hs') (h.consistent hs hs' he ha)
    · rw [purge, List.filter_cons_of_neg (by simpa using he)]
      exact ih (h.keeps e hs) hs' (h.respects hs he ha)

end Ece391.Support.Unwinding
