import Ece391.Support.Scripts

/-! Scripts whose calls may return late. The call is one event of a run and its reply comes
with the same event or with a later one; in between the script waits while the system goes
on. What a script says and is told is a conversation: the script alone, with replies that
the moves of an environment explain, says the same. -/

namespace Ece391.Support.Blocking

open Runs Scripts

variable {C R O M V σ ε : Type}

/-- A script between two calls, or in one that has not returned. -/
inductive Talk (C R : Type)
  | ready (sc : Script C R)
  | waiting (c : C) (next : R → Script C R)

namespace Talk

def script : Talk C R → Script C R
  | .ready sc => sc
  | .waiting c next => .call c next

def pending : Talk C R → Option C
  | .ready _ => none
  | .waiting c _ => some c

/-- An event that is a call, if it is one, must be the next call of the script. -/
def ask [DecidableEq C] : Talk C R → Option C → Option (Talk C R)
  | t, none => some t
  | .ready (.call c next), some c' => if c = c' then some (.waiting c next) else none
  | _, some _ => none

/-- An event that brings a reply, if it does, needs a call that waits for it. -/
def hear : Talk C R → Option R → Option (Talk C R)
  | t, none => some t
  | .waiting _ next, some r => some (.ready (next r))
  | .ready _, some _ => none

end Talk

/-- A host of a script: what an event asks for it, what it answers, and what a call shows. -/
structure Host (σ ε C R O : Type) where
  step : σ → ε → Option σ
  asks : σ → ε → Option C
  answers : σ → ε → Option R
  shows : σ → ε → List O

namespace Host

/-- What is left of a script after some events that play it. -/
def leftover [DecidableEq C] (h : Host σ ε C R O) : Talk C R → σ → List ε → Option (Talk C R)
  | t, _, [] => some t
  | t, s, e :: es => (h.step s e).bind fun s' =>
    ((t.ask (h.asks s e)).bind fun t => t.hear (h.answers s e)).bind fun t => h.leftover t s' es

/-- What the calls show along a run. -/
def shownAlong (h : Host σ ε C R O) : σ → List ε → List O
  | _, [] => []
  | s, e :: es => (if (h.asks s e).isSome then h.shows s e else []) ++
    match h.step s e with
    | some s' => h.shownAlong s' es
    | none => []

/-- The calls that have returned along a run, with their replies; the first may have been made
before. -/
def exchanges (h : Host σ ε C R O) : Option C → σ → List ε → List (C × R)
  | _, _, [] => []
  | pending, s, e :: es =>
    match h.step s e with
    | none => []
    | some s' =>
      match (h.asks s e).or pending, h.answers s e with
      | some c, some r => (c, r) :: h.exchanges none s' es
      | pending, _ => h.exchanges pending s' es

end Host

/-- What a script says and is told in some environment, as far as it has come. -/
inductive Converses (serve : M → V → C → Served R O V) (allowed : M → Prop) :
    Script C R → V → List (C × R) → List O → Script C R → V → Prop
  | stop (sc : Script C R) (v : V) : Converses serve allowed sc v [] [] sc v
  | call {c : C} {next : R → Script C R} {v v' v'' : V} {m : M} {r : R} {os os' : List O}
    {xs : List (C × R)} {left : Script C R} (hm : allowed m) (hserve : serve m v c = ⟨r, os, v'⟩)
    (h : Converses serve allowed (next r) v' xs os' left v'') :
    Converses serve allowed (.call c next) v ((c, r) :: xs) (os ++ os') left v''

/-- Where a conversation can stand that begins with a call. -/
theorem Converses.of_call {serve : M → V → C → Served R O V} {allowed : M → Prop} {c : C}
    {next : R → Script C R} {v v' : V} {xs : List (C × R)} {os : List O} {left : Script C R}
    (h : Converses serve allowed (.call c next) v xs os left v') :
    xs = [] ∧ os = [] ∧ left = .call c next ∨
      ∃ m xs' os', allowed m ∧ xs = (c, (serve m v c).reply) :: xs' ∧
        os = (serve m v c).shown ++ os' ∧
        Converses serve allowed (next (serve m v c).reply) (serve m v c).view xs' os' left v' := by
  cases h with
  | stop => exact .inl ⟨rfl, rfl, rfl⟩
  | @call _ _ _ v₁ _ m r os os' xs _ hm hserve h =>
    refine .inr ⟨m, xs, os', hm, ?_, ?_, ?_⟩
    · rw [hserve]
    · rw [hserve]
    · rwa [hserve]

/-- Under a guard on the events, the script sees of the host what `rel` relates it to. Only
calls in `late` return with a later event. -/
structure Sees (h : Host σ ε C R O) (serve : M → V → C → Served R O V) (allowed : M → Prop)
    (late : C → Prop) (guard : σ → ε → Prop) (rel : σ → V → Prop) : Prop where
  other : ∀ {s e s' v}, guard s e → h.step s e = some s' → h.asks s e = none →
    h.answers s e = none → rel s v → rel s' v
  served : ∀ {s e s' v c r}, guard s e → h.step s e = some s' → h.asks s e = some c →
    h.answers s e = some r → rel s v →
    ∃ m v', allowed m ∧ serve m v c = ⟨r, h.shows s e, v'⟩ ∧ rel s' v'
  asked : ∀ {s e s' v c}, guard s e → h.step s e = some s' → h.asks s e = some c →
    h.answers s e = none → rel s v → late c ∧ h.shows s e = [] ∧ rel s' v
  heard : ∀ {s e s' v r}, guard s e → h.step s e = some s' → h.asks s e = none →
    h.answers s e = some r → rel s v →
    ∀ c, late c → ∃ m v', allowed m ∧ serve m v c = ⟨r, [], v'⟩ ∧ rel s' v'

section Sees
variable {h : Host σ ε C R O} {serve : M → V → C → Served R O V} {allowed : M → Prop}
  {late : C → Prop} {guard : σ → ε → Prop} {rel : σ → V → Prop} [DecidableEq C]

/-- What a script says and is told on its host it could say and be told alone. -/
theorem Sees.converses (hsees : Sees h serve allowed late guard rel) {t t' : Talk C R} {s s' : σ}
    {v : V} {es : List ε} (hlate : ∀ c ∈ t.pending, late c) (hguard : Along h.step guard s es)
    (hr : Runs.run h.step s es = some s') (hrel : rel s v) (hleft : h.leftover t s es = some t') :
    ∃ v', rel s' v' ∧ Converses serve allowed t.script v (h.exchanges t.pending s es)
      (h.shownAlong s es) t'.script v' := by
  induction es generalizing t s v with
  | nil =>
    obtain rfl : s = s' := by simpa [Runs.run] using hr
    obtain rfl : t = t' := by simpa [Host.leftover] using hleft
    exact ⟨v, hrel, .stop _ _⟩
  | cons e es ih =>
    obtain ⟨s₁, hstep, hr⟩ := run_cons_eq_some.mp hr
    have hrest := hguard.2 s₁ hstep
    have hnow := hguard.1
    simp only [Host.leftover, hstep, Option.bind_some] at hleft
    simp only [Host.exchanges, Host.shownAlong, hstep]
    cases hasks : h.asks s e with
    | none =>
      rw [hasks] at hleft
      simp only [Talk.ask, Option.bind_some] at hleft
      cases hanswers : h.answers s e with
      | none =>
        rw [hanswers] at hleft
        obtain ⟨v', hrel', hconv⟩ :=
          ih hlate hrest hr (hsees.other hnow hstep hasks hanswers hrel) hleft
        refine ⟨v', hrel', ?_⟩
        cases t <;> exact hconv
      | some r =>
        rw [hanswers] at hleft
        cases t with
        | ready sc => cases hleft
        | waiting c next =>
          obtain ⟨m, v₁, hm, hserve, hrel₁⟩ :=
            hsees.heard hnow hstep hasks hanswers hrel c (hlate c rfl)
          obtain ⟨v', hrel', hconv⟩ := ih (t := .ready (next r)) (by simp [Talk.pending]) hrest hr
            hrel₁ hleft
          exact ⟨v', hrel', .call hm hserve hconv⟩
    | some c =>
      rw [hasks] at hleft
      -- an event is a call only of a script that is about to make it
      obtain ⟨next, rfl⟩ : ∃ next, t = .ready (.call c next) := by
        cases t with
        | waiting c next => cases hleft
        | ready sc =>
          cases sc with
          | call c' next =>
            by_cases hc : c' = c
            · exact ⟨next, by rw [hc]⟩
            · rw [Talk.ask, if_neg hc] at hleft
              cases hleft
          | _ => cases hleft
      simp only [Talk.ask, if_true, Option.bind_some] at hleft
      cases hanswers : h.answers s e with
      | none =>
        rw [hanswers] at hleft
        obtain ⟨hc, hnone, hrel₁⟩ := hsees.asked hnow hstep hasks hanswers hrel
        obtain ⟨v', hrel', hconv⟩ := ih (t := .waiting c next)
          (by simpa [Talk.pending] using hc) hrest hr hrel₁ hleft
        rw [hnone]
        exact ⟨v', hrel', hconv⟩
      | some r =>
        rw [hanswers] at hleft
        obtain ⟨m, v₁, hm, hserve, hrel₁⟩ := hsees.served hnow hstep hasks hanswers hrel
        obtain ⟨v', hrel', hconv⟩ := ih (t := .ready (next r)) (by simp [Talk.pending]) hrest hr
          hrel₁ hleft
        exact ⟨v', hrel', .call hm hserve hconv⟩

end Sees

end Ece391.Support.Blocking
