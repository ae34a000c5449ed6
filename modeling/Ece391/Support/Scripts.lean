import Ece391.Support.Runs

/-! Programs that reach a system only through calls. A script makes a call and goes on with
the reply. Alone it meets an environment that makes a move before every call; in the system
its calls are some of the events of a run. If the other events leave alone what the script
sees, but for moves of the environment, then the script gets in the system what it gets
alone in some environment. -/

namespace Ece391.Support.Scripts

open Runs

variable {C R O M V σ ε : Type}

/-- A script, by what it does next; `spin` makes no call any more and does not end. -/
inductive Script (C R : Type)
  | exit (status : ℤ)
  | spin
  | call (c : C) (next : R → Script C R)

/-- The status of a script that has ended. -/
def Script.exited : Script C R → Option ℤ
  | .exit status => some status
  | _ => none

/-- The end of a script: its status, what its calls have shown, and what it sees then. -/
structure Outcome (O V : Type) where
  status : ℤ
  shown : List O
  view : V

def Outcome.after (l : List O) (o : Outcome O V) : Outcome O V := { o with shown := l ++ o.shown }

theorem Outcome.after_append (l l' : List O) (o : Outcome O V) :
    o.after (l ++ l') = (o.after l').after l := by
  simp only [Outcome.after, List.append_assoc]

/-- What a call does: the reply, what it shows, and what the script sees next. -/
structure Served (R O V : Type) where
  reply : R
  shown : List O
  view : V

theorem Script.exited_eq_some {sc : Script C R} {status : ℤ} (h : sc.exited = some status) :
    sc = .exit status := by
  cases sc with
  | exit s => exact congrArg Script.exit (Option.some.inj h)
  | _ => cases h

/-- An environment with one more move before the others. -/
def preceded (m : M) (w : ℕ → M) : ℕ → M
  | 0 => m
  | n + 1 => w n

/-- The script alone, in an environment that makes the move `w n` before the `n`-th call. -/
def Script.run (serve : M → V → C → Served R O V) : Script C R → (ℕ → M) → V → Option (Outcome O V)
  | .exit status, _, v => some ⟨status, [], v⟩
  | .spin, _, _ => none
  | .call c next, w, v =>
    let out := serve (w 0) v c
    ((next out.reply).run serve (fun n => w (n + 1)) out.view).map (Outcome.after out.shown)

/-- A client of a system: which events are calls of the client, what they are answered and
what they show. -/
structure Client (σ ε C R O : Type) where
  step : σ → ε → Option σ
  own : σ → ε → Option C
  reply : σ → ε → R
  shown : σ → ε → List O

namespace Client

/-- What is left of a script after some events, if the calls of the client among them are
those of the script. -/
def leftover [DecidableEq C] (cl : Client σ ε C R O) : Script C R → σ → List ε → Option (Script C R)
  | sc, _, [] => some sc
  | sc, s, e :: es => (cl.step s e).bind fun s' =>
    match cl.own s e, sc with
    | none, sc => cl.leftover sc s' es
    | some c, .call c' next => if c' = c then cl.leftover (next (cl.reply s e)) s' es else none
    | some _, _ => none

/-- What the calls of the client show along a run. -/
def shownAlong (cl : Client σ ε C R O) : σ → List ε → List O
  | _, [] => []
  | s, e :: es => (if (cl.own s e).isSome then cl.shown s e else []) ++
    match cl.step s e with
    | some s' => cl.shownAlong s' es
    | none => []

/-- Under a guard on the events, the client sees of the system what `rel` relates it to, and
the rest of the system makes only moves that are allowed. -/
structure Sees (cl : Client σ ε C R O) (serve : M → V → C → Served R O V) (allowed : M → Prop)
    (guard : σ → ε → Prop) (rel : σ → V → Prop) : Prop where
  other : ∀ {s e s' v}, guard s e → cl.step s e = some s' → cl.own s e = none → rel s v → rel s' v
  own : ∀ {s e s' v c}, guard s e → cl.step s e = some s' → cl.own s e = some c → rel s v →
    ∃ m v', allowed m ∧ serve m v c = ⟨cl.reply s e, cl.shown s e, v'⟩ ∧ rel s' v'

variable {cl : Client σ ε C R O} {serve : M → V → C → Served R O V} {allowed : M → Prop}
  {guard : σ → ε → Prop} {rel : σ → V → Prop}

variable [DecidableEq C]

/-- The script alone does what it did in the system, and then what is left of it. -/
theorem Sees.run_eq (h : Sees cl serve allowed guard rel) {sc sc' : Script C R} {s s' : σ} {v : V}
    {es : List ε} (hguard : Along cl.step guard s es) (hr : Runs.run cl.step s es = some s')
    (hrel : rel s v) (hleft : cl.leftover sc s es = some sc') {w' : ℕ → M}
    (hw' : ∀ n, allowed (w' n)) :
    ∃ w v', (∀ n, allowed (w n)) ∧ rel s' v' ∧
      sc.run serve w v = (sc'.run serve w' v').map (Outcome.after (cl.shownAlong s es)) := by
  induction es generalizing sc s v with
  | nil =>
    obtain rfl : s = s' := by simpa [Runs.run] using hr
    obtain rfl : sc = sc' := by simpa [leftover] using hleft
    exact ⟨w', v, hw', hrel, Option.map_id'.symm⟩
  | cons e es ih =>
    obtain ⟨m, hm, hr⟩ := run_cons_eq_some.mp hr
    simp only [leftover, hm, Option.bind_some] at hleft
    cases hown : cl.own s e with
    | none =>
      rw [hown] at hleft
      obtain ⟨w, v', hw, hrel', heq⟩ :=
        ih (hguard.2 m hm) hr (h.other hguard.1 hm hown hrel) hleft
      refine ⟨w, v', hw, hrel', ?_⟩
      simp only [heq, shownAlong, hown, hm, Option.isSome_none, Bool.false_eq_true, if_false,
        List.nil_append]
    | some c =>
      rw [hown] at hleft
      cases sc with
      | exit status => cases hleft
      | spin => cases hleft
      | call c' next =>
        dsimp only at hleft
        split_ifs at hleft with hc
        subst hc
        obtain ⟨a, v₁, ha, hserve, hrel₁⟩ := h.own hguard.1 hm hown hrel
        obtain ⟨w, v', hw, hrel', heq⟩ := ih (hguard.2 m hm) hr hrel₁ hleft
        -- the environment first makes the move that explains this call
        refine ⟨preceded a w, v', fun n => ?_, hrel', ?_⟩
        · cases n with
          | zero => exact ha
          | succ n => exact hw n
        · simp only [Script.run, preceded, hserve, heq, shownAlong, hown, hm, Option.isSome_some,
            if_true, Option.map_map]
          exact congrArg (Option.map · _) (funext fun o => (Outcome.after_append _ _ o).symm)

/-- What a script does in every environment it does in the system: it never spins, it has
shown part of what it shows in the end, and when it has ended it has shown all of it. -/
theorem Sees.outcome (h : Sees cl serve allowed guard rel) {sc sc' : Script C R} {s s' : σ} {v : V}
    {es : List ε} (hguard : Along cl.step guard s es) (hr : Runs.run cl.step s es = some s')
    (hrel : rel s v) (hleft : cl.leftover sc s es = some sc') {m : M} (hm : allowed m)
    (post : Outcome O V → Prop)
    (halone : ∀ w, (∀ n, allowed (w n)) → ∃ o, sc.run serve w v = some o ∧ post o) :
    (∃ o, post o ∧ cl.shownAlong s es <+: o.shown) ∧ sc' ≠ .spin ∧
      ∀ status, sc' = .exit status → ∃ v', rel s' v' ∧ post ⟨status, cl.shownAlong s es, v'⟩ := by
  obtain ⟨w, v', hw, hrel', heq⟩ := h.run_eq hguard hr hrel hleft (fun _ => hm)
  obtain ⟨o, ho, hpost⟩ := halone w hw
  rw [ho] at heq
  obtain ⟨o', ho', hafter⟩ := Option.map_eq_some_iff.mp heq.symm
  refine ⟨⟨o, hpost, o'.shown, by rw [← hafter]; rfl⟩, ?_, ?_⟩
  · rintro rfl
    cases ho'
  · rintro status rfl
    obtain rfl : Outcome.mk status [] v' = o' := Option.some.inj ho'
    refine ⟨v', hrel', ?_⟩
    rw [← hafter] at hpost
    simpa only [Outcome.after, List.append_nil] using hpost

end Client

/-! ### Scripts that show their memory

A call may come with what the script holds in a memory of its own. -/

section Memory
variable {A : Type} {cl : Client σ ε C R O} {serve : M → V → C → Served R O V} {allowed : M → Prop}
  {guard : σ → ε → Prop} {rel : σ → V → Prop} {seen : A → Prop} {ended : ℤ → Prop}

/-- At every call the memory of the script is as `seen` says, and the script ends with a status
that is as `ended` says, whatever moves the environment makes. -/
def Script.Always (serve : M → V → C → Served R O V) (allowed : M → Prop) (seen : A → Prop)
    (ended : ℤ → Prop) : Script (A × C) R → V → Prop
  | .exit status, _ => ended status
  | .spin, _ => False
  | .call c next, v => seen c.1 ∧ ∀ m, allowed m →
      (next (serve m v c.2).reply).Always serve allowed seen ended (serve m v c.2).view

/-- The same as `leftover`, the memory being nothing that the client knows of. -/
def Client.remaining [DecidableEq C] (cl : Client σ ε C R O) :
    Script (A × C) R → σ → List ε → Option (Script (A × C) R)
  | sc, _, [] => some sc
  | sc, s, e :: es => (cl.step s e).bind fun s' =>
    match cl.own s e, sc with
    | none, sc => cl.remaining sc s' es
    | some c, .call c' next => if c'.2 = c then cl.remaining (next (cl.reply s e)) s' es else none
    | some _, _ => none

/-- What a script keeps to alone, it keeps to in the system. -/
theorem Client.Sees.always [DecidableEq C] (h : cl.Sees serve allowed guard rel)
    {sc sc' : Script (A × C) R} {s s' : σ} {v : V} {es : List ε} (hguard : Along cl.step guard s es)
    (hr : Runs.run cl.step s es = some s') (hrel : rel s v) (hleft : cl.remaining sc s es = some sc')
    (halone : sc.Always serve allowed seen ended v) :
    ∃ v', rel s' v' ∧ sc'.Always serve allowed seen ended v' := by
  induction es generalizing sc s v with
  | nil =>
    obtain rfl : s = s' := by simpa [Runs.run] using hr
    obtain rfl : sc = sc' := by simpa [Client.remaining] using hleft
    exact ⟨v, hrel, halone⟩
  | cons e es ih =>
    obtain ⟨m, hm, hr⟩ := run_cons_eq_some.mp hr
    simp only [Client.remaining, hm, Option.bind_some] at hleft
    cases hown : cl.own s e with
    | none =>
      rw [hown] at hleft
      exact ih (hguard.2 m hm) hr (h.other hguard.1 hm hown hrel) hleft halone
    | some c =>
      rw [hown] at hleft
      cases sc with
      | exit status => cases hleft
      | spin => cases hleft
      | call c' next =>
        dsimp only at hleft
        split_ifs at hleft with hc
        subst hc
        obtain ⟨a, v₁, ha, hserve, hrel₁⟩ := h.own hguard.1 hm hown hrel
        have hnext := halone.2 a ha
        rw [hserve] at hnext
        exact ih (hguard.2 m hm) hr hrel₁ hleft hnext

end Memory

end Ece391.Support.Scripts
