import Mathlib

/-! Finite runs of a partial step function. A step may be refused, and a run
stops at the first event that is. The invariant rules come in two forms: for a
property that every step keeps, and for one that is kept only by steps whose
starting state and event meet a guard. -/

namespace Ece391.Support.Runs

variable {σ ε : Type*} {step : σ → ε → Option σ}

/-- The state after a list of events, or `none` once one of them is refused. -/
def run (step : σ → ε → Option σ) : σ → List ε → Option σ
  | s, [] => some s
  | s, e :: es => (step s e).bind fun s' => run step s' es

/-- The guard holds of every event of a run at the state the event meets. -/
def Along (step : σ → ε → Option σ) (guard : σ → ε → Prop) : σ → List ε → Prop
  | _, [] => True
  | s, e :: es => guard s e ∧ ∀ s', step s e = some s' → Along step guard s' es

theorem run_cons_eq_some {s s' : σ} {e : ε} {es : List ε} :
    run step s (e :: es) = some s' ↔ ∃ m, step s e = some m ∧ run step m es = some s' := by
  simp [run, Option.bind_eq_some_iff]

theorem run_append (s : σ) (es fs : List ε) :
    run step s (es ++ fs) = (run step s es).bind fun m => run step m fs := by
  induction es generalizing s with
  | nil => rfl
  | cons e es ih =>
    simp only [List.cons_append, run]
    cases step s e with
    | none => rfl
    | some m => exact ih m

theorem run_snoc {s m s' : σ} {es : List ε} {e : ε} (hr : run step s es = some m)
    (hs : step m e = some s') : run step s (es ++ [e]) = some s' := by
  rw [run_append, hr]
  simp [run, hs]

/-- A guarded invariant holds at the end of every guarded run. Each prefix of a
guarded run is one too, so this is a statement about every state reached. -/
theorem invariant_along {guard : σ → ε → Prop} (inv : σ → Prop)
    (hstep : ∀ s e s', guard s e → step s e = some s' → inv s → inv s')
    {es : List ε} {s s' : σ} (hg : Along step guard s es) (hr : run step s es = some s')
    (hs : inv s) : inv s' := by
  induction es generalizing s with
  | nil =>
    obtain rfl : s = s' := by simpa [run] using hr
    exact hs
  | cons e es ih =>
    obtain ⟨m, hm, hr⟩ := run_cons_eq_some.mp hr
    exact ih (hg.2 m hm) hr (hstep s e m hg.1 hm hs)

theorem Along.imp {guard guard' : σ → ε → Prop} (himp : ∀ s e, guard s e → guard' s e) {es : List ε}
    {s : σ} (h : Along step guard s es) : Along step guard' s es := by
  induction es generalizing s with
  | nil => trivial
  | cons e es ih => exact ⟨himp s e h.1, fun m hm => ih (h.2 m hm)⟩

theorem along_of_forall {guard : σ → ε → Prop} {es : List ε} (h : ∀ e ∈ es, ∀ s, guard s e) (s : σ) :
    Along step guard s es := by
  induction es generalizing s with
  | nil => trivial
  | cons e es ih =>
    obtain ⟨hfirst, hrest⟩ := List.forall_mem_cons.mp h
    exact ⟨hfirst s, fun m _ => ih hrest m⟩

theorem along_true (s : σ) (es : List ε) : Along step (fun _ _ => True) s es :=
  along_of_forall (fun _ _ _ => trivial) s

theorem invariant_run (inv : σ → Prop) (hstep : ∀ s e s', step s e = some s' → inv s → inv s')
    {es : List ε} {s s' : σ} (hr : run step s es = some s') (hs : inv s) : inv s' :=
  invariant_along inv (fun s e s' _ => hstep s e s') (along_true s es) hr hs

theorem along_append {guard : σ → ε → Prop} {es fs : List ε} {s : σ} :
    Along step guard s (es ++ fs) ↔
      Along step guard s es ∧ ∀ m, run step s es = some m → Along step guard m fs := by
  induction es generalizing s with
  | nil => simp [Along, run]
  | cons e es ih =>
    simp only [List.cons_append, Along, ih, run_cons_eq_some]
    constructor
    · rintro ⟨he, hrest⟩
      exact ⟨⟨he, fun m hm => (hrest m hm).1⟩, fun m' ⟨m, hm, hr⟩ => (hrest m hm).2 m' hr⟩
    · rintro ⟨⟨he, hes⟩, hfs⟩
      exact ⟨he, fun m hm => ⟨hes m hm, fun m' hr => hfs m' ⟨m, hm, hr⟩⟩⟩

/-- Two guards that agree where an invariant holds, and the steps that meet them keep it. -/
theorem along_congr {guard guard' : σ → ε → Prop} {inv : σ → Prop}
    (hiff : ∀ s e, inv s → (guard s e ↔ guard' s e))
    (hkeep : ∀ s e s', inv s → guard s e → step s e = some s' → inv s') {es : List ε} {s : σ}
    (hs : inv s) : Along step guard s es ↔ Along step guard' s es := by
  induction es generalizing s with
  | nil => exact Iff.rfl
  | cons e es ih =>
    constructor
    · rintro ⟨he, hrest⟩
      exact ⟨(hiff s e hs).mp he, fun m hm => (ih (hkeep s e m hs he hm)).mp (hrest m hm)⟩
    · rintro ⟨he, hrest⟩
      have hguard := (hiff s e hs).mpr he
      exact ⟨hguard, fun m hm => (ih (hkeep s e m hs hguard hm)).mpr (hrest m hm)⟩

/-- The steps that meet a guard; all others are refused. -/
def guarded (step : σ → ε → Option σ) (guard : σ → ε → Prop) [∀ s e, Decidable (guard s e)] (s : σ)
    (e : ε) : Option σ :=
  if guard s e then step s e else none

/-- A run of such steps is a run along which the guard holds. -/
theorem run_guarded_eq_some {guard : σ → ε → Prop} [∀ s e, Decidable (guard s e)] {s s' : σ}
    {es : List ε} :
    run (guarded step guard) s es = some s' ↔ run step s es = some s' ∧ Along step guard s es := by
  induction es generalizing s with
  | nil => simp [run, Along]
  | cons e es ih =>
    simp only [run_cons_eq_some, Along]
    constructor
    · rintro ⟨m, hm, hr⟩
      obtain ⟨hguard, hm⟩ : guard s e ∧ step s e = some m := by simpa [guarded] using hm
      obtain ⟨hr, hrest⟩ := ih.mp hr
      refine ⟨⟨m, hm, hr⟩, hguard, fun m' hm' => ?_⟩
      rwa [← Option.some.inj (hm.symm.trans hm')]
    · rintro ⟨⟨m, hm, hr⟩, hguard, hrest⟩
      exact ⟨m, by simp [guarded, hguard, hm], ih.mpr ⟨hr, hrest m hm⟩⟩

/-- A mark that some events set and no event takes away is there at the end of a run
just when it was there at the start or some event set it. -/
theorem marked_iff {marked : σ → Prop} {sets : σ → ε → Prop}
    (hstep : ∀ s e s', step s e = some s' → (marked s' ↔ marked s ∨ sets s e))
    {es : List ε} {s s' : σ} (hr : run step s es = some s') :
    marked s' ↔ marked s ∨ ¬ Along step (fun s e => ¬ sets s e) s es := by
  induction es generalizing s with
  | nil =>
    obtain rfl : s = s' := by simpa [run] using hr
    simp [Along]
  | cons e es ih =>
    obtain ⟨m, hm, hr⟩ := run_cons_eq_some.mp hr
    rw [ih hr, hstep s e m hm]
    simp only [Along, hm, Option.some.injEq, forall_eq', not_and_or, not_not]
    exact or_assoc

/-- If the steps that meet the guard keep a property and each of the others breaks it, then
the property holds in every state on the way just when the guard does. The runs may be
restricted to those along which `dom` holds, and the steps of these may rest on a further
invariant. -/
theorem along_iff {dom guard : σ → ε → Prop} {base good : σ → Prop}
    (hbase : ∀ s e s', dom s e → step s e = some s' → base s → base s')
    (hkeep : ∀ s e s', dom s e → base s → good s → guard s e → step s e = some s' → good s')
    (hbreak : ∀ s e, dom s e → base s → good s → ¬ guard s e → ∃ s', step s e = some s' ∧ ¬ good s')
    {es : List ε} {s : σ} (hdom : Along step dom s es) (hb : base s) (hs : good s) :
    (∀ es' s', es' <+: es → run step s es' = some s' → good s') ↔ Along step guard s es := by
  induction es generalizing s with
  | nil =>
    refine ⟨fun _ => trivial, fun _ es' s' hpre hr => ?_⟩
    rw [List.prefix_nil.mp hpre] at hr
    obtain rfl : s = s' := by simpa [run] using hr
    exact hs
  | cons e es ih =>
    obtain ⟨hd, hdom⟩ := hdom
    constructor
    · intro h
      have hnext : ∀ m, step s e = some m → good m := fun m hm =>
        h [e] m (by simp) (by simp [run, hm])
      refine ⟨?_, fun m hm => ?_⟩
      · by_contra hguard
        obtain ⟨m, hm, hbad⟩ := hbreak s e hd hb hs hguard
        exact hbad (hnext m hm)
      · refine (ih (hdom m hm) (hbase s e m hd hm hb) (hnext m hm)).mp fun es' s' hpre hr => ?_
        exact h (e :: es') s' (by simpa using hpre) (run_cons_eq_some.mpr ⟨m, hm, hr⟩)
    · rintro ⟨hguard, htail⟩ es' s' hpre hr
      cases es' with
      | nil =>
        obtain rfl : s = s' := by simpa [run] using hr
        exact hs
      | cons e' es' =>
        obtain ⟨rfl, hrest⟩ := List.cons_prefix_cons.mp hpre
        obtain ⟨m, hm, hr⟩ := run_cons_eq_some.mp hr
        have hgood := hkeep s e' m hd hb hs hguard hm
        exact (ih (hdom m hm) (hbase s e' m hd hm hb) hgood).mpr (htail m hm) es' s' hrest hr

/-- A loop over the numbers below `n`, by a property indexed with the rounds that are done. -/
theorem invariant_range {α : Type*} (inv : ℕ → α → Prop) {f : α → ℕ → α} {a : α} (n : ℕ)
    (hstart : inv 0 a) (hstep : ∀ i < n, ∀ a, inv i a → inv (i + 1) (f a i)) :
    inv n ((List.range n).foldl f a) := by
  induction n with
  | zero => exact hstart
  | succ n ih =>
    rw [List.range_succ, List.foldl_append]
    exact hstep n (Nat.lt_succ_self n) _ (ih fun i hi => hstep i (Nat.lt_succ_of_lt hi))

section Decide
variable {guard : σ → ε → Prop} [∀ s e, Decidable (guard s e)]

/-- A guarded run can be checked event by event. -/
instance decidableAlong : ∀ (s : σ) (es : List ε), Decidable (Along step guard s es)
  | _, [] => isTrue trivial
  | s, e :: es =>
    match hs : step s e with
    | none => decidable_of_iff (guard s e) (by simp [Along, hs])
    | some m =>
      have := decidableAlong m es
      decidable_of_iff (guard s e ∧ Along step guard m es) (by simp [Along, hs])

end Decide

/-- The end of a concrete run, by evaluation. -/
theorem run_eval (step : σ → ε → Option σ) (s : σ) (es : List ε) (p : σ → Prop) [DecidablePred p]
    (h : (run step s es).any (fun s' => decide (p s')) = true) :
    ∃ s', run step s es = some s' ∧ p s' := by
  cases hr : run step s es with
  | none => simp [hr] at h
  | some s' => exact ⟨s', rfl, by simpa [hr] using h⟩

end Ece391.Support.Runs
