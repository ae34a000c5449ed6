import Mathlib

/-! Chains of nodes linked by a partial successor map: a pointer is null or names
a node, whose successor is again such a pointer. The nodes met from a pointer
form a list when the chain ends. A node's successor may be rewritten without
disturbing the chains that do not pass through it. -/

namespace Ece391.Support

variable {α : Type*} {next next' : α → Option α} {o : Option α}

/-- The nodes met from a pointer, in order, up to a null successor. -/
def Linked (next : α → Option α) : Option α → List α → Prop
  | o, [] => o = none
  | o, a :: l => o = some a ∧ Linked next (next a) l

@[simp] theorem linked_nil : Linked next o [] ↔ o = none := Iff.rfl

@[simp] theorem linked_cons {a : α} {l : List α} :
    Linked next o (a :: l) ↔ o = some a ∧ Linked next (next a) l := Iff.rfl

theorem linked_none {l : List α} (h : Linked next none l) : l = [] := by
  cases l with
  | nil => rfl
  | cons a l => simp at h

theorem linked_some {a : α} {l : List α} (h : Linked next (some a) l) :
    ∃ m, l = a :: m ∧ Linked next (next a) m := by
  cases l with
  | nil => simp at h
  | cons b m =>
    obtain ⟨hb, hm⟩ := h
    obtain rfl : a = b := by simpa using hb
    exact ⟨m, rfl, hm⟩

/-- A chain is determined by its first pointer. -/
theorem linked_unique {l m : List α} (hl : Linked next o l) (hm : Linked next o m) : l = m := by
  induction l generalizing o m with
  | nil =>
    obtain rfl : o = none := hl
    exact (linked_none hm).symm
  | cons a l ih =>
    obtain ⟨rfl, hl⟩ := hl
    obtain ⟨m', rfl, ht⟩ := linked_some hm
    rw [ih hl ht]

/-- The end of a chain is itself a chain, from the node before it. -/
theorem linked_suffix {l m : List α} {a : α} (h : Linked next o (l ++ a :: m)) :
    Linked next (next a) m := by
  induction l generalizing o with
  | nil => exact h.2
  | cons b l ih => exact ih h.2

/-- No node is met twice: its tail would have to be shorter than itself. -/
theorem linked_nodup {l : List α} (h : Linked next o l) : l.Nodup := by
  induction l generalizing o with
  | nil => exact List.nodup_nil
  | cons a l ih =>
    refine List.nodup_cons.mpr ⟨fun ha => ?_, ih h.2⟩
    obtain ⟨u, v, rfl⟩ := List.append_of_mem ha
    have hv : Linked next (next a) v := linked_suffix h.2
    have hlen := congrArg List.length (linked_unique h.2 hv)
    simp only [List.length_append, List.length_cons] at hlen
    omega

/-- A chain only depends on the successors of its own nodes. -/
theorem linked_congr {l : List α} (h : Linked next o l) (he : ∀ a ∈ l, next' a = next a) :
    Linked next' o l := by
  induction l generalizing o with
  | nil => exact h
  | cons a l ih =>
    refine ⟨h.1, ?_⟩
    rw [he a (by simp)]
    exact ih h.2 (fun b hb => he b (by simp [hb]))

/-- A node that points at the old head makes the chain one longer. -/
theorem linked_push {l : List α} {a : α} (h : Linked next o l) (ha : next' a = o)
    (he : ∀ b ∈ l, next' b = next b) : Linked next' (some a) (a :: l) := by
  refine ⟨rfl, ?_⟩
  rw [ha]
  exact linked_congr h he

/-- A node is taken out when the one before it gets its successor. -/
theorem linked_unlink [DecidableEq α] {l m : List α} {a b : α} (h : Linked next o (l ++ a :: b :: m)) :
    Linked (Function.update next a (next b)) o (l ++ a :: m) := by
  have hnodup := linked_nodup h
  induction l generalizing o with
  | nil =>
    obtain ⟨ha, -, hm⟩ := h
    have hout : ∀ c ∈ m, Function.update next a (next b) c = next c := by
      rintro c hc
      refine Function.update_of_ne ?_ _ _
      rintro rfl
      simp [hc] at hnodup
    refine ⟨ha, ?_⟩
    rw [Function.update_self]
    exact linked_congr hm hout
  | cons c l ih =>
    obtain ⟨hc, h⟩ := h
    have hne : c ≠ a := by
      rintro rfl
      simp at hnodup
    refine ⟨hc, ?_⟩
    rw [Function.update_of_ne hne]
    exact ih h (List.nodup_cons.mp hnodup).2

theorem linked_head {l : List α} (h : Linked next o l) : o = l.head? := by
  cases l with
  | nil => exact h
  | cons a l => exact h.1

/-- A node's successor is the node behind it on the chain. -/
theorem linked_next {l m : List α} {a : α} (h : Linked next o (l ++ a :: m)) : next a = m.head? :=
  linked_head (linked_suffix h)

end Ece391.Support
