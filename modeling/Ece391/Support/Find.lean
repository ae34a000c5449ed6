import Mathlib

/-! Linear search through an increasing list finds the smallest match. -/

namespace Ece391.Support

variable {α : Type*} [LinearOrder α] {p : α → Bool}

theorem find?_increasing {l : List α} (hl : l.Pairwise (· < ·)) {a : α} :
    l.find? p = some a ↔ a ∈ l ∧ p a = true ∧ ∀ b ∈ l, b < a → p b = false := by
  induction l with
  | nil => simp
  | cons c l ih =>
    obtain ⟨hc, hl⟩ := List.pairwise_cons.mp hl
    cases hp : p c with
    | true =>
      rw [List.find?_cons_of_pos hp, Option.some.injEq]
      constructor
      · rintro rfl
        refine ⟨List.mem_cons_self, hp, fun b hb hlt => ?_⟩
        rcases List.mem_cons.mp hb with rfl | hb
        · exact absurd hlt (lt_irrefl _)
        · exact absurd (hc b hb) (not_lt_of_gt hlt)
      · rintro ⟨ha, -, hmin⟩
        rcases List.mem_cons.mp ha with rfl | ha
        · rfl
        · rw [hmin c List.mem_cons_self (hc a ha)] at hp
          cases hp
    | false =>
      rw [List.find?_cons_of_neg (by simp [hp]), ih hl]
      constructor
      · rintro ⟨ha, hpa, hmin⟩
        refine ⟨List.mem_cons_of_mem _ ha, hpa, fun b hb hlt => ?_⟩
        rcases List.mem_cons.mp hb with rfl | hb
        · exact hp
        · exact hmin b hb hlt
      · rintro ⟨ha, hpa, hmin⟩
        refine ⟨?_, hpa, fun b hb => hmin b (List.mem_cons_of_mem _ hb)⟩
        rcases List.mem_cons.mp ha with rfl | ha
        · rw [hp] at hpa
          cases hpa
        · exact ha

end Ece391.Support
