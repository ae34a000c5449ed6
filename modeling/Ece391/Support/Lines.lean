import Mathlib

/-! Texts as lines between separators, and the selection of some of the lines. A text may
be taken in two parts whenever the cut does not fall inside a line. A cut inside a line
leaves two lines for one. -/

namespace Ece391.Support.Lines

variable {α : Type*} [DecidableEq α] {sep : α}

/-- The selected lines of a text, in its order. -/
def selected (sep : α) (p : List α → Bool) (t : List α) : List (List α) := (t.splitOn sep).filter p

/-- One line, if it is selected. -/
def alone (p : List α → Bool) (l : List α) : List (List α) := if p l then [l] else []

/-- What stands behind the last separator. -/
def unfinished (sep : α) (t : List α) : List α := t.rtakeWhile (· != sep)

/-- What stands before the first separator. -/
def opening (sep : α) (t : List α) : List α := t.takeWhile (· != sep)

/-- The cut between two texts does not fall inside a line. -/
def Between (sep : α) (a b : List α) : Prop :=
  a = [] ∨ a.getLast? = some sep ∨ b = [] ∨ b.head? = some sep

/-- No line is longer than `n`. -/
def ShortLines (sep : α) (n : ℕ) (t : List α) : Prop := ∀ l ∈ t.splitOn sep, l.length ≤ n

/-- A text is a line, or it begins with a line and a separator. -/
theorem lines_induction (sep : α) {P : List α → Prop} (last : ∀ u, sep ∉ u → P u)
    (line : ∀ a b, sep ∉ a → P b → P (a ++ sep :: b)) (t : List α) : P t := by
  induction hn : t.length using Nat.strong_induction_on generalizing t with
  | _ n ih =>
    by_cases ht : sep ∈ t
    · obtain ⟨a, b, rfl, ha⟩ := List.eq_append_cons_of_mem ht
      exact line a b ha (ih b.length (by simp at hn; omega) b rfl)
    · exact last t ht

section Selection
variable {p : List α → Bool} {a b t : List α}

theorem selected_line (h : sep ∉ t) : selected sep p t = alone p t := by
  rw [selected, List.splitOn_eq_singleton h, alone, List.filter_singleton]
  cases p t <;> rfl

theorem selected_append_cons (a b : List α) :
    selected sep p (a ++ sep :: b) = selected sep p a ++ selected sep p b := by
  rw [selected, List.splitOn_append_cons_self, List.filter_append]
  rfl

theorem selected_nil (hp : p [] = false) : selected sep p [] = [] := by
  rw [selected_line List.not_mem_nil, alone, hp]
  rfl

/-- Where no line is cut the parts have the lines of the whole. -/
theorem selected_append (hp : p [] = false) (h : Between sep a b) :
    selected sep p (a ++ b) = selected sep p a ++ selected sep p b := by
  rcases h with rfl | ha | rfl | hb
  · rw [selected_nil hp, List.nil_append, List.nil_append]
  · obtain ⟨a, rfl⟩ := List.getLast?_eq_some_iff.mp ha
    rw [List.append_assoc, List.singleton_append, selected_append_cons, selected_append_cons,
      selected_nil hp, List.append_nil]
  · rw [selected_nil hp, List.append_nil, List.append_nil]
  · obtain ⟨b, rfl⟩ := List.head?_eq_some_iff.mp hb
    rw [selected_append_cons, ← List.nil_append (sep :: b), selected_append_cons, selected_nil hp]
    rfl

end Selection

/-! ### The ends of a text -/

section Ends
variable {a b t : List α}

theorem unfinished_line (h : sep ∉ t) : unfinished sep t = t := by
  rw [unfinished, List.rtakeWhile_eq_self_iff]
  intro x hx
  have hne : x ≠ sep := fun he => h (he ▸ hx)
  simpa using hne

theorem not_mem_unfinished (t : List α) : sep ∉ unfinished sep t := fun h => by
  simpa using List.mem_rtakeWhile_imp h

theorem not_mem_opening (t : List α) : sep ∉ opening sep t := fun h => by
  simpa using List.mem_takeWhile_imp h

theorem unfinished_append_cons (a b : List α) : unfinished sep (a ++ sep :: b) = unfinished sep b := by
  unfold unfinished
  induction b using List.reverseRecOn with
  | nil =>
    rw [List.rtakeWhile_concat_neg]
    · rfl
    · simp
  | append_singleton b x ih =>
    rw [← List.cons_append, ← List.append_assoc, List.rtakeWhile_concat, List.rtakeWhile_concat, ih]

/-- The part before the unfinished line is empty or ends a line. -/
theorem finished_unfinished (sep : α) (t : List α) :
    ∃ a, t = a ++ unfinished sep t ∧ (a = [] ∨ a.getLast? = some sep) := by
  refine ⟨t.rdropWhile (· != sep), List.rdropWhile_append_rtakeWhile.symm, ?_⟩
  by_cases ha : t.rdropWhile (· != sep) = []
  · exact .inl ha
  · have hlast := List.rdropWhile_last_not _ _ ha
    right
    rw [List.getLast?_eq_some_getLast ha]
    simpa using hlast

theorem opening_rest (sep : α) (t : List α) :
    ∃ b, t = opening sep t ++ b ∧ (b = [] ∨ b.head? = some sep) := by
  refine ⟨t.dropWhile (· != sep), List.takeWhile_append_dropWhile.symm, ?_⟩
  cases hb : t.dropWhile (· != sep) with
  | nil => exact .inl rfl
  | cons x b =>
    have hhead := List.head?_dropWhile_not (· != sep) t
    rw [hb] at hhead
    simpa using hhead

end Ends

section Cut
variable {p : List α → Bool}

/-- A cut makes two lines of the one it falls in. -/
theorem selected_cut (hp : p [] = false) (a b : List α) :
    ∃ before after,
      selected sep p a = before ++ alone p (unfinished sep a) ∧
      selected sep p b = alone p (opening sep b) ++ after ∧
      selected sep p (a ++ b) = before ++ alone p (unfinished sep a ++ opening sep b) ++ after := by
  obtain ⟨a', ha, hends⟩ := finished_unfinished sep a
  obtain ⟨b', hb, hbegins⟩ := opening_rest sep b
  set u := unfinished sep a with hu
  set v := opening sep b with hv
  have hu' : sep ∉ u := not_mem_unfinished a
  have hv' : sep ∉ v := not_mem_opening b
  have huv : sep ∉ u ++ v := by
    rw [List.mem_append]
    exact not_or.mpr ⟨hu', hv'⟩
  have hbetween : ∀ t, Between sep a' t := fun t => hends.imp id .inl
  have hbetween' : ∀ t, Between sep t b' := fun t => .inr (.inr hbegins)
  refine ⟨selected sep p a', selected sep p b', ?_, ?_, ?_⟩
  · rw [ha, selected_append hp (hbetween _), selected_line hu']
  · rw [hb, selected_append hp (hbetween' _), selected_line hv']
  · rw [ha, hb, List.append_assoc, selected_append hp (hbetween _), ← List.append_assoc u,
      selected_append hp (hbetween' _), selected_line huv, List.append_assoc]

end Cut

/-! ### Lengths -/

section Lengths
variable {n : ℕ} {a b t : List α}

theorem ShortLines.tail {x : α} (h : ShortLines sep n (x :: t)) : ShortLines sep n t := by
  intro l hl
  rw [ShortLines, List.splitOn_cons_eq_if_modifyHead] at h
  split_ifs at h with hx
  · exact h l (List.mem_cons_of_mem _ hl)
  · obtain ⟨m, ms, hm⟩ := List.exists_cons_of_ne_nil (List.splitOn_ne_nil sep t)
    rw [hm, List.modifyHead_cons] at h
    rw [hm] at hl
    rcases List.mem_cons.mp hl with rfl | hl
    · have := h _ List.mem_cons_self
      rw [List.length_cons] at this
      omega
    · exact h l (List.mem_cons_of_mem _ hl)

theorem ShortLines.right (h : ShortLines sep n (a ++ b)) : ShortLines sep n b := by
  induction a with
  | nil => exact h
  | cons x a ih => exact ih h.tail

theorem ShortLines.opening_le (h : ShortLines sep n t) : (opening sep t).length ≤ n := by
  obtain ⟨b, ht, hb⟩ := opening_rest sep t
  have hline : sep ∉ opening sep t := not_mem_opening t
  have hsplit : opening sep t ∈ (opening sep t ++ b).splitOn sep := by
    rcases hb with rfl | hb
    · rw [List.append_nil, List.splitOn_eq_singleton hline]
      exact List.mem_singleton_self _
    · obtain ⟨b, rfl⟩ := List.head?_eq_some_iff.mp hb
      rw [List.splitOn_append_cons_self_of_not_mem hline]
      exact List.mem_cons_self
  rw [← ht] at hsplit
  exact h _ hsplit

/-- A line of the greatest length is not cut at its end. -/
theorem ShortLines.between (h : ShortLines sep n (a ++ b)) (ha : sep ∉ a) (hlen : a.length = n) :
    Between sep a b := by
  have hopening : opening sep (a ++ b) = a ++ opening sep b :=
    List.takeWhile_append_of_pos fun x hx => by
      have hne : x ≠ sep := fun he => ha (he ▸ hx)
      simpa using hne
  have hle := h.opening_le
  rw [hopening, List.length_append] at hle
  have hnil : opening sep b = [] := List.length_eq_zero_iff.mp (by omega)
  obtain ⟨b', hb, hbegins⟩ := opening_rest sep b
  rw [hnil, List.nil_append] at hb
  exact .inr (.inr (hb ▸ hbegins))

end Lengths

end Ece391.Support.Lines
