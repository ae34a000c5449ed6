import Mathlib

/-! Reading a finite content through a cursor. A read may deliver more than is
left, as long as the part inside the content is right, no element that was asked
for and is there is missing, and the cursor moves by exactly what was delivered.
Then any sequence of reads delivers a prefix of the content, whatever the sizes. -/

namespace Ece391.Support

variable {α : Type*} {content : List α}

/-- One read of `n` elements at a position. -/
structure Delivers (content : List α) (pos n : ℕ) (out : List α) : Prop where
  inside : out.take (content.length - pos) = (content.drop pos).take out.length
  enough : min n (content.length - pos) ≤ out.length
  bounded : out.length ≤ n

/-- What has been delivered by reads of `total` elements in all, from the start. -/
structure Progress (content : List α) (done : List α) (total : ℕ) : Prop where
  inside : done.take content.length = content.take done.length
  enough : min total content.length ≤ done.length
  bounded : done.length ≤ total

theorem progress_start (content : List α) : Progress content [] 0 := by
  constructor <;> simp

theorem Progress.read {done out : List α} {total n : ℕ} (hp : Progress content done total)
    (hd : Delivers content done.length n out) : Progress content (done ++ out) (total + n) := by
  obtain ⟨hin, hen, hbd⟩ := hp
  refine ⟨?_, ?_, ?_⟩
  · rw [List.take_append, hin, hd.inside, List.length_append, List.take_add]
  · have := hd.enough
    rw [List.length_append]
    omega
  · have := hd.bounded
    rw [List.length_append]
    omega

/-- Cut to the length of the content, the reads delivered its first elements. -/
theorem Progress.prefix_eq {done : List α} {total : ℕ} (hp : Progress content done total) :
    done.take content.length = content.take (min total content.length) := by
  have hen := hp.enough
  have hbd := hp.bounded
  rw [hp.inside]
  rcases Nat.le_total done.length content.length with h | h
  · rw [show min total content.length = done.length by omega]
  · rw [show min total content.length = content.length by omega, List.take_of_length_le h,
      List.take_length]

end Ece391.Support
