import Mathlib

/-! The string routines of `lib.c` on bytes in memory. A pointer is read as the
function from an index to the byte stored there. A NUL-terminated string is the
list of its bytes before the terminator, and `strncmp` on two of them compares
their first `n` bytes. -/

namespace Ece391.Lib

/-- A NUL-terminated string, by its bytes before the terminator. -/
structure CString where
  bytes : List UInt8
  noNul : ∀ b ∈ bytes, b ≠ 0

namespace CString

@[ext] theorem ext {s t : CString} (h : s.bytes = t.bytes) : s = t := by
  cases s; cases t; cases h; rfl

instance : DecidableEq CString := fun s t =>
  decidable_of_iff (s.bytes = t.bytes) ⟨ext, fun h => h ▸ rfl⟩

theorem noNul_of_all {l : List UInt8} (h : l.all (· != 0) = true) : ∀ b ∈ l, b ≠ 0 := by
  simpa using h

/-- The memory a string occupies. Nothing behind the terminator is ever read. -/
def mem (s : CString) (i : ℕ) : UInt8 := s.bytes.getD i 0

/-- The string held by a buffer: its bytes up to the first NUL. -/
def ofBuf (buf : List UInt8) : CString :=
  ⟨buf.takeWhile (· != 0), fun b hb => by simpa using List.mem_takeWhile_imp hb⟩

theorem ofBuf_bytes (s : CString) (rest : List UInt8) : ofBuf (s.bytes ++ 0 :: rest) = s := by
  apply ext
  have h : ∀ b ∈ s.bytes, (b != 0) = true := fun b hb => by simpa using s.noNul b hb
  simp [ofBuf, List.takeWhile_append_of_pos h]

end CString

/-- The bytes of a buffer read through a pointer to its start. -/
def bufMem (buf : List UInt8) (i : ℕ) : UInt8 := buf.getD i 0

/-- `strlen` on a buffer that holds a terminator. -/
def strlen : List UInt8 → ℕ
  | [] => 0
  | b :: bs => if b = 0 then 0 else 1 + strlen bs

/-- The comparison loop of `strncmp` from index `i` with `n` bytes to go. The
result is a difference of two `char`s, which are signed here. -/
def strncmpFrom (s1 s2 : ℕ → UInt8) : ℕ → ℕ → ℤ
  | _, 0 => 0
  | i, n + 1 =>
    if s1 i ≠ s2 i ∨ s1 i = 0 then (s1 i).toInt8.toInt - (s2 i).toInt8.toInt
    else strncmpFrom s1 s2 (i + 1) n

def strncmp (s1 s2 : ℕ → UInt8) (n : ℕ) : ℤ := strncmpFrom s1 s2 0 n

/-- The bytes `strcpy` stores, terminator included. -/
def strcpy (src : CString) : List UInt8 := src.bytes ++ [0]

/-- The bytes `strncpy` stores from index `i` with `n` to go: the string, then
NULs up to the count. -/
def strncpyFrom (src : ℕ → UInt8) : ℕ → ℕ → List UInt8
  | _, 0 => []
  | i, n + 1 => if src i = 0 then List.replicate (n + 1) 0 else src i :: strncpyFrom src (i + 1) n

def strncpy (src : ℕ → UInt8) (n : ℕ) : List UInt8 := strncpyFrom src 0 n

theorem strlen_eq (buf : List UInt8) : strlen buf = (CString.ofBuf buf).bytes.length := by
  induction buf with
  | nil => rfl
  | cons b bs ih =>
    simp only [strlen, CString.ofBuf, List.takeWhile_cons] at ih ⊢
    by_cases hb : b = 0
    · simp [hb]
    · simp [hb, ih, Nat.add_comm]

theorem char_sub_eq_zero {a b : UInt8} : a.toInt8.toInt - b.toInt8.toInt = 0 ↔ a = b := by
  rw [sub_eq_zero, Int8.toInt_inj]
  exact ⟨fun h => by rw [← UInt8.toUInt8_toInt8 a, h, UInt8.toUInt8_toInt8], fun h => h ▸ rfl⟩

theorem mem_drop_nil {s : CString} {i : ℕ} (h : s.bytes.drop i = []) : s.mem i = 0 := by
  rw [CString.mem, List.getD_eq_getElem?_getD,
    List.getElem?_eq_none (by simpa using List.drop_eq_nil_iff.mp h)]
  rfl

theorem mem_drop_cons {s : CString} {i : ℕ} {b : UInt8} {l : List UInt8}
    (h : s.bytes.drop i = b :: l) : s.mem i = b ∧ b ≠ 0 ∧ s.bytes.drop (i + 1) = l := by
  have hi : s.bytes[i]? = some b := by
    rw [← Nat.add_zero i, ← List.getElem?_drop, h]
    rfl
  refine ⟨?_, s.noNul b ?_, ?_⟩
  · rw [CString.mem, List.getD_eq_getElem?_getD, hi]
    rfl
  · exact List.mem_of_getElem? hi
  · rw [← List.tail_drop, h]
    rfl

/-- The loop finds no difference exactly when the next `n` bytes of the two
strings agree. -/
theorem strncmpFrom_eq_zero (s t : CString) (i n : ℕ) :
    strncmpFrom s.mem t.mem i n = 0 ↔ (s.bytes.drop i).take n = (t.bytes.drop i).take n := by
  induction n generalizing i with
  | zero => simp [strncmpFrom]
  | succ n ih =>
    simp only [strncmpFrom]
    rcases hs : s.bytes.drop i with _ | ⟨b, l⟩
    · have hb := mem_drop_nil hs
      rw [if_pos (Or.inr hb), char_sub_eq_zero, hb]
      rcases ht : t.bytes.drop i with _ | ⟨c, m⟩
      · simp [mem_drop_nil ht]
      · obtain ⟨hc, hc0, -⟩ := mem_drop_cons ht
        simp [hc, Ne.symm hc0]
    · obtain ⟨hb, hb0, hl⟩ := mem_drop_cons hs
      rcases ht : t.bytes.drop i with _ | ⟨c, m⟩
      · have hc := mem_drop_nil ht
        rw [if_pos (Or.inl (by rw [hb, hc]; exact hb0)), char_sub_eq_zero, hb, hc]
        simp [hb0]
      · obtain ⟨hc, -, hm⟩ := mem_drop_cons ht
        by_cases hbc : b = c
        · subst hbc
          rw [if_neg (by rw [hb, hc]; simp [hb0]), ih, hl, hm]
          simp
        · rw [if_pos (Or.inl (by rw [hb, hc]; exact hbc)), char_sub_eq_zero, hb, hc]
          simp [hbc]

theorem strncmp_eq_zero (s t : CString) (n : ℕ) :
    strncmp s.mem t.mem n = 0 ↔ s.bytes.take n = t.bytes.take n := by
  simpa [strncmp] using strncmpFrom_eq_zero s t 0 n

/-- Against bytes none of which is NUL the loop compares whatever the memory holds. -/
theorem strncmpFrom_memory (s1 s2 : ℕ → UInt8) (i n : ℕ) (h : ∀ j < n, s2 (i + j) ≠ 0) :
    strncmpFrom s1 s2 i n = 0 ↔ ∀ j < n, s1 (i + j) = s2 (i + j) := by
  induction n generalizing i with
  | zero => simp [strncmpFrom]
  | succ n ih =>
    have hshift : ∀ j, i + 1 + j = i + (j + 1) := fun j => by omega
    have htail := ih (i + 1) fun j hj => hshift j ▸ h (j + 1) (by omega)
    simp only [hshift] at htail
    rw [Nat.forall_lt_succ_left, ← htail, Nat.add_zero]
    have hne : s2 i ≠ 0 := h 0 (by omega)
    rw [strncmpFrom]
    by_cases hi : s1 i = s2 i
    · rw [if_neg (by simp [hi, hne])]
      simp [hi]
    · rw [if_pos (.inl hi), char_sub_eq_zero]
      simp [hi]

theorem take_eq_take_iff {k l : List UInt8} {n : ℕ} (h : l.length < n) :
    k.take n = l.take n ↔ k = l := by
  rw [List.take_of_length_le h.le]
  constructor
  · intro he
    have hlen := congrArg List.length he
    rw [List.length_take] at hlen
    rwa [List.take_of_length_le (by omega)] at he
  · rintro rfl
    exact List.take_of_length_le h.le

/-- A count beyond the length of one string makes `strncmp` decide equality. -/
theorem strncmp_eq_zero_of_lt_right (s t : CString) {n : ℕ} (h : t.bytes.length < n) :
    strncmp s.mem t.mem n = 0 ↔ s = t := by
  rw [strncmp_eq_zero, take_eq_take_iff h]
  exact ⟨CString.ext, fun he => he ▸ rfl⟩

theorem strncmp_eq_zero_of_lt_left (s t : CString) {n : ℕ} (h : s.bytes.length < n) :
    strncmp s.mem t.mem n = 0 ↔ s = t := by
  rw [strncmp_eq_zero, eq_comm, take_eq_take_iff h]
  exact ⟨fun he => (CString.ext he).symm, fun he => he ▸ rfl⟩

theorem strncpyFrom_eq (l : List UInt8) (i n : ℕ) (h : (l.drop i).length = n) :
    strncpyFrom (bufMem l) i n = ((l.drop i).takeWhile (· != 0)) ++
      List.replicate (n - ((l.drop i).takeWhile (· != 0)).length) 0 := by
  induction n generalizing i with
  | zero => simp [strncpyFrom, List.length_eq_zero_iff.mp h]
  | succ n ih =>
    rcases hd : l.drop i with _ | ⟨b, m⟩
    · simp [hd] at h
    · have hb : bufMem l i = b := by
        rw [bufMem, List.getD_eq_getElem?_getD, ← Nat.add_zero i, ← List.getElem?_drop, hd]
        rfl
      have hm : l.drop (i + 1) = m := by rw [← List.tail_drop, hd]; rfl
      simp only [strncpyFrom, hb, List.takeWhile_cons]
      by_cases h0 : b = 0
      · simp [h0]
      · have hlen : (l.drop (i + 1)).length = n := by simpa [hm, hd] using h
        simp [h0, ih (i + 1) hlen, hm]

/-- `strncpy` of a whole field is its string padded with NULs. -/
theorem strncpy_eq (l : List UInt8) :
    strncpy (bufMem l) l.length = (CString.ofBuf l).bytes ++
      List.replicate (l.length - (CString.ofBuf l).bytes.length) 0 := by
  simpa [strncpy, CString.ofBuf] using strncpyFrom_eq l 0 l.length (by simp)

theorem strncpyFrom_string (s : CString) (i n : ℕ) :
    strncpyFrom s.mem i n = (s.bytes.drop i).take n ++
      List.replicate (n - (s.bytes.drop i).length) 0 := by
  induction n generalizing i with
  | zero => simp [strncpyFrom]
  | succ n ih =>
    rcases hd : s.bytes.drop i with _ | ⟨b, l⟩
    · rw [strncpyFrom, if_pos (mem_drop_nil hd)]
      simp
    · obtain ⟨hb, hb0, hl⟩ := mem_drop_cons hd
      rw [strncpyFrom, hb, if_neg hb0, ih, hl]
      simp

/-- `strncpy` of a string: as much of it as fits, then NULs up to the count. -/
theorem strncpy_string (s : CString) (n : ℕ) :
    strncpy s.mem n = s.bytes.take n ++ List.replicate (n - s.bytes.length) 0 := by
  simpa [strncpy] using strncpyFrom_string s 0 n

/-- Padding a string with NULs does not change what is read through its pointer. -/
theorem bufMem_padded (s : CString) (n : ℕ) :
    bufMem (s.bytes ++ List.replicate n 0) = s.mem := by
  funext i
  rw [bufMem, CString.mem]
  by_cases hi : i < s.bytes.length
  · rw [List.getD_append _ _ _ _ hi]
  · rw [List.getD_append_right _ _ _ _ (by omega), List.getD_eq_getElem?_getD,
      List.getD_eq_getElem?_getD, List.getElem?_eq_none (by omega : s.bytes.length ≤ i)]
    rcases Nat.lt_or_ge (i - s.bytes.length) n with h | h
    · rw [List.getElem?_replicate_of_lt h]
      rfl
    · rw [List.getElem?_eq_none (by simpa using h)]

theorem strlen_padded (s : CString) (n : ℕ) :
    strlen (s.bytes ++ List.replicate (n + 1) 0) = s.bytes.length := by
  rw [strlen_eq, List.replicate_succ, CString.ofBuf_bytes]

end Ece391.Lib
