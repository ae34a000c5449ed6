import Mathlib

/-! Records in memory, one behind another. A memory is a function from addresses to bytes, and
a list lies at an address if the memory holds it from there on. Words are little-endian. -/

namespace Ece391.Support.Layout

/-- The memory holds a list from an address on. -/
def Lies (mem : ℕ → UInt8) (a : ℕ) (l : List UInt8) : Prop :=
  ∀ i (h : i < l.length), mem (a + i) = l[i]

/-- The word at an address. -/
def word (mem : ℕ → UInt8) (a : ℕ) : ℕ :=
  (mem a).toNat + 2 ^ 8 * (mem (a + 1)).toNat + 2 ^ 16 * (mem (a + 2)).toNat +
    2 ^ 24 * (mem (a + 3)).toNat

def wordBytes (w : ℕ) : List UInt8 :=
  [w.toUInt8, (w / 2 ^ 8).toUInt8, (w / 2 ^ 16).toUInt8, (w / 2 ^ 24).toUInt8]

/-- A record filled up to its size. -/
def padded (size : ℕ) (l : List UInt8) : List UInt8 := l ++ List.replicate (size - l.length) 0

theorem wordBytes_length (w : ℕ) : (wordBytes w).length = 4 := rfl

theorem padded_length {size : ℕ} {l : List UInt8} (h : l.length ≤ size) :
    (padded size l).length = size := by
  rw [padded, List.length_append, List.length_replicate]
  omega

theorem flatMap_length {ρ : Type*} {rs : List ρ} {enc : ρ → List UInt8} (size : ℕ)
    (hsize : ∀ r ∈ rs, (enc r).length = size) : (rs.flatMap enc).length = size * rs.length := by
  induction rs with
  | nil => rfl
  | cons r rs ih =>
    rw [List.flatMap_cons, List.length_append, hsize r (by simp),
      ih fun r' hr' => hsize r' (by simp [hr']), List.length_cons, Nat.mul_succ, Nat.add_comm]

section Lies
variable {mem : ℕ → UInt8} {a : ℕ} {l l' : List UInt8}

theorem Lies.left (h : Lies mem a (l ++ l')) : Lies mem a l := by
  intro i hi
  rw [h i (by rw [List.length_append]; omega), List.getElem_append_left hi]

theorem Lies.right (h : Lies mem a (l ++ l')) : Lies mem (a + l.length) l' := by
  intro i hi
  rw [Nat.add_assoc, h (l.length + i) (by rw [List.length_append]; omega),
    List.getElem_append_right (Nat.le_add_right _ _)]
  simp only [Nat.add_sub_cancel_left]

theorem Lies.append (h : Lies mem a l) (h' : Lies mem (a + l.length) l') : Lies mem a (l ++ l') := by
  intro i hi
  rw [List.getElem_append]
  split_ifs with hleft
  · exact h i hleft
  · obtain ⟨j, rfl⟩ := Nat.exists_eq_add_of_le (not_lt.mp hleft)
    rw [List.length_append] at hi
    simp only [Nat.add_sub_cancel_left, ← Nat.add_assoc]
    exact h' j (by omega)

/-- What fills up a record. -/
theorem Lies.padding {size : ℕ} (h : Lies mem a (padded size l)) {i : ℕ} (hlow : l.length ≤ i)
    (hhigh : i < size) : mem (a + i) = 0 := by
  obtain ⟨j, rfl⟩ := Nat.exists_eq_add_of_le hlow
  have hzero := h.right j (by rw [List.length_replicate]; omega)
  rw [List.getElem_replicate, Nat.add_assoc] at hzero
  exact hzero

theorem Lies.word {w : ℕ} (h : Lies mem a (wordBytes w)) (hw : w < 2 ^ 32) : word mem a = w := by
  have h0 : mem a = _ := h 0 (by simp [wordBytes])
  have h1 : mem (a + 1) = _ := h 1 (by simp [wordBytes])
  have h2 : mem (a + 2) = _ := h 2 (by simp [wordBytes])
  have h3 : mem (a + 3) = _ := h 3 (by simp [wordBytes])
  simp only [wordBytes, List.getElem_cons_zero, List.getElem_cons_succ] at h0 h1 h2 h3
  simp only [Layout.word, h0, h1, h2, h3, Nat.toUInt8_eq, UInt8.toNat_ofNat']
  omega

/-- A record in a row of records. -/
theorem Lies.flatMap {ρ : Type*} {rs : List ρ} {enc : ρ → List UInt8} (h : Lies mem a (rs.flatMap enc))
    {i : ℕ} (hi : i < rs.length) : Lies mem (a + ((rs.take i).flatMap enc).length) (enc rs[i]) := by
  have hsplit : rs.flatMap enc =
      (rs.take i).flatMap enc ++ (enc rs[i] ++ (rs.drop (i + 1)).flatMap enc) := by
    rw [← List.flatMap_cons, List.getElem_cons_drop, ← List.flatMap_append, List.take_append_drop]
  rw [hsplit] at h
  exact h.right.left

/-- A record in a row of records of one size. -/
theorem Lies.record {ρ : Type*} {rs : List ρ} {enc : ρ → List UInt8} {size : ℕ}
    (h : Lies mem a (rs.flatMap enc)) (hsize : ∀ r ∈ rs, (enc r).length = size) {i : ℕ}
    (hi : i < rs.length) : Lies mem (a + size * i) (enc rs[i]) := by
  have hlies := h.flatMap hi
  rwa [flatMap_length size fun r hr => hsize r (List.mem_of_mem_take hr), List.length_take,
    Nat.min_eq_left hi.le] at hlies

end Lies

/-- Blocks of one size from an address on, each filled up with zeros. -/
def blocksAt (size start : ℕ) (blocks : List (List UInt8)) (a : ℕ) : UInt8 :=
  (blocks.getD ((a - start) / size) []).getD ((a - start) % size) 0

theorem lies_blocksAt {size : ℕ} (start : ℕ) {blocks : List (List UInt8)}
    (h : ∀ b ∈ blocks, b.length ≤ size) :
    Lies (blocksAt size start blocks) start (blocks.flatMap (padded size)) := by
  -- the last block lies behind the others
  induction blocks using List.reverseRecOn with
  | nil => exact fun i hi => absurd hi (Nat.not_lt_zero i)
  | append_singleton blocks b ih =>
    have hlength : (blocks.flatMap (padded size)).length = size * blocks.length :=
      flatMap_length size fun c hc => padded_length (h c (List.mem_append_left _ hc))
    have hb : b.length ≤ size := h b (by simp)
    rw [List.flatMap_append, List.flatMap_singleton]
    refine Lies.append (fun i hi => ?_) fun i hi => ?_
    · rw [← ih (fun c hc => h c (List.mem_append_left _ hc)) i hi]
      have hblock : i / size < blocks.length := by
        rw [hlength] at hi
        exact Nat.div_lt_of_lt_mul hi
      simp only [blocksAt, Nat.add_sub_cancel_left, List.getD_append _ _ _ _ hblock]
    · rw [padded_length hb] at hi
      have hoffset : start + (blocks.flatMap (padded size)).length + i - start =
          i + size * blocks.length := by omega
      have hdiv : (i + size * blocks.length) / size = blocks.length := by
        rw [Nat.add_mul_div_left _ _ (by omega), Nat.div_eq_of_lt hi, Nat.zero_add]
      have hmod : (i + size * blocks.length) % size = i := by
        rw [Nat.add_mul_mod_self_left, Nat.mod_eq_of_lt hi]
      have hlast : (blocks ++ [b]).getD blocks.length [] = b := by simp
      simp only [blocksAt, hoffset, hdiv, hmod, hlast, padded, List.getElem_append]
      split_ifs with hin
      · exact List.getD_eq_getElem _ _ hin
      · rw [List.getElem_replicate, List.getD_eq_default _ _ (not_lt.mp hin)]

end Ece391.Support.Layout
