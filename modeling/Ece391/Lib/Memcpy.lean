import Ece391.Support.Copying

/-! `memcpy` of `lib.c`, label by label: single bytes until the destination is aligned or
nothing is left, then `rep movsl`, then the bytes that do not fill a dword. The data
segments begin at address 0, so an offset is an address and `es` is as good as `ds`. -/

namespace Ece391.Lib.Memcpy

open Function (update)
open Support.Copying

/-- The registers that `memcpy` uses, the direction flag and the memory. -/
structure Cpu where
  al : UInt8
  ecx : UInt32
  edx : UInt32
  esi : UInt32
  edi : UInt32
  df : Bool
  mem : ℕ → UInt8

/-- The labels of the assembly, and the string instruction with its own loop. -/
inductive Label
  | memcpyTop
  | memcpyAligned
  | repMovsl
  | memcpyBottom
  | memcpyDone
  deriving DecidableEq

/-- The four bytes at an address. -/
def loadDword (mem : ℕ → UInt8) (addr : UInt32) : Fin 4 → UInt8 :=
  fun k => mem (addr + UInt32.ofNat k).toNat

def storeDword (mem : ℕ → UInt8) (addr : UInt32) (v : Fin 4 → UInt8) : ℕ → UInt8 :=
  (List.finRange 4).foldl (fun mem (k : Fin 4) => update mem (addr + UInt32.ofNat k).toNat (v k)) mem

/-- `movb (%esi), %al`, `movb %al, (%edi)` and the two additions. -/
def Cpu.moveByte (m : Cpu) : Cpu :=
  { m with
    al := m.mem m.esi.toNat
    mem := update m.mem m.edi.toNat (m.mem m.esi.toNat)
    edi := m.edi + 1
    esi := m.esi + 1 }

/-- `movsl`: the dword is read before any byte of it is written. -/
def Cpu.movsl (m : Cpu) : Cpu :=
  { m with
    mem := storeDword m.mem m.edi (loadDword m.mem m.esi)
    edi := if m.df then m.edi - 4 else m.edi + 4
    esi := if m.df then m.esi - 4 else m.esi + 4 }

/-- From a label to the next one. -/
def step (m : Cpu) : Label → Label × Cpu
  | .memcpyTop =>
    if m.ecx &&& m.ecx = 0 then (.memcpyDone, m)
    else if 0x3 &&& m.edi = 0 then (.memcpyAligned, m)
    else (.memcpyTop, { m.moveByte with ecx := m.ecx - 1 })
  -- `%dx` takes `%ds` to `%es` before `%edx` takes the count
  | .memcpyAligned => (.repMovsl, { m with edx := m.ecx &&& 0x3, ecx := m.ecx >>> 2, df := false })
  | .repMovsl =>
    if m.ecx = 0 then (.memcpyBottom, m) else (.repMovsl, { m.movsl with ecx := m.ecx - 1 })
  | .memcpyBottom =>
    if m.edx &&& m.edx = 0 then (.memcpyDone, m)
    else (.memcpyBottom, { m.moveByte with edx := m.edx - 1 })
  | .memcpyDone => (.memcpyDone, m)

/-- The steps up to `memcpy_done`, or `none` if `fuel` of them do not lead there. -/
def runFrom : (fuel : ℕ) → Label → Cpu → Option Cpu
  | 0, _, _ => none
  | _ + 1, .memcpyDone, m => some m
  | fuel + 1, l, m => runFrom fuel (step m l).1 (step m l).2

/-- `memcpy`: the returned pointer, and the machine behind the assembly. -/
def memcpy (fuel : ℕ) (m : Cpu) (dest src n : UInt32) : Option (UInt32 × Cpu) :=
  (runFrom fuel .memcpyTop { m with esi := src, edi := dest, ecx := n }).map (dest, ·)

/-! ### What is still to be copied -/

/-- The number of bytes that are still to be copied at a label. -/
def Label.left (m : Cpu) : Label → ℕ
  | .memcpyTop => m.ecx.toNat
  | .memcpyAligned => m.ecx.toNat
  | .repMovsl => 4 * m.ecx.toNat + m.edx.toNat
  | .memcpyBottom => m.edx.toNat
  | .memcpyDone => 0

/-- The number of labels ahead. -/
def Label.ahead : Label → ℕ
  | .memcpyTop => 4
  | .memcpyAligned => 3
  | .repMovsl => 2
  | .memcpyBottom => 1
  | .memcpyDone => 0

/-- `k` bytes are to go from `s` to `d`. The registers may be one past the last address. -/
structure Pending (m : Cpu) (d s k : ℕ) : Prop where
  edi : m.edi = UInt32.ofNat d
  esi : m.esi = UInt32.ofNat s
  dstFits : d + k ≤ 2 ^ 32
  srcFits : s + k ≤ 2 ^ 32
  upwards : Upwards d s k

/-- The first `c` bytes are in place, and copying the rest has the outcome of copying all. -/
def Moved (m m' : Cpu) (d s c k : ℕ) : Prop :=
  Pending m' (d + c) (s + c) k ∧ copied (d + c) (s + c) k m'.mem = copied d s (c + k) m.mem

section Moves
variable {m : Cpu} {d s k : ℕ}

theorem ofNat_toNat {a : ℕ} (h : a < 2 ^ 32) : (UInt32.ofNat a).toNat = a :=
  UInt32.toNat_ofNat_of_lt' h

/-- The four stores of a dword, whose bytes were read beforehand. -/
theorem storeDword_eq (mem : ℕ → UInt8) (hd : d + 4 ≤ 2 ^ 32) (hs : s + 4 ≤ 2 ^ 32) :
    storeDword mem (UInt32.ofNat d) (loadDword mem (UInt32.ofNat s)) = copied d s 4 mem := by
  have hload : ∀ k : Fin 4, loadDword mem (UInt32.ofNat s) k = mem (s + k) := fun k => by
    rw [loadDword, ← UInt32.ofNat_add, ofNat_toNat (by omega)]
  have hstore : ∀ k : Fin 4, (UInt32.ofNat d + UInt32.ofNat k).toNat = d + k := fun k => by
    rw [← UInt32.ofNat_add, ofNat_toNat (by omega)]
  have hfour : List.finRange 4 = [0, 1, 2, 3] := rfl
  simp only [storeDword, hload, hstore, hfour, List.foldl_cons, List.foldl_nil]
  funext a
  by_cases ha : d ≤ a ∧ a < d + 4
  · obtain ⟨i, rfl⟩ := Nat.exists_eq_add_of_le ha.1
    have hi : i < 4 := by omega
    rw [copied_inside mem hi]
    interval_cases i <;> simp
  · rw [copied_outside mem ha]
    rw [Function.update_of_ne, Function.update_of_ne, Function.update_of_ne, Function.update_of_ne]
    all_goals simp; omega

theorem Pending.moveByte (h : Pending m d s (1 + k)) : Moved m m.moveByte d s 1 k := by
  have hd := h.dstFits
  have hs := h.srcFits
  have hmem : m.moveByte.mem = copied d s 1 m.mem := by
    rw [Cpu.moveByte, copied_one, h.edi, h.esi, ofNat_toNat (by omega), ofNat_toNat (by omega)]
  refine ⟨⟨?_, ?_, by omega, by omega, h.upwards.tail⟩, ?_⟩
  · rw [UInt32.ofNat_add, ← h.edi]
    rfl
  · rw [UInt32.ofNat_add, ← h.esi]
    rfl
  · rw [hmem, copied_add h.upwards]

theorem Pending.movsl (h : Pending m d s (4 + k)) (hdf : m.df = false) : Moved m m.movsl d s 4 k := by
  have hd := h.dstFits
  have hs := h.srcFits
  have hmem : m.movsl.mem = copied d s 4 m.mem := by
    rw [Cpu.movsl, h.edi, h.esi, storeDword_eq m.mem (by omega) (by omega)]
  refine ⟨⟨?_, ?_, by omega, by omega, h.upwards.tail⟩, ?_⟩
  · rw [UInt32.ofNat_add, ← h.edi, Cpu.movsl, hdf]
    rfl
  · rw [UInt32.ofNat_add, ← h.esi, Cpu.movsl, hdf]
    rfl
  · rw [hmem, copied_add h.upwards]

/-- The counters play no part in a move. -/
theorem Moved.congr {m' m'' : Cpu} {c : ℕ} (h : Moved m m' d s c k) (hedi : m''.edi = m'.edi)
    (hesi : m''.esi = m'.esi) (hmem : m''.mem = m'.mem) : Moved m m'' d s c k := by
  obtain ⟨⟨hd, hs, hdst, hsrc, hup⟩, houtcome⟩ := h
  exact ⟨⟨hedi.trans hd, hesi.trans hs, hdst, hsrc, hup⟩, hmem ▸ houtcome⟩

end Moves

/-! ### One step and all of them -/

/-- Where the copy stands at a label. The string instruction runs upwards. -/
structure Standing (l : Label) (m : Cpu) (d s : ℕ) : Prop where
  pending : Pending m d s (l.left m)
  upward : l = .repMovsl → m.df = false

/-- The next label is nearer to the end and leads to the same outcome. -/
def Progresses (l : Label) (m : Cpu) (d s : ℕ) (l' : Label) (m' : Cpu) : Prop :=
  ∃ d' s', Standing l' m' d' s' ∧ copied d' s' (l'.left m') m'.mem = copied d s (l.left m) m.mem ∧
    l'.left m' + l'.ahead < l.left m + l.ahead

section Steps
variable {l l' : Label} {m m' : Cpu} {d s k : ℕ}

theorem counted {n : UInt32} (h : n ≠ 0) : n.toNat = 1 + (n - 1).toNat := by
  have hpos : n.toNat ≠ 0 := fun h0 => h (UInt32.toNat_inj.mp h0)
  have hone : (1 : UInt32).toNat = 1 := rfl
  have hle : 1 ≤ n := UInt32.le_iff_toNat_le.mpr (by omega)
  rw [UInt32.toNat_sub_of_le _ _ hle]
  omega

/-- A jump moves nothing. -/
theorem Standing.jump (h : Standing l m d s) (hleft : l'.left m' = l.left m) (hedi : m'.edi = m.edi)
    (hesi : m'.esi = m.esi) (hmem : m'.mem = m.mem) (hdf : l' = .repMovsl → m'.df = false)
    (hahead : l'.ahead < l.ahead) : Progresses l m d s l' m' := by
  obtain ⟨⟨hd, hs, hdst, hsrc, hup⟩, -⟩ := h
  refine ⟨d, s, ⟨⟨hedi.trans hd, hesi.trans hs, ?_, ?_, ?_⟩, hdf⟩, ?_, by omega⟩
  · rwa [hleft]
  · rwa [hleft]
  · rwa [hleft]
  · rw [hleft, hmem]

/-- A round of one of the three loops. -/
theorem Moved.progresses {c : ℕ} (hmoved : Moved m m' d s c (l.left m')) (hc : 0 < c)
    (hleft : l.left m = c + l.left m') (hdf : l = .repMovsl → m'.df = false) :
    Progresses l m d s l m' :=
  ⟨d + c, s + c, ⟨hmoved.1, hdf⟩, by rw [hleft, hmoved.2], by omega⟩

/-- A round of one of the loops that move bytes. -/
theorem Standing.byte (h : Standing l m d s) (hl : l ≠ .repMovsl) (hcount : l.left m = 1 + l.left m')
    (hedi : m'.edi = m.moveByte.edi) (hesi : m'.esi = m.moveByte.esi)
    (hmem : m'.mem = m.moveByte.mem) : Progresses l m d s l m' := by
  have hpending := h.pending
  rw [hcount] at hpending
  exact (hpending.moveByte.congr hedi hesi hmem).progresses Nat.one_pos hcount fun hrep => absurd hrep hl

/-- The dwords and the rest of them make up the count. -/
theorem dwords_add_rest (n : UInt32) : 4 * (n >>> 2).toNat + (n &&& 0x3).toNat = n.toNat := by
  have hrest : n.toNat &&& 3 = n.toNat % 4 := Nat.and_two_pow_sub_one_eq_mod n.toNat 2
  rw [UInt32.toNat_shiftRight, UInt32.toNat_and, show (2 : UInt32).toNat % 32 = 2 from rfl,
    show (0x3 : UInt32).toNat = 3 from rfl, Nat.shiftRight_eq_div_pow, hrest]
  omega

/-- One step, with a case for each label. -/
theorem Standing.step (h : Standing l m d s) (hl : l ≠ .memcpyDone) :
    Progresses l m d s (step m l).1 (step m l).2 := by
  cases l with
  | memcpyTop =>
    rw [Memcpy.step, UInt32.and_self]
    split_ifs with hzero halign
    · exact h.jump (by simp [Label.left, hzero]) rfl rfl rfl (by simp) (by simp [Label.ahead])
    · exact h.jump rfl rfl rfl rfl (by simp) (by simp [Label.ahead])
    · exact h.byte (by simp) (counted hzero) rfl rfl rfl
  | memcpyAligned =>
    exact h.jump (dwords_add_rest m.ecx) rfl rfl rfl (fun _ => rfl) (by simp [Memcpy.step, Label.ahead])
  | repMovsl =>
    rw [Memcpy.step]
    split_ifs with hzero
    · exact h.jump (by simp [Label.left, hzero]) rfl rfl rfl (by simp) (by simp [Label.ahead])
    · have hcount : 4 * m.ecx.toNat + m.edx.toNat = 4 + (4 * (m.ecx - 1).toNat + m.edx.toNat) := by
        rw [counted hzero]
        omega
      have hpending := h.pending
      rw [Label.left, hcount] at hpending
      refine Moved.progresses ?_ (by decide) hcount fun _ => h.upward rfl
      exact (hpending.movsl (h.upward rfl)).congr rfl rfl rfl
  | memcpyBottom =>
    rw [Memcpy.step, UInt32.and_self]
    split_ifs with hzero
    · exact h.jump (by simp [Label.left, hzero]) rfl rfl rfl (by simp) (by simp [Label.ahead])
    · exact h.byte (by simp) (counted hzero) rfl rfl rfl
  | memcpyDone => exact absurd rfl hl

theorem runFrom_done {fuel : ℕ} (hfuel : 0 < fuel) : runFrom fuel .memcpyDone m = some m := by
  obtain ⟨fuel, rfl⟩ := Nat.exists_eq_add_of_le' hfuel
  rfl

theorem runFrom_step {fuel : ℕ} (hl : l ≠ .memcpyDone) :
    runFrom (fuel + 1) l m = runFrom fuel (step m l).1 (step m l).2 := by
  cases l <;> first | rfl | exact absurd rfl hl

/-- All steps, by induction on the way that is left. -/
theorem Standing.runs (way : ℕ) (h : Standing l m d s) (hway : l.left m + l.ahead ≤ way) :
    ∃ m', (∀ fuel, way < fuel → runFrom fuel l m = some m') ∧
      m'.mem = copied d s (l.left m) m.mem := by
  induction way generalizing l m d s with
  | zero =>
    obtain rfl : l = .memcpyDone := by cases l <;> simp [Label.ahead] at hway ⊢
    exact ⟨m, fun fuel hfuel => runFrom_done hfuel, (copied_zero d s m.mem).symm⟩
  | succ way ih =>
    by_cases hl : l = .memcpyDone
    · subst hl
      exact ⟨m, fun fuel hfuel => runFrom_done (by omega), (copied_zero d s m.mem).symm⟩
    · obtain ⟨d', s', hnext, hsame, hnearer⟩ := h.step hl
      obtain ⟨m', hrun, hmem⟩ := ih hnext (by omega)
      refine ⟨m', fun fuel hfuel => ?_, hmem.trans hsame⟩
      obtain ⟨fuel, rfl⟩ := Nat.exists_eq_add_of_le' (Nat.one_le_of_lt hfuel)
      rw [runFrom_step hl, hrun fuel (by omega)]

end Steps

/-- Whatever the alignment, `memcpy` ends with the block copied in one piece. -/
theorem memcpy_eq (m : Cpu) (dest src n : UInt32) (hdest : dest.toNat + n.toNat ≤ 2 ^ 32)
    (hsrc : src.toNat + n.toNat ≤ 2 ^ 32) (hup : Upwards dest.toNat src.toNat n.toNat) :
    ∃ m', (∀ fuel, n.toNat + 5 ≤ fuel → memcpy fuel m dest src n = some (dest, m')) ∧
      m'.mem = copied dest.toNat src.toNat n.toNat m.mem := by
  have hstart : Standing .memcpyTop { m with esi := src, edi := dest, ecx := n } dest.toNat src.toNat :=
    ⟨⟨UInt32.ofNat_toNat.symm, UInt32.ofNat_toNat.symm, hdest, hsrc, hup⟩, by simp⟩
  obtain ⟨m', hrun, hmem⟩ := hstart.runs (n.toNat + 4) le_rfl
  refine ⟨m', fun fuel hfuel => ?_, hmem⟩
  rw [memcpy, hrun fuel hfuel]
  rfl

/-- `memcpy` between ranges inside the address space that are apart, or of which the
destination does not begin behind the source: it ends, every byte of the destination is the
one that was in the source, no other byte has changed, and the byte-by-byte copy would have
left the same memory. -/
theorem memcpy_copies_bytes (m : Cpu) (dest src n : UInt32) (hdest : dest.toNat + n.toNat ≤ 2 ^ 32)
    (hsrc : src.toNat + n.toNat ≤ 2 ^ 32)
    (hranges : dest.toNat + n.toNat ≤ src.toNat ∨ src.toNat + n.toNat ≤ dest.toNat ∨ dest ≤ src) :
    ∃ m', (∀ fuel, n.toNat + 5 ≤ fuel → memcpy fuel m dest src n = some (dest, m')) ∧
      (∀ i < n.toNat, m'.mem (dest.toNat + i) = m.mem (src.toNat + i)) ∧
      (∀ a, ¬ (dest.toNat ≤ a ∧ a < dest.toNat + n.toNat) → m'.mem a = m.mem a) ∧
      m'.mem = copyUp dest.toNat src.toNat n.toNat m.mem := by
  have hup : Upwards dest.toNat src.toNat n.toNat := by
    rw [UInt32.le_iff_toNat_le] at hranges
    unfold Upwards
    omega
  obtain ⟨m', hrun, hmem⟩ := memcpy_eq m dest src n hdest hsrc hup
  refine ⟨m', hrun, fun i hi => ?_, fun a ha => ?_, ?_⟩
  · rw [hmem, copied_inside m.mem hi]
  · rw [hmem, copied_outside m.mem ha]
  · rw [hmem, copyUp_eq hup]

/-- A machine whose memory counts and whose direction flag is set. -/
def countingCpu : Cpu := ⟨0, 0, 0, 0, 0, true, fun a => UInt8.ofNat a⟩

/-- Eleven bytes from address 6 to address 5: three up to the first dword of the destination
and two dwords, each of which overlaps its own source. -/
theorem memcpy_copies_bytes_overlapping :
    ∃ m', (∀ fuel, 16 ≤ fuel → memcpy fuel countingCpu 5 6 11 = some (5, m')) ∧
      (∀ i < 11, m'.mem (5 + i) = UInt8.ofNat (6 + i)) := by
  obtain ⟨m', hrun, hbytes, -⟩ :=
    memcpy_copies_bytes countingCpu 5 6 11 (by decide) (by decide) (.inr (.inr (by decide)))
  exact ⟨m', hrun, hbytes⟩

/-- The copy of `read_data`, which takes one byte at a time. -/
theorem memcpy_byte (m : Cpu) (dest src : UInt32) :
    ∃ m', (∀ fuel, 6 ≤ fuel → memcpy fuel m dest src 1 = some (dest, m')) ∧
      m'.mem = update m.mem dest.toNat (m.mem src.toNat) := by
  have hdest := dest.toNat_lt
  have hsrc := src.toNat_lt
  have hup : Upwards dest.toNat src.toNat 1 := by
    unfold Upwards
    omega
  obtain ⟨m', hrun, hmem⟩ := memcpy_eq m dest src 1 hdest hsrc hup
  exact ⟨m', hrun, hmem.trans (copied_one _ _ _)⟩

end Ece391.Lib.Memcpy
