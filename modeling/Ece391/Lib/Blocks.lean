import Ece391.Lib.Memcpy
import Ece391.Support.Filling

/-! The other block routines of `lib.c`: `memset`, label by label like `memcpy`, and
`memset_word`, `memset_dword` and `memmove`, whose work is one repeated string
instruction. Each of them clears the direction flag first, and `memmove` may leave it set. -/

namespace Ece391.Lib.Blocks

open Function (update)
open Memcpy Support.Copying Support.Filling

/-- `movw %ds, %dx` and `movw %dx, %es`. The selector is that of the kernel's data. -/
def loadEs (m : Cpu) : Cpu := { m with edx := m.edx &&& 0xFFFF0000 ||| 0x18 }

/-- The bytes of a register, the lowest first. -/
def byteOf (eax : UInt32) (i : ℕ) : UInt8 := (eax >>> UInt32.ofNat (8 * i)).toUInt8

/-- The stores of `size` bytes of a register. -/
def storeBytes (mem : ℕ → UInt8) (addr : UInt32) (size : ℕ) (v : ℕ → UInt8) : ℕ → UInt8 :=
  (List.range size).foldl (fun mem k => update mem (addr + UInt32.ofNat k).toNat (v k)) mem

/-- `stosw` and `stosl`. -/
def stos (size : ℕ) (eax : UInt32) (m : Cpu) : Cpu :=
  { m with
    mem := storeBytes m.mem m.edi size (byteOf eax)
    edi := if m.df then m.edi - UInt32.ofNat size else m.edi + UInt32.ofNat size }

/-- `movsb`, which does not go through `%al`. -/
def movsb (m : Cpu) : Cpu :=
  { m with
    mem := update m.mem m.edi.toNat (m.mem m.esi.toNat)
    edi := if m.df then m.edi - 1 else m.edi + 1
    esi := if m.df then m.esi - 1 else m.esi + 1 }

/-- One round of a repeated string instruction, and all of them. -/
def repStep (op : Cpu → Cpu) (m : Cpu) : Cpu := { op m with ecx := m.ecx - 1 }

def rep (op : Cpu → Cpu) (fuel : ℕ) (m : Cpu) : Option Cpu :=
  runTo (repStep op) (fun m => m.ecx = 0) fuel m

/-! ### The routines -/

/-- The labels of `memset`. -/
inductive Label
  | memsetTop
  | memsetAligned
  | repStosl
  | memsetBottom
  | memsetDone
  deriving DecidableEq

/-- `movb %al, (%edi)` and `addl $1, %edi`. -/
def stosByte (m : Cpu) : Cpu := { m with mem := update m.mem m.edi.toNat m.al, edi := m.edi + 1 }

/-- From a label of `memset` to the next one; no instruction changes `%eax`. -/
def memsetStep (eax : UInt32) : Label × Cpu → Label × Cpu
  | (.memsetTop, m) =>
    if m.ecx &&& m.ecx = 0 then (.memsetDone, m)
    else if 0x3 &&& m.edi = 0 then (.memsetAligned, m)
    else (.memsetTop, { stosByte m with ecx := m.ecx - 1 })
  -- `%dx` takes `%ds` to `%es` before `%edx` takes the count
  | (.memsetAligned, m) => (.repStosl, { m with edx := m.ecx &&& 0x3, ecx := m.ecx >>> 2, df := false })
  | (.repStosl, m) => if m.ecx = 0 then (.memsetBottom, m) else (.repStosl, repStep (stos 4 eax) m)
  | (.memsetBottom, m) =>
    if m.edx &&& m.edx = 0 then (.memsetDone, m)
    else (.memsetBottom, { stosByte m with edx := m.edx - 1 })
  | (.memsetDone, m) => (.memsetDone, m)

/-- The byte `c` in all four places of `%eax`. -/
def spread (c : UInt32) : UInt32 := c <<< 24 ||| c <<< 16 ||| c <<< 8 ||| c

def memset (fuel : ℕ) (m : Cpu) (s c n : UInt32) : Option (UInt32 × Cpu) :=
  let eax := spread (c &&& 0xFF)
  let start := (Label.memsetTop, { m with al := eax.toUInt8, edi := s, ecx := n })
  (runTo (memsetStep eax) (fun lm => lm.1 = .memsetDone) fuel start).map fun lm => (s, lm.2)

/-- `memset_word` and `memset_dword`, by the size of what is stored. -/
def memsetUnits (size fuel : ℕ) (m : Cpu) (s c n : UInt32) : Option (UInt32 × Cpu) :=
  let m := { m with al := c.toUInt8, edi := s, ecx := n }
  (rep (stos size c) fuel { loadEs m with df := false }).map (s, ·)

def memsetWord (fuel : ℕ) (m : Cpu) (s c n : UInt32) : Option (UInt32 × Cpu) :=
  memsetUnits 2 fuel m s c n

def memsetDword (fuel : ℕ) (m : Cpu) (s c n : UInt32) : Option (UInt32 × Cpu) :=
  memsetUnits 4 fuel m s c n

/-- `memmove` up to the string instruction: upwards unless the source begins below the
destination. -/
def memmoveGo (m : Cpu) (dest src n : UInt32) : Cpu :=
  let m := { loadEs { m with edi := dest, esi := src, ecx := n } with df := false }
  if m.edi ≤ m.esi then m
  else { m with esi := m.esi + m.ecx - 1, edi := m.edi + m.ecx - 1, df := true }

def memmove (fuel : ℕ) (m : Cpu) (dest src n : UInt32) : Option (UInt32 × Cpu) :=
  (rep movsb fuel (memmoveGo m dest src n)).map (dest, ·)

/-! ### Filling -/

/-- `k` bytes are to be filled from `d` on. The register may be one past the last address. -/
structure Ahead (m : Cpu) (d k : ℕ) : Prop where
  edi : m.edi = UInt32.ofNat d
  fits : d + k ≤ 2 ^ 32

/-- What is stored comes round again after `size` bytes. -/
def Repeats (size : ℕ) (f : ℕ → UInt8) : Prop := ∀ i, f (size + i) = f i

/-- The rest of a block whose first `k` bytes are in place. -/
theorem Repeats.pieces {k n d : ℕ} {f : ℕ → UInt8} (h : Repeats k f) (mem : ℕ → UInt8) :
    filled (d + k) n f (filled d k f mem) = filled d (k + n) f mem := by
  have hshift : (fun i => f (k + i)) = f := funext h
  calc filled (d + k) n f (filled d k f mem)
      = filled (d + k) n (fun i => f (k + i)) (filled d k f mem) := by rw [hshift]
    _ = filled d (k + n) f mem := filled_add f mem

section Stores
variable {m : Cpu} {d k : ℕ} {f : ℕ → UInt8}

theorem storeBytes_eq (mem : ℕ → UInt8) (size : ℕ) (hd : d + size ≤ 2 ^ 32) (v : ℕ → UInt8) :
    storeBytes mem (UInt32.ofNat d) size v = filled d size v mem := by
  induction size with
  | zero => exact (filled_zero v mem).symm
  | succ size ih =>
    have haddr : (UInt32.ofNat d + UInt32.ofNat size).toNat = d + size := by
      rw [← UInt32.ofNat_add, ofNat_toNat (by omega)]
    have hone : filled (d + size) 1 (fun i => v (size + i)) (filled d size v mem) =
        filled d (size + 1) v mem := filled_add v mem
    rw [filled_one] at hone
    rw [← hone, storeBytes, List.range_succ, List.foldl_append, ← storeBytes, ih (by omega)]
    simp only [List.foldl_cons, List.foldl_nil, haddr]
    rfl

/-- A string store upwards. -/
theorem Ahead.stos {size : ℕ} (h : Ahead m d (size + k)) (hdf : m.df = false) (eax : UInt32)
    (hf : ∀ i < size, f i = byteOf eax i) :
    Ahead (stos size eax m) (d + size) k ∧ (stos size eax m).mem = filled d size f m.mem := by
  have hfits := h.fits
  refine ⟨⟨?_, by omega⟩, ?_⟩
  · rw [UInt32.ofNat_add, ← h.edi, Blocks.stos, hdf]
    rfl
  · rw [Blocks.stos, h.edi, storeBytes_eq m.mem size (by omega)]
    exact filled_congr (fun i hi => (hf i hi).symm) m.mem

theorem Ahead.stosByte (h : Ahead m d (1 + k)) (hal : m.al = f 0) :
    Ahead (stosByte m) (d + 1) k ∧ (stosByte m).mem = filled d 1 f m.mem := by
  have hfits := h.fits
  refine ⟨⟨?_, by omega⟩, ?_⟩
  · rw [UInt32.ofNat_add, ← h.edi]
    rfl
  · rw [filled_one, Blocks.stosByte, h.edi, ofNat_toNat (by omega), hal]

end Stores

/-! ### `memset` -/

/-- The number of bytes that are still to be stored at a label, and of labels ahead. -/
def Label.left (m : Cpu) : Label → ℕ
  | .memsetTop => m.ecx.toNat
  | .memsetAligned => m.ecx.toNat
  | .repStosl => 4 * m.ecx.toNat + m.edx.toNat
  | .memsetBottom => m.edx.toNat
  | .memsetDone => 0

def Label.ahead : Label → ℕ
  | .memsetTop => 4
  | .memsetAligned => 3
  | .repStosl => 2
  | .memsetBottom => 1
  | .memsetDone => 0

/-- Storing what is left with the byte in `%al` ends in `target`. -/
structure Filling (v : UInt8) (target : ℕ → UInt8) (lm : Label × Cpu) (d : ℕ) : Prop where
  ahead : Ahead lm.2 d (lm.1.left lm.2)
  outcome : filled d (lm.1.left lm.2) (fun _ => v) lm.2.mem = target
  al : lm.2.al = v
  upward : lm.1 = .repStosl → lm.2.df = false

theorem spread_byte (c : UInt32) (i : ℕ) (hi : i < 4) :
    byteOf (spread (c &&& 0xFF)) i = (c &&& 0xFF).toUInt8 := by
  obtain ⟨b, hb, hc⟩ : ∃ b < 256, c &&& 0xFF = UInt32.ofNat b := by
    refine ⟨(c &&& 0xFF).toNat, ?_, UInt32.ofNat_toNat.symm⟩
    rw [UInt32.toNat_and]
    exact Nat.and_lt_two_pow (n := 8) _ (by decide)
  have hall : ∀ b < 256, ∀ i < 4, byteOf (spread (UInt32.ofNat b)) i = (UInt32.ofNat b).toUInt8 := by
    decide +kernel
  rw [hc]
  exact hall b hb i hi

section Memset
variable {v : UInt8} {target : ℕ → UInt8} {l l' : Label} {m m' : Cpu} {d : ℕ}

/-- A jump stores nothing. -/
theorem Filling.jump (h : Filling v target (l, m) d) (hleft : l'.left m' = l.left m)
    (hedi : m'.edi = m.edi) (hmem : m'.mem = m.mem) (hal : m'.al = m.al)
    (hdf : l' = .repStosl → m'.df = false) : Filling v target (l', m') d := by
  obtain ⟨⟨hd, hfits⟩, houtcome, hv, -⟩ := h
  refine ⟨⟨hedi.trans hd, ?_⟩, ?_, hal.trans hv, hdf⟩
  · exact hleft.symm ▸ hfits
  · simp only at houtcome ⊢
    rw [hleft, hmem, houtcome]

/-- A round of a loop that stores `k` bytes. -/
theorem Filling.round (h : Filling v target (l, m) d) {k : ℕ} (hleft : l.left m = k + l'.left m')
    (hahead : Ahead m' (d + k) (l'.left m')) (hmem : m'.mem = filled d k (fun _ => v) m.mem)
    (hal : m'.al = m.al) (hdf : l' = .repStosl → m'.df = false) :
    Filling v target (l', m') (d + k) := by
  have houtcome := h.outcome
  have hpieces := Repeats.pieces (k := k) (n := l'.left m') (d := d) (f := fun _ => v) (fun _ => rfl) m.mem
  simp only at houtcome
  refine ⟨hahead, ?_, hal.trans h.al, hdf⟩
  rw [← houtcome, hleft, ← hpieces, ← hmem]

theorem Filling.step {eax : UInt32} (hv : ∀ i < 4, byteOf eax i = v) (h : Filling v target (l, m) d)
    (hl : l ≠ .memsetDone) :
    (∃ d', Filling v target (memsetStep eax (l, m)) d') ∧
      (memsetStep eax (l, m)).1.left (memsetStep eax (l, m)).2 + (memsetStep eax (l, m)).1.ahead <
        l.left m + l.ahead := by
  cases l with
  | memsetTop =>
    rw [memsetStep, UInt32.and_self]
    split_ifs with hzero halign
    · refine ⟨⟨d, h.jump (by simp [Label.left, hzero]) rfl rfl rfl (by simp)⟩, ?_⟩
      simp [Label.left, Label.ahead, hzero]
    · exact ⟨⟨d, h.jump rfl rfl rfl rfl (by simp)⟩, by simp [Label.left, Label.ahead]⟩
    · have hcount := counted hzero
      have hahead := h.ahead
      simp only [Label.left, hcount] at hahead
      obtain ⟨hnext, hmem⟩ := hahead.stosByte (f := fun _ => v) h.al
      refine ⟨⟨d + 1, h.round hcount ⟨hnext.1, hnext.2⟩ hmem rfl (by simp)⟩, ?_⟩
      simp only [Label.left, Label.ahead, hcount]
      omega
  | memsetAligned =>
    refine ⟨⟨d, h.jump (dwords_add_rest m.ecx) rfl rfl rfl fun _ => rfl⟩, ?_⟩
    simp only [memsetStep, Label.left, Label.ahead, dwords_add_rest]
    omega
  | repStosl =>
    rw [memsetStep]
    split_ifs with hzero
    · refine ⟨⟨d, h.jump (by simp [Label.left, hzero]) rfl rfl rfl (by simp)⟩, ?_⟩
      simp [Label.left, Label.ahead, hzero]
    · have hcount : 4 * m.ecx.toNat + m.edx.toNat = 4 + (4 * (m.ecx - 1).toNat + m.edx.toNat) := by
        rw [counted hzero]
        omega
      have hahead := h.ahead
      simp only [Label.left, hcount] at hahead
      obtain ⟨hnext, hmem⟩ := hahead.stos (f := fun _ => v) (h.upward rfl) eax
        fun i hi => (hv i hi).symm
      refine ⟨⟨d + 4, h.round hcount ⟨hnext.1, hnext.2⟩ hmem rfl fun _ => h.upward rfl⟩, ?_⟩
      simp only [Label.left, Label.ahead, repStep, Blocks.stos, hcount]
      omega
  | memsetBottom =>
    rw [memsetStep, UInt32.and_self]
    split_ifs with hzero
    · refine ⟨⟨d, h.jump (by simp [Label.left, hzero]) rfl rfl rfl (by simp)⟩, ?_⟩
      simp [Label.left, Label.ahead, hzero]
    · have hcount := counted hzero
      have hahead := h.ahead
      simp only [Label.left, hcount] at hahead
      obtain ⟨hnext, hmem⟩ := hahead.stosByte (f := fun _ => v) h.al
      refine ⟨⟨d + 1, h.round hcount ⟨hnext.1, hnext.2⟩ hmem rfl (by simp)⟩, ?_⟩
      simp only [Label.left, Label.ahead, hcount]
      omega
  | memsetDone => exact absurd rfl hl

end Memset

/-- Whatever the alignment, `memset` ends with the low byte of `c` in every byte of the
block, and nothing else stored. -/
theorem memset_fills (m : Cpu) (s c n : UInt32) (hfits : s.toNat + n.toNat ≤ 2 ^ 32) :
    ∃ m', (∀ fuel, n.toNat + 5 ≤ fuel → memset fuel m s c n = some (s, m')) ∧
      m'.mem = filled s.toNat n.toNat (fun _ => (c &&& 0xFF).toUInt8) m.mem := by
  set v := (c &&& 0xFF).toUInt8 with hv
  set start : Label × Cpu :=
    (.memsetTop, { m with al := (spread (c &&& 0xFF)).toUInt8, edi := s, ecx := n }) with hstart
  have hbytes : ∀ i < 4, byteOf (spread (c &&& 0xFF)) i = v := spread_byte c
  have hal : (spread (c &&& 0xFF)).toUInt8 = v := by
    have hlow := hbytes 0 (by decide)
    simpa [byteOf] using hlow
  have hinv : ∃ d, Filling v (filled s.toNat n.toNat (fun _ => v) m.mem) start d :=
    ⟨s.toNat, ⟨UInt32.ofNat_toNat.symm, hfits⟩, rfl, hal, by simp [hstart]⟩
  obtain ⟨⟨l, m'⟩, hdone, ⟨d, hfilled⟩, hrun⟩ :=
    runTo_of_measure (memsetStep (spread (c &&& 0xFF)))
      (fun lm : Label × Cpu => lm.1 = .memsetDone)
      (fun lm => ∃ d, Filling v (filled s.toNat n.toNat (fun _ => v) m.mem) lm d)
      (fun lm => lm.1.left lm.2 + lm.1.ahead)
      (fun lm ⟨_, h⟩ hl => h.step hbytes hl) hinv
  obtain rfl : l = .memsetDone := hdone
  refine ⟨m', fun fuel hfuel => ?_, ?_⟩
  · have hfuel' : start.1.left start.2 + start.1.ahead < fuel := by
      simp only [hstart, Label.left, Label.ahead]
      omega
    rw [memset, hrun fuel hfuel']
    rfl
  · rw [← hfilled.outcome]
    exact (filled_zero _ _).symm

/-! ### The repeated string instructions -/

/-- A repeated instruction whose rounds keep an invariant ends, and the invariant holds. -/
theorem rep_keeps (op : Cpu → Cpu) {m : Cpu} (inv : Cpu → Prop)
    (hop : ∀ m, inv m → m.ecx ≠ 0 → inv (repStep op m)) (h : inv m) :
    ∃ m', m'.ecx = 0 ∧ inv m' ∧ ∀ fuel, m.ecx.toNat < fuel → rep op fuel m = some m' := by
  refine runTo_of_measure _ _ inv (fun m => m.ecx.toNat) (fun m hm hzero => ⟨hop m hm hzero, ?_⟩) h
  have hcount := counted hzero
  simp only [repStep]
  omega

/-- Storing what is left upwards, in units of `size` bytes, ends in `target`. -/
structure Storing (size : ℕ) (f target : ℕ → UInt8) (m : Cpu) (d : ℕ) : Prop where
  ahead : Ahead m d (size * m.ecx.toNat)
  outcome : filled d (size * m.ecx.toNat) f m.mem = target
  upward : m.df = false

/-- Copying what is left upwards ends in `target`. -/
structure MovingUp (target : ℕ → UInt8) (m : Cpu) (d s : ℕ) : Prop where
  pending : Pending m d s m.ecx.toNat
  outcome : copied d s m.ecx.toNat m.mem = target
  upward : m.df = false

/-- Copying what is left downwards ends in `target`. The registers point at the last byte,
and may be one below the first address. -/
structure MovingDown (target : ℕ → UInt8) (d s : ℕ) (m : Cpu) : Prop where
  edi : m.edi + 1 = UInt32.ofNat (d + m.ecx.toNat)
  esi : m.esi + 1 = UInt32.ofNat (s + m.ecx.toNat)
  dstFits : d + m.ecx.toNat ≤ 2 ^ 32
  srcFits : s + m.ecx.toNat ≤ 2 ^ 32
  downwards : Downwards d s m.ecx.toNat
  outcome : copied d s m.ecx.toNat m.mem = target
  downward : m.df = true

section Rounds
variable {target : ℕ → UInt8} {m : Cpu} {d s : ℕ}

theorem Storing.round {size : ℕ} {f : ℕ → UInt8} {eax : UInt32} (hf : ∀ i < size, f i = byteOf eax i)
    (hrepeats : Repeats size f) (h : Storing size f target m d) (hne : m.ecx ≠ 0) :
    Storing size f target (repStep (stos size eax) m) (d + size) := by
  have hcount : size * m.ecx.toNat = size + size * (m.ecx - 1).toNat := by
    rw [counted hne, Nat.mul_add, Nat.mul_one]
  have hahead := h.ahead
  have houtcome := h.outcome
  rw [hcount] at hahead houtcome
  obtain ⟨hnext, hmem⟩ := hahead.stos h.upward eax hf
  refine ⟨⟨hnext.1, hnext.2⟩, ?_, h.upward⟩
  rw [← houtcome, ← hrepeats.pieces, ← hmem]
  rfl

theorem MovingUp.round (h : MovingUp target m d s) (hne : m.ecx ≠ 0) :
    MovingUp target (repStep movsb m) (d + 1) (s + 1) := by
  have hpending := h.pending
  have houtcome := h.outcome
  rw [counted hne] at hpending houtcome
  have hmoved : Moved m (repStep movsb m) d s 1 (m.ecx - 1).toNat := by
    apply hpending.moveByte.congr
    · simp only [repStep, movsb, h.upward, Bool.false_eq_true, if_false, Cpu.moveByte]
    · simp only [repStep, movsb, h.upward, Bool.false_eq_true, if_false, Cpu.moveByte]
    · rfl
  exact ⟨hmoved.1, hmoved.2.trans houtcome, h.upward⟩

theorem MovingDown.round (h : MovingDown target d s m) (hne : m.ecx ≠ 0) :
    MovingDown target d s (repStep movsb m) := by
  obtain ⟨hedi, hesi, hdst, hsrc, hdown, houtcome, hdf⟩ := h
  have hcount : m.ecx.toNat = (m.ecx - 1).toNat + 1 := by rw [counted hne, Nat.add_comm]
  set k := (m.ecx - 1).toNat with hk
  rw [hcount] at hedi hesi hdst hsrc hdown houtcome
  have hedi' : m.edi = UInt32.ofNat (d + k) := by
    rw [← Nat.add_assoc, UInt32.ofNat_add] at hedi
    exact add_right_cancel hedi
  have hesi' : m.esi = UInt32.ofNat (s + k) := by
    rw [← Nat.add_assoc, UInt32.ofNat_add] at hesi
    exact add_right_cancel hesi
  have hmem : (movsb m).mem = update m.mem (d + k) (m.mem (s + k)) := by
    rw [movsb, hedi', hesi', ofNat_toNat (by omega), ofNat_toNat (by omega)]
  refine ⟨?_, ?_, by exact (by omega : d + k ≤ 2 ^ 32), by exact (by omega : s + k ≤ 2 ^ 32),
    hdown.init, ?_, hdf⟩
  · simp only [repStep, movsb, hdf, if_true, sub_add_cancel]
    exact hedi'
  · simp only [repStep, movsb, hdf, if_true, sub_add_cancel]
    exact hesi'
  · rw [← houtcome, ← copied_last hdown, ← hmem]
    rfl

end Rounds

/-- `memset_word` and `memset_dword` store the low bytes of `c` again and again. -/
theorem memsetUnits_fills (size : ℕ) (m : Cpu) (s c n : UInt32)
    (hfits : s.toNat + size * n.toNat ≤ 2 ^ 32) :
    ∃ m', (∀ fuel, n.toNat + 5 ≤ fuel → memsetUnits size fuel m s c n = some (s, m')) ∧
      m'.mem = filled s.toNat (size * n.toNat) (fun i => byteOf c (i % size)) m.mem := by
  set f : ℕ → UInt8 := fun i => byteOf c (i % size) with hf
  have hlow : ∀ i < size, f i = byteOf c i := fun i hi => by simp only [hf, Nat.mod_eq_of_lt hi]
  have hrepeats : Repeats size f := fun i => by simp only [hf, Nat.add_mod_left]
  set start : Cpu := { loadEs { m with al := c.toUInt8, edi := s, ecx := n } with df := false }
  have hstart : ∃ d, Storing size f (filled s.toNat (size * n.toNat) f m.mem) start d :=
    ⟨s.toNat, ⟨UInt32.ofNat_toNat.symm, hfits⟩, rfl, rfl⟩
  obtain ⟨m', hzero, ⟨d, hstored⟩, hrun⟩ := rep_keeps (stos size c)
    (fun m' => ∃ d, Storing size f (filled s.toNat (size * n.toNat) f m.mem) m' d)
    (fun m' ⟨d, h⟩ hne => ⟨d + size, h.round hlow hrepeats hne⟩) hstart
  refine ⟨m', fun fuel hfuel => ?_, ?_⟩
  · have hfuel' : start.ecx.toNat < fuel := by
      show n.toNat < fuel
      omega
    rw [memsetUnits, hrun fuel hfuel']
    rfl
  · have houtcome := hstored.outcome
    rw [hzero] at houtcome
    rw [← houtcome]
    exact (filled_zero _ _).symm

theorem memmoveGo_ecx (m : Cpu) (dest src n : UInt32) : (memmoveGo m dest src n).ecx = n := by
  unfold memmoveGo
  dsimp only
  split_ifs <;> rfl

/-- `memmove` ends, with whatever its rounds keep. -/
theorem memmove_ends {m : Cpu} {dest src n : UInt32} (inv : Cpu → Prop)
    (hround : ∀ m, inv m → m.ecx ≠ 0 → inv (repStep movsb m)) (h : inv (memmoveGo m dest src n)) :
    ∃ m', m'.ecx = 0 ∧ inv m' ∧
      ∀ fuel, n.toNat + 5 ≤ fuel → memmove fuel m dest src n = some (dest, m') := by
  obtain ⟨m', hzero, hinv, hrun⟩ := rep_keeps _ inv hround h
  rw [memmoveGo_ecx] at hrun
  refine ⟨m', hzero, hinv, fun fuel hfuel => ?_⟩
  rw [memmove, hrun fuel (by omega)]
  rfl

/-- However source and destination overlap, `memmove` copies the block at once. -/
theorem memmove_eq (m : Cpu) (dest src n : UInt32) (hdest : dest.toNat + n.toNat ≤ 2 ^ 32)
    (hsrc : src.toNat + n.toNat ≤ 2 ^ 32) :
    ∃ m', (∀ fuel, n.toNat + 5 ≤ fuel → memmove fuel m dest src n = some (dest, m')) ∧
      m'.mem = copied dest.toNat src.toNat n.toNat m.mem ∧ m'.df = decide (src < dest) := by
  set target := copied dest.toNat src.toNat n.toNat m.mem with htarget
  by_cases hup : dest ≤ src
  · have hle : dest.toNat ≤ src.toNat := UInt32.le_iff_toNat_le.mp hup
    have hgo : memmoveGo m dest src n =
        { loadEs { m with edi := dest, esi := src, ecx := n } with df := false } := if_pos hup
    have hstart : ∃ d s, MovingUp target (memmoveGo m dest src n) d s := by
      rw [hgo]
      exact ⟨dest.toNat, src.toNat, ⟨UInt32.ofNat_toNat.symm, UInt32.ofNat_toNat.symm, hdest, hsrc,
        .inl hle⟩, rfl, rfl⟩
    obtain ⟨m', hzero, ⟨d, s, -, houtcome, hdf⟩, hrun⟩ := memmove_ends
      (fun m' => ∃ d s, MovingUp target m' d s)
      (fun m' ⟨d, s, h⟩ hne => ⟨d + 1, s + 1, h.round hne⟩) hstart
    refine ⟨m', hrun, ?_, ?_⟩
    · rw [← houtcome, hzero]
      exact (copied_zero _ _ _).symm
    · rw [hdf, eq_comm, decide_eq_false_iff_not]
      exact UInt32.not_lt.mpr hup
  · have hlt : src < dest := UInt32.not_le.mp hup
    have hle : src.toNat ≤ dest.toNat := (UInt32.lt_iff_toNat_lt.mp hlt).le
    have hgo : memmoveGo m dest src n =
        { loadEs { m with edi := dest, esi := src, ecx := n } with
          df := true
          esi := src + n - 1
          edi := dest + n - 1 } := if_neg hup
    have hstart : MovingDown target dest.toNat src.toNat (memmoveGo m dest src n) := by
      rw [hgo]
      refine ⟨?_, ?_, hdest, hsrc, .inl hle, rfl, rfl⟩
      · simp [UInt32.ofNat_add, UInt32.ofNat_toNat, loadEs]
      · simp [UInt32.ofNat_add, UInt32.ofNat_toNat, loadEs]
    obtain ⟨m', hzero, ⟨-, -, -, -, -, houtcome, hdf⟩, hrun⟩ := memmove_ends
      (MovingDown target dest.toNat src.toNat) (fun m' h hne => h.round hne) hstart
    refine ⟨m', hrun, ?_, ?_⟩
    · rw [← houtcome, hzero]
      exact (copied_zero _ _ _).symm
    · rw [hdf, eq_comm, decide_eq_true_eq]
      exact hlt

/-- `memmove` between ranges inside the address space, however they overlap: it ends, every
byte of the destination is the one that was in the source before the call, no other byte has
changed, and the direction flag is left set just when the source began below the
destination. -/
theorem memmove_moves_bytes (m : Cpu) (dest src n : UInt32) (hdest : dest.toNat + n.toNat ≤ 2 ^ 32)
    (hsrc : src.toNat + n.toNat ≤ 2 ^ 32) :
    ∃ m', (∀ fuel, n.toNat + 5 ≤ fuel → memmove fuel m dest src n = some (dest, m')) ∧
      (∀ i < n.toNat, m'.mem (dest.toNat + i) = m.mem (src.toNat + i)) ∧
      (∀ a, ¬ (dest.toNat ≤ a ∧ a < dest.toNat + n.toNat) → m'.mem a = m.mem a) ∧
      m'.df = decide (src < dest) := by
  obtain ⟨m', hrun, hmem, hdf⟩ := memmove_eq m dest src n hdest hsrc
  refine ⟨m', hrun, fun i hi => ?_, fun a ha => ?_, hdf⟩
  · rw [hmem, copied_inside m.mem hi]
  · rw [hmem, copied_outside m.mem ha]

/-- Eleven bytes up by one, over their own place. -/
theorem memmove_moves_bytes_overlapping :
    ∃ m', (∀ fuel, 16 ≤ fuel → memmove fuel countingCpu 6 5 11 = some (6, m')) ∧
      (∀ i < 11, m'.mem (6 + i) = UInt8.ofNat (5 + i)) ∧ m'.df = true := by
  obtain ⟨m', hrun, hbytes, -, hdf⟩ :=
    memmove_moves_bytes countingCpu 6 5 11 (by decide) (by decide)
  exact ⟨m', hrun, hbytes, hdf⟩

/-! ### One routine after another -/

/-- A call of one of the block routines. -/
inductive Block
  | memset (s c n : UInt32)
  | memsetWord (s c n : UInt32)
  | memsetDword (s c n : UInt32)
  | memcpy (dest src n : UInt32)
  | memmove (dest src n : UInt32)

/-- The machine behind a call. -/
def Block.exec (fuel : ℕ) (m : Cpu) : Block → Option Cpu
  | .memset s c n => (Blocks.memset fuel m s c n).map Prod.snd
  | .memsetWord s c n => (Blocks.memsetWord fuel m s c n).map Prod.snd
  | .memsetDword s c n => (Blocks.memsetDword fuel m s c n).map Prod.snd
  | .memcpy dest src n => (Memcpy.memcpy fuel m dest src n).map Prod.snd
  | .memmove dest src n => (Blocks.memmove fuel m dest src n).map Prod.snd

def execAll (fuel : ℕ) : Cpu → List Block → Option Cpu
  | m, [] => some m
  | m, b :: bs => (b.exec fuel m).bind fun m => execAll fuel m bs

/-- What a call is for: a block filled, or copied at once. -/
def Block.effect (mem : ℕ → UInt8) : Block → ℕ → UInt8
  | .memset s c n => filled s.toNat n.toNat (fun _ => (c &&& 0xFF).toUInt8) mem
  | .memsetWord s c n => filled s.toNat (2 * n.toNat) (fun i => byteOf c (i % 2)) mem
  | .memsetDword s c n => filled s.toNat (4 * n.toNat) (fun i => byteOf c (i % 4)) mem
  | .memcpy dest src n => copied dest.toNat src.toNat n.toNat mem
  | .memmove dest src n => copied dest.toNat src.toNat n.toNat mem

/-- The ranges of a call do not wrap around, and a `memcpy` goes upwards or between ranges
that are apart. -/
def Block.Fits : Block → Prop
  | .memset s _ n => s.toNat + n.toNat ≤ 2 ^ 32
  | .memsetWord s _ n => s.toNat + 2 * n.toNat ≤ 2 ^ 32
  | .memsetDword s _ n => s.toNat + 4 * n.toNat ≤ 2 ^ 32
  | .memcpy dest src n => dest.toNat + n.toNat ≤ 2 ^ 32 ∧ src.toNat + n.toNat ≤ 2 ^ 32 ∧
      Upwards dest.toNat src.toNat n.toNat
  | .memmove dest src n => dest.toNat + n.toNat ≤ 2 ^ 32 ∧ src.toNat + n.toNat ≤ 2 ^ 32

instance : DecidablePred Block.Fits
  | .memset _ _ _ => inferInstanceAs (Decidable (_ ≤ _))
  | .memsetWord _ _ _ => inferInstanceAs (Decidable (_ ≤ _))
  | .memsetDword _ _ _ => inferInstanceAs (Decidable (_ ≤ _))
  | .memcpy _ _ _ => inferInstanceAs (Decidable (_ ≤ _ ∧ _ ≤ _ ∧ (_ ≤ _ ∨ _ ≤ _)))
  | .memmove _ _ _ => inferInstanceAs (Decidable (_ ≤ _ ∧ _ ≤ _))

/-- No count is longer than this. -/
abbrev ample : ℕ := 2 ^ 32 + 4

theorem enough (n : UInt32) {fuel : ℕ} (hfuel : ample ≤ fuel) : n.toNat + 5 ≤ fuel := by
  have hn := n.toNat_lt
  simp only [ample] at hfuel
  omega

/-- One call, whatever the routines before it left in the registers and the flag. -/
theorem Block.exec_effect (b : Block) (m : Cpu) (h : b.Fits) :
    ∃ m', (∀ fuel, ample ≤ fuel → b.exec fuel m = some m') ∧ m'.mem = b.effect m.mem := by
  have hfound {r : UInt32 × Cpu} {call : ℕ → Option (UInt32 × Cpu)} {n : UInt32}
      (hcall : ∀ fuel, n.toNat + 5 ≤ fuel → call fuel = some r) (fuel : ℕ) (hfuel : ample ≤ fuel) :
      (call fuel).map Prod.snd = some r.2 := by
    rw [hcall fuel (enough n hfuel)]
    rfl
  cases b with
  | memset s c n =>
    obtain ⟨m', hcall, hmem⟩ := memset_fills m s c n h
    exact ⟨m', hfound hcall, hmem⟩
  | memsetWord s c n =>
    obtain ⟨m', hcall, hmem⟩ := memsetUnits_fills 2 m s c n h
    exact ⟨m', hfound hcall, hmem⟩
  | memsetDword s c n =>
    obtain ⟨m', hcall, hmem⟩ := memsetUnits_fills 4 m s c n h
    exact ⟨m', hfound hcall, hmem⟩
  | memcpy dest src n =>
    obtain ⟨m', hcall, hmem⟩ := memcpy_eq m dest src n h.1 h.2.1 h.2.2
    exact ⟨m', hfound hcall, hmem⟩
  | memmove dest src n =>
    obtain ⟨m', hcall, hmem, -⟩ := memmove_eq m dest src n h.1 h.2
    exact ⟨m', hfound hcall, hmem⟩

/-- Calls of the routines one after another, in any order: all of them end, and the memory
is what the calls are for, one after another. The direction flag that a `memmove` leaves
set does no harm. -/
theorem blocks_take_effect (bs : List Block) (m : Cpu) (h : ∀ b ∈ bs, b.Fits) :
    ∃ m', (∀ fuel, ample ≤ fuel → execAll fuel m bs = some m') ∧
      m'.mem = bs.foldl Block.effect m.mem := by
  induction bs generalizing m with
  | nil => exact ⟨m, fun _ _ => rfl, rfl⟩
  | cons b bs ih =>
    obtain ⟨m₁, hfirst, hmem₁⟩ := b.exec_effect m (h b List.mem_cons_self)
    obtain ⟨m', hrest, hmem⟩ := ih m₁ fun c hc => h c (List.mem_cons_of_mem b hc)
    refine ⟨m', fun fuel hfuel => ?_, ?_⟩
    · rw [execAll, hfirst fuel hfuel, Option.bind_some, hrest fuel hfuel]
    · rw [hmem, hmem₁, List.foldl_cons]

/-- A move upwards by one and then a fill across a dword boundary: the flag is still set when
the second routine starts. -/
theorem blocks_take_effect_after_move :
    ∃ m', (∀ fuel, ample ≤ fuel →
        execAll fuel countingCpu [.memmove 6 5 11, .memset 14 0x141 6] = some m') ∧
      m'.mem 6 = 5 ∧ m'.mem 13 = 12 ∧ m'.mem 14 = 0x41 ∧ m'.mem 19 = 0x41 ∧ m'.mem 20 = 20 := by
  obtain ⟨m', hrun, hmem⟩ :=
    blocks_take_effect [.memmove 6 5 11, .memset 14 0x141 6] countingCpu (by decide)
  refine ⟨m', hrun, ?_⟩
  rw [hmem]
  decide

end Ece391.Lib.Blocks
