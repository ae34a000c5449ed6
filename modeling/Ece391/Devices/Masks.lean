import Ece391.Devices.Pic
import Ece391.Support.Runs

/-! The interrupt lines behind the masks of `i8259.c`. A line should be masked until it is
enabled and again after it is disabled. -/

namespace Ece391.Devices

open Support.Runs

/-- Bit `i` of a mask. -/
def bit (m : UInt8) (i : ℕ) : Bool := m.toBitVec.getLsbD i

/-- Line `k` is masked; the slave has the lines from 8 on. -/
def Pic.masked (p : Pic) (k : ℕ) : Bool :=
  if k < numPorts then bit p.masterMask k else bit p.slaveMask (k - numPorts)

/-- A call with its interrupt number. -/
inductive IrqCall
  | enableIrq (irqNum : UInt32)
  | disableIrq (irqNum : UInt32)
  deriving DecidableEq

def IrqCall.irqNum : IrqCall → ℕ
  | .enableIrq n => n.toNat
  | .disableIrq n => n.toNat

def IrqCall.disables : IrqCall → Bool
  | .enableIrq _ => false
  | .disableIrq _ => true

def IrqCall.apply : IrqCall → Pic → Pic
  | .enableIrq n => Devices.enableIrq n.toNat
  | .disableIrq n => Devices.disableIrq n.toNat

/-- The controllers, with the calls that an observer has seen. -/
structure Masking where
  pic : Pic
  calls : List IrqCall

/-- All lines are masked and no call has been made; the data ports may hold anything. -/
def Masking.start (masterData slaveData : UInt8) : Masking := ⟨⟨0xFF, 0xFF, masterData, slaveData⟩, []⟩

def irqStep (s : Masking) (c : IrqCall) : Option Masking := some ⟨c.apply s.pic, s.calls ++ [c]⟩

/-- The last call on line `k`. -/
def lastOn (calls : List IrqCall) (k : ℕ) : Option IrqCall :=
  (calls.filter fun c => c.irqNum = k).getLast?

/-- No call on the line has been made, or the last one disabled it. -/
def wantsMasked (calls : List IrqCall) (k : ℕ) : Bool := (lastOn calls k).all IrqCall.disables

/-- The masks say of every line what the calls have asked for, and the data port of a
controller that has been written to holds its mask. -/
structure FollowsCalls (s : Masking) : Prop where
  lines : ∀ k < maxPorts, s.pic.masked k = wantsMasked s.calls k
  masterData : (∃ c ∈ s.calls, c.irqNum < numPorts) → s.pic.masterData = s.pic.masterMask
  slaveData : (∃ c ∈ s.calls, numPorts ≤ c.irqNum ∧ c.irqNum < maxPorts) →
    s.pic.slaveData = s.pic.slaveMask

/-- A line of the slave is disabled while a line of the slave is unmasked. -/
def DisablesSlave (s : Masking) (c : IrqCall) : Prop :=
  c.disables = true ∧ numPorts ≤ c.irqNum ∧ c.irqNum < maxPorts ∧
    ∃ k < maxPorts, numPorts ≤ k ∧ s.pic.masked k = false

instance (s : Masking) (c : IrqCall) : Decidable (DisablesSlave s c) :=
  inferInstanceAs (Decidable (_ ∧ _ ∧ _ ∧ ∃ k < maxPorts, numPorts ≤ k ∧ s.pic.masked k = false))

/-! ### Single bits -/

section Bits
variable (m m' : UInt8) {n i : ℕ}

theorem bit_and : bit (m &&& m') i = (bit m i && bit m' i) := BitVec.getLsbD_and

theorem bit_or : bit (m ||| m') i = (bit m i || bit m' i) := BitVec.getLsbD_or

theorem bit_not (hi : i < 8) : bit (~~~m) i = !bit m i := by
  show (~~~m.toBitVec).getLsbD i = !m.toBitVec.getLsbD i
  rw [BitVec.getLsbD_not]
  simp [hi]

theorem bit_shift (hn : n < 8) (hi : i < 8) : bit (1 <<< n.toUInt8) i = decide (i = n) := by
  have h : ∀ n < 8, ∀ i < 8, bit ((1 : UInt8) <<< Nat.toUInt8 n) i = decide (i = n) := by decide
  exact h n hn i hi

end Bits

/-! ### The calls, line by line -/

section Lines
variable (p : Pic) {n k : ℕ}

theorem irq_out_of_range (hn : maxPorts ≤ n) : enableIrq n p = p ∧ disableIrq n p = p :=
  ⟨if_pos hn, if_pos hn⟩

theorem enableIrq_master (hn : n < numPorts) :
    enableIrq n p =
      { p with
        masterMask := p.masterMask &&& ~~~(1 <<< n.toUInt8)
        masterData := p.masterMask &&& ~~~(1 <<< n.toUInt8) } := by
  have hlow : n < 8 := hn
  rw [enableIrq, if_neg (by simp only [maxPorts]; omega), if_pos hn]

theorem enableIrq_slave (hn : numPorts ≤ n) (hn' : n < maxPorts) :
    enableIrq n p =
      { p with
        slaveMask := p.slaveMask &&& ~~~(1 <<< (n - numPorts).toUInt8)
        slaveData := p.slaveMask &&& ~~~(1 <<< (n - numPorts).toUInt8) } := by
  rw [enableIrq, if_neg hn'.not_ge, if_neg hn.not_gt]

theorem disableIrq_master (hn : n < numPorts) :
    disableIrq n p =
      { p with
        masterMask := p.masterMask ||| 1 <<< n.toUInt8
        masterData := p.masterMask ||| 1 <<< n.toUInt8 } := by
  have hlow : n < 8 := hn
  rw [disableIrq, if_neg (by simp only [maxPorts]; omega), if_pos hn]

theorem disableIrq_slave (hn : numPorts ≤ n) (hn' : n < maxPorts) :
    disableIrq n p =
      { p with
        slaveMask := p.slaveMask ||| ~~~(1 <<< (n - numPorts).toUInt8)
        slaveData := p.slaveMask ||| ~~~(1 <<< (n - numPorts).toUInt8) } := by
  rw [disableIrq, if_neg hn'.not_ge, if_neg hn.not_gt]

theorem masked_enableIrq (hk : k < maxPorts) :
    (enableIrq n p).masked k = (p.masked k && !decide (k = n)) := by
  by_cases hn' : maxPorts ≤ n
  · rw [(irq_out_of_range p hn').1]
    simp [show k ≠ n by omega]
  by_cases hn : n < numPorts
  · rw [enableIrq_master p hn]
    simp only [Pic.masked, numPorts] at hn ⊢
    split_ifs with hk8
    · rw [bit_and, bit_not _ hk8, bit_shift hn hk8]
    · simp [show k ≠ n by omega]
  · rw [enableIrq_slave p (by omega) (by omega)]
    simp only [Pic.masked, numPorts, maxPorts] at hn hn' hk ⊢
    split_ifs with hk8
    · simp [show k ≠ n by omega]
    · rw [bit_and, bit_not _ (by omega), bit_shift (by omega) (by omega)]
      simp [show k - 8 = n - 8 ↔ k = n by omega]

theorem masked_disableIrq_master (hn : n < numPorts) :
    (disableIrq n p).masked k = (p.masked k || decide (k = n)) := by
  rw [disableIrq_master p hn]
  simp only [Pic.masked, numPorts] at hn ⊢
  split_ifs with hk8
  · rw [bit_or, bit_shift hn hk8]
  · simp [show k ≠ n by omega]

/-- On the slave every other line is masked, and the line itself keeps its bit. -/
theorem masked_disableIrq_slave (hn : numPorts ≤ n) (hn' : n < maxPorts) (hk : k < maxPorts) :
    (disableIrq n p).masked k = (p.masked k || decide (numPorts ≤ k) && !decide (k = n)) := by
  rw [disableIrq_slave p hn hn']
  simp only [Pic.masked, numPorts, maxPorts] at hn hn' hk ⊢
  split_ifs with hk8
  · simp [show ¬ 8 ≤ k by omega]
  · rw [bit_or, bit_not _ (by omega), bit_shift (by omega) (by omega)]
    simp [show k - 8 = n - 8 ↔ k = n by omega, show 8 ≤ k by omega]

end Lines

theorem apply_out_of_range {c : IrqCall} (p : Pic) (hn : maxPorts ≤ c.irqNum) : c.apply p = p := by
  cases c with
  | enableIrq n => exact (irq_out_of_range p hn).1
  | disableIrq n => exact (irq_out_of_range p hn).2

/-! ### Runs -/

theorem lastOn_snoc (calls : List IrqCall) (c : IrqCall) (k : ℕ) :
    lastOn (calls ++ [c]) k = if c.irqNum = k then some c else lastOn calls k := by
  rw [lastOn, List.filter_append]
  by_cases h : c.irqNum = k
  · simp [h]
  · simp [h, lastOn]

theorem wantsMasked_snoc (calls : List IrqCall) (c : IrqCall) (k : ℕ) :
    wantsMasked (calls ++ [c]) k = if c.irqNum = k then c.disables else wantsMasked calls k := by
  rw [wantsMasked, lastOn_snoc]
  split_ifs <;> rfl

/-- A call writes the mask of the controller it is for, and leaves the other alone. -/
theorem apply_data (c : IrqCall) (p : Pic) :
    (if c.irqNum < numPorts then (c.apply p).masterData = (c.apply p).masterMask
      else (c.apply p).masterData = p.masterData ∧ (c.apply p).masterMask = p.masterMask) ∧
    (if numPorts ≤ c.irqNum ∧ c.irqNum < maxPorts then (c.apply p).slaveData = (c.apply p).slaveMask
      else (c.apply p).slaveData = p.slaveData ∧ (c.apply p).slaveMask = p.slaveMask) := by
  rcases Nat.lt_or_ge c.irqNum numPorts with hn | hn
  · rw [if_pos hn, if_neg (by omega)]
    cases c with
    | enableIrq n =>
      rw [show (IrqCall.enableIrq n).apply p = _ from enableIrq_master p hn]
      exact ⟨rfl, rfl, rfl⟩
    | disableIrq n =>
      rw [show (IrqCall.disableIrq n).apply p = _ from disableIrq_master p hn]
      exact ⟨rfl, rfl, rfl⟩
  · rw [if_neg (by omega)]
    rcases Nat.lt_or_ge c.irqNum maxPorts with hn' | hn'
    · rw [if_pos ⟨hn, hn'⟩]
      cases c with
      | enableIrq n =>
        rw [show (IrqCall.enableIrq n).apply p = _ from enableIrq_slave p hn hn']
        exact ⟨⟨rfl, rfl⟩, rfl⟩
      | disableIrq n =>
        rw [show (IrqCall.disableIrq n).apply p = _ from disableIrq_slave p hn hn']
        exact ⟨⟨rfl, rfl⟩, rfl⟩
    · rw [if_neg (by omega), apply_out_of_range p hn']
      exact ⟨⟨rfl, rfl⟩, rfl, rfl⟩

/-- The line a call is for, and all others as long as it does not disable a line of the
slave in use. -/
theorem masked_apply {s : Masking} {c : IrqCall} (hc : ¬ DisablesSlave s c) {k : ℕ}
    (hk : k < maxPorts) : (c.apply s.pic).masked k = if c.irqNum = k then c.disables else s.pic.masked k := by
  cases c with
  | enableIrq n =>
    show (enableIrq n.toNat s.pic).masked k = if n.toNat = k then false else s.pic.masked k
    rw [masked_enableIrq _ hk]
    split_ifs with h
    · simp [h]
    · simp [Ne.symm h]
  | disableIrq n =>
    show (disableIrq n.toNat s.pic).masked k = if n.toNat = k then true else s.pic.masked k
    rcases Nat.lt_or_ge n.toNat numPorts with hn | hn
    · rw [masked_disableIrq_master _ hn]
      split_ifs with h
      · simp [h]
      · simp [Ne.symm h]
    · rcases Nat.lt_or_ge n.toNat maxPorts with hn' | hn'
      · -- all lines of the slave are masked, so another masked bit changes nothing
        have hall : numPorts ≤ k → s.pic.masked k = true := by
          intro hk8
          by_contra hm
          exact hc ⟨rfl, hn, hn', k, hk, hk8, by simpa using hm⟩
        rw [masked_disableIrq_slave _ hn hn' hk]
        by_cases hk8 : numPorts ≤ k
        · simp [hall hk8]
        · simp [hk8, show n.toNat ≠ k by omega]
      · rw [(irq_out_of_range _ hn').2, if_neg (by omega)]

theorem FollowsCalls.step {s s' : Masking} {c : IrqCall} (h : FollowsCalls s) (hc : ¬ DisablesSlave s c)
    (hs : irqStep s c = some s') : FollowsCalls s' := by
  obtain rfl := Option.some.inj hs
  obtain ⟨hmaster, hslave⟩ := apply_data c s.pic
  refine ⟨fun k hk => ?_, ?_, ?_⟩
  · rw [wantsMasked_snoc, masked_apply hc hk, h.lines k hk]
  · rintro ⟨c', hc', hn⟩
    split_ifs at hmaster with hmine
    · exact hmaster
    · rcases List.mem_append.mp hc' with hold | hnew
      · simp only [hmaster, h.masterData ⟨c', hold, hn⟩]
      · rw [List.mem_singleton.mp hnew] at hn
        exact absurd hn hmine
  · rintro ⟨c', hc', hn⟩
    split_ifs at hslave with hmine
    · exact hslave
    · rcases List.mem_append.mp hc' with hold | hnew
      · simp only [hslave, h.slaveData ⟨c', hold, hn⟩]
      · rw [List.mem_singleton.mp hnew] at hn
        exact absurd hn hmine

/-- The line itself stays unmasked, or another one of the slave is masked unasked. -/
theorem FollowsCalls.broken {s : Masking} {c : IrqCall} (h : FollowsCalls s) (hc : DisablesSlave s c) :
    ∃ s', irqStep s c = some s' ∧ ¬ FollowsCalls s' := by
  refine ⟨_, rfl, fun h' => ?_⟩
  obtain ⟨hdisables, hn, hn', k, hk, hk8, hmasked⟩ := hc
  cases c with
  | enableIrq n => cases hdisables
  | disableIrq n =>
    have hline : (disableIrq n.toNat s.pic).masked k = if n.toNat = k then true else s.pic.masked k := by
      rw [h.lines k hk]
      exact (h'.lines k hk).trans (wantsMasked_snoc _ _ _)
    have hn : numPorts ≤ n.toNat := hn
    rw [masked_disableIrq_slave _ hn hn' hk, hmasked] at hline
    split_ifs at hline with hkn
    · simp [hkn] at hline
    · simp [hk8, Ne.symm hkn] at hline

/-- In every run from all lines masked, every state agrees with the calls that led to it if
and only if no line of the slave is ever disabled while one of the slave is unmasked. Calls
with a number above 15 change nothing. -/
theorem masks_follow_calls_iff (masterData slaveData : UInt8) (calls : List IrqCall) :
    ((∀ calls' s, calls' <+: calls → run irqStep (.start masterData slaveData) calls' = some s →
        FollowsCalls s) ↔
      Along irqStep (fun s c => ¬ DisablesSlave s c) (.start masterData slaveData) calls) ∧
    ∀ (c : IrqCall) (p : Pic), 15 < c.irqNum → c.apply p = p := by
  constructor
  · have hmasked : ∀ k < maxPorts, (Masking.start masterData slaveData).pic.masked k = true := by
      simp only [Masking.start, Pic.masked]
      decide
    have hstart : FollowsCalls (.start masterData slaveData) :=
      ⟨fun k hk => hmasked k hk, by simp [Masking.start], by simp [Masking.start]⟩
    refine along_iff (fun _ _ _ _ _ (_ : True) => trivial) ?_ ?_ (along_true _ calls) trivial hstart
    · exact fun s c s' _ _ h hc hs => h.step hc hs
    · exact fun s c _ _ h hc => h.broken (not_not.mp hc)
  · exact fun c p hn => apply_out_of_range p hn

/-- The clock on line 8 and another line of the slave are enabled and the other one is
disabled again: the clock is masked, and the other line is not. -/
theorem disable_masks_other_lines :
    ∃ s, run irqStep (.start 0xFF 0xFF) [.enableIrq 8, .enableIrq 12, .disableIrq 12] = some s ∧
      s.pic.masked 8 = true ∧ wantsMasked s.calls 8 = false ∧
      s.pic.masked 12 = false ∧ wantsMasked s.calls 12 = true ∧ ¬ FollowsCalls s := by
  refine ⟨_, rfl, by decide, by decide, by decide, by decide, fun h => ?_⟩
  exact absurd (h.lines 8 (by decide)) (by decide)

end Ece391.Devices
