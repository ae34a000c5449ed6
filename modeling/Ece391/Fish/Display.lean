import Ece391.Fish.Nodes

/-! The blinking characters on the screen. `mp1_ioctl_add`, the tasklet and
`mp1_ioctl_sync` each choose a character of a node and write it; the last of them always
writes the one for the off state, as the flag that its conditional move looks at is never
set by a test of bit 0. -/

namespace Ece391.Fish

open Function (update)
open Support Support.Runs

/-- The character that goes with the state of a node. -/
def BlinkStruct.shown (s : BlinkStruct) : UInt8 := if s.status &&& 1 ≠ 0 then s.onChar else s.offChar

/-- The screen shows every node of the list in its state. -/
def Shows (b : Blink) (l : List Slot) : Prop :=
  ∀ i ∈ l, b.vmem (b.blinkArray i).offset = (b.blinkArray i).shown

/-- A sound list on which no two nodes have the same location. -/
structure Apart (b : Blink) (l : List Slot) : Prop extends OnList b l where
  apart : ∀ i ∈ l, ∀ j ∈ l, (b.blinkArray i).location = (b.blinkArray j).location → i = j

theorem offset_inj {s t : BlinkStruct} : s.offset = t.offset ↔ s.location = t.location := by
  rw [BlinkStruct.offset, BlinkStruct.offset, ← UInt16.toNat_inj]
  omega

/-! ### The state bit -/

theorem status_on_iff (x : UInt16) : x &&& 1 ≠ 0 ↔ x.toNat % 2 = 1 := by
  rw [ne_eq, ← UInt16.toNat_inj, UInt16.toNat_and]
  change ¬ x.toNat &&& 1 = 0 ↔ _
  rw [Nat.and_one_is_mod]
  omega

/-- `xorw` turns the state over. -/
theorem status_toggle (x : UInt16) : (x ^^^ 1) &&& 1 ≠ 0 ↔ ¬ x &&& 1 ≠ 0 := by
  rw [status_on_iff, status_on_iff, UInt16.toNat_xor]
  change (x.toNat ^^^ 1) % 2 = 1 ↔ _
  rw [Nat.xor_mod_two_eq]
  omega

/-- A node in its other state. -/
def BlinkStruct.turned (s : BlinkStruct) (length : UInt16) : BlinkStruct :=
  { s with countdown := length, status := s.status ^^^ 1 }

theorem turned_shown (s : BlinkStruct) (length : UInt16) : (s.turned length).shown =
    if s.status &&& 1 ≠ 0 then s.offChar else s.onChar := by
  rw [BlinkStruct.shown]
  simp only [BlinkStruct.turned, status_toggle]
  exact ite_not _ _ _

/-- The conditional move is never made. -/
theorem syncChar_eq (s : BlinkStruct) : s.syncChar = s.offChar := by
  refine if_neg (UInt8.not_le.mpr ?_)
  rw [UInt8.lt_iff_toNat_lt, UInt8.toNat_and]
  have hbit : s.status.toUInt8.toNat &&& (1 : UInt8).toNat ≤ 1 := Nat.and_le_right
  exact lt_of_le_of_lt hbit (by decide)

/-! ### One node -/

section Node
variable {b b' : Blink} {l : List Slot} {i : Slot}

theorem Apart.same (h : Apart b l) (hs : SameNodes b b') : Apart b' l where
  toOnList := h.toOnList.same hs
  apart j hj k hk he := by
    rw [hs.location, hs.location] at he
    exact h.apart j hj k hk he

/-- A node is written with the location it had, and a character at that location. -/
theorem shows_write_iff (h : Apart b l) (hb : Shows b l) (hi : i ∈ l) {s : BlinkStruct}
    (hs : s.location = (b.blinkArray i).location) (c : UInt8) :
    Shows ((b.put i s).poke s.offset c) l ↔ c = s.shown := by
  have hself : ((b.put i s).poke s.offset c).blinkArray i = s := Function.update_self ..
  constructor
  · intro hshows
    have hshown := hshows i hi
    rw [hself] at hshown
    rw [← hshown]
    exact (Function.update_self s.offset c b.vmem).symm
  · intro hc j hj
    by_cases hji : j = i
    · subst hji
      rw [hself, ← hc]
      exact Function.update_self s.offset c b.vmem
    · have hother : ((b.put i s).poke s.offset c).blinkArray j = b.blinkArray j :=
        Function.update_of_ne hji ..
      have hoffset : (b.blinkArray j).offset ≠ s.offset := by
        intro he
        rw [offset_inj, hs] at he
        exact hji (h.apart j hj i hi he)
      rw [hother, ← hb j hj]
      exact Function.update_of_ne hoffset c b.vmem

theorem shows_put (hb : Shows b l) {s : BlinkStruct} (hs : s.location = (b.blinkArray i).location)
    (hshown : s.shown = (b.blinkArray i).shown) : Shows (b.put i s) l := by
  intro j hj
  by_cases hji : j = i
  · subst hji
    have hself : (b.put j s).blinkArray j = s := Function.update_self ..
    rw [hself, offset_inj.mpr hs, hshown]
    exact hb j hj
  · have hother : (b.put i s).blinkArray j = b.blinkArray j := Function.update_of_ne hji ..
    rw [hother]
    exact hb j hj

/-- At each node the tasklet leaves the screen in step with the states. -/
theorem blinkNode_shows (h : Apart b l) (hb : Shows b l) (hi : i ∈ l) : Shows (blinkNode b i) l := by
  simp only [blinkNode]
  split_ifs with hcount hon
  · exact shows_put hb rfl rfl
  · refine (shows_write_iff (s := (b.blinkArray i).turned (b.blinkArray i).offLength) h hb hi rfl _).mpr ?_
    rw [turned_shown, if_pos hon]
  · refine (shows_write_iff (s := (b.blinkArray i).turned (b.blinkArray i).onLength) h hb hi rfl _).mpr ?_
    rw [turned_shown, if_neg hon]

theorem blinkNodes_show {m : List Slot} (hm : ∀ i ∈ m, i ∈ l) (h : Apart b l) (hb : Shows b l) :
    Shows (m.foldl blinkNode b) l := by
  induction m generalizing b with
  | nil => exact hb
  | cons i m ih =>
    have hi : i ∈ l := hm i (by simp)
    rw [List.foldl_cons]
    exact ih (fun j hj => hm j (by simp [hj])) (h.same (blinkNode_same b i)) (blinkNode_shows h hb hi)

end Node

/-! ### The calls -/

section Calls
variable {b : Blink} {l : List Slot}

theorem Apart.push (h : Apart b l) {i : Slot} (hi : mp1Malloc b = some i) {s : BlinkStruct}
    (hs : s.location ≠ 0) (hnew : ∀ j ∈ l, (b.blinkArray j).location ≠ s.location) :
    Apart (b.push i s) (i :: l) where
  toOnList := h.toOnList.push s hi hs
  apart j hj k hk he := by
    have hold : ∀ j ∈ i :: l, j ≠ i → j ∈ l := fun j hj hji => (List.mem_cons.mp hj).resolve_left hji
    by_cases hji : j = i <;> by_cases hki : k = i
    · rw [hji, hki]
    · subst hji
      rw [push_self, push_other s hki] at he
      exact absurd he.symm (hnew k (hold k hk hki))
    · subst hki
      rw [push_self, push_other s hji] at he
      exact absurd he (hnew j (hold j hj hji))
    · rw [push_other s hji, push_other s hki] at he
      exact h.apart j (hold j hj hji) k (hold k hk hki) he

theorem push_shows (hb : Shows b l) (i : Slot) {s : BlinkStruct}
    (hnew : ∀ j ∈ l, (b.blinkArray j).location ≠ s.location) :
    Shows (b.push i s) (i :: l) := by
  intro j hj
  by_cases hji : j = i
  · subst hji
    have hon : (1 : UInt16) &&& 1 ≠ 0 := by decide
    rw [push_self, BlinkStruct.shown, if_pos hon]
    exact Function.update_self s.offset s.onChar b.vmem
  · have hmem : j ∈ l := (List.mem_cons.mp hj).resolve_left hji
    have hoffset : (b.blinkArray j).offset ≠ s.offset := mt offset_inj.mp (hnew j hmem)
    rw [push_other s hji, ← hb j hmem]
    exact Function.update_of_ne hoffset s.onChar b.vmem

theorem body_shown {s t : BlinkStruct} (h : s.body = t.body) : s.shown = t.shown :=
  (congrArg BlinkStruct.shown h : s.body.shown = t.body.shown)

theorem Apart.unlink {u v : List Slot} {i : Slot} (h : Apart b (u ++ i :: v)) :
    Apart (b.unlink u i) (u ++ v) where
  toOnList := h.toOnList.unlink
  apart j hj k hk he := by
    rw [body_location (unlink_body (h.not_mem_rest hj)),
      body_location (unlink_body (h.not_mem_rest hk))] at he
    exact h.apart j (mem_unlinked hj) k (mem_unlinked hk) he

theorem unlink_shows {u v : List Slot} {i : Slot} (h : Apart b (u ++ i :: v))
    (hb : Shows b (u ++ i :: v)) : Shows (b.unlink u i) (u ++ v) := by
  intro j hj
  have hbody := unlink_body (b := b) (u := u) (h.not_mem_rest hj)
  have hvmem : (b.unlink u i).vmem = b.vmem := by
    rw [Blink.unlink]
    cases linkBehind .head u <;> rfl
  rw [offset_inj.mpr (body_location hbody), body_shown hbody, hvmem]
  exact hb j (mem_unlinked hj)

/-- `mp1_ioctl_sync` leaves the screen in step exactly when the source is off or the two
characters of the target are the same. -/
theorem copy_shows_iff (h : Apart b l) (hb : Shows b l) {i j : Slot} (hj : j ∈ l) :
    Shows (b.copy i j) l ↔
      ((b.blinkArray i).status &&& 1 ≠ 0 → (b.blinkArray j).onChar = (b.blinkArray j).offChar) := by
  have hlocation : ((b.blinkArray i).sync (b.blinkArray j)).location = (b.blinkArray j).location := rfl
  rw [Blink.copy, shows_write_iff h hb hj hlocation, syncChar_eq, BlinkStruct.shown]
  simp only [BlinkStruct.sync]
  split_ifs with hon
  · simp [hon, eq_comm]
  · simp [hon]

end Calls

/-! ### Sequences of calls -/

/-- A structure is added at a location of the screen, not the first one, that no node of the
list has. -/
def Proper (b : Blink) : Call → Prop
  | .add s => s.location ≠ 0 ∧ s.location < 80 * 25 ∧
      ∀ l, Linked b.next b.listHead l → ∀ i ∈ l, (b.blinkArray i).location ≠ s.location
  | _ => True

/-- A node is synchronised with one that is on, and has two different characters. -/
def SyncsOn (fuel : ℕ) (b : Blink) (c : Call) : Prop :=
  ∃ arg i j, c = .sync arg ∧ mp1FindHelper fuel b (arg >>> 16).toUInt16 = some (some i) ∧
    mp1FindHelper fuel b (arg &&& 0xFFFF).toUInt16 = some (some j) ∧
      (b.blinkArray i).status &&& 1 ≠ 0 ∧ (b.blinkArray j).onChar ≠ (b.blinkArray j).offChar

/-- The screen shows every node of the list, whatever its nodes are. -/
def ScreenAgrees (b : Blink) : Prop := ∀ l, Linked b.next b.listHead l → Shows b l

theorem Apart.screenAgrees_iff {b : Blink} {l : List Slot} (h : Apart b l) :
    ScreenAgrees b ↔ Shows b l :=
  ⟨fun hb => hb l h.linked, fun hb _ hm => linked_unique h.linked hm ▸ hb⟩

section Step
variable {b b' : Blink} {l : List Slot} {c : Call} {ret : ℤ} (ho : Outcome b l c ret b')
include ho

theorem Outcome.apart (h : Apart b l) (hproper : Proper b c) : ∃ l', Apart b' l' := by
  cases ho with
  | refused hc => exact ⟨l, h⟩
  | added s i hlocation hi => exact ⟨i :: l, h.push hi hproper.1 (hproper.2.2 l h.linked)⟩
  | removed arg u i v hl =>
    subst hl
    exact ⟨u ++ v, h.unlink⟩
  | found s => exact ⟨l, h⟩
  | synced arg i j hi hj => exact ⟨l, h.same (copy_same b i j)⟩
  | blinked => exact ⟨l, h.same (blinkNodes_same b l)⟩

theorem Outcome.screenAgrees {fuel : ℕ} (hfuel : blinkNum < fuel) (h : Apart b l)
    (hproper : Proper b c) (hb : ScreenAgrees b) (hguard : ¬ SyncsOn fuel b c) : ScreenAgrees b' := by
  have hshows := h.screenAgrees_iff.mp hb
  cases ho with
  | refused hc => exact hb
  | added s i hlocation hi =>
    have hnew := hproper.2.2 l h.linked
    exact (h.push hi hproper.1 hnew).screenAgrees_iff.mpr (push_shows hshows i hnew)
  | removed arg u i v hl =>
    subst hl
    exact h.unlink.screenAgrees_iff.mpr (unlink_shows h hshows)
  | found s => exact hb
  | synced arg i j hi hj =>
    have hmem : j ∈ l := List.mem_of_find?_eq_some hj
    refine (h.same (copy_same b i j)).screenAgrees_iff.mpr ((copy_shows_iff h hshows hmem).mpr ?_)
    intro hon
    by_contra hchars
    exact hguard ⟨arg, i, j, rfl, by rw [h.find_eq hfuel, hi], by rw [h.find_eq hfuel, hj], hon, hchars⟩
  | blinked =>
    have hfold := blinkNodes_show (fun _ hi => hi) h hshows
    exact (h.same (blinkNodes_same b l)).screenAgrees_iff.mpr hfold

end Step

theorem SyncsOn.breaks {fuel : ℕ} (hfuel : blinkNum < fuel) {b : Blink} {l : List Slot} {c : Call}
    (h : Apart b l) (hb : ScreenAgrees b) (hs : SyncsOn fuel b c) :
    ∃ b', blinkStep fuel b c = some b' ∧ ¬ ScreenAgrees b' := by
  obtain ⟨arg, i, j, rfl, hi, hj, hon, hchars⟩ := hs
  have hcall : mp1IoctlSync fuel b arg = some (0, b.copy i j) := by
    rw [mp1IoctlSync, hi, hj]
    rfl
  refine ⟨b.copy i j, by rw [blinkStep, call, hcall]; rfl, fun hagrees => ?_⟩
  rw [h.find_eq hfuel, Option.some_inj] at hj
  have hmem : j ∈ l := List.mem_of_find?_eq_some hj
  have hshows := (h.same (copy_same b i j)).screenAgrees_iff.mp hagrees
  exact hchars ((copy_shows_iff h (h.screenAgrees_iff.mp hb) hmem).mp hshows hon)

theorem Blink.Start.apart {b : Blink} (hb : b.Start) : Apart b [] :=
  ⟨hb.onList, by simp⟩

/-- In every sequence of calls that adds to fresh locations the screen agrees with the list
in every state on the way exactly when no node with two different characters is
synchronised with one that is on. -/
theorem screen_agrees_iff (b : Blink) (hb : b.Start) (fuel : ℕ) (hfuel : blinkNum < fuel)
    (cs : List Call) (hproper : Along (blinkStep fuel) Proper b cs) :
    (∀ cs' b', cs' <+: cs → blinkRuns fuel b cs' = some b' → ScreenAgrees b') ↔
      Along (blinkStep fuel) (fun b c => ¬ SyncsOn fuel b c) b cs := by
  have hstart := hb.apart
  have hbase : ∀ s c s', Proper s c → blinkStep fuel s c = some s' → (∃ l, Apart s l) →
      ∃ l', Apart s' l' := by
    rintro s c s' hp hs ⟨l, hl⟩
    obtain ⟨ret, ho⟩ := outcome_of_step hl.toOnList hfuel hs
    exact ho.apart hl hp
  refine along_iff hbase ?_ ?_ hproper ⟨[], hstart⟩ (hstart.screenAgrees_iff.mpr (by simp [Shows]))
  · rintro s c s' hp ⟨l, hl⟩ hs hguard hr
    obtain ⟨ret, ho⟩ := outcome_of_step hl.toOnList hfuel hr
    exact ho.screenAgrees hfuel hl hp hs hguard
  · rintro s c - ⟨l, hl⟩ hs hguard
    exact SyncsOn.breaks hfuel hl hs (not_not.mp hguard)

theorem structAt_proper : Proper blank (.add (structAt 7)) := by
  refine ⟨by decide, by decide, fun l hl i hi => ?_⟩
  rw [linked_none hl] at hi
  cases hi

/-- The list with one node. -/
theorem one_apart : Apart (blank.push 0 (structAt 7)) [0] :=
  blank_start.apart.push blank_malloc (by decide) (by simp)

theorem one_run (fuel : ℕ) :
    blinkStep fuel blank (.add (structAt 7)) = some (blank.push 0 (structAt 7)) :=
  blinkStep_add (by decide) blank_malloc fuel

theorem screen_agrees_iff_tick : ∃ b,
    blinkRuns 2001 blank [.add (structAt 7), .tasklet] = some b ∧ ScreenAgrees b := by
  obtain ⟨ret, b, hcall, -⟩ := call_outcome one_apart.toOnList (show blinkNum < 2001 by decide) .tasklet
  have hticks : blinkStep 2001 (blank.push 0 (structAt 7)) .tasklet = some b := by
    rw [blinkStep, hcall]
    rfl
  have hrun : blinkRuns 2001 blank [.add (structAt 7), .tasklet] = some b :=
    run_cons_eq_some.mpr ⟨_, one_run 2001, run_cons_eq_some.mpr ⟨b, hticks, rfl⟩⟩
  have hproper : Along (blinkStep 2001) Proper blank [.add (structAt 7), .tasklet] :=
    ⟨structAt_proper, fun _ _ => ⟨trivial, fun _ _ => trivial⟩⟩
  have hnosync : Along (blinkStep 2001) (fun b c => ¬ SyncsOn 2001 b c) blank
      [.add (structAt 7), .tasklet] := by
    refine ⟨?_, fun _ _ => ⟨?_, fun _ _ => trivial⟩⟩
    · rintro ⟨arg, i, j, hsync, -⟩
      cases hsync
    · rintro ⟨arg, i, j, hsync, -⟩
      cases hsync
  exact ⟨b, hrun, (screen_agrees_iff blank blank_start 2001 (by decide) _ hproper).mpr hnosync _ _
    List.prefix_rfl hrun⟩

/-- A node that is on is synchronised with itself: it stays on, and the screen shows its
character for the off state. -/
theorem sync_shows_off : blank.Start ∧
    Along (blinkStep 2001) Proper blank [.add (structAt 7), .sync 0x70007] ∧ ∃ b,
      blinkRuns 2001 blank [.add (structAt 7), .sync 0x70007] = some b ∧ ¬ ScreenAgrees b := by
  have hshows : ScreenAgrees (blank.push 0 (structAt 7)) :=
    one_apart.screenAgrees_iff.mpr (push_shows (by simp [Shows]) 0 (by simp))
  have hnode : nodeAt (blank.push 0 (structAt 7)) [0] 7 = some 0 := by
    rw [nodeAt, List.find?_cons_of_pos]
    rw [push_self]
    rfl
  have hfind : mp1FindHelper 2001 (blank.push 0 (structAt 7)) 7 = some (some 0) := by
    rw [one_apart.find_eq (by decide), hnode]
  have hsyncs : SyncsOn 2001 (blank.push 0 (structAt 7)) (.sync 0x70007) := by
    refine ⟨0x70007, 0, 0, rfl, hfind, hfind, ?_, ?_⟩
    · rw [push_self]
      decide
    · rw [push_self]
      decide
  obtain ⟨b, hb, hwrong⟩ := hsyncs.breaks (by decide) one_apart hshows
  refine ⟨blank_start, ⟨structAt_proper, fun _ _ => ⟨trivial, fun _ _ => trivial⟩⟩, b, ?_, hwrong⟩
  exact run_cons_eq_some.mpr ⟨_, one_run 2001, run_cons_eq_some.mpr ⟨b, hb, rfl⟩⟩

end Ece391.Fish
