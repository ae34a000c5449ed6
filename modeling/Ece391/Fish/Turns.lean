import Ece391.Fish.Display
import Ece391.Support.Switch

/-! The blinking of one character. Each node is a switch that the tasklet turns over, and the
calls about other locations leave it alone, so what its place on the screen shows is read off
the number of tasklets since it was added. -/

namespace Ece391.Fish

open Function (update)
open Support Support.Runs

/-- The ticks until a node with this countdown turns. The countdown is a signed word, and one
that is not positive ends with the next tick. -/
def duration (x : UInt16) : ℕ := if 1 < x.toNat ∧ x.toNat ≤ 0x8000 then x.toNat else 1

theorem duration_pos (x : UInt16) : 0 < duration x := by
  rw [duration]
  split_ifs <;> omega

theorem countdown_pos_iff (x : UInt16) : 0 < (x - 1).toInt16 ↔ 1 < duration x := by
  have hsigned : (x - 1).toInt16.toInt =
      if 2 * (x - 1).toNat < 2 ^ 16 then ((x - 1).toNat : ℤ) else (x - 1).toNat - (2 ^ 16 : ℕ) :=
    BitVec.toInt_eq_toNat_cond _
  have hlt := x.toNat_lt
  have hone : (1 : UInt16).toNat = 1 := rfl
  have hzero : (0 : Int16).toInt = 0 := rfl
  rw [Int16.lt_iff_toInt_lt, hsigned, UInt16.toNat_sub, hone, hzero, duration]
  split_ifs <;> omega

theorem duration_pred {x : UInt16} (h : 1 < duration x) : duration (x - 1) = duration x - 1 := by
  have hlt := x.toNat_lt
  have hone : (1 : UInt16).toNat = 1 := rfl
  have hx : 1 < x.toNat ∧ x.toNat ≤ 0x8000 := by
    rw [duration] at h
    split_ifs at h with hx
    · exact hx
    · omega
  rw [duration, duration, if_pos hx, UInt16.toNat_sub, hone]
  split_ifs <;> omega

/-! ### One node -/

namespace BlinkStruct

/-- A node as `mp1_ioctl_add` makes it. -/
def started (s : BlinkStruct) : BlinkStruct := { s with status := 1, countdown := s.onLength }.body

/-- A node after a tick. -/
def ticked (s : BlinkStruct) : BlinkStruct :=
  if 1 < duration s.countdown then { s with countdown := s.countdown - 1 }
  else if s.status &&& 1 ≠ 0 then s.turned s.offLength
  else s.turned s.onLength

/-- A node some ticks after it was made. -/
def after (s : BlinkStruct) (n : ℕ) : BlinkStruct := ticked^[n] s.started

/-- The state of a node and the ticks until it turns. -/
def switch (s : BlinkStruct) : Switch := ⟨decide (s.status &&& 1 ≠ 0), duration s.countdown⟩

/-- The fields that stay what they are. -/
def fixed (s : BlinkStruct) : UInt16 × UInt8 × UInt8 × UInt16 × UInt16 :=
  (s.location, s.onChar, s.offChar, s.onLength, s.offLength)

variable (s : BlinkStruct)

theorem ticked_fixed : s.ticked.fixed = s.fixed := by
  rw [ticked]
  split_ifs <;> rfl

theorem ticked_body : s.ticked.body = s.body.ticked := by
  rw [ticked, ticked]
  change _ = if 1 < duration s.countdown then _ else if s.status &&& 1 ≠ 0 then _ else _
  split_ifs <;> rfl

theorem after_fixed (n : ℕ) : (s.after n).fixed = s.fixed := by
  induction n with
  | zero => rfl
  | succ n ih => rw [after, Function.iterate_succ_apply', ticked_fixed, ← after, ih]

theorem after_succ (n : ℕ) : s.after (n + 1) = (s.after n).ticked := Function.iterate_succ_apply' ..

theorem after_location (n : ℕ) : (s.after n).location = s.location :=
  congrArg Prod.fst (s.after_fixed n)

theorem turned_switch (length : UInt16) :
    (s.turned length).switch = ⟨!s.switch.on, duration length⟩ := by
  simp only [switch, turned, status_toggle, decide_not]

theorem ticked_switch :
    s.ticked.switch = s.switch.tick (duration s.onLength) (duration s.offLength) := by
  rw [ticked, Switch.tick]
  by_cases hmore : 1 < duration s.countdown
  · rw [if_pos hmore, if_pos (show 1 < s.switch.left from hmore)]
    simp only [switch, duration_pred hmore]
  · rw [if_neg hmore, if_neg (show ¬ 1 < s.switch.left from hmore)]
    by_cases hon : s.status &&& 1 ≠ 0
    · rw [if_pos hon, turned_switch, if_pos (show s.switch.on = true from decide_eq_true hon)]
    · have hoff : ¬ s.switch.on = true := by
        rw [switch, decide_eq_true_eq]
        exact hon
      rw [if_neg hon, turned_switch, if_neg hoff]

theorem after_switch (n : ℕ) : (s.after n).switch =
    (Switch.tick (duration s.onLength) (duration s.offLength))^[n]
      (Switch.start (duration s.onLength)) := by
  induction n with
  | zero =>
    have hon : decide ((1 : UInt16) &&& 1 ≠ 0) = true := by decide
    exact congrArg (Switch.mk · (duration s.onLength)) hon
  | succ n ih =>
    have hfixed := s.after_fixed n
    simp only [fixed, Prod.mk.injEq] at hfixed
    rw [after_succ, ticked_switch, ih, hfixed.2.2.2.1, hfixed.2.2.2.2, Function.iterate_succ_apply']

/-- A node shows one character for the first ticks of each period and the other one for the
rest. -/
theorem after_shown (n : ℕ) : (s.after n).shown =
    if n % (duration s.onLength + duration s.offLength) < duration s.onLength then s.onChar
    else s.offChar := by
  have hfixed := s.after_fixed n
  simp only [fixed, Prod.mk.injEq] at hfixed
  have hon := congrArg Switch.on (s.after_switch n)
  rw [Switch.on_iterate_tick (duration_pos _) (duration_pos _), switch, decide_eq_decide] at hon
  rw [shown, hfixed.2.1, hfixed.2.2.1]
  simp only [hon]

end BlinkStruct

/-! ### A tick -/

theorem blinkNode_blinkArray (b : Blink) (i : Slot) :
    (blinkNode b i).blinkArray = update b.blinkArray i (b.blinkArray i).ticked := by
  simp only [blinkNode, BlinkStruct.ticked, countdown_pos_iff]
  split_ifs <;> rfl

theorem blinkNode_vmem_other (b : Blink) (i : Slot) {o : ℕ} (ho : o ≠ (b.blinkArray i).offset) :
    (blinkNode b i).vmem o = b.vmem o := by
  simp only [blinkNode]
  split_ifs
  · rfl
  · exact Function.update_of_ne ho ..
  · exact Function.update_of_ne ho ..

theorem blinkNode_vmem_self (b : Blink) (i : Slot)
    (h : b.vmem (b.blinkArray i).offset = (b.blinkArray i).shown) :
    (blinkNode b i).vmem (b.blinkArray i).offset = (b.blinkArray i).ticked.shown := by
  simp only [blinkNode, BlinkStruct.ticked, countdown_pos_iff]
  split_ifs with hmore hon
  · exact h
  · rw [turned_shown, if_pos hon]
    exact Function.update_self ..
  · rw [turned_shown, if_neg hon]
    exact Function.update_self ..

section Tick
variable {l : List Slot} {i : Slot}

theorem ticks_blinkArray (hl : l.Nodup) (b : Blink) (i : Slot) :
    (l.foldl blinkNode b).blinkArray i =
      if i ∈ l then (b.blinkArray i).ticked else b.blinkArray i := by
  induction l generalizing b with
  | nil => rfl
  | cons a l ih =>
    obtain ⟨ha, hl⟩ := List.nodup_cons.mp hl
    rw [List.foldl_cons, ih hl, blinkNode_blinkArray]
    by_cases hi : i = a
    · subst hi
      rw [if_neg ha, if_pos List.mem_cons_self, Function.update_self]
    · rw [Function.update_of_ne hi]
      simp only [List.mem_cons, hi, false_or]

theorem ticks_vmem_other (b : Blink) {o : ℕ} (ho : ∀ i ∈ l, o ≠ (b.blinkArray i).offset) :
    (l.foldl blinkNode b).vmem o = b.vmem o := by
  induction l generalizing b with
  | nil => rfl
  | cons a l ih =>
    rw [List.foldl_cons, ih, blinkNode_vmem_other b a (ho a List.mem_cons_self)]
    intro i hi
    rw [offset_inj.mpr ((blinkNode_same b a).location i)]
    exact ho i (List.mem_cons_of_mem a hi)

/-- The only node at its place shows itself after the tick as well. -/
theorem ticks_vmem_self (b : Blink) (hl : l.Nodup) (hi : i ∈ l)
    (honly : ∀ j ∈ l, (b.blinkArray j).location = (b.blinkArray i).location → j = i)
    (h : b.vmem (b.blinkArray i).offset = (b.blinkArray i).shown) :
    (l.foldl blinkNode b).vmem (b.blinkArray i).offset = (b.blinkArray i).ticked.shown := by
  induction l generalizing b with
  | nil => cases hi
  | cons a l ih =>
    have hsame := blinkNode_same b a
    obtain ⟨ha, hl⟩ := List.nodup_cons.mp hl
    rw [List.foldl_cons]
    by_cases hai : a = i
    · subst hai
      rw [ticks_vmem_other _ fun j hj he => ?_, blinkNode_vmem_self b a h]
      rw [eq_comm, offset_inj, hsame.location] at he
      have hja : j = a := honly j (List.mem_cons_of_mem a hj) he
      exact ha (hja ▸ hj)
    · have hlater : i ∈ l := (List.mem_cons.mp hi).resolve_left (Ne.symm hai)
      have hstays : (blinkNode b a).blinkArray i = b.blinkArray i := by
        rw [blinkNode_blinkArray, Function.update_of_ne (Ne.symm hai)]
      have hother : (b.blinkArray i).offset ≠ (b.blinkArray a).offset := fun he =>
        hai (honly a List.mem_cons_self (offset_inj.mp he).symm)
      have hnext := ih (blinkNode b a) hl hlater
      rw [hstays, blinkNode_vmem_other b a hother] at hnext
      refine hnext (fun j hj he => ?_) h
      rw [hsame.location] at he
      exact honly j (List.mem_cons_of_mem a hj) he

end Tick

/-! ### What the calls do at one location -/

/-- The slot `i` is on the list, with the content `s` and at the location `x`. -/
def At (b : Blink) (l : List Slot) (x : UInt16) (i : Slot) (s : BlinkStruct) : Prop :=
  i ∈ l ∧ (b.blinkArray i).body = s ∧ s.location = x

/-- The nodes at a location and its character are what they were. -/
structure SameAt (x : UInt16) (b : Blink) (l : List Slot) (b' : Blink) (l' : List Slot) : Prop where
  nodes : ∀ i s, At b' l' x i s ↔ At b l x i s
  vmem : b'.vmem (2 * x.toNat) = b.vmem (2 * x.toNat)

/-- The call is about another location. -/
def Spares (x : UInt16) : Call → Prop
  | .add s => s.location ≠ x
  | .remove arg => arg.toUInt16 ≠ x
  | .sync arg => (arg &&& 0xFFFF).toUInt16 ≠ x
  | _ => True

theorem At.location {b : Blink} {l : List Slot} {x : UInt16} {i : Slot} {s : BlinkStruct}
    (h : At b l x i s) : (b.blinkArray i).location = x :=
  (congrArg BlinkStruct.location h.2.1 : (b.blinkArray i).body.location = _).trans h.2.2

theorem at_congr {b b' : Blink} {l l' : List Slot} {x : UInt16} {i : Slot} {s : BlinkStruct}
    (hmem : i ∈ l' ↔ i ∈ l) (hbody : (b'.blinkArray i).body = (b.blinkArray i).body) :
    At b' l' x i s ↔ At b l x i s := by
  rw [At, At, hmem, hbody]

theorem SameAt.refl (x : UInt16) (b : Blink) (l : List Slot) : SameAt x b l b l :=
  ⟨fun _ _ => Iff.rfl, rfl⟩

theorem SameAt.trans {x : UInt16} {b b' b'' : Blink} {l l' l'' : List Slot} (h : SameAt x b l b' l')
    (h' : SameAt x b' l' b'' l'') : SameAt x b l b'' l'' :=
  ⟨fun i s => (h'.nodes i s).trans (h.nodes i s), h'.vmem.trans h.vmem⟩

theorem offset_ne {x : UInt16} {s : BlinkStruct} (h : s.location ≠ x) : 2 * x.toNat ≠ s.offset := by
  intro he
  have hnat : x.toNat = s.location.toNat := Nat.eq_of_mul_eq_mul_left (by decide : 0 < 2) he
  exact h (UInt16.toNat_inj.mp hnat).symm

section Calls
variable {b b' : Blink} {l : List Slot} {x : UInt16} {fuel : ℕ}

theorem push_sameAt (h : OnList b l) {i : Slot} (hi : mp1Malloc b = some i) {s : BlinkStruct}
    (hs : s.location ≠ x) : SameAt x b l (b.push i s) (i :: l) where
  nodes j t := by
    by_cases hj : j = i
    · subst hj
      have hnot : ¬ At (b.push j s) (j :: l) x j t := by
        intro hat
        have hlocation := hat.location
        rw [push_self] at hlocation
        exact hs hlocation
      exact iff_of_false hnot fun hat => h.malloc_not_mem hi hat.1
    · exact at_congr (by rw [List.mem_cons, or_iff_right hj]) (by rw [push_other s hj])
  vmem := Function.update_of_ne (offset_ne hs) ..

theorem unlink_sameAt {u v : List Slot} {i : Slot} (h : OnList b (u ++ i :: v))
    (hi : (b.blinkArray i).location ≠ x) : SameAt x b (u ++ i :: v) (b.unlink u i) (u ++ v) where
  nodes j t := by
    by_cases hj : j = i
    · subst hj
      exact iff_of_false (fun hat => h.not_mem_rest hat.1 rfl) fun hat => hi hat.location
    · refine at_congr ?_ (unlink_body hj)
      simp only [List.mem_append, List.mem_cons, hj, false_or]
  vmem := by
    rw [Blink.unlink]
    cases linkBehind .head u <;> rfl

theorem copy_sameAt {i j : Slot} (hj : (b.blinkArray j).location ≠ x) :
    SameAt x b l (b.copy i j) l where
  nodes k t := by
    by_cases hk : k = j
    · subst hk
      have hnot : ¬ At (b.copy i k) l x k t := by
        intro hat
        have hlocation := hat.location
        rw [(copy_same b i k).location] at hlocation
        exact hj hlocation
      exact iff_of_false hnot fun hat => hj hat.location
    · have hother : (b.copy i j).blinkArray k = b.blinkArray k := Function.update_of_ne hk ..
      exact at_congr Iff.rfl (by rw [hother])
  vmem := by
    have hlocation : ((b.blinkArray i).sync (b.blinkArray j)).location ≠ x := hj
    exact Function.update_of_ne (offset_ne hlocation) ..

/-- The node that `mp1_ioctl_remove` takes out is the one that its argument names. -/
theorem OnList.remove_outcome (h : OnList b l) (hfuel : blinkNum < fuel) {arg : UInt32}
    (hs : blinkStep fuel b (.remove arg) = some b') : b' = b ∨
      ∃ u i v, l = u ++ i :: v ∧ (b.blinkArray i).location = arg.toUInt16 ∧ b' = b.unlink u i := by
  rw [blinkStep, call, mp1IoctlRemove, h.find_eq hfuel, Option.bind_some] at hs
  cases hfind : nodeAt b l arg.toUInt16 with
  | none =>
    rw [hfind] at hs
    exact .inl (Option.some_inj.mp hs).symm
  | some i =>
    obtain ⟨hlocation, u, v, rfl, -⟩ := List.find?_eq_some_iff_append.mp hfind
    have hdistinct := List.nodup_append.mp h.distinct
    have hlen := h.length_le
    rw [List.length_append] at hlen
    have hprev : findPrev b i fuel .head = some (linkBehind .head u) :=
      findPrev_eq h.linked (by omega) fun hu => hdistinct.2.2 i hu i List.mem_cons_self rfl
    rw [hfind] at hs
    simp only [hprev, Option.map_some, Option.some_inj] at hs
    exact .inr ⟨u, i, v, rfl, by simpa using hlocation, hs.symm⟩

/-- A call about another location, if it is not a tasklet. -/
theorem step_sameAt (h : OnList b l) (hfuel : blinkNum < fuel) {c : Call} (hc : c ≠ .tasklet)
    (hspares : Spares x c) (hguard : ¬ AddsZero b c) (hs : blinkStep fuel b c = some b') :
    ∃ l', OnList b' l' ∧ SameAt x b l b' l' := by
  cases c with
  | remove arg =>
    rcases h.remove_outcome hfuel hs with rfl | ⟨u, i, v, rfl, hlocation, rfl⟩
    · exact ⟨l, h, .refl x _ l⟩
    · exact ⟨u ++ v, h.unlink, unlink_sameAt h (hlocation ▸ hspares)⟩
  | add s =>
    obtain ⟨ret, ho⟩ := outcome_of_step h hfuel hs
    cases ho with
    | refused => exact ⟨l, h, .refl x _ l⟩
    | added _ i hlocation hi =>
      have hzero : s.location ≠ 0 := fun hzero => hguard ⟨s, rfl, hzero, by simp [hi]⟩
      exact ⟨i :: l, h.push s hi hzero, push_sameAt h hi hspares⟩
  | find s =>
    obtain ⟨ret, ho⟩ := outcome_of_step h hfuel hs
    cases ho with
    | refused => exact ⟨l, h, .refl x _ l⟩
    | found => exact ⟨l, h, .refl x _ l⟩
  | sync arg =>
    obtain ⟨ret, ho⟩ := outcome_of_step h hfuel hs
    cases ho with
    | refused => exact ⟨l, h, .refl x _ l⟩
    | synced _ i j hi hj =>
      have hlocation : (b.blinkArray j).location = (arg &&& 0xFFFF).toUInt16 := by
        simpa using List.find?_some hj
      exact ⟨l, h.same (copy_same b i j), copy_sameAt (hlocation ▸ hspares)⟩
  | tasklet => exact absurd rfl hc

end Calls

/-! ### Over a sequence of calls -/

/-- The only node at its location, some ticks after it was added, and its place on the
screen. -/
structure Blinking (b : Blink) (l : List Slot) (s : BlinkStruct) (n : ℕ) : Prop where
  node : ∃ i, At b l s.location i (s.after n) ∧ ∀ j t, At b l s.location j t → j = i
  shown : b.vmem s.offset = (s.after n).shown

/-- No node is at the location, and its place on the screen shows `c`. -/
structure Vacant (b : Blink) (l : List Slot) (x : UInt16) (c : UInt8) : Prop where
  node : ∀ i t, ¬ At b l x i t
  shown : b.vmem (2 * x.toNat) = c

/-- The tasklets of a sequence of calls. -/
def ticks : List Call → ℕ
  | [] => 0
  | .tasklet :: cs => ticks cs + 1
  | _ :: cs => ticks cs

theorem ticks_cons {c : Call} (hc : c ≠ .tasklet) (cs : List Call) : ticks (c :: cs) = ticks cs := by
  cases c with
  | tasklet => exact absurd rfl hc
  | add | remove | find | sync => rfl

section Step
variable {b b' : Blink} {l l' : List Slot} {s : BlinkStruct} {n : ℕ} {x : UInt16} {c : UInt8}

theorem Blinking.same (h : Blinking b l s n) (hs : SameAt s.location b l b' l') :
    Blinking b' l' s n where
  node := by
    obtain ⟨i, hi, honly⟩ := h.node
    exact ⟨i, (hs.nodes i _).mpr hi, fun j t hj => honly j t ((hs.nodes j t).mp hj)⟩
  shown := hs.vmem.trans h.shown

theorem Vacant.same (h : Vacant b l x c) (hs : SameAt x b l b' l') : Vacant b' l' x c where
  node i t hi := h.node i t ((hs.nodes i t).mp hi)
  shown := hs.vmem.trans h.shown

theorem Blinking.tick (h : Blinking b l s n) (hl : l.Nodup) :
    Blinking (l.foldl blinkNode b) l s (n + 1) := by
  obtain ⟨i, ⟨hi, hbody, hlocation⟩, honly⟩ := h.node
  have hplace : (b.blinkArray i).location = s.location := At.location ⟨hi, hbody, hlocation⟩
  have hself := ticks_blinkArray hl b i
  rw [if_pos hi] at hself
  constructor
  · refine ⟨i, ⟨hi, ?_, s.after_location (n + 1)⟩, fun j t hj => ?_⟩
    · rw [hself, BlinkStruct.ticked_body, hbody, s.after_succ]
    · have hthere := hj.location
      rw [(blinkNodes_same b l).location] at hthere
      exact honly j _ ⟨hj.1, rfl, hthere⟩
  · have hshown : (b.blinkArray i).shown = (s.after n).shown :=
      body_shown (hbody.trans (hbody ▸ rfl : _ = (s.after n).body))
    have hoffset : (b.blinkArray i).offset = s.offset := offset_inj.mpr hplace
    have hscreen := ticks_vmem_self b hl hi
      (fun j hj he => honly j _ ⟨hj, rfl, he.trans hplace⟩) (by rw [hoffset, h.shown, hshown])
    rw [hoffset] at hscreen
    rw [hscreen, s.after_succ, ← hbody, ← BlinkStruct.ticked_body]
    rfl

theorem Vacant.tick (h : Vacant b l x c) : Vacant (l.foldl blinkNode b) l x c := by
  have hnone : ∀ i ∈ l, (b.blinkArray i).location ≠ x := fun i hi he => h.node i _ ⟨hi, rfl, he⟩
  constructor
  · intro i t hi
    have hthere := hi.location
    rw [(blinkNodes_same b l).location] at hthere
    exact hnone i hi.1 hthere
  · rw [ticks_vmem_other b fun i hi => offset_ne (hnone i hi), h.shown]

end Step

section Run
variable {fuel : ℕ} (hfuel : blinkNum < fuel)
include hfuel

theorem step_tasklet {b : Blink} {l : List Slot} (h : OnList b l) :
    blinkStep fuel b .tasklet = some (l.foldl blinkNode b) := by
  rw [blinkStep, call, mp1RtcTasklet, taskletLoop_eq h.linked (lt_of_le_of_lt h.length_le hfuel)]
  rfl

/-- What a sequence of calls about other locations does at one location. -/
theorem run_at {b : Blink} {l : List Slot} (h : OnList b l) {x : UInt16} {cs : List Call}
    (hguard : Along (blinkStep fuel) (fun b c => ¬ AddsZero b c) b cs)
    (hspares : ∀ c ∈ cs, Spares x c) : ∃ b' l', blinkRuns fuel b cs = some b' ∧ OnList b' l' ∧
      (∀ s n, s.location = x → Blinking b l s n → Blinking b' l' s (n + ticks cs)) ∧
      ∀ c, Vacant b l x c → Vacant b' l' x c := by
  induction cs generalizing b l with
  | nil => exact ⟨b, l, rfl, h, fun s n _ hb => hb, fun c hc => hc⟩
  | cons c cs ih =>
    have hrest : ∀ c ∈ cs, Spares x c := fun c hc => hspares c (List.mem_cons_of_mem _ hc)
    by_cases hc : c = .tasklet
    · subst hc
      have hstep := step_tasklet hfuel h
      obtain ⟨b', l', hrun, h', hblinking, hvacant⟩ :=
        ih (h.same (blinkNodes_same b l)) (hguard.2 _ hstep) hrest
      refine ⟨b', l', run_cons_eq_some.mpr ⟨_, hstep, hrun⟩, h', fun s n hx hb => ?_, fun c hv => ?_⟩
      · have hnext := hblinking s (n + 1) hx (hb.tick h.distinct)
        rwa [Nat.add_right_comm] at hnext
      · exact hvacant c hv.tick
    · obtain ⟨ret, b₁, hcall, -⟩ := call_outcome h hfuel c
      have hstep : blinkStep fuel b c = some b₁ := by
        rw [blinkStep, hcall]
        rfl
      obtain ⟨l₁, h₁, hsame⟩ := step_sameAt h hfuel hc (hspares c List.mem_cons_self) hguard.1 hstep
      obtain ⟨b', l', hrun, h', hblinking, hvacant⟩ := ih h₁ (hguard.2 _ hstep) hrest
      refine ⟨b', l', run_cons_eq_some.mpr ⟨_, hstep, hrun⟩, h', fun s n hx hb => ?_, fun c hv => ?_⟩
      · rw [ticks_cons hc]
        exact hblinking s n hx (hb.same (hx ▸ hsame))
      · exact hvacant c (hv.same hsame)

end Run

theorem push_blinking {b : Blink} {l : List Slot} {i : Slot} {s : BlinkStruct}
    (hnew : ∀ j t, ¬ At b l s.location j t) : Blinking (b.push i s) (i :: l) s 0 where
  node := by
    refine ⟨i, ⟨List.mem_cons_self, by rw [push_self]; rfl, rfl⟩, fun j t hj => ?_⟩
    by_contra hji
    have hmem := (List.mem_cons.mp hj.1).resolve_left hji
    refine hnew j t ⟨hmem, ?_, hj.2.2⟩
    rw [← push_other s hji]
    exact hj.2.1
  shown := by
    have hon : (1 : UInt16) &&& 1 ≠ 0 := by decide
    refine (Function.update_self ..).trans ?_
    exact (if_pos hon).symm

/-- A character that is added where no other one blinks is shown for the first ticks of each
of its periods, and the other one for the rest, through any calls about other locations. -/
theorem blinks_with_period (b : Blink) (hb : b.Start) (fuel : ℕ) (hfuel : blinkNum < fuel)
    (cs : List Call) (b₁ : Blink) (hcs : Along (blinkStep fuel) (fun b c => ¬ AddsZero b c) b cs)
    (hrun : blinkRuns fuel b cs = some b₁) (s : BlinkStruct) (hadded : (mp1IoctlAdd b₁ s).1 = 0)
    (hnew : mp1FindHelper fuel b₁ s.location = some none) (cs' : List Call)
    (hcs' : Along (blinkStep fuel) (fun b c => ¬ AddsZero b c) b₁ (.add s :: cs'))
    (hspares : ∀ c ∈ cs', Spares s.location c) :
    ∃ b', blinkRuns fuel b₁ (.add s :: cs') = some b' ∧ b'.vmem s.offset =
      if ticks cs' % (duration s.onLength + duration s.offLength) < duration s.onLength then s.onChar
      else s.offChar := by
  have hsound : ∃ l, OnList b₁ l := by
    refine invariant_along (fun b => ∃ l, OnList b l) ?_ hcs hrun ⟨[], hb.onList⟩
    rintro s c s' hguard hstep ⟨l, hl⟩
    obtain ⟨ret, ho⟩ := outcome_of_step hl hfuel hstep
    exact ho.onList hl hguard
  obtain ⟨l, h⟩ := hsound
  have ho := mp1IoctlAdd_outcome (b := b₁) (l := l) s
  rcases hcall : mp1IoctlAdd b₁ s with ⟨ret, b₂⟩
  rw [hcall] at ho hadded
  obtain rfl : ret = 0 := hadded
  cases ho with
  | added _ i hlocation hi =>
    have hstep := blinkStep_add hlocation hi fuel
    have hzero : s.location ≠ 0 := fun hzero => hcs'.1 ⟨s, rfl, hzero, by simp [hi]⟩
    have hfree : ∀ j t, ¬ At b₁ l s.location j t := by
      intro j t hj
      rw [h.find_eq hfuel, Option.some_inj] at hnew
      have hno := List.find?_eq_none.mp hnew j hj.1
      rw [decide_eq_true_eq] at hno
      exact hno hj.location
    obtain ⟨b', l', hrest, -, hblinking, -⟩ :=
      run_at hfuel (h.push s hi hzero) (hcs'.2 _ hstep) hspares
    have hend := (hblinking s 0 rfl (push_blinking hfree)).shown
    refine ⟨b', run_cons_eq_some.mpr ⟨_, hstep, hrest⟩, ?_⟩
    rw [hend, Nat.zero_add, BlinkStruct.after_shown]

/-- Calls about another location while the clock ticks. -/
def elsewhere : List Call := List.replicate 8 .tasklet ++ [.add (structAt 9), .sync 0x70009, .remove 9]

theorem mem_elsewhere {c : Call} (h : c ∈ elsewhere) :
    c = .tasklet ∨ c = .add (structAt 9) ∨ c = .sync 0x70009 ∨ c = .remove 9 := by
  simp only [elsewhere, List.mem_append, List.mem_replicate, List.mem_cons, List.not_mem_nil,
    or_false] at h
  tauto

/-- The structure of `main` shows its second character after 8 ticks, whatever is added, tied
together and removed elsewhere. -/
theorem blinks_with_period_main : ∃ b',
    blinkRuns 2001 blank (.add (structAt 7) :: elsewhere) = some b' ∧ b'.vmem 14 = 0x4D := by
  have hnonzero : ∀ c ∈ Call.add (structAt 7) :: elsewhere, ∀ b, ¬ AddsZero b c := by
    rintro c hc b ⟨s, rfl, hzero, -⟩
    have hplaces : s = structAt 7 ∨ s = structAt 9 := by
      rcases List.mem_cons.mp hc with hc | hc
      · cases hc
        exact .inl rfl
      · rcases mem_elsewhere hc with hc | hc | hc | hc <;> cases hc
        exact .inr rfl
    rcases hplaces with rfl | rfl
    · exact absurd hzero (by decide)
    · exact absurd hzero (by decide)
  have hspares : ∀ c ∈ elsewhere, Spares (structAt 7).location c := by
    intro c hc
    rcases mem_elsewhere hc with rfl | rfl | rfl | rfl
    · trivial
    · exact (by decide : (9 : UInt16) ≠ 7)
    · exact (by decide : ((0x70009 : UInt32) &&& 0xFFFF).toUInt16 ≠ 7)
    · exact (by decide : (9 : UInt32).toUInt16 ≠ 7)
  have hadded : (mp1IoctlAdd blank (structAt 7)).1 = 0 := by
    rw [mp1IoctlAdd, if_neg (by decide), blank_malloc]
  obtain ⟨b', hrun, hshown⟩ := blinks_with_period blank blank_start 2001 (by decide) [] blank trivial rfl
    (structAt 7) hadded rfl elsewhere (along_of_forall hnonzero blank) hspares
  exact ⟨b', hrun, hshown.trans (by decide)⟩

end Ece391.Fish
