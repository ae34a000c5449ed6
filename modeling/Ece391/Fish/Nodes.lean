import Ece391.Fish.Blink
import Ece391.Support.Linked

/-! The list of blinking characters. Whether a slot is on the list is said by the links of
`blink.S` and, for `mp1_malloc`, by the location in the slot; the two agree as long as no
node has location 0, which `mp1_ioctl_add` accepts. -/

namespace Ece391.Fish

open Function (update)
open Support Support.Runs

/-- The nodes from `mp1_list_head` on are `l`: different slots, none of which `mp1_malloc`
takes for a free one. -/
structure OnList (b : Blink) (l : List Slot) : Prop where
  linked : Linked b.next b.listHead l
  distinct : l.Nodup
  taken : ∀ i ∈ l, (b.blinkArray i).location ≠ 0

theorem OnList.length_le {b : Blink} {l : List Slot} (h : OnList b l) : l.length ≤ blinkNum := by
  simpa using h.distinct.length_le_card

theorem mp1Malloc_free {b : Blink} {i : Slot} (h : mp1Malloc b = some i) :
    (b.blinkArray i).location = 0 := by
  simpa using List.find?_some h

theorem OnList.malloc_not_mem {b : Blink} {l : List Slot} (h : OnList b l) {i : Slot}
    (hi : mp1Malloc b = some i) : i ∉ l := fun hmem => h.taken i hmem (mp1Malloc_free hi)

/-- The first slot is handed out when it is free. -/
theorem mp1Malloc_zero {b : Blink} (h : (b.blinkArray 0).location = 0) : mp1Malloc b = some 0 := by
  rw [mp1Malloc, List.finRange_succ, List.find?_cons_of_pos (by simpa using h)]

/-! ### The loops -/

/-- The first node with a location. -/
def nodeAt (b : Blink) (l : List Slot) (location : UInt16) : Option Slot :=
  l.find? fun i => (b.blinkArray i).location = location

theorem findLoop_eq {b : Blink} (location : UInt16) {fuel : ℕ} {o : Option Slot} {l : List Slot}
    (h : Linked b.next o l) (hfuel : l.length < fuel) :
    findLoop b location fuel o = some (nodeAt b l location) := by
  unfold nodeAt
  induction l generalizing o fuel with
  | nil =>
    obtain rfl : o = none := h
    obtain ⟨fuel, rfl⟩ := Nat.exists_eq_add_of_lt hfuel
    rfl
  | cons i l ih =>
    obtain ⟨rfl, h⟩ := h
    obtain ⟨fuel, rfl⟩ := Nat.exists_eq_add_of_lt hfuel
    rw [findLoop]
    split_ifs with hi
    · rw [List.find?_cons_of_pos (by simpa using hi)]
    · rw [List.find?_cons_of_neg (by simpa using hi)]
      exact ih h (by simp only [List.length_cons]; omega)

/-- Nothing but the countdowns, the lengths, the states and the screen changed. -/
structure SameNodes (b b' : Blink) : Prop where
  listHead : b'.listHead = b.listHead
  next : ∀ i, b'.next i = b.next i
  location : ∀ i, (b'.blinkArray i).location = (b.blinkArray i).location
  onChar : ∀ i, (b'.blinkArray i).onChar = (b.blinkArray i).onChar
  offChar : ∀ i, (b'.blinkArray i).offChar = (b.blinkArray i).offChar

theorem SameNodes.refl (b : Blink) : SameNodes b b :=
  ⟨rfl, fun _ => rfl, fun _ => rfl, fun _ => rfl, fun _ => rfl⟩

theorem SameNodes.trans {b b' b'' : Blink} (h : SameNodes b b') (h' : SameNodes b' b'') :
    SameNodes b b'' where
  listHead := h'.listHead.trans h.listHead
  next i := (h'.next i).trans (h.next i)
  location i := (h'.location i).trans (h.location i)
  onChar i := (h'.onChar i).trans (h.onChar i)
  offChar i := (h'.offChar i).trans (h.offChar i)

theorem OnList.same {b b' : Blink} {l : List Slot} (h : OnList b l) (hs : SameNodes b b') :
    OnList b' l where
  linked := by
    rw [hs.listHead]
    exact linked_congr h.linked fun i _ => hs.next i
  distinct := h.distinct
  taken i hi := by
    rw [hs.location i]
    exact h.taken i hi

/-- A slot written with the link, the location and the characters it had. -/
theorem put_same {b : Blink} {i : Slot} {s : BlinkStruct} (hnext : s.next = (b.blinkArray i).next)
    (hlocation : s.location = (b.blinkArray i).location) (hon : s.onChar = (b.blinkArray i).onChar)
    (hoff : s.offChar = (b.blinkArray i).offChar) : SameNodes b (b.put i s) := by
  refine ⟨rfl, fun j => ?_, fun j => ?_, fun j => ?_, fun j => ?_⟩
  all_goals
    by_cases hj : j = i
    · subst hj
      simpa [Blink.put, Blink.next]
    · simp [Blink.put, Blink.next, hj]

theorem poke_same (b : Blink) (offset : ℕ) (c : UInt8) : SameNodes b (b.poke offset c) :=
  ⟨rfl, fun _ => rfl, fun _ => rfl, fun _ => rfl, fun _ => rfl⟩

theorem blinkNode_same (b : Blink) (i : Slot) : SameNodes b (blinkNode b i) := by
  simp only [blinkNode]
  split_ifs
  · exact put_same rfl rfl rfl rfl
  · exact (poke_same b _ _).trans (put_same rfl rfl rfl rfl)
  · exact (poke_same b _ _).trans (put_same rfl rfl rfl rfl)

theorem blinkNodes_same (b : Blink) (l : List Slot) : SameNodes b (l.foldl blinkNode b) := by
  induction l generalizing b with
  | nil => exact SameNodes.refl b
  | cons i l ih => exact (blinkNode_same b i).trans (ih (blinkNode b i))

theorem taskletLoop_eq {b : Blink} {fuel : ℕ} {o : Option Slot} {l : List Slot}
    (h : Linked b.next o l) (hfuel : l.length < fuel) :
    taskletLoop fuel b o = some (l.foldl blinkNode b) := by
  induction l generalizing b o fuel with
  | nil =>
    obtain rfl : o = none := h
    obtain ⟨fuel, rfl⟩ := Nat.exists_eq_add_of_lt hfuel
    rfl
  | cons i l ih =>
    obtain ⟨rfl, h⟩ := h
    obtain ⟨fuel, rfl⟩ := Nat.exists_eq_add_of_lt hfuel
    have hsame := blinkNode_same b i
    rw [taskletLoop, List.foldl_cons]
    refine ih ?_ (by simp only [List.length_cons]; omega)
    rw [hsame.next i]
    exact linked_congr h fun j _ => hsame.next j

/-- The pointer to the node behind the nodes `u`, which begin at the pointer `p`. -/
def linkBehind : Link → List Slot → Link
  | p, [] => p
  | _, a :: u => linkBehind (.next a) u

theorem linkBehind_append (p : Link) (u : List Slot) (a : Slot) :
    linkBehind p (u ++ [a]) = .next a := by
  induction u generalizing p with
  | nil => rfl
  | cons c u ih => exact ih (.next c)

theorem findPrev_eq {b : Blink} {i : Slot} {fuel : ℕ} {p : Link} {u v : List Slot}
    (h : Linked b.next (b.load p) (u ++ i :: v)) (hfuel : u.length < fuel) (hi : i ∉ u) :
    findPrev b i fuel p = some (linkBehind p u) := by
  induction u generalizing p fuel with
  | nil =>
    obtain ⟨fuel, rfl⟩ := Nat.exists_eq_add_of_lt hfuel
    rw [findPrev, h.1]
    simp [linkBehind]
  | cons a u ih =>
    obtain ⟨fuel, rfl⟩ := Nat.exists_eq_add_of_lt hfuel
    rw [List.mem_cons, not_or] at hi
    rw [findPrev, h.1]
    simp only [Ne.symm hi.1, if_false]
    exact ih (p := .next a) h.2 (by simp only [List.length_cons]; omega) hi.2

/-! ### The calls -/

namespace Blink
variable (b : Blink)

/-- A new node in front of the list, with its character on the screen. -/
def push (i : Slot) (s : BlinkStruct) : Blink :=
  let s := { s with status := 1, countdown := s.onLength }
  { b.put i { s with next := b.listHead } with listHead := some i }.poke s.offset s.onChar

/-- The node behind the nodes `u` is taken out and its slot cleared. -/
def unlink (u : List Slot) (i : Slot) : Blink :=
  mp1Free (b.store (linkBehind .head u) (b.next i)) i

/-- The node `j` gets the lengths, the countdown and the state of the node `i`. -/
def copy (i j : Slot) : Blink :=
  let s := (b.blinkArray i).sync (b.blinkArray j)
  (b.put j s).poke s.offset s.syncChar

end Blink

/-- What a call can do when the nodes of the list are `l`, with its result. -/
inductive Outcome (b : Blink) (l : List Slot) : Call → ℤ → Blink → Prop
  | refused (c : Call) (hc : c ≠ .tasklet) : Outcome b l c (-1) b
  | added (s : BlinkStruct) (i : Slot) (hlocation : s.location < 80 * 25) (hi : mp1Malloc b = some i) :
    Outcome b l (.add s) 0 (b.push i s)
  | removed (arg : UInt32) (u : List Slot) (i : Slot) (v : List Slot) (hl : l = u ++ i :: v) :
    Outcome b l (.remove arg) 0 (b.unlink u i)
  | found (s : BlinkStruct) : Outcome b l (.find s) 0 b
  | synced (arg : UInt32) (i j : Slot)
    (hi : nodeAt b l (arg >>> 16).toUInt16 = some i)
    (hj : nodeAt b l (arg &&& 0xFFFF).toUInt16 = some j) :
    Outcome b l (.sync arg) 0 (b.copy i j)
  | blinked : Outcome b l .tasklet 0 (l.foldl blinkNode b)

section Calls
variable {b : Blink} {l : List Slot} (h : OnList b l) {fuel : ℕ} (hfuel : blinkNum < fuel)
include h hfuel

theorem OnList.find_eq (location : UInt16) :
    mp1FindHelper fuel b location = some (nodeAt b l location) :=
  findLoop_eq location h.linked (lt_of_le_of_lt h.length_le hfuel)

omit h hfuel in
theorem mp1IoctlAdd_outcome (s : BlinkStruct) :
    Outcome b l (.add s) (mp1IoctlAdd b s).1 (mp1IoctlAdd b s).2 := by
  rw [mp1IoctlAdd]
  split_ifs with hlocation
  · exact .refused _ (by simp)
  · cases hi : mp1Malloc b with
    | none => exact .refused _ (by simp)
    | some i => exact .added s i (UInt16.not_le.mp hlocation) hi

theorem mp1IoctlRemove_outcome (arg : UInt32) :
    ∃ ret b', mp1IoctlRemove fuel b arg = some (ret, b') ∧ Outcome b l (.remove arg) ret b' := by
  rw [mp1IoctlRemove, h.find_eq hfuel, Option.bind_some]
  cases hfind : nodeAt b l arg.toUInt16 with
  | none => exact ⟨-1, b, rfl, .refused _ (by simp)⟩
  | some i =>
    obtain ⟨-, u, v, rfl, -⟩ := List.find?_eq_some_iff_append.mp hfind
    have hlen := h.length_le
    have hi : i ∉ u := by
      have hdistinct := List.nodup_append.mp h.distinct
      exact fun hu => hdistinct.2.2 i hu i (by simp) rfl
    have hprev : findPrev b i fuel .head = some (linkBehind .head u) := by
      refine findPrev_eq h.linked ?_ hi
      rw [List.length_append] at hlen
      omega
    simp only [hprev, Option.map_some]
    exact ⟨0, _, rfl, .removed arg u i v rfl⟩

theorem mp1IoctlSync_outcome (arg : UInt32) :
    ∃ ret b', mp1IoctlSync fuel b arg = some (ret, b') ∧ Outcome b l (.sync arg) ret b' := by
  rw [mp1IoctlSync, h.find_eq hfuel, h.find_eq hfuel, Option.bind_some]
  cases hi : nodeAt b l (arg >>> 16).toUInt16 with
  | none => exact ⟨-1, b, rfl, .refused _ (by simp)⟩
  | some i =>
    simp only [Option.map_some]
    cases hj : nodeAt b l (arg &&& 0xFFFF).toUInt16 with
    | none => exact ⟨-1, b, rfl, .refused _ (by simp)⟩
    | some j => exact ⟨0, b.copy i j, rfl, .synced arg i j hi hj⟩

/-- On a sound list every call returns. -/
theorem call_outcome (c : Call) :
    ∃ ret b', call fuel b c = some (ret, b') ∧ Outcome b l c ret b' := by
  cases c with
  | add s => exact ⟨_, _, rfl, mp1IoctlAdd_outcome s⟩
  | remove arg => exact mp1IoctlRemove_outcome h hfuel arg
  | find s =>
    rw [call, mp1IoctlFind, h.find_eq hfuel]
    cases nodeAt b l s.location with
    | none => exact ⟨-1, b, rfl, .refused _ (by simp)⟩
    | some i => exact ⟨0, b, rfl, .found s⟩
  | sync arg => exact mp1IoctlSync_outcome h hfuel arg
  | tasklet =>
    have hloop := taskletLoop_eq h.linked (lt_of_le_of_lt h.length_le hfuel)
    rw [call, mp1RtcTasklet, hloop]
    exact ⟨0, _, rfl, .blinked⟩

theorem outcome_of_step {c : Call} {b' : Blink} (hs : blinkStep fuel b c = some b') :
    ∃ ret, Outcome b l c ret b' := by
  obtain ⟨ret, b₁, hcall, ho⟩ := call_outcome h hfuel c
  obtain rfl : b₁ = b' := by simpa [blinkStep, hcall] using hs
  exact ⟨ret, ho⟩

end Calls

/-! ### What the calls do to the list -/

section Push
variable {b : Blink} {l : List Slot} {i : Slot} (s : BlinkStruct)

theorem push_other {j : Slot} (hj : j ≠ i) : (b.push i s).blinkArray j = b.blinkArray j := by
  simp [Blink.push, Blink.poke, Blink.put, hj]

theorem push_self : (b.push i s).blinkArray i =
    { s with status := 1, countdown := s.onLength, next := b.listHead } := by
  simp [Blink.push, Blink.poke, Blink.put]

theorem OnList.push_linked (h : OnList b l) (hi : mp1Malloc b = some i) :
    Linked (b.push i s).next (b.push i s).listHead (i :: l) := by
  refine linked_push h.linked ?_ fun j hj => ?_
  · rw [Blink.next, push_self]
  · have hne : j ≠ i := by
      rintro rfl
      exact h.malloc_not_mem hi hj
    rw [Blink.next, push_other s hne]
    rfl

theorem OnList.push (h : OnList b l) (hi : mp1Malloc b = some i) (hs : s.location ≠ 0) :
    OnList (b.push i s) (i :: l) where
  linked := h.push_linked s hi
  distinct := List.nodup_cons.mpr ⟨h.malloc_not_mem hi, h.distinct⟩
  taken j hj := by
    by_cases hji : j = i
    · subst hji
      rw [push_self]
      exact hs
    · rw [push_other s hji]
      exact h.taken j ((List.mem_cons.mp hj).resolve_left hji)

end Push

section Unlink
variable {b : Blink} {u v : List Slot} {i : Slot}

/-- A structure without its link. -/
def BlinkStruct.body (s : BlinkStruct) : BlinkStruct := { s with next := none }

theorem body_location {s t : BlinkStruct} (h : s.body = t.body) : s.location = t.location :=
  (congrArg BlinkStruct.location h : s.body.location = t.body.location)

theorem store_body (p : Link) (o : Option Slot) (j : Slot) :
    ((b.store p o).blinkArray j).body = (b.blinkArray j).body := by
  cases p with
  | head => rfl
  | next a =>
    by_cases hj : j = a
    · subst hj
      simp [Blink.store, Blink.put, BlinkStruct.body]
    · simp [Blink.store, Blink.put, hj]

theorem unlink_other {j : Slot} (hj : j ≠ i) : (b.unlink u i).blinkArray j =
    (b.store (linkBehind .head u) (b.next i)).blinkArray j := by
  simp [Blink.unlink, mp1Free, Blink.put, hj]

theorem unlink_body {j : Slot} (hj : j ≠ i) :
    ((b.unlink u i).blinkArray j).body = (b.blinkArray j).body := by
  rw [unlink_other hj, store_body]

theorem store_next (a : Slot) (o : Option Slot) : (b.store (.next a) o).next = update b.next a o := by
  funext j
  by_cases hj : j = a
  · subst hj
    simp [Blink.store, Blink.put, Blink.next]
  · simp [Blink.store, Blink.put, Blink.next, hj]

theorem mem_unlinked {u v : List Slot} {i j : Slot} (hj : j ∈ u ++ v) : j ∈ u ++ i :: v := by
  rw [List.mem_append] at hj ⊢
  exact hj.imp_right (List.mem_cons_of_mem i)

theorem OnList.not_mem_rest (h : OnList b (u ++ i :: v)) {j : Slot} (hj : j ∈ u ++ v) : j ≠ i := by
  rintro rfl
  have hdistinct := h.distinct
  rw [List.nodup_middle, List.nodup_cons] at hdistinct
  exact hdistinct.1 hj

theorem OnList.unlink_linked (h : OnList b (u ++ i :: v)) :
    Linked (b.unlink u i).next (b.unlink u i).listHead (u ++ v) := by
  have hnext : ∀ j ∈ u ++ v, (b.unlink u i).next j =
      (b.store (linkBehind .head u) (b.next i)).next j := by
    intro j hj
    rw [Blink.next, unlink_other (h.not_mem_rest hj)]
    rfl
  have hhead : (b.unlink u i).listHead = (b.store (linkBehind .head u) (b.next i)).listHead := rfl
  rw [hhead]
  refine linked_congr ?_ hnext
  rcases List.eq_nil_or_concat u with rfl | ⟨w, a, rfl⟩
  · exact linked_suffix h.linked
  · rw [List.concat_eq_append] at h ⊢
    rw [linkBehind_append, store_next, List.append_assoc]
    have hlinked : Linked b.next b.listHead (w ++ a :: i :: v) := by simpa using h.linked
    exact linked_unlink hlinked

theorem OnList.unlink (h : OnList b (u ++ i :: v)) : OnList (b.unlink u i) (u ++ v) where
  linked := h.unlink_linked
  distinct := linked_nodup h.unlink_linked
  taken j hj := by
    have hlocation : ((b.unlink u i).blinkArray j).location = (b.blinkArray j).location :=
      body_location (unlink_body (h.not_mem_rest hj))
    rw [hlocation]
    exact h.taken j (mem_unlinked hj)

end Unlink

theorem copy_same (b : Blink) (i j : Slot) : SameNodes b (b.copy i j) := by
  have hput : SameNodes b (b.put j ((b.blinkArray i).sync (b.blinkArray j))) :=
    put_same rfl rfl rfl rfl
  exact hput.trans (poke_same _ _ _)

theorem blinkStep_add {b : Blink} {s : BlinkStruct} {i : Slot} (hlocation : s.location < 80 * 25)
    (hi : mp1Malloc b = some i) (fuel : ℕ) : blinkStep fuel b (.add s) = some (b.push i s) := by
  have hadd : mp1IoctlAdd b s = (0, b.push i s) := by
    rw [mp1IoctlAdd, if_neg (UInt16.not_le.mpr hlocation), hi]
    rfl
  rw [blinkStep, call, hadd]
  rfl

/-- A structure with location 0 is added while a slot is free. -/
def AddsZero (b : Blink) (c : Call) : Prop :=
  ∃ s, c = .add s ∧ s.location = 0 ∧ mp1Malloc b ≠ none

/-- Every call but such an addition keeps the list sound. -/
theorem Outcome.onList {b b' : Blink} {l : List Slot} {c : Call} {ret : ℤ} (ho : Outcome b l c ret b')
    (h : OnList b l) (hguard : ¬ AddsZero b c) : ∃ l', OnList b' l' := by
  cases ho with
  | refused hc => exact ⟨l, h⟩
  | added s i hlocation hi =>
    have hs : s.location ≠ 0 := fun hs => hguard ⟨s, rfl, hs, by simp [hi]⟩
    exact ⟨i :: l, h.push s hi hs⟩
  | removed arg u i v hl =>
    subst hl
    exact ⟨u ++ v, h.unlink⟩
  | found s => exact ⟨l, h⟩
  | synced arg i j hi hj => exact ⟨l, h.same (copy_same b i j)⟩
  | blinked => exact ⟨l, h.same (blinkNodes_same b l)⟩

/-- A call returns, and the list behind it is what its command says: one node more in front
and no other changed, one node less, or the same nodes. -/
def KeepsList (fuel : ℕ) (b : Blink) (l : List Slot) (c : Call) : Prop :=
  ∃ ret b', call fuel b c = some (ret, b') ∧
    if ret = 0 then
      match c with
      | .add _ => ∃ i ∉ l, Linked b'.next b'.listHead (i :: l) ∧
          ∀ j ≠ i, b'.blinkArray j = b.blinkArray j
      | .remove _ => ∃ u i v, l = u ++ i :: v ∧ Linked b'.next b'.listHead (u ++ v) ∧
          ∀ j ≠ i, (b'.blinkArray j).body = (b.blinkArray j).body
      | _ => Linked b'.next b'.listHead l
    else b' = b

theorem OnList.keepsList {b : Blink} {l : List Slot} (h : OnList b l) {fuel : ℕ}
    (hfuel : blinkNum < fuel) (c : Call) : KeepsList fuel b l c := by
  obtain ⟨ret, b', hcall, ho⟩ := call_outcome h hfuel c
  refine ⟨ret, b', hcall, ?_⟩
  cases ho with
  | refused hc => rfl
  | added s i hlocation hi =>
    exact ⟨i, h.malloc_not_mem hi, h.push_linked s hi, fun j hj => push_other s hj⟩
  | removed arg u i v hl =>
    subst hl
    exact ⟨u, i, v, rfl, h.unlink_linked, fun j hj => unlink_body hj⟩
  | found s => exact h.linked
  | synced arg i j hi hj => exact (h.same (copy_same b i j)).linked
  | blinked => exact (h.same (blinkNodes_same b l)).linked

/-- An addition at location 0 puts a slot on the list that is still free. -/
theorem AddsZero.breaks {b : Blink} {c : Call} (h : AddsZero b c) (fuel : ℕ) :
    ∃ b', blinkStep fuel b c = some b' ∧ ¬ ∃ l, OnList b' l := by
  obtain ⟨s, rfl, hs, hfree⟩ := h
  obtain ⟨i, hi⟩ := Option.ne_none_iff_exists'.mp hfree
  have hlocation : s.location < 80 * 25 := by
    rw [hs]
    decide
  refine ⟨b.push i s, blinkStep_add hlocation hi fuel, ?_⟩
  rintro ⟨l, hl⟩
  obtain ⟨m, rfl, -⟩ := linked_some (a := i) hl.linked
  refine hl.taken i (by simp) ?_
  rw [push_self, hs]

theorem Blink.Start.onList {b : Blink} (hb : b.Start) : OnList b [] :=
  ⟨hb.listHead, List.nodup_nil, by simp⟩

/-- In every sequence of calls the list is sound in every state on the way, and every
further call returns and does to it what it should, exactly when no structure with
location 0 is added while a slot is free. -/
theorem list_kept_iff (b : Blink) (hb : b.Start) (fuel : ℕ) (hfuel : blinkNum < fuel)
    (cs : List Call) :
    (∀ cs' b', cs' <+: cs → blinkRuns fuel b cs' = some b' →
        ∃ l, OnList b' l ∧ ∀ c, KeepsList fuel b' l c) ↔
      Along (blinkStep fuel) (fun b c => ¬ AddsZero b c) b cs := by
  have hkeeps : ∀ b', (∃ l, OnList b' l ∧ ∀ c, KeepsList fuel b' l c) ↔ ∃ l, OnList b' l := fun b' =>
    exists_congr fun l => and_iff_left_of_imp fun h c => h.keepsList hfuel c
  simp only [hkeeps]
  refine along_iff (fun _ _ _ _ _ (_ : True) => trivial) ?_ ?_ (along_true b cs) trivial ⟨[], hb.onList⟩
  · rintro s c s' - - ⟨l, hl⟩ hguard hstep
    obtain ⟨ret, ho⟩ := outcome_of_step hl hfuel hstep
    exact ho.onList hl hguard
  · intro s c _ _ _ hguard
    exact (not_not.mp hguard).breaks fuel

/-- The structure of `main`, at some location. -/
def structAt (location : UInt16) : BlinkStruct := ⟨location, 0x49, 0x4D, 7, 6, 0, 0, none⟩

theorem blank_malloc : mp1Malloc blank = some 0 := mp1Malloc_zero rfl

theorem list_kept_iff_add : ∃ b, blinkRuns 2001 blank [.add (structAt 7)] = some b ∧
    ∃ l, OnList b l ∧ ∀ c, KeepsList 2001 b l c := by
  have hguard : ¬ AddsZero blank (.add (structAt 7)) := by
    rintro ⟨s, hs, hzero, -⟩
    cases hs
    exact absurd hzero (by decide)
  have hrun : blinkRuns 2001 blank [.add (structAt 7)] = some (blank.push 0 (structAt 7)) :=
    run_cons_eq_some.mpr ⟨_, blinkStep_add (by decide) blank_malloc 2001, rfl⟩
  have hkept := (list_kept_iff blank blank_start 2001 (by decide) [.add (structAt 7)]).mpr
    ⟨hguard, fun _ _ => trivial⟩
  exact ⟨_, hrun, hkept _ _ List.prefix_rfl hrun⟩

/-- A walk that comes to a node which is its own successor never ends. -/
theorem taskletLoop_cycle {b : Blink} {i : Slot} (h : b.next i = some i) (fuel : ℕ) :
    taskletLoop fuel b (some i) = none := by
  induction fuel generalizing b with
  | zero => rfl
  | succ fuel ih =>
    have hnext : (blinkNode b i).next i = some i := by rw [(blinkNode_same b i).next, h]
    rw [taskletLoop, hnext]
    exact ih hnext

theorem linked_self_absurd {b : Blink} {i : Slot} (h : b.next i = some i) (l : List Slot) :
    ¬ Linked b.next (some i) l := by
  intro hl
  have hnodup := linked_nodup hl
  obtain ⟨m, rfl, hm⟩ := linked_some hl
  rw [h] at hm
  obtain ⟨m, rfl, -⟩ := linked_some hm
  simp at hnodup

/-- A slot that holds location 0 is handed out again and becomes its own successor. -/
theorem list_becomes_cycle : blank.Start ∧ ∃ b,
    (∀ fuel, blinkRuns fuel blank [.add (structAt 0), .add (structAt 7)] = some b) ∧
      (∀ l, ¬ OnList b l) ∧ ∀ fuel, mp1RtcTasklet fuel b = none := by
  have hmalloc : mp1Malloc (blank.push 0 (structAt 0)) = some 0 := by
    apply mp1Malloc_zero
    rw [push_self]
    rfl
  have hnext : ((blank.push 0 (structAt 0)).push 0 (structAt 7)).next 0 = some 0 := by
    rw [Blink.next, push_self]
    rfl
  refine ⟨blank_start, (blank.push 0 (structAt 0)).push 0 (structAt 7), fun fuel => ?_, ?_, ?_⟩
  · refine run_cons_eq_some.mpr ⟨_, blinkStep_add (by decide) blank_malloc fuel, ?_⟩
    exact run_cons_eq_some.mpr ⟨_, blinkStep_add (by decide) hmalloc fuel, rfl⟩
  · exact fun l hl => linked_self_absurd hnext l hl.linked
  · exact taskletLoop_cycle hnext

end Ece391.Fish
