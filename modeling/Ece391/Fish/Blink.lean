import Ece391.Support.Runs

/-! The blinking characters of the `fish` program: the list kept by `blink.S` and the
allocator of `fish.c`. A node is a slot of `blink_array`, and a pointer to one is NULL or
names a slot. `mp1_malloc` takes a slot with location 0 for a free one. The loops that walk
the list are given a number of iterations, and `none` means that these did not suffice. -/

namespace Ece391.Fish

open Function (update)
open Support.Runs

/-- The characters of the screen, and the slots of `blink_array`. -/
abbrev blinkNum : ℕ := 80 * 25

abbrev Slot := Fin blinkNum

/-- `struct mp1_blink_struct`. -/
structure BlinkStruct where
  location : UInt16
  onChar : UInt8
  offChar : UInt8
  onLength : UInt16
  offLength : UInt16
  countdown : UInt16
  status : UInt16
  next : Option Slot
  deriving DecidableEq

def BlinkStruct.zero : BlinkStruct := ⟨0, 0, 0, 0, 0, 0, 0, none⟩

/-- Where the character of a structure lies in video memory. -/
def BlinkStruct.offset (s : BlinkStruct) : ℕ := 2 * s.location.toNat

/-- `blink_array`, `mp1_list_head`, and the memory from `vmem_base_addr` on. -/
structure Blink where
  blinkArray : Slot → BlinkStruct
  listHead : Option Slot
  vmem : ℕ → UInt8

/-- The address of a pointer: `mp1_list_head`, or the field `next` of a slot. -/
inductive Link
  | head
  | next (i : Slot)

namespace Blink

def next (b : Blink) (i : Slot) : Option Slot := (b.blinkArray i).next

/-- A slot is written. -/
def put (b : Blink) (i : Slot) (s : BlinkStruct) : Blink :=
  { b with blinkArray := update b.blinkArray i s }

/-- `mp1_poke`. -/
def poke (b : Blink) (offset : ℕ) (c : UInt8) : Blink := { b with vmem := update b.vmem offset c }

def load (b : Blink) : Link → Option Slot
  | .head => b.listHead
  | .next i => b.next i

def store (b : Blink) (l : Link) (o : Option Slot) : Blink :=
  match l with
  | .head => { b with listHead := o }
  | .next i => b.put i { b.blinkArray i with next := o }

end Blink

/-- `mp1_malloc`. -/
def mp1Malloc (b : Blink) : Option Slot :=
  (List.finRange blinkNum).find? fun i => (b.blinkArray i).location = 0

/-- `mp1_free`. -/
def mp1Free (b : Blink) (i : Slot) : Blink := b.put i .zero

/-- The loop of `mp1_find_helper`; NULL is `some none`. -/
def findLoop (b : Blink) (location : UInt16) : (fuel : ℕ) → Option Slot → Option (Option Slot)
  | 0, _ => none
  | _ + 1, none => some none
  | fuel + 1, some i =>
    if (b.blinkArray i).location = location then some (some i)
    else findLoop b location fuel (b.next i)

def mp1FindHelper (fuel : ℕ) (b : Blink) (location : UInt16) : Option (Option Slot) :=
  findLoop b location fuel b.listHead

/-- `mp1_rtc_tasklet` at one node. The countdown is a signed word. -/
def blinkNode (b : Blink) (i : Slot) : Blink :=
  let s := b.blinkArray i
  let s := { s with countdown := s.countdown - 1 }
  if 0 < s.countdown.toInt16 then b.put i s
  else if s.status &&& 1 ≠ 0 then
    (b.poke s.offset s.offChar).put i { s with countdown := s.offLength, status := s.status ^^^ 1 }
  else
    (b.poke s.offset s.onChar).put i { s with countdown := s.onLength, status := s.status ^^^ 1 }

def taskletLoop : (fuel : ℕ) → Blink → Option Slot → Option Blink
  | 0, _, _ => none
  | _ + 1, b, none => some b
  | fuel + 1, b, some i => taskletLoop fuel (blinkNode b i) ((blinkNode b i).next i)

/-- `mp1_rtc_tasklet`. -/
def mp1RtcTasklet (fuel : ℕ) (b : Blink) : Option Blink := taskletLoop fuel b b.listHead

/-- `mp1_ioctl_add`, with the structure of the caller that its argument points to. The copy
of `next` is overwritten before it is used. -/
def mp1IoctlAdd (b : Blink) (s : BlinkStruct) : ℤ × Blink :=
  if 80 * 25 ≤ s.location then (-1, b)
  else
    let s := { s with status := 1, countdown := s.onLength }
    match mp1Malloc b with
    | none => (-1, b)
    | some i =>
      let b := { b.put i { s with next := b.listHead } with listHead := some i }
      (0, b.poke s.offset s.onChar)

/-- The loop of `mp1_ioctl_remove` that looks for the pointer to a node. It would go on
through NULL if there were none. -/
def findPrev (b : Blink) (i : Slot) : (fuel : ℕ) → Link → Option Link
  | 0, _ => none
  | fuel + 1, l =>
    match b.load l with
    | none => none
    | some j => if j = i then some l else findPrev b i fuel (.next j)

/-- `mp1_ioctl_remove`; the helper takes the low half of the argument. -/
def mp1IoctlRemove (fuel : ℕ) (b : Blink) (arg : UInt32) : Option (ℤ × Blink) :=
  (mp1FindHelper fuel b arg.toUInt16).bind fun
    | none => some (-1, b)
    | some i => (findPrev b i fuel .head).map fun l => (0, mp1Free (b.store l (b.next i)) i)

/-- `mp1_ioctl_find`, with the structure of the caller that its argument points to, which
it fills. -/
def mp1IoctlFind (fuel : ℕ) (b : Blink) (s : BlinkStruct) : Option (ℤ × BlinkStruct) :=
  (mp1FindHelper fuel b s.location).map fun
    | none => (-1, s)
    | some i => (0, b.blinkArray i)

/-- The fields that `mp1_ioctl_sync` copies. -/
def BlinkStruct.sync (source target : BlinkStruct) : BlinkStruct :=
  { target with
    onLength := source.onLength
    offLength := source.offLength
    countdown := source.countdown
    status := source.status }

/-- The character that `mp1_ioctl_sync` shows: `cmovl` after a `testb` of bit 0, which
clears the overflow flag and copies bit 7 of the result to the sign flag. -/
def BlinkStruct.syncChar (s : BlinkStruct) : UInt8 :=
  if 0x80 ≤ s.status.toUInt8 &&& 1 then s.onChar else s.offChar

/-- `mp1_ioctl_sync`; the location of the source is in the high half of the argument. -/
def mp1IoctlSync (fuel : ℕ) (b : Blink) (arg : UInt32) : Option (ℤ × Blink) :=
  (mp1FindHelper fuel b (arg >>> 16).toUInt16).bind fun
    | none => some (-1, b)
    | some i => (mp1FindHelper fuel b (arg &&& 0xFFFF).toUInt16).map fun
      | none => (-1, b)
      | some j =>
        let s := (b.blinkArray i).sync (b.blinkArray j)
        (0, (b.put j s).poke s.offset s.syncChar)

/-- A call of `mp1_ioctl`, by its command, or of the tasklet. -/
inductive Call
  | add (s : BlinkStruct)
  | remove (arg : UInt32)
  | find (s : BlinkStruct)
  | sync (arg : UInt32)
  | tasklet

/-- A call, with its result. -/
def call (fuel : ℕ) (b : Blink) : Call → Option (ℤ × Blink)
  | .add s => some (mp1IoctlAdd b s)
  | .remove arg => mp1IoctlRemove fuel b arg
  | .find s => (mp1IoctlFind fuel b s).map fun out => (out.1, b)
  | .sync arg => mp1IoctlSync fuel b arg
  | .tasklet => (mp1RtcTasklet fuel b).map fun b => (0, b)

def blinkStep (fuel : ℕ) (b : Blink) (c : Call) : Option Blink := (call fuel b c).map Prod.snd

/-- The states after a list of calls. -/
abbrev blinkRuns (fuel : ℕ) : Blink → List Call → Option Blink := run (blinkStep fuel)

/-- The list is empty and `blink_array` is cleared. -/
structure Blink.Start (b : Blink) : Prop where
  listHead : b.listHead = none
  blinkArray : ∀ i, b.blinkArray i = .zero

/-- Such a state, with an empty screen. -/
def blank : Blink := ⟨fun _ => .zero, none, fun _ => 0⟩

theorem blank_start : blank.Start := ⟨rfl, fun _ => rfl⟩

end Ece391.Fish
