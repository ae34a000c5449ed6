import Ece391.Fish.Display
import Ece391.Support.Lines
import Ece391.User.Session

/-! `add_frames` of `fish.c`. Two files are read a character at a time and row by row; a file
that has come to the end of its row or to its end waits for the other one. What is added to
the list are the two texts laid over each other, the shorter rows filled up with spaces. -/

namespace Ece391.Fish

open Lib Support Syscall Support.Scripts User

/-- What `fish` holds at a system call: its list, and the screen as it has drawn it. Behind
`add_frames` the tasklets are counted. -/
inductive Scene
  | drawing (b : Blink)
  | showing (n : ℕ) (b : Blink)

/-- What `fish` has still to do, by the system calls that it makes. -/
abbrev Play := Script (Scene × Request) User.Reply

/-- A file that is read: its descriptor, the character read last, and whether its end has been
met. -/
structure Reader where
  fd : ℤ
  c : UInt8
  eof : Bool

namespace Reader

/-- A read of one character has returned. One that fails stores nothing. -/
def got (r : Reader) (reply : User.Reply) : Reader :=
  if reply.ret = 0 then { r with c := newline, eof := true }
  else { r with c := reply.stored.headD r.c }

/-- The next character, unless the row has ended. -/
def read (r : Reader) (b : Blink) (next : Reader → Play) : Play :=
  if r.c ≠ newline then .call (.drawing b, .read r.fd true 1) fun reply => next (r.got reply)
  else next r

/-- The end of a row. A file that has ended is closed at the end of every row from there on. -/
def endRow (r : Reader) (b : Blink) (next : Reader → Play) : Play :=
  if r.eof then .call (.drawing b, .close r.fd) fun _ => next { r with c := newline }
  else next { r with c := 0x30 }

end Reader

/-- Something is to be seen. -/
def Visible (c0 c1 : UInt8) : Prop :=
  c0 ≠ asciiSpace ∧ c0 ≠ newline ∨ c1 ≠ asciiSpace ∧ c1 ≠ newline

instance (c0 c1 : UInt8) : Decidable (Visible c0 c1) := inferInstanceAs (Decidable (_ ∨ _))

/-- The structure for two characters. The fields that `add_frames` does not set are what the
stack held. -/
def frameStruct (garbage : BlinkStruct) (row col : ℕ) (c0 c1 : UInt8) : BlinkStruct :=
  { garbage with
    location := UInt16.ofNat (row * 80 + col + 40)
    onChar := if c0 = newline then asciiSpace else c0
    offChar := if c1 = newline then asciiSpace else c1
    onLength := 15
    offLength := 15 }

/-- The inner loop of `add_frames` from column `col` on. -/
def addRow (garbage : BlinkStruct) (row : ℕ) :
    (fuel col : ℕ) → Reader → Reader → Blink → (Reader → Reader → Blink → Play) → Play
  | 0, _, _, _, _, _ => .spin
  | fuel + 1, col, r0, r1, b, next =>
    r0.read b fun r0 => r1.read b fun r1 =>
      if r0.c = newline ∧ r1.c = newline then next r0 r1 b
      else addRow garbage row fuel (col + 1) r0 r1
        (if Visible r0.c r1.c then (mp1IoctlAdd b (frameStruct garbage row col r0.c r1.c)).2 else b)
        next

/-- The outer loop. -/
def addRows (garbage : BlinkStruct) (fuel : ℕ) :
    (rounds row : ℕ) → Reader → Reader → Blink → (Blink → Play) → Play
  | 0, _, _, _, _, _ => .spin
  | rounds + 1, row, r0, r1, b, next =>
    if r0.eof = false ∨ r1.eof = false then
      addRow garbage row fuel 0 r0 r1 b fun r0 r1 b =>
        r0.endRow b fun r0 => r1.endRow b fun r1 => addRows garbage fuel rounds (row + 1) r0 r1 b next
    else next b

/-- `add_frames`; a file that cannot be opened ends the program with the status -1. -/
def addFrames (garbage : BlinkStruct) (fuel : ℕ) (f0 f1 : CString) (b : Blink) (next : Blink → Play) :
    Play :=
  .call (.drawing b, .open (some f0)) fun reply0 =>
    if reply0.ret < 0 then .exit (-1)
    else .call (.drawing b, .open (some f1)) fun reply1 =>
      if reply1.ret < 0 then .exit (-1)
      else addRows garbage fuel fuel 0 ⟨reply0.ret, 0x30, false⟩ ⟨reply1.ret, 0x30, false⟩ b next

/-! ### The frames laid over each other -/

/-- The rows of a text. -/
abbrev rowsOf (t : List UInt8) : List (List UInt8) := t.splitOn newline

theorem rowsOf_append_cons {u : List UInt8} (hu : newline ∉ u) (t : List UInt8) :
    rowsOf (u ++ newline :: t) = u :: rowsOf t := by
  rw [rowsOf, List.splitOn_append_cons_self, List.splitOn_eq_singleton hu]
  rfl

/-- What is added for a place. -/
def overlayCell (garbage : BlinkStruct) (row col : ℕ) (c0 c1 : UInt8) : List BlinkStruct :=
  if c0 = asciiSpace ∧ c1 = asciiSpace then [] else [frameStruct garbage row col c0 c1]

/-- What is added for two rows from column `col` on. -/
def overlayRow (garbage : BlinkStruct) (row col : ℕ) (u0 u1 : List UInt8) : List BlinkStruct :=
  (List.range (max u0.length u1.length)).flatMap fun c =>
    overlayCell garbage row (col + c) (u0.getD c asciiSpace) (u1.getD c asciiSpace)

/-- What is added for two lists of rows from row `row` on. -/
def overlayRows (garbage : BlinkStruct) (row : ℕ) (l0 l1 : List (List UInt8)) : List BlinkStruct :=
  (List.range (max l0.length l1.length)).flatMap fun r =>
    overlayRow garbage (row + r) 0 (l0.getD r []) (l1.getD r [])

/-- What is added for two texts. -/
def overlay (garbage : BlinkStruct) (t0 t1 : List UInt8) : List BlinkStruct :=
  overlayRows garbage 0 (rowsOf t0) (rowsOf t1)

/-- Structures added one after another. -/
def addAll (blink : Blink) (ss : List BlinkStruct) : Blink :=
  ss.foldl (fun blink s => (mp1IoctlAdd blink s).2) blink

theorem addAll_append (blink : Blink) (ss ss' : List BlinkStruct) :
    addAll blink (ss ++ ss') = addAll (addAll blink ss) ss' := List.foldl_append

theorem flatMap_range_succ {α : Type} (n : ℕ) (f : ℕ → List α) :
    (List.range (n + 1)).flatMap f = f 0 ++ (List.range n).flatMap fun i => f (i + 1) := by
  rw [List.range_succ_eq_map, List.flatMap_cons, List.flatMap_map]

section Steps
variable {α : Type} {u v : List α}

theorem max_length_tail (h : ¬ (u = [] ∧ v = [])) :
    max u.length v.length = max u.tail.length v.tail.length + 1 := by
  cases u <;> cases v <;> simp_all [Nat.succ_max_succ]

theorem getD_zero (u : List α) (d : α) : u.getD 0 d = u.headD d := by cases u <;> rfl

theorem getD_succ (u : List α) (i : ℕ) (d : α) : u.getD (i + 1) d = u.tail.getD i d := by
  cases u <;> rfl

end Steps

theorem overlayRow_step (garbage : BlinkStruct) (row col : ℕ) {u0 u1 : List UInt8}
    (h : ¬ (u0 = [] ∧ u1 = [])) : overlayRow garbage row col u0 u1 =
      overlayCell garbage row col (u0.headD asciiSpace) (u1.headD asciiSpace) ++
        overlayRow garbage row (col + 1) u0.tail u1.tail := by
  simp only [overlayRow, max_length_tail h, flatMap_range_succ, getD_zero, getD_succ, Nat.add_zero,
    Nat.add_assoc, Nat.add_comm 1]

theorem overlayRows_step (garbage : BlinkStruct) (row : ℕ) {l0 l1 : List (List UInt8)}
    (h : ¬ (l0 = [] ∧ l1 = [])) : overlayRows garbage row l0 l1 =
      overlayRow garbage row 0 (l0.headD []) (l1.headD []) ++
        overlayRows garbage (row + 1) l0.tail l1.tail := by
  simp only [overlayRows, max_length_tail h, flatMap_range_succ, getD_zero, getD_succ, Nat.add_zero,
    Nat.add_assoc, Nat.add_comm 1]

/-! ### A file -/

/-- Whatever others do, `fish` goes on from here with scenes that are as `seen` says, and ends with
a status that is as `ended` says. -/
abbrev Plays (img : FileSys.Image) (seen : Scene → Prop) (ended : ℤ → Prop) (prog : Play) (p : Proc) :
    Prop :=
  prog.Always (serve img) (Moment.Quietly False) seen ended p

/-- A descriptor reads a text; `left` says what is left of it as the process stands, nothing being
known once it is closed. -/
structure OneFile (img : FileSys.Image) (fd : ℤ) (left : Proc → Option (List UInt8) → Prop) : Prop where
  read : ∀ {m p t}, left p (some t) →
    (serve img m p (.read fd true 1)).reply = ⟨(t.take 1).length, t.take 1⟩ ∧
      left (serve img m p (.read fd true 1)).view (some (t.drop 1))
  close : ∀ {m p x}, left p x → left (serve img m p (.close fd)).view none

/-- A reader inside a row: what is left of the file, of the row, and of the file behind the
row, if there is another row. -/
inductive AtRow : Reader → Option (List UInt8) → List UInt8 → Option (List UInt8) → Prop
  | last (fd : ℤ) {c : UInt8} {u : List UInt8} (hc : c ≠ newline) (hu : newline ∉ u) :
    AtRow ⟨fd, c, false⟩ (some u) u none
  | line (fd : ℤ) {c : UInt8} {u : List UInt8} (b : List UInt8) (hc : c ≠ newline) (hu : newline ∉ u) :
    AtRow ⟨fd, c, false⟩ (some (u ++ newline :: b)) u (some b)
  | waiting (fd : ℤ) (b : List UInt8) : AtRow ⟨fd, newline, false⟩ (some b) [] (some b)
  | ended (fd : ℤ) (x : Option (List UInt8)) : AtRow ⟨fd, newline, true⟩ x [] none

/-- The rows that are left. -/
def rowsLeft (x : Option (List UInt8)) : List (List UInt8) := x.elim [] rowsOf

/-- A reader between two rows. -/
inductive AtStart : Reader → Option (List UInt8) → Option (List UInt8) → Prop
  | row (fd : ℤ) (b : List UInt8) : AtStart ⟨fd, 0x30, false⟩ (some b) (some b)
  | ended (fd : ℤ) (x : Option (List UInt8)) : AtStart ⟨fd, newline, true⟩ x none

section File
variable {img : FileSys.Image} {seen : Scene → Prop} {ended : ℤ → Prop}
  {left : Proc → Option (List UInt8) → Prop} {r : Reader} {x after : Option (List UInt8)}
  {u : List UInt8} {p : Proc} {b : Blink} {next : Reader → Play}

theorem AtRow.unbroken (h : AtRow r x u after) : newline ∉ u := by
  cases h with
  | last _ _ hu => exact hu
  | line _ _ _ hu => exact hu
  | waiting => exact List.not_mem_nil
  | ended => exact List.not_mem_nil

/-- One character, or the wait at the end of the row. -/
theorem AtRow.read (h : AtRow r x u after) (hfile : OneFile img r.fd left) (hleft : left p x)
    (hdrawing : seen (.drawing b))
    (hnext : ∀ r' p' x', r'.fd = r.fd → r'.c = u.headD newline → left p' x' → AtRow r' x' u.tail after →
      Plays img seen ended (next r') p') :
    Plays img seen ended (r.read b next) p := by
  cases h with
  | @last fd c u hc hu =>
    rw [Reader.read, if_pos hc]
    refine ⟨hdrawing, fun m _ => ?_⟩
    obtain ⟨hreply, hrest⟩ := hfile.read (m := m) hleft
    rw [hreply]
    cases u with
    | nil => exact hnext ⟨fd, newline, true⟩ _ _ rfl rfl hrest (.ended fd _)
    | cons a u =>
      rw [List.mem_cons, not_or] at hu
      exact hnext ⟨fd, a, false⟩ _ _ rfl rfl hrest (.last fd (Ne.symm hu.1) hu.2)
  | @line fd c u t hc hu =>
    rw [Reader.read, if_pos hc]
    refine ⟨hdrawing, fun m _ => ?_⟩
    obtain ⟨hreply, hrest⟩ := hfile.read (m := m) hleft
    rw [hreply]
    cases u with
    | nil => exact hnext ⟨fd, newline, false⟩ _ _ rfl rfl hrest (.waiting fd t)
    | cons a u =>
      rw [List.mem_cons, not_or] at hu
      exact hnext ⟨fd, a, false⟩ _ _ rfl rfl hrest (.line fd t (Ne.symm hu.1) hu.2)
  | waiting fd t => exact hnext ⟨fd, newline, false⟩ _ _ rfl rfl hleft (.waiting fd t)
  | ended fd x => exact hnext ⟨fd, newline, true⟩ _ _ rfl rfl hleft (.ended fd x)

theorem AtRow.endRow (h : AtRow r x [] after) (hc : r.c = newline) (hfile : OneFile img r.fd left)
    (hleft : left p x) (hdrawing : seen (.drawing b))
    (hnext : ∀ r' p' x', r'.fd = r.fd → left p' x' → AtStart r' x' after →
      Plays img seen ended (next r') p') :
    Plays img seen ended (r.endRow b next) p := by
  generalize hu : ([] : List UInt8) = u at h
  cases h with
  | last fd hc' => exact absurd hc hc'
  | line fd t hc' => exact absurd hc hc'
  | waiting fd t => exact hnext ⟨fd, 0x30, false⟩ _ _ rfl hleft (.row fd t)
  | ended fd x =>
    exact ⟨hdrawing, fun m _ => hnext ⟨fd, newline, true⟩ _ _ rfl (hfile.close hleft) (.ended fd none)⟩

/-- The row that a reader starts with. -/
theorem AtStart.atRow (h : AtStart r x after) :
    ∃ next, AtRow r x ((rowsLeft after).headD []) next ∧ rowsLeft next = (rowsLeft after).tail ∧
      (r.eof = false ↔ rowsLeft after ≠ []) := by
  cases h with
  | row fd b =>
    have hc : (0x30 : UInt8) ≠ newline := by decide
    by_cases hb : newline ∈ b
    · obtain ⟨u, b, rfl, hu⟩ := List.eq_append_cons_of_mem hb
      simp only [rowsLeft, Option.elim_some, rowsOf_append_cons hu]
      exact ⟨some b, .line fd b hc hu, rfl, by simp⟩
    · have hrows : rowsOf b = [b] := List.splitOn_eq_singleton hb
      simp only [rowsLeft, Option.elim_some, hrows]
      exact ⟨none, .last fd hc hb, rfl, by simp⟩
  | ended fd x => exact ⟨none, .ended fd x, rfl, by simp [rowsLeft]⟩

end File

/-! ### Both files -/

/-- The two descriptors, each reading its own text. -/
structure TwoFiles (img : FileSys.Image) (fd0 fd1 : ℤ)
    (left : Proc → Option (List UInt8) → Option (List UInt8) → Prop) : Prop where
  first : ∀ y, OneFile img fd0 fun p x => left p x y
  second : ∀ x, OneFile img fd1 fun p y => left p x y

/-- Both readers are inside a row. -/
structure Within (left : Proc → Option (List UInt8) → Option (List UInt8) → Prop) (fd0 fd1 : ℤ)
    (r0 r1 : Reader) (p : Proc) (u0 u1 : List UInt8) (after0 after1 : Option (List UInt8)) : Prop where
  fd0 : r0.fd = fd0
  fd1 : r1.fd = fd1
  rows : ∃ x y, left p x y ∧ AtRow r0 x u0 after0 ∧ AtRow r1 y u1 after1

/-- Both readers are between two rows. -/
structure Between (left : Proc → Option (List UInt8) → Option (List UInt8) → Prop) (fd0 fd1 : ℤ)
    (r0 r1 : Reader) (p : Proc) (after0 after1 : Option (List UInt8)) : Prop where
  fd0 : r0.fd = fd0
  fd1 : r1.fd = fd1
  rows : ∃ x y, left p x y ∧ AtStart r0 x after0 ∧ AtStart r1 y after1

theorem headD_newline {u : List UInt8} (hu : newline ∉ u) : u.headD newline = newline ↔ u = [] := by
  cases u with
  | nil => simp
  | cons a u =>
    rw [List.mem_cons, not_or] at hu
    simp [Ne.symm hu.1]

/-- A row that has ended is filled up with spaces. -/
theorem headD_padded {u : List UInt8} (hu : newline ∉ u) :
    (if u.headD newline = newline then asciiSpace else u.headD newline) = u.headD asciiSpace := by
  cases u with
  | nil => rfl
  | cons a u =>
    rw [List.mem_cons, not_or] at hu
    exact if_neg (Ne.symm hu.1)

theorem headD_visible {u : List UInt8} (hu : newline ∉ u) :
    u.headD newline ≠ asciiSpace ∧ u.headD newline ≠ newline ↔ u.headD asciiSpace ≠ asciiSpace := by
  cases u with
  | nil => simp
  | cons a u =>
    rw [List.mem_cons, not_or] at hu
    simp [Ne.symm hu.1]

theorem headD_ne_newline {u : List UInt8} (hu : newline ∉ u) : u.headD asciiSpace ≠ newline := by
  cases u with
  | nil => decide
  | cons a u =>
    rw [List.mem_cons, not_or] at hu
    exact Ne.symm hu.1

section Both
variable {img : FileSys.Image} {seen : Scene → Prop} {ended : ℤ → Prop} {fd0 fd1 : ℤ}
  {left : Proc → Option (List UInt8) → Option (List UInt8) → Prop} {r0 r1 : Reader} {p : Proc}
  {u0 u1 : List UInt8} {after0 after1 : Option (List UInt8)} {b : Blink} (garbage : BlinkStruct)

/-- One place of the row is drawn. -/
theorem drawn_eq (b : Blink) (row col : ℕ) (hu0 : newline ∉ u0) (hu1 : newline ∉ u1) :
    (if Visible (u0.headD newline) (u1.headD newline) then
        (mp1IoctlAdd b (frameStruct garbage row col (u0.headD newline) (u1.headD newline))).2
      else b) =
    addAll b (overlayCell garbage row col (u0.headD asciiSpace) (u1.headD asciiSpace)) := by
  have hvisible : Visible (u0.headD newline) (u1.headD newline) ↔
      ¬ (u0.headD asciiSpace = asciiSpace ∧ u1.headD asciiSpace = asciiSpace) := by
    rw [Visible, headD_visible hu0, headD_visible hu1, not_and_or]
  have hstruct : frameStruct garbage row col (u0.headD newline) (u1.headD newline) =
      frameStruct garbage row col (u0.headD asciiSpace) (u1.headD asciiSpace) := by
    simp only [frameStruct, headD_padded hu0, headD_padded hu1, headD_ne_newline hu0,
      headD_ne_newline hu1, if_false]
  rw [hstruct, overlayCell]
  by_cases hspaces : u0.headD asciiSpace = asciiSpace ∧ u1.headD asciiSpace = asciiSpace
  · rw [if_neg (by rw [hvisible, not_not]; exact hspaces), if_pos hspaces]
    rfl
  · rw [if_pos (hvisible.mpr hspaces), if_neg hspaces]
    rfl

theorem Within.unbroken (h : Within left fd0 fd1 r0 r1 p u0 u1 after0 after1) :
    newline ∉ u0 ∧ newline ∉ u1 := by
  obtain ⟨x, y, -, h0, h1⟩ := h.rows
  exact ⟨h0.unbroken, h1.unbroken⟩

section Calls
variable (htwo : TwoFiles img fd0 fd1 left) (hdrawing : ∀ b, seen (.drawing b))
include htwo hdrawing

/-- One character of each file. -/
theorem Within.read (h : Within left fd0 fd1 r0 r1 p u0 u1 after0 after1) {next : Reader → Reader → Play}
    (hnext : ∀ r0 r1 p, r0.c = u0.headD newline → r1.c = u1.headD newline →
      Within left fd0 fd1 r0 r1 p u0.tail u1.tail after0 after1 → Plays img seen ended (next r0 r1) p) :
    Plays img seen ended (r0.read b fun r0 => r1.read b fun r1 => next r0 r1) p := by
  obtain ⟨hfd0, hfd1, x, y, hleft, hrow0, hrow1⟩ := h
  have hfirst : OneFile img r0.fd fun p x => left p x y := hfd0 ▸ htwo.first y
  refine hrow0.read hfirst hleft (hdrawing b) fun r0' p' x' hfd0' hc0 hleft0 hrow0' => ?_
  have hsecond : OneFile img r1.fd fun p y => left p x' y := hfd1 ▸ htwo.second x'
  refine hrow1.read hsecond hleft0 (hdrawing b) fun r1' p'' y' hfd1' hc1 hleft1 hrow1' => ?_
  exact hnext r0' r1' p'' hc0 hc1 ⟨hfd0'.trans hfd0, hfd1'.trans hfd1, x', y', hleft1, hrow0', hrow1'⟩

theorem Within.addRow (fuel row col : ℕ) (h : Within left fd0 fd1 r0 r1 p u0 u1 after0 after1)
    (hfuel : max u0.length u1.length < fuel) {next : Reader → Reader → Blink → Play}
    (hnext : ∀ r0 r1 p, r0.c = newline → r1.c = newline → Within left fd0 fd1 r0 r1 p [] [] after0 after1 →
      Plays img seen ended (next r0 r1 (addAll b (overlayRow garbage row col u0 u1))) p) :
    Plays img seen ended (Fish.addRow garbage row fuel col r0 r1 b next) p := by
  induction fuel generalizing r0 r1 p u0 u1 b col with
  | zero => exact absurd hfuel (Nat.not_lt_zero _)
  | succ fuel ih =>
    obtain ⟨hu0, hu1⟩ := h.unbroken
    refine h.read htwo hdrawing fun r0' r1' p' hc0 hc1 hwithin => ?_
    simp only [hc0, hc1, headD_newline hu0, headD_newline hu1]
    by_cases hend : u0 = [] ∧ u1 = []
    · rw [if_pos hend]
      obtain ⟨rfl, rfl⟩ := hend
      exact hnext r0' r1' p' hc0 hc1 hwithin
    · rw [max_length_tail hend] at hfuel
      rw [if_neg hend, drawn_eq garbage b row col hu0 hu1]
      refine ih (col + 1) hwithin (Nat.lt_of_succ_lt_succ hfuel) fun r0 r1 p hc0 hc1 hended => ?_
      rw [← addAll_append, ← overlayRow_step garbage row col hend]
      exact hnext r0 r1 p hc0 hc1 hended

theorem Within.endRow (h : Within left fd0 fd1 r0 r1 p [] [] after0 after1) (hc0 : r0.c = newline)
    (hc1 : r1.c = newline) {next : Reader → Reader → Play}
    (hnext : ∀ r0 r1 p, Between left fd0 fd1 r0 r1 p after0 after1 → Plays img seen ended (next r0 r1) p) :
    Plays img seen ended (r0.endRow b fun r0 => r1.endRow b fun r1 => next r0 r1) p := by
  obtain ⟨hfd0, hfd1, x, y, hleft, hrow0, hrow1⟩ := h
  have hfirst : OneFile img r0.fd fun p x => left p x y := hfd0 ▸ htwo.first y
  refine hrow0.endRow hc0 hfirst hleft (hdrawing b) fun r0' p' x' hfd0' hleft0 hstart0 => ?_
  have hsecond : OneFile img r1.fd fun p y => left p x' y := hfd1 ▸ htwo.second x'
  refine hrow1.endRow hc1 hsecond hleft0 (hdrawing b) fun r1' p'' y' hfd1' hleft1 hstart1 => ?_
  exact hnext r0' r1' p'' ⟨hfd0'.trans hfd0, hfd1'.trans hfd1, x', y', hleft1, hstart0, hstart1⟩

end Calls

/-- The rows that the readers start with. -/
theorem Between.within (h : Between left fd0 fd1 r0 r1 p after0 after1) :
    ∃ next0 next1, Within left fd0 fd1 r0 r1 p ((rowsLeft after0).headD []) ((rowsLeft after1).headD [])
        next0 next1 ∧
      rowsLeft next0 = (rowsLeft after0).tail ∧ rowsLeft next1 = (rowsLeft after1).tail ∧
      (r0.eof = false ∨ r1.eof = false ↔ ¬ (rowsLeft after0 = [] ∧ rowsLeft after1 = [])) := by
  obtain ⟨hfd0, hfd1, x, y, hleft, hstart0, hstart1⟩ := h
  obtain ⟨next0, hrow0, hrest0, heof0⟩ := hstart0.atRow
  obtain ⟨next1, hrow1, hrest1, heof1⟩ := hstart1.atRow
  refine ⟨next0, next1, ⟨hfd0, hfd1, x, y, hleft, hrow0, hrow1⟩, hrest0, hrest1, ?_⟩
  rw [heof0, heof1, not_and_or]

theorem headD_length_lt {l : List (List UInt8)} {n : ℕ} (hn : 0 < n) (h : ∀ u ∈ l, u.length < n) :
    (l.headD []).length < n := by
  cases l with
  | nil => exact hn
  | cons u l => exact h u (by simp)

theorem Between.addRows (htwo : TwoFiles img fd0 fd1 left) (hdrawing : ∀ b, seen (.drawing b)) {fuel : ℕ}
    (hfuel : 0 < fuel) (rounds row : ℕ) (h : Between left fd0 fd1 r0 r1 p after0 after1)
    (hshort0 : ∀ u ∈ rowsLeft after0, u.length < fuel) (hshort1 : ∀ u ∈ rowsLeft after1, u.length < fuel)
    (hrounds : max (rowsLeft after0).length (rowsLeft after1).length < rounds) {next : Blink → Play}
    (hnext : ∀ p, Plays img seen ended
      (next (addAll b (overlayRows garbage row (rowsLeft after0) (rowsLeft after1)))) p) :
    Plays img seen ended (Fish.addRows garbage fuel rounds row r0 r1 b next) p := by
  induction rounds generalizing r0 r1 p b row after0 after1 with
  | zero => exact absurd hrounds (Nat.not_lt_zero _)
  | succ rounds ih =>
    obtain ⟨next0, next1, hwithin, hrest0, hrest1, heof⟩ := h.within
    simp only [Fish.addRows, heof]
    by_cases hend : rowsLeft after0 = [] ∧ rowsLeft after1 = []
    · rw [if_neg (not_not.mpr hend)]
      rw [hend.1, hend.2] at hnext
      exact hnext p
    · have hlength := max_lt (headD_length_lt hfuel hshort0) (headD_length_lt hfuel hshort1)
      rw [max_length_tail hend, ← hrest0, ← hrest1] at hrounds
      rw [if_pos hend]
      refine hwithin.addRow garbage htwo hdrawing fuel row 0 hlength fun r0 r1 p hc0 hc1 hended => ?_
      refine hended.endRow htwo hdrawing hc0 hc1 fun r0 r1 p hbetween => ?_
      refine ih (row + 1) hbetween ?_ ?_ (Nat.lt_of_succ_lt_succ hrounds) fun p => ?_
      · rw [hrest0]
        exact fun u hu => hshort0 u (List.mem_of_mem_tail hu)
      · rw [hrest1]
        exact fun u hu => hshort1 u (List.mem_of_mem_tail hu)
      · rw [← addAll_append, hrest0, hrest1, ← overlayRows_step garbage row hend]
        exact hnext p

end Both

theorem not_mem_row (t : List UInt8) : ∀ u ∈ rowsOf t, newline ∉ u := by
  induction t using Support.Lines.lines_induction newline with
  | last u hu => simpa [rowsOf, List.splitOn_eq_singleton hu] using hu
  | line u t hu ih => simpa [rowsOf_append_cons hu] using ⟨hu, ih⟩

/-- The number of rows and their lengths are bounded by the length of the text. -/
theorem rowsOf_length_le (t : List UInt8) :
    (rowsOf t).length ≤ t.length + 1 ∧ ∀ u ∈ rowsOf t, u.length ≤ t.length := by
  induction t using Support.Lines.lines_induction newline with
  | last u hu => simp [rowsOf, List.splitOn_eq_singleton hu]
  | line u t hu ih =>
    rw [rowsOf_append_cons hu, List.length_cons, List.length_append, List.length_cons]
    refine ⟨by omega, fun v hv => ?_⟩
    rcases List.mem_cons.mp hv with rfl | hv
    · omega
    · have hle := ih.2 v hv
      omega

/-- Two files that have been opened are laid over each other. -/
theorem addRows_overlay {img : FileSys.Image} {seen : Scene → Prop} {ended : ℤ → Prop}
    {left : Proc → Option (List UInt8) → Option (List UInt8) → Prop} (garbage : BlinkStruct) {b : Blink}
    {fuel : ℕ} {fd0 fd1 : ℤ} {t0 t1 : List UInt8} {p : Proc} (htwo : TwoFiles img fd0 fd1 left)
    (hdrawing : ∀ b, seen (.drawing b)) (hleft : left p (some t0) (some t1))
    (hfuel0 : t0.length + 1 < fuel) (hfuel1 : t1.length + 1 < fuel) {next : Blink → Play}
    (hnext : ∀ p, Plays img seen ended (next (addAll b (overlay garbage t0 t1))) p) :
    Plays img seen ended (addRows garbage fuel fuel 0 ⟨fd0, 0x30, false⟩ ⟨fd1, 0x30, false⟩ b next) p := by
  have hshort : ∀ t : List UInt8, t.length + 1 < fuel → ∀ u ∈ rowsOf t, u.length < fuel := by
    intro t ht u hu
    have hle := (rowsOf_length_le t).2 u hu
    omega
  have hrows0 := (rowsOf_length_le t0).1
  have hrows1 := (rowsOf_length_le t1).1
  have hstart : Between left fd0 fd1 ⟨fd0, 0x30, false⟩ ⟨fd1, 0x30, false⟩ p (some t0) (some t1) :=
    ⟨rfl, rfl, _, _, hleft, .row fd0 t0, .row fd1 t1⟩
  exact hstart.addRows garbage htwo hdrawing (by omega : 0 < fuel) fuel 0 (hshort t0 hfuel0)
    (hshort t1 hfuel1) (max_lt (lt_of_le_of_lt hrows0 hfuel0) (lt_of_le_of_lt hrows1 hfuel1)) hnext

end Ece391.Fish
