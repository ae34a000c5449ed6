import Ece391.Fish.Frames
import Ece391.Fish.Turns
import Ece391.User.Programs

/-! The animation of `fish`. The two texts are read through the system calls of a process, laid
over each other and put on the list, and from then on the tasklets show now the one and now the
other text, whatever `main` does to its own character and other processes do in between. -/

namespace Ece391.Fish

open Function (update)
open FileSys Syscall Kernel Support Support.Runs Support.Scripts User
open Lib hiding kb4

/-! ### The system calls -/

/-- What is left of a file behind a descriptor, nothing being known of a closed one. -/
def Rest (img : Image) (inode : ℕ) (fd : Fin 8) (p : Proc) : Option (List UInt8) → Prop
  | none => True
  | some t => ∃ done, Streaming inode fd p done ∧ contents img inode = done ++ t

/-- A regular file whose blocks `read_data` can all reach. -/
structure Reachable (img : Image) (inode : ℕ) : Prop where
  inode_lt : inode < img.bootBlock.fileStat.inodeNum
  blocks_le : (img.inode inode).blocks ≤ blockLimit img

section Kernel
variable {img : Image} {inode : ℕ} {fd : Fin 8} {p : Proc} {m : Moment} {w : ℕ → Moment}

theorem Rest.others {x : Option (List UInt8)} (h : Rest img inode fd p x) :
    Rest img inode fd { p with dev := m.others p.dev } x := by
  cases x with
  | none => trivial
  | some t =>
    obtain ⟨done, hs, hcontents⟩ := h
    exact ⟨done, ⟨hs.pointer, hs.inode, hs.position, hs.opened, hs.bounded⟩, hcontents⟩

/-- A call on another descriptor. -/
theorem Rest.other {x : Option (List UInt8)} (h : Rest img inode fd p x) {r : Request}
    (hr : (r.toCall m.keyBuf).fd ≠ some (fd : ℤ)) : Rest img inode fd (serve img m p r).view x := by
  have hothers : Rest img inode fd { p with dev := m.others p.dev } x := h.others
  cases x with
  | none => trivial
  | some t =>
    obtain ⟨done, hs, hcontents⟩ := hothers
    exact ⟨done, hs.other img m.turn hr, hcontents⟩

/-- The byte behind what was delivered. -/
theorem readData_one (hfile : Reachable img inode) {done t : List UInt8}
    (h : contents img inode = done ++ t) :
    (readData img inode done.length true 1).bytes = t.take 1 := by
  have hlength : (img.inode inode).length = done.length + t.length := by
    rw [← contents_length, h, List.length_append]
  cases t with
  | nil => exact readData_past_end img done.length 1 hfile.inode_lt (by simpa using hlength.le)
  | cons a t =>
    have hout := readData_delivers img done.length 1 hfile.inode_lt hfile.blocks_le
    have henough := hout.enough
    have hbounded := hout.bounded
    have hinside := hout.inside
    rw [contents_length, hlength, List.length_cons] at henough hinside
    have hone : (readData img inode done.length true 1).bytes.length = 1 := by omega
    rw [h, List.drop_left, hone, List.take_of_length_le (by omega)] at hinside
    exact hinside

/-- A read of one byte. -/
theorem Rest.read (hfile : Reachable img inode) {t : List UInt8} (h : Rest img inode fd p (some t)) :
    (serve img m p (.read fd true 1)).reply = ⟨(t.take 1).length, t.take 1⟩ ∧
      Rest img inode fd (serve img m p (.read fd true 1)).view (some (t.drop 1)) := by
  obtain ⟨done, hs, hcontents⟩ := h
  have hbytes := readData_one hfile hcontents
  have hret := readData_ret img done.length 1 hfile.inode_lt
  have hop : readOp img m.turn m.keyBuf (m.others p.dev) (p.fds fd) true 1 =
      fileRead img m.turn (m.others p.dev) (p.fds fd) true 1 := by rw [readOp, hs.pointer]
  obtain ⟨hreply, -, -⟩ := serve_read img m fd (show (0 : ℤ) ≤ 1 by decide) hs.opened hop
  simp only [fileRead, hs.inode, hs.position, Int.toNat_one, hret, hbytes] at hreply
  refine ⟨hreply, done ++ t.take 1, ?_, by rw [List.append_assoc, List.take_append_drop, hcontents]⟩
  have hothers : Streaming inode fd { p with dev := m.others p.dev } done :=
    ⟨hs.pointer, hs.inode, hs.position, hs.opened, hs.bounded⟩
  have hnext := (hothers.read img m.turn hfile.inode_lt hfile.blocks_le
    (show (0 : ℤ) ≤ 1 by decide) m.keyBuf).2
  have hstored : (Syscall.read img m.turn { p with dev := m.others p.dev } fd true 1 m.keyBuf).stored =
      t.take 1 := congrArg Reply.stored hreply
  rw [hstored] at hnext
  exact hnext

/-- One open file, with anything that the calls on its descriptor keep. -/
theorem rest_one (hfile : Reachable img inode) (keep : Proc → Prop)
    (hkeep : ∀ {m p r}, (Request.toCall m.keyBuf r).fd = some (fd : ℤ) → keep p →
      keep (serve img m p r).view) :
    OneFile img fd fun p x => Rest img inode fd p x ∧ keep p where
  read h := ⟨(h.1.read hfile).1, (h.1.read hfile).2, hkeep rfl h.2⟩
  close h := ⟨trivial, hkeep rfl h.2⟩

/-- Two open files are read independently. -/
theorem rest_two {inode0 inode1 : ℕ} {i j : Fin 8} (hij : i ≠ j) (hfile0 : Reachable img inode0)
    (hfile1 : Reachable img inode1) :
    TwoFiles img i j fun p x y => Rest img inode0 i p x ∧ Rest img inode1 j p y where
  first y := by
    refine rest_one hfile0 (fun p => Rest img inode1 j p y) fun hr h => h.other ?_
    rw [hr]
    exact fun he => hij (Fin.ext (by simpa using he))
  second x := by
    have hone := rest_one hfile1 (fun p => Rest img inode0 i p x) fun hr h =>
      h.other (by rw [hr]; exact fun he => hij (Fin.ext (by simpa using he.symm)))
    exact ⟨fun h => (hone.read h.symm).imp_right And.symm, fun h => (hone.close h.symm).symm⟩

/-- `open` of a regular file, with a slot to spare. -/
theorem serve_open_file {name : CString} {d : Dentry} {i : Fin 8}
    (hopen : openable img (some name) = some (d, .fileFops)) (hfree : firstFree p.fds = some i) :
    (serve img m p (.open (some name))).reply.ret = i ∧
      (serve img m p (.open (some name))).view.fds = update p.fds i (openedEntry .fileFops d) := by
  simp only [serve, Request.toCall, Syscall.call, sysOpen_eq, hopen, hfree]
  trivial

theorem opened_rest {d : Dentry} (hentry : p.fds fd = openedEntry .fileFops d) :
    Rest img d.inodeNum fd p (some (contents img d.inodeNum)) := by
  refine ⟨[], ?_, rfl⟩
  constructor <;> simp [hentry, openedEntry]

theorem firstFree_exists {fds : Fds} {i : Fin 8} (hi : 2 ≤ i) (hfree : (fds i).flags = 0) :
    ∃ a, firstFree fds = some a := by
  refine Option.isSome_iff_exists.mp (List.find?_isSome.mpr ⟨i, (mem_upper i).mpr hi, ?_⟩)
  exact decide_eq_true hfree

/-- Of two free slots one is left behind an `open`. -/
theorem firstFree_twice {fds : Fds} {i j : Fin 8} (hij : i ≠ j) (hi : 2 ≤ i) (hj : 2 ≤ j)
    (hfree : (fds i).flags = 0 ∧ (fds j).flags = 0) {entry : FileArray} (hentry : entry.flags ≠ 0) :
    ∃ a b, a ≠ b ∧ firstFree fds = some a ∧ firstFree (update fds a entry) = some b := by
  obtain ⟨a, ha⟩ := firstFree_exists hi hfree.1
  have hleft : ∃ c, c ≠ a ∧ 2 ≤ c ∧ (fds c).flags = 0 := by
    by_cases hia : i = a
    · exact ⟨j, hia ▸ hij.symm, hj, hfree.2⟩
    · exact ⟨i, hia, hi, hfree.1⟩
  obtain ⟨c, hca, hc, hcfree⟩ := hleft
  have hstill : (update fds a entry c).flags = 0 := by rw [Function.update_of_ne hca, hcfree]
  obtain ⟨b, hb⟩ := firstFree_exists hc hstill
  refine ⟨a, b, ?_, ha, hb⟩
  rintro rfl
  have hzero := List.find?_some hb
  rw [Function.update_self, decide_eq_true_eq] at hzero
  exact hentry hzero

end Kernel

/-! ### The picture -/

/-- The character of a text at a place. -/
def glyph (t : List UInt8) (r c : ℕ) : UInt8 := ((rowsOf t).getD r []).getD c asciiSpace

/-- A place at which one of the texts has something to be seen. -/
def Seen (t0 t1 : List UInt8) (r c : ℕ) : Prop :=
  ¬ (glyph t0 r c = asciiSpace ∧ glyph t1 r c = asciiSpace)

instance (t0 t1 : List UInt8) (r c : ℕ) : Decidable (Seen t0 t1 r c) :=
  inferInstanceAs (Decidable (¬ _))

/-- What there is to be seen of a text fits on the right half of the screen. -/
def Fits (t : List UInt8) : Prop := ∀ r c, glyph t r c ≠ asciiSpace → r < 25 ∧ c < 40

theorem glyph_ne_newline (t : List UInt8) (r c : ℕ) : glyph t r c ≠ newline := by
  have hspace : asciiSpace ≠ newline := by decide
  rw [glyph]
  by_cases hr : r < (rowsOf t).length
  · rw [List.getD_eq_getElem _ _ hr]
    by_cases hc : c < (rowsOf t)[r].length
    · rw [List.getD_eq_getElem _ _ hc]
      have hrow := not_mem_row t _ (List.getElem_mem hr)
      exact fun he => hrow (he ▸ List.getElem_mem hc)
    · rwa [List.getD_eq_default _ _ (not_lt.mp hc)]
  · rw [List.getD_eq_default (d := []) _ (not_lt.mp hr), List.getD_nil]
    exact hspace

theorem glyph_inside {t : List UInt8} {r c : ℕ} (h : glyph t r c ≠ asciiSpace) :
    r < (rowsOf t).length ∧ c < ((rowsOf t).getD r []).length := by
  rw [glyph] at h
  have hc : c < ((rowsOf t).getD r []).length := by
    by_contra hc
    exact h (List.getD_eq_default _ _ (not_lt.mp hc))
  refine ⟨?_, hc⟩
  by_contra hr
  rw [List.getD_eq_default _ _ (not_lt.mp hr)] at hc
  exact Nat.not_lt_zero _ hc

/-- A text of few and short rows fits. -/
theorem fits_of_rows {t : List UInt8} (hrows : (rowsOf t).length ≤ 25)
    (hcols : ∀ u ∈ rowsOf t, u.length ≤ 40) : Fits t := by
  intro r c h
  obtain ⟨hr, hc⟩ := glyph_inside h
  rw [List.getD_eq_getElem _ _ hr] at hc
  exact ⟨by omega, lt_of_lt_of_le hc (hcols _ (List.getElem_mem hr))⟩

/-- What is put on the list for a place. -/
def cell (garbage : BlinkStruct) (t0 t1 : List UInt8) (r c : ℕ) : BlinkStruct :=
  frameStruct garbage r c (glyph t0 r c) (glyph t1 r c)

theorem mem_overlayCell {garbage s : BlinkStruct} {t0 t1 : List UInt8} {r c : ℕ} :
    s ∈ overlayCell garbage r c (glyph t0 r c) (glyph t1 r c) ↔
      Seen t0 t1 r c ∧ s = cell garbage t0 t1 r c := by
  rw [overlayCell]
  split_ifs with hspaces
  · exact iff_of_false List.not_mem_nil fun h => h.1 hspaces
  · rw [List.mem_singleton, cell]
    exact (and_iff_right hspaces).symm

theorem mem_overlay {garbage s : BlinkStruct} {t0 t1 : List UInt8} :
    s ∈ overlay garbage t0 t1 ↔ ∃ r c, Seen t0 t1 r c ∧ s = cell garbage t0 t1 r c := by
  simp only [overlay, overlayRows, overlayRow, List.mem_flatMap, List.mem_range, Nat.zero_add]
  constructor
  · rintro ⟨r, -, c, -, hs⟩
    exact ⟨r, c, mem_overlayCell.mp hs⟩
  · rintro ⟨r, c, hseen, rfl⟩
    have hinside : r < max (rowsOf t0).length (rowsOf t1).length ∧
        c < max ((rowsOf t0).getD r []).length ((rowsOf t1).getD r []).length := by
      rcases not_and_or.mp hseen with h | h
      · obtain ⟨hr, hc⟩ := glyph_inside h
        exact ⟨lt_max_of_lt_left hr, lt_max_of_lt_left hc⟩
      · obtain ⟨hr, hc⟩ := glyph_inside h
        exact ⟨lt_max_of_lt_right hr, lt_max_of_lt_right hc⟩
    exact ⟨r, hinside.1, c, hinside.2, mem_overlayCell.mpr ⟨hseen, rfl⟩⟩

section Fitting
variable {t0 t1 : List UInt8} (hfits0 : Fits t0) (hfits1 : Fits t1)
include hfits0 hfits1

theorem Seen.bounds {r c : ℕ} (h : Seen t0 t1 r c) : r < 25 ∧ c < 40 := by
  rcases not_and_or.mp h with h | h
  · exact hfits0 r c h
  · exact hfits1 r c h

theorem cell_location (garbage : BlinkStruct) {r c : ℕ} (h : Seen t0 t1 r c) :
    (cell garbage t0 t1 r c).location.toNat = r * 80 + c + 40 := by
  have hbounds := h.bounds hfits0 hfits1
  have hsmall : r * 80 + c + 40 < UInt16.size := by
    rw [UInt16.size]
    omega
  exact UInt16.toNat_ofNat_of_lt' hsmall

/-- No two structures are for the same location. -/
theorem overlay_apart (garbage : BlinkStruct) :
    (overlay garbage t0 t1).Pairwise fun s s' => s.location ≠ s'.location := by
  have hplace : ∀ r c s r' c' s', s ∈ overlayCell garbage r c (glyph t0 r c) (glyph t1 r c) →
      s' ∈ overlayCell garbage r' c' (glyph t0 r' c') (glyph t1 r' c') → s.location = s'.location →
        r = r' ∧ c = c' := by
    intro r c s r' c' s' hs hs' he
    obtain ⟨hseen, rfl⟩ := mem_overlayCell.mp hs
    obtain ⟨hseen', rfl⟩ := mem_overlayCell.mp hs'
    have hnat := congrArg UInt16.toNat he
    rw [cell_location hfits0 hfits1 garbage hseen, cell_location hfits0 hfits1 garbage hseen'] at hnat
    have hbounds := hseen.bounds hfits0 hfits1
    have hbounds' := hseen'.bounds hfits0 hfits1
    omega
  simp only [overlay, overlayRows, overlayRow, List.pairwise_flatMap, List.mem_flatMap, Nat.zero_add]
  refine ⟨fun r _ => ⟨fun c _ => ?_, ?_⟩, ?_⟩
  · rw [overlayCell]
    split_ifs
    · exact List.Pairwise.nil
    · exact List.pairwise_singleton _ _
  · refine List.pairwise_lt_range.imp fun {c c'} hlt s hs s' hs' he => ?_
    exact absurd (hplace r c s r c' s' hs hs' he).2 (by omega)
  · refine List.pairwise_lt_range.imp fun {r r'} hlt s hs s' hs' he => ?_
    obtain ⟨c, -, hs⟩ := hs
    obtain ⟨c', -, hs'⟩ := hs'
    exact absurd (hplace r c s r' c' s' hs hs' he).1 (by omega)

end Fitting

/-! ### The list -/

/-- A sound list, all other slots being free. -/
structure Whole (b : Blink) (l : List Slot) : Prop extends OnList b l where
  free : ∀ i ∉ l, (b.blinkArray i).location = 0

theorem Blink.Start.whole {b : Blink} (hb : b.Start) : Whole b [] where
  toOnList := hb.onList
  free i _ := by
    rw [hb.blinkArray]
    rfl

section List
variable {b : Blink} {l : List Slot}

theorem Whole.malloc (h : Whole b l) (hroom : l.length < blinkNum) : ∃ i, mp1Malloc b = some i := by
  have hleft : ∃ i, i ∉ l := by
    by_contra hall
    push Not at hall
    have hcard := List.toFinset_card_le l
    rw [Finset.eq_univ_of_forall fun i => List.mem_toFinset.mpr (hall i), Finset.card_univ,
      Fintype.card_fin] at hcard
    omega
  obtain ⟨i, hi⟩ := hleft
  refine Option.isSome_iff_exists.mp (List.find?_isSome.mpr ⟨i, List.mem_finRange i, ?_⟩)
  exact decide_eq_true (h.free i hi)

theorem Whole.push (h : Whole b l) {i : Slot} (hi : mp1Malloc b = some i) {s : BlinkStruct}
    (hs : s.location ≠ 0) : Whole (b.push i s) (i :: l) where
  toOnList := h.toOnList.push s hi hs
  free j hj := by
    rw [List.mem_cons, not_or] at hj
    rw [push_other s hj.1]
    exact h.free j hj.2

/-- Structures for different locations are all put on the list. -/
theorem addAll_blinking {ss : List BlinkStruct} (h : Whole b l)
    (hroom : l.length + ss.length ≤ blinkNum) (hplace : ∀ s ∈ ss, s.location ≠ 0 ∧ s.location < 80 * 25)
    (hapart : ss.Pairwise fun s s' => s.location ≠ s'.location)
    (hnew : ∀ s ∈ ss, ∀ i t, ¬ At b l s.location i t) :
    ∃ l', Whole (addAll b ss) l' ∧ (∀ s ∈ ss, Blinking (addAll b ss) l' s 0) ∧
      ∀ x, (∀ s ∈ ss, s.location ≠ x) → SameAt x b l (addAll b ss) l' := by
  induction ss generalizing b l with
  | nil => exact ⟨l, h, fun s hs => absurd hs List.not_mem_nil, fun x _ => .refl x b l⟩
  | cons s ss ih =>
    obtain ⟨hfirst, hrest⟩ := List.forall_mem_cons.mp hplace
    obtain ⟨hother, hapart⟩ := List.pairwise_cons.mp hapart
    obtain ⟨hnewFirst, hnewRest⟩ := List.forall_mem_cons.mp hnew
    rw [List.length_cons] at hroom
    obtain ⟨i, hi⟩ := h.malloc (by omega)
    have hadd : (mp1IoctlAdd b s).2 = b.push i s :=
      Option.some_inj.mp (blinkStep_add hfirst.2 hi 0 : some (mp1IoctlAdd b s).2 = _)
    obtain ⟨l', hwhole, hblinking, hsame⟩ := ih (h.push hi hfirst.1)
      (by rw [List.length_cons]; omega) hrest hapart fun s' hs' j t hj =>
        hnewRest s' hs' j t (((push_sameAt h.toOnList hi (hother s' hs')).nodes j t).mp hj)
    rw [addAll, List.foldl_cons, hadd]
    refine ⟨l', hwhole, fun s' hs' => ?_, fun x hx => ?_⟩
    · rcases List.mem_cons.mp hs' with rfl | hs'
      · exact (push_blinking hnewFirst).same (hsame _ fun s'' hs'' => (hother s'' hs'').symm)
      · exact hblinking s' hs'
    · obtain ⟨hxFirst, hxRest⟩ := List.forall_mem_cons.mp hx
      exact (push_sameAt h.toOnList hi hxFirst).trans (hsame x hxRest)

end List

theorem length_le_of_apart {ss : List BlinkStruct} (hplace : ∀ s ∈ ss, s.location < 80 * 25)
    (hapart : ss.Pairwise fun s s' => s.location ≠ s'.location) : ss.length ≤ blinkNum := by
  have hnodup : (ss.map fun s => s.location.toNat).Nodup := by
    refine List.pairwise_map.mpr (hapart.imp fun hne he => hne (UInt16.toNat_inj.mp he))
  have hsub : (ss.map fun s => s.location.toNat).toFinset ⊆ Finset.range blinkNum := by
    intro n hn
    obtain ⟨s, hs, rfl⟩ := List.mem_map.mp (List.mem_toFinset.mp hn)
    exact Finset.mem_range.mpr (UInt16.lt_iff_toNat_lt.mp (hplace s hs))
  have hcard := Finset.card_le_card hsub
  rwa [List.toFinset_card_of_nodup hnodup, List.length_map, Finset.card_range] at hcard

/-! ### The animation -/

/-- What the texts put on the screen at a location after a number of ticks, if anything. -/
def picture (t0 t1 : List UInt8) (n x : ℕ) : Option UInt8 :=
  if 40 ≤ x % 80 ∧ Seen t0 t1 (x / 80) (x % 80 - 40) then
    some (glyph (if n % 30 < 15 then t0 else t1) (x / 80) (x % 80 - 40))
  else none

/-- The location of the character of `main`. -/
abbrev imLocation : UInt16 := 6 * 80 + 60

/-- That character. -/
def imStruct (garbage : BlinkStruct) : BlinkStruct :=
  { garbage with
    location := imLocation
    onChar := 0x49
    offChar := 0x4D
    onLength := 7
    offLength := 6 }

/-- `WAIT` rounds of the loop that waits for the clock. -/
def waitLoop : List Call := List.replicate 100 .tasklet

/-- The calls of `main` behind `add_frames`: the character is added, tied to the first one of the
texts, and removed, and the loop that waits stands around each of these. -/
def mainCalls (garbage : BlinkStruct) : List Call :=
  waitLoop ++ .add (imStruct garbage) :: waitLoop ++
    .sync ((40 : UInt32) <<< 16 ||| (6 * 80 + 60)) :: waitLoop ++ .remove (6 * 80 + 60) :: waitLoop

theorem mem_mainCalls {garbage : BlinkStruct} {c : Call} (h : c ∈ mainCalls garbage) :
    c = .tasklet ∨ c = .add (imStruct garbage) ∨ c = .sync ((40 : UInt32) <<< 16 ||| (6 * 80 + 60)) ∨
      c = .remove (6 * 80 + 60) := by
  simp only [mainCalls, waitLoop, List.mem_append, List.mem_cons, List.mem_replicate] at h
  tauto

theorem mainCalls_spare {garbage : BlinkStruct} {x : UInt16} (hx : x ≠ imLocation) {c : Call}
    (h : c ∈ mainCalls garbage) : Spares x c := by
  rcases mem_mainCalls h with rfl | rfl | rfl | rfl
  · trivial
  · exact hx.symm
  · exact hx.symm
  · exact hx.symm

theorem mainCalls_nonzero {garbage : BlinkStruct} {c : Call} (h : c ∈ mainCalls garbage) (b : Blink) :
    ¬ AddsZero b c := by
  rintro ⟨s, rfl, hzero, -⟩
  rcases mem_mainCalls h with hc | hc | hc | hc
  · cases hc
  · cases hc
    exact absurd hzero (show imLocation ≠ 0 by decide)
  · cases hc
  · cases hc

section Main
variable {fuel : ℕ} (hfuel : blinkNum < fuel) {b : Blink} {l : List Slot} (h : OnList b l)
  {garbage : BlinkStruct} {cs : List Call} (hcs : cs <+: mainCalls garbage)
include hfuel h hcs

/-- What `main` does up to some call at a location that is not that of its own character. -/
theorem main_at {x : UInt16} (hx : x ≠ imLocation) :
    ∃ b' l', blinkRuns fuel b cs = some b' ∧ OnList b' l' ∧
      (∀ s n, s.location = x → Blinking b l s n → Blinking b' l' s (n + ticks cs)) ∧
      ∀ c, Vacant b l x c → Vacant b' l' x c :=
  run_at hfuel h (along_of_forall (fun _ hc => mainCalls_nonzero (hcs.subset hc)) b)
    fun _ hc => mainCalls_spare hx (hcs.subset hc)

end Main

/-- What a structure of the picture shows after a number of ticks. -/
theorem cell_shown (garbage : BlinkStruct) (t0 t1 : List UInt8) (r c n : ℕ) :
    ((cell garbage t0 t1 r c).after n).shown = glyph (if n % 30 < 15 then t0 else t1) r c := by
  have hlength : duration 15 = 15 := by decide
  rw [BlinkStruct.after_shown]
  simp only [cell, frameStruct, glyph_ne_newline, if_false, hlength]
  split_ifs <;> rfl

/-- The texts of two files that fit are put on the screen and from then on shown in turn, each
for 15 ticks; everything else on it stays, but for the character of `main`. -/
theorem overlay_animates {t0 t1 : List UInt8} (hfits0 : Fits t0) (hfits1 : Fits t1)
    (garbage : BlinkStruct) {fuel : ℕ} (hfuel : blinkNum < fuel) {b : Blink} (hb : b.Start)
    {garbage' : BlinkStruct} {cs : List Call} (hcs : cs <+: mainCalls garbage') :
    ∃ b', blinkRuns fuel (addAll b (overlay garbage t0 t1)) cs = some b' ∧
      ∀ x : UInt16, x ≠ imLocation → b'.vmem (2 * x.toNat) =
        (picture t0 t1 (ticks cs) x.toNat).getD (b.vmem (2 * x.toNat)) := by
  have hplace : ∀ s ∈ overlay garbage t0 t1, s.location ≠ 0 ∧ s.location < 80 * 25 := by
    intro s hs
    obtain ⟨r, c, hseen, rfl⟩ := mem_overlay.mp hs
    have hlocation := cell_location hfits0 hfits1 garbage hseen
    have hbounds := hseen.bounds hfits0 hfits1
    have hlimit : (80 * 25 : UInt16).toNat = 2000 := rfl
    refine ⟨fun hzero => ?_, UInt16.lt_iff_toNat_lt.mpr (by omega)⟩
    rw [hzero, UInt16.toNat_zero] at hlocation
    omega
  have hapart : (overlay garbage t0 t1).Pairwise fun s s' => s.location ≠ s'.location :=
    overlay_apart hfits0 hfits1 garbage
  have hlen := length_le_of_apart (fun s hs => (hplace s hs).2) hapart
  have hnone : ∀ x i t, ¬ At b [] x i t := fun x i t hat => List.not_mem_nil hat.1
  obtain ⟨l, hwhole, hblinking, hsame⟩ := addAll_blinking hb.whole
    (by rwa [List.length_nil, Nat.zero_add]) hplace hapart fun s _ => hnone s.location
  obtain ⟨b', -, hrun, -⟩ := main_at hfuel hwhole.toOnList hcs (by decide : (0 : UInt16) ≠ imLocation)
  refine ⟨b', hrun, fun x hx => ?_⟩
  obtain ⟨b'', l', hrun', -, hnodes, hvacant⟩ := main_at hfuel hwhole.toOnList hcs hx
  obtain rfl : b' = b'' := Option.some.inj (hrun.symm.trans hrun')
  by_cases hthere : ∃ s ∈ overlay garbage t0 t1, s.location = x
  · -- the location belongs to the picture
    obtain ⟨s, hs, rfl⟩ := hthere
    have hend := (hnodes s 0 rfl (hblinking s hs)).shown
    obtain ⟨r, c, hseen, rfl⟩ := mem_overlay.mp hs
    have hbounds := hseen.bounds hfits0 hfits1
    have hlocation := cell_location hfits0 hfits1 garbage hseen
    have hrow : (r * 80 + c + 40) / 80 = r := by omega
    have hcol : (r * 80 + c + 40) % 80 = c + 40 := by omega
    have hin : 40 ≤ c + 40 ∧ Seen t0 t1 r c := ⟨Nat.le_add_left 40 c, hseen⟩
    rw [BlinkStruct.offset] at hend
    rw [hend, Nat.zero_add, cell_shown, hlocation, picture, hrow, hcol, Nat.add_sub_cancel, if_pos hin,
      Option.getD_some]
  · have hother : ∀ s ∈ overlay garbage t0 t1, s.location ≠ x := fun s hs he => hthere ⟨s, hs, he⟩
    have hkept := hsame x hother
    have hempty : Vacant (addAll b (overlay garbage t0 t1)) l x (b.vmem (2 * x.toNat)) :=
      ⟨fun i t hat => hnone x i t ((hkept.nodes i t).mp hat), hkept.vmem⟩
    have hpicture : ¬ (40 ≤ x.toNat % 80 ∧ Seen t0 t1 (x.toNat / 80) (x.toNat % 80 - 40)) := by
      rintro ⟨hright, hseen⟩
      have hlocation := cell_location hfits0 hfits1 garbage hseen
      have hback : x.toNat / 80 * 80 + (x.toNat % 80 - 40) + 40 = x.toNat := by omega
      rw [hback] at hlocation
      exact hother _ (mem_overlay.mpr ⟨_, _, hseen, rfl⟩) (UInt16.toNat_inj.mp hlocation)
    rw [(hvacant _ hempty).shown, picture, if_neg hpicture, Option.getD_none]

/-! ### `main` -/

/-- "rtc" -/
def rtc : CString := ⟨text "rtc", CString.noNul_of_all (by decide)⟩

/-- "frame0.txt" -/
def file0 : CString := ⟨text "frame0.txt", CString.noNul_of_all (by decide)⟩

/-- "frame1.txt" -/
def file1 : CString := ⟨text "frame1.txt", CString.noNul_of_all (by decide)⟩

/-- What follows a call of `blink.S`. -/
def Blink.does (fuel : ℕ) (b : Blink) (c : Call) (next : Blink → Play) : Play :=
  match blinkStep fuel b c with
  | none => .spin
  | some b => next b

/-- The calls of `blink.S` that are left, the clock being waited for before each tasklet, and the end
of `main`. So many tasklets have been since `add_frames`. -/
def rounds (fuel : ℕ) (rtcFd : ℤ) : List Call → (n : ℕ) → Blink → Play
  | [], n, b => .call (.showing n b, .close rtcFd) fun _ => .exit 0
  | .tasklet :: cs, n, b =>
    .call (.showing n b, .read rtcFd true 4) fun _ => b.does fuel .tasklet (rounds fuel rtcFd cs (n + 1))
  | c :: cs, n, b => b.does fuel c (rounds fuel rtcFd cs n)

/-- `main` behind `mp1_set_video_mode`. It writes the frequency 32 to the clock, whether there is one
or not. -/
def fish (garbage garbage' : BlinkStruct) (fuel : ℕ) (b : Blink) : Play :=
  .call (.drawing b, .open (some rtc)) fun reply =>
    addFrames garbage fuel file0 file1 b fun b =>
      .call (.showing 0 b, .write reply.ret (some [32, 0, 0, 0]) 4) fun _ =>
        rounds fuel reply.ret (mainCalls garbage') 0 b

/-- Behind `add_frames` the texts are on the screen in turn, and everything else on it is what it was
in `b`, but for the character of `main`. -/
def Pictured (t0 t1 : List UInt8) (b : Blink) : Scene → Prop
  | .drawing _ => True
  | .showing n b' => ∀ x : UInt16, x ≠ imLocation →
      b'.vmem (2 * x.toNat) = (picture t0 t1 n x.toNat).getD (b.vmem (2 * x.toNat))

theorem rounds_cons {c : Call} (hc : c ≠ .tasklet) (fuel : ℕ) (rtcFd : ℤ) (cs : List Call) (n : ℕ)
    (b : Blink) : rounds fuel rtcFd (c :: cs) n b = b.does fuel c (rounds fuel rtcFd cs n) := by
  cases c with
  | tasklet => exact absurd rfl hc
  | add | remove | find | sync => rfl

section Plays
variable {img : Image} {seen : Scene → Prop} {ended : ℤ → Prop} {fuel : ℕ} {p : Proc} {b : Blink}

/-- The calls that are left show what each part of them shows. -/
theorem rounds_plays (hended : ended 0) (rtcFd : ℤ) {cs : List Call} {n : ℕ}
    (h : ∀ cs', cs' <+: cs → ∃ b', blinkRuns fuel b cs' = some b' ∧ seen (.showing (n + ticks cs') b')) :
    Plays img seen ended (rounds fuel rtcFd cs n b) p := by
  induction cs generalizing n b p with
  | nil =>
    obtain ⟨b', hrun, hseen⟩ := h [] List.nil_prefix
    obtain rfl : b = b' := Option.some.inj hrun
    exact ⟨hseen, fun m _ => hended⟩
  | cons c cs ih =>
    obtain ⟨b', hrun, hseen⟩ := h [] List.nil_prefix
    obtain rfl : b = b' := Option.some.inj hrun
    obtain ⟨b', hrun, -⟩ := h [c] (List.prefix_append [c] cs)
    obtain ⟨b₁, hstep, -⟩ := run_cons_eq_some.mp hrun
    have hgoes : ∀ n', (∀ cs', n' + ticks cs' = n + ticks (c :: cs')) → ∀ p,
        Plays img seen ended (b.does fuel c (rounds fuel rtcFd cs n')) p := by
      intro n' hn p
      rw [Blink.does, hstep]
      refine ih fun cs' hcs' => ?_
      obtain ⟨b', hrun, hseen⟩ := h (c :: cs') (List.cons_prefix_cons.mpr ⟨rfl, hcs'⟩)
      obtain ⟨b₂, hstep', hrun⟩ := run_cons_eq_some.mp hrun
      obtain rfl : b₁ = b₂ := Option.some.inj (hstep.symm.trans hstep')
      exact ⟨b', hrun, (hn cs').symm ▸ hseen⟩
    by_cases hc : c = .tasklet
    · subst hc
      exact ⟨hseen, fun m _ => hgoes (n + 1) (fun cs' => by rw [ticks]; omega) _⟩
    · rw [rounds_cons hc]
      exact hgoes n (fun cs' => by rw [ticks_cons hc]) p

/-- An `open` takes no slot behind the first free one. -/
theorem serve_open_frees (m : Moment) (name : CString) {fds : Fds} (hfresh : p.fds = initFds fds)
    {i : Fin 8} (hi : 2 < i) (hfree : (initFds fds i).flags = 0) :
    ((serve img m p (.open (some name))).view.fds i).flags = 0 := by
  have hfirst : firstFree p.fds = some 2 := by rw [hfresh, firstFree_initFds]
  simp only [serve, Request.toCall, Syscall.call, sysOpen_eq, hfirst]
  rw [← hfresh] at hfree
  split
  · rename_i hfound
    obtain rfl := Option.some.inj hfound
    exact (congrArg FileArray.flags (Function.update_of_ne (Fin.ne_of_gt hi) ..)).trans hfree
  · exact hfree

theorem fish_plays {fds : Fds} (hfresh : p.fds = initFds fds) {d0 d1 : Dentry}
    (hopen0 : openable img (some file0) = some (d0, .fileFops))
    (hopen1 : openable img (some file1) = some (d1, .fileFops)) (hfile0 : Reachable img d0.inodeNum)
    (hfile1 : Reachable img d1.inodeNum) (hfits0 : Fits (contents img d0.inodeNum))
    (hfits1 : Fits (contents img d1.inodeNum)) (garbage garbage' : BlinkStruct)
    (hfuel : blinkNum < fuel) (hfuel0 : (img.inode d0.inodeNum).length + 1 < fuel)
    (hfuel1 : (img.inode d1.inodeNum).length + 1 < fuel) (hb : b.Start) :
    Plays img (Pictured (contents img d0.inodeNum) (contents img d1.inodeNum) b) (· = 0)
      (fish garbage garbage' fuel b) p := by
  have hentry : (openedEntry .fileFops d0).flags ≠ 0 := one_ne_zero
  have hpicture : ∀ cs, cs <+: mainCalls garbage' → ∃ b',
      blinkRuns fuel (addAll b (overlay garbage (contents img d0.inodeNum) (contents img d1.inodeNum))) cs =
          some b' ∧
        Pictured (contents img d0.inodeNum) (contents img d1.inodeNum) b (.showing (0 + ticks cs) b') := by
    intro cs hcs
    rw [Nat.zero_add]
    exact overlay_animates hfits0 hfits1 garbage hfuel hb hcs
  refine ⟨trivial, fun m _ => ?_⟩
  set p₀ := (serve img m p (.open (some rtc))).view
  have hfree : (p₀.fds 3).flags = 0 ∧ (p₀.fds 4).flags = 0 :=
    ⟨serve_open_frees m rtc hfresh (by decide) rfl, serve_open_frees m rtc hfresh (by decide) rfl⟩
  obtain ⟨a, c, hac, ha, hc⟩ := firstFree_twice (by decide) (by decide) (by decide) hfree hentry
  refine ⟨trivial, fun m₀ _ => ?_⟩
  obtain ⟨hret0, hfds0⟩ := serve_open_file (m := m₀) hopen0 ha
  set p₁ := (serve img m₀ p₀ (.open (some file0))).view
  dsimp only
  rw [hret0, if_neg (by omega)]
  refine ⟨trivial, fun m₁ _ => ?_⟩
  rw [← hfds0] at hc
  obtain ⟨hret1, hfds1⟩ := serve_open_file (m := m₁) hopen1 hc
  set p₂ := (serve img m₁ p₁ (.open (some file1))).view
  have hfirst : p₂.fds a = openedEntry .fileFops d0 := by
    rw [hfds1, Function.update_of_ne hac, hfds0, Function.update_self]
  have hsecond : p₂.fds c = openedEntry .fileFops d1 := by rw [hfds1, Function.update_self]
  dsimp only
  rw [hret1, if_neg (by omega)]
  refine addRows_overlay garbage (rest_two hac hfile0 hfile1) (fun _ => trivial)
    ⟨opened_rest hfirst, opened_rest hsecond⟩ (by rwa [contents_length]) (by rwa [contents_length])
    fun p₃ => ?_
  obtain ⟨b', hrun, hshown⟩ := hpicture [] List.nil_prefix
  obtain rfl := Option.some.inj hrun
  exact ⟨hshown, fun m _ => rounds_plays (by rfl) _ hpicture⟩

end Plays

/-- A fresh process that plays `fish` among any other processes: behind `add_frames`, what it has
stored in video memory are the two texts in turn, each for 15 tasklets, and nothing anywhere else but
at the place of the character of `main`. None of its loops goes on forever, and it ends with
status 0. -/
theorem fish_animates (tablePage : ℕ) (img : Image) (stack : ℕ → Stack) (k₀ k k' : State)
    (es fs : List UserEvent) (hboot : State.Boot k₀)
    (hr : run (userStep tablePage img stack) (pagingInit tablePage k₀) es = some k) (p : Fin 6)
    (hlive : k.pid p = occupied) (fds : Fds) (hfresh : (k.pcbs p).fileDescriptor = initFds fds)
    (d0 d1 : Dentry) (hopen0 : openable img (some file0) = some (d0, .fileFops))
    (hopen1 : openable img (some file1) = some (d1, .fileFops)) (hfile0 : Reachable img d0.inodeNum)
    (hfile1 : Reachable img d1.inodeNum) (hfits0 : Fits (contents img d0.inodeNum))
    (hfits1 : Fits (contents img d1.inodeNum)) (garbage garbage' : BlinkStruct) (fuel : ℕ)
    (hfuel : blinkNum < fuel) (hfuel0 : (img.inode d0.inodeNum).length + 1 < fuel)
    (hfuel1 : (img.inode d1.inodeNum).length + 1 < fuel) (b : Blink) (hb : b.Start)
    (hr' : run (userStep tablePage img stack) k fs = some k')
    (hend : Along (userStep tablePage img stack) (fun k e => ¬ EndsUser tablePage img stack p k e) k fs)
    (left : Play) (hleft : (process tablePage img stack p).remaining (fish garbage garbage' fuel b) k fs =
      some left) :
    left ≠ .spin ∧ (∀ status, left = .exit status → status = 0) ∧
      ∀ n b' r next, left = .call (.showing n b', r) next → ∀ x : UInt16, x ≠ imLocation →
        b'.vmem (2 * x.toNat) =
          (picture (contents img d0.inodeNum) (contents img d1.inodeNum) n x.toNat).getD
            (b.vmem (2 * x.toNat)) := by
  have hgo : Along (userStep tablePage img stack) (GoesOn False tablePage img stack p) k fs :=
    hend.imp fun _ _ h => ⟨h, fun hf => hf.elim⟩
  have hplays : Plays img (Pictured (contents img d0.inodeNum) (contents img d1.inodeNum) b) (· = 0)
      (fish garbage garbage' fuel b) ⟨(k.pcbs p).fileDescriptor, k.dev⟩ :=
    fish_plays hfresh hopen0 hopen1 hfile0 hfile1 hfits0 hfits1 garbage garbage' hfuel hfuel0 hfuel1 hb
  obtain ⟨hspin, hexit, hseen⟩ := session_always hboot hr hlive hr' hgo hleft hplays
  exact ⟨hspin, hexit, fun n b' r next h => hseen _ _ _ h⟩

/-- The tasklets so far, behind `add_frames`. -/
def Play.ticks : Play → Option ℕ
  | .call (.showing n _, _) _ => some n
  | _ => none

theorem ticks_eq_some {prog : Play} {n : ℕ} (h : prog.ticks = some n) :
    ∃ b r next, prog = .call (.showing n b, r) next := by
  unfold Play.ticks at h
  split at h
  · obtain rfl := Option.some.inj h
    exact ⟨_, _, _, rfl⟩
  · cases h

/-- A volume with a shell, the clock, and two frames of two rows each. -/
def fishImage : Image :=
  let img := toyImage 5 [shellName.bytes, rtc.bytes, file0.bytes, file1.bytes]
  { img with
    bootBlock := { img.bootBlock with
      dentry := update img.bootBlock.dentry 1 { Dentry.regular rtc.bytes 0 with fileType := rtcType } }
    dataBlock := fun i off =>
      ([magicIdentifiers, [], [0x6F, asciiSpace, newline, 0x3C], [asciiSpace, 0x78, newline, 0x3E]].getD i
        []).getD off 0 }

/-- A read of one character. -/
abbrev readEvent (fd : ℤ) : UserEvent := callEvent (.read fd true 1 fun _ => 0)

/-- The first shell plays `fish` up to the 17th wait for the clock; the other two start meanwhile, one
of them prints something, and the terminal of `fish` is hidden. -/
def fishEvents : List UserEvent :=
  [callEvent (.open (some rtc)), callEvent (.open (some file0)), tickEvent, printEvent (text "hi"),
      tickEvent, tickEvent, callEvent (.open (some file1)), readEvent 3, readEvent 4, readEvent 3,
      readEvent 4, tickEvent, .video (.switch 1), tickEvent, tickEvent, readEvent 3, readEvent 4,
      readEvent 3, readEvent 4, readEvent 3, readEvent 4, callEvent (.close 3), callEvent (.close 4),
      callEvent (.write 2 (some fun i => [32, 0, 0, 0].getD i 0) 4)] ++
    List.replicate 16 (callEvent (.read 2 true 4 fun _ => 0))

/-- The second frame is on the screen after 16 tasklets. -/
theorem fish_animates_frames : ∃ k k' b' r next,
    run (userStep 0x500 fishImage fun _ => .zero) (pagingInit 0x500 .cleared) [tickEvent] = some k ∧
      run (userStep 0x500 fishImage fun _ => .zero) k fishEvents = some k' ∧
      (process 0x500 fishImage (fun _ => .zero) 0).remaining (fish .zero .zero 2001 blank) k fishEvents =
        some (.call (.showing 16 b', r) next) ∧
      [40, 41, 120].map (fun x => b'.vmem (2 * x)) = [asciiSpace, 0x78, 0x3E] := by
  obtain ⟨k, hr, hlive, hfresh, hend, hleft, hrest⟩ := run_eval (userStep 0x500 fishImage fun _ => .zero)
    (pagingInit 0x500 .cleared) [tickEvent]
    (fun k => k.pid (0 : Fin 6) = occupied ∧
      (k.pcbs 0).fileDescriptor = initFds (fun _ => ⟨.stdinFops, 0, 0, 0⟩) ∧
      Along (userStep 0x500 fishImage fun _ => .zero)
        (fun k e => ¬ EndsUser 0x500 fishImage (fun _ => .zero) 0 k e) k fishEvents ∧
      ((process 0x500 fishImage (fun _ => .zero) 0).remaining (fish .zero .zero 2001 blank) k
        fishEvents).bind Play.ticks = some 16 ∧
      (run (userStep 0x500 fishImage fun _ => .zero) k fishEvents).isSome = true)
    (by decide +kernel)
  obtain ⟨left, hleft, hticks⟩ := Option.bind_eq_some_iff.mp hleft
  obtain ⟨b', r, next, rfl⟩ := ticks_eq_some hticks
  obtain ⟨k', hr'⟩ := Option.isSome_iff_exists.mp hrest
  obtain ⟨-, -, hseen⟩ := fish_animates 0x500 fishImage _ .cleared k k' _ fishEvents State.cleared_boot hr 0
    hlive _ hfresh (Dentry.regular file0.bytes 2) (Dentry.regular file1.bytes 3) (by decide +kernel)
    (by decide +kernel) ⟨by decide, by decide⟩ ⟨by decide, by decide⟩
    (fits_of_rows (by decide) (by decide)) (fits_of_rows (by decide) (by decide)) .zero .zero 2001
    (by decide) (by decide) (by decide) blank blank_start hr' hend _ hleft
  have hshown := hseen 16 b' r next rfl
  have h40 : b'.vmem (2 * 40) = asciiSpace := (hshown 40 (by decide)).trans (by decide)
  have h41 : b'.vmem (2 * 41) = 0x78 := (hshown 41 (by decide)).trans (by decide)
  have h120 : b'.vmem (2 * 120) = 0x3E := (hshown 120 (by decide)).trans (by decide)
  refine ⟨k, k', b', r, next, hr, hr', hleft, ?_⟩
  simp only [List.map_cons, List.map_nil, h40, h41, h120]

end Ece391.Fish
