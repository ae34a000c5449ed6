import Ece391.User.Grep

/-! The refills of `do_one_file`. One round of the outer loop searches the whole lines in the
buffer and moves the text on by what it searched; over all rounds the lines come out in the
order of the file. A newline left on the stack behind the buffer ends, once, a line that the
buffer cuts. -/

namespace Ece391.User

open Function (update)
open Lib Support.Lines

variable {σ : Type} {sys : SystemCalls σ} {fd : ℤ} {left : σ → List UInt8 → Prop}

/-- Every read delivers as many bytes as it is asked for, or those that are left. `left` says
what is left in a state of the kernel. -/
structure Delivering (sys : SystemCalls σ) (fd : ℤ) (left : σ → List UInt8 → Prop) : Prop where
  bytes : ∀ st rest n, left st rest → (sys.ece391Read st fd n).1 = some (rest.take n)
  next : ∀ st rest n, left st rest → left (sys.ece391Read st fd n).2 (rest.drop n)

/-- The outer loop before a read: an unfinished line `c` at the front of the buffer and the
text `r` that is left. -/
structure Front (data : ℕ → UInt8) (last : ℕ) (c r : List UInt8) : Prop where
  stored : StoredAt data 0 c
  last_eq : last = c.length
  room : c.length < bufsize
  unbroken : newline ∉ c
  noNul : ∀ b ∈ c ++ r, b ≠ 0
  short : ShortLines newline bufsize (c ++ r)

/-- What a failed `ece391_close` prints. -/
def closing (out : GrepOut σ) : List UInt8 := if out.ret = -1 then closeFailed.bytes else []

/-- The run ends and has printed a text. -/
def Prints (res : Option (GrepOut σ)) (text : List UInt8) : Prop :=
  ∃ out, res = some out ∧ out.printed = text ++ closing out

theorem Prints.after {res : Option (GrepOut σ)} {text : List UInt8} (h : Prints res text)
    (before : List UInt8) :
    Prints (res.map fun out => { out with printed := before ++ out.printed }) (before ++ text) := by
  obtain ⟨out, rfl, hprinted⟩ := h
  refine ⟨_, rfl, ?_⟩
  calc before ++ out.printed = before ++ (text ++ closing out) := by rw [hprinted]
    _ = before ++ text ++ closing out := (List.append_assoc _ _ _).symm

/-- The buffer after a read. -/
def refilled (data : ℕ → UInt8) (last : ℕ) (r : List UInt8) : ℕ → UInt8 :=
  storeBytes last (r.take (bufsize - last)) data

/-- The bytes in the buffer after a read. -/
def window (c r : List UInt8) : List UInt8 := (c ++ r).take bufsize

/-- What the round after a read leaves to the next one. -/
def cutLine (data : ℕ → UInt8) (last : ℕ) (c r : List UInt8) : List UInt8 :=
  carriedOver (refilled data last r (window c r).length) (r.take (bufsize - last)).length 0 (window c r)

section Round
variable {fuel last : ℕ} {s fname : CString} {data : ℕ → UInt8} {c r : List UInt8} {st : σ}

theorem closeFile_prints (hfuel : Enough fuel s fname) (st : σ) :
    Prints (closeFile sys fuel fd st) [] := by
  have hbuffer : 1024 < fuel := hfuel.buffer
  have htext : closeFailed.bytes.length < fuel := show 18 < fuel by omega
  rw [closeFile]
  rcases sys.ece391Close st fd with ⟨ret, st'⟩
  dsimp only
  split_ifs with hret
  · rw [ece391Fdputs_holds (string_holds closeFailed) htext]
    exact ⟨_, rfl, rfl⟩
  · exact ⟨_, rfl, rfl⟩

theorem window_length_le (c r : List UInt8) : (window c r).length ≤ bufsize := by
  rw [window, List.length_take]
  exact Nat.min_le_left _ _

theorem Front.window_eq (h : Front data last c r) : window c r = c ++ r.take (bufsize - last) := by
  rw [window, List.take_append, List.take_of_length_le h.room.le, h.last_eq]

theorem Front.window_length (h : Front data last c r) :
    (window c r).length = last + (r.take (bufsize - last)).length := by
  rw [h.window_eq, List.length_append, ← h.last_eq]

/-- The buffer and what is behind it are the text. -/
theorem Front.split (h : Front data last c r) : c ++ r = window c r ++ r.drop (bufsize - last) := by
  rw [h.window_eq, List.append_assoc, List.take_append_drop]

theorem Front.filled (h : Front data last c r) : StoredAt (refilled data last r) 0 (window c r) := by
  rw [h.window_eq]
  intro i hi
  rw [List.length_append] at hi
  have hlast := h.last_eq
  rcases Nat.lt_or_ge i c.length with hc | hc
  · rw [List.getD_append _ _ _ _ hc, ← h.stored i hc, refilled, storeBytes, if_neg (by omega)]
  · obtain ⟨j, rfl⟩ := Nat.exists_eq_add_of_le hc
    have hj : j < (r.take (bufsize - last)).length := by omega
    rw [List.getD_append_right _ _ _ _ hc, Nat.zero_add, Nat.add_sub_cancel_left, ← hlast,
      refilled, storeBytes_get data hj, List.getD_eq_getElem _ _ hj]

/-- The byte behind the buffer is not read into. -/
theorem Front.guard (h : Front data last c r) : refilled data last r bufsize = data bufsize := by
  have hroom := h.room
  have hlast := h.last_eq
  exact storeBytes_beyond data (by rw [List.length_take]; omega)

/-- Where the file does not fill the buffer it has come to its end. -/
theorem Front.ended (h : Front data last c r) (hfill : (window c r).length < bufsize) :
    r.drop (bufsize - last) = [] := by
  have hlast := h.last_eq
  rw [window, List.length_take, List.length_append] at hfill
  exact List.drop_eq_nil_iff.mpr (by omega)

end Round

section Carried
variable {stale : UInt8} {cnt : ℕ} {w kept : List UInt8}

theorem not_mem_carriedOver (p : ℕ) : newline ∉ carriedOver stale cnt p w := by
  unfold carriedOver
  split_ifs
  · exact not_mem_unfinished w
  · exact List.not_mem_nil

/-- What is carried over stands behind a newline. -/
theorem kept_ends (h : w = kept ++ carriedOver stale cnt 0 w) :
    carriedOver stale cnt 0 w = [] ∧ kept = w ∨ kept.getLast? = some newline := by
  by_cases hcut : newline ≠ stale ∧ 0 ≠ cnt ∧ ((0 : ℕ) ≠ 0 ∨ newline ∈ w)
  · right
    have hcarried : carriedOver stale cnt 0 w = unfinished newline w := if_pos hcut
    obtain ⟨a, ha, hends⟩ := finished_unfinished newline w
    rw [hcarried] at h
    obtain rfl : kept = a := List.append_cancel_right (h.symm.trans ha)
    refine hends.resolve_left fun hnil => ?_
    rw [hnil, List.nil_append] at ha
    have hmem : newline ∈ w := hcut.2.2.resolve_left fun h => h rfl
    exact not_mem_unfinished w (ha ▸ hmem)
  · left
    have hcarried : carriedOver stale cnt 0 w = [] := if_neg hcut
    rw [hcarried, List.append_nil] at h
    exact ⟨hcarried, h.symm⟩

end Carried

/-! ### One round -/

section Round
variable {fuel last : ℕ} {s fname : CString} {data : ℕ → UInt8} {c r kept : List UInt8} {swept : Swept}
  {st : σ}

/-- A round of the inner loop over the window. -/
abbrev SweepsWindow (s fname : CString) (data : ℕ → UInt8) (last : ℕ) (c r kept : List UInt8)
    (swept : Swept) : Prop :=
  Sweeps s fname (refilled data last r) (window c r).length (window c r) kept (cutLine data last c r)
    swept

/-- The text moves on by what has been searched. -/
theorem Front.moves (h : Front data last c r) (hsweeps : SweepsWindow s fname data last c r kept swept) :
    c ++ r = kept ++ (cutLine data last c r ++ r.drop (bufsize - last)) := by
  rw [h.split, hsweeps.split, List.append_assoc]

/-- The next round finds the cut line at the front. -/
theorem Front.next (h : Front data last c r) (hsweeps : SweepsWindow s fname data last c r kept swept) :
    Front swept.data swept.last (cutLine data last c r) (r.drop (bufsize - last)) := by
  have htext := h.moves hsweeps
  have hlen := window_length_le c r
  refine ⟨hsweeps.front, hsweeps.last_eq, ?_, not_mem_carriedOver 0, ?_, ?_⟩
  · rcases kept_ends hsweeps.split with ⟨hnone, -⟩ | hends
    · rw [cutLine, hnone]
      exact Nat.zero_lt_succ _
    · have hkept : kept.length ≠ 0 := fun h0 => by simp [List.length_eq_zero_iff.mp h0] at hends
      have hsum := congrArg List.length hsweeps.split
      rw [List.length_append] at hsum
      omega
  · exact fun b hb => h.noNul b (htext ▸ List.mem_append_right _ hb)
  · have hshort := h.short
    rw [htext] at hshort
    exact hshort.right

/-- The round has not cut a line, unless a newline stood behind a full buffer. -/
theorem Front.between (h : Front data last c r) (hsweeps : SweepsWindow s fname data last c r kept swept)
    (hread : 0 ≠ (r.take (bufsize - last)).length)
    (hguard : newline ≠ data bufsize ∨ (window c r).length < bufsize) :
    Between newline kept (cutLine data last c r ++ r.drop (bufsize - last)) := by
  rcases kept_ends hsweeps.split with ⟨hnone, hkept⟩ | hends
  · rw [cutLine, hnone, List.nil_append, hkept]
    by_cases hfull : (window c r).length < bufsize
    · exact .inr (.inr (.inl (h.ended hfull)))
    have hlen : (window c r).length = bufsize := le_antisymm (window_length_le c r) (not_lt.mp hfull)
    by_cases hmem : newline ∈ window c r
    · -- the last line was not carried over because it ends with the buffer
      have hstale : newline ≠ refilled data last r (window c r).length := by
        rw [hlen, h.guard]
        exact hguard.resolve_right hfull
      have hunfinished : unfinished newline (window c r) = [] :=
        (if_pos ⟨hstale, hread, .inr hmem⟩ : cutLine data last c r = _).symm.trans hnone
      obtain ⟨a, ha, hends⟩ := finished_unfinished newline (window c r)
      rw [hunfinished, List.append_nil] at ha
      exact (ha ▸ hends).imp id .inl
    · have hshort := h.short
      rw [h.split] at hshort
      exact hshort.between hmem hlen
  · exact .inr (.inl hends)

/-- A read that delivers nothing finds the text at its end. -/
theorem Front.finished (h : Front data last c r) (hsweeps : SweepsWindow s fname data last c r kept swept)
    (hread : (r.take (bufsize - last)).length = 0) : c ++ r = kept := by
  have hroom := h.room
  have hlast := h.last_eq
  have hcut : cutLine data last c r = [] := if_neg fun hcut => hcut.2.1 hread.symm
  have hr : r.drop (bufsize - last) = [] := by
    rw [List.length_take] at hread
    exact List.drop_eq_nil_iff.mpr (by omega)
  rw [h.moves hsweeps, hcut, hr, List.append_nil, List.append_nil]

/-- A read that delivers something is followed by the search of something. -/
theorem Front.shorter (h : Front data last c r) (hsweeps : SweepsWindow s fname data last c r kept swept)
    (hread : (r.take (bufsize - last)).length ≠ 0) :
    (cutLine data last c r ++ r.drop (bufsize - last)).length < (c ++ r).length := by
  have hkept : kept ≠ [] := by
    rintro rfl
    rcases kept_ends hsweeps.split with ⟨-, hkept⟩ | hends
    · have hlen := h.window_length
      rw [← hkept, List.length_nil] at hlen
      omega
    · simp at hends
  have hpos := List.length_pos_iff.mpr hkept
  have hsum := congrArg List.length (h.moves hsweeps)
  simp only [List.length_append] at hsum ⊢
  omega

/-- The byte behind the buffer turns into a NUL or stays. -/
theorem Front.guard_next (h : Front data last c r)
    (hsweeps : SweepsWindow s fname data last c r kept swept) :
    swept.data bufsize = if (window c r).length = bufsize ∧ (window c r).getLast? ≠ some newline then 0
      else data bufsize := by
  rcases Nat.lt_or_eq_of_le (window_length_le c r) with hlen | hlen
  · rw [hsweeps.beyond _ hlen, h.guard, if_neg fun hfull => hlen.ne hfull.1]
  · have hend := hsweeps.atEnd
    rw [hlen, h.guard] at hend
    rw [hend]
    by_cases hends : (window c r).getLast? = some newline
    · rw [if_pos hends, if_neg fun hopen => hopen.2 hends]
    · rw [if_neg hends, if_pos ⟨hlen, hends⟩]

/-- Where the first block of the text ends that does not end with a newline. -/
def tornAt (t : List UInt8) : ℕ :=
  if t.length < bufsize then t.length
  else if (t.take bufsize).getLast? = some newline then bufsize + tornAt (t.drop bufsize)
  else bufsize
termination_by t.length
decreasing_by
  rw [List.length_drop]
  simp only [bufsize] at *
  omega

variable (hfuel : Enough fuel s fname) (hs : s.bytes ≠ []) (hdeliver : Delivering sys fd left)
include hfuel hs hdeliver

/-- One round of the outer loop. -/
theorem readLoop_round (h : Front data last c r) (hleft : left st r) (rounds : ℕ) :
    ∃ st' swept kept, left st' (r.drop (bufsize - last)) ∧
      SweepsWindow s fname data last c r kept swept ∧
      readLoop sys fuel s fname s.bytes.length fd (rounds + 1) data last st =
        (if (r.take (bufsize - last)).length = 0 then closeFile sys fuel fd st'
          else readLoop sys fuel s fname s.bytes.length fd rounds swept.data swept.last st').map
            fun out => { out with printed := swept.printed ++ out.printed } := by
  have hbuffer := hfuel.buffer
  have hread := hdeliver.bytes st r (bufsize - last) hleft
  have hnext := hdeliver.next st r (bufsize - last) hleft
  have hlen := window_length_le c r
  have hnul : ∀ b ∈ window c r, b ≠ 0 := fun b hb => h.noNul b (List.mem_of_mem_take hb)
  obtain ⟨swept, kept, hloop, hsweeps⟩ := lineLoop_sweeps hfuel hs
    hnul (by omega) h.filled (Nat.zero_add _).symm (show (window c r).length < fuel by omega)
  rcases hcall : sys.ece391Read st fd (bufsize - last) with ⟨bytes, st'⟩
  rw [hcall] at hread hnext
  obtain rfl : bytes = some (r.take (bufsize - last)) := hread
  refine ⟨st', swept, kept, hnext, hsweeps, ?_⟩
  rw [readLoop, hcall]
  dsimp only
  rw [← h.window_length]
  rw [refilled] at hloop
  rw [hloop, Option.bind_some]

/-- The outer loop, by induction on the text, while no newline stands behind a full buffer. -/
theorem readLoop_clean (rounds : ℕ) (h : Front data last c r) (hleft : left st r)
    (hguard : newline ≠ data bufsize ∨ (c ++ r).length < bufsize) (hrounds : (c ++ r).length < rounds) :
    Prints (readLoop sys fuel s fname s.bytes.length fd rounds data last st)
      (report fname (selected newline (finds s) (c ++ r))) := by
  induction rounds generalizing data last c r st with
  | zero => omega
  | succ rounds ih =>
    obtain ⟨st', swept, kept, hleft', hsweeps, hround⟩ := readLoop_round hfuel hs hdeliver h hleft rounds
    rw [hround]
    have htext := h.moves hsweeps
    by_cases hread : (r.take (bufsize - last)).length = 0
    · have hclose : Prints (closeFile sys fuel fd st') [] := closeFile_prints hfuel st'
      have hall := hclose.after swept.printed
      rw [List.append_nil] at hall
      rw [if_pos hread, h.finished hsweeps hread, ← hsweeps.printed]
      exact hall
    · have hshorter := h.shorter hsweeps hread
      have hwindow : (window c r).length ≤ (c ++ r).length := by
        rw [window, List.length_take]
        exact Nat.min_le_right _ _
      have hbetween := h.between hsweeps (Ne.symm hread) (hguard.imp id hwindow.trans_lt)
      have hguard' : newline ≠ swept.data bufsize ∨
          (cutLine data last c r ++ r.drop (bufsize - last)).length < bufsize := by
        refine hguard.imp (fun hne => ?_) hshorter.trans
        rw [h.guard_next hsweeps]
        split_ifs
        · decide
        · exact hne
      have hrest := (ih (h.next hsweeps) hleft' hguard' (by omega)).after swept.printed
      rw [if_neg hread, h.moves hsweeps, selected_append (finds_nil hs) hbetween, report_append,
        ← hsweeps.printed]
      exact hrest

/-- With a newline behind it a full buffer is searched to its end, and the byte behind it
turns into a NUL unless the last byte in it is a newline, too. -/
theorem readLoop_torn (h : Front data last [] r) (hleft : left st r) (hguard : newline = data bufsize)
    (hfull : bufsize ≤ r.length) (rounds : ℕ) :
    ∃ (st' : σ) (swept : Swept), left st' (r.drop bufsize) ∧ Front swept.data swept.last [] (r.drop bufsize) ∧
      swept.data bufsize = (if (r.take bufsize).getLast? = some newline then newline else 0) ∧
      readLoop sys fuel s fname s.bytes.length fd (rounds + 1) data last st =
        (readLoop sys fuel s fname s.bytes.length fd rounds swept.data swept.last st').map fun out =>
          { out with
            printed := report fname (selected newline (finds s) (r.take bufsize)) ++ out.printed } := by
  obtain ⟨st', swept, kept, hleft', hsweeps, hround⟩ := readLoop_round hfuel hs hdeliver h hleft rounds
  have hlast : last = 0 := h.last_eq
  subst hlast
  have hwindow : window [] r = r.take bufsize := rfl
  have hlen : (window [] r).length = bufsize := by
    rw [hwindow, List.length_take]
    exact Nat.min_eq_left hfull
  have hcut : cutLine data 0 [] r = [] := by
    refine if_neg fun hcut => hcut.1 ?_
    rw [hlen, h.guard, hguard]
  have hnext := h.next hsweeps
  have hkept := hsweeps.split
  have hread : (r.take (bufsize - 0)).length ≠ 0 := by
    rw [List.length_take]
    simp only [bufsize] at hfull ⊢
    omega
  rw [hcut, List.append_nil, hwindow] at hkept
  rw [hcut] at hnext
  rw [if_neg hread, hsweeps.printed, ← hkept] at hround
  refine ⟨st', swept, hleft', hnext, ?_, hround⟩
  rw [h.guard_next hsweeps, ← hguard]
  rw [hwindow] at hlen ⊢
  by_cases hends : (r.take bufsize).getLast? = some newline
  · rw [if_neg fun hopen => hopen.2 hends, if_pos hends]
  · rw [if_pos ⟨hlen, hends⟩, if_neg hends]

/-- With a newline behind the buffer the outer loop takes the text in two parts. -/
theorem readLoop_stale (rounds : ℕ) (h : Front data last [] r) (hleft : left st r)
    (hguard : newline = data bufsize) (hrounds : r.length < rounds) :
    Prints (readLoop sys fuel s fname s.bytes.length fd rounds data last st)
      (report fname (selected newline (finds s) (r.take (tornAt r)) ++
        selected newline (finds s) (r.drop (tornAt r)))) := by
  induction rounds generalizing data last r st with
  | zero => omega
  | succ rounds ih =>
    have hrounds' : (r.drop bufsize).length < rounds ∨ r.length < bufsize := by
      rw [List.length_drop]
      simp only [bufsize]
      omega
    rw [tornAt]
    split_ifs with hshort hends
    · have hclean := readLoop_clean hfuel hs hdeliver (rounds + 1) h hleft (.inr hshort) hrounds
      rw [List.take_length, List.drop_length, selected_nil (finds_nil hs), List.append_nil]
      exact hclean
    · obtain ⟨st', swept, hleft', hnext, hend, hround⟩ :=
        readLoop_torn hfuel hs hdeliver h hleft hguard (not_lt.mp hshort) rounds
      rw [if_pos hends] at hend
      have hrest := ih hnext hleft' hend.symm (hrounds'.resolve_right hshort)
      rw [hround, List.take_add, ← List.drop_drop, selected_append (finds_nil hs) (.inr (.inl hends)),
        List.append_assoc, report_append]
      exact hrest.after _
    · obtain ⟨st', swept, hleft', hnext, hend, hround⟩ :=
        readLoop_torn hfuel hs hdeliver h hleft hguard (not_lt.mp hshort) rounds
      rw [if_neg hends] at hend
      have hclean := readLoop_clean hfuel hs hdeliver rounds hnext hleft' (.inl (hend ▸ by decide))
        (hrounds'.resolve_right hshort)
      rw [hround, report_append]
      exact hclean.after _

end Round

end Ece391.User
