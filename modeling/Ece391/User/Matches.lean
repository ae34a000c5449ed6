import Ece391.User.Refills

/-! Which lines `do_one_file` prints, against the lines of the file that contain the
pattern. Two bytes decide: the first of the pattern, which is compared as a signed
character, and the one that the stack left behind the buffer. -/

namespace Ece391.User

open Lib Support.Lines

/-- The pattern occurs in a line. -/
def contains (s : CString) (l : List UInt8) : Bool := s.bytes <:+: l

/-- The lines that are printed. -/
def taken (s : CString) (data : ℕ → UInt8) (file : List UInt8) : List (List UInt8) :=
  if newline = data bufsize then
    selected newline (finds s) (file.take (tornAt file)) ++
      selected newline (finds s) (file.drop (tornAt file))
  else selected newline (finds s) file

/-- The first block that does not end with a newline ends inside a line with the pattern. -/
def TornMatch (s : CString) (file : List UInt8) : Prop :=
  unfinished newline (file.take (tornAt file)) ≠ [] ∧ opening newline (file.drop (tornAt file)) ≠ [] ∧
    s.bytes <:+: unfinished newline (file.take (tornAt file)) ++ opening newline (file.drop (tornAt file))

instance (s : CString) (file : List UInt8) : Decidable (TornMatch s file) :=
  inferInstanceAs (Decidable (_ ∧ _ ∧ _))

/-- `do_one_file` on a file that its descriptor delivers: it ends and prints the lines. -/
theorem doOneFile_prints {σ : Type} {sys : SystemCalls σ} {left : σ → List UInt8 → Prop} {st : σ}
    {s fname : CString} {file : List UInt8} {fuel : ℕ} (data : ℕ → UInt8)
    (hopen : (sys.ece391Open st fname).1 ≠ -1)
    (hdeliver : Delivering sys (sys.ece391Open st fname).1 left)
    (hfile : left (sys.ece391Open st fname).2 file) (hnul : ∀ b ∈ file, b ≠ 0)
    (hshort : ShortLines newline bufsize file) (hs : s.bytes ≠ []) (hfuel : Enough fuel s fname)
    (hlen : file.length < fuel) :
    Prints (doOneFile sys fuel s fname data st) (report fname (taken s data file)) := by
  have hfront : Front data 0 [] file :=
    ⟨fun i hi => absurd hi (Nat.not_lt_zero i), rfl, Nat.zero_lt_succ _, List.not_mem_nil, hnul, hshort⟩
  rw [doOneFile, ece391StrlenFrom_holds (string_holds s) hfuel.pattern, Option.bind_some]
  dsimp only
  rw [if_neg hopen, taken]
  split_ifs with hguard
  · exact readLoop_stale hfuel hs hdeliver fuel hfront hfile hguard hlen
  · exact readLoop_clean hfuel hs hdeliver fuel hfront hfile (.inl hguard) hlen

section Reports
variable {s fname : CString}

theorem contains_nil (hs : s.bytes ≠ []) : contains s [] = false := by
  simp [contains, hs]

theorem report_eq_nil {ls : List (List UInt8)} : report fname ls = [] ↔ ls = [] := by
  constructor
  · intro h
    rw [report, List.flatMap_eq_nil_iff] at h
    refine List.eq_nil_iff_forall_not_mem.mpr fun l hl => ?_
    exact absurd (h l hl) (by simp [lineText])
  · rintro rfl
    rfl

theorem report_alone_length (p : List UInt8 → Bool) (l : List UInt8) :
    (report fname (alone p l)).length = if p l then fname.bytes.length + l.length + 2 else 0 := by
  rw [alone]
  split_ifs
  · simp [report, lineText]
    omega
  · rfl

/-- One line in two pieces is printed as it should be if a piece is empty or the pattern is not
in the line. -/
theorem report_pieces_iff (hs : s.bytes ≠ []) (u v : List UInt8) :
    report fname (alone (contains s) u) ++ report fname (alone (contains s) v) =
        report fname (alone (contains s) (u ++ v)) ↔
      ¬ (u ≠ [] ∧ v ≠ [] ∧ s.bytes <:+: u ++ v) := by
  have hnone : report fname (alone (contains s) []) = [] := by
    rw [report_eq_nil, alone, contains_nil hs]
    rfl
  by_cases hu : u = []
  · subst hu
    simp [hnone]
  by_cases hv : v = []
  · subst hv
    simp [hnone]
  by_cases hmatch : s.bytes <:+: u ++ v
  · -- a line is longer than either of its pieces, and shorter than both with their names
    refine iff_of_false (fun h => ?_) (fun h => h ⟨hu, hv, hmatch⟩)
    have hlen := congrArg List.length h
    have hline : contains s (u ++ v) = true := decide_eq_true hmatch
    have hu' := List.length_pos_iff.mpr hu
    have hv' := List.length_pos_iff.mpr hv
    rw [List.length_append, report_alone_length, report_alone_length, report_alone_length,
      if_pos hline, List.length_append] at hlen
    split_ifs at hlen <;> omega
  · have hpiece : ∀ x, x <:+: u ++ v → alone (contains s) x = [] := fun x hx =>
      if_neg (by simpa [contains] using fun h => hmatch (h.trans hx))
    rw [hpiece u (List.infix_append' [] u v), hpiece v ⟨u, [], by simp⟩, hpiece _ List.infix_rfl]
    exact iff_of_true rfl fun h => hmatch h.2.2

/-- A cut shows in what is printed just when it falls inside a line with the pattern. -/
theorem report_cut_iff (fname : CString) (hs : s.bytes ≠ []) (a b : List UInt8) :
    report fname (selected newline (contains s) a ++ selected newline (contains s) b) =
        report fname (selected newline (contains s) (a ++ b)) ↔
      ¬ (unfinished newline a ≠ [] ∧ opening newline b ≠ [] ∧
        s.bytes <:+: unfinished newline a ++ opening newline b) := by
  obtain ⟨before, after, ha, hb, hab⟩ := selected_cut (contains_nil hs) a b
  rw [ha, hb, hab, ← report_pieces_iff hs]
  simp only [report_append, List.append_assoc, List.append_cancel_left_eq]
  rw [← List.append_assoc, List.append_cancel_right_eq]

/-- A torn line with the pattern is one of the lines with the pattern. -/
theorem TornMatch.selected_ne_nil {file : List UInt8} (hs : s.bytes ≠ []) (h : TornMatch s file) :
    selected newline (contains s) file ≠ [] := by
  obtain ⟨before, after, -, -, hall⟩ :=
    selected_cut (contains_nil hs) (file.take (tornAt file)) (file.drop (tornAt file))
  have hline : contains s (unfinished newline (file.take (tornAt file)) ++
      opening newline (file.drop (tornAt file))) = true := decide_eq_true h.2.2
  rw [List.take_append_drop, alone, if_pos hline] at hall
  simp [hall]

/-- A file that does not fill the buffer is not torn. -/
theorem not_tornMatch_of_short {file : List UInt8} (h : file.length < bufsize) : ¬ TornMatch s file := by
  intro htorn
  rw [TornMatch, tornAt, if_pos h, List.drop_length] at htorn
  exact htorn.2.1 rfl

/-- The lines printed are those that contain the pattern, exactly under two conditions. -/
theorem report_taken_iff (hs : s.bytes ≠ []) (data : ℕ → UInt8) (file : List UInt8) :
    report fname (taken s data file) = report fname (selected newline (contains s) file) ↔
      (s.mem 0 < 0x80 ∨ ∀ l ∈ file.splitOn newline, ¬ s.bytes <:+: l) ∧
        ¬ (newline = data bufsize ∧ TornMatch s file) := by
  by_cases hlow : s.mem 0 < 0x80
  · have hfinds : finds s = contains s := by
      funext l
      simp [finds, contains, hlow]
    rw [taken, hfinds]
    split_ifs with hguard
    · have hcut := report_cut_iff fname hs (file.take (tornAt file)) (file.drop (tornAt file))
      rw [List.take_append_drop] at hcut
      rw [hcut]
      simp [hlow, hguard, TornMatch]
    · simp [hlow, hguard]
  · -- the first byte is never found equal, so nothing is printed
    have hfinds : ∀ t, selected newline (finds s) t = [] := fun t => by
      simp [selected, finds, hlow]
    have htaken : taken s data file = [] := by simp [taken, hfinds]
    have hselected : selected newline (contains s) file = [] ↔
        ∀ l ∈ file.splitOn newline, ¬ s.bytes <:+: l := by
      simp [selected, contains, List.filter_eq_nil_iff]
    rw [htaken, eq_comm, report_eq_nil.mpr rfl, report_eq_nil, hselected]
    simp only [hlow, false_or]
    exact ⟨fun h => ⟨h, fun htorn => htorn.2.selected_ne_nil hs (hselected.mpr h)⟩, fun h => h.1⟩

end Reports

/-- On every file of lines of at most 1024 bytes, without NULs, and for every pattern that is not
empty, `do_one_file` ends; and it prints, apart from the message of a failed `ece391_close`,
exactly the lines that contain the pattern, in their order, just when the first byte of the
pattern is below 128 or no line contains it, and the stack has not left a newline behind the
buffer of a file whose first block without a newline at its end ends inside a line with the
pattern. -/
theorem grep_prints_lines_iff {σ : Type} (sys : SystemCalls σ) (left : σ → List UInt8 → Prop) (st : σ)
    (s fname : CString) (file : List UInt8) (data : ℕ → UInt8)
    (hopen : (sys.ece391Open st fname).1 ≠ -1)
    (hdeliver : Delivering sys (sys.ece391Open st fname).1 left)
    (hfile : left (sys.ece391Open st fname).2 file) (hnul : ∀ b ∈ file, b ≠ 0)
    (hshort : ∀ l ∈ file.splitOn newline, l.length ≤ bufsize) (hs : s.bytes ≠ [])
    (fuel : ℕ) (hfuel : Enough fuel s fname) (hlen : file.length < fuel) :
    ∃ out, doOneFile sys fuel s fname data st = some out ∧
      (out.printed = report fname ((file.splitOn newline).filter (contains s)) ++ closing out ↔
        (s.mem 0 < 0x80 ∨ ∀ l ∈ file.splitOn newline, ¬ s.bytes <:+: l) ∧
          ¬ (newline = data bufsize ∧ TornMatch s file)) := by
  obtain ⟨out, hrun, hprinted⟩ :=
    doOneFile_prints data hopen hdeliver hfile hnul hshort hs hfuel hlen
  refine ⟨out, hrun, ?_⟩
  rw [hprinted, List.append_cancel_right_eq]
  exact report_taken_iff hs data file

/-! ### A kernel with one file -/

/-- The bytes of the file that are left are all the state; every name opens it. -/
def oneFile : SystemCalls (List UInt8) where
  ece391Open rest _ := (2, rest)
  ece391Read rest _ n := (some (rest.take n), rest.drop n)
  ece391Close rest _ := (0, rest)

theorem oneFile_delivering (fd : ℤ) : Delivering oneFile fd fun rest text => rest = text where
  bytes := by
    rintro rest _ n rfl
    rfl
  next := by
    rintro rest _ n rfl
    rfl

/-- "f" -/
def nameF : CString := ⟨[0x66], CString.noNul_of_all rfl⟩

/-- "xy" -/
def patternXY : CString := ⟨[0x78, 0x79], CString.noNul_of_all rfl⟩

/-- A pattern of one byte above 127. -/
def patternHigh : CString := ⟨[0xE9], CString.noNul_of_all rfl⟩

/-- Two lines, of which the second begins with 1022 times "x" and ends with "y". -/
def tornFile : List UInt8 := 0x61 :: newline :: (List.replicate 1022 0x78 ++ [0x79])

/-- Three short lines, on a stack that left newlines. -/
theorem grep_prints_lines_iff_short :
    ∃ out, doOneFile oneFile 2000 patternXY nameF (fun _ => newline)
        [0x78, 0x79, newline, 0x78, newline, 0x78, 0x79] = some out ∧
      out.printed = report nameF [[0x78, 0x79], [0x78, 0x79]] ++ closing out := by
  obtain ⟨out, hrun, hiff⟩ := grep_prints_lines_iff oneFile (fun rest text => rest = text)
    [0x78, 0x79, newline, 0x78, newline, 0x78, 0x79] patternXY nameF
    [0x78, 0x79, newline, 0x78, newline, 0x78, 0x79] (fun _ => newline) (by decide)
    (oneFile_delivering 2) rfl (CString.noNul_of_all rfl) (by decide +kernel) (by decide) 2000
    ⟨by decide, by decide, by decide⟩ (by decide)
  refine ⟨out, hrun, ?_⟩
  rw [hiff.mpr ⟨.inl (by decide), fun htorn => not_tornMatch_of_short (by decide) htorn.2⟩]
  rfl

theorem tornMatch_tornFile : TornMatch patternXY tornFile := by
  have htorn : tornAt tornFile = bufsize := by
    rw [tornAt, if_neg (by decide +kernel), if_neg (by decide +kernel)]
  rw [TornMatch, htorn]
  decide +kernel

theorem tornFile_short : ∀ l ∈ tornFile.splitOn newline, l.length ≤ bufsize := by
  decide +kernel

/-- What the kernel with one file lets the program print. -/
theorem oneFile_prints {s : CString} (file : List UInt8) (data : ℕ → UInt8)
    (hnul : ∀ b ∈ file, b ≠ 0) (hshort : ∀ l ∈ file.splitOn newline, l.length ≤ bufsize) (hs : s.bytes ≠ [])
    (hpattern : s.bytes.length < 2000) (hlen : file.length < 2000) :
    ∃ out, doOneFile oneFile 2000 s nameF data file = some out ∧
      out.printed = report nameF (taken s data file) ++ closing out :=
  doOneFile_prints data (show (2 : ℤ) ≠ -1 by decide) (oneFile_delivering 2) rfl hnul hshort hs
    ⟨hpattern, by decide, by decide⟩ hlen

/-- The second line of the first file is lost between two reads, and a pattern above 127 is
not found in a file that consists of it. -/
theorem grep_misses_lines :
    (∃ out, doOneFile oneFile 2000 patternXY nameF (fun _ => newline) tornFile = some out ∧
      out.printed ≠ report nameF ((tornFile.splitOn newline).filter (contains patternXY)) ++ closing out) ∧
    ∃ out, doOneFile oneFile 2000 patternHigh nameF (fun _ => 0) [0xE9] = some out ∧
      out.printed ≠ report nameF (([0xE9].splitOn newline).filter (contains patternHigh)) ++ closing out := by
  constructor
  · obtain ⟨out, hrun, hprinted⟩ := oneFile_prints tornFile (fun _ => newline)
      (CString.noNul_of_all (by decide +kernel)) tornFile_short (by decide : patternXY.bytes ≠ [])
      (by decide) (by decide +kernel)
    refine ⟨out, hrun, fun h => ?_⟩
    rw [hprinted, List.append_cancel_right_eq] at h
    exact ((report_taken_iff (by decide) _ _).mp h).2 ⟨rfl, tornMatch_tornFile⟩
  · obtain ⟨out, hrun, hprinted⟩ := oneFile_prints [0xE9] (fun _ => 0)
      (CString.noNul_of_all rfl) (by decide +kernel) (by decide : patternHigh.bytes ≠ [])
      (by decide) (by decide)
    refine ⟨out, hrun, fun h => ?_⟩
    rw [hprinted, List.append_cancel_right_eq] at h
    rcases ((report_taken_iff (by decide) _ _).mp h).1 with hlow | hnone
    · exact absurd hlow (by decide)
    · exact hnone [0xE9] (by decide +kernel) List.infix_rfl

end Ece391.User
