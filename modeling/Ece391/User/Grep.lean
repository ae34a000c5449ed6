import Ece391.Lib.Screen
import Ece391.Support.Lines
import Ece391.User.Strings

/-! `do_one_file` of `ece391grep.c`. The buffer is filled up to 1024 bytes and searched line
by line; a line that the end of the buffer cuts is moved to the front and completed by the
next read. Whether it was cut is read off the byte behind the last one. -/

namespace Ece391.User

open Function (update)
open Lib Support.Copying Support.Lines

/-- `BUFSIZE`; the buffer has one byte more. -/
abbrev bufsize : ℕ := 1024

abbrev colon : UInt8 := 0x3A

/-- The system calls of the program, over states of the kernel. `ece391_read` stores bytes and
returns their number, or it fails and returns -1. -/
structure SystemCalls (σ : Type) where
  ece391Open : σ → CString → ℤ × σ
  ece391Read : σ → ℤ → ℕ → Option (List UInt8) × σ
  ece391Close : σ → ℤ → ℤ × σ

/-- ":" -/
def colonText : CString := ⟨[colon], CString.noNul_of_all rfl⟩

/-- "\n" -/
def newlineText : CString := ⟨[newline], CString.noNul_of_all rfl⟩

/-- "file open failed\n" -/
def openFailed : CString :=
  ⟨[0x66, 0x69, 0x6C, 0x65, 0x20, 0x6F, 0x70, 0x65, 0x6E, 0x20, 0x66, 0x61, 0x69, 0x6C, 0x65, 0x64,
    newline], CString.noNul_of_all rfl⟩

/-- "file read failed\n" -/
def readFailed : CString :=
  ⟨[0x66, 0x69, 0x6C, 0x65, 0x20, 0x72, 0x65, 0x61, 0x64, 0x20, 0x66, 0x61, 0x69, 0x6C, 0x65, 0x64,
    newline], CString.noNul_of_all rfl⟩

/-- "file close failed\n" -/
def closeFailed : CString :=
  ⟨[0x66, 0x69, 0x6C, 0x65, 0x20, 0x63, 0x6C, 0x6F, 0x73, 0x65, 0x20, 0x66, 0x61, 0x69, 0x6C, 0x65,
    0x64, newline], CString.noNul_of_all rfl⟩

/-- The loop that looks for the end of the line. -/
def lineEndFrom (data : ℕ → UInt8) (last lineEnd : ℕ) : ℕ :=
  if lineEnd < last ∧ newline ≠ data lineEnd then lineEndFrom data last (lineEnd + 1) else lineEnd
termination_by last - lineEnd

/-- The four `ece391_fdputs` for a line that matches. -/
def printLine (fuel : ℕ) (fname : CString) (data : ℕ → UInt8) (lineStart : ℕ) :
    Option (List UInt8) := do
  let name ← ece391Fdputs fuel fname.mem 0
  let separator ← ece391Fdputs fuel colonText.mem 0
  let line ← ece391Fdputs fuel data lineStart
  let ending ← ece391Fdputs fuel newlineText.mem 0
  return name ++ separator ++ line ++ ending

/-- The search of a line from `check` on, which stops at the first match. -/
def searchLine (fuel : ℕ) (s fname : CString) (sLen : ℕ) (data : ℕ → UInt8)
    (lineStart lineEnd check : ℕ) : Option (List UInt8) :=
  if check < lineEnd then
    -- `s` points to `char`, which is signed, and `data` to `uint8_t`
    if (s.mem 0).toInt8.toInt = (data check).toNat ∧
        ece391Strncmp (fun i => data (check + i)) s.mem sLen = 0 then
      printLine fuel fname data lineStart
    else searchLine fuel s fname sLen data lineStart lineEnd (check + 1)
  else some []
termination_by lineEnd - check

/-- What the inner loop leaves to the next read. -/
structure Swept where
  data : ℕ → UInt8
  last : ℕ
  printed : List UInt8

/-- The inner loop from `lineStart` on, after a read of `cnt` bytes. -/
def lineLoop (fuel : ℕ) (s fname : CString) (sLen cnt last : ℕ) :
    (rounds : ℕ) → (data : ℕ → UInt8) → (lineStart : ℕ) → Option Swept
  | 0, _, _ => none
  | rounds + 1, data, lineStart =>
    let lineEnd := lineEndFrom data last lineStart
    -- `data[lineEnd]` is read also where `lineEnd` is `last`
    if newline ≠ data lineEnd ∧ 0 ≠ cnt ∧ lineStart ≠ 0 then
      (ece391Strcpy fuel 0 lineStart (update data lineEnd 0)).map fun data =>
        ⟨data, last - lineStart, []⟩
    else
      let data := update data lineEnd 0
      (searchLine fuel s fname sLen data lineStart lineEnd lineStart).bind fun printed =>
        if last ≤ lineEnd + 1 then some ⟨data, 0, printed⟩
        else (lineLoop fuel s fname sLen cnt last rounds data (lineEnd + 1)).map fun swept =>
          { swept with printed := printed ++ swept.printed }

/-- The returned value, the bytes printed and the kernel afterwards. -/
structure GrepOut (σ : Type) where
  ret : ℤ
  printed : List UInt8
  kernel : σ

/-- The end of `do_one_file`. -/
def closeFile {σ : Type} (sys : SystemCalls σ) (fuel : ℕ) (fd : ℤ) (st : σ) : Option (GrepOut σ) :=
  let (ret, st) := sys.ece391Close st fd
  if ret = -1 then (ece391Fdputs fuel closeFailed.mem 0).map fun text => ⟨-1, text, st⟩
  else some ⟨0, [], st⟩

/-- The outer loop with `last` bytes at the front of the buffer. -/
def readLoop {σ : Type} (sys : SystemCalls σ) (fuel : ℕ) (s fname : CString) (sLen : ℕ) (fd : ℤ) :
    (rounds : ℕ) → (data : ℕ → UInt8) → (last : ℕ) → (st : σ) → Option (GrepOut σ)
  | 0, _, _, _ => none
  | rounds + 1, data, last, st =>
    match sys.ece391Read st fd (bufsize - last) with
    | (none, st) => (ece391Fdputs fuel readFailed.mem 0).map fun text => ⟨-1, text, st⟩
    | (some bytes, st) =>
      let cnt := bytes.length
      (lineLoop fuel s fname sLen cnt (last + cnt) fuel (storeBytes last bytes data) 0).bind fun swept =>
        (if cnt = 0 then closeFile sys fuel fd st
          else readLoop sys fuel s fname sLen fd rounds swept.data swept.last st).map fun out =>
            { out with printed := swept.printed ++ out.printed }

/-- `do_one_file`, on a stack that left `data` in the buffer. Each loop may take `fuel`
rounds. -/
def doOneFile {σ : Type} (sys : SystemCalls σ) (fuel : ℕ) (s fname : CString) (data : ℕ → UInt8)
    (st : σ) : Option (GrepOut σ) :=
  (ece391StrlenFrom s.mem fuel 0 0).bind fun sLen =>
    let (fd, st) := sys.ece391Open st fname
    if fd = -1 then (ece391Fdputs fuel openFailed.mem 0).map fun text => ⟨-1, text, st⟩
    else readLoop sys fuel s fname sLen fd fuel data 0 st

/-! ### A line -/

/-- What is printed for a line. -/
def lineText (fname : CString) (l : List UInt8) : List UInt8 :=
  fname.bytes ++ [colon] ++ l ++ [newline]

/-- What is printed for lines. -/
def report (fname : CString) (ls : List (List UInt8)) : List UInt8 := ls.flatMap (lineText fname)

/-- The lines in which the search finds the pattern. -/
def finds (s : CString) (l : List UInt8) : Bool := s.mem 0 < 0x80 ∧ s.bytes <:+: l

/-- The strings and the buffer fit into the rounds of a loop. -/
structure Enough (fuel : ℕ) (s fname : CString) : Prop where
  pattern : s.bytes.length < fuel
  name : fname.bytes.length < fuel
  buffer : bufsize < fuel

/-- Bytes that lie in memory. -/
def StoredAt (mem : ℕ → UInt8) (p : ℕ) (l : List UInt8) : Prop :=
  ∀ i < l.length, mem (p + i) = l.getD i 0

theorem report_append (fname : CString) (k l : List (List UInt8)) :
    report fname (k ++ l) = report fname k ++ report fname l := List.flatMap_append

theorem finds_nil {s : CString} (hs : s.bytes ≠ []) : finds s [] = false := by
  simp [finds, hs]

section Line
variable {fuel : ℕ} {s fname : CString} {data : ℕ → UInt8}

theorem string_holds (t : CString) : Holds t.mem 0 t := fun i _ => by rw [Nat.zero_add]

theorem printLine_eq (hfuel : Enough fuel s fname) {p : ℕ} {l : CString} (hl : Holds data p l)
    (hlen : l.bytes.length < fuel) : printLine fuel fname data p = some (lineText fname l.bytes) := by
  have hbuffer : 1024 < fuel := hfuel.buffer
  have hcolon : colonText.bytes.length < fuel := show 1 < fuel by omega
  have hnewline : newlineText.bytes.length < fuel := show 1 < fuel by omega
  rw [printLine, ece391Fdputs_holds (string_holds fname) hfuel.name,
    ece391Fdputs_holds (string_holds colonText) hcolon, ece391Fdputs_holds hl hlen,
    ece391Fdputs_holds (string_holds newlineText) hnewline]
  rfl

/-- A signed character and an unsigned one are equal only below 128. -/
theorem char_eq_iff (a b : UInt8) : a.toInt8.toInt = b.toNat ↔ a < 0x80 ∧ a = b := by
  have ha : a.toInt8.toInt = (a.toNat : ℤ).bmod 256 := by
    rw [← Int8.toInt_toBitVec]
    simp [BitVec.toInt_eq_toNat_bmod]
  have hlimit : (0x80 : UInt8).toNat = 128 := rfl
  have := a.toNat_lt
  have := b.toNat_lt
  rw [ha, UInt8.lt_iff_toNat_lt, ← UInt8.toNat_inj, hlimit, Int.bmod_def]
  split_ifs <;> omega

/-- The comparison at one place of a line: whether the pattern begins there. -/
theorem match_iff (hs : s.bytes ≠ []) {p k : ℕ} {l : CString} (hl : Holds data p l)
    (hk : k < l.bytes.length) :
    ((s.mem 0).toInt8.toInt = (data (p + k)).toNat ∧
        ece391Strncmp (fun i => data (p + k + i)) s.mem s.bytes.length = 0) ↔
      s.mem 0 < 0x80 ∧ s.bytes <+: l.bytes.drop k := by
  have hpos : 0 < s.bytes.length := List.length_pos_iff.mpr hs
  have hdata : ∀ j, k + j ≤ l.bytes.length → data (p + k + j) = l.mem (k + j) := fun j hj => by
    rw [Nat.add_assoc, hl _ hj]
  have hcompare : (∀ j < s.bytes.length, data (p + k + j) = s.mem j) ↔ s.bytes <+: l.bytes.drop k := by
    rw [List.prefix_iff_getElem?]
    constructor
    · intro h j hj
      -- the terminator of the line is not in the pattern
      have hfits : k + s.bytes.length ≤ l.bytes.length := by
        by_contra hover
        have hend := h (l.bytes.length - k) (by omega)
        rw [hdata _ (by omega), show k + (l.bytes.length - k) = l.bytes.length by omega, l.mem_end] at hend
        exact CString.mem_ne_zero (by omega) hend.symm
      have hbyte := h j hj
      rw [hdata j (by omega), CString.mem_lt (by omega), CString.mem_lt hj] at hbyte
      rw [List.getElem?_drop, List.getElem?_eq_getElem (by omega), hbyte]
    · intro h j hj
      have hbyte := h j hj
      rw [List.getElem?_drop, List.getElem?_eq_some_iff] at hbyte
      obtain ⟨hin, hbyte⟩ := hbyte
      rw [hdata j hin.le, CString.mem_lt hin, hbyte, CString.mem_lt hj]
  rw [ece391Strncmp_eq_zero fun j hj => CString.mem_ne_zero hj, hcompare, char_eq_iff]
  constructor
  · rintro ⟨⟨hlow, -⟩, hprefix⟩
    exact ⟨hlow, hprefix⟩
  · rintro ⟨hlow, hprefix⟩
    exact ⟨⟨hlow, (hcompare.mpr hprefix 0 hpos).symm⟩, hprefix⟩

/-- The search from a place on, by induction on what is behind it: the line is printed if the
pattern begins there or later. -/
theorem searchLine_from (hfuel : Enough fuel s fname) (hs : s.bytes ≠ []) {p k : ℕ} {l : CString}
    (hl : Holds data p l) (hlen : l.bytes.length < fuel) (hk : k ≤ l.bytes.length) :
    searchLine fuel s fname s.bytes.length data p (p + l.bytes.length) (p + k) =
      some (if s.mem 0 < 0x80 ∧ s.bytes <:+: l.bytes.drop k then lineText fname l.bytes else []) := by
  induction hn : l.bytes.length - k generalizing k with
  | zero =>
    have hdrop : l.bytes.drop k = [] := List.drop_eq_nil_iff.mpr (by omega)
    have hnone : ¬ (s.mem 0 < 0x80 ∧ s.bytes <:+: l.bytes.drop k) := by
      rw [hdrop, List.infix_nil]
      exact fun h => hs h.2
    rw [searchLine, if_neg (by omega), if_neg hnone]
  | succ n ih =>
    have hk' : k < l.bytes.length := by omega
    have hdrop := List.drop_eq_getElem_cons hk'
    have hmatch := match_iff hs hl hk'
    rw [searchLine, if_pos (by omega)]
    by_cases hhere : s.mem 0 < 0x80 ∧ s.bytes <+: l.bytes.drop k
    · rw [if_pos (hmatch.mpr hhere), printLine_eq hfuel hl hlen, if_pos ⟨hhere.1, hhere.2.isInfix⟩]
    · have hlater : (s.mem 0 < 0x80 ∧ s.bytes <:+: l.bytes.drop k) ↔
          s.mem 0 < 0x80 ∧ s.bytes <:+: l.bytes.drop (k + 1) := by
        rw [hdrop] at hhere ⊢
        rw [List.infix_cons_iff]
        tauto
      rw [if_neg fun h => hhere (hmatch.mp h), Nat.add_assoc, ih hk' (by omega)]
      simp only [hlater]

theorem searchLine_eq (hfuel : Enough fuel s fname) (hs : s.bytes ≠ []) {p : ℕ} {l : CString}
    (hl : Holds data p l) (hlen : l.bytes.length < fuel) :
    searchLine fuel s fname s.bytes.length data p (p + l.bytes.length) p =
      some (report fname (alone (finds s) l.bytes)) := by
  have hfrom := searchLine_from hfuel hs hl hlen (Nat.zero_le _)
  rw [Nat.add_zero] at hfrom
  rw [hfrom, alone]
  simp only [finds, List.drop_zero, decide_eq_true_eq]
  split_ifs
  · simp [report]
  · rfl

end Line

/-! ### The inner loop -/

section Sweep
variable {fuel : ℕ} {s fname : CString} {data : ℕ → UInt8} {cnt last p : ℕ} {a b l : List UInt8}

theorem StoredAt.left (h : StoredAt data p (a ++ b)) : StoredAt data p a := fun i hi => by
  have hbyte := h i (by rw [List.length_append]; omega)
  rwa [List.getD_append _ _ _ _ hi] at hbyte

theorem StoredAt.right (h : StoredAt data p (a ++ b)) : StoredAt data (p + a.length) b := fun i hi => by
  have hbyte := h (a.length + i) (by rw [List.length_append]; omega)
  rwa [List.getD_append_right _ _ _ _ (Nat.le_add_right _ _), Nat.add_sub_cancel_left,
    ← Nat.add_assoc] at hbyte

theorem StoredAt.head {x : UInt8} (h : StoredAt data p (x :: a)) : data p = x :=
  h 0 (by simp)

theorem StoredAt.tail {x : UInt8} (h : StoredAt data p (x :: a)) : StoredAt data (p + 1) a := by
  rw [← List.singleton_append] at h
  exact h.right

/-- Bytes that are stored elsewhere do not matter. -/
theorem StoredAt.congr {data' : ℕ → UInt8} (h : StoredAt data p l)
    (hsame : ∀ i, p ≤ i → i < p + l.length → data' i = data i) : StoredAt data' p l := fun i hi => by
  rw [hsame (p + i) (by omega) (by omega), h i hi]

/-- A line in memory becomes a string with a terminator behind it. -/
theorem StoredAt.holds (h : StoredAt data p l) (hnul : ∀ b ∈ l, b ≠ 0) :
    Holds (update data (p + l.length) 0) p ⟨l, hnul⟩ := fun i hi => by
  rcases Nat.lt_or_eq_of_le hi with hlt | rfl
  · have hne : p + i ≠ p + l.length := by
      simp only at hlt
      omega
    rw [Function.update_of_ne hne]
    exact h i hlt
  · rw [CString.mem_end]
    exact Function.update_self _ _ _

theorem lineEndFrom_line (ha : newline ∉ a) (hdata : StoredAt data p a) (hlast : p + a.length ≤ last)
    (hend : p + a.length < last → data (p + a.length) = newline) :
    lineEndFrom data last p = p + a.length := by
  induction a generalizing p with
  | nil =>
    rw [lineEndFrom, if_neg fun h => h.2 (hend h.1).symm]
    rfl
  | cons x a ih =>
    have hx : newline ≠ x := fun h => ha (h ▸ List.mem_cons_self)
    rw [List.length_cons, ← Nat.add_assoc, Nat.add_right_comm] at hlast hend
    rw [lineEndFrom, hdata.head, if_pos ⟨by omega, hx⟩,
      ih (fun h => ha (List.mem_cons_of_mem _ h)) hdata.tail hlast hend, List.length_cons]
    omega

variable (hfuel : Enough fuel s fname) (hs : s.bytes ≠ [])

include hfuel hs in
theorem StoredAt.search (hdata : StoredAt data p l) (hnul : ∀ x ∈ l, x ≠ 0) (hlen : l.length < fuel) :
    searchLine fuel s fname s.bytes.length (update data (p + l.length) 0) p (p + l.length) p =
      some (report fname (alone (finds s) l)) :=
  searchLine_eq hfuel hs (hdata.holds hnul) hlen

include hfuel hs in
/-- A line that ends in the buffer. -/
theorem lineLoop_line {rounds : ℕ} (ha : newline ∉ a) (hnul : ∀ x ∈ a, x ≠ 0) (hlen : a.length < fuel)
    (hdata : StoredAt data p (a ++ newline :: b)) (hlast : last = p + a.length + 1 + b.length) :
    lineLoop fuel s fname s.bytes.length cnt last (rounds + 1) data p =
      if b = [] then some ⟨update data (p + a.length) 0, 0, report fname (alone (finds s) a)⟩
      else (lineLoop fuel s fname s.bytes.length cnt last rounds (update data (p + a.length) 0)
        (p + a.length + 1)).map fun swept =>
          { swept with printed := report fname (alone (finds s) a) ++ swept.printed } := by
  have hnewline : data (p + a.length) = newline := hdata.right.head
  have hend : lineEndFrom data last p = p + a.length :=
    lineEndFrom_line ha hdata.left (by omega) fun _ => hnewline
  rw [lineLoop, hend, hnewline, if_neg fun h => h.1 rfl]
  dsimp only
  rw [hdata.left.search hfuel hs hnul hlen, Option.bind_some]
  have hb : last ≤ p + a.length + 1 ↔ b = [] := by
    rw [← List.length_eq_zero_iff]
    omega
  simp only [hb]

include hfuel hs in
/-- A last piece that counts as a whole line. -/
theorem lineLoop_last {rounds : ℕ} (hl : newline ∉ l) (hnul : ∀ x ∈ l, x ≠ 0) (hlen : l.length < fuel)
    (hdata : StoredAt data p l) (hlast : last = p + l.length)
    (hwhole : ¬ (newline ≠ data last ∧ 0 ≠ cnt ∧ p ≠ 0)) :
    lineLoop fuel s fname s.bytes.length cnt last (rounds + 1) data p =
      some ⟨update data last 0, 0, report fname (alone (finds s) l)⟩ := by
  have hend : lineEndFrom data last p = last := by
    rw [hlast]
    exact lineEndFrom_line hl hdata le_rfl fun h => absurd h (lt_irrefl _)
  have hsearch := hdata.search hfuel hs hnul hlen
  rw [← hlast] at hsearch
  rw [lineLoop, hend, if_neg hwhole]
  dsimp only
  rw [hsearch, Option.bind_some, if_pos (Nat.le_succ _)]

/-- A last piece that is left for the next read. -/
theorem lineLoop_carry {rounds : ℕ} (hl : newline ∉ l) (hnul : ∀ x ∈ l, x ≠ 0) (hlen : l.length < fuel)
    (hdata : StoredAt data p l) (hlast : last = p + l.length)
    (hcut : newline ≠ data last ∧ 0 ≠ cnt ∧ p ≠ 0) :
    lineLoop fuel s fname s.bytes.length cnt last (rounds + 1) data p =
      some ⟨copied 0 p (l.length + 1) (update data last 0), l.length, []⟩ := by
  have hend : lineEndFrom data last p = last := by
    rw [hlast]
    exact lineEndFrom_line hl hdata le_rfl fun h => absurd h (lt_irrefl _)
  have hholds := hdata.holds hnul
  rw [← hlast] at hholds
  have hcopy : ece391Strcpy fuel 0 p (update data last 0) =
      some (copied 0 p (l.length + 1) (update data last 0)) := by
    apply ece391Strcpy_eq _ _ (Nat.zero_le _) hlen
    · intro i hi
      rw [hholds i hi.le]
      exact CString.mem_ne_zero hi
    · rw [hlast]
      exact Function.update_self _ _ _
  rw [lineLoop, hend, if_pos hcut, hcopy, Option.map_some, hlast, Nat.add_sub_cancel_left]

/-- What the inner loop leaves to the next read of the bytes between `p` and `last`: the line
behind the last newline, unless the byte at `last` passes for its end, the file has ended, or
it is the first one in the buffer. -/
def carriedOver (stale : UInt8) (cnt p : ℕ) (l : List UInt8) : List UInt8 :=
  if newline ≠ stale ∧ 0 ≠ cnt ∧ (p ≠ 0 ∨ newline ∈ l) then unfinished newline l else []

/-- The inner loop over `kept` and `carried`. -/
structure Sweeps (s fname : CString) (data : ℕ → UInt8) (last : ℕ) (l kept carried : List UInt8)
    (swept : Swept) : Prop where
  split : l = kept ++ carried
  printed : swept.printed = report fname (selected newline (finds s) kept)
  last_eq : swept.last = carried.length
  front : StoredAt swept.data 0 carried
  atEnd : swept.data last = if l.getLast? = some newline then data last else 0
  beyond : ∀ i, last < i → swept.data i = data i

theorem carriedOver_line (stale : UInt8) (hl : newline ∉ l) :
    carriedOver stale cnt p l = if newline ≠ stale ∧ 0 ≠ cnt ∧ p ≠ 0 then l else [] := by
  rw [carriedOver, unfinished_line hl]
  simp only [hl, or_false]

/-- Behind a whole line only the rest matters. -/
theorem carriedOver_append_cons (stale : UInt8) :
    carriedOver stale cnt p (a ++ newline :: b) = carriedOver stale cnt (p + a.length + 1) b := by
  rw [carriedOver, carriedOver, unfinished_append_cons]
  simp

theorem not_ends {stale : UInt8} (hl : newline ∉ l) :
    (if l.getLast? = some newline then stale else 0) = 0 :=
  if_neg fun h => hl (List.mem_of_getLast? h)

include hs in
theorem sweeps_carry (hl : newline ∉ l) (hdata : StoredAt data p l) (hlast : last = p + l.length)
    (hp : p ≠ 0) : Sweeps s fname data last l [] l
      ⟨copied 0 p (l.length + 1) (update data last 0), l.length, []⟩ := by
  have hbeyond : ∀ i, last ≤ i → copied 0 p (l.length + 1) (update data last 0) i =
      update data last 0 i := fun i hi => copied_outside _ (by omega)
  constructor
  · rfl
  · rw [selected_nil (finds_nil hs)]
    rfl
  · rfl
  · intro i hi
    calc copied 0 p (l.length + 1) (update data last 0) (0 + i)
        = update data last 0 (p + i) := copied_inside _ (by omega)
      _ = data (p + i) := Function.update_of_ne (by omega) _ _
      _ = l.getD i 0 := hdata i hi
  · rw [not_ends hl]
    exact (hbeyond last le_rfl).trans (Function.update_self _ _ _)
  · exact fun i hi => (hbeyond i hi.le).trans (Function.update_of_ne (by omega) _ _)

theorem sweeps_last (hl : newline ∉ l) : Sweeps s fname data last l l []
    ⟨update data last 0, 0, report fname (alone (finds s) l)⟩ := by
  constructor
  · exact (List.append_nil l).symm
  · rw [selected_line hl]
  · rfl
  · exact fun i hi => absurd hi (Nat.not_lt_zero i)
  · rw [not_ends hl]
    exact Function.update_self _ _ _
  · exact fun i hi => Function.update_of_ne (by omega) _ _

include hs in
theorem sweeps_line (ha : newline ∉ a) (hlast : last = p + a.length + 1) :
    Sweeps s fname data last (a ++ [newline]) (a ++ [newline]) []
      ⟨update data (p + a.length) 0, 0, report fname (alone (finds s) a)⟩ := by
  constructor
  · exact (List.append_nil _).symm
  · rw [selected_append_cons, selected_line ha, selected_nil (finds_nil hs), List.append_nil]
  · rfl
  · exact fun i hi => absurd hi (Nat.not_lt_zero i)
  · rw [List.getLast?_concat, if_pos rfl]
    exact Function.update_of_ne (by omega) _ _
  · exact fun i hi => Function.update_of_ne (by omega) _ _

/-- A line before a rest that the loop goes on with. -/
theorem Sweeps.behind_line {kept carried : List UInt8} {swept : Swept} (ha : newline ∉ a) (hb : b ≠ [])
    (hlast : last = p + a.length + 1 + b.length)
    (h : Sweeps s fname (update data (p + a.length) 0) last b kept carried swept) :
    Sweeps s fname data last (a ++ newline :: b) (a ++ newline :: kept) carried
      { swept with printed := report fname (alone (finds s) a) ++ swept.printed } := by
  have hunchanged : ∀ i, last ≤ i → update data (p + a.length) 0 i = data i := fun i hi =>
    Function.update_of_ne (by omega) _ _
  constructor
  · rw [h.split, List.append_assoc, List.cons_append]
  · rw [selected_append_cons, selected_line ha, report_append, ← h.printed]
  · exact h.last_eq
  · exact h.front
  · have hends : (a ++ newline :: b).getLast? = b.getLast? := by
      rw [List.append_cons, List.getLast?_append_of_ne_nil _ hb]
    rw [hends, ← hunchanged last le_rfl]
    exact h.atEnd
  · exact fun i hi => (h.beyond i hi).trans (hunchanged i hi.le)

include hfuel hs in
/-- The inner loop, by induction on the lines. -/
theorem lineLoop_sweeps {rounds : ℕ} (hnul : ∀ x ∈ l, x ≠ 0) (hlen : l.length < fuel)
    (hdata : StoredAt data p l) (hlast : last = p + l.length) (hrounds : l.length < rounds) :
    ∃ swept kept, lineLoop fuel s fname s.bytes.length cnt last rounds data p = some swept ∧
      Sweeps s fname data last l kept (carriedOver (data last) cnt p l) swept := by
  induction l using lines_induction newline generalizing data p rounds with
  | last u hu =>
    obtain ⟨rounds, rfl⟩ := Nat.exists_eq_add_of_le' (Nat.one_le_of_lt hrounds)
    rw [carriedOver_line _ hu]
    split_ifs with hcut
    · exact ⟨_, [], lineLoop_carry hu hnul hlen hdata hlast hcut,
        sweeps_carry hs hu hdata hlast hcut.2.2⟩
    · exact ⟨_, u, lineLoop_last hfuel hs hu hnul hlen hdata hlast hcut, sweeps_last hu⟩
  | line a b ha ih =>
    obtain ⟨rounds, rfl⟩ := Nat.exists_eq_add_of_le' (Nat.one_le_of_lt hrounds)
    rw [List.length_append, List.length_cons] at hlen hlast hrounds
    have hfits : last = p + a.length + 1 + b.length := by omega
    have hnul' : ∀ x ∈ a, x ≠ 0 := fun x hx => hnul x (List.mem_append_left _ hx)
    rw [lineLoop_line hfuel hs ha hnul' (by omega) hdata hfits, carriedOver_append_cons]
    by_cases hb : b = []
    · subst hb
      have hnone : carriedOver (data last) cnt (p + a.length + 1) [] = [] := by
        rw [carriedOver_line _ List.not_mem_nil]
        exact ite_self _
      rw [if_pos rfl, hnone]
      exact ⟨_, _, rfl, sweeps_line hs ha hfits⟩
    · have hrest : StoredAt (update data (p + a.length) 0) (p + a.length + 1) b :=
        hdata.right.tail.congr fun i hi _ => Function.update_of_ne (by omega) _ _
      obtain ⟨swept, kept, hloop, hsweeps⟩ := ih (fun x hx => hnul x (by simp [hx])) (by omega)
        hrest hfits (show b.length < rounds by omega)
      rw [if_neg hb, hloop]
      have hstale : update data (p + a.length) 0 last = data last :=
        Function.update_of_ne (by omega) _ _
      rw [hstale] at hsweeps
      exact ⟨_, _, rfl, hsweeps.behind_line ha hb hfits⟩

end Sweep

end Ece391.User
