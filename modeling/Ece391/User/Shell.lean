import Ece391.Kernel.Endings
import Ece391.Support.Blocking
import Ece391.User.Programs

/-! The shell. It reads a line and waits in `execute` while the program that the line names
runs on its terminal; then it says how that ended. Its view of the kernel is the one that
every process has, and the number that `execute` returns is all that it learns. -/

namespace Ece391.User

open Function (update)
open Lib hiding kb4
open FileSys Syscall Kernel Support.Runs Support.Scripts Support.Blocking

/-- A system call of the shell. -/
inductive Demand
  | file (r : Request)
  | execute (command : Option CString)
  deriving DecidableEq

/-- What the shell is told; how a program ended is only known to who watches the kernel. -/
structure Answer where
  ret : ℤ
  stored : List UInt8
  ending : Option Ending

/-- `ece391_fdputs` to the terminal, and what follows it. -/
def say (s : List UInt8) (next : Script Demand Answer) : Script Demand Answer :=
  .call (.file (.write 1 (some s) s.length)) fun _ => next

def prompt : List UInt8 := text "391OS> "

/-- The loop in `main` of `ece391shell.c`. It may take so many rounds. -/
def shellLoop : (rounds : ℕ) → (buf : ℕ → UInt8) → Script Demand Answer
  | 0, _ => .spin
  | rounds + 1, buf =>
    say prompt <| .call (.file (.read 0 true 1023)) fun reply =>
      let cnt := reply.ret
      if cnt = -1 then say (text "read from keyboard failed\n") (.exit 3)
      else
        let buf := storeBytes 0 reply.stored buf
        let cnt := if 0 < cnt ∧ newline = buf (cnt - 1).toNat then cnt - 1 else cnt
        let buf := update buf cnt.toNat 0
        if ece391Strcmp buf exitName.mem 1024 0 = some 0 then .exit 0
        else if buf 0 = 0 then shellLoop rounds buf
        else .call (.execute (some (CString.ofBuf ((List.range 1024).map buf)))) fun reply =>
          if reply.ret = -1 then say (text "no such command\n") (shellLoop rounds buf)
          else if reply.ret = 256 then
            say (text "program terminated by exception\n") (shellLoop rounds buf)
          else if reply.ret ≠ 0 then
            say (text "program terminated abnormally\n") (shellLoop rounds buf)
          else shellLoop rounds buf

def shell (rounds : ℕ) (buf : ℕ → UInt8) : Script Demand Answer :=
  say (text "Starting 391 Shell\n") (shellLoop rounds buf)

/-! ### The shell among the other processes -/

/-- The command that an event asks `execute` for. -/
def commandOf : UserEvent → Option (Option CString)
  | .video (.kernel (.execute command)) => some command
  | _ => none

/-- The process `p` among the others, with its calls of `execute`. -/
def shellHost (tablePage : ℕ) (img : Image) (stack : ℕ → Stack) (p : Fin 6) :
    Host State UserEvent Demand Answer UInt8 where
  step := userStep tablePage img stack
  asks k e :=
    match (process tablePage img stack p).own k e with
    | some r => some (.file r)
    | none => if k.running = some p then (commandOf e).map .execute else none
  answers k e :=
    match (process tablePage img stack p).own k e with
    | some _ =>
      let reply := (process tablePage img stack p).reply k e
      some ⟨reply.ret, reply.stored, none⟩
    | none => (endingFor tablePage img stack p k e).bind fun ending =>
      ((userStep tablePage img stack k e).bind lastReturned).map fun value =>
        ⟨value, [], some ending⟩
  shows k e :=
    match (process tablePage img stack p).own k e with
    | some _ => (process tablePage img stack p).shown k e
    | none => []

/-- A call of the shell alone: what others do to the devices comes before a call on them, and
a call of `execute` has the ending that comes with the move. -/
def shellServe (img : Image) (m : Moment × Ending) (v : Proc) : Demand → Served Answer UInt8 Proc
  | .file r =>
    let out := serve img m.1 v r
    ⟨⟨out.reply.ret, out.reply.stored, none⟩, out.shown, out.view⟩
  | .execute _ => ⟨⟨m.2.value, [], some m.2⟩, [], v⟩

/-- The program of `p` goes on, and no root process takes an exception. -/
def CarriesOn (tablePage : ℕ) (img : Image) (stack : ℕ → Stack) (p : Fin 6) (k : State)
    (e : UserEvent) : Prop :=
  ¬ EndsUser tablePage img stack p k e ∧ SparesRootsUser tablePage img stack k e

instance (tablePage : ℕ) (img : Image) (stack : ℕ → Stack) (p : Fin 6) (k : State) (e : UserEvent) :
    Decidable (CarriesOn tablePage img stack p k e) := inferInstanceAs (Decidable (_ ∧ _))

section Host
variable {tablePage : ℕ} {img : Image} {stack : ℕ → Stack} {p : Fin 6} {k k' : State}
  {e : UserEvent} {v : Proc}

/-- A process is answered by an event that is no call of it only when a call of `execute`
returns. -/
theorem answers_eq_some (hown : (process tablePage img stack p).own k e = none)
    (hstep : userStep tablePage img stack k e = some k') {a : Answer}
    (h : (shellHost tablePage img stack p).answers k e = some a) :
    ∃ ending, endingFor tablePage img stack p k e = some ending ∧
      ∃ value, lastReturned k' = some value ∧ a = ⟨value, [], some ending⟩ := by
  simp only [shellHost, hown, hstep, Option.bind_some] at h
  obtain ⟨ending, hending, h⟩ := Option.bind_eq_some_iff.mp h
  obtain ⟨value, hvalue, rfl⟩ := Option.map_eq_some_iff.mp h
  exact ⟨ending, hending, value, hvalue, rfl⟩

/-- The reply to a call of `execute` is the number for its ending. -/
theorem answers_ending (hv : View False tablePage p k v) (hidle : k.globalHalt ≠ 1)
    (hown : (process tablePage img stack p).own k e = none)
    (hstep : userStep tablePage img stack k e = some k') {a : Answer}
    (h : (shellHost tablePage img stack p).answers k e = some a) :
    ∃ ending : Ending, a = ⟨ending.value, [], some ending⟩ := by
  obtain ⟨ending, hending, value, hvalue, rfl⟩ := answers_eq_some hown hstep h
  have hret := hv.walled.returns_ending hidle hstep hending
  obtain rfl : ending.value = value := Option.some.inj (hret.symm.trans hvalue)
  exact ⟨ending, rfl⟩

theorem asks_none (h : (shellHost tablePage img stack p).asks k e = none) :
    (process tablePage img stack p).own k e = none := by
  simp only [shellHost] at h
  cases hown : (process tablePage img stack p).own k e with
  | none => rfl
  | some r => simp [hown] at h

/-- Among the others the shell is served as it is alone. -/
theorem shellHost_sees (tablePage : ℕ) (img : Image) (stack : ℕ → Stack) (p : Fin 6) :
    Sees (shellHost tablePage img stack p) (shellServe img) (fun _ => True)
      (fun d => ∃ command, d = .execute command) (CarriesOn tablePage img stack p)
      fun k v => View False tablePage p k v ∧ k.globalHalt ≠ 1 where
  other {k e k' v} hgo hstep hasks _ h := by
    have hquiet : GoesOn False tablePage img stack p k e := ⟨hgo.1, fun hf => hf.elim⟩
    exact ⟨h.1.other hstep hquiet (asks_none hasks), h.1.walled.idle h.2 hstep hgo.2⟩
  served {k e k' v d a} hgo hstep hasks hanswers h := by
    have hquiet : GoesOn False tablePage img stack p k e := ⟨hgo.1, fun hf => hf.elim⟩
    have hidle := h.1.walled.idle h.2 hstep hgo.2
    cases hown : (process tablePage img stack p).own k e with
    | some r =>
      obtain ⟨m, v', -, hserve, hv'⟩ := h.1.own hstep hquiet hown
      simp only [shellHost, hown, Option.some.injEq] at hasks hanswers ⊢
      subst hasks hanswers
      refine ⟨(m, .notStarted), v', trivial, ?_, hv', hidle⟩
      rw [shellServe, hserve]
    | none =>
      obtain ⟨ending, rfl⟩ := answers_ending h.1 h.2 hown hstep hanswers
      simp only [shellHost, hown] at hasks ⊢
      split_ifs at hasks with hrun
      obtain ⟨command, hcommand, rfl⟩ := Option.map_eq_some_iff.mp hasks
      exact ⟨(⟨id, 0, fun _ => 0⟩, ending), v, trivial, rfl, h.1.other hstep hquiet hown, hidle⟩
  asked {k e k' v d} hgo hstep hasks hanswers h := by
    have hquiet : GoesOn False tablePage img stack p k e := ⟨hgo.1, fun hf => hf.elim⟩
    cases hown : (process tablePage img stack p).own k e with
    | some r => simp [shellHost, hown] at hanswers
    | none =>
      simp only [shellHost, hown] at hasks ⊢
      split_ifs at hasks with hrun
      obtain ⟨command, hcommand, rfl⟩ := Option.map_eq_some_iff.mp hasks
      exact ⟨⟨command, rfl⟩, trivial, h.1.other hstep hquiet hown,
        h.1.walled.idle h.2 hstep hgo.2⟩
  heard {k e k' v a} hgo hstep hasks hanswers h := by
    rintro _ ⟨command, rfl⟩
    have hquiet : GoesOn False tablePage img stack p k e := ⟨hgo.1, fun hf => hf.elim⟩
    have hown := asks_none hasks
    obtain ⟨ending, rfl⟩ := answers_ending h.1 h.2 hown hstep hanswers
    exact ⟨(⟨id, 0, fun _ => 0⟩, ending), v, trivial, rfl, h.1.other hstep hquiet hown,
      h.1.walled.idle h.2 hstep hgo.2⟩

end Host

/-! ### The shell alone -/

/-- What the shell says about an ending. -/
def remark : Ending → List UInt8
  | .notStarted => text "no such command\n"
  | .faulted => text "program terminated by exception\n"
  | .halted _ => []

/-- The lines that the shell has read, up to their newlines. -/
def linesOf (xs : List (Demand × Answer)) : List CString :=
  xs.filterMap fun
    | (.file (.read _ _ _), a) => some (CString.ofBuf (a.stored.takeWhile (· ≠ newline)))
    | _ => none

/-- The commands for which `execute` has returned. -/
def commandsOf (xs : List (Demand × Answer)) : List (Option CString) :=
  xs.filterMap fun
    | (.execute command, _) => some command
    | _ => none

/-- The endings of these. -/
def endingsOf (xs : List (Demand × Answer)) : List Ending := xs.filterMap fun x => x.2.ending

/-- The line names a program. -/
def IsCommand (l : CString) : Prop := l ≠ exitName ∧ l.bytes ≠ []

instance : DecidablePred IsCommand := fun _ => inferInstanceAs (Decidable (_ ∧ _))

/-- What the loop prints, from the lines and the endings of the commands among them. -/
def shellText : List CString → List Ending → List UInt8
  | [], _ => prompt
  | l :: ls, es =>
    prompt ++
      if l = exitName then []
      else if l.bytes = [] then shellText ls es
      else match es with
        | [] => []
        | e :: es => remark e ++ shellText ls es

/-- The next thing that the script does is a `write`. -/
def Writing : Script Demand Answer → Prop
  | .call (.file (.write _ _ _)) _ => True
  | _ => False

/-- A loop of so many rounds after a conversation: what it has printed, asked and read. -/
structure Said (rounds : ℕ) (xs : List (Demand × Answer)) (os : List UInt8)
    (left : Script Demand Answer) : Prop where
  shown : os <+: shellText (linesOf xs) (endingsOf xs)
  settled : left ≠ .spin → ¬ Writing left → os = shellText (linesOf xs) (endingsOf xs)
  commands : commandsOf xs <+: ((linesOf xs).filter IsCommand).map some
  exits : ∀ status, left = .exit status → status = 0 ∧ (linesOf xs).getLast? = some exitName
  spins : left = .spin → (linesOf xs).length = rounds

/-- Descriptor 0 is the keyboard and 1 the screen. -/
structure OnTerminal (v : Proc) : Prop where
  out : WritesOut v
  opened : (v.fds 0).flags ≠ 0
  pointer : (v.fds 0).pointer = .stdinFops

theorem initFds_onTerminal (fds : Fds) (dev : Devices) : OnTerminal ⟨initFds fds, dev⟩ :=
  ⟨initFds_writesOut fds dev, one_ne_zero, rfl⟩

/-- A line from the keyboard buffer ends with its only newline. -/
theorem terminalCopy_line (keyBuf : ℕ → UInt8) {n m i : ℕ} (h : i + m = n) (hm : 0 < m) :
    ∃ l, terminalCopy keyBuf n m i = l ++ [newline] ∧ newline ∉ l ∧ l.length < m := by
  induction m generalizing i with
  | zero => omega
  | succ m ih =>
    rw [terminalCopy]
    split_ifs with hlast hnewline
    · exact ⟨[], rfl, List.not_mem_nil, Nat.zero_lt_succ m⟩
    · exact ⟨[], by rw [hnewline]; rfl, List.not_mem_nil, Nat.zero_lt_succ m⟩
    · obtain ⟨l, hl, hnot, hlen⟩ := ih (i := i + 1) (by omega) (by omega)
      refine ⟨keyBuf i :: l, by rw [hl]; rfl, ?_, Nat.succ_lt_succ hlen⟩
      exact fun hmem => (List.mem_cons.mp hmem).elim (fun heq => hnewline heq.symm) hnot

/-- A line with a terminator behind it holds a string. -/
theorem holds_line (l : List UInt8) (buf : ℕ → UInt8) :
    Holds (storeBytes 0 (l ++ [0]) buf) 0 (CString.ofBuf l) := by
  obtain ⟨rest, hrest⟩ : ∃ rest, l ++ [0] = ((CString.ofBuf l).bytes ++ [0]) ++ rest := by
    induction l with
    | nil => exact ⟨[], rfl⟩
    | cons b l ih =>
      by_cases hb : b = 0
      · exact ⟨l ++ [0], by simp [CString.ofBuf, hb]⟩
      · obtain ⟨rest, hrest⟩ := ih
        exact ⟨rest, by simp_all [CString.ofBuf]⟩
  rw [hrest, ← storeBytes_append]
  exact holds_storeBytes 0 _ _

section Lists
variable {xs : List (Demand × Answer)} {a : Answer}

theorem linesOf_read {l : List UInt8} (h : newline ∉ l) (ret : ℤ) (ending : Option Ending) :
    linesOf ((.file (.read 0 true 1023), ⟨ret, l ++ [newline], ending⟩) :: xs) =
      CString.ofBuf l :: linesOf xs := by
  have hline : (l ++ [newline]).takeWhile (· ≠ newline) = l := by
    have hall : ∀ b ∈ l, (decide (b ≠ newline)) = true := fun b hb =>
      decide_eq_true fun heq => h (heq ▸ hb)
    rw [List.takeWhile_append_of_pos hall]
    simp
  simp only [linesOf, List.filterMap_cons, hline]

theorem endingsOf_none {d : Demand} (h : a.ending = none) : endingsOf ((d, a) :: xs) = endingsOf xs := by
  simp only [endingsOf, List.filterMap_cons, h]

theorem endingsOf_some {d : Demand} {e : Ending} (ret : ℤ) (stored : List UInt8) :
    endingsOf ((d, ⟨ret, stored, some e⟩) :: xs) = e :: endingsOf xs := rfl

theorem shellText_cons (l : CString) (ls : List CString) (es : List Ending) : shellText (l :: ls) es =
    prompt ++ if l = exitName then [] else if l.bytes = [] then shellText ls es
      else match es with
        | [] => []
        | e :: es => remark e ++ shellText ls es := rfl

theorem shellText_exit (ls : List CString) (es : List Ending) : shellText (exitName :: ls) es = prompt := by
  rw [shellText_cons, if_pos rfl, List.append_nil]

theorem shellText_blank {l : CString} (ls : List CString) (es : List Ending) (h : l.bytes = []) :
    shellText (l :: ls) es = prompt ++ shellText ls es := by
  have hexit : l ≠ exitName := fun heq => absurd (heq ▸ h) (by decide)
  rw [shellText_cons, if_neg hexit, if_pos h]

theorem shellText_pending {l : CString} (ls : List CString) (h : IsCommand l) :
    shellText (l :: ls) [] = prompt := by
  rw [shellText_cons, if_neg h.1, if_neg h.2, List.append_nil]

theorem shellText_command {l : CString} (ls : List CString) (e : Ending) (es : List Ending)
    (h : IsCommand l) : shellText (l :: ls) (e :: es) = prompt ++ remark e ++ shellText ls es := by
  rw [shellText_cons, if_neg h.1, if_neg h.2, List.append_assoc]

/-- A round and what follows it. -/
theorem Said.after {rounds : ℕ} {ys : List (Demand × Answer)} {pre os : List UInt8}
    {left : Script Demand Answer} {l : CString} (h : Said rounds ys os left)
    (hlines : linesOf xs = l :: linesOf ys)
    (htext : shellText (l :: linesOf ys) (endingsOf xs) =
      pre ++ shellText (linesOf ys) (endingsOf ys))
    (hcommands : commandsOf xs = (if IsCommand l then [some l] else []) ++ commandsOf ys) :
    Said (rounds + 1) xs (pre ++ os) left where
  shown := by
    rw [hlines, htext]
    exact (List.prefix_append_right_inj pre).mpr h.shown
  settled hspin hwrite := by rw [hlines, htext, h.settled hspin hwrite]
  commands := by
    rw [hlines, hcommands, List.filter_cons]
    by_cases hl : IsCommand l
    · simpa [hl] using h.commands
    · simpa [hl] using h.commands
  exits status hexit := by
    obtain ⟨hstatus, hlast⟩ := h.exits status hexit
    refine ⟨hstatus, ?_⟩
    rw [hlines, List.getLast?_cons, hlast]
    rfl
  spins hspin := by rw [hlines, List.length_cons, h.spins hspin]

end Lists

section Alone
variable {img : Image} {v v' : Proc} {xs : List (Demand × Answer)} {os : List UInt8}
  {left : Script Demand Answer}

/-- A conversation with the shell in some environment. -/
abbrev Speaks (img : Image) := Converses (shellServe img) (fun _ : Moment × Ending => True)

theorem OnTerminal.say (hv : OnTerminal v) {s : List UInt8} {next : Script Demand Answer}
    (h : Speaks img (say s next) v xs os left v') :
    xs = [] ∧ os = [] ∧ left = say s next ∨
      ∃ a xs' os' w, a.ending = none ∧ xs = (.file (.write 1 (some s) s.length), a) :: xs' ∧
        os = s ++ os' ∧ OnTerminal w ∧ Speaks img next w xs' os' left v' := by
  rcases h.of_call with hstop | ⟨m, xs', os', -, hxs, hos, hnext⟩
  · exact .inl hstop
  · obtain ⟨-, hshown, hfds, -⟩ := serve_write img m.1 hv.out s
    refine .inr ⟨_, xs', os', _, rfl, hxs, ?_, ?_, hnext⟩
    · rw [hos]
      exact congrArg (· ++ os') hshown
    · have hsame : (shellServe img m v (.file (.write 1 (some s) s.length))).view.fds = v.fds := hfds
      exact ⟨by simpa only [WritesOut, hsame] using hv.out, by rw [hsame]; exact hv.opened,
        by rw [hsame]; exact hv.pointer⟩

/-- What the shell reads from the keyboard. -/
theorem serve_line (img : Image) (m : Moment) (hv : OnTerminal v) :
    ∃ l w, newline ∉ l ∧ l.length < 1023 ∧ OnTerminal w ∧
    serve img m v (.read 0 true 1023) = ⟨⟨l.length + 1, l ++ [newline]⟩, [], w⟩ := by
  obtain ⟨l, hl, hnot, hlen⟩ :=
    terminalCopy_line m.keyBuf (n := 1023) (m := 1023) (i := 0) (Nat.zero_add _) (by decide)
  have hop : readOp img m.turn m.keyBuf (m.others v.dev) (v.fds (0 : Fin 8)) true 1023 =
      ⟨l.length + 1, l ++ [newline], m.others v.dev⟩ := by
    have hcount : (1023 : ℤ).toNat = 1023 := rfl
    have hneg : ¬ ((true = false) ∨ (1023 : ℤ) < 0) := by decide
    simp only [readOp, hv.pointer, terminalRead, if_neg hneg, hcount, hl, List.length_append,
      List.length_singleton, Nat.cast_add, Nat.cast_one]
  obtain ⟨hreply, hview, hshown⟩ := serve_read img m 0 (by decide : (0 : ℤ) ≤ 1023) hv.opened hop
  have hquiet : ¬ ((v.fds (0 : Fin 8)).pointer = .fileFops ∧ (readData img (v.fds (0 : Fin 8)).inode
      (v.fds (0 : Fin 8)).filePosition true (1023 : ℤ).toNat).complained) := fun hc => by
    rw [hv.pointer] at hc
    cases hc.1
  rw [if_neg hquiet] at hshown
  set w : Proc := ⟨update v.fds 0 (advanced (v.fds 0) (l.length + 1)), m.others v.dev⟩
  have hout : w.fds 1 = v.fds 1 :=
    Function.update_of_ne (show (1 : Fin 8) ≠ 0 by decide) (advanced (v.fds 0) (l.length + 1)) v.fds
  have hin : w.fds 0 = advanced (v.fds 0) (l.length + 1) :=
    Function.update_self 0 (advanced (v.fds 0) (l.length + 1)) v.fds
  refine ⟨l, w, hnot, hlen, ⟨by simpa only [WritesOut, hout] using hv.out, ?_, ?_⟩, ?_⟩
  · rw [hin]
    exact hv.opened
  · rw [hin]
    exact hv.pointer
  · calc serve img m v (.read 0 true 1023) = ⟨(serve img m v (.read 0 true 1023)).reply,
        (serve img m v (.read 0 true 1023)).shown, (serve img m v (.read 0 true 1023)).view⟩ := rfl
      _ = ⟨⟨l.length + 1, l ++ [newline]⟩, [], w⟩ := by
        congr 1

theorem OnTerminal.hear (hv : OnTerminal v) {next : Answer → Script Demand Answer}
    (h : Speaks img (.call (.file (.read 0 true 1023)) next) v xs os left v') :
    xs = [] ∧ os = [] ∧ left = .call (.file (.read 0 true 1023)) next ∨
      ∃ l xs' w, newline ∉ l ∧ l.length < 1023 ∧
        xs = (.file (.read 0 true 1023), ⟨l.length + 1, l ++ [newline], none⟩) :: xs' ∧ OnTerminal w ∧
        Speaks img (next ⟨l.length + 1, l ++ [newline], none⟩) w xs' os left v' := by
  rcases h.of_call with hstop | ⟨m, xs', os', -, hxs, hos, hnext⟩
  · exact .inl hstop
  · obtain ⟨l, w, hnot, hlen, hw, hserve⟩ := serve_line img m.1 hv
    simp only [shellServe, hserve, List.nil_append] at hxs hos hnext
    exact .inr ⟨l, xs', w, hnot, hlen, hxs, hw, hos ▸ hnext⟩

theorem execute_speaks {command : Option CString} {next : Answer → Script Demand Answer}
    (h : Speaks img (.call (.execute command) next) v xs os left v') :
    xs = [] ∧ os = [] ∧ left = .call (.execute command) next ∨
      ∃ (e : Ending) (xs' : _), xs = (.execute command, ⟨e.value, [], some e⟩) :: xs' ∧
        Speaks img (next ⟨e.value, [], some e⟩) v xs' os left v' := by
  rcases h.of_call with hstop | ⟨m, xs', os', -, hxs, hos, hnext⟩
  · exact .inl hstop
  · simp only [shellServe, List.nil_append] at hxs hos hnext
    exact .inr ⟨m.2, xs', hxs, hos ▸ hnext⟩

/-! ### A round -/

/-- The string at the front of a buffer that has room for it. -/
theorem ofBuf_memory {mem : ℕ → UInt8} {s : CString} {n : ℕ} (h : Holds mem 0 s)
    (hn : s.bytes.length < n) : CString.ofBuf ((List.range n).map mem) = s := by
  obtain ⟨m, rfl⟩ := Nat.exists_eq_add_of_le (Nat.succ_le_of_lt hn)
  have hbytes : (List.range s.bytes.length).map mem = s.bytes := by
    apply List.ext_getElem
    · simp
    · intro i hi hi'
      have hmem := h i hi'.le
      rw [Nat.zero_add] at hmem
      rw [List.getElem_map, List.getElem_range, hmem, CString.mem_lt hi']
  have hend : mem s.bytes.length = 0 := by
    have hmem := h s.bytes.length le_rfl
    rwa [Nat.zero_add, CString.mem_end] at hmem
  rw [List.range_add, List.map_append, List.range_succ, List.map_append, hbytes, List.append_assoc,
    List.map_singleton, hend]
  exact CString.ofBuf_bytes s _

theorem mem_zero_iff {mem : ℕ → UInt8} {s : CString} (h : Holds mem 0 s) :
    mem 0 = 0 ↔ s.bytes = [] := by
  have hmem : mem 0 = s.mem 0 := h 0 (Nat.zero_le _)
  rw [hmem]
  constructor
  · intro hzero
    by_contra hne
    exact CString.mem_ne_zero (List.length_pos_iff.mpr hne) hzero
  · intro hnil
    simp [CString.mem, hnil]

/-- What follows the ending of a command. -/
def afterwards (rounds : ℕ) (buf : ℕ → UInt8) (e : Ending) : Script Demand Answer :=
  if remark e = [] then shellLoop rounds buf else say (remark e) (shellLoop rounds buf)

/-- A round of the loop by the line that it reads and the ending of the command. -/
theorem shellLoop_round (rounds : ℕ) (buf : ℕ → UInt8) :
    ∃ next, shellLoop (rounds + 1) buf = say prompt (.call (.file (.read 0 true 1023)) next) ∧
      ∀ l, newline ∉ l → l.length < 1023 → ∃ (buf' : ℕ → UInt8) (next' : Answer → Script Demand Answer),
        next ⟨l.length + 1, l ++ [newline], none⟩ =
          (if CString.ofBuf l = exitName then .exit 0
            else if (CString.ofBuf l).bytes = [] then shellLoop rounds buf'
            else .call (.execute (some (CString.ofBuf l))) next') ∧
        ∀ e : Ending, next' ⟨e.value, [], some e⟩ = afterwards rounds buf' e := by
  refine ⟨_, rfl, fun l hnot hlen => ?_⟩
  set buf' := storeBytes 0 (l ++ [0]) buf with hbuf'
  have hholds : Holds buf' 0 (CString.ofBuf l) := holds_line l buf
  have hshort : (CString.ofBuf l).bytes.length < 1024 :=
    (List.takeWhile_sublist _).length_le.trans_lt (by omega)
  have hroom : exitName.bytes.length < 1024 := by decide
  obtain ⟨d, hd, hzero⟩ := ece391Strcmp_holds hholds hroom
  have hfull : ¬ ((l.length : ℤ) + 1 = -1) := by omega
  have hlast : 0 < (l.length : ℤ) + 1 ∧
      newline = storeBytes 0 (l ++ [newline]) buf ((l.length : ℤ) + 1 - 1).toNat := by
    refine ⟨by omega, ?_⟩
    have hget := storeBytes_get (p := 0) buf (l := l ++ [newline]) (i := l.length) (by simp)
    rw [Nat.zero_add, List.getElem_append_right le_rfl] at hget
    simpa using hget.symm
  have hstore : update (storeBytes 0 (l ++ [newline]) buf) ((l.length : ℤ) + 1 - 1).toNat 0 = buf' := by
    rw [hbuf', add_sub_cancel_right, Int.toNat_natCast, storeBytes_snoc, storeBytes_snoc, Nat.zero_add,
      Function.update_idem]
  refine ⟨buf', fun reply =>
    if reply.ret = -1 then say (text "no such command\n") (shellLoop rounds buf')
    else if reply.ret = 256 then say (text "program terminated by exception\n") (shellLoop rounds buf')
    else if reply.ret ≠ 0 then say (text "program terminated abnormally\n") (shellLoop rounds buf')
    else shellLoop rounds buf', ?_, fun e => ?_⟩
  · dsimp only
    rw [if_neg hfull, if_pos hlast, hstore, hd, ofBuf_memory hholds hshort]
    simp only [Option.some.injEq, hzero, mem_zero_iff hholds]
  · cases e <;> rfl

/-- The loop alone, by induction on its rounds. -/
theorem shellLoop_speaks {rounds : ℕ} {buf : ℕ → UInt8} (hv : OnTerminal v)
    (h : Speaks img (shellLoop rounds buf) v xs os left v') : Said rounds xs os left := by
  induction rounds generalizing buf v xs os with
  | zero =>
    cases h
    exact ⟨List.nil_prefix, fun hspin => absurd rfl hspin, List.nil_prefix, fun _ hexit => (by cases hexit),
      fun _ => rfl⟩
  | succ rounds ih =>
    obtain ⟨next, hloop, hnext⟩ := shellLoop_round rounds buf
    rw [hloop] at h
    rcases hv.say h with ⟨rfl, rfl, rfl⟩ | ⟨a, xs₁, os₁, w, ha, rfl, rfl, hw, h₁⟩
    · -- before the prompt
      exact ⟨List.nil_prefix, fun _ hwrite => absurd trivial hwrite, List.nil_prefix,
        fun _ hexit => (by cases hexit), fun hspin => (by cases hspin)⟩
    rcases hw.hear h₁ with ⟨rfl, rfl, rfl⟩ | ⟨l, xs₂, w₂, hnot, hlen, rfl, hw₂, h₂⟩
    · -- at the keyboard
      refine ⟨?_, fun _ _ => ?_, List.nil_prefix, fun _ hexit => (by cases hexit),
        fun hspin => (by cases hspin)⟩ <;>
      · rw [endingsOf_none ha, List.append_nil]
        simp [linesOf, endingsOf, shellText]
    obtain ⟨buf', next', hline, hend⟩ := hnext l hnot hlen
    rw [hline] at h₂
    -- the conversation so far, as the texts are made from it
    have hlines : ∀ xs, linesOf ((.file (.write 1 (some prompt) prompt.length), a) ::
        (.file (.read 0 true 1023), ⟨l.length + 1, l ++ [newline], none⟩) :: xs) =
          CString.ofBuf l :: linesOf xs := fun xs => linesOf_read hnot (l.length + 1) none
    have hendings : ∀ xs, endingsOf ((.file (.write 1 (some prompt) prompt.length), a) ::
        (.file (.read 0 true 1023), ⟨l.length + 1, l ++ [newline], none⟩) :: xs) = endingsOf xs :=
      fun xs => endingsOf_none ha
    split_ifs at h₂ with hexit hblank
    · cases h₂
      have htext : shellText (CString.ofBuf l :: linesOf []) (endingsOf []) = prompt := by
        rw [hexit, shellText_exit]
      refine ⟨?_, fun _ _ => ?_, List.nil_prefix, fun status hstatus => ?_, fun hspin => (by cases hspin)⟩
      · rw [hlines, hendings, htext, List.append_nil]
      · rw [hlines, hendings, htext, List.append_nil]
      · cases hstatus
        rw [hlines, hexit]
        exact ⟨rfl, rfl⟩
    · have hnone : ¬ IsCommand (CString.ofBuf l) := fun hcommand => hcommand.2 hblank
      refine (ih hw₂ h₂).after (hlines xs₂) ?_ ?_
      · rw [hendings]
        exact shellText_blank _ _ hblank
      · rw [if_neg hnone]
        rfl
    · have hcommand : IsCommand (CString.ofBuf l) := ⟨hexit, hblank⟩
      rcases execute_speaks h₂ with ⟨rfl, rfl, rfl⟩ | ⟨e, xs₃, rfl, h₃⟩
      · -- the program is running
        have htext := shellText_pending [] hcommand
        refine ⟨?_, fun _ _ => ?_, List.nil_prefix, fun _ hstatus => (by cases hstatus),
          fun hspin => (by cases hspin)⟩
        · rw [hlines, hendings, List.append_nil]
          exact htext ▸ List.prefix_rfl
        · rw [hlines, hendings, List.append_nil]
          exact htext.symm
      rw [hend] at h₃
      have hcommands : ∀ xs, commandsOf ((.file (.write 1 (some prompt) prompt.length), a) ::
          (.file (.read 0 true 1023), ⟨l.length + 1, l ++ [newline], none⟩) ::
          (.execute (some (CString.ofBuf l)), ⟨e.value, [], some e⟩) :: xs) =
          (if IsCommand (CString.ofBuf l) then [some (CString.ofBuf l)] else []) ++ commandsOf xs :=
        fun xs => by
          rw [if_pos hcommand]
          rfl
      have htext := shellText_command (linesOf xs₃) e (endingsOf xs₃) hcommand
      rw [afterwards] at h₃
      split_ifs at h₃ with hsilent
      · rw [hsilent, List.append_nil] at htext
        exact (ih hw₂ h₃).after (hlines _) ((congrArg _ (hendings _)).trans htext) (hcommands _)
      rcases hw₂.say h₃ with ⟨rfl, rfl, rfl⟩ | ⟨a', xs₄, os₄, w₄, ha', rfl, rfl, hw₄, h₄⟩
      · -- before the message
        refine ⟨?_, fun _ hwrite => absurd trivial hwrite, ?_, fun _ hstatus => (by cases hstatus),
          fun hspin => (by cases hspin)⟩
        · rw [hlines, hendings, List.append_nil]
          exact htext ▸ ⟨remark e ++ shellText [] [], (List.append_assoc _ _ _).symm⟩
        · rw [hcommands, hlines, if_pos hcommand]
          simp [commandsOf, linesOf, hcommand]
      · rw [← List.append_assoc]
        refine (ih hw₄ h₄).after (hlines _) ?_ (hcommands _)
        rw [hendings, endingsOf_some, endingsOf_none ha']
        exact shellText_command (linesOf xs₄) e (endingsOf xs₄) hcommand

end Alone

/-! ### What the shell says -/

theorem idle_of_run {tablePage : ℕ} {img : Image} {stack : ℕ → Stack} {k₀ k : State}
    {es : List UserEvent} (hb : State.Boot k₀)
    (hr : run (userStep tablePage img stack) (pagingInit tablePage k₀) es = some k)
    (hspare : Along (userStep tablePage img stack) (SparesRootsUser tablePage img stack)
      (pagingInit tablePage k₀) es) : k.globalHalt ≠ 1 := by
  have hstart : run (userStep tablePage img stack) (pagingInit tablePage k₀) [] =
      some (pagingInit tablePage k₀) := rfl
  have hinv : Walled tablePage k ∧ k.globalHalt ≠ 1 :=
    invariant_along (fun k => Walled tablePage k ∧ k.globalHalt ≠ 1)
      (fun k e k' hspare hstep h => ⟨⟨h.1.guarded.step hstep, h.1.housed.userStep hstep⟩,
        h.1.idle h.2 hstep hspare⟩) hspare hr
      ⟨walled_of_run hb hstart, by
        have hmark : (pagingInit tablePage k₀).globalHalt = k₀.globalHalt := rfl
        rw [hmark, hb.globalHalt]
        exact zero_ne_one⟩
  exact hinv.2

/-- The calls of the shell that have returned along a run. -/
abbrev exchangesOf (tablePage : ℕ) (img : Image) (stack : ℕ → Stack) (p : Fin 6) (k : State)
    (fs : List UserEvent) : List (Demand × Answer) :=
  (shellHost tablePage img stack p).exchanges none k fs

/-- The text that belongs to them. -/
def transcript (xs : List (Demand × Answer)) : List UInt8 :=
  text "Starting 391 Shell\n" ++ shellText (linesOf xs) (endingsOf xs)

/-- A line in the keyboard buffer. -/
abbrev lineEvent (line : List UInt8) : UserEvent :=
  callEvent (.read 0 true 1023 (bufMem (line ++ [newline])))

abbrev commandEvent (command : CString) : UserEvent := .video (.kernel (.execute (some command)))

end Ece391.User
