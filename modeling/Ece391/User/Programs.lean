import Ece391.User.Session
import Ece391.User.Strings

/-! `cat` and `ls`. Both copy what they read from one descriptor to the terminal, piece by
piece, until a read gives 0. A read of a regular file gives whole pieces of a block, also
behind the end of the file, and a read of a directory gives the next name. -/

namespace Ece391.User

open Function (update)
open Lib hiding kb4
open FileSys Syscall Kernel Support.Runs Support.Scripts

/-- `ece391_fdputs`, and what follows it. -/
def fdputs (fd : ℤ) (s : List UInt8) (next : Program) : Program :=
  .call (.write fd (some s) s.length) fun _ => next

/-- The loop of `cat` and `ls`: pieces of up to `nbytes` bytes are written with `suffix`
behind them. It may take so many rounds. -/
def copyLoop (nbytes : ℤ) (failed suffix : List UInt8) (fd : ℤ) :
    (rounds : ℕ) → (buf : ℕ → UInt8) → Program
  | 0, _ => .spin
  | rounds + 1, buf =>
    .call (.read fd true nbytes) fun reply =>
      let buf := storeBytes 0 reply.stored buf
      let cnt := reply.ret
      if cnt = 0 then .exit 0
      else if cnt = -1 then fdputs 1 failed (.exit 3)
      else
        let buf := storeBytes cnt.toNat suffix buf
        let n := cnt + suffix.length
        .call (.write 1 (some ((List.range n.toNat).map buf)) n) fun reply =>
          if reply.ret = -1 then .exit 3 else copyLoop nbytes failed suffix fd rounds buf

/-- `main` of `ece391cat.c`, from the result of `ece391_getargs` on. -/
def cat (rounds : ℕ) (args : ArgsOut) (buf : ℕ → UInt8) : Program :=
  if args.ret ≠ 0 then fdputs 1 (text "could not read arguments\n") (.exit 3)
  else .call (.open (some (CString.ofBuf args.stored))) fun reply =>
    if reply.ret = -1 then fdputs 1 (text "file not found\n") (.exit 2)
    else copyLoop 1024 (text "file read failed\n") [] reply.ret rounds (storeBytes 0 args.stored buf)

/-- `main` of `ece391ls.c`. -/
def ls (rounds : ℕ) (buf : ℕ → UInt8) : Program :=
  .call (.open (some period)) fun reply =>
    if reply.ret = -1 then fdputs 1 (text "directory open failed\n") (.exit 2)
    else copyLoop 32 (text "directory entry read failed\n") [newline] reply.ret rounds buf

/-! ### A call of a program -/

/-- The output of the process goes to its terminal. -/
def WritesOut (p : Proc) : Prop := (p.fds 1).flags ≠ 0 ∧ (p.fds 1).pointer = .stdoutFops

section Calls
variable (img : Image) (m : Moment) {p : Proc}

theorem serve_write (h : WritesOut p) (bytes : List UInt8) :
    (serve img m p (.write 1 (some bytes) bytes.length)).reply.ret = bytes.length ∧
      (serve img m p (.write 1 (some bytes) bytes.length)).shown = bytes ∧
      (serve img m p (.write 1 (some bytes) bytes.length)).view.fds = p.fds ∧
      (serve img m p (.write 1 (some bytes) bytes.length)).view.dev.directoryIndex =
        (m.others p.dev).directoryIndex := by
  have hi : fdIndex 1 = some 1 := rfl
  have hbytes : (List.range bytes.length).map (fun i => bytes.getD i 0) = bytes := by
    apply List.ext_getElem
    · simp
    · intro i hi hi'
      rw [List.getElem_map, List.getElem_range, List.getD_eq_getElem _ _ hi']
  have hneg : ¬ (bytes.length : ℤ) < 0 := by omega
  simp only [serve, Request.toCall, Option.map_some, call, Syscall.write, hi, if_neg hneg,
    Option.isNone_some, Bool.false_eq_true, if_false, if_neg h.1, writeOp, h.2, terminalWrite, shown]
  refine ⟨trivial, ?_, trivial, trivial⟩
  rw [if_pos ⟨by omega, h.1, trivial⟩, Int.toNat_natCast, hbytes]

omit m in
theorem fdputs_run (h : WritesOut p) (s : List UInt8) (status : ℤ) (w : ℕ → Moment) :
    ∃ v, (fdputs 1 s (.exit status)).run (serve img) w p = some ⟨status, s, v⟩ := by
  obtain ⟨-, hshown, -⟩ := serve_write img (w 0) h s
  refine ⟨(serve img (w 0) p (.write 1 (some s) s.length)).view, ?_⟩
  simp only [fdputs, Script.run, hshown, Option.map_some, Outcome.after, List.append_nil]

variable {img m}

/-- A fresh table has the terminal on 1, and 2 is free. -/
theorem initFds_writesOut (fds : Fds) (dev : Devices) : WritesOut ⟨initFds fds, dev⟩ := by
  constructor
  · exact one_ne_zero
  · rfl

theorem firstFree_initFds (fds : Fds) : firstFree (initFds fds) = some 2 := rfl

/-- What `open` does for a fresh process. -/
theorem serve_open {name : CString} {d : Dentry} {f : Fops} {fds : Fds} (hp : p.fds = initFds fds)
    (hopen : openable img (some name) = some (d, f)) :
    (serve img m p (.open (some name))).reply.ret = 2 ∧
      (serve img m p (.open (some name))).shown = [] ∧
      (serve img m p (.open (some name))).view.fds = update (initFds fds) 2 (openedEntry f d) ∧
      (serve img m p (.open (some name))).view.dev.directoryIndex =
        (m.others p.dev).directoryIndex := by
  simp only [serve, Request.toCall, call, sysOpen_eq, hopen, hp, firstFree_initFds, shown]
  refine ⟨rfl, trivial, trivial, ?_⟩
  cases f <;> rfl

theorem serve_open_fails {name : CString} (hopen : openable img (some name) = none) :
    (serve img m p (.open (some name))).reply.ret = -1 ∧
      (serve img m p (.open (some name))).shown = [] ∧
      (serve img m p (.open (some name))).view.fds = p.fds := by
  simp only [serve, Request.toCall, call, sysOpen_eq, hopen, shown, Syscall.failure]
  exact ⟨trivial, trivial, trivial⟩

end Calls

/-! ### The loop -/

/-- What a loop reads: `chunk k` at its `k`-th round for `total` rounds, while the process is
in a state of `At k`, and then nothing but `last` on the screen, which leaves it `Done`. -/
structure Feeds (img : Image) (quiet : Prop) (fd nbytes : ℤ) (chunk : ℕ → List UInt8) (total : ℕ)
    (last : List UInt8) (At : ℕ → Proc → Prop) (Done : Proc → Prop) : Prop where
  out : ∀ {k p}, At k p → WritesOut p
  next : ∀ {k p m}, k < total → At k p → m.Quietly quiet →
    (serve img m p (.read fd true nbytes)).reply.ret = (chunk k).length ∧ chunk k ≠ [] ∧
      (serve img m p (.read fd true nbytes)).reply.stored.take (chunk k).length = chunk k ∧
      (serve img m p (.read fd true nbytes)).shown = [] ∧
      At (k + 1) (serve img m p (.read fd true nbytes)).view
  wrote : ∀ {k p m} bytes, At k p → m.Quietly quiet →
    At k (serve img m p (.write 1 (some bytes) bytes.length)).view
  stop : ∀ {p m}, At total p → m.Quietly quiet →
    (serve img m p (.read fd true nbytes)).reply.ret = 0 ∧
      (serve img m p (.read fd true nbytes)).shown = last ∧
      Done (serve img m p (.read fd true nbytes)).view

/-- The bytes at the front of a buffer after a piece and its suffix have been put there. -/
theorem buffer_front {stored piece : List UInt8} (h : stored.take piece.length = piece)
    (suffix : List UInt8) (buf : ℕ → UInt8) :
    (List.range (piece ++ suffix).length).map
      (storeBytes piece.length suffix (storeBytes 0 stored buf)) = piece ++ suffix := by
  have hlen : piece.length ≤ stored.length := by
    have := congrArg List.length h
    rw [List.length_take] at this
    omega
  apply List.ext_getElem
  · simp
  · intro i hi hi'
    rw [List.getElem_map, List.getElem_range, List.getElem_append]
    split_ifs with hpiece
    · have hstored : i < stored.length := by omega
      have hget : piece.getD i 0 = stored.getD i 0 := by
        rw [← h, List.getD_eq_getElem _ _ (by rw [h]; exact hpiece), List.getElem_take,
          List.getD_eq_getElem _ _ hstored]
      have hfirst := storeBytes_get (p := 0) buf hstored
      rw [Nat.zero_add] at hfirst
      rw [storeBytes, if_neg (by omega), hfirst, ← List.getD_eq_getElem _ 0, ← hget,
        List.getD_eq_getElem]
    · rw [List.length_append] at hi'
      obtain ⟨j, rfl⟩ := Nat.exists_eq_add_of_le (not_lt.mp hpiece)
      have hj : j < suffix.length := by omega
      simp only [storeBytes_get _ hj, Nat.add_sub_cancel_left]

/-- A loop without a suffix writes what it was given, as long as that is what it was told. -/
theorem copyLoop_plain (nbytes : ℤ) (failed : List UInt8) (fd : ℤ) (rounds : ℕ) (buf : ℕ → UInt8) :
    copyLoop nbytes failed [] fd (rounds + 1) buf =
      .call (.read fd true nbytes) fun reply =>
        if reply.ret = 0 then .exit 0
        else if reply.ret = -1 then fdputs 1 failed (.exit 3)
        else
          let buf := storeBytes 0 reply.stored buf
          let piece := if reply.ret.toNat = reply.stored.length then reply.stored
            else (List.range reply.ret.toNat).map buf
          .call (.write 1 (some piece) reply.ret) fun reply =>
            if reply.ret = -1 then .exit 3 else copyLoop nbytes failed [] fd rounds buf := by
  have hpiece : ∀ reply : Reply, (if reply.ret.toNat = reply.stored.length then reply.stored
      else (List.range reply.ret.toNat).map (storeBytes 0 reply.stored buf)) =
        (List.range reply.ret.toNat).map (storeBytes 0 reply.stored buf) := by
    intro reply
    split_ifs with hlength
    · have hfront := buffer_front (List.take_length (l := reply.stored)) [] buf
      rw [storeBytes_nil, List.append_nil] at hfront
      rw [hlength, hfront]
    · rfl
  simp only [copyLoop, hpiece, storeBytes_nil, List.length_nil, Nat.cast_zero, add_zero]

/-- The loop writes the pieces one after another, each with its suffix. -/
theorem Feeds.copyLoop_run {img : Image} {quiet : Prop} {fd nbytes : ℤ} {chunk : ℕ → List UInt8}
    {total : ℕ} {last : List UInt8} {At : ℕ → Proc → Prop} {Done : Proc → Prop}
    (h : Feeds img quiet fd nbytes chunk total last At Done) (failed suffix : List UInt8)
    {k n : ℕ} (hn : k + n = total) {rounds : ℕ} (hrounds : n < rounds) (buf : ℕ → UInt8) {p : Proc}
    (hp : At k p) {w : ℕ → Moment} (hw : ∀ i, (w i).Quietly quiet) :
    ∃ v, Done v ∧ (copyLoop nbytes failed suffix fd rounds buf).run (serve img) w p =
      some ⟨0, ((List.range' k n).flatMap fun i => chunk i ++ suffix) ++ last, v⟩ := by
  induction n generalizing k rounds buf p w with
  | zero =>
    obtain ⟨rounds, rfl⟩ := Nat.exists_eq_add_of_le' hrounds
    obtain rfl : k = total := by omega
    obtain ⟨hret, hshown, hdone⟩ := h.stop hp (hw 0)
    refine ⟨(serve img (w 0) p (.read fd true nbytes)).view, hdone, ?_⟩
    simp only [copyLoop, Script.run, hret, hshown, if_true, Option.map_some, Outcome.after,
      List.range'_zero, List.flatMap_nil, List.nil_append, List.append_nil]
  | succ n ih =>
    obtain ⟨rounds, rfl⟩ := Nat.exists_eq_add_of_le' (Nat.one_le_of_lt hrounds)
    obtain ⟨hret, hne, hstored, hshown, hnext⟩ := h.next (by omega) hp (hw 0)
    have hpos := List.length_pos_iff.mpr hne
    have hcnt0 : ¬ ((chunk k).length : ℤ) = 0 := by omega
    have hcnt1 : ¬ ((chunk k).length : ℤ) = -1 := by omega
    have hfront := buffer_front hstored suffix buf
    have hcount : ((chunk k).length : ℤ) + suffix.length = (chunk k ++ suffix).length := by simp
    obtain ⟨hwret, hwshown, -⟩ :=
      serve_write img (w 1) (h.out hnext) (chunk k ++ suffix)
    have hwrote := h.wrote (chunk k ++ suffix) hnext (hw 1)
    have hgo : ¬ ((chunk k ++ suffix).length : ℤ) = -1 := by omega
    obtain ⟨v, hdone, hv⟩ := ih (by omega) (Nat.lt_of_succ_lt_succ hrounds)
      (storeBytes (chunk k).length suffix
        (storeBytes 0 (serve img (w 0) p (.read fd true nbytes)).reply.stored buf))
      hwrote (fun i => hw (i + 2))
    refine ⟨v, hdone, ?_⟩
    simp only [copyLoop, Script.run, hret, hshown, if_neg hcnt0, if_neg hcnt1, hcount,
      Int.toNat_natCast, hfront, Nat.zero_add, hwret, hwshown, if_neg hgo]
    rw [hv]
    simp only [Option.map_some, Outcome.after, List.range'_succ, List.flatMap_cons,
      List.append_assoc, List.nil_append]

/-! ### Reading a file -/

/-- A read that stays in one block does not complain. -/
theorem readLoop_inBlock {img : Image} {ino : Inode} {length n dc b cur off : ℕ}
    (hb : b < blockLimit img) (hn : dc + n = length) (hoff : off + n ≤ kb4) :
    (FileSys.readLoop img ino length n dc b cur off).2 = false := by
  induction n generalizing dc off with
  | zero => rfl
  | succ n ih =>
    obtain ⟨h1022, hblocks⟩ := lt_min_iff.mp hb
    rw [FileSys.readLoop, if_neg (by omega), if_neg (by omega), if_neg (by omega)]
    exact ih (by omega) (by omega)

/-- A read that starts where the loop gives up. -/
theorem readLoop_stopped {img : Image} {ino : Inode} {n b cur off : ℕ} (hb : blockLimit img = b) :
    FileSys.readLoop img ino (n + 1) (n + 1) 0 b cur off = ([], decide (b ≠ 1022)) := by
  rw [FileSys.readLoop]
  by_cases h1022 : b = 1022
  · rw [if_pos (.inr h1022)]
    simp [h1022]
  · have hblocks : img.bootBlock.fileStat.dataBlockNum ≤ b := by
      simp only [blockLimit] at hb
      omega
    rw [if_neg (by omega), if_pos hblocks]
    simp [h1022]

section File
variable (img : Image) (inode : ℕ)

/-- The number of pieces of 1024 bytes in which a file is read from its start. -/
def pieces : ℕ := (min (img.inode inode).length (blockLimit img * kb4) + 1023) / 1024

/-- One of them; the last one goes on behind the end of the file. -/
def piece (k : ℕ) : List UInt8 :=
  (List.range' (1024 * k) 1024).map (fileByte img (img.inode inode))

/-- What `read_data` prints where the file has more blocks than there are. -/
def complaint : List UInt8 :=
  if blockLimit img * kb4 < (img.inode inode).length ∧ blockLimit img ≠ 1022 then
    text "invalid data block!\n" else []

/-- What `cat` prints of a regular file. -/
def catText : List UInt8 :=
  (List.range' 0 (1024 * pieces img inode)).map (fileByte img (img.inode inode)) ++ complaint img inode

variable {img inode}

theorem readData_piece (hino : inode < img.bootBlock.fileStat.inodeNum) {k : ℕ}
    (hk : k < pieces img inode) :
    readData img inode (1024 * k) true 1024 = ⟨1024, piece img inode k, false⟩ := by
  have hmin : 1024 * k < min (img.inode inode).length (blockLimit img * kb4) := by
    simp only [pieces] at hk
    omega
  obtain ⟨hpos, hlimit⟩ := lt_min_iff.mp hmin
  have hblock : 1024 * k / kb4 < blockLimit img := (Nat.div_lt_iff_lt_mul (by decide)).mpr hlimit
  have hbytes := readData_bytes img 1024 hino hpos hblock
  have hroom : min 1024 (blockLimit img * kb4 + 1 - 1024 * k) = 1024 := by
    simp only [kb4] at *
    omega
  rw [hroom] at hbytes
  have hoff : 1024 * k - 1024 * k / kb4 * kb4 + 1024 ≤ kb4 := by
    simp only [kb4]
    omega
  have hcomplained : (readData img inode (1024 * k) true 1024).complained = false := by
    simp only [readData, Nat.not_le.mpr hino, Nat.not_le.mpr hpos, Bool.true_eq_false, or_self,
      if_false]
    exact readLoop_inBlock hblock (Nat.zero_add _) hoff
  have hret := readData_ret img (1024 * k) 1024 hino
  rw [hbytes, List.length_map, List.length_range'] at hret
  rcases hout : readData img inode (1024 * k) true 1024 with ⟨ret, bytes, complained⟩
  simp only [hout] at hret hbytes hcomplained
  rw [hret, hbytes, hcomplained]
  rfl

theorem readData_stop (hino : inode < img.bootBlock.fileStat.inodeNum) :
    (readData img inode (1024 * pieces img inode) true 1024).ret = 0 ∧
      (if (readData img inode (1024 * pieces img inode) true 1024).complained then
        text "invalid data block!\n" else []) = complaint img inode := by
  by_cases hend : (img.inode inode).length ≤ 1024 * pieces img inode
  · have hshort : ¬ (blockLimit img * kb4 < (img.inode inode).length ∧ blockLimit img ≠ 1022) := by
      rintro ⟨hlong, -⟩
      simp only [pieces, kb4] at *
      omega
    have hout : readData img inode (1024 * pieces img inode) true 1024 = ⟨0, [], false⟩ := by
      simp only [readData, Nat.not_le.mpr hino, Bool.true_eq_false, or_self, if_false, if_pos hend]
    rw [hout, complaint, if_neg hshort]
    exact ⟨rfl, rfl⟩
  · have hpos : 1024 * pieces img inode = blockLimit img * kb4 := by
      simp only [pieces, kb4] at *
      omega
    rw [hpos] at hend ⊢
    have hdiv : blockLimit img * kb4 / kb4 = blockLimit img := Nat.mul_div_cancel _ (by decide)
    have hout : readData img inode (blockLimit img * kb4) true 1024 =
        ⟨0, [], decide (blockLimit img ≠ 1022)⟩ := by
      simp only [readData, Nat.not_le.mpr hino, Bool.true_eq_false, or_self, if_false, if_neg hend,
        hdiv, readLoop_stopped (n := 1023) rfl, List.length_nil, Nat.cast_zero]
    rw [hout, complaint]
    simp only [Nat.not_le.mp hend, true_and, decide_eq_true_eq]

theorem pieces_text (n : ℕ) : (List.range' 0 n).flatMap (fun k => piece img inode k ++ []) =
    (List.range' 0 (1024 * n)).map (fileByte img (img.inode inode)) := by
  induction n with
  | zero => rfl
  | succ n ih =>
    rw [List.range'_1_concat, List.flatMap_append, ih, Nat.mul_succ, ← List.range'_append_1,
      List.map_append]
    simp [piece]

end File

section Read
variable (img : Image) (m : Moment) {p : Proc} (fd : Fin 8) {n : ℤ}

/-- A read through an open slot, by the operation behind it. -/
theorem serve_read (hn : 0 ≤ n) (hopen : (p.fds fd).flags ≠ 0) {op : OpOut}
    (hop : readOp img m.turn m.keyBuf (m.others p.dev) (p.fds fd) true n = op) :
    (serve img m p (.read fd true n)).reply = ⟨op.ret, op.stored⟩ ∧
      (serve img m p (.read fd true n)).view = ⟨update p.fds fd (advanced (p.fds fd) op.ret), op.dev⟩ ∧
      (serve img m p (.read fd true n)).shown =
        if (p.fds fd).pointer = .fileFops ∧
          (readData img (p.fds fd).inode (p.fds fd).filePosition true n.toNat).complained then
          text "invalid data block!\n" else [] := by
  subst hop
  have hcall : call img m.turn { p with dev := m.others p.dev } (.read fd true n m.keyBuf) = _ :=
    read_open hn hopen
  simp only [serve, Request.toCall, hcall, shown, fdIndex_coe, hn, hopen, true_and, ne_eq,
    not_false_eq_true]

end Read

/-- `cat` before its `k`-th read. -/
structure AtPiece (inode k : ℕ) (p : Proc) : Prop where
  out : WritesOut p
  entry : p.fds 2 = ⟨.fileFops, inode, 1024 * k, 1⟩

theorem pieces_le (img : Image) (inode : ℕ) : 1024 * pieces img inode ≤ 1022 * kb4 + 1023 := by
  have hlimit : blockLimit img ≤ 1022 := Nat.min_le_left _ _
  simp only [pieces, kb4] at *
  omega

/-- The reads of `cat` on a regular file. -/
theorem feeds_file (img : Image) (quiet : Prop) {inode : ℕ}
    (hino : inode < img.bootBlock.fileStat.inodeNum) :
    Feeds img quiet 2 1024 (piece img inode) (pieces img inode) (complaint img inode)
      (AtPiece inode) fun _ => True where
  out h := h.out
  next {k p m} hk h _ := by
    have hop : readOp img m.turn m.keyBuf (m.others p.dev) (p.fds 2) true 1024 =
        ⟨1024, piece img inode k, m.others p.dev⟩ := by
      rw [h.entry]
      simp only [readOp, fileRead, Int.reduceToNat, readData_piece hino hk, Bool.false_eq_true, if_false]
    have hopen : (p.fds 2).flags ≠ 0 := by simp [h.entry]
    obtain ⟨hreply, hview, hshown⟩ := serve_read img m 2 (show (0 : ℤ) ≤ 1024 by decide) hopen hop
    have hlen : (piece img inode k).length = 1024 := by simp [piece]
    have hbound := pieces_le img inode
    refine ⟨?_, List.length_pos_iff.mp (by omega), ?_, ?_, ?_⟩
    · exact (congrArg Reply.ret hreply).trans (by rw [hlen]; rfl)
    · exact (congrArg (List.take _ <| Reply.stored ·) hreply).trans (List.take_length)
    · refine hshown.trans (if_neg fun hc => ?_)
      simp [h.entry, readData_piece hino hk] at hc
    · refine hview ▸ ⟨h.out, ?_⟩
      have hpos : u32 (1024 * k + ((1024 : ℤ) % 2 ^ 32).toNat) = 1024 * (k + 1) := by
        simp only [u32, kb4] at *
        omega
      simp only [Function.update_self, h.entry, advanced, hpos]
  wrote {k p m} bytes h _ := by
    obtain ⟨-, -, hfds, -⟩ := serve_write img m h.out bytes
    exact ⟨by simpa only [WritesOut, hfds] using h.out, by rw [hfds, h.entry]⟩
  stop {p m} h _ := by
    obtain ⟨hret, hcomplaint⟩ := readData_stop hino
    have hopen : (p.fds 2).flags ≠ 0 := by simp [h.entry]
    obtain ⟨hreply, -, hshown⟩ := serve_read img m 2
      (show (0 : ℤ) ≤ 1024 by decide) hopen rfl
    refine ⟨(congrArg Reply.ret hreply).trans ?_, hshown.trans ?_, trivial⟩
    · rw [h.entry]
      exact hret
    · rw [h.entry, ← hcomplaint]
      simp only [true_and, Int.reduceToNat]

/-! ### `cat` -/

/-- The status of `cat` and what it prints, for a name that is not that of a directory. -/
def catSays (img : Image) (name : CString) : ℤ × List UInt8 :=
  match openable img (some name) with
  | none => (2, text "file not found\n")
  | some (d, pointer) =>
    if pointer = .fileFops then
      if d.inodeNum < img.bootBlock.fileStat.inodeNum then (0, catText img d.inodeNum)
      else (3, text "file read failed\n")
    else (0, [])

theorem openable_pointer {img : Image} {name : CString} {d : Dentry} {f : Fops}
    (h : openable img (some name) = some (d, f)) : f = .rtcFops ∨ f = .dirFops ∨ f = .fileFops := by
  have htype : fopsOfType d.fileType = some f := by
    simp only [openable] at h
    split_ifs at h
    obtain ⟨d', -, hd'⟩ := Option.bind_eq_some_iff.mp h
    obtain ⟨f', hf', heq⟩ := Option.map_eq_some_iff.mp hd'
    cases heq
    exact hf'
  simp only [fopsOfType] at htype
  split_ifs at htype
  · exact .inl (Option.some.inj htype).symm
  · exact .inr (.inl (Option.some.inj htype).symm)
  · exact .inr (.inr (Option.some.inj htype).symm)

section Cat
variable {img : Image} {p : Proc} {fds : Fds} {rounds : ℕ} {w : ℕ → Moment}

theorem writesOut_opened (f : Fops) (d : Dentry) (fds : Fds) (dev : Devices) :
    WritesOut ⟨update (initFds fds) 2 (openedEntry f d), dev⟩ := by
  have hout : update (initFds fds) 2 (openedEntry f d) 1 = initFds fds 1 :=
    Function.update_of_ne (by decide) _ _
  simpa only [WritesOut, hout] using initFds_writesOut fds dev

/-- A loop whose first read gives nothing. -/
theorem copyLoop_empty {failed suffix : List UInt8} {nbytes fd : ℤ} {buf : ℕ → UInt8}
    (hrounds : 0 < rounds) (hret : (serve img (w 0) p (.read fd true nbytes)).reply.ret = 0)
    (hshown : (serve img (w 0) p (.read fd true nbytes)).shown = []) :
    ∃ v, (copyLoop nbytes failed suffix fd rounds buf).run (serve img) w p = some ⟨0, [], v⟩ := by
  obtain ⟨rounds, rfl⟩ := Nat.exists_eq_add_of_le' hrounds
  refine ⟨(serve img (w 0) p (.read fd true nbytes)).view, ?_⟩
  simp only [copyLoop, Script.run, hret, hshown, if_true, Option.map_some, Outcome.after,
    List.append_nil]

/-- A loop whose first read fails. -/
theorem copyLoop_fails {failed suffix : List UInt8} {nbytes fd : ℤ} {buf : ℕ → UInt8}
    (hrounds : 0 < rounds) (hret : (serve img (w 0) p (.read fd true nbytes)).reply.ret = -1)
    (hshown : (serve img (w 0) p (.read fd true nbytes)).shown = [])
    (hout : WritesOut (serve img (w 0) p (.read fd true nbytes)).view) :
    ∃ v, (copyLoop nbytes failed suffix fd rounds buf).run (serve img) w p =
      some ⟨3, failed, v⟩ := by
  obtain ⟨rounds, rfl⟩ := Nat.exists_eq_add_of_le' hrounds
  obtain ⟨v, hv⟩ := fdputs_run img hout failed 3 fun n => w (n + 1)
  refine ⟨v, ?_⟩
  have hne : ¬ (-1 : ℤ) = 0 := by decide
  simp only [copyLoop, Script.run, hret, hshown, if_neg hne, if_true, hv, Option.map_some,
    Outcome.after, List.nil_append]

/-- `cat` alone, on anything but a directory. -/
theorem cat_run {name : CString} (hdir : ∀ d, openable img (some name) ≠ some (d, .dirFops))
    {args : ArgsOut} (hret : args.ret = 0) (hname : CString.ofBuf args.stored = name)
    (hp : p.fds = initFds fds) (hrounds : 4088 < rounds) (buf : ℕ → UInt8) (w : ℕ → Moment) :
    ∃ v, (cat rounds args buf).run (serve img) w p =
      some ⟨(catSays img name).1, (catSays img name).2, v⟩ := by
  subst hname
  have hargs : ¬ args.ret ≠ 0 := not_not.mpr hret
  cases hopen : openable img (some (CString.ofBuf args.stored)) with
  | none =>
    obtain ⟨hret, hshown, hfds⟩ := serve_open_fails (m := w 0) (p := p) hopen
    have hout : WritesOut (serve img (w 0) p (.open (some (CString.ofBuf args.stored)))).view := by
      simpa only [WritesOut, hfds, hp] using initFds_writesOut fds p.dev
    obtain ⟨v, hv⟩ := fdputs_run img hout (text "file not found\n") 2 fun n => w (n + 1)
    refine ⟨v, ?_⟩
    simp only [cat, if_neg hargs, Script.run, hret, hshown, if_true, hv, Option.map_some,
      Outcome.after, List.nil_append, catSays, hopen]
  | some opened =>
    obtain ⟨d, f⟩ := opened
    obtain ⟨hret, hshown, hfds, -⟩ := serve_open (m := w 0) hp hopen
    set p₁ := (serve img (w 0) p (.open (some (CString.ofBuf args.stored)))).view with hp₁
    have hout : WritesOut p₁ := by
      simpa only [WritesOut, hfds] using writesOut_opened f d fds p.dev
    have hentry : p₁.fds 2 = openedEntry f d := by rw [hfds, Function.update_self]
    have hflags : (p₁.fds 2).flags ≠ 0 := by simp [hentry, openedEntry]
    have hgo : ¬ (2 : ℤ) = -1 := by decide
    -- the loop decides from here on
    suffices hloop : ∃ v, (copyLoop 1024 (text "file read failed\n") [] 2 rounds
        (storeBytes 0 args.stored buf)).run (serve img) (fun n => w (n + 1)) p₁ =
          some ⟨(catSays img (CString.ofBuf args.stored)).1,
            (catSays img (CString.ofBuf args.stored)).2, v⟩ by
      obtain ⟨v, hv⟩ := hloop
      refine ⟨v, ?_⟩
      simp only [cat, if_neg hargs, Script.run, hret, hshown, if_neg hgo, ← hp₁, hv, Option.map_some,
        Outcome.after, List.nil_append]
    rcases openable_pointer hopen with rfl | rfl | rfl
    · obtain ⟨hreply, -, hread⟩ := serve_read img (w 1) (p := p₁) 2
        (show (0 : ℤ) ≤ 1024 by decide) hflags rfl
      have htext : catSays img (CString.ofBuf args.stored) = (0, []) := by simp [catSays, hopen]
      rw [htext]
      refine copyLoop_empty (by omega) ((congrArg Reply.ret hreply).trans ?_) (hread.trans ?_)
      · simp only [hentry, openedEntry, readOp, rtcRead]
      · simp [hentry, openedEntry]
    · exact absurd hopen (hdir d)
    · by_cases hino : d.inodeNum < img.bootBlock.fileStat.inodeNum
      · have hstart : AtPiece d.inodeNum 0 p₁ := ⟨hout, by simp [hentry, openedEntry]⟩
        have hbound := pieces_le img d.inodeNum
        obtain ⟨v, -, hv⟩ := (feeds_file img False hino).copyLoop_run (text "file read failed\n") []
          (Nat.zero_add _) (show pieces img d.inodeNum < rounds by simp only [kb4] at hbound; omega)
          (storeBytes 0 args.stored buf) hstart (fun _ h => h.elim) (w := fun n => w (n + 1))
        refine ⟨v, ?_⟩
        rw [pieces_text] at hv
        simp only [hv, catSays, hopen, if_true, if_pos hino, catText]
      · obtain ⟨hreply, hview, hread⟩ := serve_read img (w 1) (p := p₁) 2
          (show (0 : ℤ) ≤ 1024 by decide) hflags rfl
        have htext : catSays img (CString.ofBuf args.stored) = (3, text "file read failed\n") := by
          simp [catSays, hopen, hino]
        have hfailed : readData img d.inodeNum 0 true 1024 = ⟨-1, [], false⟩ := by
          simp only [readData, not_lt.mp hino, true_or, if_true]
        rw [htext]
        refine copyLoop_fails (by omega) ((congrArg Reply.ret hreply).trans ?_) (hread.trans ?_) ?_
        · simp [hentry, openedEntry, readOp, fileRead, hfailed]
        · simp [hentry, openedEntry, hfailed]
        · exact hview ▸ hout

end Cat

/-- A fresh process that plays `cat` among any other processes prints the file, block by
block, and with it the bytes that lie behind its end in the last piece; at any moment it
has printed a part of that, and it ends with the status of `cat`. -/
theorem cat_prints_file (tablePage : ℕ) (img : Image) (stack : ℕ → Stack) (k₀ k k' : State)
    (es fs : List UserEvent) (hb : State.Boot k₀)
    (hr : run (userStep tablePage img stack) (pagingInit tablePage k₀) es = some k) (p : Fin 6)
    (hlive : k.pid p = occupied) (fds : Fds) (hfresh : (k.pcbs p).fileDescriptor = initFds fds)
    (name : CString) (hdir : ∀ d, openable img (some name) ≠ some (d, .dirFops)) (args : ArgsOut)
    (hret : args.ret = 0) (hname : CString.ofBuf args.stored = name) (rounds : ℕ)
    (hrounds : 4088 < rounds) (buf : ℕ → UInt8)
    (hr' : run (userStep tablePage img stack) k fs = some k')
    (hend : Along (userStep tablePage img stack) (fun k e => ¬ EndsUser tablePage img stack p k e) k fs)
    (left : Program)
    (hleft : (process tablePage img stack p).leftover (cat rounds args buf) k fs = some left) :
    (process tablePage img stack p).shownAlong k fs <+: (catSays img name).2 ∧ left ≠ .spin ∧
      ∀ status, left = .exit status → status = (catSays img name).1 ∧
        (process tablePage img stack p).shownAlong k fs = (catSays img name).2 := by
  have hgo : Along (userStep tablePage img stack) (GoesOn False tablePage img stack p) k fs :=
    hend.imp fun _ _ h => ⟨h, fun hf => hf.elim⟩
  obtain ⟨⟨o, ho, hprefix⟩, hspin, hexit⟩ := session_outcome hb hr hlive hr' hgo hleft
    (fun o => o.status = (catSays img name).1 ∧ o.shown = (catSays img name).2) fun w _ => by
      obtain ⟨v, hv⟩ := cat_run (p := ⟨(k.pcbs p).fileDescriptor, k.dev⟩) hdir hret hname hfresh
        hrounds buf w
      exact ⟨_, hv, rfl, rfl⟩
  refine ⟨ho.2 ▸ hprefix, hspin, fun status hs => ?_⟩
  obtain ⟨v, -, hstatus, hshown⟩ := hexit status hs
  exact ⟨hstatus, hshown⟩

/-- A call of the running program, and the timer. -/
abbrev callEvent (c : Call) : UserEvent := .video (.kernel (.call c))

abbrev tickEvent : UserEvent := .video (.kernel .tick)

/-- A text that the running program writes to its terminal. -/
abbrev printEvent (s : List UInt8) : UserEvent := callEvent (.write 1 (some (bufMem s)) s.length)

/-- The first shell plays `cat` on "shell"; the other two start meanwhile, and one of them
prints something before the file is read and again before it is written. -/
def shellCat : List UserEvent :=
  [callEvent (.open (some shellName)), tickEvent, .video (.switch 1), printEvent (text "hi"),
    tickEvent, tickEvent, callEvent (.read 2 true 1024 fun _ => 0), tickEvent,
    printEvent (text "ho"), tickEvent, tickEvent,
    callEvent (.write 1 (some fun i => magicIdentifiers.getD i 0) 1024),
    callEvent (.read 2 true 1024 fun _ => 0)]

theorem cat_prints_file_shell : ∃ k k', userRuns [tickEvent] = some k ∧
    run (userStep 0x500 shellImage fun _ => .zero) k shellCat = some k' ∧
    (process 0x500 shellImage (fun _ => .zero) 0).shownAlong k shellCat =
      magicIdentifiers ++ List.replicate 1020 0 := by
  set args : ArgsOut := ⟨0, shellName.bytes ++ [0]⟩
  obtain ⟨k, hr, hlive, hfresh, hend, hleft, hrest⟩ := run_eval (userStep 0x500 shellImage fun _ => .zero)
    (pagingInit 0x500 .cleared) [tickEvent]
    (fun k => k.pid (0 : Fin 6) = occupied ∧
      (k.pcbs 0).fileDescriptor = initFds (fun _ => ⟨.stdinFops, 0, 0, 0⟩) ∧
      Along (userStep 0x500 shellImage fun _ => .zero)
        (fun k e => ¬ EndsUser 0x500 shellImage (fun _ => .zero) 0 k e) k shellCat ∧
      ((process 0x500 shellImage (fun _ => .zero) 0).leftover (cat 4089 args fun _ => 0) k shellCat).bind
        Script.exited = some 0 ∧
      (run (userStep 0x500 shellImage fun _ => .zero) k shellCat).isSome = true)
    (by simp only [cat, copyLoop_plain _ _ _ 4088]; decide +kernel)
  obtain ⟨left, hleft, hexit⟩ := Option.bind_eq_some_iff.mp hleft
  obtain ⟨k', hr'⟩ := Option.isSome_iff_exists.mp hrest
  have hopen : openable shellImage (some shellName) =
      some (Dentry.regular shellName.bytes 0, .fileFops) := by decide +kernel
  obtain ⟨-, -, hall⟩ := cat_prints_file 0x500 shellImage _ .cleared k k' _ shellCat
    State.cleared_boot hr 0 hlive _ hfresh shellName (fun d => by simp [hopen]) args rfl (by decide) 4089
    (by decide) _ hr' hend left hleft
  refine ⟨k, k', hr, hr', (hall 0 (Script.exited_eq_some hexit)).2.trans ?_⟩
  rw [catSays, hopen]
  decide +kernel

/-! ### `ls` -/

section Directory
variable (img : Image) (start : ℕ)

/-- The number of names from an entry on, up to the end or to a name that is empty. -/
def listed : ℕ :=
  (List.range' start (img.bootBlock.fileStat.dirEntryNum - start)).findIdx fun m =>
    (entryName img m).bytes.isEmpty

/-- What `ls` prints. -/
def lsText : List UInt8 :=
  (List.range' 0 (listed img start)).flatMap fun k => (entryName img (start + k)).bytes ++ [newline]

/-- The listing position after `ls`. -/
def lsIndex : ℤ :=
  if start + listed img start = img.bootBlock.fileStat.dirEntryNum then -1
  else start + listed img start

theorem listed_le : listed img start ≤ img.bootBlock.fileStat.dirEntryNum - start := by
  have hle : listed img start ≤
      (List.range' start (img.bootBlock.fileStat.dirEntryNum - start)).length :=
    List.findIdx_le_length
  rwa [List.length_range'] at hle

variable {img start}

theorem entryName_listed {k : ℕ} (hk : k < listed img start) :
    (entryName img (start + k)).bytes ≠ [] := by
  have hnot := List.not_of_lt_findIdx hk
  simpa using hnot

theorem entryName_stop (hstart : start ≤ img.bootBlock.fileStat.dirEntryNum)
    (h : start + listed img start ≠ img.bootBlock.fileStat.dirEntryNum) :
    (entryName img (start + listed img start)).bytes = [] := by
  have hlt : listed img start <
      (List.range' start (img.bootBlock.fileStat.dirEntryNum - start)).length := by
    have hle := listed_le img start
    rw [List.length_range']
    omega
  have hempty : (entryName img (List.range' start
      (img.bootBlock.fileStat.dirEntryNum - start))[listed img start]).bytes.isEmpty = true :=
    List.findIdx_getElem (w := hlt)
  rwa [List.getElem_range', Nat.one_mul, List.isEmpty_iff] at hempty

/-- `ls` before its `k`-th read. -/
structure AtEntry (start k : ℕ) (p : Proc) : Prop where
  out : WritesOut p
  opened : (p.fds 2).flags ≠ 0
  pointer : (p.fds 2).pointer = .dirFops
  directoryIndex : p.dev.directoryIndex = (start + k : ℕ) - 1

variable (img) in
theorem serve_dirRead {m : Moment} {p : Proc} {k : ℕ} (h : AtEntry start k p) (hm : m.Quietly True)
    {out : DirOut} (hout : dirRead img ((start + k : ℕ) - 1) true = out) :
    (serve img m p (.read 2 true 32)).reply = ⟨out.ret, out.stored⟩ ∧
      (serve img m p (.read 2 true 32)).shown = [] ∧
      WritesOut (serve img m p (.read 2 true 32)).view ∧
      ((serve img m p (.read 2 true 32)).view.fds 2).flags ≠ 0 ∧
      ((serve img m p (.read 2 true 32)).view.fds 2).pointer = .dirFops ∧
      (serve img m p (.read 2 true 32)).view.dev.directoryIndex = out.directoryIndex := by
  have hindex : (m.others p.dev).directoryIndex = (start + k : ℕ) - 1 :=
    (hm trivial p.dev).trans h.directoryIndex
  have hop : readOp img m.turn m.keyBuf (m.others p.dev) (p.fds 2) true 32 =
      ⟨out.ret, out.stored, { m.others p.dev with directoryIndex := out.directoryIndex }⟩ := by
    simp only [readOp, h.pointer, dirReadOp, hindex, hout]
  obtain ⟨hreply, hview, hshown⟩ := serve_read img m 2 (show (0 : ℤ) ≤ 32 by decide) h.opened hop
  refine ⟨hreply, hshown.trans (if_neg fun hc => ?_), ?_⟩
  · rw [h.pointer] at hc
    cases hc.1
  · refine hview ▸ ⟨h.out, ?_⟩
    simp only [Function.update_self, advanced]
    exact ⟨h.opened, h.pointer, trivial⟩

/-- The reads of `ls`, while nobody else reads from the directory. -/
theorem feeds_directory (hdot : img.bootBlock.dirDentry.name = period)
    (hint : img.bootBlock.fileStat.dirEntryNum < 2 ^ 31)
    (hstart : start ≤ img.bootBlock.fileStat.dirEntryNum) :
    Feeds img True 2 32 (fun k => (entryName img (start + k)).bytes) (listed img start) []
      (AtEntry start) fun v => v.dev.directoryIndex = lsIndex img start where
  out h := h.out
  next {k p m} hk h hm := by
    have hle := listed_le img start
    obtain ⟨hret, hstored, hindex⟩ :=
      dirRead_entry hdot hint (show start + k < img.bootBlock.fileStat.dirEntryNum by omega)
    obtain ⟨hreply, hshown, hout, hopened, hpointer, hnext⟩ := serve_dirRead img h hm rfl
    refine ⟨(congrArg Reply.ret hreply).trans hret, entryName_listed hk, ?_, hshown, hout, hopened,
      hpointer, ?_⟩
    · exact (congrArg (fun r : Reply => r.stored.take _) hreply).trans hstored
    · rw [hnext, hindex]
      push_cast
      ring
  wrote {k p m} bytes h hm := by
    obtain ⟨-, -, hfds, hindex⟩ := serve_write img m h.out bytes
    refine ⟨by simpa only [WritesOut, hfds] using h.out, by rw [hfds]; exact h.opened,
      by rw [hfds]; exact h.pointer, ?_⟩
    rw [hindex, hm trivial, h.directoryIndex]
  stop {p m} h hm := by
    obtain ⟨hreply, hshown, -, -, -, hnext⟩ := serve_dirRead img h hm rfl
    by_cases hend : start + listed img start = img.bootBlock.fileStat.dirEntryNum
    · have hzero := dirRead_end hint
      rw [← hend] at hzero
      exact ⟨(congrArg Reply.ret hreply).trans (congrArg DirOut.ret hzero), hshown,
        hnext.trans ((congrArg DirOut.directoryIndex hzero).trans (if_pos hend).symm)⟩
    · have hle := listed_le img start
      obtain ⟨hret, -, hindex⟩ := dirRead_entry hdot hint
        (show start + listed img start < img.bootBlock.fileStat.dirEntryNum by omega)
      rw [entryName_stop hstart hend] at hret
      refine ⟨(congrArg Reply.ret hreply).trans hret, hshown, hnext.trans (hindex.trans ?_)⟩
      rw [lsIndex, if_neg hend]
      push_cast
      rfl

/-- `ls` alone, while nobody else reads from the directory. -/
theorem ls_run {p : Proc} {fds : Fds} {rounds : ℕ} {w : ℕ → Moment}
    (hdot : img.bootBlock.dirDentry.name = period) (htype : img.bootBlock.dirDentry.fileType = dirType)
    (hint : img.bootBlock.fileStat.dirEntryNum < 2 ^ 31)
    (hstart : start ≤ img.bootBlock.fileStat.dirEntryNum) (hp : p.fds = initFds fds)
    (hindex : p.dev.directoryIndex = start - 1)
    (hrounds : img.bootBlock.fileStat.dirEntryNum < rounds) (buf : ℕ → UInt8)
    (hw : ∀ n, (w n).Quietly True) :
    ∃ v, v.dev.directoryIndex = lsIndex img start ∧
      (ls rounds buf).run (serve img) w p = some ⟨0, lsText img start, v⟩ := by
  have hopen : openable img (some period) = some (img.bootBlock.dirDentry, .dirFops) := by
    have hne : ¬ period.bytes = [] := by decide
    simp only [openable, if_neg hne, readDentryByName_period, Option.bind_some, htype]
    rfl
  obtain ⟨hret, hshown, hfds, hdev⟩ := serve_open (m := w 0) hp hopen
  set p₁ := (serve img (w 0) p (.open (some period))).view with hp₁
  have hat : AtEntry start 0 p₁ := by
    refine ⟨?_, ?_, ?_, ?_⟩
    · simpa only [WritesOut, hfds] using writesOut_opened .dirFops img.bootBlock.dirDentry fds p.dev
    · simp [hfds, openedEntry]
    · simp [hfds, openedEntry]
    · rw [hdev, hw 0 trivial, hindex, Nat.add_zero]
  have hle := listed_le img start
  obtain ⟨v, hdone, hv⟩ := (feeds_directory hdot hint hstart).copyLoop_run
    (text "directory entry read failed\n") [newline] (Nat.zero_add _)
    (show listed img start < rounds by omega) buf hat (w := fun n => w (n + 1)) fun n => hw (n + 1)
  refine ⟨v, hdone, ?_⟩
  have hgo : ¬ (2 : ℤ) = -1 := by decide
  simp only [ls, Script.run, hret, hshown, if_neg hgo, ← hp₁, hv, Option.map_some, Outcome.after,
    List.nil_append, List.append_nil, lsText]

end Directory

/-- A fresh process that plays `ls` while no other process reads from a directory prints
the names from the common listing position on, a line each, up to the end of the directory
or to a name that is empty, and leaves the position at the start or behind that name. -/
theorem ls_prints_directory (tablePage : ℕ) (img : Image) (stack : ℕ → Stack) (k₀ k k' : State)
    (es fs : List UserEvent) (hb : State.Boot k₀)
    (hr : run (userStep tablePage img stack) (pagingInit tablePage k₀) es = some k) (p : Fin 6)
    (hlive : k.pid p = occupied) (fds : Fds) (hfresh : (k.pcbs p).fileDescriptor = initFds fds)
    (hdot : img.bootBlock.dirDentry.name = period) (htype : img.bootBlock.dirDentry.fileType = dirType)
    (hint : img.bootBlock.fileStat.dirEntryNum < 2 ^ 31) (start : ℕ)
    (hstart : start ≤ img.bootBlock.fileStat.dirEntryNum) (hindex : k.dev.directoryIndex = start - 1)
    (rounds : ℕ) (hrounds : img.bootBlock.fileStat.dirEntryNum < rounds) (buf : ℕ → UInt8)
    (hr' : run (userStep tablePage img stack) k fs = some k')
    (hgo : Along (userStep tablePage img stack) (GoesOn True tablePage img stack p) k fs)
    (left : Program)
    (hleft : (process tablePage img stack p).leftover (ls rounds buf) k fs = some left) :
    (process tablePage img stack p).shownAlong k fs <+: lsText img start ∧ left ≠ .spin ∧
      ∀ status, left = .exit status → status = 0 ∧
        (process tablePage img stack p).shownAlong k fs = lsText img start ∧
        k'.dev.directoryIndex = lsIndex img start := by
  obtain ⟨⟨o, ho, hprefix⟩, hspin, hexit⟩ := session_outcome hb hr hlive hr' hgo hleft
    (fun o => o.status = 0 ∧ o.shown = lsText img start ∧
      o.view.dev.directoryIndex = lsIndex img start) fun w hw => by
      obtain ⟨v, hdone, hv⟩ := ls_run (p := ⟨(k.pcbs p).fileDescriptor, k.dev⟩) hdot htype hint
        hstart hfresh hindex hrounds buf hw
      exact ⟨_, hv, rfl, rfl, hdone⟩
  refine ⟨ho.2.1 ▸ hprefix, hspin, fun status hs => ?_⟩
  obtain ⟨v, hv, hstatus, hshown, hdone⟩ := hexit status hs
  exact ⟨hstatus, hshown, (hv.directoryIndex trivial).symm.trans hdone⟩

/-- The first shell plays `ls`, and the other two start and print something meanwhile. -/
theorem ls_prints_directory_shells : ∃ k k', userRuns [tickEvent] = some k ∧
    run (userStep 0x500 shellImage fun _ => .zero) k [callEvent (.open (some period)),
      callEvent (.read 2 true 32 fun _ => 0), tickEvent, .video (.switch 1), printEvent (text "hi"),
      tickEvent, tickEvent, printEvent (text ".\n"), callEvent (.read 2 true 32 fun _ => 0),
      printEvent (text "shell\n"), callEvent (.read 2 true 32 fun _ => 0), tickEvent,
      printEvent (text "hi"), tickEvent, tickEvent, printEvent (text "exit\n"),
      callEvent (.read 2 true 32 fun _ => 0)] = some k' ∧
    k'.dev.directoryIndex = -1 := by
  set fs : List UserEvent := [callEvent (.open (some period)),
    callEvent (.read 2 true 32 fun _ => 0), tickEvent, .video (.switch 1), printEvent (text "hi"),
    tickEvent, tickEvent, printEvent (text ".\n"), callEvent (.read 2 true 32 fun _ => 0),
    printEvent (text "shell\n"), callEvent (.read 2 true 32 fun _ => 0), tickEvent,
    printEvent (text "hi"), tickEvent, tickEvent, printEvent (text "exit\n"),
    callEvent (.read 2 true 32 fun _ => 0)]
  obtain ⟨k, hr, hlive, hfresh, hindex, hgo, hleft, hrest⟩ := run_eval
    (userStep 0x500 shellImage fun _ => .zero) (pagingInit 0x500 .cleared) [tickEvent]
    (fun k => k.pid (0 : Fin 6) = occupied ∧
      (k.pcbs 0).fileDescriptor = initFds (fun _ => ⟨.stdinFops, 0, 0, 0⟩) ∧
      k.dev.directoryIndex = (0 : ℕ) - 1 ∧
      Along (userStep 0x500 shellImage fun _ => .zero)
        (GoesOn True 0x500 shellImage (fun _ => .zero) 0) k fs ∧
      ((process 0x500 shellImage (fun _ => .zero) 0).leftover (ls 4 fun _ => 0) k fs).bind
        Script.exited = some 0 ∧
      (run (userStep 0x500 shellImage fun _ => .zero) k fs).isSome = true) (by decide +kernel)
  obtain ⟨left, hleft, hexit⟩ := Option.bind_eq_some_iff.mp hleft
  obtain ⟨k', hr'⟩ := Option.isSome_iff_exists.mp hrest
  obtain ⟨-, -, hall⟩ := ls_prints_directory 0x500 shellImage _ .cleared k k' _ fs State.cleared_boot hr 0
    hlive _ hfresh (by decide) rfl (by decide) 0 (by decide) hindex 4 (by decide) _ hr' hgo left hleft
  refine ⟨k, k', hr, hr', (hall 0 (Script.exited_eq_some hexit)).2.2.trans ?_⟩
  decide

end Ece391.User
