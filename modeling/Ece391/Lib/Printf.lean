import Ece391.Lib.Numbers
import Ece391.Lib.Screen

/-! `printf` of `lib.c`. The format is walked with one pointer, which the loop, the switch
behind a percent sign and the jump back into that switch all advance. The console that
`putc` writes to may be anything. -/

namespace Ece391.Lib

open Function (update)

abbrev percentSign : UInt8 := 0x25
abbrev hashSign : UInt8 := 0x23
abbrev minusSign : UInt8 := 0x2D
abbrev zeroDigit : UInt8 := 0x30

/-- Where `printf` stands: the pointer into the format, the number of stack words it has
taken and the console. An observer notes the places of the format that have been read. -/
structure Printing (σ : Type*) where
  buf : ℕ
  esp : ℕ
  out : σ
  reads : List ℕ

/-- The return value of `printf`, with the console and the places read. -/
structure PrintfOut (σ : Type*) where
  ret : ℕ
  out : σ
  reads : List ℕ

section Printf
variable {σ : Type*}
-- `putc` on the console, memory, the stack words behind the format, what the conversion
-- buffer of each of them holds at first, and a bound on the rounds of every loop
variable (putc : σ → UInt8 → σ) (mem : ℕ → UInt8) (stack : ℕ → UInt32) (conv : ℕ → ℕ → UInt8)
  (bound : ℕ)

/-- The loop of `puts` from `index` on. -/
def putsFrom (s : ℕ → UInt8) : (rounds index : ℕ) → σ → Option σ
  | 0, _, _ => none
  | rounds + 1, index, out =>
    if s index = 0 then some out else putsFrom s rounds (index + 1) (putc out (s index))

/-- `itoa` into the conversion buffer from `&conv_buf[k]` on. -/
def itoaAt (k : ℕ) (value : UInt32) (convBuf : ℕ → UInt8) (radix : UInt32) : Option (ℕ → UInt8) :=
  (itoa value (fun i => convBuf (k + i)) radix).map fun buf i =>
    if k ≤ i then buf (i - k) else convBuf i

/-- The loop that fills the conversion buffer with zeros up to its eighth byte. -/
def padLoop : (rounds i : ℕ) → (ℕ → UInt8) → ℕ → UInt8
  | 0, _, convBuf => convBuf
  | rounds + 1, i, convBuf =>
    if i < 8 then padLoop rounds (i + 1) (update convBuf i zeroDigit) else convBuf

/-- The case `x`. -/
def printHex (alternate : Bool) (word : UInt32) (convBuf : ℕ → UInt8) (out : σ) : Option σ :=
  if alternate = false then
    (itoaAt 0 word convBuf 16).bind fun convBuf => putsFrom putc convBuf bound 0 out
  else
    (itoaAt 8 word convBuf 16).bind fun convBuf =>
      (strlenFrom (fun i => convBuf (8 + i)) bound 0).bind fun startingIndex =>
        putsFrom putc (fun i => padLoop 8 startingIndex convBuf (startingIndex + i)) bound 0 out

/-- The case `u`. -/
def printUnsigned (word : UInt32) (convBuf : ℕ → UInt8) (out : σ) : Option σ :=
  (itoaAt 0 word convBuf 10).bind fun convBuf => putsFrom putc convBuf bound 0 out

/-- The case `d`. -/
def printSigned (word : UInt32) (convBuf : ℕ → UInt8) (out : σ) : Option σ :=
  let value := word.toInt32
  (if value < 0 then itoaAt 1 (-value).toUInt32 (update convBuf 0 minusSign) 10
    else itoaAt 0 value.toUInt32 convBuf 10).bind fun convBuf => putsFrom putc convBuf bound 0 out

/-- The cases of the switch behind a percent sign other than `#`. -/
def convert (alternate : Bool) (c : UInt8) (p : Printing σ) : Option (Printing σ) :=
  let word := stack p.esp
  let taken (out : σ) : Printing σ := { p with out := out, esp := p.esp + 1 }
  if c = percentSign then some { p with out := putc p.out percentSign }
  else if c = 0x78 then (printHex putc bound alternate word (conv p.esp) p.out).map taken
  else if c = 0x75 then (printUnsigned putc bound word (conv p.esp) p.out).map taken
  else if c = 0x64 then (printSigned putc bound word (conv p.esp) p.out).map taken
  else if c = 0x63 then some (taken (putc p.out word.toUInt8))
  else if c = 0x73 then (putsFrom putc (fun i => mem (word.toNat + i)) bound 0 p.out).map taken
  else some p

/-- The byte under the pointer is read. -/
def Printing.look (p : Printing σ) : Printing σ := { p with reads := p.reads ++ [p.buf] }

def Printing.advance (p : Printing σ) : Printing σ := { p with buf := p.buf + 1 }

/-- The switch behind a percent sign, with the jump back to `format_char_switch`. -/
def formatCharSwitch : (rounds : ℕ) → (alternate : Bool) → Printing σ → Option (Printing σ)
  | 0, _, _ => none
  | rounds + 1, alternate, p =>
    if mem p.buf = hashSign then formatCharSwitch rounds true p.look.advance
    else convert putc mem stack conv bound alternate (mem p.buf) p.look

/-- The loop of `printf`. -/
def printfLoop : (rounds : ℕ) → Printing σ → Option (Printing σ)
  | 0, _ => none
  | rounds + 1, p =>
    if mem p.buf = 0 then some p.look
    else
      (if mem p.buf = percentSign then
        formatCharSwitch putc mem stack conv bound bound false p.look.advance
      else some { p.look with out := putc p.out (mem p.buf) }).bind fun p =>
        printfLoop rounds p.advance

/-- `printf` of the format at an address. -/
def printf (format : ℕ) (out : σ) : Option (PrintfOut σ) :=
  (printfLoop putc mem stack conv bound bound ⟨format, 0, out, []⟩).map fun p =>
    ⟨p.buf - format, p.out, p.reads⟩

end Printf

/-! ### What a format says -/

/-- How the next byte of a format is taken: as text, or as part of a conversion. -/
inductive Mode
  | text
  | conversion (alternate : Bool)
  deriving DecidableEq

/-- What there is to print. -/
inductive Piece
  | literal (b : UInt8)
  | hex | paddedHex | unsigned | signed | character | string
  deriving DecidableEq

def Mode.next : Mode → UInt8 → Mode
  | .text, c => if c = percentSign then .conversion false else .text
  | .conversion _, c => if c = hashSign then .conversion true else .text

/-- What a byte of the format asks for. -/
def Mode.piece : Mode → UInt8 → Option Piece
  | .text, c => if c = percentSign then none else some (.literal c)
  | .conversion alternate, c =>
    if c = percentSign then some (.literal percentSign)
    else if c = 0x78 then some (if alternate then .paddedHex else .hex)
    else if c = 0x75 then some .unsigned
    else if c = 0x64 then some .signed
    else if c = 0x63 then some .character
    else if c = 0x73 then some .string
    else none

def pieces : Mode → List UInt8 → List Piece
  | _, [] => []
  | m, c :: f => (m.piece c).toList ++ pieces (m.next c) f

/-- How the format is taken behind its last byte. -/
def modeAfter : Mode → List UInt8 → Mode := List.foldl Mode.next

/-- The format ends behind a percent sign that has not got its conversion yet. -/
def EndsInside (f : List UInt8) : Prop := modeAfter .text f ≠ .text

instance : DecidablePred EndsInside := fun _ => inferInstanceAs (Decidable (_ ≠ _))

/-- An argument: a word, or a pointer to a string. -/
inductive Arg
  | word (w : UInt32)
  | string (s : CString)

/-- The decimal of a signed number. -/
def signedNumeral (z : ℤ) : List UInt8 :=
  if z < 0 then minusSign :: numeral 10 z.natAbs else numeral 10 z.natAbs

/-- A hexadecimal numeral filled up with zeros to eight digits. -/
def paddedNumeral (v : ℕ) : List UInt8 :=
  List.replicate (8 - (numeral 16 v).length) zeroDigit ++ numeral 16 v

/-- The bytes of a piece, if it is for an argument of this kind. -/
def Piece.show : Piece → Arg → Option (List UInt8)
  | .hex, .word w => some (numeral 16 w.toNat)
  | .paddedHex, .word w => some (paddedNumeral w.toNat)
  | .unsigned, .word w => some (numeral 10 w.toNat)
  | .signed, .word w => some (signedNumeral w.toInt32.toInt)
  | .character, .word w => some [w.toUInt8]
  | .string, .string s => some s.bytes
  | _, _ => none

/-- The bytes of all pieces, if the arguments match them. -/
def render : List Piece → List Arg → Option (List UInt8)
  | [], _ => some []
  | .literal b :: ps, args => (render ps args).map (b :: ·)
  | _ :: _, [] => none
  | p :: ps, a :: args => (p.show a).bind fun l => (render ps args).map (l ++ ·)

/-- The arguments lie on the stack, and their strings in memory. -/
def OnStack (mem : ℕ → UInt8) (stack : ℕ → UInt32) : (esp : ℕ) → List Arg → Prop
  | _, [] => True
  | esp, .word w :: args => stack esp = w ∧ OnStack mem stack (esp + 1) args
  | esp, .string s :: args => Holds mem (stack esp).toNat s ∧ OnStack mem stack (esp + 1) args

/-- The bytes of a string argument. -/
def Arg.size : Arg → ℕ
  | .word _ => 0
  | .string s => s.bytes.length

/-! ### The conversions -/

section Conversions
variable {σ : Type*} {putc : σ → UInt8 → σ} {bound : ℕ}

/-- `puts` of a string that memory holds, from one of its bytes on. -/
theorem putsFrom_holds {s : ℕ → UInt8} {str : CString} (h : Holds s 0 str) {rounds i : ℕ} (out : σ)
    (hi : i ≤ str.bytes.length) (hrounds : str.bytes.length < i + rounds) :
    putsFrom putc s rounds i out = some ((str.bytes.drop i).foldl putc out) := by
  induction rounds generalizing i out with
  | zero => omega
  | succ rounds ih =>
    have hbyte : s i = str.mem i := by simpa using h i hi
    rw [putsFrom, hbyte]
    rcases Nat.lt_or_eq_of_le hi with hlt | rfl
    · rw [if_neg (CString.mem_ne_zero hlt), ih _ (by omega) (by omega),
        List.drop_eq_getElem_cons hlt, List.foldl_cons, CString.mem_lt hlt]
    · rw [if_pos str.mem_end, List.drop_length, List.foldl_nil]

/-- `puts` of bytes that have been stored with their terminator. -/
theorem putsFrom_stored {l : List UInt8} (hl : ∀ b ∈ l, b ≠ 0) (k : ℕ) (buf : ℕ → UInt8) (out : σ)
    (hbound : l.length < bound) :
    putsFrom putc (fun i => storeBytes k (l ++ [0]) buf (k + i)) bound 0 out =
      some (l.foldl putc out) := by
  have hholds : Holds (fun i => storeBytes k (l ++ [0]) buf (k + i)) 0 ⟨l, hl⟩ := by
    intro i hi
    simpa using holds_storeBytes k ⟨l, hl⟩ buf i hi
  simpa using putsFrom_holds hholds out (Nat.zero_le _) (by simpa using hbound)

theorem itoaAt_eq (k : ℕ) (value : UInt32) (convBuf : ℕ → UInt8) {radix : UInt32}
    (hlow : 2 ≤ radix.toNat) (hhigh : radix.toNat ≤ 36) :
    itoaAt k value convBuf radix =
      some (storeBytes k (numeral radix.toNat value.toNat ++ [0]) convBuf) := by
  rw [itoaAt, itoa_eq _ _ hlow hhigh, Option.map_some]
  congr 1
  funext i
  simp only [storeBytes, Nat.zero_le, if_true, Nat.sub_zero]
  split_ifs with h
  · rw [Nat.add_sub_cancel' h]
  · rfl

/-- Every word has a decimal of at most ten digits and eight hexadecimal ones. -/
theorem numeral_word_length (w : UInt32) :
    (numeral 10 w.toNat).length ≤ 10 ∧ (numeral 16 w.toNat).length ≤ 8 := by
  have hw := w.toNat_lt
  exact ⟨numeral_length_le (by decide) (by decide) (by omega),
    numeral_length_le (by decide) (by decide) (by omega)⟩

theorem printUnsigned_eq (hbound : 16 < bound) (w : UInt32) (convBuf : ℕ → UInt8) (out : σ) :
    printUnsigned putc bound w convBuf out = some ((numeral 10 w.toNat).foldl putc out) := by
  have hlen := (numeral_word_length w).1
  rw [printUnsigned, itoaAt_eq _ _ _ (by decide) (by decide), Option.bind_some]
  simpa using putsFrom_stored (numeral_noNul (show 2 ≤ 10 by decide) (by decide) w.toNat) 0 convBuf out
    (by omega)

/-- The magnitude of a signed word, for -2^31 as for the others. -/
theorem toNat_magnitude (value : Int32) :
    (if value < 0 then -value else value).toUInt32.toNat = value.toInt.natAbs := by
  have hneg : value < 0 ↔ value.toBitVec.toInt < 0 := Int32.lt_iff_toInt_lt
  show _ = value.toBitVec.toInt.natAbs
  split_ifs with h
  · rw [hneg, BitVec.toInt_eq_toNat_cond] at h
    show (-value.toBitVec).toNat = _
    rw [BitVec.toNat_neg, BitVec.toInt_eq_toNat_cond]
    split_ifs at h ⊢ <;> omega
  · rw [hneg, BitVec.toInt_eq_toNat_cond] at h
    show value.toBitVec.toNat = _
    rw [BitVec.toInt_eq_toNat_cond]
    split_ifs at h ⊢ <;> omega

theorem printSigned_eq (hbound : 16 < bound) (w : UInt32) (convBuf : ℕ → UInt8) (out : σ) :
    printSigned putc bound w convBuf out =
      some ((signedNumeral w.toInt32.toInt).foldl putc out) := by
  have hmagnitude := toNat_magnitude w.toInt32
  have hsign : w.toInt32 < 0 ↔ w.toInt32.toInt < 0 := Int32.lt_iff_toInt_lt
  have hnul := numeral_noNul (show 2 ≤ 10 by decide) (by decide) w.toInt32.toInt.natAbs
  rw [printSigned, signedNumeral]
  simp only [← hsign]
  split_ifs at hmagnitude ⊢ with h
  · have hlen := (numeral_word_length (-w.toInt32).toUInt32).1
    rw [hmagnitude] at hlen
    rw [itoaAt_eq _ _ _ (by decide) (by decide), Option.bind_some, hmagnitude]
    have hstored : storeBytes 1 (numeral 10 w.toInt32.toInt.natAbs ++ [0]) (update convBuf 0 minusSign) =
        storeBytes 0 ((minusSign :: numeral 10 w.toInt32.toInt.natAbs) ++ [0]) convBuf :=
      (storeBytes_cons 0 _ _ _).symm
    rw [show UInt32.toNat 10 = 10 from rfl, hstored]
    have hnul' : ∀ b ∈ minusSign :: numeral 10 w.toInt32.toInt.natAbs, b ≠ 0 :=
      List.forall_mem_cons.mpr ⟨by decide, hnul⟩
    simpa using putsFrom_stored hnul' 0 convBuf out (by simp; omega)
  · have hlen := (numeral_word_length w.toInt32.toUInt32).1
    rw [hmagnitude] at hlen
    rw [itoaAt_eq _ _ _ (by decide) (by decide), Option.bind_some, hmagnitude]
    simpa using putsFrom_stored hnul 0 convBuf out (by omega)

theorem padLoop_eq (rounds i : ℕ) (convBuf : ℕ → UInt8) (h : 8 ≤ i + rounds) :
    padLoop rounds i convBuf = storeBytes i (List.replicate (8 - i) zeroDigit) convBuf := by
  induction rounds generalizing i convBuf with
  | zero => rw [padLoop, show 8 - i = 0 by omega, List.replicate_zero, storeBytes_nil]
  | succ rounds ih =>
    rw [padLoop]
    split_ifs with hi
    · rw [ih _ _ (by omega), show 8 - i = 8 - (i + 1) + 1 by omega, List.replicate_succ, storeBytes_cons]
    · rw [show 8 - i = 0 by omega, List.replicate_zero, storeBytes_nil]

theorem paddedNumeral_length (w : UInt32) : (paddedNumeral w.toNat).length = 8 := by
  have := (numeral_word_length w).2
  simp only [paddedNumeral, List.length_append, List.length_replicate]
  omega

theorem paddedNumeral_noNul (v : ℕ) : ∀ b ∈ paddedNumeral v, b ≠ 0 := by
  intro b hb
  rcases List.mem_append.mp hb with hb | hb
  · rw [(List.mem_replicate.mp hb).2]
    decide
  · exact numeral_noNul (by decide) (by decide) v b hb

/-- The zeros in front of the eighth byte and the digits from it on make one string. -/
theorem printHex_eq (hbound : 16 < bound) (alternate : Bool) (w : UInt32) (convBuf : ℕ → UInt8)
    (out : σ) :
    printHex putc bound alternate w convBuf out =
      some ((if alternate then paddedNumeral w.toNat else numeral 16 w.toNat).foldl putc out) := by
  have hlen := (numeral_word_length w).2
  have hnul := numeral_noNul (show 2 ≤ 16 by decide) (by decide) w.toNat
  rw [printHex]
  simp only [itoaAt_eq _ _ _ (show 2 ≤ (16 : UInt32).toNat by decide) (by decide), Option.bind_some,
    show UInt32.toNat 16 = 16 from rfl]
  cases alternate with
  | false => simpa using putsFrom_stored hnul 0 convBuf out (by omega)
  | true =>
    have hholds : Holds (fun i => storeBytes 8 (numeral 16 w.toNat ++ [0]) convBuf (8 + i)) 0
        ⟨numeral 16 w.toNat, hnul⟩ := by
      intro i hi
      simpa using holds_storeBytes 8 ⟨numeral 16 w.toNat, hnul⟩ convBuf i hi
    have hstart : strlenFrom (fun i => storeBytes 8 (numeral 16 w.toNat ++ [0]) convBuf (8 + i))
        bound 0 = some (numeral 16 w.toNat).length :=
      strlenFrom_holds hholds (Nat.zero_le _) (by simp only; omega)
    have hstored : storeBytes (numeral 16 w.toNat).length
        (List.replicate (8 - (numeral 16 w.toNat).length) zeroDigit)
        (storeBytes 8 (numeral 16 w.toNat ++ [0]) convBuf) =
        storeBytes (numeral 16 w.toNat).length (paddedNumeral w.toNat ++ [0]) convBuf := by
      have happend := storeBytes_append (numeral 16 w.toNat).length
        (List.replicate (8 - (numeral 16 w.toNat).length) zeroDigit) (numeral 16 w.toNat ++ [0]) convBuf
      rw [List.length_replicate, Nat.add_sub_cancel' hlen] at happend
      rw [paddedNumeral, List.append_assoc, happend]
    simp only [Bool.true_eq_false, if_false, if_true, hstart, Option.bind_some,
      padLoop_eq 8 _ _ (Nat.le_add_left 8 _), hstored]
    exact putsFrom_stored (paddedNumeral_noNul _) _ convBuf out
      (by rw [paddedNumeral_length]; omega)

end Conversions

/-! ### The walk through the format -/

section Walk
variable {σ : Type*} {putc : σ → UInt8 → σ} {mem : ℕ → UInt8} {stack : ℕ → UInt32}
  {conv : ℕ → ℕ → UInt8} {bound : ℕ}

/-- The loop of `printf`, entered at its test or in the switch behind a percent sign. -/
def resume (putc : σ → UInt8 → σ) (mem : ℕ → UInt8) (stack : ℕ → UInt32) (conv : ℕ → ℕ → UInt8)
    (bound rounds steps : ℕ) : Mode → Printing σ → Option (Printing σ)
  | .text, p => printfLoop putc mem stack conv bound rounds p
  | .conversion alternate, p =>
    (formatCharSwitch putc mem stack conv bound steps alternate p).bind fun p =>
      printfLoop putc mem stack conv bound rounds p.advance

/-- What is left to print after a conversion, and the arguments for it. -/
def LeavesOff (putc : σ → UInt8 → σ) (mem : ℕ → UInt8) (stack : ℕ → UInt32) (bound : ℕ)
    (p p' : Printing σ) (ps : List Piece) (bytes : List UInt8) : Prop :=
  ∃ args head rest, p'.buf = p.buf ∧ p'.reads = p.reads ∧ p'.out = head.foldl putc p.out ∧
    bytes = head ++ rest ∧ render ps args = some rest ∧ OnStack mem stack p'.esp args ∧
    ∀ a ∈ args, a.size < bound

/-- A piece other than a literal takes the first argument. -/
theorem render_cons {k : Piece} (hk : ∀ b, k ≠ .literal b) {ps : List Piece} {args : List Arg}
    {bytes : List UInt8} (h : render (k :: ps) args = some bytes) :
    ∃ a args' l rest, args = a :: args' ∧ k.show a = some l ∧ render ps args' = some rest ∧
      bytes = l ++ rest := by
  cases args with
  | nil => cases k <;> first | exact absurd rfl (hk _) | cases h
  | cons a args =>
    have hbind : ((k.show a).bind fun l => (render ps args).map (l ++ ·)) = some bytes := by
      cases k <;> first | exact absurd rfl (hk _) | exact h
    obtain ⟨l, hl, hmap⟩ := Option.bind_eq_some_iff.mp hbind
    obtain ⟨rest, hrest, rfl⟩ := Option.map_eq_some_iff.mp hmap
    exact ⟨a, args, l, rest, rfl, hl, hrest, rfl⟩

section Convert
variable {p : Printing σ} {ps : List Piece} {args : List Arg} {bytes : List UInt8}

/-- A conversion that prints a word. -/
theorem leavesOff_word {k : Piece} (hk : ∀ b, k ≠ .literal b) (g : UInt32 → List UInt8)
    (hword : ∀ w, k.show (.word w) = some (g w)) (hstring : ∀ s, k.show (.string s) = none)
    (hr : render (k :: ps) args = some bytes) (hs : OnStack mem stack p.esp args)
    (hsize : ∀ a ∈ args, a.size < bound) :
    LeavesOff putc mem stack bound p
      { p with out := (g (stack p.esp)).foldl putc p.out, esp := p.esp + 1 } ps bytes := by
  obtain ⟨a, args', l, rest, rfl, hshow, hrest, rfl⟩ := render_cons hk hr
  cases a with
  | string s => rw [hstring] at hshow; cases hshow
  | word w =>
    obtain ⟨hw, hs⟩ := hs
    obtain rfl : g w = l := Option.some.inj ((hword w).symm.trans hshow)
    exact ⟨args', g w, rest, rfl, rfl, by rw [hw], rfl, hrest, hs,
      fun a ha => hsize a (List.mem_cons_of_mem _ ha)⟩

variable (putc conv) in
/-- Every conversion prints its piece. -/
theorem convert_leavesOff (hbound : 16 < bound) (alternate : Bool) (c : UInt8)
    (hr : render (((Mode.conversion alternate).piece c).toList ++ ps) args = some bytes)
    (hs : OnStack mem stack p.esp args) (hsize : ∀ a ∈ args, a.size < bound) :
    ∃ p', convert putc mem stack conv bound alternate c p = some p' ∧
      LeavesOff putc mem stack bound p p' ps bytes := by
  simp only [Mode.piece, convert] at hr ⊢
  split_ifs at hr ⊢ with hpercent hx halt hu hd hchar hstr
  · obtain ⟨rest, hrest, rfl⟩ := Option.map_eq_some_iff.mp hr
    exact ⟨_, rfl, args, [percentSign], rest, rfl, rfl, rfl, rfl, hrest, hs, hsize⟩
  · rw [printHex_eq hbound, if_pos halt]
    exact ⟨_, rfl, leavesOff_word (k := .paddedHex) (by nofun) (fun w => paddedNumeral w.toNat)
      (fun _ => rfl) (fun _ => rfl) hr hs hsize⟩
  · rw [printHex_eq hbound, if_neg halt]
    exact ⟨_, rfl, leavesOff_word (k := .hex) (by nofun) (fun w => numeral 16 w.toNat)
      (fun _ => rfl) (fun _ => rfl) hr hs hsize⟩
  · rw [printUnsigned_eq hbound]
    exact ⟨_, rfl, leavesOff_word (k := .unsigned) (by nofun) (fun w => numeral 10 w.toNat)
      (fun _ => rfl) (fun _ => rfl) hr hs hsize⟩
  · rw [printSigned_eq hbound]
    exact ⟨_, rfl, leavesOff_word (k := .signed) (by nofun) (fun w => signedNumeral w.toInt32.toInt)
      (fun _ => rfl) (fun _ => rfl) hr hs hsize⟩
  · exact ⟨_, rfl, leavesOff_word (k := .character) (by nofun) (fun w => [w.toUInt8])
      (fun _ => rfl) (fun _ => rfl) hr hs hsize⟩
  · obtain ⟨a, args', l, rest, rfl, hshow, hrest, rfl⟩ := render_cons (k := .string) (by nofun) hr
    cases a with
    | word w => cases hshow
    | string s =>
      obtain rfl := Option.some.inj hshow
      have hstart : Holds (fun i => mem ((stack p.esp).toNat + i)) 0 s := by
        intro i hi
        simpa using hs.1 i hi
      have hfits : s.bytes.length < bound := hsize (.string s) List.mem_cons_self
      rw [putsFrom_holds hstart p.out (Nat.zero_le _) (by omega)]
      exact ⟨_, rfl, args', s.bytes, rest, rfl, rfl, rfl, rfl, hrest, hs.2,
        fun a ha => hsize a (List.mem_cons_of_mem _ ha)⟩
  · exact ⟨p, rfl, args, [], bytes, rfl, rfl, rfl, rfl, hr, hs, hsize⟩

end Convert

section Step
variable {p : Printing σ} {c : UInt8} (rounds steps : ℕ) (hc : mem p.buf = c)
include hc

theorem resume_percent (h : c = percentSign) :
    resume putc mem stack conv bound (rounds + 1) steps .text p =
      resume putc mem stack conv bound rounds bound (.conversion false) p.look.advance := by
  rw [resume, printfLoop, hc, if_neg (by rw [h]; decide), if_pos h]
  rfl

theorem resume_literal (h0 : c ≠ 0) (h : c ≠ percentSign) :
    resume putc mem stack conv bound (rounds + 1) steps .text p =
      resume putc mem stack conv bound rounds steps .text
        { p.look with out := putc p.out c }.advance := by
  rw [resume, printfLoop, hc, if_neg h0, if_neg h]
  rfl

theorem resume_hash (alternate : Bool) (h : c = hashSign) :
    resume putc mem stack conv bound rounds (steps + 1) (.conversion alternate) p =
      resume putc mem stack conv bound rounds steps (.conversion true) p.look.advance := by
  rw [resume, formatCharSwitch, hc, if_pos h]
  rfl

theorem resume_convert (alternate : Bool) (h : c ≠ hashSign) :
    resume putc mem stack conv bound rounds (steps + 1) (.conversion alternate) p =
      (convert putc mem stack conv bound alternate c p.look).bind fun p =>
        resume putc mem stack conv bound rounds steps .text p.advance := by
  rw [resume, formatCharSwitch, hc, if_neg h]
  rfl

end Step

/-- The rest of a format lies behind its first byte. -/
theorem format_tail {buf : ℕ} {c : UInt8} {l : List UInt8}
    (hmem : ∀ i ≤ (c :: l).length, mem (buf + i) = (c :: l).getD i 0) :
    mem buf = c ∧ ∀ i ≤ l.length, mem (buf + 1 + i) = l.getD i 0 := by
  refine ⟨hmem 0 (Nat.zero_le _), fun i hi => ?_⟩
  have hnext := hmem (i + 1) (Nat.succ_le_succ hi)
  rwa [List.getD_cons_succ, show buf + (i + 1) = buf + 1 + i by omega] at hnext

/-- From `p` on `printf` came to an end: the console has got the bytes, and the pointer has
moved over `n` places of the format and looked at nothing behind them. -/
def EndsWith (putc : σ → UInt8 → σ) (r : Option (Printing σ)) (p : Printing σ) (bytes : List UInt8)
    (n : ℕ) : Prop :=
  ∃ p', r = some p' ∧ p'.out = bytes.foldl putc p.out ∧ p'.buf = p.buf + n ∧
    ∀ i ∈ p'.reads, i ∈ p.reads ∨ i ≤ p.buf + n

/-- One place of the format, and what it put on the console, in front of such an end. -/
theorem EndsWith.cons {r : Option (Printing σ)} {q : Printing σ} {rest : List UInt8} {n : ℕ}
    (h : EndsWith putc r q rest n) (p : Printing σ) (head : List UInt8) (hbuf : q.buf = p.buf + 1)
    (hreads : q.reads = p.reads ++ [p.buf]) (hout : q.out = head.foldl putc p.out) :
    EndsWith putc r p (head ++ rest) (n + 1) := by
  obtain ⟨p', hp', hout', hbuf', hreads'⟩ := h
  refine ⟨p', hp', ?_, ?_, fun i hi => ?_⟩
  · rw [hout', hout, List.foldl_append]
  · rw [hbuf', hbuf]
    omega
  · rcases hreads' i hi with hold | hnew
    · rw [hreads] at hold
      refine (List.mem_append.mp hold).imp_right fun hlast => ?_
      have := List.mem_singleton.mp hlast
      omega
    · exact .inr (by omega)

/-- A format whose conversions are complete is printed piece by piece, and the pointer comes
to rest on its terminator. -/
theorem resume_prints (hbound : 16 < bound) {l : List UInt8} (hl : ∀ b ∈ l, b ≠ 0)
    (hlbound : l.length < bound) (rounds steps : ℕ) (p : Printing σ) {m : Mode}
    (hm : modeAfter m l = .text) (hmem : ∀ i ≤ l.length, mem (p.buf + i) = l.getD i 0)
    {args : List Arg} {bytes : List UInt8} (hr : render (pieces m l) args = some bytes)
    (hs : OnStack mem stack p.esp args) (hsize : ∀ a ∈ args, a.size < bound)
    (hrounds : l.length < rounds) (hsteps : l.length < steps) :
    EndsWith putc (resume putc mem stack conv bound rounds steps m p) p bytes l.length := by
  induction l generalizing m p args bytes rounds steps with
  | nil =>
    obtain rfl : m = .text := hm
    obtain rfl : [] = bytes := Option.some.inj hr
    obtain ⟨rounds, rfl⟩ := Nat.exists_eq_succ_of_ne_zero (Nat.ne_zero_of_lt hrounds)
    have hnul : mem p.buf = 0 := hmem 0 le_rfl
    refine ⟨p.look, by rw [resume, printfLoop, if_pos hnul], rfl, rfl, fun r hr => ?_⟩
    exact (List.mem_append.mp hr).imp_right fun h => (List.mem_singleton.mp h).le
  | cons c l ih =>
    -- the rest lies behind the pointer, whatever the byte does to the console
    obtain ⟨hc, hrest⟩ := format_tail hmem
    have hc0 : c ≠ 0 := hl c List.mem_cons_self
    rw [List.length_cons] at hrounds hsteps hlbound ⊢
    have ih := ih (fun b hb => hl b (List.mem_cons_of_mem c hb)) (by omega)
    obtain ⟨rounds, rfl⟩ := Nat.exists_eq_succ_of_ne_zero (Nat.ne_zero_of_lt hrounds)
    obtain ⟨steps, rfl⟩ := Nat.exists_eq_succ_of_ne_zero (Nat.ne_zero_of_lt hsteps)
    cases m with
    | text =>
      by_cases h : c = percentSign
      · rw [resume_percent rounds _ hc h]
        have hm' : modeAfter (.conversion false) l = .text := by simpa [modeAfter, Mode.next, h] using hm
        have hr' : render (pieces (.conversion false) l) args = some bytes := by
          simpa [pieces, Mode.piece, Mode.next, h] using hr
        have hend := ih rounds bound p.look.advance hm' hrest hr' hs hsize (by omega) (by omega)
        exact hend.cons p [] rfl rfl rfl
      · rw [resume_literal rounds _ hc hc0 h]
        have hm' : modeAfter .text l = .text := by simpa [modeAfter, Mode.next, h] using hm
        have hliteral : render (.literal c :: pieces .text l) args = some bytes := by
          simpa [pieces, Mode.piece, Mode.next, h] using hr
        obtain ⟨rest, hr', rfl⟩ := Option.map_eq_some_iff.mp hliteral
        have hend := ih rounds (steps + 1) { p.look with out := putc p.out c }.advance hm' hrest hr' hs
          hsize (by omega) (by omega)
        exact hend.cons p [c] rfl rfl rfl
    | conversion alternate =>
      by_cases h : c = hashSign
      · rw [resume_hash _ steps hc alternate h]
        have hm' : modeAfter (.conversion true) l = .text := by simpa [modeAfter, Mode.next, h] using hm
        have hr' : render (pieces (.conversion true) l) args = some bytes := by
          subst h
          exact hr
        have hend := ih (rounds + 1) steps p.look.advance hm' hrest hr' hs hsize (by omega) (by omega)
        exact hend.cons p [] rfl rfl rfl
      · rw [resume_convert _ steps hc alternate h]
        have hm' : modeAfter .text l = .text := by simpa [modeAfter, Mode.next, h] using hm
        have hr' : render (((Mode.conversion alternate).piece c).toList ++ pieces .text l) args =
            some bytes := by simpa [pieces, Mode.next, h] using hr
        obtain ⟨q, hq, args', head, rest, hqbuf, hqreads, hqout, rfl, hr', hs', hsize'⟩ :=
          convert_leavesOff (p := p.look) putc conv hbound alternate c hr' hs hsize
        have hrest' : ∀ i ≤ l.length, mem (q.buf + 1 + i) = l.getD i 0 := hqbuf ▸ hrest
        have hqreads' : q.advance.reads = p.reads ++ [p.buf] := hqreads
        have hend := ih (rounds + 1) steps q.advance hm' hrest' hr' hs' hsize' (by omega) (by omega)
        rw [hq]
        exact hend.cons p head (congrArg (· + 1) hqbuf) hqreads' hqout

theorem convert_buf {alternate : Bool} {c : UInt8} {p p' : Printing σ}
    (h : convert putc mem stack conv bound alternate c p = some p') : p'.buf = p.buf := by
  simp only [convert] at h
  split_ifs at h
  · exact Option.some.inj h ▸ rfl
  · obtain ⟨out, -, rfl⟩ := Option.map_eq_some_iff.mp h
    rfl
  · obtain ⟨out, -, rfl⟩ := Option.map_eq_some_iff.mp h
    rfl
  · obtain ⟨out, -, rfl⟩ := Option.map_eq_some_iff.mp h
    rfl
  · exact Option.some.inj h ▸ rfl
  · obtain ⟨out, -, rfl⟩ := Option.map_eq_some_iff.mp h
    rfl
  · exact Option.some.inj h ▸ rfl

theorem formatCharSwitch_le {steps : ℕ} {alternate : Bool} {p p' : Printing σ}
    (h : formatCharSwitch putc mem stack conv bound steps alternate p = some p') : p.buf ≤ p'.buf := by
  induction steps generalizing alternate p with
  | zero => cases h
  | succ steps ih =>
    rw [formatCharSwitch] at h
    split_ifs at h
    · exact (Nat.le_succ _).trans (ih h)
    · exact (convert_buf h).ge

theorem printfLoop_le {rounds : ℕ} {p p' : Printing σ}
    (h : printfLoop putc mem stack conv bound rounds p = some p') : p.buf ≤ p'.buf := by
  induction rounds generalizing p with
  | zero => cases h
  | succ rounds ih =>
    rw [printfLoop] at h
    split_ifs at h with hnul hpercent
    · exact Option.some.inj h ▸ le_rfl
    · obtain ⟨q, hq, hrest⟩ := Option.bind_eq_some_iff.mp h
      have hfirst : p.buf + 1 ≤ q.buf := formatCharSwitch_le hq
      have hlater : q.buf + 1 ≤ p'.buf := ih hrest
      omega
    · have hlater : p.buf + 1 ≤ p'.buf := ih h
      omega

/-- A format that ends inside a conversion does not stop the pointer: it is advanced over
the terminator. -/
theorem resume_passes {l : List UInt8} (hl : ∀ b ∈ l, b ≠ 0) {m : Mode} (hm : modeAfter m l ≠ .text)
    {rounds steps : ℕ} {p p' : Printing σ}
    (h : resume putc mem stack conv bound rounds steps m p = some p')
    (hmem : ∀ i ≤ l.length, mem (p.buf + i) = l.getD i 0) : p.buf + l.length < p'.buf := by
  induction l generalizing m p rounds steps with
  | nil =>
    cases m with
    | text => exact absurd rfl hm
    | conversion alternate =>
      obtain ⟨q, hq, hrest⟩ := Option.bind_eq_some_iff.mp h
      have hfirst := formatCharSwitch_le hq
      have hlater : q.buf + 1 ≤ p'.buf := printfLoop_le hrest
      simp only [List.length_nil]
      omega
  | cons c l ih =>
    obtain ⟨hc, hrest⟩ := format_tail hmem
    have hc0 : c ≠ 0 := hl c List.mem_cons_self
    have hl' : ∀ b ∈ l, b ≠ 0 := fun b hb => hl b (List.mem_cons_of_mem c hb)
    suffices hnext : p.buf + 1 + l.length < p'.buf by
      rw [List.length_cons]
      omega
    cases m with
    | text =>
      obtain _ | rounds := rounds
      · cases h
      by_cases hpercent : c = percentSign
      · rw [resume_percent rounds _ hc hpercent] at h
        exact ih hl' (by simpa [modeAfter, Mode.next, hpercent] using hm) h hrest
      · rw [resume_literal rounds _ hc hc0 hpercent] at h
        exact ih hl' (by simpa [modeAfter, Mode.next, hpercent] using hm) h hrest
    | conversion alternate =>
      obtain _ | steps := steps
      · cases h
      by_cases hhash : c = hashSign
      · rw [resume_hash _ steps hc alternate hhash] at h
        exact ih hl' (by simpa [modeAfter, Mode.next, hhash] using hm) h hrest
      · rw [resume_convert _ steps hc alternate hhash] at h
        obtain ⟨q, hq, h⟩ := Option.bind_eq_some_iff.mp h
        have hbuf : q.buf = p.buf := (convert_buf hq).trans rfl
        have := ih hl' (by simpa [modeAfter, Mode.next, hhash] using hm) h
          (by simpa only [Printing.advance, hbuf] using hrest)
        simpa only [Printing.advance, hbuf] using this

end Walk

/-- What `printf` owes a format: with enough rounds it comes to an end, its return value is
the length of the format, the console has got the bytes of all pieces, and nothing behind the
terminator has been read. -/
def PrintsAll {σ : Type*} (putc : σ → UInt8 → σ) (mem : ℕ → UInt8) (stack : ℕ → UInt32)
    (conv : ℕ → ℕ → UInt8) (format : ℕ) (f : CString) (bytes : List UInt8) (out : σ) : Prop :=
  ∃ bound r, printf putc mem stack conv bound format out = some r ∧ r.ret = f.bytes.length ∧
    r.out = bytes.foldl putc out ∧ ∀ i ∈ r.reads, i ≤ format + f.bytes.length

theorem PrintsAll.complete {σ : Type*} {putc : σ → UInt8 → σ} {mem : ℕ → UInt8} {stack : ℕ → UInt32}
    {conv : ℕ → ℕ → UInt8} {format : ℕ} {f : CString} {bytes : List UInt8} {out : σ}
    (h : PrintsAll putc mem stack conv format f bytes out) (hf : Holds mem format f) :
    ¬ EndsInside f.bytes := by
  obtain ⟨bound, r, hprintf, hret, -, -⟩ := h
  intro hinside
  obtain ⟨p, hp, rfl⟩ := Option.map_eq_some_iff.mp hprintf
  have hresume : resume putc mem stack conv bound bound 0 .text ⟨format, 0, out, []⟩ = some p := hp
  have hpast := resume_passes f.noNul hinside hresume hf
  simp only at hret hpast
  omega

/-- A format that does not end inside a conversion is printed. -/
theorem prints_complete {σ : Type*} (putc : σ → UInt8 → σ) {mem : ℕ → UInt8} {stack : ℕ → UInt32}
    (conv : ℕ → ℕ → UInt8) {format : ℕ} {f : CString} {args : List Arg} {bytes : List UInt8} (out : σ)
    (hf : Holds mem format f) (hs : OnStack mem stack 0 args)
    (hr : render (pieces .text f.bytes) args = some bytes) (hcomplete : ¬ EndsInside f.bytes) :
    PrintsAll putc mem stack conv format f bytes out := by
  -- enough rounds for the format, a numeral and the longest string
  obtain ⟨bound, hlarge, hlong, hsize⟩ : ∃ bound, 16 < bound ∧ f.bytes.length < bound ∧
      ∀ a ∈ args, a.size < bound := by
    refine ⟨f.bytes.length + (args.map Arg.size).sum + 17, by omega, by omega, fun a ha => ?_⟩
    have := List.single_le_sum (fun _ _ => Nat.zero_le _) _ (List.mem_map_of_mem (f := Arg.size) ha)
    omega
  obtain ⟨p, hp, hout, hbuf, hreads⟩ := resume_prints hlarge f.noNul hlong bound bound
    ⟨format, 0, out, []⟩ (not_not.mp hcomplete) hf hr hs hsize hlong hlong
  have hloop : printfLoop putc mem stack conv bound bound ⟨format, 0, out, []⟩ = some p := hp
  refine ⟨bound, ⟨p.buf - format, p.out, p.reads⟩, by rw [printf, hloop]; rfl, ?_, hout, ?_⟩
  · simp only at hbuf ⊢
    omega
  · intro i hi
    exact (hreads i hi).resolve_left (List.not_mem_nil)

/-- Whatever the console, the memory behind the format and the stack: with arguments that
match the format `printf` prints it and stops at its terminator exactly when the format does
not end inside a conversion. -/
theorem printf_prints_iff {σ : Type*} (putc : σ → UInt8 → σ) (mem : ℕ → UInt8) (stack : ℕ → UInt32)
    (conv : ℕ → ℕ → UInt8) (format : ℕ) (f : CString) (args : List Arg) (bytes : List UInt8) (out : σ)
    (hf : Holds mem format f) (hs : OnStack mem stack 0 args)
    (hr : render (pieces .text f.bytes) args = some bytes) :
    PrintsAll putc mem stack conv format f bytes out ↔ ¬ EndsInside f.bytes :=
  ⟨fun h => h.complete hf, prints_complete putc conv out hf hs hr⟩

/-- The format "%d=%#x" with the argument -2^31 for both conversions. -/
def signedFormat : CString := ⟨text "%d=%#x", CString.noNul_of_all rfl⟩

theorem printf_prints_iff_signed :
    PrintsAll (fun (l : List UInt8) c => l ++ [c]) signedFormat.mem (fun _ => 0x80000000)
      (fun _ _ => 0) 0 signedFormat (text "-2147483648=80000000") [] :=
  (printf_prints_iff _ signedFormat.mem (fun _ => 0x80000000) (fun _ _ => 0) 0 signedFormat
    [.word 0x80000000, .word 0x80000000] _ [] (fun i _ => by rw [Nat.zero_add]) ⟨rfl, rfl, trivial⟩
    (by decide +kernel)).mpr (by decide)

/-- Memory with the format "%", its terminator, and an "A" behind it. -/
def percentMem : ℕ → UInt8 := bufMem [percentSign, 0, 0x41, 0]

def percentFormat : CString := ⟨[percentSign], CString.noNul_of_all rfl⟩

/-- The "A" is printed, and the return value is 3. -/
theorem printf_runs_past_format :
    (printf (fun (l : List UInt8) c => l ++ [c]) percentMem (fun _ => 0) (fun _ _ => 0) 5 0 []).map
      (fun r => (r.ret, r.out, r.reads)) = some (3, [0x41], [0, 1, 2, 3]) ∧
    ¬ ∀ (mem : ℕ → UInt8) (stack : ℕ → UInt32) (conv : ℕ → ℕ → UInt8) (format : ℕ) (f : CString)
        (args : List Arg) (bytes : List UInt8), Holds mem format f → OnStack mem stack 0 args →
        render (pieces .text f.bytes) args = some bytes →
        PrintsAll (fun (l : List UInt8) c => l ++ [c]) mem stack conv format f bytes [] := by
  refine ⟨by decide, fun h => ?_⟩
  have hholds : Holds percentMem 0 percentFormat := by
    intro i hi
    have : i < 2 := Nat.lt_succ_iff.mpr hi
    interval_cases i <;> rfl
  have hprints := h percentMem (fun _ => 0) (fun _ _ => 0) 0 percentFormat [] [] hholds trivial rfl
  exact hprints.complete hholds (by decide)

/-! ### Messages -/

/-- Without a percent sign every byte of a format is text. -/
theorem plain_pieces {l : List UInt8} (h : percentSign ∉ l) :
    modeAfter .text l = .text ∧ render (pieces .text l) [] = some l := by
  induction l with
  | nil => exact ⟨rfl, rfl⟩
  | cons c l ih =>
    obtain ⟨hc, hl⟩ := not_or.mp (mt List.mem_cons.mpr h)
    obtain ⟨hmode, hrender⟩ := ih hl
    have hnext : Mode.text.next c = .text := if_neg (Ne.symm hc)
    have hpiece : Mode.text.piece c = some (.literal c) := if_neg (Ne.symm hc)
    constructor
    · rw [modeAfter, List.foldl_cons, hnext]
      exact hmode
    · rw [pieces, hnext, hpiece, Option.toList_some, List.singleton_append, render, hrender]
      rfl

/-- The messages of the kernel: a format without a percent sign is printed as `puts` prints
it. -/
theorem printf_plain (t : Fin 3) (d : Display) (mem : ℕ → UInt8) (stack : ℕ → UInt32)
    (conv : ℕ → ℕ → UInt8) (format : ℕ) {f : CString} (hf : Holds mem format f)
    (h : percentSign ∉ f.bytes) :
    ∃ bound r, printf (putc t) mem stack conv bound format d = some r ∧ r.out = puts t d f.bytes := by
  obtain ⟨hmode, hrender⟩ := plain_pieces h
  obtain ⟨bound, r, hr, -, hout, -⟩ :=
    @prints_complete _ (putc t) mem stack conv format f [] _ d hf trivial hrender (not_not.mpr hmode)
  exact ⟨bound, r, hr, hout⟩

end Ece391.Lib
