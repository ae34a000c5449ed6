import Ece391.Lib.Strings
import Ece391.Support.Reversal

/-! `itoa` and `strrev` of `lib.c`, and their copies in the user library. The digits come
out of the division loop with the lowest first and are then reversed in place. -/

namespace Ece391.Lib

open Function (update)
open Support.Reversal

/-- `strlen` on memory, from index `len` on; `none` if no terminator comes within `fuel`
bytes. -/
def strlenFrom (s : ℕ → UInt8) : (fuel len : ℕ) → Option ℕ
  | 0, _ => none
  | fuel + 1, len => if s len = 0 then some len else strlenFrom s fuel (len + 1)

/-- `strrev`. -/
def strrev (fuel : ℕ) (s : ℕ → UInt8) : Option (ℕ → UInt8) :=
  (strlenFrom s fuel 0).map fun len : ℕ => walk len s 0 ((len : ℤ) - 1)

/-- `lookup`. -/
def lookupDigits : List UInt8 :=
  [0x30, 0x31, 0x32, 0x33, 0x34, 0x35, 0x36, 0x37, 0x38, 0x39, 0x41, 0x42, 0x43, 0x44, 0x45, 0x46,
    0x47, 0x48, 0x49, 0x4A, 0x4B, 0x4C, 0x4D, 0x4E, 0x4F, 0x50, 0x51, 0x52, 0x53, 0x54, 0x55, 0x56,
    0x57, 0x58, 0x59, 0x5A]

/-- The division loop of `itoa`, which stores at `newbuf`: where `newbuf` ends up, and the
buffer. A radix of 0 traps, and `none` is also a loop that does not end within `fuel`
rounds. -/
def itoaLoop (radix : UInt32) : (fuel : ℕ) → (newval : UInt32) → (newbuf : ℕ) → (buf : ℕ → UInt8) →
    Option (ℕ × (ℕ → UInt8))
  | 0, _, _, _ => none
  | fuel + 1, newval, newbuf, buf =>
    if 0 < newval then
      if radix = 0 then none
      else itoaLoop radix fuel (newval / radix) (newbuf + 1)
        (update buf newbuf (lookupDigits.getD (newval % radix).toNat 0))
    else some (newbuf, buf)

/-- The body of the two `itoa`, with what each calls to reverse its string. The radix is
taken as the unsigned word that the division makes of it, and a word has at most 32 digits
in a radix from 2 on. -/
def itoaBy (reverse : (fuel : ℕ) → (ℕ → UInt8) → Option (ℕ → UInt8)) (value : UInt32)
    (buf : ℕ → UInt8) (radix : UInt32) : Option (ℕ → UInt8) :=
  if value = 0 then some (update (update buf 0 0x30) 1 0)
  else (itoaLoop radix 33 value 0 buf).bind fun (newbuf, buf) => reverse 33 (update buf newbuf 0)

/-- `itoa`: the buffer from `buf` on. -/
def itoa : (value : UInt32) → (buf : ℕ → UInt8) → (radix : UInt32) → Option (ℕ → UInt8) :=
  itoaBy strrev

/-! ### The user library -/

/-- `ece391_strlen`, whose pointer moves along with the count. -/
def ece391StrlenFrom (mem : ℕ → UInt8) : (fuel s len : ℕ) → Option ℕ
  | 0, _, _ => none
  | fuel + 1, s, len => if mem s = 0 then some len else ece391StrlenFrom mem fuel (s + 1) (len + 1)

/-- `ece391_strrev`, which returns at once from a string of at most one byte. -/
def ece391Strrev (fuel : ℕ) (s : ℕ → UInt8) : Option (ℕ → UInt8) :=
  (ece391StrlenFrom s fuel 0 0).map fun len : ℕ =>
    if (len : ℤ) - 1 ≤ 0 then s else walk len s 0 ((len : ℤ) - 1)

/-- `ece391_itoa`. -/
def ece391Itoa : (value : UInt32) → (buf : ℕ → UInt8) → (radix : UInt32) → Option (ℕ → UInt8) :=
  itoaBy ece391Strrev

/-- The pointer and the count move together. -/
theorem ece391StrlenFrom_eq (mem : ℕ → UInt8) (p fuel len : ℕ) :
    ece391StrlenFrom mem fuel (p + len) len = strlenFrom (fun i => mem (p + i)) fuel len := by
  induction fuel generalizing len with
  | zero => rfl
  | succ fuel ih => rw [ece391StrlenFrom, strlenFrom, Nat.add_assoc, ih]

/-- The early return of the user library changes nothing. -/
theorem ece391Strrev_eq : ece391Strrev = strrev := by
  funext fuel s
  have hlen : ece391StrlenFrom s fuel 0 0 = strlenFrom s fuel 0 := by
    simpa using ece391StrlenFrom_eq s 0 fuel 0
  rw [ece391Strrev, strrev, hlen]
  congr 1
  funext len
  split_ifs with h
  · rw [walk_eq_mirror len s le_rfl (by omega), mirror_short h]
  · rfl

/-! ### Strings in memory -/

/-- The memory holds a string from address `p` on, terminator included. -/
def Holds (mem : ℕ → UInt8) (p : ℕ) (s : CString) : Prop :=
  ∀ i ≤ s.bytes.length, mem (p + i) = s.mem i

/-- Bytes stored from index `p` on. -/
def storeBytes (p : ℕ) (l : List UInt8) (buf : ℕ → UInt8) : ℕ → UInt8 :=
  fun i => if p ≤ i then l.getD (i - p) (buf i) else buf i

theorem storeBytes_nil (p : ℕ) (buf : ℕ → UInt8) : storeBytes p [] buf = buf := by
  funext i
  simp [storeBytes]

/-- The bytes in the order in which a loop stores them. -/
theorem storeBytes_cons (p : ℕ) (b : UInt8) (l : List UInt8) (buf : ℕ → UInt8) :
    storeBytes p (b :: l) buf = storeBytes (p + 1) l (update buf p b) := by
  funext i
  simp only [storeBytes]
  rcases Nat.lt_trichotomy i p with h | rfl | h
  · rw [if_neg (by omega), if_neg (by omega), Function.update_of_ne (by omega)]
  · simp
  · rw [if_pos (by omega), if_pos (by omega), Function.update_of_ne (by omega),
      show i - p = i - (p + 1) + 1 by omega, List.getD_cons_succ]

theorem storeBytes_append (p : ℕ) (l l' : List UInt8) (buf : ℕ → UInt8) :
    storeBytes p l (storeBytes (p + l.length) l' buf) = storeBytes p (l ++ l') buf := by
  funext i
  simp only [storeBytes]
  split_ifs with h h'
  · rw [List.getD_append_right _ _ _ _ (by omega), List.getD_eq_default _ _ (by omega),
      show i - (p + l.length) = i - p - l.length by omega]
  · rw [List.getD_append _ _ _ _ (by omega), List.getD_eq_getElem _ _ (by omega)]
  · omega
  · rfl

theorem storeBytes_snoc (p : ℕ) (l : List UInt8) (b : UInt8) (buf : ℕ → UInt8) :
    storeBytes p (l ++ [b]) buf = update (storeBytes p l buf) (p + l.length) b := by
  induction l generalizing p buf with
  | nil => rw [List.nil_append, storeBytes_cons, storeBytes_nil, storeBytes_nil]; rfl
  | cons c l ih =>
    rw [List.cons_append, storeBytes_cons, ih, storeBytes_cons, List.length_cons,
      show p + 1 + l.length = p + (l.length + 1) by omega]

theorem storeBytes_get {p i : ℕ} {l : List UInt8} (buf : ℕ → UInt8) (h : i < l.length) :
    storeBytes p l buf (p + i) = l[i] := by
  rw [storeBytes, if_pos (Nat.le_add_right p i), Nat.add_sub_cancel_left, List.getD_eq_getElem]

/-- Nothing is stored behind the last byte. -/
theorem storeBytes_beyond {p i : ℕ} {l : List UInt8} (buf : ℕ → UInt8) (h : p + l.length ≤ i) :
    storeBytes p l buf i = buf i := by
  rw [storeBytes, if_pos (by omega), List.getD_eq_default _ _ (by omega)]

theorem CString.mem_lt {s : CString} {i : ℕ} (h : i < s.bytes.length) : s.mem i = s.bytes[i] :=
  List.getD_eq_getElem _ _ h

theorem CString.mem_end (s : CString) : s.mem s.bytes.length = 0 :=
  List.getD_eq_default _ _ le_rfl

theorem CString.mem_ne_zero {s : CString} {i : ℕ} (h : i < s.bytes.length) : s.mem i ≠ 0 := by
  rw [CString.mem_lt h]
  exact s.noNul _ (List.getElem_mem h)

theorem holds_storeBytes (p : ℕ) (s : CString) (buf : ℕ → UInt8) :
    Holds (storeBytes p (s.bytes ++ [0]) buf) p s := by
  intro i hi
  rw [storeBytes_get buf (by simp; omega)]
  rcases Nat.lt_or_eq_of_le hi with h | rfl
  · rw [List.getElem_append_left h, CString.mem_lt h]
  · simp [CString.mem_end]

/-- `strlen` finds the terminator of a string that the memory holds. -/
theorem strlenFrom_holds {mem : ℕ → UInt8} {s : CString} (h : Holds mem 0 s) {fuel i : ℕ}
    (hi : i ≤ s.bytes.length) (hfuel : s.bytes.length < i + fuel) :
    strlenFrom mem fuel i = some s.bytes.length := by
  induction fuel generalizing i with
  | zero => omega
  | succ fuel ih =>
    have hbyte : mem i = s.mem i := by simpa using h i hi
    rw [strlenFrom, hbyte]
    rcases Nat.lt_or_eq_of_le hi with hlt | rfl
    · rw [if_neg (CString.mem_ne_zero hlt), ih (by omega) (by omega)]
    · rw [if_pos s.mem_end]

/-- `strrev` turns the bytes around and leaves all others. -/
theorem strrev_storeBytes {l : List UInt8} (hl : ∀ b ∈ l, b ≠ 0) (buf : ℕ → UInt8) {fuel : ℕ}
    (hfuel : l.length < fuel) :
    strrev fuel (storeBytes 0 (l ++ [0]) buf) = some (storeBytes 0 (l.reverse ++ [0]) buf) := by
  have hlen : strlenFrom (storeBytes 0 (l ++ [0]) buf) fuel 0 = some l.length :=
    strlenFrom_holds (holds_storeBytes 0 ⟨l, hl⟩ buf) (Nat.zero_le _) (by simpa using hfuel)
  rw [strrev, hlen, Option.map_some, walk_eq_mirror _ _ le_rfl (by omega)]
  congr 1
  funext i
  by_cases hi : i < l.length
  · have hback : l.length - 1 - i < l.length := by omega
    have hplace : (0 + ((l.length : ℤ) - 1) - i).toNat = l.length - 1 - i := by omega
    rw [mirror, if_pos (by omega), hplace]
    simp [storeBytes, List.getElem?_append_left, hi, hback]
  · rw [mirror, if_neg (by omega)]
    rcases Nat.lt_or_ge l.length i with h | h
    · rw [storeBytes_beyond _ (by simp; omega), storeBytes_beyond _ (by simp; omega)]
    · obtain rfl : i = l.length := by omega
      simp [storeBytes]

/-! ### Numerals -/

/-- What a digit stands for. -/
def digitValue (c : UInt8) : ℕ := if c ≤ 0x39 then c.toNat - 0x30 else c.toNat - 0x37

/-- A decimal digit or a capital letter that is a digit of the radix. -/
def IsDigit (radix : ℕ) (c : UInt8) : Prop :=
  (0x30 ≤ c ∧ c ≤ 0x39 ∨ 0x41 ≤ c ∧ c ≤ 0x5A) ∧ digitValue c < radix

/-- The number that digits stand for, the highest first. -/
def numeralValue (radix : ℕ) (s : List UInt8) : ℕ :=
  s.foldl (fun n c => n * radix + digitValue c) 0

/-- The digits of a number; only the number 0 has a leading zero. -/
structure IsNumeral (radix v : ℕ) (s : List UInt8) : Prop where
  nonempty : s ≠ []
  digits : ∀ c ∈ s, IsDigit radix c
  leading : s.head? = some 0x30 → s = [0x30]
  value : numeralValue radix s = v

/-- The numeral of a number. -/
def numeral (radix v : ℕ) : List UInt8 :=
  if v = 0 then [0x30] else ((Nat.digits radix v).map (lookupDigits.getD · 0)).reverse

section Digits
variable {radix v d : ℕ}

theorem lookupDigits_digit (hd : d < 36) :
    (0x30 ≤ lookupDigits.getD d 0 ∧ lookupDigits.getD d 0 ≤ 0x39 ∨
      0x41 ≤ lookupDigits.getD d 0 ∧ lookupDigits.getD d 0 ≤ 0x5A) ∧
    digitValue (lookupDigits.getD d 0) = d := by
  revert d
  decide

theorem lookupDigits_zero (hd : d < 36) : lookupDigits.getD d 0 = 0x30 ↔ d = 0 := by
  revert d
  decide

/-- Reading the digits from the highest down is the value of the digits from the lowest up. -/
theorem numeralValue_reverse {L : List ℕ} (hL : ∀ d ∈ L, d < 36) :
    numeralValue radix (L.map (lookupDigits.getD · 0)).reverse = Nat.ofDigits radix L := by
  rw [numeralValue, List.foldl_reverse, List.foldr_map]
  induction L with
  | nil => rfl
  | cons d L ih =>
    have hd := (lookupDigits_digit (hL d List.mem_cons_self)).2
    have ih := ih fun d hd => hL d (List.mem_cons_of_mem _ hd)
    rw [List.foldr_cons, ih, hd, Nat.ofDigits_cons]
    ring

theorem isNumeral_numeral (hlow : 2 ≤ radix) (hhigh : radix ≤ 36) (v : ℕ) :
    IsNumeral radix v (numeral radix v) := by
  unfold numeral
  split_ifs with hv
  · subst hv
    refine ⟨by simp, fun c hc => ?_, fun _ => rfl, by simp [numeralValue, digitValue]⟩
    obtain rfl := List.mem_singleton.mp hc
    exact ⟨by decide, by simp [digitValue]; omega⟩
  · have hlt : ∀ d ∈ Nat.digits radix v, d < radix := fun d hd => Nat.digits_lt_base hlow hd
    have hne : Nat.digits radix v ≠ [] := Nat.digits_ne_nil_iff_ne_zero.mpr hv
    refine ⟨by simpa using hne, fun c hc => ?_, fun hhead => ?_, ?_⟩
    · obtain ⟨d, hd, rfl⟩ := List.mem_map.mp (List.mem_reverse.mp hc)
      have hdigit := lookupDigits_digit ((hlt d hd).trans_le hhigh)
      exact ⟨hdigit.1, hdigit.2.symm ▸ hlt d hd⟩
    · -- the highest digit is not zero
      have hlast := Nat.getLast_digit_ne_zero radix hv
      rw [List.head?_reverse, List.getLast?_map, List.getLast?_eq_getLast_of_ne_nil hne,
        Option.map_some, Option.some.injEq,
        lookupDigits_zero ((hlt _ (List.getLast_mem hne)).trans_le hhigh)] at hhead
      exact absurd hhead hlast
    · rw [numeralValue_reverse fun d hd => (hlt d hd).trans_le hhigh, Nat.ofDigits_digits]

theorem numeral_noNul (hlow : 2 ≤ radix) (hhigh : radix ≤ 36) (v : ℕ) :
    ∀ c ∈ numeral radix v, c ≠ 0 := by
  rintro c hc rfl
  have := ((isNumeral_numeral hlow hhigh v).digits 0 hc).1
  exact absurd this (by decide)

theorem numeral_length_le (hlow : 2 ≤ radix) {k : ℕ} (hk : 0 < k) (hv : v < radix ^ k) :
    (numeral radix v).length ≤ k := by
  unfold numeral
  split_ifs
  · exact hk
  · simpa using (Nat.digits_length_le_iff hlow v).mpr hv

end Digits

/-! ### The conversion -/

/-- The division loop stores the digits with the lowest first. -/
theorem itoaLoop_eq {radix : UInt32} (hlow : 2 ≤ radix.toNat) (fuel : ℕ) (newval : UInt32) (newbuf : ℕ)
    (buf : ℕ → UInt8) (hfuel : (Nat.digits radix.toNat newval.toNat).length < fuel) :
    itoaLoop radix fuel newval newbuf buf =
      some (newbuf + (Nat.digits radix.toNat newval.toNat).length,
        storeBytes newbuf ((Nat.digits radix.toNat newval.toNat).map (lookupDigits.getD · 0)) buf) := by
  induction fuel generalizing newval newbuf buf with
  | zero => omega
  | succ fuel ih =>
    rw [itoaLoop]
    split_ifs with hpos hzero
    · rw [hzero] at hlow
      exact absurd hlow (by decide)
    · have hdigits : Nat.digits radix.toNat newval.toNat = (newval % radix).toNat ::
          Nat.digits radix.toNat (newval / radix).toNat := by
        rw [Nat.digits_def' hlow (UInt32.lt_iff_toNat_lt.mp hpos), UInt32.toNat_mod, UInt32.toNat_div]
      rw [hdigits, List.length_cons] at hfuel
      rw [ih _ _ _ (by omega), hdigits, List.map_cons, storeBytes_cons, List.length_cons,
        show newbuf + 1 + (Nat.digits radix.toNat (newval / radix).toNat).length =
          newbuf + ((Nat.digits radix.toNat (newval / radix).toNat).length + 1) by omega]
    · obtain rfl : newval = 0 := by
        rw [← UInt32.toNat_inj]
        have := UInt32.lt_iff_toNat_lt.not.mp hpos
        simpa using this
      simp [storeBytes_nil]

/-- `itoa` leaves the numeral in the buffer. -/
theorem itoa_eq (value : UInt32) (buf : ℕ → UInt8) {radix : UInt32} (hlow : 2 ≤ radix.toNat)
    (hhigh : radix.toNat ≤ 36) :
    itoa value buf radix = some (storeBytes 0 (numeral radix.toNat value.toNat ++ [0]) buf) := by
  rw [itoa, itoaBy]
  split_ifs with hv
  · subst hv
    simp [numeral, storeBytes_cons, storeBytes_nil]
  · have hne : value.toNat ≠ 0 := fun h => hv (UInt32.toNat_inj.mp h)
    set L := (Nat.digits radix.toNat value.toNat).map (lookupDigits.getD · 0) with hL
    have hnumeral : numeral radix.toNat value.toNat = L.reverse := by rw [numeral, if_neg hne]
    have hsize : value.toNat < radix.toNat ^ 32 :=
      value.toNat_lt.trans_le (Nat.pow_le_pow_left hlow 32)
    have hlen : L.length ≤ 32 := by
      rw [← List.length_reverse, ← hnumeral]
      exact numeral_length_le hlow (by decide) hsize
    have hnul : ∀ c ∈ L, c ≠ 0 := by
      intro c hc
      apply numeral_noNul hlow hhigh value.toNat
      rwa [hnumeral, List.mem_reverse]
    rw [itoaLoop_eq hlow _ _ _ _ (by rw [hL, List.length_map] at hlen; omega), Option.bind_some]
    have hend : update (storeBytes 0 L buf) (0 + (Nat.digits radix.toNat value.toNat).length) 0 =
        storeBytes 0 (L ++ [0]) buf := by
      rw [storeBytes_snoc, hL, List.length_map]
    show strrev 33 (update (storeBytes 0 L buf) (0 + (Nat.digits radix.toNat value.toNat).length) 0) = _
    rw [hend, strrev_storeBytes hnul buf (by omega), hnumeral]

/-- In every radix from 2 to 36 both `itoa` leave the numeral of the value in the buffer,
NUL-terminated and within 33 bytes, and touch nothing behind it. -/
theorem itoa_writes_numeral (value radix : UInt32) (buf : ℕ → UInt8) (hlow : 2 ≤ radix.toNat)
    (hhigh : radix.toNat ≤ 36) :
    ∃ (out : ℕ → UInt8) (s : CString), itoa value buf radix = some out ∧
      ece391Itoa value buf radix = some out ∧ Holds out 0 s ∧
      IsNumeral radix.toNat value.toNat s.bytes ∧ s.bytes.length < 33 ∧
      ∀ i, s.bytes.length < i → out i = buf i := by
  have hsize : value.toNat < radix.toNat ^ 32 :=
    value.toNat_lt.trans_le (Nat.pow_le_pow_left hlow 32)
  have hlen := numeral_length_le hlow (by decide) hsize
  refine ⟨_, ⟨numeral radix.toNat value.toNat, numeral_noNul hlow hhigh _⟩,
    itoa_eq value buf hlow hhigh, ?_, holds_storeBytes 0 _ buf, isNumeral_numeral hlow hhigh _,
    by simp only; omega, fun i hi => storeBytes_beyond _ (by simp at hi ⊢; omega)⟩
  rw [ece391Itoa, ece391Strrev_eq]
  exact itoa_eq value buf hlow hhigh

/-- The largest word in the smallest radix, which takes all 33 bytes. -/
theorem itoa_writes_numeral_binary :
    ∃ (out : ℕ → UInt8) (s : CString), itoa 0xFFFFFFFF (fun _ => 0) 2 = some out ∧ Holds out 0 s ∧
      IsNumeral 2 0xFFFFFFFF s.bytes := by
  obtain ⟨out, s, hout, -, hholds, hnumeral, -⟩ :=
    itoa_writes_numeral 0xFFFFFFFF 2 (fun _ => 0) (by decide) (by decide)
  exact ⟨out, s, hout, hholds, hnumeral⟩

end Ece391.Lib
