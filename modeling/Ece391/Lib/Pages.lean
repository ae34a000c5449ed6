import Ece391.Lib.Screen

/-! What the screen operations do to one 4 KB page. A store is confined to a range
of addresses, and two pages at different places that hold the same bytes still do
after the same operation on both. Every result is about a cursor inside the screen. -/

namespace Ece391.Lib

open Function (update)

abbrev kb4 : ℕ := 0x1000

/-- Bytes outside a set of addresses are the same. -/
def Confined (S : Set ℕ) (mem mem' : ℕ → UInt8) : Prop := ∀ a ∉ S, mem' a = mem a

/-- The addresses of `size` bytes from `base` on. -/
def window (base size : ℕ) : Set ℕ := Set.Ico base (base + size)

/-- The two bytes of each of a list of cells. -/
def cellBytes (cells : List ℕ) : Set ℕ := {a | ∃ p ∈ cells, a = p ∨ a = p + 1}

/-- The cells lie in the 4000 bytes of the screen at `base`. -/
def CellsIn (base : ℕ) (cells : List ℕ) : Prop := ∀ p ∈ cells, base ≤ p ∧ p + 1 < base + 4000

/-- The pages at `b` and at `b'` hold the same bytes. -/
def SamePage (b b' : ℕ) (mem mem' : ℕ → UInt8) : Prop :=
  ∀ o < kb4, mem (b + o) = mem' (b' + o)

theorem Confined.refl (S : Set ℕ) (mem : ℕ → UInt8) : Confined S mem mem := fun _ _ => rfl

theorem Confined.trans {S : Set ℕ} {m₁ m₂ m₃ : ℕ → UInt8} (h₁ : Confined S m₁ m₂)
    (h₂ : Confined S m₂ m₃) : Confined S m₁ m₃ :=
  fun a ha => (h₂ a ha).trans (h₁ a ha)

theorem Confined.mono {S T : Set ℕ} {mem mem' : ℕ → UInt8} (h : Confined S mem mem') (hST : S ⊆ T) :
    Confined T mem mem' :=
  fun a ha => h a fun hS => ha (hST hS)

/-- A loop of confined stores is confined. -/
theorem Confined.foldl {α : Type*} {S : Set ℕ} {f : (ℕ → UInt8) → α → ℕ → UInt8} {l : List α}
    (h : ∀ i ∈ l, ∀ mem, Confined S mem (f mem i)) (mem : ℕ → UInt8) :
    Confined S mem (l.foldl f mem) := by
  induction l generalizing mem with
  | nil => exact Confined.refl S mem
  | cons i l ih =>
    apply Confined.trans (h i List.mem_cons_self mem)
    exact ih (fun j hj => h j (List.mem_cons_of_mem i hj)) (f mem i)

/-- A page away from the stores keeps its bytes. -/
theorem Confined.samePage {base size b : ℕ} {mem mem' : ℕ → UInt8}
    (h : Confined (window base size) mem mem') (hb : b + kb4 ≤ base ∨ base + size ≤ b) :
    SamePage b b mem' mem := by
  intro o ho
  apply h
  rw [window, Set.mem_Ico]
  omega

theorem CellsIn.bytes {base : ℕ} {cells : List ℕ} (h : CellsIn base cells) :
    cellBytes cells ⊆ window base 4000 := by
  rintro a ⟨p, hp, ha⟩
  have := h p hp
  rw [window, Set.mem_Ico]
  omega

theorem SamePage.trans {b₁ b₂ b₃ : ℕ} {m₁ m₂ m₃ : ℕ → UInt8} (h₁ : SamePage b₁ b₂ m₁ m₂)
    (h₂ : SamePage b₂ b₃ m₂ m₃) : SamePage b₁ b₃ m₁ m₃ :=
  fun o ho => (h₁ o ho).trans (h₂ o ho)

theorem setCell_confined {cells : List ℕ} {p : ℕ} (hp : p ∈ cells) (mem : ℕ → UInt8) (c : UInt8) :
    Confined (cellBytes cells) mem (setCell mem p c) := by
  intro a ha
  rw [setCell, Function.update_of_ne, Function.update_of_ne]
  · exact fun h => ha ⟨p, hp, .inl h⟩
  · exact fun h => ha ⟨p, hp, .inr h⟩

theorem SamePage.setCell {b b' : ℕ} {mem mem' : ℕ → UInt8} (h : SamePage b b' mem mem') (a : ℕ)
    (c : UInt8) : SamePage b b' (setCell mem (b + a) c) (setCell mem' (b' + a) c) := by
  intro o ho
  have hmem := h o ho
  simp only [Lib.setCell, Function.update_apply, Nat.add_assoc, Nat.add_left_cancel_iff, hmem]

/-- The same loop on both pages. -/
theorem SamePage.foldl {α : Type*} {b b' : ℕ} {f g : (ℕ → UInt8) → α → ℕ → UInt8} {l : List α}
    (h : ∀ i ∈ l, ∀ m m', SamePage b b' m m' → SamePage b b' (f m i) (g m' i))
    {mem mem' : ℕ → UInt8} (hm : SamePage b b' mem mem') :
    SamePage b b' (l.foldl f mem) (l.foldl g mem') :=
  List.foldl_rel hm h

/-- The cells that `clear` fills. -/
def clearCells : List ℕ := (List.range (numRows * numCols)).map fun i => videoMem + i * 2

theorem clearCells_in : CellsIn videoMem clearCells := by
  intro p hp
  obtain ⟨i, hi, rfl⟩ := List.mem_map.mp hp
  have : i < 2000 := List.mem_range.mp hi
  omega

theorem clear_confined (d : Display) : Confined (window videoMem 4000) d.vram (clear d).vram := by
  apply Confined.mono _ clearCells_in.bytes
  apply Confined.foldl
  intro i hi mem
  exact setCell_confined (List.mem_map_of_mem hi) mem _

/-! ### Scrolling -/

/-- The cells that a scroll fills. -/
def scrollCells (base : ℕ) : List ℕ :=
  ((List.range (numRows - 1)).flatMap fun i =>
    (List.range numCols).map fun j => base + (numCols * i + j) * 2) ++
  (List.range numCols).map fun j => base + (numCols * (numRows - 1) + j) * 2

theorem scrollCells_in (base : ℕ) : CellsIn base (scrollCells base) := by
  intro p hp
  simp only [scrollCells, List.mem_append, List.mem_flatMap, List.mem_map, List.mem_range, numCols,
    numRows] at hp
  rcases hp with ⟨i, hi, j, hj, rfl⟩ | ⟨j, hj, rfl⟩ <;> omega

theorem scrollRows_confined (base : ℕ) (mem : ℕ → UInt8) :
    Confined (cellBytes (scrollCells base)) mem (scrollRows base mem) := by
  apply Confined.trans (Confined.foldl _ mem) (Confined.foldl _ _)
  · intro i hi mem
    apply Confined.foldl
    intro j hj mem
    apply setCell_confined
    exact List.mem_append_left _ (List.mem_flatMap.mpr ⟨i, hi, List.mem_map_of_mem hj⟩)
  · intro j hj mem
    apply setCell_confined
    exact List.mem_append_right _ (List.mem_map_of_mem hj)

theorem SamePage.scrollRows {b b' : ℕ} {mem mem' : ℕ → UInt8} (h : SamePage b b' mem mem') :
    SamePage b b' (scrollRows b mem) (scrollRows b' mem') := by
  unfold Lib.scrollRows
  apply SamePage.foldl
  · intro j _ m m' hm
    exact hm.setCell _ _
  apply SamePage.foldl _ h
  intro i hi m m' hm
  apply SamePage.foldl _ hm
  intro j hj m m' hm
  have hi : i < 24 := List.mem_range.mp hi
  have hj : j < 80 := List.mem_range.mp hj
  -- the byte that moves up is on the page as well
  have hup : (numCols * (i + 1) + j) * 2 < kb4 := by simp only [numCols, kb4]; omega
  rw [hm _ hup]
  exact hm.setCell _ _

/-! ### One character -/

/-- The byte address of the cell at a cursor. -/
def cellAddress (base x y : ℕ) : ℕ := u32 (base + u32 (u32 (numCols * y + x) * 2))

/-- The cursor before `putc` looks whether to scroll. -/
def landing (c : UInt8) (x y : ℕ) : ℕ × ℕ :=
  if c = newline ∨ c = carriageReturn then (0, u32 (wrapLine x x y + 1)) else (u32 (x + 1), y)

/-- `putc` scrolls. -/
def Overflows (p : ℕ × ℕ) : Prop := numCols * numRows ≤ u32 (p.2 * numCols + p.1)

instance (p : ℕ × ℕ) : Decidable (Overflows p) := inferInstanceAs (Decidable (_ ≤ _))

/-- The cursor after `putc`. -/
def putcCursor (c : UInt8) (x y : ℕ) : ℕ × ℕ :=
  let p := landing c x y
  if Overflows p then
    if 0 < p.2 then (p.1, p.2 - 1) else (u32 (p.1 + (2 ^ 32 - numCols)), p.2)
  else p

/-- The memory after `putc`. -/
def putcMem (base : ℕ) (c : UInt8) (x y : ℕ) (mem : ℕ → UInt8) : ℕ → UInt8 :=
  let mem := if c = newline ∨ c = carriageReturn then mem else setCell mem (cellAddress base x y) c
  if Overflows (landing c x y) then scrollRows base mem else mem

theorem putcAt_eq (base : ℕ) (t : Fin 3) (d : Display) (c : UInt8) :
    putcAt base t d c =
      { d with
        vram := putcMem base c (d.screenX t) (d.screenY t) d.vram
        screenX := update d.screenX t (putcCursor c (d.screenX t) (d.screenY t)).1
        screenY := update d.screenY t (putcCursor c (d.screenX t) (d.screenY t)).2 } := by
  by_cases hc : c = newline ∨ c = carriageReturn <;>
    simp only [putcAt, putcMem, putcCursor, landing, Overflows, cellAddress, scroll, hc, if_true,
      if_false, Function.update_self] <;>
    split_ifs <;> simp [Function.update_idem]

/-- The cursor is on the screen, over the exact integers. -/
def OnScreen (x y : ℕ) : Prop := 80 * y + x < 2000

theorem u32_of_lt {n : ℕ} (h : n < 2 ^ 32) : u32 n = n := Nat.mod_eq_of_lt h

/-- The rows that a newline walks down are those the long line has filled. -/
theorem wrapLine_le (fuel x y : ℕ) (h : 80 * y + x < 2 ^ 31) :
    wrapLine fuel x y ≤ y + (x - 1) / 80 := by
  induction fuel generalizing x y with
  | zero => exact Nat.le_add_right _ _
  | succ fuel ih =>
    rw [wrapLine]
    split
    · next hx =>
      have hx : 80 < x := hx
      rw [u32_of_lt (by omega)]
      have hrest := ih (x - 80) (y + 1) (by omega)
      refine hrest.trans ?_
      omega
    · exact Nat.le_add_right _ _

theorem OnScreen.landing {c : UInt8} {x y : ℕ} (h : OnScreen x y) :
    (landing c x y).2 * 80 + (landing c x y).1 ≤ 2000 := by
  unfold OnScreen at h
  rw [Lib.landing]
  split
  · have := wrapLine_le x x y (by omega)
    rw [u32_of_lt (by omega)]
    simp only
    omega
  · rw [u32_of_lt (by omega)]
    simp only
    omega

/-- A character never moves the cursor off the screen. -/
theorem OnScreen.putcCursor {x y : ℕ} (h : OnScreen x y) (c : UInt8) :
    OnScreen (putcCursor c x y).1 (putcCursor c x y).2 := by
  have hp := h.landing (c := c)
  simp only [Lib.putcCursor, Overflows]
  generalize Lib.landing c x y = p at hp
  simp only [numCols, numRows]
  rw [u32_of_lt (by omega)]
  unfold OnScreen
  split_ifs with hover hrow
  · simp only
    omega
  · have hback : u32 (p.1 + (2 ^ 32 - 80)) = p.1 - 80 := by
      unfold u32
      omega
    simp only [hback]
    omega
  · omega

theorem OnScreen.cellAddress {base x y : ℕ} (h : OnScreen x y) (hb : base + 4000 < 2 ^ 32) :
    cellAddress base x y = base + (80 * y + x) * 2 := by
  unfold OnScreen at h
  simp only [Lib.cellAddress, numCols]
  rw [u32_of_lt (show 80 * y + x < 2 ^ 32 by omega), u32_of_lt (show _ * 2 < 2 ^ 32 by omega),
    u32_of_lt (by omega)]

/-- The cells that `putc` fills, the one under the cursor first. -/
def putcCells (base : ℕ) (c : UInt8) (x y : ℕ) : List ℕ :=
  (if c = newline ∨ c = carriageReturn then [] else [cellAddress base x y]) ++
    if Overflows (landing c x y) then scrollCells base else []

theorem putcMem_confined (base : ℕ) (c : UInt8) (x y : ℕ) (mem : ℕ → UInt8) :
    Confined (cellBytes (putcCells base c x y)) mem (putcMem base c x y mem) := by
  have hscroll : ∀ l mem, Confined (cellBytes (l ++ scrollCells base)) mem (scrollRows base mem) := by
    intro l mem
    apply (scrollRows_confined base mem).mono
    rintro a ⟨p, hp, ha⟩
    exact ⟨p, List.mem_append_right l hp, ha⟩
  simp only [putcMem, putcCells]
  split_ifs
  · exact hscroll [] mem
  · exact Confined.refl _ mem
  · exact (setCell_confined (by simp) mem c).trans (hscroll _ _)
  · exact setCell_confined (by simp) mem c

/-- From a cursor on the screen every store of `putc` falls on the screen. -/
theorem OnScreen.putcCells_in {base x y : ℕ} (h : OnScreen x y) (hb : base + 4000 < 2 ^ 32)
    (c : UInt8) : CellsIn base (putcCells base c x y) := by
  intro p hp
  rcases List.mem_append.mp hp with hp | hp
  · split_ifs at hp
    · cases hp
    · obtain rfl := List.mem_singleton.mp hp
      rw [h.cellAddress hb]
      unfold OnScreen at h
      omega
  · split_ifs at hp
    · exact scrollCells_in base p hp
    · cases hp

theorem SamePage.putcMem {b b' x y : ℕ} {mem mem' : ℕ → UInt8} (h : SamePage b b' mem mem')
    (hxy : OnScreen x y) (hb : b + 4000 < 2 ^ 32) (hb' : b' + 4000 < 2 ^ 32) (c : UInt8) :
    SamePage b b' (putcMem b c x y mem) (putcMem b' c x y mem') := by
  have hcell := h.setCell ((80 * y + x) * 2) c
  simp only [Lib.putcMem, hxy.cellAddress hb, hxy.cellAddress hb']
  split_ifs
  · exact h.scrollRows
  · exact hcell.scrollRows
  · exact h
  · exact hcell

/-! ### The screen of a terminal -/

/-- Where the screen of a terminal lies: in video memory while it is shown and on
its backing page while it is not. -/
def Display.base (d : Display) (t : Fin 3) : ℕ :=
  if t = d.currentTerminal then videoMem else vidPage t

/-- The page of a terminal. The screen is its first 4000 bytes. -/
def Display.logicalScreen (d : Display) (t : Fin 3) : Fin kb4 → UInt8 :=
  fun o => d.vram (d.base t + o)

namespace Display
variable (d : Display) (t : Fin 3) (c : UInt8)

theorem vidPage_bounds : videoMem + kb4 ≤ vidPage t ∧ vidPage t ≤ 0xBB000 := by
  have := t.isLt
  simp only [videoMem, kb4, vidPage]
  omega

theorem base_lt : d.base t + 4000 < 2 ^ 32 := by
  have := vidPage_bounds t
  unfold base
  split_ifs <;> omega

theorem vidPage_apart {t t' : Fin 3} (h : t' ≠ t) :
    vidPage t' + kb4 ≤ vidPage t ∨ vidPage t + kb4 ≤ vidPage t' := by
  have : (t' : ℕ) ≠ t := fun he => h (Fin.ext he)
  simp only [vidPage, kb4]
  omega

/-- The pages of two terminals do not overlap. -/
theorem base_apart {t t' : Fin 3} (h : t' ≠ t) :
    d.base t' + kb4 ≤ d.base t ∨ d.base t + kb4 ≤ d.base t' := by
  have hpages := vidPage_apart h
  have ht := vidPage_bounds t
  have ht' := vidPage_bounds t'
  unfold base
  split_ifs with h₁ h₂
  · exact absurd (h₁.trans h₂.symm) h
  · exact .inl ht.1
  · exact .inr ht'.1
  · exact hpages

/-- Both branches of `putc` at once: they differ in the place of the screen and in
the hardware cursor. -/
theorem putc_eq :
    putc t d c =
      { d with
        vram := putcMem (d.base t) c (d.screenX t) (d.screenY t) d.vram
        screenX := update d.screenX t (putcCursor c (d.screenX t) (d.screenY t)).1
        screenY := update d.screenY t (putcCursor c (d.screenX t) (d.screenY t)).2
        cursor := if t = d.currentTerminal then (setCursor (putcAt videoMem t d c) t).cursor
          else d.cursor } := by
  unfold putc base
  split_ifs with h
  · subst h
    rw [putcAt_eq]
    rfl
  · rw [putcAt_eq]

@[simp] theorem putc_currentTerminal : (putc t d c).currentTerminal = d.currentTerminal := by
  rw [putc_eq]

theorem putc_vram :
    (putc t d c).vram = putcMem (d.base t) c (d.screenX t) (d.screenY t) d.vram := by
  rw [putc_eq]

theorem putc_screenX :
    (putc t d c).screenX = update d.screenX t (putcCursor c (d.screenX t) (d.screenY t)).1 := by
  rw [putc_eq]

theorem putc_screenY :
    (putc t d c).screenY = update d.screenY t (putcCursor c (d.screenX t) (d.screenY t)).2 := by
  rw [putc_eq]

@[simp] theorem putc_base (t' : Fin 3) : (putc t d c).base t' = d.base t' := by
  rw [base, putc_currentTerminal]
  rfl

/-- Every cursor is on its screen. -/
def Inside (d : Display) : Prop := ∀ t, OnScreen (d.screenX t) (d.screenY t)

variable {d}

theorem Inside.putc (h : d.Inside) : (putc t d c).Inside := by
  intro t'
  rw [putc_screenX, putc_screenY]
  by_cases ht : t' = t
  · subst ht
    rw [Function.update_self, Function.update_self]
    exact (h t').putcCursor c
  · rw [Function.update_of_ne ht, Function.update_of_ne ht]
    exact h t'

theorem Inside.puts (h : d.Inside) (l : List UInt8) : (puts t d l).Inside := by
  induction l generalizing d with
  | nil => exact h
  | cons c l ih => exact ih (h.putc t c)

theorem Inside.putc_confined (h : d.Inside) :
    Confined (window (d.base t) 4000) d.vram (Lib.putc t d c).vram := by
  rw [putc_vram]
  apply (putcMem_confined _ c _ _ d.vram).mono
  exact ((h t).putcCells_in (d.base_lt t) c).bytes

end Display

end Ece391.Lib
