import Ece391.Kernel.VideoMap

/-! What a call of `vidmap` stores. A pointer that fails the check leaves everything alone.
One that passes gets the entries of the window, and with them an entry at the index
`video_mem` of a table of 1024 entries, in whatever lies behind it. -/

namespace Ece391.Kernel

open Function (update)
open Lib FileSys Syscall Devices Support.Runs

/-- The four bytes behind the pointer lie in the page of the running program. -/
def InUserPage (screenStart : ℕ) : Prop :=
  lowerboundVid ≤ screenStart ∧ screenStart + 3 < upperboundVid

instance : DecidablePred InUserPage := fun _ => inferInstanceAs (Decidable (_ ∧ _))

/-- The stores of `vidmap` to `page_table_video`, in order. -/
def tableStores (k : State) (screenStart : ℕ) : List (ℕ × ℕ) :=
  if AcceptsPointer screenStart then [(0, videoMem ||| vidMemFlag), (videoMem, videoEntry k)] else []

/-- Nothing changed but the window's entry of the directory, the given entries of the table
and the four bytes behind the pointer. -/
structure WritesOnly (entries : List ℕ) (p : Fin 6) (screenStart : ℕ) (k k' : State) : Prop where
  directory : ∀ i, i ≠ 34 → k'.pageDirectory i = k.pageDirectory i
  table : ∀ i ∉ entries, k'.pageTableVideo i = k.pageTableVideo i
  page : ∀ q a, ¬ (q = p ∧ screenStart ≤ lowerboundVid + a ∧ lowerboundVid + a < screenStart + 4) →
    k'.userPage q a = k.userPage q a
  rest : { k' with
    pageDirectory := k.pageDirectory
    pageTableVideo := k.pageTableVideo
    userPage := k.userPage } = k

/-- What a program may expect of a call of `vidmap`. -/
structure KeepsFrame (tablePage : ℕ) (img : Image) (stack : ℕ → Stack) (k : State) (p : Fin 6)
    (screenStart : ℕ) : Prop where
  accepted : (vidmap tablePage img stack k p screenStart).2 = some 0 ↔ InUserPage screenStart
  writes : InUserPage screenStart →
    WritesOnly [0] p screenStart k (vidmap tablePage img stack k p screenStart).1
  refused : ¬ InUserPage screenStart →
    (vidmap tablePage img stack k p screenStart).2 = some (-1) ∧
      (vidmap tablePage img stack k p screenStart).1.pageDirectory = k.pageDirectory ∧
      (vidmap tablePage img stack k p screenStart).1.pageTableVideo = k.pageTableVideo ∧
      (vidmap tablePage img stack k p screenStart).1.userPage = k.userPage
  stores : ∀ s ∈ tableStores k screenStart, s.1 < 1024

section Vidmap
variable (tablePage : ℕ) (img : Image) (stack : ℕ → Stack) (k : State) (p : Fin 6)
  {screenStart : ℕ}

theorem InUserPage.accepts (h : InUserPage screenStart) : AcceptsPointer screenStart := by
  obtain ⟨hlow, hhigh⟩ := h
  simp only [AcceptsPointer, lowerboundVid, upperboundVid] at *
  omega

/-- The stores of the list are the ones that are made. -/
theorem vidmap_table (screenStart : ℕ) :
    (vidmap tablePage img stack k p screenStart).1.pageTableVideo =
      (tableStores k screenStart).foldl (fun table s => update table s.1 s.2) k.pageTableVideo := by
  by_cases hs : AcceptsPointer screenStart
  · rw [(vidmap_sameTables tablePage img stack k p hs).pageTableVideo, tableStores, if_pos hs]
    rfl
  · simp only [vidmap, tableStores, if_neg hs, List.foldl_nil]

theorem storeWord_outside {mem : ℕ → UInt8} {addr word i : ℕ} (h : i < addr ∨ addr + 4 ≤ i) :
    storeWord mem addr word i = mem i := by
  rw [storeWord, if_neg (by omega)]

/-- With its four bytes in the page the call succeeds, and makes one store too many. -/
theorem vidmap_in_page (h : InUserPage screenStart) :
    (vidmap tablePage img stack k p screenStart).2 = some 0 ∧
      WritesOnly [0, videoMem] p screenStart k (vidmap tablePage img stack k p screenStart).1 := by
  have hroom : screenStart + 4 ≤ upperboundVid := by
    have hhigh := h.2
    omega
  have hvidmap : vidmap tablePage img stack k p screenStart =
      ({ openWindow tablePage k with
        userPage := update k.userPage p
          (storeWord (k.userPage p) (screenStart - lowerboundVid) mb136) }, some 0) := by
    simp only [vidmap, if_pos h.accepts, if_pos hroom]
    rfl
  rw [hvidmap]
  refine ⟨rfl, fun i hi => ?_, fun i hi => ?_, fun q a hqa => ?_, rfl⟩
  · exact (openWindow_directory tablePage k i).trans (if_neg hi)
  · simp only [List.mem_cons, List.not_mem_nil, or_false, not_or] at hi
    simp only [openWindow, mapVideoMemory]
    rw [Function.update_of_ne hi.2, Function.update_of_ne hi.1]
  · by_cases hq : q = p
    · subst hq
      have hlow := h.1
      simp only [Function.update_self]
      refine storeWord_outside ?_
      omega
    · simp only [Function.update_of_ne hq]

/-- With a byte behind the page an accepted call does not come back: the store of its result
faults. -/
theorem vidmap_past_page (hs : AcceptsPointer screenStart) (h : ¬ InUserPage screenStart) :
    vidmap tablePage img stack k p screenStart = (trap img stack (openWindow tablePage k) p .pf, none) := by
  have hroom : ¬ screenStart + 4 ≤ upperboundVid := fun hroom => h ⟨hs.2.1, by omega⟩
  simp only [vidmap, if_pos hs, if_neg hroom]

/-- A call of `vidmap` does what a program may expect if and only if it refuses the pointer:
every accepted one takes the store behind the table with it. -/
theorem vidmap_keeps_frame_iff (screenStart : ℕ) :
    KeepsFrame tablePage img stack k p screenStart ↔ ¬ AcceptsPointer screenStart := by
  constructor
  · intro h hs
    have hstray := h.stores (videoMem, videoEntry k) (by simp [tableStores, hs])
    exact absurd hstray (show ¬ videoMem < 1024 by decide)
  · intro hs
    have hvidmap : vidmap tablePage img stack k p screenStart = (k, some (-1)) := if_neg hs
    have hout : ¬ InUserPage screenStart := fun h => hs h.accepts
    refine ⟨?_, fun h => absurd h hout, fun _ => ?_, fun s hmem => ?_⟩
    · rw [hvidmap]
      exact iff_of_false (show ¬ some (-1 : ℤ) = some 0 by decide) hout
    · rw [hvidmap]
      exact ⟨rfl, rfl, rfl, rfl⟩
    · rw [tableStores, if_neg hs] at hmem
      cases hmem

end Vidmap

/-- The first shell calls `vidmap` with the start of its page: the call succeeds, and
something behind the table has changed. -/
theorem vidmap_stores_behind_table : ∃ k, videoRuns [.kernel .tick] = some k ∧ UserRuns k 0 ∧
    InUserPage 0x8000000 ∧
    (vidmap 0x500 shellImage (fun _ => .zero) k 0 0x8000000).1.pageTableVideo videoMem ≠
      k.pageTableVideo videoMem ∧
    ¬ KeepsFrame 0x500 shellImage (fun _ => .zero) k 0 0x8000000 := by
  obtain ⟨k, hr, hruns, hstray⟩ := run_eval (videoStep 0x500 shellImage fun _ => .zero)
    (pagingInit 0x500 .cleared) [.kernel .tick]
    (fun k => UserRuns k 0 ∧
      (vidmap 0x500 shellImage (fun _ => .zero) k 0 0x8000000).1.pageTableVideo videoMem ≠
        k.pageTableVideo videoMem) (by decide +kernel)
  refine ⟨k, hr, hruns, by decide, hstray, fun h => ?_⟩
  refine hstray ((h.writes (by decide)).table videoMem ?_)
  decide

end Ece391.Kernel
