import MallocLab.FirstFit.Allocator

/-!
# Running out of memory

When `mem_sbrk` refuses, `mm_malloc` reports it and nothing changes; `mm_realloc` then gives up the
process. `mm_init` compares the first answer of `mem_sbrk` with `NULL` and goes on.
-/

namespace MallocLab.FirstFit
open Memory

/-- No free block fits, and `mem_sbrk` refuses what `mm_malloc` then asks for. -/
def OutOfMemory (h : Heap) (bs : List Block) (size : Nat) : Prop :=
  0 < size ∧ (∀ b ∈ bs, ¬ b.Fits (adjust size)) ∧
    sbrkRefuses h.toMemLib (toInt32 (extension (max (adjust size) chunksize / wsize)))

section
variable {h : Heap} {bs : List Block} {size : Nat}

theorem mmMalloc_outOfMemory (ht : Tiled h bs) (out : OutOfMemory h bs size) :
    mmMalloc h size = .ok (null, h) := by
  obtain ⟨pos, none, refused⟩ := out
  have missed : findFit h (adjust size) = .ok null := by
    rw [findFit_spec _ ht, firstFit_none.mpr none]
  rw [mmMalloc_missed pos missed (extendHeap_refused refused), if_pos rfl]

def initWords (m : Mem) (brk : Nat) : Mem :=
  put (put (put (put m brk 0) (brk + wsize) (pack overhead 1)) (brk + dsize) (pack overhead 1))
    (brk + wsize + dsize) (pack 0 1)

theorem initWords_of_outside {m : Mem} {brk a : Nat} (outside : a < brk ∨ brk + 16 ≤ a) :
    initWords m brk a = m a := by
  simp only [initWords, put, wsize, dsize]
  rw [setWord_of_outside (by omega), setWord_of_outside (by omega), setWord_of_outside (by omega),
    setWord_of_outside (by omega)]

theorem mmInit_refused_second {s : MemLib} (v : s.Valid) (accepts : ¬ sbrkRefuses s (16 : Nat))
    (refused : sbrkRefuses (memSbrk s (16 : Nat)).2 (4096 : Nat)) :
    ∃ h, mmInit s = (-1, h) ∧ h.memStartBrk = s.memStartBrk ∧ h.memBrk = s.memBrk + 16 ∧
      h.memBrk ≤ h.memMaxAddr ∧ h.mem = initWords s.mem s.memBrk := by
  have start := v.start
  have low := v.low
  have high := v.high
  have space := v.space
  have area := v.area
  rw [maxHeap_eq] at area
  have wrap : s.memBrk + 16 < 2 ^ 32 := by
    by_contra large
    rw [memSbrk, if_neg accepts] at refused
    simp only [sbrkRefuses] at refused
    omega
  obtain ⟨first, -, fits⟩ := sbrk_accepted (by omega) accepts wrap
  rw [first] at refused
  have second : extendHeap ⟨{ s with mem := initWords s.mem s.memBrk, memBrk := s.memBrk + 16 }, s.memBrk + dsize⟩
      (chunksize / wsize) = (null, _) := extendHeap_refused refused
  refine ⟨⟨{ s with mem := initWords s.mem s.memBrk, memBrk := s.memBrk + 16 }, s.memBrk + dsize⟩, ?_, rfl, rfl,
    fits, rfl⟩
  rw [mmInit, show memSbrk s (4 * wsize) = memSbrk s (16 : Nat) from rfl, first]
  simp only [if_neg (show ¬ s.memBrk = null by simp only [null]; omega)]
  rw [initWords] at second
  rw [second]
  rfl

theorem mmInit_refused_first {s : MemLib} (first : sbrkRefuses s (16 : Nat))
    (second : sbrkRefuses s (4096 : Nat)) :
    ∃ h, mmInit s = (-1, h) ∧ h.memBrk = s.memBrk ∧ h.mem = initWords s.mem minusOne := by
  have refused : extendHeap ⟨{ s with mem := initWords s.mem minusOne }, minusOne + dsize⟩
      (chunksize / wsize) = (null, _) := extendHeap_refused second
  refine ⟨⟨{ s with mem := initWords s.mem minusOne }, minusOne + dsize⟩, ?_, rfl, rfl⟩
  rw [mmInit, show memSbrk s (4 * wsize) = memSbrk s (16 : Nat) from rfl, memSbrk_refused first]
  simp only [if_neg (show ¬ minusOne = null by decide)]
  rw [initWords] at refused
  rw [refused]
  rfl

/-- Whenever `mem_sbrk` refuses, `mm_malloc` returns `NULL` and changes nothing, `mm_realloc` then exits, and
`mm_init` returns -1 and has changed nothing but the bytes it got before. -/
theorem refusals_harmless :
    (∀ s : MemLib, s.Valid → ¬ sbrkRefuses s (16 : Nat) → sbrkRefuses (memSbrk s (16 : Nat)).2 (4096 : Nat) →
      ∃ h, mmInit s = (-1, h) ∧ h.memStartBrk = s.memStartBrk ∧
        ∀ a, (a < s.memBrk ∨ h.memBrk ≤ a) → h.mem a = s.mem a) ∧
    ∀ h bs size, WellFormed h bs → OutOfMemory h bs size →
      mmMalloc h size = .ok (null, h) ∧
        ∀ p, mmRealloc h p size = .error (.exit 1 "ERROR: mm_malloc failed in mm_realloc\n") := by
  constructor
  · intro s valid accepts refused
    obtain ⟨h, run, start, brk, -, mem⟩ := mmInit_refused_second valid accepts refused
    refine ⟨h, run, start, fun a outside => ?_⟩
    rw [mem]
    exact initWords_of_outside (by omega)
  · intro h bs size wf out
    have failed := mmMalloc_outOfMemory wf.tiled out
    exact ⟨failed, fun p => mmRealloc_exits failed⟩

end

def single : Heap where
  mem := ofWords 4096 [0, 9, 9, 17, 0, 0, 17, 1]
  memStartBrk := 4096
  memBrk := 4128
  memMaxAddr := 4096 + maxHeap
  heapListp := 4104

theorem single_wellFormed : WellFormed single [⟨16, true⟩] := by
  have held : Holds single.mem 4112 ⟨16, true⟩ := ⟨by decide +kernel, by decide +kernel⟩
  refine ⟨⟨⟨by decide, by decide, by decide, rfl, by decide⟩, rfl, by decide +kernel, by decide +kernel,
    by decide, by decide, fun x b hb => ?_, rfl, by decide +kernel⟩, .singleton _⟩
  obtain ⟨rfl, rfl⟩ := by simpa [located] using hb
  exact held

theorem single_outOfMemory : OutOfMemory single [⟨16, true⟩] maxHeap :=
  ⟨by decide, by decide, by decide +kernel⟩

theorem refusals_harmless_single : mmMalloc single maxHeap = .ok (null, single) :=
  (refusals_harmless.2 single [⟨16, true⟩] maxHeap single_wellFormed single_outOfMemory).1

/-- A request of 20 megabytes for the block at 4112 does not come back with `NULL`. In an area with no
room at all `mm_init` writes behind the heap. -/
theorem refusals_harm_single :
    WellFormed single [⟨16, true⟩] ∧ (4112, ⟨16, true⟩) ∈ allocated (single.memStartBrk + 16) [⟨16, true⟩] ∧
      OutOfMemory single [⟨16, true⟩] maxHeap ∧ (∀ h, mmRealloc single 4112 maxHeap ≠ .ok (null, h)) ∧
      ∃ h, mmInit { lowArea 1 with memBrk := 4096 + maxHeap } = (-1, h) ∧ h.memBrk ≤ minusOne ∧
        h.mem minusOne ≠ (lowArea 1).mem minusOne := by
  refine ⟨single_wellFormed, by decide, single_outOfMemory, fun h run => ?_, ?_⟩
  · rw [mmRealloc_exits (mmMalloc_outOfMemory single_wellFormed.tiled single_outOfMemory)] at run
    cases run
  · obtain ⟨h, run, brk, mem⟩ := mmInit_refused_first (s := { lowArea 1 with memBrk := 4096 + maxHeap })
      (by decide +kernel) (by decide +kernel)
    refine ⟨h, run, by rw [brk]; decide, ?_⟩
    rw [mem]
    decide +kernel

end MallocLab.FirstFit
