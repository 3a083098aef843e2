import MallocLab.FirstFit.Allocator

/-!
# The allocator refines first fit, and keeps the client's data

`MallocRefines` and `FreeRefines` compare one call with the step on the list of blocks. The
allocator meets them except where `mem_sbrk` accepts an increment that wraps around the address
space.
-/

namespace MallocLab.FirstFit
open Memory

def rounded (size : Nat) : Nat := if size ≤ 8 then 16 else (size + 15) / 8 * 8

theorem adjust_rounded {size : Nat} (small : rounded size < 2 ^ 31) :
    adjust size = rounded size ∧ size + 16 ≤ 2 ^ 31 + 8 := by
  have : size + 16 ≤ 2 ^ 31 + 8 := by
    unfold rounded at small
    split at small <;> omega
  exact ⟨adjust_eq (by omega), this⟩

/-- `mm_malloc(size)` does what first fit does on the list of blocks. -/
def MallocRefines (h : Heap) (bs : List Block) (size : Nat) : Prop :=
  match firstFit (rounded size) bs with
  | some (pre, b, post) =>
      ∃ h', mmMalloc h size = .ok (h.memStartBrk + 16 + extent Block.size pre, h') ∧
        WellFormed h' (pre ++ carve (rounded size) b ++ post) ∧ SameArea h h' ∧
        h'.memBrk = h.memBrk
  | none =>
      if sbrkRefuses h.toMemLib (growth (rounded size)) then mmMalloc h size = .ok (null, h)
      else
        ∃ h', mmMalloc h size =
            .ok (h.memStartBrk + 16 + extent Block.size (keptBefore bs), h') ∧
          WellFormed h' (keptBefore bs ++
            carve (rounded size) ⟨freeBefore bs + growth (rounded size), false⟩) ∧
          SameArea h h' ∧ h'.memBrk = h.memBrk + growth (rounded size)

def FreeRefines (h : Heap) (bs : List Block) : Prop :=
  ∀ pre b post, bs = pre ++ b :: post → b.alloc = true →
    let h' := mmFree h (h.memStartBrk + 16 + extent Block.size pre)
    WellFormed h' (join pre b.size post) ∧ SameArea h h' ∧ h'.memBrk = h.memBrk

/-- Nothing fits, and `mem_sbrk` accepts an increment with which the break wraps around. -/
def GrowthWraps (h : Heap) (bs : List Block) (size : Nat) : Prop :=
  firstFit (rounded size) bs = none ∧
    ¬ sbrkRefuses h.toMemLib (growth (rounded size)) ∧ 2 ^ 32 ≤ h.memBrk + growth (rounded size)

section
variable {h : Heap} {bs : List Block} {size : Nat}

theorem free_refines (wf : WellFormed h bs) : FreeRefines h bs := by
  rintro pre b post rfl -
  obtain ⟨-, area, brk, -⟩ := mmFree_spec wf.tiled
  exact ⟨mmFree_wellFormed wf, area, brk⟩

theorem malloc_refines (wf : WellFormed h bs) (pos : 0 < size) (small : rounded size < 2 ^ 31)
    (inside : ¬ GrowthWraps h bs size) : MallocRefines h bs size := by
  obtain ⟨round, bound⟩ := adjust_rounded small
  have g31 : growth (rounded size) < 2 ^ 31 := by
    unfold growth
    omega
  unfold MallocRefines
  cases found : firstFit (rounded size) bs with
  | some chosen =>
      obtain ⟨pre, b, post⟩ := chosen
      rw [← round] at found ⊢
      obtain ⟨h', run, tiled, area, brk, -⟩ := mmMalloc_fits wf.tiled pos (by omega) found
      obtain ⟨rfl, ⟨free, -⟩, -⟩ := firstFit_some.mp found
      exact ⟨h', run, ⟨tiled, separated_carve _ wf.separated free⟩, area, brk⟩
  | none =>
      dsimp only
      have asked := toInt32_eq g31
      split
      · rename_i refused
        rw [← round] at found refused asked
        exact mmMalloc_refused wf.tiled pos (by omega) found (by rwa [asked])
      · rename_i accepts
        have wrap : h.memBrk + growth (rounded size) < 2 ^ 32 := by
          by_contra wrap
          exact inside ⟨found, accepts, by omega⟩
        rw [← round] at found accepts asked wrap ⊢
        obtain ⟨h', run, tiled, area, brk, -⟩ :=
          mmMalloc_grows wf.tiled pos (by omega) found (by rwa [asked]) wrap
        obtain ⟨kept, last⟩ := separated_keptBefore wf.separated
        have sep := separated_carve (adjust size)
          (separated_free ⟨freeBefore bs + growth (adjust size), false⟩ kept .nil last rfl) rfl
        exact ⟨h', run, ⟨tiled, by simpa using sep⟩, area, brk⟩

theorem not_malloc_refines (wraps : GrowthWraps h bs size) : ¬ MallocRefines h bs size := by
  obtain ⟨found, accepts, wrap⟩ := wraps
  intro refines
  simp only [MallocRefines, found, if_neg accepts] at refines
  obtain ⟨h', -, wf, -, brk⟩ := refines
  have := wf.tiled.valid.high
  have := wf.tiled.valid.space
  omega

/-- The allocator refines first fit exactly where growing does not wrap around. -/
theorem refines_iff (wf : WellFormed h bs) (pos : 0 < size) (small : rounded size < 2 ^ 31) :
    MallocRefines h bs size ∧ FreeRefines h bs ↔ ¬ GrowthWraps h bs size :=
  ⟨fun refines wraps => not_malloc_refines wraps refines.1,
    fun inside => ⟨malloc_refines wf pos small inside, free_refines wf⟩⟩

end

def between : Heap where
  mem := ofWords 4096 [0, 9, 9, 17, 0x11223344, 0x55667788, 17, 32, 0, 0, 0, 0, 0, 0, 32, 17, 1, 2, 17, 1]
  memStartBrk := 4096
  memBrk := 4176
  memMaxAddr := 4096 + maxHeap
  heapListp := 4104

theorem between_wellFormed : WellFormed between [⟨16, true⟩, ⟨32, false⟩, ⟨16, true⟩] := by
  have held : ∀ e ∈ located (between.memStartBrk + 16) [⟨16, true⟩, ⟨32, false⟩, ⟨16, true⟩],
      get between.mem (e.1 - 4) = e.2.word ∧ get between.mem (e.1 + e.2.size - 8) = e.2.word := by decide +kernel
  refine ⟨⟨⟨by decide, by decide, by decide, rfl, by decide⟩, rfl, by decide +kernel, by decide +kernel,
    by decide, by decide, fun x b hb => ?_, rfl, by decide +kernel⟩, by decide⟩
  exact ⟨(held _ hb).1, (held _ hb).2⟩

theorem refines_iff_between : MallocRefines between [⟨16, true⟩, ⟨32, false⟩, ⟨16, true⟩] 24 ∧
    FreeRefines between [⟨16, true⟩, ⟨32, false⟩, ⟨16, true⟩] := by
  refine (refines_iff between_wellFormed (by decide) (by decide)).mpr ?_
  rintro ⟨none, -⟩
  revert none
  decide

def highArea : MemLib := memInit (fun _ => 0) 0xF6000000

theorem highArea_init : ∃ h, mmInit highArea = (0, h) ∧ WellFormed h [⟨4096, false⟩] ∧
    h.memStartBrk = 0xF6000000 ∧ h.memBrk = 0xF6001010 ∧ h.memMaxAddr = 0xF7400000 := by
  have valid : highArea.Valid := ⟨by decide, by decide, by decide, by decide, by decide⟩
  obtain ⟨h, run, wf, start, max⟩ := mmInit_spec valid rfl
  refine ⟨h, run, wf, start, ?_, max⟩
  rw [← wf.tiled.brk, start]
  rfl

/-- A request of 200 000 000 bytes right after `mm_init`: the sum wraps around, `mem_sbrk` accepts
it, and the break drops below the start of the heap. -/
theorem malloc_wraps_highArea :
    WellFormed (mmInit highArea).2 [⟨4096, false⟩] ∧ rounded 200000000 < 2 ^ 31 ∧
      (memSbrk (mmInit highArea).2.toMemLib (growth (rounded 200000000))).2.memBrk <
        (mmInit highArea).2.memStartBrk ∧
      ¬ MallocRefines (mmInit highArea).2 [⟨4096, false⟩] 200000000 := by
  obtain ⟨h, run, wf, start, brk, max⟩ := highArea_init
  rw [show (mmInit highArea).2 = h by rw [run]]
  have size : growth (rounded 200000000) = 200000008 := by decide
  have accepts : ¬ sbrkRefuses h.toMemLib (200000008 : Nat) := by
    simp only [sbrkRefuses, brk, max]
    omega
  refine ⟨wf, by decide, ?_, not_malloc_refines ⟨by decide, by rwa [size], by omega⟩⟩
  rw [size, memSbrk, if_neg accepts]
  simp only [brk, start]
  omega

/-! ## Client data -/

theorem data_survives {h : Heap} {bs : List Block} (wf : WellFormed h bs) (exact : h.Exact) :
    (∀ size, 0 < size → size < 2 ^ 31 → ∃ p h', mmMalloc h size = .ok (p, h') ∧
        KeepsPayloads h h' bs null) ∧
      (∀ p b, (p, b) ∈ allocated (h.memStartBrk + 16) bs → KeepsPayloads h (mmFree h p) bs p) ∧
      ∀ p b size, (p, b) ∈ allocated (h.memStartBrk + 16) bs → 0 < size → size < 2 ^ 31 →
        (mmMalloc h size = .ok (null, h) ∧ mmRealloc h p size =
            .error (.exit 1 "ERROR: mm_malloc failed in mm_realloc\n")) ∨
          ∃ q h', mmRealloc h p size = .ok (q, h') ∧ KeepsPayloads h h' bs p ∧
            ∀ i, i < min (b.size - 8) size → h'.mem (q + i) = h.mem (p + i) := by
  refine ⟨fun size pos small => ?_, fun p b live => ?_, fun p b size live pos small => ?_⟩
  · have request := mmMalloc_choose wf exact pos small
    split at request
    · obtain ⟨h', run, -, -, keeps⟩ := request
      exact ⟨_, h', run, keeps⟩
    · exact ⟨null, h, request, fun _ _ _ _ _ _ _ _ => rfl⟩
  · obtain ⟨pre, post, rfl, rfl⟩ := mem_placed.mp (mem_allocated.mp live).1
    exact (mmFree_spec wf.tiled).2.2.2
  · have request := mmMalloc_choose wf exact pos small
    have moved := mmRealloc_choose wf exact pos small live
    split at moved
    · obtain ⟨h', run, -, -, keeps, copied⟩ := moved
      exact Or.inr ⟨_, h', run, keeps, fun i hi => copied i (by omega) (by omega)⟩
    · rename_i failed
      rw [failed] at request
      exact Or.inl ⟨request, moved⟩

theorem data_survives_between :
    (∃ p h', mmMalloc between 24 = .ok (p, h') ∧
        KeepsPayloads between h' [⟨16, true⟩, ⟨32, false⟩, ⟨16, true⟩] null) ∧
      KeepsPayloads between (mmFree between 4160) [⟨16, true⟩, ⟨32, false⟩, ⟨16, true⟩] 4160 ∧
      ∃ q h', mmRealloc between 4160 24 = .ok (q, h') ∧
        KeepsPayloads between h' [⟨16, true⟩, ⟨32, false⟩, ⟨16, true⟩] 4160 ∧
        ∀ i, i < 8 → h'.mem (q + i) = between.mem (4160 + i) := by
  obtain ⟨malloc, free, realloc⟩ := data_survives between_wellFormed (lowArea_exact 0)
  refine ⟨malloc 24 (by decide) (by decide), free 4160 ⟨16, true⟩ (by decide), ?_⟩
  obtain ⟨fails, -⟩ | moved := realloc 4160 ⟨16, true⟩ 24 (by decide) (by decide) (by decide)
  · obtain ⟨h', found, -⟩ := @mmMalloc_fits _ _ _ _ _ 24 between_wellFormed.tiled (by decide) (by decide)
      (show firstFit (adjust 24) _ = some ([⟨16, true⟩], ⟨32, false⟩, [⟨16, true⟩]) by decide)
    cases fails.symm.trans found
  · exact moved

end MallocLab.FirstFit
