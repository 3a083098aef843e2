import MallocLab.FirstFit.Refinement

/-!
# Requests of every size

A request that is answered gets a block that is large enough, except where the rounded size or the
break wraps around.
-/

namespace MallocLab.FirstFit
open Memory

/-- `mm_malloc(size)` returns `NULL` and changes nothing, or returns an allocated block with room for
`size` bytes and its tags in a well-formed heap. -/
def MallocAnswers (h : Heap) (size : Nat) : Prop :=
  ∃ p h', mmMalloc h size = .ok (p, h') ∧ ((p = null ∧ h' = h) ∨
    ∃ bs' b, WellFormed h' bs' ∧ (p, b) ∈ allocated (h'.memStartBrk + 16) bs' ∧ size + 8 ≤ b.size)

/-- The rounding does not wrap around, and neither does the break when the heap grows; or it does,
but there is neither a free block nor room for another one. -/
def Answerable (h : Heap) (bs : List Block) (size : Nat) : Prop :=
  if size + 15 < 2 ^ 32 then
    (∃ b ∈ bs, b.Fits (rounded size)) ∨ sbrkRefuses h.toMemLib (toInt32 (growth (rounded size))) ∨
      h.memBrk + growth (rounded size) < 2 ^ 32
  else (∀ b ∈ bs, b.alloc = true) ∧ sbrkRefuses h.toMemLib 4096

section
variable {h : Heap} {bs : List Block} {size : Nat}

theorem adjust_rounded_of_lt (small : size + 15 < 2 ^ 32) : adjust size = rounded size :=
  adjust_eq (by omega)

theorem adjust_wrapped (large : 2 ^ 32 ≤ size + 15) (word : size < 2 ^ 32) :
    adjust size % 8 = 0 ∧ adjust size ≤ 8 := by
  unfold adjust
  rw [if_neg (show ¬ size ≤ 8 by omega)]
  simp only [add32, mul32, dsize, overhead]
  omega

theorem extendHeap_brk (h : Heap) (words : Nat) :
    (extendHeap h words).2.memBrk =
        (memSbrk h.toMemLib (toInt32 (extension words))).2.memBrk ∧
      (extendHeap h words).2.memStartBrk = h.memStartBrk := by
  have start : (memSbrk h.toMemLib (toInt32 (extension words))).2.memStartBrk = h.memStartBrk := by
    unfold memSbrk
    split <;> rfl
  simp only [extendHeap]
  rw [← extension]
  split
  · exact ⟨rfl, start⟩
  · exact ⟨rfl, start⟩

theorem mmMalloc_missed_brk {p : Nat} {h' : Heap} (pos : 0 < size)
    (missed : findFit h (adjust size) = .ok null) (run : mmMalloc h size = .ok (p, h')) :
    h'.memBrk = (memSbrk h.toMemLib
        (toInt32 (extension (growth (adjust size) / 4)))).2.memBrk ∧
      h'.memStartBrk = h.memStartBrk := by
  obtain ⟨⟨bp, h₁⟩, grown⟩ : ∃ r, extendHeap h (growth (adjust size) / 4) = r := ⟨_, rfl⟩
  have moved := extendHeap_brk h (growth (adjust size) / 4)
  rw [grown] at moved
  rw [mmMalloc_missed pos missed grown] at run
  split at run
  · obtain ⟨-, rfl⟩ := Prod.mk.inj (Except.ok.inj run)
    exact moved
  · obtain ⟨-, rfl⟩ := Prod.mk.inj (Except.ok.inj run)
    exact ⟨(memBrk_setMem h₁ _).trans moved.1, ((SameArea.refl h₁).setMem _).start.trans moved.2⟩

theorem mem_carve (a asize : Nat) (pre : List Block) (b : Block) (post : List Block) :
    (a + extent Block.size pre, ⟨taken asize b, true⟩) ∈ allocated a (pre ++ carve asize b ++ post) := by
  simp [allocated_carve]

theorem WellFormed.below {p : Nat} {b : Block} (wf : WellFormed h bs)
    (live : (p, b) ∈ allocated (h.memStartBrk + 16) bs) : b.size + 16 < 2 ^ 32 := by
  have := placed_bounds (mem_allocated.mp live).1
  have := wf.tiled.brk
  have := wf.tiled.valid.high
  have := wf.tiled.valid.space
  omega

theorem extension_wrapped (large : 2 ^ 32 ≤ size + 15) (word : size < 2 ^ 32) :
    toInt32 (extension (growth (adjust size) / 4)) = 4096 := by
  have wrapped := adjust_wrapped large word
  rw [show growth (adjust size) = 4096 by unfold growth; omega]
  rfl

theorem malloc_answers (wf : WellFormed h bs) (pos : 0 < size) (word : size < 2 ^ 32)
    (fine : Answerable h bs size) : MallocAnswers h size := by
  unfold Answerable at fine
  split at fine
  · rename_i small
    have round := adjust_rounded_of_lt small
    have bounds := adjust_bounds (show size < 2 ^ 32 - 15 by omega)
    rw [← round] at fine
    cases found : firstFit (adjust size) bs with
    | some chosen =>
        obtain ⟨pre, b, post⟩ := chosen
        obtain ⟨h', run, tiled, area, -⟩ := mmMalloc_fits wf.tiled pos (by omega) found
        obtain ⟨rfl, ⟨free, fit⟩, -⟩ := firstFit_some.mp found
        have room := le_taken fit
        have live := mem_carve (h'.memStartBrk + 16) (adjust size) pre b post
        rw [area.start] at live
        exact ⟨_, h', run, Or.inr ⟨_, _, ⟨tiled, separated_carve _ wf.separated free⟩,
          by rw [area.start]; exact live, by simp only; omega⟩⟩
    | none =>
        by_cases refused : sbrkRefuses h.toMemLib (toInt32 (growth (adjust size)))
        · exact ⟨null, h, mmMalloc_refused wf.tiled pos (by omega) found refused, Or.inl ⟨rfl, rfl⟩⟩
        · have wrap : h.memBrk + growth (adjust size) < 2 ^ 32 := by
            rcases fine with ⟨b, member, fits⟩ | refuses | below
            · exact absurd fits (firstFit_none.mp found b member)
            · exact absurd refuses refused
            · exact below
          obtain ⟨h', run, tiled, area, -⟩ :=
            mmMalloc_grows wf.tiled pos (by omega) found refused wrap
          obtain ⟨kept, last⟩ := separated_keptBefore wf.separated
          have sep := separated_carve (adjust size)
            (separated_free ⟨freeBefore bs + growth (adjust size), false⟩ kept .nil last rfl) rfl
          have fit : adjust size ≤ (⟨freeBefore bs + growth (adjust size), false⟩ : Block).size := by
            simp only [growth]
            omega
          have room := le_taken fit
          have live := mem_carve (h.memStartBrk + 16) (adjust size) (keptBefore bs)
            ⟨freeBefore bs + growth (adjust size), false⟩ []
          simp only [List.append_nil] at sep live
          exact ⟨_, h', run, Or.inr ⟨_, _, ⟨tiled, sep⟩, by rw [area.start]; exact live,
            by simp only; omega⟩⟩
  · rename_i large
    obtain ⟨full, refused⟩ := fine
    have none : firstFit (adjust size) bs = none :=
      firstFit_none.mpr fun b hb fits => by
        have := full b hb
        rw [fits.1] at this
        cases this
    have grow : extendHeap h (growth (adjust size) / 4) = (null, h) :=
      extendHeap_refused (by rwa [extension_wrapped (by omega) word])
    refine ⟨null, h, ?_, Or.inl ⟨rfl, rfl⟩⟩
    rw [mmMalloc_missed pos (by rw [findFit_spec _ wf.tiled, none]) grow, if_pos rfl]

theorem not_malloc_answers (wf : WellFormed h bs) (pos : 0 < size) (word : size < 2 ^ 32)
    (bad : ¬ Answerable h bs size) : ¬ MallocAnswers h size := by
  rintro ⟨p, h', run, answer⟩
  have v := wf.tiled.valid
  have := v.low
  have := v.high
  have := v.area
  have := v.space
  have := maxHeap_eq
  unfold Answerable at bad
  split at bad
  · -- the break wraps around
    rename_i small
    have round := adjust_rounded_of_lt small
    have a8 := (adjust_bounds (show size < 2 ^ 32 - 15 by omega)).1
    have below := adjust_lt (show size < 2 ^ 32 - 15 by omega)
    have g32 : growth (adjust size) < 2 ^ 32 := by unfold growth; omega
    rw [← round] at bad
    simp only [not_or, not_exists, not_and] at bad
    obtain ⟨nothing, accepts, wrap⟩ := bad
    have none : firstFit (adjust size) bs = none := firstFit_none.mpr nothing
    obtain ⟨brk, start⟩ := mmMalloc_missed_brk pos (by rw [findFit_spec _ wf.tiled, none]) run
    have g31 : growth (adjust size) < 2 ^ 31 := by
      by_contra big
      exact accepts (Or.inl (toInt32_neg (by omega) g32))
    rw [extension_growth a8 g32, memSbrk, if_neg accepts, toInt32_eq g31] at brk
    simp only at brk
    rcases answer with ⟨-, rfl⟩ | ⟨bs', b, wf', -⟩
    · omega
    · have := wf'.tiled.valid.low
      omega
  · -- the rounded size wraps around
    rename_i large
    have small := (adjust_wrapped (by omega) word).2
    rcases answer with ⟨rfl, rfl⟩ | ⟨bs', b, wf', live, room⟩
    · cases found : firstFit (adjust size) bs with
      | some chosen =>
          obtain ⟨pre, b, post⟩ := chosen
          have got := mmMalloc_found pos (by rw [findFit_spec _ wf.tiled, found])
            (show h'.memStartBrk + 16 + extent Block.size pre ≠ 0 by omega)
          rw [got] at run
          have := (Prod.mk.inj (Except.ok.inj run)).1
          simp only [null] at this
          omega
      | none =>
          have accepts : ¬ sbrkRefuses h'.toMemLib 4096 := fun refused => bad ⟨fun b hb => by
            by_contra free
            have := wf.tiled.large b hb
            exact firstFit_none.mp found b hb ⟨by simpa using free, by omega⟩, refused⟩
          obtain ⟨brk, -⟩ := mmMalloc_missed_brk pos (by rw [findFit_spec _ wf.tiled, found]) run
          rw [extension_wrapped (by omega) word, memSbrk, if_neg accepts] at brk
          simp only at brk
          omega
    · have := wf'.below live
      omega

/-- `mm_malloc` answers a request of any size exactly where nothing wraps around. -/
theorem malloc_answers_iff (wf : WellFormed h bs) (pos : 0 < size) (word : size < 2 ^ 32) :
    MallocAnswers h size ↔ Answerable h bs size :=
  ⟨fun answers => by
    by_contra bad
    exact not_malloc_answers wf pos word bad answers, malloc_answers wf pos word⟩

end

theorem malloc_answers_iff_between : MallocAnswers between 24 :=
  (malloc_answers_iff between_wellFormed (by decide) (by decide)).mpr
    (Or.inl ⟨⟨32, false⟩, by decide, by decide⟩)

theorem malloc_wraps_largest :
    WellFormed (mmInit highArea).2 [⟨4096, false⟩] ∧ adjust 4294967295 = 8 ∧
      (∃ p h', mmMalloc (mmInit highArea).2 4294967295 = .ok (p, h') ∧ p ≠ null) ∧
      ¬ MallocAnswers (mmInit highArea).2 4294967295 := by
  obtain ⟨h, run, wf, start, -⟩ := highArea_init
  rw [show (mmInit highArea).2 = h by rw [run]]
  have found : firstFit (adjust 4294967295) [⟨4096, false⟩] = some ([], ⟨4096, false⟩, []) := by
    decide
  refine ⟨wf, by decide, ?_, not_malloc_answers wf (by decide) (by decide) ?_⟩
  · have ne : h.memStartBrk + 16 + extent Block.size [] ≠ 0 := by omega
    exact ⟨_, _, mmMalloc_found (by decide) (by rw [findFit_spec _ wf.tiled, found]) ne, ne⟩
  · unfold Answerable
    rw [if_neg (by decide)]
    rintro ⟨full, -⟩
    exact absurd (full _ List.mem_cons_self) (by decide)

end MallocLab.FirstFit
