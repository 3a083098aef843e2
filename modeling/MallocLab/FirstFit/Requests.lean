import MallocLab.FirstFit.Coalesce

/-!
# The requests on a tiled heap

One specification for each of `find_fit`, `extend_heap`, `mm_malloc` and `mm_free`: the heap
after the call represents the list of blocks after the corresponding step on lists, and the
payloads of allocated blocks are kept.
-/

namespace MallocLab.FirstFit
open Memory

structure SameArea (h h' : Heap) : Prop where
  start : h'.memStartBrk = h.memStartBrk
  max : h'.memMaxAddr = h.memMaxAddr

theorem SameArea.setMem {h h' : Heap} (area : SameArea h h') (m : Mem) :
    SameArea h { h' with mem := m } := ⟨area.start, area.max⟩

theorem SameArea.refl (h : Heap) : SameArea h h := ⟨rfl, rfl⟩

theorem SameArea.trans {h h' h'' : Heap} (one : SameArea h h') (two : SameArea h' h'') :
    SameArea h h'' := ⟨two.start.trans one.start, two.max.trans one.max⟩

theorem memBrk_setMem (h : Heap) (m : Mem) : ({ h with mem := m } : Heap).memBrk = h.memBrk := rfl

/-- No payload byte of an allocated block of `h` is changed, except for the block at `p`. -/
def KeepsPayloads (h h' : Heap) (bs : List Block) (p : Nat) : Prop :=
  ∀ x b, (x, b) ∈ located (h.memStartBrk + 16) bs → b.alloc = true → x ≠ p →
    ∀ a, x ≤ a → a < x + b.size - 8 → h'.mem a = h.mem a

section
variable {h : Heap} {pre mid post bs : List Block} {b : Block}

theorem Tiled.lengthBound (ht : Tiled h bs) : 16 * bs.length + 16 < 2 ^ 32 := by
  have large := ht.large
  have := ht.brk
  have := ht.valid.high
  have := ht.valid.space
  have len : 16 * bs.length ≤ extent Block.size bs := by
    clear * - large
    induction bs with
    | nil => simp
    | cons c bs ih =>
        have := large c (by simp)
        have := ih fun d hd => large d (by simp [hd])
        simp only [List.length_cons, extent_cons]
        omega
  omega

/-! ## Searching -/

theorem findFitFrom_succ (m : Mem) (asize rounds bp : Nat) :
    findFitFrom m asize (rounds + 1) bp =
      if getSize m (bp - 4) > 0 then
        if getAlloc m (bp - 4) = 0 ∧ asize ≤ getSize m (bp - 4) then some bp
        else findFitFrom m asize rounds (bp + getSize m (bp - 4))
      else some null := rfl

theorem findFitFrom_spec (asize : Nat) (ht : Tiled h (pre ++ bs)) (rounds : Nat)
    (enough : bs.length < rounds) :
    findFitFrom h.mem asize rounds (h.memStartBrk + 16 + extent Block.size pre) =
      some (match firstFit asize bs with
        | some (skipped, _, _) =>
            h.memStartBrk + 16 + extent Block.size pre + extent Block.size skipped
        | none => null) := by
  induction bs generalizing pre rounds with
  | nil =>
      obtain ⟨rounds, rfl⟩ := Nat.exists_eq_add_of_lt enough
      have header := ht.after_cut.2.2
      have size := getSize_eq header rfl
      simp only [after_nil] at size
      simp [findFitFrom_succ, firstFit, size]
  | cons c bs ih =>
      obtain ⟨rounds, rfl⟩ := Nat.exists_eq_add_of_lt enough
      have c8 := ht.aligned c (by simp)
      have c16 := ht.large c (by simp)
      have size := getSize_eq ht.at.header c8
      have alloc := getAlloc_eq ht.at.header c8
      have pos : 0 < c.size := by omega
      rw [show (c :: bs).length + rounds + 1 = (bs.length + rounds + 1) + 1 by simp; omega]
      simp only [findFitFrom_succ _ _ (bs.length + rounds + 1), size, alloc, gt_iff_lt, pos, if_true]
      by_cases fits : c.Fits asize
      · simp [firstFit, fits, fits.1, fits.2]
      · have skip : ¬ (c.alloc.toNat = 0 ∧ asize ≤ c.size) := by
          rintro ⟨free, le⟩
          exact fits ⟨by simpa using free, le⟩
        rw [List.append_cons] at ht
        have next := ih ht (bs.length + rounds + 1) (by omega)
        simp only [extent_append, extent_cons, extent_nil, Nat.add_zero, ← Nat.add_assoc] at next
        rw [if_neg skip, next]
        simp only [firstFit, if_neg fits]
        cases firstFit asize bs <;> simp [Nat.add_assoc]

theorem findFit_spec (asize : Nat) (ht : Tiled h bs) :
    findFit h asize = .ok (match firstFit asize bs with
      | some (skipped, _, _) => h.memStartBrk + 16 + extent Block.size skipped
      | none => null) := by
  have size := getSize_eq ht.prologueHeader rfl
  have alloc := getAlloc_eq ht.prologueHeader rfl
  have len := ht.lengthBound
  obtain ⟨rounds, enough⟩ : ∃ rounds, 2 ^ 32 = rounds + 1 := ⟨2 ^ 32 - 1, by norm_num⟩
  have walk := findFitFrom_spec asize (show Tiled h ([] ++ bs) from ht) rounds (by omega)
  simp only [extent_nil, Nat.add_zero] at walk
  have prologueEnd : h.memStartBrk + 8 - 4 = h.memStartBrk + 4 := by omega
  -- the first round steps over the prologue
  rw [findFit, enough, ht.listp, findFitFrom_succ, prologueEnd, size, alloc]
  simp only [Bool.toNat_true, one_ne_zero, false_and, if_false, gt_iff_lt, Nat.ofNat_pos, if_true]
  rw [show h.memStartBrk + 8 + 8 = h.memStartBrk + 16 by omega, walk]

/-! ## Growing -/

theorem sbrk_accepted {s : MemLib} {n : Nat} (pos : 0 < n)
    (accepts : ¬ sbrkRefuses s n) (wrap : s.memBrk + n < 2 ^ 32) :
    memSbrk s n = (s.memBrk, { s with memBrk := s.memBrk + n }) ∧ s.memBrk ≠ minusOne ∧
      s.memBrk + n ≤ s.memMaxAddr := by
  refine ⟨memSbrk_accepted accepts wrap, show s.memBrk ≠ 0xFFFFFFFF by omega, ?_⟩
  simp only [sbrkRefuses] at accepts
  omega

theorem Tiled.extend {n : Nat} (ht : Tiled h bs) (n8 : n % 8 = 0) (big : 16 ≤ n)
    (fits : h.memBrk + n ≤ h.memMaxAddr) :
    Tiled { h with
        mem := put (stamp h.mem h.memBrk ⟨n, false⟩) (h.memBrk + n - 4) epilogue.word
        memBrk := h.memBrk + n } (bs ++ [⟨n, false⟩]) := by
  have hb := ht.brk
  have v := ht.valid
  have space := v.space
  have marked : Marks h.mem (stamp h.mem h.memBrk ⟨n, false⟩) h.memBrk ⟨n, false⟩ :=
    marks_header_footer (by omega) n8 big (by simp only; omega)
  have low : ∀ a, a < h.memBrk - 4 →
      put (stamp h.mem h.memBrk ⟨n, false⟩) (h.memBrk + n - 4) epilogue.word a = h.mem a :=
    fun a ha => (setWord_of_outside (by omega)).trans (marked.kept a (by omega))
  have lowWord : ∀ p, p + 4 ≤ h.memBrk - 4 →
      get (put (stamp h.mem h.memBrk ⟨n, false⟩) (h.memBrk + n - 4) epilogue.word) p = get h.mem p :=
    fun p hp => word_congr fun a _ _ => low a (by omega)
  refine
    { valid := ⟨v.start, Nat.le_add_right_of_le v.low, fits, v.area, v.space⟩
      listp := ht.listp
      prologueHeader := (lowWord _ (by simp only; omega)).trans ht.prologueHeader
      prologueFooter := ?_
      aligned := ?_
      large := ?_
      blocks := ?_
      brk := by simp only [extent_append, extent_cons, extent_nil]; omega
      epilogueHeader := word_setWord_self _ _ (by decide) }
  · cases bs with
    | nil =>
        -- the prologue footer lies right before the old epilogue
        simp only [extent_nil, Nat.add_zero] at hb
        exact (lowWord _ (by simp only; omega)).trans ht.prologueFooter
    | cons c bs =>
        simp only [extent_cons] at hb
        exact (lowWord _ (by simp only; omega)).trans ht.prologueFooter
  · intro c hc
    rcases List.mem_append.mp hc with hc | hc
    · exact ht.aligned c hc
    · rwa [List.mem_singleton.mp hc]
  · intro c hc
    rcases List.mem_append.mp hc with hc | hc
    · exact ht.large c hc
    · rwa [List.mem_singleton.mp hc]
  · intro x c hc
    simp only [located, placed_append, placed_cons, placed_nil, List.mem_append,
      List.mem_singleton, Prod.mk.injEq] at hc
    rcases hc with hc | ⟨rfl, rfl⟩
    · have := placed_bounds hc
      have big := ht.large c (placed_mem hc)
      exact (ht.blocks x c hc).congr (by omega) big fun a _ _ => low a (by omega)
    · rw [hb]
      exact marked.held.congr (by omega) big fun a _ _ => setWord_of_outside (by simp only at *; omega)

def extension (words : Nat) : Nat :=
  if words % 2 ≠ 0 then mul32 (add32 words 1) wsize else mul32 words wsize

theorem extendHeap_refused {words : Nat}
    (refused : sbrkRefuses h.toMemLib (toInt32 (extension words))) :
    extendHeap h words = (null, h) := by
  simp only [extendHeap]
  rw [← extension, memSbrk_refused refused]
  rfl

theorem extendHeap_spec {words n : Nat} (ht : Tiled h bs) (size : extension words = n)
    (n8 : n % 8 = 0) (big : 16 ≤ n) (small : n < 2 ^ 31)
    (accepts : ¬ sbrkRefuses h.toMemLib n) (wrap : h.memBrk + n < 2 ^ 32) :
    ∃ h', extendHeap h words = (h.memStartBrk + 16 + extent Block.size (keptBefore bs), h') ∧
      Tiled h' (join bs n []) ∧ SameArea h h' ∧ h'.memBrk = h.memBrk + n ∧
      ∀ a, (a < h.memStartBrk + 16 + extent Block.size (keptBefore bs) - 4 ∨
        h.memBrk + n ≤ a) → h'.mem a = h.mem a := by
  obtain ⟨run, ne, fits⟩ := sbrk_accepted (by omega) accepts wrap
  have marked : Marks h.mem (stamp h.mem h.memBrk ⟨n, false⟩) h.memBrk ⟨n, false⟩ :=
    marks_header_footer (by have := ht.brk; omega) n8 big (by simp only; omega)
  have extended := ht.extend n8 big fits
  have hb := ht.brk
  obtain ⟨m, merged, tiled, kept⟩ := coalesce_spec extended
  refine ⟨_, ?_, tiled, ⟨rfl, rfl⟩, rfl, fun a ha => ?_⟩
  · have header : pack n 0 = (⟨n, false⟩ : Block).word := pack_eq n8 false
    have last : pack 0 1 = epilogue.word := rfl
    simp only [extendHeap]
    rw [← extension, size, toInt32_eq small, run]
    simp only [if_neg ne, hdrp, ftrp, nextBlkp, wsize, dsize, header, last]
    simp (disch := first | omega | (simp only; omega)) only [getSize_put_self, getSize_put_apart]
    rw [← stamp]
    simp only [hb] at merged
    simp only [merged]
  · simp only [freeAfter, after_nil, if_true] at kept
    have := extent_keptBefore bs
    exact (kept a (by omega)).trans
      ((setWord_of_outside (by omega)).trans (marked.kept a (by simp only; omega)))

/-! ## Requests -/

theorem keeps_of_region {h' : Heap} {p : Nat} (ht : Tiled h bs) (whole : bs = pre ++ mid ++ post)
    (only : ∀ x b, (x, b) ∈ located (h.memStartBrk + 16 + extent Block.size pre) mid →
      b.alloc = true → x = p)
    (kept : ∀ a, (a < h.memStartBrk + 16 + extent Block.size pre - 4 ∨
      (h.memStartBrk + 16 + extent Block.size pre + extent Block.size mid - 4 ≤ a ∧
        a < h.memBrk - 4)) → h'.mem a = h.mem a) :
    KeepsPayloads h h' bs p := by
  subst whole
  intro x b hb alloc ne a low high
  have end_ := ht.brk
  have big := ht.large b (placed_mem hb)
  have inside := placed_bounds hb
  simp only [located, placed_append, List.mem_append, extent_append, ← Nat.add_assoc] at hb
  rcases hb with (hb | hb) | hb
  · have := placed_bounds hb
    exact kept a (by omega)
  · exact absurd (only x b hb alloc) ne
  · have := placed_bounds hb
    exact kept a (by omega)

theorem mmFree_spec (ht : Tiled h (pre ++ b :: post)) :
    Tiled (mmFree h (h.memStartBrk + 16 + extent Block.size pre)) (join pre b.size post) ∧
      SameArea h (mmFree h (h.memStartBrk + 16 + extent Block.size pre)) ∧
      (mmFree h (h.memStartBrk + 16 + extent Block.size pre)).memBrk = h.memBrk ∧
      KeepsPayloads h (mmFree h (h.memStartBrk + 16 + extent Block.size pre)) (pre ++ b :: post)
        (h.memStartBrk + 16 + extent Block.size pre) := by
  have b8 := ht.aligned b (by simp)
  have b16 := ht.large b (by simp)
  obtain ⟨bound, space⟩ := ht.bound
  rw [extent_cons] at bound
  have size := getSize_eq ht.at.header b8
  have marked : Marks h.mem _ (h.memStartBrk + 16 + extent Block.size pre) ⟨b.size, false⟩ :=
    marks_header_footer (by omega) b8 b16 (by simp only; omega)
  have freed := (show Tiled h (pre ++ [b] ++ post) by simpa using ht).merge (by simp) (by simp) marked
  obtain ⟨m, merged, tiled, kept⟩ := coalesce_spec freed
  have run : mmFree h (h.memStartBrk + 16 + extent Block.size pre) = { h with mem := m } := by
    have header : pack b.size 0 = (⟨b.size, false⟩ : Block).word := pack_eq b8 false
    simp only [mmFree, hdrp, ftrp, wsize, dsize, size, header]
    simp (disch := first | omega | (simp only; omega)) only [getSize_put_self]
    rw [← stamp]
    simp only [merged]
  rw [run]
  refine ⟨tiled, ⟨rfl, rfl⟩, rfl, ?_⟩
  have before_split := extent_keptBefore pre
  refine keeps_of_region ht (kept_absorbed pre b post).symm ?_ fun a ha => ?_
  · intro x c hc alloc
    have := located_absorbed hc alloc
    omega
  · rw [extent_absorbed] at ha
    exact (kept a (by simp only; omega)).trans (marked.kept a (by simp only; omega))

theorem adjust_eq {size : Nat} (small : size < 2 ^ 32 - 15) :
    adjust size = if size ≤ 8 then 16 else (size + 15) / 8 * 8 := by
  unfold adjust
  simp only [dsize, overhead]
  split
  · rfl
  · rw [show add32 size 8 = size + 8 from add32_eq (by omega), add32_eq (by omega),
      mul32_eq (by omega), Nat.mul_comm]

theorem adjust_bounds {size : Nat} (small : size < 2 ^ 32 - 15) :
    adjust size % 8 = 0 ∧ 16 ≤ adjust size ∧ size + 8 ≤ adjust size ∧ adjust size < size + 16 + 8 := by
  rw [adjust_eq small]
  split <;> omega

theorem adjust_lt {size : Nat} (small : size < 2 ^ 32 - 15) : adjust size < 2 ^ 32 := by
  rw [adjust_eq small]
  split <;> omega

theorem growth_bounds {asize : Nat} (a8 : asize % 8 = 0) :
    growth asize % 8 = 0 ∧ 4096 ≤ growth asize ∧ asize ≤ growth asize := by
  unfold growth
  omega

theorem extension_growth {asize : Nat} (a8 : asize % 8 = 0) (small : growth asize < 2 ^ 32) :
    extension (growth asize / 4) = growth asize := by
  have := growth_bounds a8
  rw [extension, if_neg (by omega), mul32_eq (by simp only [wsize]; omega)]
  simp only [wsize]
  omega

variable {size : Nat}

theorem mmMalloc_found {bp : Nat} (pos : 0 < size) (found : findFit h (adjust size) = .ok bp)
    (ne : bp ≠ null) :
    mmMalloc h size = .ok (bp, { h with mem := place h.mem bp (adjust size) }) := by
  unfold mmMalloc
  rw [if_neg (by omega)]
  dsimp only
  rw [found]
  exact if_pos ne

theorem mmMalloc_missed {bp : Nat} {h' : Heap} (pos : 0 < size)
    (missed : findFit h (adjust size) = .ok null)
    (grow : extendHeap h (growth (adjust size) / 4) = (bp, h')) :
    mmMalloc h size = if bp = null then .ok (null, h')
      else .ok (bp, { h' with mem := place h'.mem bp (adjust size) }) := by
  rw [growth] at grow
  unfold mmMalloc
  rw [if_neg (by omega)]
  dsimp only
  rw [missed]
  simp only [bind, Except.bind, ne_eq, not_true_eq_false, if_false, chunksize, wsize, grow]

theorem mmMalloc_fits (ht : Tiled h bs) (pos : 0 < size) (small : size < 2 ^ 32 - 15)
    (found : firstFit (adjust size) bs = some (pre, b, post)) :
    ∃ h', mmMalloc h size = .ok (h.memStartBrk + 16 + extent Block.size pre, h') ∧
      Tiled h' (pre ++ carve (adjust size) b ++ post) ∧ SameArea h h' ∧ h'.memBrk = h.memBrk ∧
      KeepsPayloads h h' bs null := by
  obtain ⟨a8, a16, -⟩ := adjust_bounds small
  have run : mmMalloc h size = .ok (h.memStartBrk + 16 + extent Block.size pre, { h with
      mem := place h.mem (h.memStartBrk + 16 + extent Block.size pre) (adjust size) }) := by
    exact mmMalloc_found pos (by rw [findFit_spec _ ht, found]) (show _ ≠ 0 by omega)
  obtain ⟨rfl, ⟨free, fit⟩, -⟩ := firstFit_some.mp found
  obtain ⟨tiled, kept⟩ := place_spec ht a8 a16 fit
  refine ⟨_, run, tiled, (SameArea.refl h).setMem _, memBrk_setMem h _, ?_⟩
  refine keeps_of_region ht (List.append_cons pre b post) ?_ fun a ha => kept a ?_
  · intro x c hc alloc
    obtain ⟨-, rfl⟩ := by simpa using hc
    rw [free] at alloc
    cases alloc
  · simp only [extent_cons, extent_nil] at ha
    omega

theorem mmMalloc_refused (ht : Tiled h bs) (pos : 0 < size) (small : size < 2 ^ 32 - 15)
    (none : firstFit (adjust size) bs = none)
    (refused : sbrkRefuses h.toMemLib (toInt32 (growth (adjust size)))) :
    mmMalloc h size = .ok (null, h) := by
  have below := adjust_lt small
  have ext : extension (growth (adjust size) / 4) = growth (adjust size) :=
    extension_growth (adjust_bounds small).1 (by unfold growth; omega)
  have grow : extendHeap h (growth (adjust size) / 4) = (null, h) :=
    extendHeap_refused (by rwa [ext])
  rw [mmMalloc_missed pos (by rw [findFit_spec _ ht, none]) grow, if_pos rfl]

theorem mmMalloc_grows (ht : Tiled h bs) (pos : 0 < size) (small : size < 2 ^ 32 - 15)
    (none : firstFit (adjust size) bs = none)
    (accepts : ¬ sbrkRefuses h.toMemLib (toInt32 (growth (adjust size))))
    (wrap : h.memBrk + growth (adjust size) < 2 ^ 32) :
    ∃ h', mmMalloc h size =
        .ok (h.memStartBrk + 16 + extent Block.size (keptBefore bs), h') ∧
      Tiled h' (keptBefore bs ++
        carve (adjust size) ⟨freeBefore bs + growth (adjust size), false⟩) ∧
      SameArea h h' ∧ h'.memBrk = h.memBrk + growth (adjust size) ∧
      KeepsPayloads h h' bs null := by
  obtain ⟨a8, a16, -⟩ := adjust_bounds small
  have below := adjust_lt small
  obtain ⟨g8, g4096, ag⟩ := growth_bounds a8
  have g32 : growth (adjust size) < 2 ^ 32 := by unfold growth; omega
  have g31 : growth (adjust size) < 2 ^ 31 := by
    by_contra big
    exact accepts (Or.inl (toInt32_neg (by omega) g32))
  rw [toInt32_eq g31] at accepts
  obtain ⟨h₁, grow, tiled, area, brk, kept⟩ :=
    extendHeap_spec ht (extension_growth a8 g32) g8 (by omega) g31 accepts wrap
  have ends := ht.brk
  have split := extent_keptBefore bs
  -- the last block of the grown heap is free and takes the request
  have tiled : Tiled h₁ (keptBefore bs ++ [⟨freeBefore bs + growth (adjust size), false⟩]) := by
    simpa [join, freeAfter, keptAfter] using tiled
  obtain ⟨placed, kept'⟩ := place_spec tiled a8 a16 (by simp only; omega)
  rw [← area.start] at grow ⊢
  have run := mmMalloc_missed pos (by rw [findFit_spec _ ht, none]) grow
  rw [if_neg (show ¬ _ = 0 by omega)] at run
  rw [List.append_nil] at placed
  refine ⟨_, run, placed, area.setMem _, (memBrk_setMem h₁ _).trans brk, ?_⟩
  -- only the trailing free block, if there is one, is overwritten
  have whole : bs = keptBefore bs ++ (if (before bs).alloc then [] else [before bs]) ++ [] := by
    rw [List.append_nil, keptBefore_append]
  refine keeps_of_region ht whole ?_ fun a ha => ?_
  · intro x c hc alloc
    cases hb : (before bs).alloc
    · obtain ⟨-, rfl⟩ := by simpa [hb] using hc
      rw [hb] at alloc
      cases alloc
    · simp [hb] at hc
  · have last : extent Block.size (if (before bs).alloc then [] else [before bs]) = freeBefore bs := by
      cases hb : (before bs).alloc <;> simp [freeBefore, hb]
    rw [last] at ha
    exact (kept' a (by have := area.start; simp only; omega)).trans (kept a (by omega))

end

end MallocLab.FirstFit
