import MallocLab.FirstFit.Requests

/-!
# The allocator on well-formed heaps

`mm_init`, `mm_malloc`, `mm_free` and `mm_realloc` when `mem_sbrk` refuses exactly the increments
that are negative or do not fit.
-/

namespace MallocLab.FirstFit
open Memory

def room (h : Heap) : Nat := h.memMaxAddr - h.memBrk

theorem Exact.of_sameArea {h h' : Heap} (exact : h.Exact) (area : SameArea h h') :
    h'.Exact := by
  intro brk incr low high
  simpa only [sbrkRefuses, area.max] using
    exact brk incr (by rw [← area.start]; exact low) (by rw [← area.max]; exact high)

section
variable {h : Heap} {bs : List Block}

theorem refuses_iff (ht : Tiled h bs) (exact : h.Exact) {n : Nat} (small : n < 2 ^ 32) :
    sbrkRefuses h.toMemLib (toInt32 n) ↔ room h < n := by
  have v := ht.valid
  have := v.low
  have := v.high
  have := v.area
  have := maxHeap_eq
  unfold room
  by_cases pos : n < 2 ^ 31
  · have := exact h.memBrk n v.low v.high (by omega) (by omega)
    rw [toInt32_eq pos, this]
    omega
  · have neg : sbrkRefuses h.toMemLib (toInt32 n) := Or.inl (toInt32_neg (by omega) small)
    simp only [neg, true_iff]
    omega

/-- `mm_malloc` takes exactly the block that first fit on the list of blocks chooses. -/
theorem mmMalloc_choose {size : Nat} (wf : WellFormed h bs) (exact : h.Exact) (pos : 0 < size)
    (small : size < 2 ^ 31) :
    match choose (adjust size) (room h) bs with
    | some (pre, b, post) =>
        ∃ h', mmMalloc h size = .ok (h.memStartBrk + 16 + extent Block.size pre, h') ∧
          WellFormed h' (pre ++ carve (adjust size) b ++ post) ∧ SameArea h h' ∧
          KeepsPayloads h h' bs null
    | none => mmMalloc h size = .ok (null, h) := by
  have bounds := adjust_bounds (show size < 2 ^ 32 - 15 by omega)
  have g32 : growth (adjust size) < 2 ^ 32 := by unfold growth; omega
  have refuses := refuses_iff wf.tiled exact g32
  cases found : firstFit (adjust size) bs with
  | some chosen =>
      obtain ⟨pre, b, post⟩ := chosen
      obtain ⟨h', run, tiled, area, -, keeps⟩ := mmMalloc_fits wf.tiled pos (by omega) found
      obtain ⟨rfl, ⟨free, -⟩, -⟩ := firstFit_some.mp found
      simp only [choose, found]
      exact ⟨h', run, ⟨tiled, separated_carve _ wf.separated free⟩, area, keeps⟩
  | none =>
      simp only [choose, found]
      by_cases fits : growth (adjust size) ≤ room h
      · have high := wf.tiled.valid.high
        have space := wf.tiled.valid.space
        obtain ⟨h', run, tiled, area, -, keeps⟩ := mmMalloc_grows wf.tiled pos (by omega) found
          (by rw [refuses]; omega) (by unfold room at fits; omega)
        simp only [if_pos fits]
        refine ⟨h', run, ⟨by simpa using tiled, ?_⟩, area, keeps⟩
        obtain ⟨kept, last⟩ := separated_keptBefore wf.separated
        exact separated_carve _ (separated_free _ kept .nil last rfl) rfl
      · simp only [if_neg fits]
        exact mmMalloc_refused wf.tiled pos (by omega) found (by rw [refuses]; omega)

theorem mmFree_wellFormed {pre post : List Block} {b : Block}
    (wf : WellFormed h (pre ++ b :: post)) :
    WellFormed (mmFree h (h.memStartBrk + 16 + extent Block.size pre)) (join pre b.size post) := by
  obtain ⟨sp, sq⟩ := separated_split wf.separated
  exact ⟨(mmFree_spec wf.tiled).1, separated_join _ sp (separated_split (show Separated ([b] ++ post) from sq)).2⟩

theorem WellFormed.overwrite {m : Mem} (wf : WellFormed h bs)
    (inside : ∀ a, m a ≠ h.mem a → ∃ x b, (x, b) ∈ allocated (h.memStartBrk + 16) bs ∧
      x ≤ a ∧ a < x + b.size - 8) :
    WellFormed { h with mem := m } bs := by
  have ht := wf.tiled
  have ends := ht.brk
  have same : ∀ p, (∀ x b, (x, b) ∈ located (h.memStartBrk + 16) bs →
      p + 4 ≤ x ∨ x + b.size - 8 ≤ p) → get m p = get h.mem p := by
    intro p apart
    refine word_congr fun a low high => ?_
    by_contra changed
    obtain ⟨x, b, member, lo, hi⟩ := inside a changed
    have := apart x b (mem_allocated.mp member).1
    omega
  refine ⟨⟨ht.valid.setMem m, ht.listp, ?_, ?_, ht.aligned, ht.large, ?_, ends, ?_⟩, wf.separated⟩
  · exact (same _ fun x b hb => by have := placed_bounds hb; simp only; omega).trans ht.prologueHeader
  · exact (same _ fun x b hb => by have := placed_bounds hb; simp only; omega).trans ht.prologueFooter
  · intro y c hc
    have big := ht.large c (placed_mem hc)
    have inner := placed_bounds hc
    have held := ht.blocks y c hc
    -- another block lies before or after this one, and its own payload between its two tags
    refine ⟨(same _ fun x b hb => ?_).trans held.header, (same _ fun x b hb => ?_).trans held.footer⟩
    · have := ht.large b (placed_mem hb)
      rcases placed_apart hb hc with ⟨rfl, rfl⟩ | far | far <;> omega
    · have := ht.large b (placed_mem hb)
      rcases placed_apart hb hc with ⟨rfl, rfl⟩ | far | far <;> omega
  · exact (same _ fun x b hb => by
      have := placed_bounds hb; have := ht.large b (placed_mem hb); simp only; omega).trans ht.epilogueHeader

theorem allocated_choose {asize room a : Nat} {pre post : List Block} {b : Block}
    (sep : Separated bs) (chosen : choose asize room bs = some (pre, b, post)) :
    (allocated a (pre ++ carve asize b ++ post)).Perm
      ((a + extent Block.size pre, ⟨taken asize b, true⟩) :: allocated a bs) := by
  obtain ⟨-, fit, -, same⟩ := choose_spec (a := a) sep chosen
  rw [same, allocated_append, allocated_append, allocated_carve, extent_append, extent_carve fit,
    ← Nat.add_assoc, List.append_assoc]
  exact List.perm_middle

/-! ## Reallocation -/

theorem mmRealloc_exits {p size : Nat} (failed : mmMalloc h size = .ok (null, h)) :
    mmRealloc h p size = .error (.exit 1 "ERROR: mm_malloc failed in mm_realloc\n") := by
  simp only [mmRealloc, failed, bind, Except.bind, if_true]

theorem mmRealloc_run {p q size : Nat} {h' : Heap} (got : mmMalloc h size = .ok (q, h'))
    (ne : q ≠ null) :
    mmRealloc h p size = .ok (q, mmFree { h' with
      mem := copy h'.mem q p (min size (getSize h'.mem (hdrp p))) } p) := by
  have least : ∀ c, (if size < c then size else c) = min size c := fun c => by split <;> omega
  simp only [mmRealloc, got, bind, Except.bind, if_neg ne, least]

theorem mmRealloc_choose {p size : Nat} {b : Block} (wf : WellFormed h bs) (exact : h.Exact)
    (pos : 0 < size) (small : size < 2 ^ 31) (live : (p, b) ∈ allocated (h.memStartBrk + 16) bs) :
    match choose (adjust size) (room h) bs with
    | some (pre, c, post) =>
        ∃ h', mmRealloc h p size = .ok (h.memStartBrk + 16 + extent Block.size pre, h') ∧
          WellFormed h' (release p (h.memStartBrk + 16) (pre ++ carve (adjust size) c ++ post)) ∧
          SameArea h h' ∧ KeepsPayloads h h' bs p ∧
          ∀ i, i < b.size - 8 → i < size →
            h'.mem (h.memStartBrk + 16 + extent Block.size pre + i) = h.mem (p + i)
    | none => mmRealloc h p size = .error (.exit 1 "ERROR: mm_malloc failed in mm_realloc\n") := by
  have request := mmMalloc_choose wf exact pos small
  have bounds := adjust_bounds (show size < 2 ^ 32 - 15 by omega)
  cases chosen : choose (adjust size) (room h) bs with
  | none =>
      rw [chosen] at request
      exact mmRealloc_exits request
  | some found =>
      obtain ⟨pre, c, post⟩ := found
      simp only [chosen] at request
      obtain ⟨h₁, got, wf₁, area, keeps⟩ := request
      have allocs := allocated_choose (a := h.memStartBrk + 16) wf.separated chosen
      dsimp only
      generalize hq : h.memStartBrk + 16 + extent Block.size pre = q at *
      generalize hbs : pre ++ carve (adjust size) c ++ post = bs₁ at *
      -- the new block and the old one are both allocated, at different places
      have newLive : (q, ⟨taken (adjust size) c, true⟩) ∈ allocated (h.memStartBrk + 16) bs₁ :=
        allocs.mem_iff.mpr (by simp)
      have oldLive : (p, b) ∈ allocated (h.memStartBrk + 16) bs₁ :=
        allocs.mem_iff.mpr (by simp [live])
      have pos₁ : ∀ c ∈ bs₁, 0 < c.size := fun c hc => by have := wf₁.tiled.large c hc; omega
      have fresh : ∀ x d, (x, d) ∈ allocated (h.memStartBrk + 16) bs → x ≠ q := by
        have nodup := ((allocs.map Prod.fst).nodup_iff).mp (allocated_nodup pos₁)
        rintro x d old rfl
        exact (List.nodup_cons.mp nodup).1 (List.mem_map.mpr ⟨_, old, rfl⟩)
      have oldBound := placed_bounds (mem_allocated.mp live).1
      rw [← area.start] at newLive oldLive
      have newPlaced := (mem_allocated.mp newLive).1
      have oldPlaced := (mem_allocated.mp oldLive).1
      have large := le_taken (choose_spec (a := h.memStartBrk + 16) wf.separated chosen).2.1
      have header : getSize h₁.mem (hdrp p) = b.size :=
        getSize_eq (wf₁.tiled.blocks p b oldPlaced).header (wf₁.tiled.aligned b (placed_mem oldPlaced))
      have qpos := placed_bounds newPlaced
      have run := mmRealloc_run (p := p) got (show q ≠ 0 by omega)
      rw [header] at run
      -- the copy stays inside the new payload
      have copied : WellFormed { h₁ with mem := copy h₁.mem q p (min size b.size) } bs₁ := by
        refine wf₁.overwrite fun a changed => ⟨q, _, newLive, ?_⟩
        by_contra outside
        exact changed (copy_of_outside (by simp only at *; omega))
      obtain ⟨pre₁, post₁, rfl, rfl⟩ := mem_placed.mp oldPlaced
      obtain ⟨freed, area', -, kept⟩ := mmFree_spec copied.tiled
      have split := copied.separated
      refine ⟨_, run, ?_, area.trans ⟨area'.start, area'.max⟩, ?_, ?_⟩
      · rw [← area.start, release_extent fun c hc => pos₁ c (by simp [hc])]
        exact mmFree_wellFormed copied
      · intro x d hd alloc other a low high
        have : (x, d) ∈ allocated (h₁.memStartBrk + 16) (pre₁ ++ b :: post₁) := by
          rw [area.start]
          exact allocs.mem_iff.mpr (by simp [mem_allocated.mpr ⟨hd, alloc⟩])
        have placed := (mem_allocated.mp this).1
        have ne := fresh x d (mem_allocated.mpr ⟨hd, alloc⟩)
        have := placed_bounds hd
        have apart := placed_apart placed newPlaced
        have big := wf₁.tiled.large d (placed_mem placed)
        simp only at apart
        calc _ = copy h₁.mem q _ (min size b.size) a := kept x d placed alloc other a low high
          _ = h₁.mem a := copy_of_outside (by omega)
          _ = h.mem a := keeps x d hd alloc (show x ≠ 0 by omega) a low high
      · intro i hi hs
        have ne := fresh _ _ live
        have : q + i < q + (⟨taken (adjust size) c, true⟩ : Block).size - 8 := by
          simp only
          omega
        calc _ = copy h₁.mem q _ (min size b.size) (q + i) :=
              kept q _ newPlaced rfl ne.symm _ (by omega) this
          _ = h₁.mem (h₁.memStartBrk + 16 + extent Block.size pre₁ + i) := copy_inside (by omega)
          _ = _ := keeps _ _ (mem_allocated.mp live).1 (mem_allocated.mp live).2
              (show _ ≠ 0 by omega) _ (by omega) (by omega)

/-! ## Initialization -/

theorem tiled_empty {s : MemLib} (v : s.Valid) (empty : s.memBrk = s.memStartBrk) :
    Tiled ⟨{ s with
        mem := put (put (put (put s.mem s.memBrk 0) (s.memBrk + 4) prologue.word)
          (s.memBrk + 8) prologue.word) (s.memBrk + 12) epilogue.word
        memBrk := s.memBrk + 16 }, s.memBrk + 8⟩ [] := by
  have := v.start
  have := v.area
  have := v.space
  have := maxHeap_eq
  refine
    { valid := ⟨v.start, by simp only; omega, by simp only; omega, v.area, v.space⟩
      listp := by simp only; omega
      prologueHeader := ?_
      prologueFooter := ?_
      aligned := by simp
      large := by simp
      blocks := by simp [located]
      brk := by simp only [extent_nil]; omega
      epilogueHeader := ?_ }
  · rw [← empty]
    exact (word_setWord_of_apart (by omega)).trans
      ((word_setWord_of_apart (by omega)).trans (word_setWord_self _ _ (by decide)))
  · rw [← empty]
    exact (word_setWord_of_apart (by omega)).trans (word_setWord_self _ _ (by decide))
  · exact word_setWord_self _ _ (by decide)

theorem mmInit_spec {s : MemLib} (v : s.Valid) (empty : s.memBrk = s.memStartBrk) :
    ∃ h, mmInit s = (0, h) ∧ WellFormed h [⟨4096, false⟩] ∧ h.memStartBrk = s.memStartBrk ∧
      h.memMaxAddr = s.memMaxAddr := by
  have start := v.start
  have area := v.area
  have space := v.space
  have max := maxHeap_eq
  obtain ⟨first, -, -⟩ := sbrk_accepted (s := s) (n := 16) (by omega)
    (by simp only [sbrkRefuses]; omega) (by omega)
  obtain ⟨h, grow, tiled, same, -, -⟩ := extendHeap_spec (n := 4096) (tiled_empty v empty)
    (show extension 1024 = 4096 by decide) (by omega) (by omega) (by omega)
    (by simp only [sbrkRefuses]; omega) (by simp only; omega)
  refine ⟨h, ?_, ⟨tiled, .singleton _⟩, same.start, same.max⟩
  have sixteen : memSbrk s (4 * wsize) = memSbrk s (16 : Nat) := rfl
  have words : (pack 8 1, pack 0 1) = (prologue.word, epilogue.word) := rfl
  obtain ⟨header, last⟩ := Prod.mk.inj words
  simp only [mmInit, sixteen, first, wsize, dsize, overhead, chunksize, header, last]
  rw [if_neg (show ¬ s.memBrk = 0 by omega)]
  simp only [Nat.add_assoc, Nat.reduceAdd, Nat.reduceDiv] at grow ⊢
  rw [grow]
  exact if_neg (show ¬ _ = 0 by simp only; omega)

end

def lowArea (b : Byte) : MemLib := memInit (fun _ => b) 4096

theorem lowArea_max (b : Byte) : (lowArea b).memMaxAddr = 20975616 := by
  rfl

theorem lowArea_valid (b : Byte) : (lowArea b).Valid := by
  have start : (lowArea b).memStartBrk = 4096 := rfl
  have brk : (lowArea b).memBrk = 4096 := rfl
  have := lowArea_max b
  have := maxHeap_eq
  constructor <;> omega

theorem lowArea_exact (b : Byte) : (lowArea b).Exact := by
  have valid := lowArea_valid b
  rw [MemLib.exact_iff (valid.low.trans valid.high) valid.space, lowArea_max]
  omega

end MallocLab.FirstFit
