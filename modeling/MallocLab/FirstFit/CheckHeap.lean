import MallocLab.FirstFit.Invariant

/-!
# The heap checker (mm-firstfit.c)

`mm_checkheap` walks the headers. What it prints is a function of the blocks that the walk meets; it tells
nothing but the prologue, the epilogue and the equality of the two tags of every block.
-/

namespace MallocLab.FirstFit
open Memory

/-- A line by its `printf` and the arguments. -/
inductive Line
  | heap (heapListp : Nat)
  | badPrologue
  | badEpilogue
  | notAligned (bp : Nat)
  | tagsDiffer
  | endOfList (bp : Nat)
  | block (bp hsize : Nat) (halloc : Char) (fsize : Nat) (falloc : Char)
  deriving DecidableEq, Repr

def letter (alloc : Nat) : Char := if alloc ≠ 0 then 'a' else 'f'

def printblock (m : Mem) (bp : Nat) : Line :=
  let hsize := getSize m (hdrp bp)
  let halloc := getAlloc m (hdrp bp)
  let fsize := getSize m (ftrp m bp)
  let falloc := getAlloc m (ftrp m bp)
  if hsize = 0 then .endOfList bp else .block bp hsize (letter halloc) fsize (letter falloc)

def checkblock (m : Mem) (bp : Nat) : List Line :=
  (if bp % 8 ≠ 0 then [.notAligned bp] else []) ++
    if get m (hdrp bp) ≠ get m (ftrp m bp) then [.tagsDiffer] else []

/-- The loop, with the pointer it ends at; `none` when it has not ended after the given number of rounds. -/
def checkFrom (m : Mem) (verbose : Bool) : Nat → Nat → Option (List Line × Nat)
  | 0, _ => none
  | rounds + 1, bp =>
      if getSize m (hdrp bp) > 0 then
        (checkFrom m verbose rounds (nextBlkp m bp)).map fun (lines, e) =>
          ((if verbose then [printblock m bp] else []) ++ checkblock m bp ++ lines, e)
      else some ([], bp)

def mmCheckheap (h : Heap) (verbose : Bool) : Except Stop (List Line) :=
  let m := h.mem
  let lines := if verbose then [.heap h.heapListp] else []
  let lines := lines ++
    if getSize m (hdrp h.heapListp) ≠ dsize ∨ getAlloc m (hdrp h.heapListp) = 0 then [.badPrologue] else []
  let lines := lines ++ checkblock m h.heapListp
  match checkFrom m verbose (2 ^ 32) h.heapListp with
  | none => .error .diverge
  | some (found, bp) =>
      let lines := lines ++ found
      let lines := lines ++ if verbose then [printblock m bp] else []
      .ok (lines ++
        if getSize m (hdrp bp) ≠ 0 ∨ getAlloc m (hdrp bp) = 0 then [.badEpilogue] else [])

/-! ## Walks -/

section
variable {m : Mem} {bp e : Nat} {ps : List Nat} {verbose : Bool}

theorem getSize_mod (m : Mem) (p : Nat) : getSize m p % 8 = 0 := by
  rw [getSize, get, and_mask8 (word_lt m p)]
  omega

theorem Walk.length_le (walk : Walk m bp ps e) : bp + 8 * ps.length ≤ e := by
  induction walk with
  | stop zero => simp
  | @step bp e ps pos rest ih =>
      have eight := getSize_mod m (hdrp bp)
      have next : nextBlkp m bp = bp + getSize m (hdrp bp) := rfl
      rw [List.length_cons]
      omega

theorem Walk.aligned (walk : Walk m bp ps e) : ∀ p ∈ ps, p % 8 = bp % 8 := by
  induction walk with
  | stop zero => simp
  | @step bp e ps pos rest ih =>
      have eight := getSize_mod m (hdrp bp)
      have next : nextBlkp m bp = bp + getSize m (hdrp bp) := rfl
      intro p hp
      rcases List.mem_cons.mp hp with rfl | hp
      · rfl
      · have := ih p hp
        omega

theorem Walk.ends (walk : Walk m bp ps e) : getSize m (hdrp e) = 0 := by
  induction walk with
  | stop zero => exact zero
  | step pos rest ih => exact ih

theorem checkFrom_walk (walk : Walk m bp ps e) {rounds : Nat} (enough : ps.length < rounds) :
    checkFrom m verbose rounds bp = some (ps.flatMap fun p =>
      (if verbose then [printblock m p] else []) ++ checkblock m p, e) := by
  induction walk generalizing rounds with
  | stop zero =>
      obtain ⟨rounds, rfl⟩ := Nat.exists_eq_succ_of_ne_zero (Nat.ne_of_gt enough)
      simp [checkFrom, zero]
  | step pos rest ih =>
      obtain ⟨rounds, rfl⟩ := Nat.exists_eq_succ_of_ne_zero (Nat.ne_of_gt (Nat.zero_lt_of_lt enough))
      rw [checkFrom, if_pos pos, ih (Nat.lt_of_succ_lt_succ enough)]
      rfl

theorem mmCheckheap_walk {h : Heap} (walk : Walk h.mem h.heapListp ps e) (space : e < 2 ^ 32) :
    mmCheckheap h verbose = .ok ((if verbose then [.heap h.heapListp] else []) ++
      (if getSize h.mem (hdrp h.heapListp) ≠ dsize ∨ getAlloc h.mem (hdrp h.heapListp) = 0 then
        [.badPrologue] else []) ++ checkblock h.mem h.heapListp ++
      (ps.flatMap fun p => (if verbose then [printblock h.mem p] else []) ++ checkblock h.mem p) ++
      (if verbose then [printblock h.mem e] else []) ++
      if getAlloc h.mem (hdrp e) = 0 then [.badEpilogue] else []) := by
  have short := walk.length_le
  rw [mmCheckheap, checkFrom_walk walk (by omega)]
  simp [walk.ends]

theorem checkblock_nil {p : Nat} :
    checkblock m p = [] ↔ p % 8 = 0 ∧ get m (hdrp p) = get m (ftrp m p) := by
  unfold checkblock
  by_cases aligned : p % 8 = 0 <;> by_cases tags : get m (hdrp p) = get m (ftrp m p) <;>
    simp [aligned, tags]

/-- The checker is silent exactly when the prologue and the epilogue are there and every block has two equal
tags: of the addresses only the first one matters. -/
theorem checkheap_silent_iff {h : Heap} (walk : Walk h.mem h.heapListp ps e) (space : e < 2 ^ 32) :
    mmCheckheap h false = .ok [] ↔
      h.heapListp % 8 = 0 ∧ getSize h.mem (hdrp h.heapListp) = 8 ∧ getAlloc h.mem (hdrp h.heapListp) ≠ 0 ∧
        (∀ p ∈ ps, get h.mem (hdrp p) = get h.mem (ftrp h.mem p)) ∧ getAlloc h.mem (hdrp e) ≠ 0 := by
  have aligned := walk.aligned
  rw [mmCheckheap_walk walk space, Except.ok.injEq]
  simp only [List.append_eq_nil_iff, List.flatMap_eq_nil_iff, checkblock_nil, Bool.false_eq_true,
    if_false, true_and, and_true, dsize, ite_eq_right_iff, List.cons_ne_nil, imp_false, not_or, not_not, and_assoc]
  constructor
  · rintro ⟨size, alloc, first, -, tags, last⟩
    exact ⟨first, size, alloc, fun p hp => (tags p hp).2, last⟩
  · rintro ⟨first, size, alloc, tags, last⟩
    -- the prologue is the first block of the walk
    have head : h.heapListp ∈ ps := by
      cases walk with
      | stop zero => omega
      | step pos rest => exact List.mem_cons_self
    exact ⟨size, alloc, first, tags _ head, fun p hp => ⟨by have := aligned p hp; omega, tags p hp⟩, last⟩

end

/-! ## The heaps of the allocator -/

def blockLine (e : Nat × Block) : Line :=
  .block e.1 e.2.size (letter e.2.alloc.toNat) e.2.size (letter e.2.alloc.toNat)

theorem printblock_of_tags {m : Mem} {x : Nat} {b : Block} (size : getSize m (hdrp x) = b.size)
    (alloc : getAlloc m (hdrp x) = b.alloc.toNat) (tags : get m (hdrp x) = get m (ftrp m x))
    (pos : b.size ≠ 0) : printblock m x = blockLine (x, b) := by
  have fsize : getSize m (ftrp m x) = b.size := by
    rw [← size, getSize, ← tags]
    rfl
  have falloc : getAlloc m (ftrp m x) = b.alloc.toNat := by
    rw [← alloc, getAlloc, ← tags]
    rfl
  simp only [printblock, size, alloc, fsize, falloc]
  exact if_neg pos

section
variable {h : Heap} {bs : List Block}

theorem Tiled.prologue_tags (ht : Tiled h bs) :
    getSize h.mem (hdrp h.heapListp) = 8 ∧ getAlloc h.mem (hdrp h.heapListp) = 1 ∧
      get h.mem (hdrp h.heapListp) = get h.mem (ftrp h.mem h.heapListp) := by
  have first : get h.mem (hdrp h.heapListp) = prologue.word := by
    rw [ht.listp]
    exact ht.prologueHeader
  have size : getSize h.mem (hdrp h.heapListp) = 8 := getSize_eq first rfl
  refine ⟨size, getAlloc_eq first rfl, ?_⟩
  rw [first, ftrp, size, ht.listp]
  exact ht.prologueFooter.symm

theorem Tiled.walk_listp (ht : Tiled h bs) :
    Walk h.mem h.heapListp (h.heapListp :: (located (h.memStartBrk + 16) bs).map Prod.fst) h.memBrk := by
  have size := ht.prologue_tags.1
  have rest := (show Tiled h ([] ++ bs) from ht).walk
  refine .step (by rw [size]; decide) ?_
  rw [show nextBlkp h.mem _ = _ + getSize h.mem (hdrp _) from rfl, size, ht.listp]
  exact rest

theorem Tiled.mmCheckheap (ht : Tiled h bs) (base : h.memStartBrk % 8 = 0) :
    FirstFit.mmCheckheap h false = .ok [] ∧
      FirstFit.mmCheckheap h true = .ok ([.heap (h.memStartBrk + 8), blockLine (h.memStartBrk + 8, prologue)] ++
        (located (h.memStartBrk + 16) bs).map blockLine ++ [.endOfList h.memBrk]) := by
  have space : h.memBrk < 2 ^ 32 := ht.valid.high.trans_lt ht.valid.space
  have listp := ht.listp
  obtain ⟨size, alloc, tags⟩ := ht.prologue_tags
  have last : getAlloc h.mem (hdrp h.memBrk) = 1 := getAlloc_eq ht.epilogueHeader rfl
  have quiet : checkblock h.mem h.heapListp = [] := checkblock_nil.mpr ⟨by omega, tags⟩
  have silent : ∀ e ∈ located (h.memStartBrk + 16) bs, checkblock h.mem e.1 = [] := fun e he =>
    checkblock_nil.mpr ⟨located_mod ht.aligned (by omega) he, (ht.fields he).2.2⟩
  have shown : ∀ e ∈ located (h.memStartBrk + 16) bs, printblock h.mem e.1 = blockLine e := by
    rintro ⟨x, b⟩ he
    obtain ⟨size, alloc, tags⟩ := ht.fields he
    have large := ht.large b (placed_mem he)
    exact printblock_of_tags size alloc tags (by omega)
  have header : printblock h.mem h.heapListp = blockLine (h.heapListp, prologue) :=
    printblock_of_tags size alloc tags (by decide)
  have stop : printblock h.mem h.memBrk = .endOfList h.memBrk :=
    if_pos (getSize_eq ht.epilogueHeader rfl)
  constructor
  · rw [mmCheckheap_walk ht.walk_listp space, size, alloc, last, quiet, List.flatMap_cons, quiet, List.flatMap_map]
    have none : (located (h.memStartBrk + 16) bs).flatMap (fun e => checkblock h.mem e.1) = [] :=
      List.flatMap_eq_nil_iff.mpr silent
    simp [none]
  · rw [mmCheckheap_walk ht.walk_listp space, size, alloc, last, quiet, List.flatMap_cons, quiet, header, stop,
      List.flatMap_map, listp]
    have lines : (located (h.memStartBrk + 16) bs).flatMap
        (fun e => [printblock h.mem e.1] ++ checkblock h.mem e.1) =
        (located (h.memStartBrk + 16) bs).map blockLine := by
      rw [List.map_eq_flatMap]
      apply List.flatMap_congr
      intro e he
      rw [silent e he, shown e he]
      rfl
    simp only [if_true, lines]
    simp

end

/-- After every call of a run the check is silent, and the verbose check shows the blocks that first fit has
made of the calls, whatever the area held and the client wrote. -/
theorem checkheap_shows {s : MemLib} {calls : List Call} {h : Heap} {c : Client} (v : s.Valid)
    (empty : s.memBrk = s.memStartBrk) (exact : s.Exact) (base : s.memStartBrk % 8 = 0)
    (run : Runs s calls h c) :
    ∃ bs, planned (s.memStartBrk + 16) calls = some (bs, c) ∧ mmCheckheap h false = .ok [] ∧
      mmCheckheap h true = .ok ([.heap (s.memStartBrk + 8), blockLine (s.memStartBrk + 8, prologue)] ++
        (located (s.memStartBrk + 16) bs).map blockLine ++
          [.endOfList (s.memStartBrk + 16 + extent Block.size bs)]) := by
  obtain ⟨bs, plan, serves, start, -⟩ := runs_planned v empty exact run
  have ht := serves.wf.tiled
  obtain ⟨silent, shown⟩ := ht.mmCheckheap (by rwa [start])
  rw [← ht.brk, start] at shown
  exact ⟨bs, plan, silent, shown⟩

theorem checkheap_shows_lowArea : ∃ h c, Runs (lowArea 7) [.malloc 100, .malloc 5000, .free 0] h c ∧
    mmCheckheap h false = .ok [] := by
  obtain ⟨h, run⟩ := runs_lowArea 7
  obtain ⟨-, -, silent, -⟩ := checkheap_shows (lowArea_valid 7) rfl (lowArea_exact 7) (by decide) run
  exact ⟨h, _, run, silent⟩

def torn : Heap := { between with mem := put between.mem 4152 40 }

theorem walk_torn : Walk torn.mem torn.heapListp [4104, 4112, 4128, 4160] 4176 :=
  .step (by decide +kernel) (.step (by decide +kernel) (.step (by decide +kernel)
    (.step (by decide +kernel) (.stop (by decide +kernel)))))

theorem checkheap_silent_iff_between :
    mmCheckheap between false = .ok [] ∧ mmCheckheap torn false ≠ .ok [] := by
  constructor
  · exact (checkheap_silent_iff between_wellFormed.tiled.walk_listp (by decide)).mpr
      ⟨by decide, by decide +kernel, by decide +kernel, by decide +kernel, by decide +kernel⟩
  · intro silent
    have tags := ((checkheap_silent_iff walk_torn (by decide)).mp silent).2.2.2.1 4128 (by decide)
    revert tags
    decide +kernel

end MallocLab.FirstFit
