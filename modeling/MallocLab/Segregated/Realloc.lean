import MallocLab.Segregated.Extend
import MallocLab.Segregated.Free

/-!
# Reallocating

`mm_realloc` first reads three headers' fields; what it does then depends on them, on the requested size
and on `mm_malloc` and `extend_heap`. When the memory system refuses, it returns `NULL` and changes
nothing on the path that grows in place only: the result of `mm_malloc` is not checked.
-/

namespace MallocLab.Segregated
open Memory Logged

def wanted (size : Nat) : Nat := add32 (adjust size) buffer

/-- `mm_realloc` of a block of `b` bytes after its reads; the block or epilogue `next` follows. -/
def reallocRead (malloc : Nat → Prog Nat) (bp size b : Nat) (next : Block) : Prog Nat :=
  if toInt32 (sub32 b (wanted size)) < 0 then
    if next.alloc = false ∨ next.size = 0 then
      let remainder := toInt32 (sub32 (add32 b next.size) (wanted size))
      if remainder < 0 then do
        let extendsize := max (neg32 remainder) chunksize
        let grown ← extendHeap extendsize.toNat
        if grown = null then
          return null
        else
          mmRealloc.absorb bp (wanted size) (remainder + extendsize)
      else mmRealloc.absorb bp (wanted size) remainder
    else do
      let newBp ← mmRealloc.callMalloc malloc (sub32 (wanted size) dsize)
      memmove newBp bp (min size (wanted size))
      mmFree bp
      mmRealloc.finish newBp (wanted size)
  else mmRealloc.tagNext bp (toInt32 (sub32 b (wanted size)))

/-- Nothing is moved to the address `NULL`. -/
def NoNullMove : Event → Prop
  | .memmove dst _ _ => dst ≠ null
  | _ => True

def shortage (size b : Nat) (next : Block) : Nat := adjust size + buffer - (b + next.size)

def GrowthRefused (malloc : Nat → Prog Nat) (s : State) (size b : Nat) (next : Block) : Prop :=
  b < adjust size + buffer ∧
    if next.alloc = false ∨ next.size = 0 then
      0 < shortage size b next ∧
        sbrkRefuses s.toMemLib (toInt32 (growth (max (shortage size b next) chunksize)))
    else ∃ s', Does (fun _ => True) (malloc (adjust size + buffer - dsize)) s null s'

section
variable {ok : Event → Prop} {s s' t : State} {e x n r size : Nat} {p : Block} {bs pre post : List Block}
  {malloc : Nat → Prog Nat}

theorem adjust_bounds (small : size + 15 < 2 ^ 32) (pos : 1 ≤ size) :
    size + 8 ≤ adjust size ∧ adjust size ≤ size + 15 ∧ adjust size % 8 = 0 ∧ 16 ≤ adjust size := by
  simp only [adjust, mul32, add32, dsize]
  split <;> omega

theorem wanted_eq (small : size + 143 < 2 ^ 32) (pos : 1 ≤ size) : wanted size = adjust size + 128 := by
  have := adjust_bounds (by omega) pos
  exact add32_eq (by simp only [buffer]; omega)

theorem does_mmRealloc (wf : WellFormed s (pre ++ p :: post))
    (hx : x = s.memStartBrk + 16 + extent Block.size pre) (pos : size ≠ 0)
    (tol : Tolerates ok s.memStartBrk s.memBrk) :
    Does ok (mmRealloc malloc x size) s r s' ↔
      Does ok (reallocRead malloc x size p.size (after post)) s r s' := by
  have cut := wf.tiled.cut
  have cut' := (show Tiled s s.memBrk ((pre ++ [p]) ++ post) by simpa using wf.tiled).cut
  have ends := wf.tiled.ends
  have p16 := wf.tiled.large p (by simp)
  simp only [extent_append, extent_cons, extent_nil, Nat.add_zero, ← Nat.add_assoc, after_cons, ← hx]
    at cut cut' ends
  have access : ∀ q, s.memStartBrk ≤ q → q + 4 ≤ s.memBrk → (ok (.access q) ↔ True) :=
    fun q low high => iff_true_intro (tol.access q low high)
  have free : (after post).alloc.toNat = 0 ↔ (after post).alloc = false := by
    cases (after post).alloc <;> simp
  unfold mmRealloc reallocRead
  rw [if_neg pos]
  simp (disch := omega) only [does_getSize_bind, hdrp, wsize, cut.nextSize, access, true_and,
    show add32 (adjust size) buffer = wanted size from rfl]
  by_cases small : toInt32 (sub32 p.size (wanted size)) < 0
  · simp (disch := omega) only [if_pos small, does_nextBlkp_bind, does_getAlloc_bind, does_getSize_bind,
      cut.nextSize, cut'.nextAlloc, cut'.nextSize, access, true_and, free]
    by_cases next : (after post).alloc = false ∨ (after post).size = 0
    · simp (disch := omega) only [if_pos next, does_nextBlkp_bind, does_getSize_bind, cut.nextSize,
        cut'.nextSize, access, true_and]
    · rw [if_neg next, if_neg next]
  · rw [if_neg small, if_neg small]

theorem short_of_lt (small : size ≤ maxHeap) (pos : 1 ≤ size) (lt : n < adjust size + buffer) :
    toInt32 (sub32 n (wanted size)) = (n : Int) - (adjust size + buffer) := by
  have bounds := adjust_bounds (by rw [maxHeap_eq] at small; omega) pos
  rw [maxHeap_eq] at small
  rw [wanted_eq (by omega) pos, toInt32, sub32]
  simp only [buffer] at *
  split <;> omega

theorem reallocRead_refused {next : Block} (small : size ≤ maxHeap) (pos : 1 ≤ size)
    (refused : GrowthRefused malloc s size n next) (grow : next.alloc = false ∨ next.size = 0) :
    Does ok (reallocRead malloc x size n next) s null s := by
  obtain ⟨lt, refused⟩ := refused
  rw [if_pos grow] at refused
  obtain ⟨short, refused⟩ := refused
  have bounds := adjust_bounds (by rw [maxHeap_eq] at small; omega) pos
  rw [maxHeap_eq] at small
  have less : n + next.size < adjust size + buffer := by
    simp only [shortage] at short
    omega
  have total : add32 n next.size = n + next.size := add32_eq (by simp only [buffer] at less; omega)
  have first := short_of_lt (by rwa [maxHeap_eq]) pos lt
  have second := short_of_lt (by rwa [maxHeap_eq]) pos less
  have low : toInt32 (sub32 n (wanted size)) < 0 := by omega
  have low' : toInt32 (sub32 (n + next.size) (wanted size)) < 0 := by omega
  have amount : (max (neg32 (toInt32 (sub32 (n + next.size) (wanted size)))) chunksize).toNat =
      max (shortage size n next) chunksize := by
    rw [neg32_eq (by rw [second]; simp only [buffer]; omega) (by omega), second]
    simp only [shortage, chunksize]
    omega
  unfold reallocRead
  rw [if_pos low, if_pos grow, total]
  simp only
  rw [if_pos low', amount, (extendHeap_refused refused).bind_iff, if_pos (Eq.refl null), does_pure]
  exact ⟨rfl, rfl⟩

theorem not_reallocRead_refused {next : Block} (small : size ≤ maxHeap) (pos : 1 ≤ size)
    (refused : GrowthRefused malloc s size n next) (grow : ¬ (next.alloc = false ∨ next.size = 0)) :
    ¬ Does NoNullMove (reallocRead malloc x size n next) s r s' := by
  obtain ⟨lt, refused⟩ := refused
  rw [if_neg grow] at refused
  obtain ⟨t, refused⟩ := refused
  have bounds := adjust_bounds (by rw [maxHeap_eq] at small; omega) pos
  have first := short_of_lt small pos lt
  have low : toInt32 (sub32 n (wanted size)) < 0 := by omega
  rw [maxHeap_eq] at small
  have want := wanted_eq (by omega) pos
  have asked : sub32 (wanted size) dsize = adjust size + buffer - dsize := by
    rw [want, sub32_eq (by omega) (by simp only [dsize]; omega)]
  unfold reallocRead
  rw [if_pos low, if_neg grow, asked, mmRealloc.callMalloc, does_assoc, does_note_bind]
  rintro ⟨-, run⟩
  have moved := refused.rest run
  rw [memmove, does_assoc, does_note_bind] at moved
  exact moved.1 rfl

/-- When the memory system refuses the growth of a block that is too small, `mm_realloc` returns `NULL` and
changes nothing exactly when it grows in place: when the next block is free or the epilogue. -/
theorem realloc_fails_iff (wf : WellFormed s (pre ++ p :: post))
    (hx : x = s.memStartBrk + 16 + extent Block.size pre) (small : size ≤ maxHeap) (pos : 1 ≤ size)
    (refused : GrowthRefused malloc s size p.size (after post)) :
    Does NoNullMove (mmRealloc malloc x size) s null s ↔
      (after post).alloc = false ∨ (after post).size = 0 := by
  have tol : Tolerates NoNullMove s.memStartBrk s.memBrk :=
    ⟨fun _ _ _ => trivial, fun _ _ _ => trivial⟩
  rw [does_mmRealloc wf hx (by omega) tol]
  refine ⟨fun run => ?_, reallocRead_refused small pos refused⟩
  by_contra grow
  exact not_reallocRead_refused small pos refused grow run

end

theorem realloc_fails_iff_reserved :
    Does NoNullMove (mmRealloc (fun _ => pure null) 4144 maxHeap) reserved null reserved := by
  have refused : GrowthRefused (fun _ => pure null) reserved maxHeap 16 epilogue :=
    ⟨by decide, by rw [if_pos (Or.inr rfl)]; exact ⟨by decide, by decide +kernel⟩⟩
  exact (realloc_fails_iff (show WellFormed reserved ([⟨16, false⟩, ⟨16, true⟩] ++ ⟨16, true⟩ :: []) from
    reserved_wellFormed) rfl (le_refl _) (by decide) refused).mpr (Or.inr rfl)

theorem realloc_moves_reserved :
    WellFormed reserved [⟨16, false⟩, ⟨16, true⟩, ⟨16, true⟩] ∧
      GrowthRefused (fun _ => pure null) reserved 1 16 ⟨16, true⟩ ∧
      ¬ Does NoNullMove (mmRealloc (fun _ => pure null) 4128 1) reserved null reserved := by
  have refused : GrowthRefused (fun _ => pure null) reserved 1 16 ⟨16, true⟩ :=
    ⟨by decide, by rw [if_neg (by decide)]; exact ⟨reserved, does_pure.mpr ⟨rfl, rfl⟩⟩⟩
  have wf : WellFormed reserved ([⟨16, false⟩] ++ ⟨16, true⟩ :: [⟨16, true⟩]) := reserved_wellFormed
  refine ⟨reserved_wellFormed, refused, fun run => ?_⟩
  have run := (does_mmRealloc wf rfl (by decide) ⟨fun _ _ _ => trivial, fun _ _ _ => trivial⟩).mp run
  exact not_reallocRead_refused (by decide) (le_refl _) refused (by decide) run

end MallocLab.Segregated
