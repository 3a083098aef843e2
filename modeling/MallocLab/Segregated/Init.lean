import MallocLab.Segregated.Extend
import MallocLab.Segregated.Search

/-!
# The first heap, and the last

`mm_init` leaves one free block between the prologue and the epilogue. Since no request is ever answered,
this is also the only heap that a client of the allocator sees.
-/

namespace MallocLab.Segregated
open Memory Logged

def State.primed (s : State) (a : Nat) : State :=
  { ((((({ s with memBrk := a + 16, sgrlists := fun _ => null } : State).store a 0).store (a + 4)
    (pack dsize 1)).store (a + 8) (pack dsize 1)).store (a + 12) (pack 0 1)) with heapListp := a + dsize }

/-- The calls of a client, each of which returns; a client that holds a pointer writes what it likes. -/
inductive Runs (s : State) : List Nat → State → Prop
  | init {t : State} (run : Does (fun _ => True) mmInit s 0 t) : Runs s [] t
  | write {live : List Nat} {t : State} {p : Nat} (before : Runs s live t) (holds : p ∈ live) (m : Mem) :
      Runs s live { t with mem := m }
  | malloc {live : List Nat} {t u : State} {rounds size p : Nat} (before : Runs s live t)
      (run : Does (fun _ => True) (mmMalloc rounds size) t p u) :
      Runs s (if p = null then live else p :: live) u
  | realloc {live : List Nat} {t u : State} {rounds size p q : Nat} (before : Runs s live t) (holds : p ∈ live)
      (run : Does (fun _ => True) (mmRealloc (mmMalloc rounds) p size) t q u) :
      Runs s (if q = null then live else q :: live.erase p) u
  | free {live : List Nat} {t u : State} {p : Nat} (before : Runs s live t) (holds : p ∈ live)
      (run : Does (fun _ => True) (mmFree p) t () u) : Runs s (live.erase p) u

section
variable {ok : Event → Prop} {s t u : State} {a : Nat}

theorem primed_words (s : State) (a : Nat) :
    word (s.primed a).mem (a + 4) = 9 ∧ word (s.primed a).mem (a + 8) = 9 ∧
      word (s.primed a).mem (a + 12) = 1 := by
  have mem : (s.primed a).mem = setWord (setWord (setWord (setWord s.mem a 0) (a + 4) 9) (a + 8) 9) (a + 12) 1 :=
    rfl
  rw [mem]
  refine ⟨?_, ?_, ?_⟩
  · rw [word_setWord_of_apart (by omega), word_setWord_of_apart (by omega), word_setWord_self _ _ (by decide)]
  · rw [word_setWord_of_apart (by omega), word_setWord_self _ _ (by decide)]
  · rw [word_setWord_self _ _ (by decide)]

theorem primed_tiled (low : 0 < s.memStartBrk) (here : a = s.memStartBrk) :
    Tiled (s.primed a) (a + 16) [] := by
  obtain ⟨header, footer, last⟩ := primed_words s a
  have start : (s.primed a).memStartBrk = a := here.symm
  refine ⟨by rw [start]; omega, ⟨?_, ?_, ?_⟩, by simp, by simp, ?_, by rw [start]; rfl, ?_, ?_, ?_, by decide⟩
  · rw [start, sizeAt, show a + 8 - 4 = a + 4 by omega, header]
    rfl
  · rw [start, allocAt, show a + 8 - 4 = a + 4 by omega, header]
    rfl
  · rw [start, sizeAt, show a + 8 + prologue.size - 8 = a + 8 from rfl, footer]
    rfl
  · simp [located]
  · rw [sizeAt, show a + 16 - 4 = a + 12 by omega, last]
    rfl
  · rw [allocAt, show a + 16 - 4 = a + 12 by omega, last]
    rfl
  · simp [located]

theorem primed_lists (s : State) (a : Nat) : Lists (s.primed a) [] :=
  ⟨fun _ => [], fun _ _ => ⟨rfl, List.Perm.refl _⟩⟩

theorem primed_outside {q : Nat} (outside : q < a ∨ a + 16 ≤ q) : (s.primed a).mem q = s.mem q := by
  have mem : (s.primed a).mem = setWord (setWord (setWord (setWord s.mem a 0) (a + 4) 9) (a + 8) 9) (a + 12) 1 :=
    rfl
  rw [mem, setWord_of_outside (by omega), setWord_of_outside (by omega), setWord_of_outside (by omega),
    setWord_of_outside (by omega)]

theorem mmInit_primed (accepted : ¬ sbrkRefuses s.toMemLib 16) (space : s.memBrk + 16 < 2 ^ 32)
    (here : a = s.memBrk) (tol : Tolerates ok a (a + 16)) {r : Int} :
    Does ok mmInit s r t ↔ Does ok (do
      let bp ← extendHeap 1024
      if bp = null then return -1 else return 0) (s.primed a) r t := by
  have grown : memSbrk s.toMemLib 16 = (a, { s.toMemLib with memBrk := a + 16 }) := by
    rw [here]
    exact memSbrk_accepted accepted space
  have access : ∀ p, a ≤ p → p + 4 ≤ a + 16 → (ok (.access p) ↔ True) :=
    fun p low high => iff_true_intro (tol.access p low high)
  have near : a ≠ minusOne := by simp only [minusOne]; omega
  rw [mmInit, does_change_bind, does_sbrk_bind, show ((4 : Int) * (wsize : Nat)) = 16 from rfl]
  simp only [grown]
  rw [does_change_bind, if_neg near, does_putNotag_bind, does_putNotag_bind, does_putNotag_bind, does_putNotag_bind,
    does_change_bind]
  simp (disch := omega) only [access, wsize, true_and]
  exact Iff.rfl

theorem primed_accepted (valid : s.Valid) (empty : s.memBrk = s.memStartBrk) :
    ¬ sbrkRefuses (s.primed s.memBrk).toMemLib (toInt32 4096) := by
  have area := valid.area
  have max := maxHeap_eq
  have brk : (s.primed s.memBrk).memBrk = s.memBrk + 16 := rfl
  have top : (s.primed s.memBrk).memMaxAddr = s.memMaxAddr := rfl
  rw [toInt32_eq (by decide)]
  simp only [sbrkRefuses, brk, top]
  omega

theorem primed_valid (valid : s.Valid) (empty : s.memBrk = s.memStartBrk) : (s.primed s.memBrk).Valid := by
  have area := valid.area
  have max := maxHeap_eq
  refine ⟨valid.start, ?_, ?_, valid.area, valid.space⟩
  · show s.memStartBrk ≤ s.memBrk + 16
    omega
  · show s.memBrk + 16 ≤ s.memMaxAddr
    omega

theorem primed_listp : ((s.primed a).grow 1024).heapListp = a + 8 := by
  rw [State.grow]
  rfl

theorem extendHeap_primed (valid : s.Valid) (empty : s.memBrk = s.memStartBrk)
    (tol : Tolerates ok s.memStartBrk (s.memStartBrk + 4112)) :
    ∃ t, Does ok (extendHeap 1024) (s.primed s.memBrk) (s.memBrk + 16) t ∧ WellFormed t [⟨4096, false⟩] ∧
      Only ((s.primed s.memBrk).grow 1024) t [(s.memBrk + 16, 4096)] (s.memBrk + 12) (s.memBrk + 4112) := by
  have area := valid.area
  have space := valid.space
  have max := maxHeap_eq
  have start : (s.primed s.memBrk).memStartBrk = s.memBrk := empty.symm
  have brk : (s.primed s.memBrk).memBrk = s.memBrk + 16 := rfl
  have size : growth 1024 = 4096 := by decide
  have accepted := primed_accepted valid empty
  have wide : Tolerates ok (s.primed s.memBrk).memStartBrk (s.memBrk + 16 + 4096) := by
    rw [start, empty]
    exact tol
  obtain ⟨t, run, hold, only⟩ := extendHeap_alone size.symm brk.symm (primed_tiled valid.start empty)
    (primed_lists s s.memBrk) accepted (by decide) (by simp only [minusOne]; omega) (by decide) rfl wide
  rw [List.nil_append] at hold only
  refine ⟨t, run, ?_, ?_⟩
  · have grown := valid_grow (primed_valid valid empty) (by rw [brk, size]; omega) (by rwa [size])
    have same : ((s.primed s.memBrk).grow 1024).memBrk = s.memBrk + 16 + 4096 := by
      rw [(grow_of_accepted (by rwa [size])).2, brk, size]
      omega
    exact Holding.wellFormed (by rw [same]; exact hold) only grown (by rw [only.start, grow_memStartBrk])
  · simp only [frees, located, placed, start] at only
    exact only

theorem mmInit_spec (valid : s.Valid) (empty : s.memBrk = s.memStartBrk)
    (tol : Tolerates ok s.memStartBrk (s.memStartBrk + 4112)) :
    ∃ t, Does ok mmInit s 0 t ∧ WellFormed t [⟨4096, false⟩] ∧ t.memStartBrk = s.memStartBrk ∧
      t.heapListp = s.memStartBrk + 8 ∧
      ∀ q, (q < s.memStartBrk ∨ s.memStartBrk + 4112 ≤ q) → t.mem q = s.mem q := by
  have area := valid.area
  have space := valid.space
  have max := maxHeap_eq
  have accepted : ¬ sbrkRefuses s.toMemLib 16 := by
    simp only [sbrkRefuses]
    omega
  have first : Tolerates ok s.memBrk (s.memBrk + 16) := by
    rw [empty]
    exact ⟨fun p low high => tol.access p low (by omega), tol.delete⟩
  obtain ⟨t, run, wf, only⟩ := extendHeap_primed valid empty tol
  refine ⟨t, ?_, wf, ?_, ?_, fun q outside => ?_⟩
  · rw [mmInit_primed accepted (by omega) rfl first, run.bind_iff, if_neg (by simp only [null]; omega), does_pure]
    exact ⟨rfl, rfl⟩
  · rw [only.start, grow_memStartBrk]
    rfl
  · rw [only.listp, primed_listp, empty]
  · rw [only.mem q (by omega) ?_, grow_mem, primed_outside (by omega)]
    intro f hf
    rw [List.mem_singleton.mp hf]
    simp only
    omega

theorem mmMalloc_returns (empty : t.sgrlists 0 = null) {rounds size p : Nat}
    (run : Does ok (mmMalloc rounds size) t p u) : p = null ∧ u = t := by
  rcases Nat.eq_zero_or_pos size with rfl | pos
  · rw [mmMalloc, if_pos (le_refl 0), does_pure] at run
    exact run
  · exact absurd run (mmMalloc_never_returns empty pos)

/-- As long as its calls return a client holds no pointer, and the heap is the one that `mm_init` made. -/
theorem runs_stay (valid : s.Valid) (empty : s.memBrk = s.memStartBrk) {live : List Nat} (run : Runs s live t) :
    live = [] ∧ Does (fun _ => True) mmInit s 0 t ∧ WellFormed t [⟨4096, false⟩] ∧
      ∀ rounds size p u, 1 ≤ size → ¬ Does (fun _ => True) (mmMalloc rounds size) t p u := by
  obtain ⟨t₀, first, wf, -⟩ := mmInit_spec valid empty (tolerates_all s.memStartBrk (s.memStartBrk + 4112))
  have none : t₀.sgrlists 0 = null := wf.head_null (by decide)
  suffices same : live = [] ∧ t = t₀ by
    obtain ⟨rfl, rfl⟩ := same
    exact ⟨rfl, first, wf, fun rounds size p u pos => mmMalloc_never_returns none pos⟩
  induction run with
  | init run => exact ⟨rfl, (run.unique first).2⟩
  | write before holds m ih =>
      rw [ih.1] at holds
      cases holds
  | malloc before run ih =>
      obtain ⟨rfl, rfl⟩ := ih
      obtain ⟨rfl, rfl⟩ := mmMalloc_returns none run
      exact ⟨rfl, rfl⟩
  | realloc before holds run ih =>
      rw [ih.1] at holds
      cases holds
  | free before holds run ih =>
      rw [ih.1] at holds
      cases holds

end

def untouched (byte : Byte) : State := { memInit (fun _ => byte) 4096 with heapListp := 0, sgrlists := fun _ => 0 }

theorem untouched_valid (byte : Byte) : (untouched byte).Valid :=
  ⟨show 0 < 4096 by decide, le_refl 4096, show 4096 ≤ (4096 + maxHeap) % 2 ^ 32 by decide,
    show (4096 + maxHeap) % 2 ^ 32 = 4096 + maxHeap by decide, show (4096 + maxHeap) % 2 ^ 32 < 2 ^ 32 by decide⟩

theorem runs_stay_untouched : ∃ t, Runs (untouched 0xAB) [] t ∧
    ∀ rounds size p u, 1 ≤ size → ¬ Does (fun _ => True) (mmMalloc rounds size) t p u := by
  obtain ⟨t, run, -⟩ := mmInit_spec (untouched_valid 0xAB) rfl (tolerates_all 4096 8208)
  exact ⟨t, .init run, (runs_stay (untouched_valid 0xAB) rfl (.init run)).2.2.2⟩

end MallocLab.Segregated
