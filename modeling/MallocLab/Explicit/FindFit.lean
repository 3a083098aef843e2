import MallocLab.Explicit.Check
import MallocLab.Explicit.Place

/-!
# First fit along the free list

`find_fit` goes past the prologue at the end of the list, whose link is `NULL`. It finds the first node that is
large enough; when there is none it reads the header of `NULL`, so that `mm_malloc` never extends the heap. The
functions stand without their debugging calls.
-/

namespace MallocLab.Explicit
open Memory Logged

abbrev chunksize : Nat := 4096

def sbrk (incr : Int) : Prog Nat := do
  let bp ← read fun s => (memSbrk s.toMemLib incr).1
  change fun s => { s with toMemLib := (memSbrk s.toMemLib incr).2 }
  return bp

def extendHeap (words : Nat) : Prog Nat := do
  let size := if words % 2 ≠ 0 then mul32 (add32 words 1) wsize else mul32 words wsize
  let size := if size < overhead then overhead else size
  let bp ← sbrk (toInt32 size)
  if bp = minusOne then
    return null
  else
    put (hdrp bp) (pack size 0)
    put (← ftrp bp) (pack size 0)
    put (hdrp (← nextBlkp bp)) (pack 0 1)
    insertblock bp
    return bp

def findFitFrom (asize : Nat) : Nat → Nat → Prog Nat
  | 0, _ => stuck
  | rounds + 1, bp => do
    if (← getSize (hdrp bp)) > 0 then
      if (← getAlloc (hdrp bp)) = 0 then
        if asize ≤ (← getSize (hdrp bp)) then return bp
        else findFitFrom asize rounds (← nextFreep bp)
      else findFitFrom asize rounds (← nextFreep bp)
    else return null

def findFit (rounds asize : Nat) : Prog Nat := do
  findFitFrom asize rounds (← freeListp)

def adjust (size : Nat) : Nat :=
  if size ≤ dsize then dsize + overhead
  else mul32 dsize (add32 (add32 size overhead) (dsize - 1) / dsize)

/-- `mm_malloc`, whose search may take the given number of rounds. -/
def mmMalloc (rounds size : Nat) : Prog Nat := do
  if size ≤ 0 then
    return null
  else
    let asize := adjust size
    let bp ← findFit rounds asize
    if bp ≠ null then
      place bp asize
      return bp
    else
      let extendsize := max asize chunksize
      let bp ← extendHeap (extendsize / wsize)
      if bp = null then
        return null
      else
        place bp asize
        return bp

def mmInit : Prog Int := do
  let heapListp ← sbrk (8 * wsize)
  change fun s => { s with heapListp := heapListp }
  -- `mem_sbrk` answers -1 when it fails
  if heapListp = null then
    return -1
  else
    put heapListp 0
    put (heapListp + wsize) (pack minBsize 1)
    put (heapListp + dsize * 3) (pack minBsize 1)
    put (heapListp + wsize + minBsize) (pack 0 1)
    change fun s => { s with heapListp := heapListp + dsize }
    change fun s => { s with freeListp := heapListp + dsize }
    return 0

def mmFree (_bp : Nat) : Prog Unit := pure ()

def mmRealloc (_ptr _size : Nat) : Prog Nat := pure null

def InArea (s : State) : Event → Prop
  | .access p => s.memStartBrk ≤ p ∧ p + 4 ≤ s.memMaxAddr
  | .print _ => True

/-- The calls of a client that stay in the area; a client that holds a pointer writes what it likes. -/
inductive Runs (s : State) : List Nat → State → Prop
  | init {t : State} (run : Does (InArea s) mmInit s 0 t) : Runs s [] t
  | write {live : List Nat} {t : State} {p : Nat} (before : Runs s live t) (holds : p ∈ live) (m : Mem) :
      Runs s live { t with mem := m }
  | malloc {live : List Nat} {t u : State} {rounds size p : Nat} (before : Runs s live t)
      (run : Does (InArea s) (mmMalloc rounds size) t p u) : Runs s (if p = null then live else p :: live) u
  | realloc {live : List Nat} {t u : State} {size p q : Nat} (before : Runs s live t) (holds : p ∈ live)
      (run : Does (InArea s) (mmRealloc p size) t q u) : Runs s (if q = null then live else q :: live.erase p) u
  | free {live : List Nat} {t u : State} {p : Nat} (before : Runs s live t) (holds : p ∈ live)
      (run : Does (InArea s) (mmFree p) t () u) : Runs s (live.erase p) u

def State.handOut (s : State) (x n asize : Nat) : State :=
  if 16 ≤ n - asize then
    ((s.mark x ⟨asize, true⟩).mark (x + asize) ⟨n - asize, false⟩).insert (x + asize)
  else s.mark x ⟨n, true⟩

def Fits (s : State) (bs : List Block) (asize x : Nat) : Prop :=
  ∃ n, (x, ⟨n, false⟩) ∈ located s.first bs ∧ asize ≤ n

def FirstFit (s : State) (bs : List Block) (xs : List Nat) (asize x : Nat) : Prop :=
  ∃ pre post, xs = pre ++ x :: post ∧ Fits s bs asize x ∧ ∀ y ∈ pre, ¬ Fits s bs asize y

section
variable {ok : Event → Prop} {s s' : State} {bs : List Block} {xs ys : List Nat} {b : Block}
  {rounds asize size p h x r : Nat}

theorem firstFit_nil : ¬ FirstFit s bs [] asize x := by
  rintro ⟨pre, post, eq, -⟩
  simp at eq

theorem firstFit_cons {y : Nat} : FirstFit s bs (y :: ys) asize x ↔
    Fits s bs asize y ∧ x = y ∨ ¬ Fits s bs asize y ∧ FirstFit s bs ys asize x := by
  constructor
  · rintro ⟨pre, post, eq, fits, before⟩
    cases pre with
    | nil =>
      obtain ⟨rfl, -⟩ := List.cons.inj eq
      exact .inl ⟨fits, rfl⟩
    | cons z pre =>
      obtain ⟨rfl, rest⟩ := List.cons.inj eq
      obtain ⟨first, others⟩ := List.forall_mem_cons.mp before
      exact .inr ⟨first, pre, post, rest, fits, others⟩
  · rintro (⟨fits, rfl⟩ | ⟨first, pre, post, rfl, fits, before⟩)
    · exact ⟨[], ys, rfl, fits, by simp⟩
    · exact ⟨y :: pre, post, rfl, fits, List.forall_mem_cons.mpr ⟨first, before⟩⟩

theorem fits_iff (t : Tiled s bs) (mem : (x, b) ∈ located s.first bs) :
    Fits s bs asize x ↔ b.alloc = false ∧ asize ≤ b.size := by
  constructor
  · rintro ⟨n, mem', le⟩
    have same := placed_unique (fun b hb => (t.sizes b hb).2) mem mem'
    rw [same]
    exact ⟨rfl, le⟩
  · obtain ⟨n, alloc⟩ := b
    rintro ⟨rfl, le⟩
    exact ⟨n, mem, le⟩

/-! ## The search -/

theorem findFitFrom_fits (head : Head s x b) (size : b.size ≠ 0) (fits : b.alloc = false ∧ asize ≤ b.size) :
    Does ok (findFitFrom asize (rounds + 1) x) s r s' ↔ ok (.access (hdrp x)) ∧ r = x ∧ s' = s := by
  rw [findFitFrom, does_getSize_bind, head.size, if_pos (Nat.pos_of_ne_zero size), does_getAlloc_bind, head.alloc,
    fits.1, if_pos (show Bool.toNat false = 0 from rfl), does_getSize_bind, head.size, if_pos fits.2, does_pure,
    and_self_left, and_self_left]

theorem findFitFrom_skips (head : Head s x b) (size : b.size ≠ 0) (misses : ¬ (b.alloc = false ∧ asize ≤ b.size)) :
    Does ok (findFitFrom asize (rounds + 1) x) s r s' ↔ (ok (.access (hdrp x)) ∧ ok (.access (x + 8))) ∧
      Does ok (findFitFrom asize rounds (nextAt s.mem x)) s r s' := by
  rw [findFitFrom, does_getSize_bind, head.size, if_pos (Nat.pos_of_ne_zero size), does_getAlloc_bind, head.alloc]
  cases alloc : b.alloc with
  | true =>
    rw [if_neg (by decide), does_nextFreep_bind, and_self_left, and_assoc]
  | false =>
    rw [if_pos (show Bool.toNat false = 0 from rfl), does_getSize_bind, head.size,
      if_neg fun le => misses ⟨alloc, le⟩, does_nextFreep_bind, and_self_left, and_self_left, and_assoc]

theorem Inside.area (t : Tiled s bs) {e : Event} (inside : Inside s e) : InArea s e := by
  cases e with
  | access p => exact ⟨inside.1, inside.2.trans t.valid.high⟩
  | print line => trivial

theorem null_far (valid : s.Valid) : ¬ InArea s (.access (hdrp null)) := by
  have space := valid.space
  rw [show hdrp null = 0xFFFFFFFC by decide]
  simp only [InArea]
  omega

theorem findFitFrom_leaves (t : Tiled s bs) (ends : NullEnd s) :
    ¬ Does (InArea s) (findFitFrom asize rounds s.heapListp) s r s' := by
  intro run
  cases rounds with
  | zero => exact not_does_stuck run
  | succ rounds =>
    rw [findFitFrom_skips (head_prologue t) (by decide) (by simp), ends] at run
    cases rounds with
    | zero => exact not_does_stuck run.2
    | succ rounds =>
      have rest := run.2
      rw [findFitFrom, does_getSize_bind] at rest
      exact null_far t.valid rest.1

theorem findFitFrom_returns (l : Listed s bs xs) (ends : NullEnd s) (o : Onward s bs p h ys)
    (run : Does (InArea s) (findFitFrom asize rounds h) s r s') : FirstFit s bs ys asize r ∧ s' = s := by
  induction rounds generalizing p h ys with
  | zero => exact absurd run not_does_stuck
  | succ rounds ih =>
    cases ys with
    | nil =>
      have here : h = s.heapListp := o.seg
      rw [here] at run
      exact absurd run (findFitFrom_leaves l.tiled ends)
    | cons y ys =>
      obtain ⟨b, mem, head, size, -⟩ := o.head l.tiled
      obtain ⟨rfl, -, rest⟩ := o.tail
      have here := @fits_iff s bs b asize _ l.tiled mem
      by_cases fits : b.alloc = false ∧ asize ≤ b.size
      · obtain ⟨-, rfl, same⟩ := (findFitFrom_fits head size fits).mp run
        exact ⟨firstFit_cons.mpr (.inl ⟨here.mpr fits, rfl⟩), same⟩
      · obtain ⟨first, same⟩ := ih rest ((findFitFrom_skips head size fits).mp run).2
        exact ⟨firstFit_cons.mpr (.inr ⟨fun f => fits (here.mp f), first⟩), same⟩

theorem findFitFrom_finds (l : Listed s bs xs) (o : Onward s bs p h ys) (first : FirstFit s bs ys asize r)
    (long : ys.length < rounds) : Does (Inside s) (findFitFrom asize rounds h) s r s := by
  induction ys generalizing rounds p h with
  | nil => exact absurd first firstFit_nil
  | cons y ys ih =>
    obtain ⟨rounds, rfl⟩ := Nat.exists_eq_succ_of_ne_zero (by omega : rounds ≠ 0)
    obtain ⟨b, mem, head, size, link⟩ := o.head l.tiled
    obtain ⟨rfl, -, rest⟩ := o.tail
    have here := @fits_iff s bs b asize _ l.tiled mem
    obtain ⟨fits, rfl⟩ | ⟨misses, later⟩ := firstFit_cons.mp first
    · rw [findFitFrom_fits head size (here.mp fits)]
      exact ⟨head.inside, rfl, rfl⟩
    · rw [findFitFrom_skips head size fun fits => misses (here.mpr fits)]
      exact ⟨⟨head.inside, link⟩, ih rest later (by simp at long; omega)⟩

/-! ## The block that is handed out -/

theorem place_inside {n : Nat} (t : Tiled s bs) (mem : (x, ⟨n, false⟩) ∈ located s.first bs) (h8 : asize % 8 = 0)
    (high : asize ≤ n) (listed : Inside s (.access s.freeListp)) :
    Does (Inside s) (place x asize) s () (s.handOut x n asize) := by
  obtain ⟨first, last⟩ := t.near mem
  have n8 : n % 8 = 0 := (t.sizes _ (placed_mem mem)).1
  have below := t.valid.high
  have space := t.valid.space
  simp only [State.first] at first last
  have rest : sub32 n asize = n - asize := sub32_eq (by omega) high
  have inside : ∀ q, x ≤ q + 8 → q + 4 ≤ x + n → Inside s (.access q) := by
    intro q low high
    simp only [Inside]
    omega
  have n0 : 0 < n := (t.sizes _ (placed_mem mem)).2
  have header : Inside s (.access (x - 4)) := inside (x - 4) (by omega) (by omega)
  simp only [place, does_getSize_bind, t.hdrp mem, t.sizeAt mem, rest]
  rw [← t.hdrp mem]
  refine ⟨by rwa [t.hdrp mem], ?_⟩
  by_cases large : 16 ≤ n - asize
  · rw [State.handOut, if_pos large, if_pos (show n - asize ≥ 8 + 8 from large)]
    have taken : sizeAt (s.mark x ⟨asize, true⟩).mem (x - 4) = asize :=
      mark_size (b := ⟨asize, true⟩) (by omega) h8 (by simp only; omega)
    refine (does_mark_bind (b := ⟨asize, true⟩) (by omega) (by omega) h8 (by simp only; omega)).mpr
      ⟨⟨header, header, inside _ (by simp only; omega) (by simp only; omega)⟩, ?_⟩
    rw [does_nextBlkp_bind, t.hdrp mem, taken]
    have middle : Inside s (.access (x + asize - 4)) := inside _ (by omega) (by omega)
    refine ⟨header, (does_mark_bind (b := ⟨n - asize, false⟩) (by omega) (by omega)
      (by simp only; omega) (by simp only; omega)).mpr
        ⟨⟨middle, middle, inside _ (by simp only; omega) (by simp only; omega)⟩, ?_⟩⟩
    simp only [insertblock, does_freeListp_bind, does_put_bind, does_change]
    exact ⟨inside _ (by simp only [dsize]; omega) (by simp only [dsize]; omega), listed,
      inside _ (by omega) (by omega), rfl⟩
  · have size : sizeAt (s.store (x - 4) (Block.word ⟨n, true⟩)).mem (x - 4) = n :=
      sizeAt_store (b := ⟨n, true⟩) n8 (by simp only; omega)
    have packed : pack n 1 = Block.word ⟨n, true⟩ := pack_eq true n8
    rw [State.handOut, if_neg large, if_neg (show ¬ n - asize ≥ 8 + 8 from large)]
    simp only [does_put_bind, does_ftrp_bind, does_put, t.hdrp mem, packed, size]
    exact ⟨header, header, inside _ (by omega) (by omega), rfl⟩

theorem Listed.head_inside (l : Listed s bs xs) : Inside s (.access s.freeListp) := by
  have ends := l.tiled.ends
  obtain ⟨-, empty, next, -⟩ | ⟨ys, pre, b, post, rfl, -, place, -⟩ := l.head_cases
  · unfold State.first at next ends
    simp only [Inside]
    omega
  · have link := l.links s.freeListp (by simp)
    unfold State.first at place
    simp only [Inside]
    omega

theorem adjust_mod (size : Nat) : adjust size % 8 = 0 := by
  simp only [adjust, mul32, dsize, overhead]
  split <;> omega

theorem FirstFit.ne_null (l : Listed s bs xs) (first : FirstFit s bs xs asize x) : x ≠ null := by
  obtain ⟨-, -, -, ⟨n, mem, -⟩, -⟩ := first
  have near := (l.tiled.near mem).1
  unfold State.first at near
  simp only [null]
  omega

theorem does_mmMalloc (pos : 1 ≤ size) : Does ok (mmMalloc rounds size) s r s' ↔
    Does ok (findFitFrom (adjust size) rounds s.freeListp >>= fun bp =>
      if bp ≠ null then place bp (adjust size) >>= fun _ => pure bp
      else extendHeap (max (adjust size) chunksize / wsize) >>= fun bp =>
        if bp = null then pure null else place bp (adjust size) >>= fun _ => pure bp) s r s' := by
  rw [mmMalloc, if_neg (by omega)]
  simp only [findFit, does_assoc, does_freeListp_bind]

/-- Where the link of the prologue is `NULL`, `mm_malloc` answers a request without leaving the area only with
the first node of the list that is large enough, and does so whenever there is one. -/
theorem hands_out_iff (l : Listed s bs xs) (ends : NullEnd s) (pos : 1 ≤ size) :
    (∃ rounds, Does (InArea s) (mmMalloc rounds size) s p s') ↔
      FirstFit s bs xs (adjust size) p ∧
        ∃ n, (p, ⟨n, false⟩) ∈ located s.first bs ∧ s' = s.handOut p n (adjust size) := by
  have hands : ∀ {x}, FirstFit s bs xs (adjust size) x → ∃ n, (x, ⟨n, false⟩) ∈ located s.first bs ∧
      Does (InArea s) (place x (adjust size)) s () (s.handOut x n (adjust size)) := by
    rintro x ⟨-, -, -, ⟨n, mem, le⟩, -⟩
    have inside := place_inside l.tiled mem (adjust_mod size) le l.head_inside
    exact ⟨n, mem, inside.mono fun e => Inside.area l.tiled⟩
  constructor
  · rintro ⟨rounds, run⟩
    rw [does_mmMalloc pos, does_bind] at run
    obtain ⟨bp, t, search, run⟩ := run
    obtain ⟨first, rfl⟩ := findFitFrom_returns l ends l.onward search
    obtain ⟨n, mem, placed⟩ := hands first
    rw [if_pos (first.ne_null l), placed.bind_iff, does_pure] at run
    obtain ⟨rfl, rfl⟩ := run
    exact ⟨first, n, mem, rfl⟩
  · rintro ⟨first, n, mem, rfl⟩
    have search := (findFitFrom_finds l l.onward first (Nat.lt_succ_self _)).mono fun e => Inside.area l.tiled
    obtain ⟨m, mem', placed⟩ := hands first
    have same := placed_unique (fun b hb => (l.tiled.sizes b hb).2) mem mem'
    cases same
    refine ⟨xs.length + 1, ?_⟩
    rw [does_mmMalloc pos, search.bind_iff, if_pos (first.ne_null l), placed.bind_iff, does_pure]
    exact ⟨rfl, rfl⟩

/-! ## The first heap -/

theorem does_sbrk_bind {α : Type} {a : α} {g : Nat → Prog α} {incr : Int} :
    Does ok (sbrk incr >>= g) s a s' ↔ Does ok (g (memSbrk s.toMemLib incr).1)
      { s with toMemLib := (memSbrk s.toMemLib incr).2 } a s' := by
  rw [sbrk, does_assoc, does_read_bind, does_assoc, does_change_bind, does_pure_bind]

def State.primed (s : State) (a : Nat) : State :=
  { ((((({ s with memBrk := a + 32 } : State).store a 0).store (a + 4) (pack minBsize 1)).store (a + 24)
    (pack minBsize 1)).store (a + 28) (pack 0 1)) with heapListp := a + 8, freeListp := a + 8 }

theorem primed_words (s : State) (a : Nat) :
    word (s.primed a).mem (a + 4) = 25 ∧ word (s.primed a).mem (a + 24) = 25 ∧
      word (s.primed a).mem (a + 28) = 1 ∧ word (s.primed a).mem (a + 16) = word s.mem (a + 16) := by
  have mem : (s.primed a).mem =
      setWord (setWord (setWord (setWord s.mem a 0) (a + 4) 25) (a + 24) 25) (a + 28) 1 := rfl
  rw [mem]
  refine ⟨?_, ?_, ?_, ?_⟩
  · rw [word_setWord_of_apart (by omega), word_setWord_of_apart (by omega), word_setWord_self _ _ (by decide)]
  · rw [word_setWord_of_apart (by omega), word_setWord_self _ _ (by decide)]
  · rw [word_setWord_self _ _ (by decide)]
  · rw [word_setWord_of_apart (by omega), word_setWord_of_apart (by omega), word_setWord_of_apart (by omega),
      word_setWord_of_apart (by omega)]

theorem primed_listed (valid : s.Valid) : Listed (s.primed s.memStartBrk) [] [] := by
  obtain ⟨header, footer, last, -⟩ := primed_words s s.memStartBrk
  have area := valid.area
  have max := maxHeap_eq
  refine ⟨⟨⟨valid.start, ?_, ?_, valid.area, valid.space⟩, rfl, ⟨header, footer⟩, by simp, by simp [located], rfl,
    last⟩, rfl, by simp, by simp, by simp⟩
  · show s.memStartBrk ≤ s.memStartBrk + 32
    omega
  · show s.memStartBrk + 32 ≤ s.memMaxAddr
    omega

theorem mmInit_primed (valid : s.Valid) (empty : s.memBrk = s.memStartBrk) :
    Does (InArea s) mmInit s 0 (s.primed s.memStartBrk) := by
  have area := valid.area
  have space := valid.space
  have start := valid.start
  have max := maxHeap_eq
  have accepted : ¬ sbrkRefuses s.toMemLib 32 := by
    simp only [sbrkRefuses]
    omega
  have grown : memSbrk s.toMemLib 32 = (s.memStartBrk, { s.toMemLib with memBrk := s.memStartBrk + 32 }) := by
    have wrap : s.memBrk + 32 < 2 ^ 32 := by omega
    rw [← empty]
    exact memSbrk_accepted accepted wrap
  have inside : ∀ q, s.memStartBrk ≤ q → q + 4 ≤ s.memStartBrk + 32 → InArea s (.access q) := by
    intro q low high
    simp only [InArea]
    omega
  have ne : s.memStartBrk ≠ null := by
    simp only [null]
    omega
  rw [mmInit, does_sbrk_bind, show ((8 : Int) * (wsize : Nat)) = 32 from rfl, grown]
  simp only [if_neg ne, does_change_bind, does_put_bind, does_pure]
  refine ⟨inside _ (by omega) (by omega), inside _ ?_ ?_, inside _ ?_ ?_, inside _ ?_ ?_, trivial, rfl⟩ <;>
    simp only [wsize, dsize, minBsize] <;> omega

/-- Where the area is fresh the link of the prologue is `NULL`. While a client's calls stay in the area it holds no
pointer, and the heap is the one that `mm_init` made. -/
theorem runs_empty (valid : s.Valid) (empty : s.memBrk = s.memStartBrk)
    (link : word s.mem (s.memStartBrk + 16) = null) {live : List Nat} {t : State} (run : Runs s live t) :
    live = [] ∧ t = s.primed s.memStartBrk ∧
      ∀ rounds size p u, 1 ≤ size → ¬ Does (InArea s) (mmMalloc rounds size) t p u := by
  have l := primed_listed valid
  have ends : NullEnd (s.primed s.memStartBrk) := (primed_words s s.memStartBrk).2.2.2.trans link
  have none : ∀ rounds size p u, 1 ≤ size →
      ¬ Does (InArea s) (mmMalloc rounds size) (s.primed s.memStartBrk) p u := by
    intro rounds size p u pos run
    rw [does_mmMalloc pos, does_bind] at run
    obtain ⟨bp, t, search, -⟩ := run
    exact firstFit_nil (findFitFrom_returns l ends l.onward search).1
  suffices same : live = [] ∧ t = s.primed s.memStartBrk by
    obtain ⟨rfl, rfl⟩ := same
    exact ⟨rfl, rfl, none⟩
  induction run with
  | init run => exact ⟨rfl, (run.unique (mmInit_primed valid empty)).2⟩
  | write before holds m ih =>
    rw [ih.1] at holds
    cases holds
  | malloc before run ih =>
    rename_i size p
    obtain ⟨rfl, rfl⟩ := ih
    rcases Nat.eq_zero_or_pos size with rfl | pos
    · rw [mmMalloc, if_pos (le_refl 0), does_pure] at run
      obtain ⟨rfl, rfl⟩ := run
      exact ⟨rfl, rfl⟩
    · exact absurd run (none _ _ _ _ pos)
  | realloc before holds run ih =>
    rw [ih.1] at holds
    cases holds
  | free before holds run ih =>
    rw [ih.1] at holds
    cases holds

end

theorem hands_out_iff_oneFree :
    (∃ rounds, Does (InArea oneFree) (mmMalloc rounds 16) oneFree 4128 (oneFree.handOut 4128 32 24)) ∧
      ¬ ∃ rounds, Does (InArea oneFree) (mmMalloc rounds 25) oneFree 4128 (oneFree.handOut 4128 32 40) := by
  constructor
  · exact (hands_out_iff oneFree_listed oneFree_nullEnd (by decide)).mpr
      ⟨⟨[], [], rfl, ⟨32, by decide, by decide⟩, by simp⟩, 32, by decide, rfl⟩
  · rw [hands_out_iff oneFree_listed oneFree_nullEnd (by decide)]
    rintro ⟨⟨-, -, -, ⟨n, mem, le⟩, -⟩, -⟩
    have large : 40 ≤ n := le
    simp [State.first, oneFree] at mem
    omega

def fresh : State := { memInit (fun _ => 0) 4096 with heapListp := 0, freeListp := 0 }

theorem fresh_valid : fresh.Valid :=
  ⟨show 0 < 4096 by decide, le_refl 4096, show 4096 ≤ (4096 + maxHeap) % 2 ^ 32 by decide,
    show (4096 + maxHeap) % 2 ^ 32 = 4096 + maxHeap by decide, show (4096 + maxHeap) % 2 ^ 32 < 2 ^ 32 by decide⟩

theorem runs_empty_fresh : ∃ t, Runs fresh [] t ∧
    ∀ rounds size p u, 1 ≤ size → ¬ Does (InArea fresh) (mmMalloc rounds size) t p u := by
  have run : Runs fresh [] (fresh.primed 4096) := .init (mmInit_primed fresh_valid rfl)
  exact ⟨_, run, (runs_empty fresh_valid rfl (by decide +kernel) run).2.2⟩

end MallocLab.Explicit
