import MallocLab.Explicit.Heap

/-!
# What `mm_check` notices

The heaps are those that `mm_check` is for, up to the three defects it looks for. The list ends at the
prologue, whose own link no function writes: the first walk stops where it is `NULL`, and the third follows
it. A read outside of the heap is counted as no return.
-/

namespace MallocLab.Explicit
open Memory Logged

def Inside (s : State) : Event → Prop
  | .access p => s.memStartBrk ≤ p ∧ p + 4 ≤ s.memBrk
  | .print _ => True

/-- A list of blocks with mutually inverse links in the heap, which ends at the prologue. -/
structure Listed (s : State) (bs : List Block) (xs : List Nat) : Prop where
  tiled : Tiled s bs
  chain : Chain s xs
  nodes : ∀ x ∈ xs, ∃ b, (x, b) ∈ located s.first bs
  links : ∀ x ∈ xs, x + 12 ≤ s.memBrk
  back : ∀ x ∈ xs.getLast?, prevAt s.mem s.heapListp = x

def NullEnd (s : State) : Prop := nextAt s.mem s.heapListp = null

def State.endWith (s : State) (v : Nat) : State := s.store (s.heapListp + 8) v

/-! ## The defects -/

def AllocatedListed (s : State) (bs : List Block) (xs : List Nat) : Prop :=
  ∃ x ∈ xs, ∃ n, (x, ⟨n, true⟩) ∈ located s.first bs

def FreePair (bs : List Block) : Prop :=
  ∃ pre a b post, bs = pre ++ a :: b :: post ∧ a.alloc = false ∧ b.alloc = false

def Unlisted (s : State) (bs : List Block) (xs : List Nat) : Prop :=
  ∃ x n, (x, ⟨n, false⟩) ∈ located s.first bs ∧ x ∉ xs

def Defective (s : State) (bs : List Block) (xs : List Nat) : Prop :=
  AllocatedListed s bs xs ∨ FreePair bs ∨ Unlisted s bs xs

def Returns (s : State) (r : Int) : Prop := ∃ rounds s', Does (Inside s) (mmCheck rounds) s r s'

/-- What `mm_check` claims to do. -/
def Decides (s : State) (bs : List Block) (xs : List Nat) : Prop :=
  (¬ Defective s bs xs → Returns s 0) ∧ (Defective s bs xs → Returns s (-1))

def State.fromHead (s : State) (bs : List Block) : List Block :=
  ((located s.first bs).filter fun e => s.freeListp ≤ e.1).map Prod.snd

/-- A defect that one of the first three walks meets. -/
def Visible (s : State) (bs : List Block) (xs : List Nat) : Prop :=
  AllocatedListed s bs xs ∨ FreePair (s.fromHead bs) ∨ xs = [] ∧ ∃ n post, bs = ⟨n, false⟩ :: post

/-! ## Free neighbours -/

def noPair : Bool → List Block → Bool
  | _, [] => true
  | last, b :: bs => if b.alloc then noPair false bs else !last && noPair true bs

theorem FreePair.cons {b : Block} {bs : List Block} (h : FreePair bs) : FreePair (b :: bs) := by
  obtain ⟨pre, a, c, post, rfl, ha, hc⟩ := h
  exact ⟨b :: pre, a, c, post, rfl, ha, hc⟩

theorem freePair_cons {b : Block} {bs : List Block} :
    FreePair (b :: bs) ↔ (b.alloc = false ∧ (after bs).alloc = false ∧ bs ≠ []) ∨ FreePair bs := by
  constructor
  · rintro ⟨pre, a, c, post, eq, ha, hc⟩
    cases pre with
    | nil =>
      obtain ⟨rfl, rfl⟩ := List.cons.inj eq
      exact .inl ⟨ha, hc, List.cons_ne_nil _ _⟩
    | cons d pre =>
      obtain ⟨-, rfl⟩ := List.cons.inj eq
      exact .inr ⟨pre, a, c, post, rfl, ha, hc⟩
  · rintro (⟨free, next, ne⟩ | h)
    · cases bs with
      | nil => exact absurd rfl ne
      | cons c post => exact ⟨[], b, c, post, rfl, free, next⟩
    · exact h.cons

theorem noPair_eq_false {last : Bool} {bs : List Block} :
    noPair last bs = false ↔ (last = true ∧ (after bs).alloc = false ∧ bs ≠ []) ∨ FreePair bs := by
  induction bs generalizing last with
  | nil =>
    have none : ¬ FreePair [] := by
      rintro ⟨pre, a, c, post, eq, -, -⟩
      simp at eq
    simp [noPair, none]
  | cons b bs ih =>
    rw [freePair_cons, noPair, after_cons]
    cases alloc : b.alloc with
    | true => simp [ih]
    | false =>
      simp only [Bool.false_eq_true, if_false, Bool.and_eq_false_iff, ih]
      cases last <;> simp

theorem freePair_append {pre bs : List Block} (h : FreePair bs) : FreePair (pre ++ bs) := by
  induction pre with
  | nil => exact h
  | cons b pre ih => exact ih.cons

/-! ## Where the walks stand -/

structure Head (s : State) (ptr : Nat) (b : Block) : Prop where
  inside : Inside s (.access (hdrp ptr))
  size : sizeAt s.mem (hdrp ptr) = b.size
  alloc : allocAt s.mem (hdrp ptr) = b.alloc.toNat

section
variable {s s' : State} {bs pre post : List Block} {xs : List Nat} {x : Nat} {b : Block}

theorem hdrp_of_near (t : Tiled s bs) (low : s.memStartBrk + 4 ≤ x) (high : x ≤ s.memBrk) :
    hdrp x = x - 4 := by
  have top := t.valid.high
  have space := t.valid.space
  exact hdrp_eq (by omega) (by omega)

theorem head_prologue (t : Tiled s bs) : Head s s.heapListp prologue := by
  have listp := t.listp
  have ends := t.ends
  unfold State.first at ends
  have hdr := hdrp_of_near t (x := s.heapListp) (by omega) (by omega)
  refine ⟨?_, ?_, ?_⟩ <;> rw [hdr]
  · simp only [Inside]
    omega
  · exact Block.sizeAt_word t.prologue.header (by decide)
  · exact Block.allocAt_word t.prologue.header (by decide)

theorem head_block (t : Tiled s bs) (mem : (x, b) ∈ located s.first bs) : Head s x b := by
  have near := t.near mem
  have pos := (t.sizes b (placed_mem mem)).2
  unfold State.first at near
  refine ⟨?_, ?_, ?_⟩ <;> rw [t.hdrp mem]
  · simp only [Inside]
    omega
  · exact t.sizeAt mem
  · exact t.allocAt mem

theorem head_epilogue (t : Tiled s bs) : Head s s.memBrk epilogue := by
  have ends := t.ends
  unfold State.first at ends
  have hdr := hdrp_of_near t (x := s.memBrk) (by omega) (le_refl _)
  refine ⟨?_, ?_, ?_⟩ <;> rw [hdr]
  · simp only [Inside]
    omega
  · exact Block.sizeAt_word t.epilogue (by decide)
  · exact Block.allocAt_word t.epilogue (by decide)

theorem head_after (pre : List Block) (t : Tiled s (pre ++ post)) :
    Head s (s.first + extent Block.size pre) (after post) := by
  cases post with
  | nil =>
    have ends := t.ends
    rw [List.append_nil] at ends
    rw [ends]
    exact head_epilogue t
  | cons b post => exact head_block t (mem_placed.mpr ⟨pre, post, rfl, rfl⟩)

theorem null_outside (t : Tiled s bs) : ¬ Inside s (.access (hdrp null)) := by
  have top := t.valid.high
  have space := t.valid.space
  have wrapped : hdrp null = 0xFFFFFFFC := by decide
  rw [wrapped]
  simp only [Inside]
  omega

/-! ## The first walk -/

variable {ok : Event → Prop} {rounds : Nat} {p h : Nat} {ys : List Nat} {r : Bool}

theorem checkMarked_free (head : Head s x b) (size : b.size ≠ 0) (free : b.alloc = false) :
    Does ok (checkMarked (rounds + 1) x) s r s' ↔ (ok (.access (hdrp x)) ∧ ok (.access (hdrp x)) ∧
      ok (.access (x + 8))) ∧ Does ok (checkMarked rounds (nextAt s.mem x)) s r s' := by
  rw [checkMarked, does_getSize_bind, head.size, if_pos size, does_getAlloc_bind, head.alloc,
    if_neg (by rw [free]; decide), does_nextFreep_bind, and_assoc, and_assoc]

theorem checkMarked_allocated (head : Head s x b) (size : b.size ≠ 0) (alloc : b.alloc = true)
    (ne : x ≠ s.heapListp) : Does (Inside s) (checkMarked (rounds + 1) x) s false s := by
  rw [checkMarked, does_getSize_bind, head.size, if_pos size, does_getAlloc_bind, head.alloc,
    if_pos (by rw [alloc]; decide), does_heapListp_bind, if_pos ne, does_print_bind, does_pure]
  exact ⟨head.inside, head.inside, trivial, rfl, rfl⟩

theorem checkMarked_prologue (t : Tiled s bs) :
    Does ok (checkMarked (rounds + 1) s.heapListp) s r s' ↔ (ok (.access (hdrp s.heapListp)) ∧
      ok (.access (hdrp s.heapListp)) ∧ ok (.access (s.heapListp + 8))) ∧
      Does ok (if nextAt s.mem s.heapListp = null then pure true
        else nextFreep s.heapListp >>= fun p => checkMarked rounds p) s r s' := by
  have head := head_prologue t
  rw [checkMarked, does_getSize_bind, head.size, if_pos (by decide), does_getAlloc_bind, head.alloc,
    if_pos (by decide), does_heapListp_bind, if_neg (by simp), does_nextFreep_bind, and_assoc, and_assoc]

theorem checkMarked_ends (t : Tiled s bs) (ends : NullEnd s) :
    Does ok (checkMarked (rounds + 1) s.heapListp) s r s' ↔ (ok (.access (hdrp s.heapListp)) ∧
      ok (.access (hdrp s.heapListp)) ∧ ok (.access (s.heapListp + 8))) ∧ r = true ∧ s' = s := by
  have link : nextAt s.mem s.heapListp = null := ends
  rw [checkMarked_prologue t, if_pos link, does_pure]

theorem checkMarked_circles (t : Tiled s bs) (loop : nextAt s.mem s.heapListp = s.heapListp) :
    ¬ Does ok (checkMarked rounds s.heapListp) s r s' := by
  have start := t.listp
  induction rounds with
  | zero => exact not_does_stuck
  | succ rounds ih =>
    rw [checkMarked_prologue t, loop, if_neg (by simp only [null]; omega), does_nextFreep_bind, loop]
    exact fun run => ih run.2.2

structure Onward (s : State) (bs : List Block) (p h : Nat) (ys : List Nat) : Prop where
  seg : Segment (nextAt s.mem) (prevAt s.mem) p h ys s.heapListp
  nodes : ∀ x ∈ ys, ∃ b, (x, b) ∈ located s.first bs
  links : ∀ x ∈ ys, x + 12 ≤ s.memBrk

theorem Listed.onward (l : Listed s bs xs) : Onward s bs null s.freeListp xs := ⟨l.chain, l.nodes, l.links⟩

theorem Onward.tail {y : Nat} (o : Onward s bs p h (y :: ys)) :
    h = y ∧ y ≠ s.heapListp ∧ Onward s bs y (nextAt s.mem y) ys := by
  obtain ⟨⟨rfl, ne, -, rest⟩, nodes, links⟩ := o
  exact ⟨rfl, ne, rest, fun x hx => nodes x (List.mem_cons_of_mem _ hx),
    fun x hx => links x (List.mem_cons_of_mem _ hx)⟩

theorem Onward.head {y : Nat} (o : Onward s bs p h (y :: ys)) (t : Tiled s bs) :
    ∃ b, (y, b) ∈ located s.first bs ∧ Head s y b ∧ b.size ≠ 0 ∧ Inside s (.access (y + 8)) := by
  obtain ⟨b, mem⟩ := o.nodes y (by simp)
  have link := o.links y (by simp)
  have near := (t.near mem).1
  unfold State.first at near
  refine ⟨b, mem, head_block t mem, (t.sizes b (placed_mem mem)).2.ne', ?_⟩
  simp only [Inside]
  omega

theorem prologue_link (t : Tiled s bs) : Inside s (.access (s.heapListp + 8)) := by
  have listp := t.listp
  have ends := t.ends
  unfold State.first at ends
  simp only [Inside]
  omega

theorem checkMarked_passes (l : Listed s bs xs) (ends : NullEnd s) (o : Onward s bs p h ys)
    (free : ∀ x ∈ ys, ∀ n, (x, ⟨n, true⟩) ∉ located s.first bs) (long : ys.length < rounds) :
    Does (Inside s) (checkMarked rounds h) s true s := by
  induction ys generalizing rounds p h with
  | nil =>
    obtain ⟨rounds, rfl⟩ := Nat.exists_eq_succ_of_ne_zero (by omega : rounds ≠ 0)
    have head := head_prologue l.tiled
    have here : h = s.heapListp := o.seg
    rw [here, checkMarked_ends l.tiled ends]
    exact ⟨⟨head.inside, head.inside, prologue_link l.tiled⟩, rfl, rfl⟩
  | cons y ys ih =>
    obtain ⟨rounds, rfl⟩ := Nat.exists_eq_succ_of_ne_zero (by omega : rounds ≠ 0)
    obtain ⟨⟨n, alloc⟩, mem, head, size, link⟩ := o.head l.tiled
    obtain ⟨rfl, -, rest⟩ := o.tail
    cases alloc with
    | true => exact absurd mem (free h (by simp) n)
    | false =>
      rw [checkMarked_free head size rfl]
      exact ⟨⟨head.inside, head.inside, link⟩,
        ih rest (fun x hx => free x (List.mem_cons_of_mem _ hx)) (by simp at long; omega)⟩

theorem checkMarked_finds (l : Listed s bs xs) (o : Onward s bs p h ys)
    (bad : ∃ x ∈ ys, ∃ n, (x, ⟨n, true⟩) ∈ located s.first bs) (long : ys.length < rounds) :
    Does (Inside s) (checkMarked rounds h) s false s := by
  induction ys generalizing rounds p h with
  | nil => simp at bad
  | cons y ys ih =>
    obtain ⟨rounds, rfl⟩ := Nat.exists_eq_succ_of_ne_zero (by omega : rounds ≠ 0)
    obtain ⟨⟨n, alloc⟩, mem, head, size, link⟩ := o.head l.tiled
    obtain ⟨rfl, ne, rest⟩ := o.tail
    cases alloc with
    | true => exact checkMarked_allocated head size rfl ne
    | false =>
      rw [checkMarked_free head size rfl]
      refine ⟨⟨head.inside, head.inside, link⟩, ih rest ?_ (by simp at long; omega)⟩
      obtain ⟨x, hx, m, taken⟩ := bad
      obtain rfl | hx := List.mem_cons.mp hx
      · have same := placed_unique (fun b hb => (l.tiled.sizes b hb).2) mem taken
        cases same
      · exact ⟨x, hx, m, taken⟩

theorem checkMarked_arrives (l : Listed s bs xs) (o : Onward s bs p h ys)
    (free : ∀ x ∈ ys, ∀ n, (x, ⟨n, true⟩) ∉ located s.first bs)
    (run : Does ok (checkMarked rounds h) s r s') :
    ∃ rounds, Does ok (checkMarked rounds s.heapListp) s r s' := by
  induction rounds generalizing p h ys with
  | zero => exact absurd run not_does_stuck
  | succ rounds ih =>
    cases ys with
    | nil =>
      have here : h = s.heapListp := o.seg
      rw [here] at run
      exact ⟨_, run⟩
    | cons y ys =>
      obtain ⟨⟨n, alloc⟩, mem, head, size, link⟩ := o.head l.tiled
      obtain ⟨rfl, -, rest⟩ := o.tail
      cases alloc with
      | true => exact absurd mem (free h (by simp) n)
      | false =>
        rw [checkMarked_free head size rfl] at run
        exact ih rest (fun x hx => free x (List.mem_cons_of_mem _ hx)) run.2

theorem checkMarked_returns (l : Listed s bs xs) (ends : NullEnd s)
    (free : ∀ x ∈ xs, ∀ n, (x, ⟨n, true⟩) ∉ located s.first bs)
    (run : Does ok (checkMarked rounds s.freeListp) s r s') : r = true ∧ s' = s := by
  obtain ⟨rounds, last⟩ := checkMarked_arrives l l.onward free run
  cases rounds with
  | zero => exact absurd last not_does_stuck
  | succ rounds => exact ((checkMarked_ends l.tiled ends).mp last).2

/-! ## The second walk -/

theorem checkNeighbours_step {last : Bool} (head : Head s x b) (size : b.size ≠ 0)
    (apart : b.alloc = false → last = false) :
    Does ok (checkNeighbours (rounds + 1) x last) s r s' ↔ (ok (.access (hdrp x)) ∧
      ok (.access (hdrp x)) ∧ ok (.access (hdrp x))) ∧
      Does ok (checkNeighbours rounds (x + b.size) (!b.alloc)) s r s' := by
  rw [checkNeighbours, does_getSize_bind, head.size, if_pos size, does_getAlloc_bind, head.alloc]
  cases alloc : b.alloc with
  | true => rw [if_neg (by decide), does_nextBlkp_bind, head.size, and_assoc, and_assoc]; rfl
  | false =>
    rw [if_pos (by decide), apart alloc, if_neg (by decide), does_nextBlkp_bind, head.size, and_assoc,
      and_assoc]
    rfl

theorem checkNeighbours_pair (head : Head s x b) (size : b.size ≠ 0) (free : b.alloc = false) :
    Does ok (checkNeighbours (rounds + 1) x true) s r s' ↔ (ok (.access (hdrp x)) ∧
      ok (.access (hdrp x)) ∧ ok (.print "ERROR: Two free blcoks side by side!\n")) ∧
      r = false ∧ s' = s := by
  rw [checkNeighbours, does_getSize_bind, head.size, if_pos size, does_getAlloc_bind, head.alloc, free,
    if_pos (by decide), if_pos rfl, does_print_bind, does_pure, and_assoc, and_assoc]

theorem checkNeighbours_end {last : Bool} (head : Head s x epilogue) :
    Does ok (checkNeighbours (rounds + 1) x last) s r s' ↔ ok (.access (hdrp x)) ∧ r = true ∧ s' = s := by
  rw [checkNeighbours, does_getSize_bind, head.size, if_neg (by decide), does_pure]

theorem Tiled.next_block {b : Block} (t : Tiled s (pre ++ b :: post)) : Tiled s ((pre ++ [b]) ++ post) ∧
    s.first + extent Block.size (pre ++ [b]) = s.first + extent Block.size pre + b.size := by
  refine ⟨by simpa using t, ?_⟩
  simp only [extent_append, extent_cons, extent_nil]
  omega

theorem checkNeighbours_runs {last : Bool} (pre : List Block) (t : Tiled s (pre ++ post)) (long : post.length < rounds) :
    Does (Inside s) (checkNeighbours rounds (s.first + extent Block.size pre) last) s
      (noPair last post) s := by
  obtain ⟨rounds, rfl⟩ := Nat.exists_eq_succ_of_ne_zero (by omega : rounds ≠ 0)
  induction post generalizing pre last rounds with
  | nil =>
    have head : Head s _ epilogue := head_after _ t
    rw [checkNeighbours_end head]
    exact ⟨head.inside, rfl, rfl⟩
  | cons b post ih =>
    have head : Head s _ b := head_after _ t
    have size := (t.sizes b (by simp)).2.ne'
    obtain ⟨t', next⟩ := t.next_block
    simp only [List.length_cons] at long
    obtain ⟨rounds, rfl⟩ := Nat.exists_eq_succ_of_ne_zero (by omega : rounds ≠ 0)
    by_cases pair : b.alloc = false ∧ last = true
    · obtain ⟨free, rfl⟩ := pair
      rw [checkNeighbours_pair head size free, noPair, free]
      exact ⟨⟨head.inside, head.inside, trivial⟩, rfl, rfl⟩
    · have apart : b.alloc = false → last = false := fun free => by
        simpa using fun taken => pair ⟨free, taken⟩
      have rest : Does (Inside s) (checkNeighbours (rounds + 1) (s.first + extent Block.size (pre ++ [b]))
        (!b.alloc)) s (noPair (!b.alloc) post) s := ih _ t' rounds (by omega)
      rw [next] at rest
      rw [checkNeighbours_step head size apart]
      refine ⟨⟨head.inside, head.inside, head.inside⟩, ?_⟩
      cases alloc : b.alloc with
      | true => simpa [noPair, alloc] using rest
      | false => simpa [noPair, alloc, apart alloc] using rest

theorem checkNeighbours_returns {last : Bool} (pre : List Block) (t : Tiled s (pre ++ post))
    (run : Does ok (checkNeighbours rounds (s.first + extent Block.size pre) last) s r s') :
    r = noPair last post ∧ s' = s := by
  induction rounds generalizing pre post last with
  | zero => exact absurd run not_does_stuck
  | succ rounds ih =>
    cases post with
    | nil =>
      rw [checkNeighbours_end (head_after _ t)] at run
      exact run.2
    | cons b post =>
      have head : Head s _ b := head_after _ t
      have size := (t.sizes b (by simp)).2.ne'
      obtain ⟨t', next⟩ := t.next_block
      by_cases pair : b.alloc = false ∧ last = true
      · obtain ⟨free, rfl⟩ := pair
        rw [checkNeighbours_pair head size free] at run
        rw [noPair, free]
        exact run.2
      · have apart : b.alloc = false → last = false := fun free => by
          simpa using fun taken => pair ⟨free, taken⟩
        rw [checkNeighbours_step head size apart, ← next] at run
        have rest := ih _ t' run.2
        cases alloc : b.alloc with
        | true => simpa [noPair, alloc] using rest
        | false => simpa [noPair, alloc, apart alloc] using rest

theorem fromHead_append (pos : ∀ b ∈ pre ++ post, 0 < b.size)
    (head : s.freeListp = s.first + extent Block.size pre) : s.fromHead (pre ++ post) = post := by
  have before : (located s.first pre).filter (fun e => s.freeListp ≤ e.1) = [] := by
    rw [List.filter_eq_nil_iff]
    rintro ⟨x, b⟩ mem
    have bounds := placed_bounds mem
    have := pos b (List.mem_append_left _ (placed_mem mem))
    simp only [decide_eq_true_eq]
    omega
  have since : (located (s.first + extent Block.size pre) post).filter (fun e => s.freeListp ≤ e.1) =
      located (s.first + extent Block.size pre) post := by
    rw [List.filter_eq_self]
    rintro ⟨x, b⟩ mem
    have bounds := placed_bounds mem
    simp only [decide_eq_true_eq]
    omega
  rw [State.fromHead, located, placed_append, List.filter_append, before, since, List.nil_append]
  exact map_snd_placed _ _ _

theorem fromHead_all (head : s.freeListp ≤ s.first) : s.fromHead bs = bs := by
  have all : (located s.first bs).filter (fun e => s.freeListp ≤ e.1) = located s.first bs := by
    rw [List.filter_eq_self]
    rintro ⟨x, b⟩ mem
    have bounds := placed_bounds mem
    simp only [decide_eq_true_eq]
    omega
  rw [State.fromHead, all]
  exact map_snd_placed _ _ _

theorem Listed.head_cases (l : Listed s bs xs) :
    (xs = [] ∧ s.freeListp = s.heapListp ∧ s.heapListp + 24 = s.first ∧ s.fromHead bs = bs) ∨
    ∃ ys pre b post, xs = s.freeListp :: ys ∧ bs = pre ++ b :: post ∧
      s.freeListp = s.first + extent Block.size pre ∧ s.fromHead bs = b :: post := by
  have listp := l.tiled.listp
  cases xs with
  | nil =>
    have empty : s.freeListp = s.heapListp := l.chain
    have next : s.heapListp + 24 = s.first := by
      unfold State.first
      omega
    exact .inl ⟨rfl, empty, next, fromHead_all (by omega)⟩
  | cons y ys =>
    obtain ⟨b, mem⟩ := l.nodes y (by simp)
    obtain ⟨pre, post, rfl, place⟩ := mem_placed.mp mem
    have first : s.freeListp = y := l.chain.1
    subst first
    have pos : ∀ b' ∈ pre ++ b :: post, 0 < b'.size := fun b' hb => (l.tiled.sizes b' hb).2
    exact .inr ⟨ys, pre, b, post, rfl, rfl, place, fromHead_append pos place⟩

theorem second_walk_runs (l : Listed s bs xs) (long : bs.length + 1 < rounds) :
    Does (Inside s) (checkNeighbours rounds s.freeListp false) s (noPair false (s.fromHead bs)) s := by
  obtain ⟨-, empty, next, all⟩ | ⟨ys, pre, b, post, -, rfl, place, rest⟩ := l.head_cases
  · obtain ⟨rounds, rfl⟩ := Nat.exists_eq_succ_of_ne_zero (by omega : rounds ≠ 0)
    have head := head_prologue l.tiled
    have start : s.first + extent Block.size [] = s.heapListp + prologue.size := next.symm
    rw [empty, all, checkNeighbours_step head (by decide) (by simp), ← start]
    exact ⟨⟨head.inside, head.inside, head.inside⟩,
      checkNeighbours_runs [] l.tiled (by omega)⟩
  · rw [place, rest]
    exact checkNeighbours_runs _ l.tiled (by simp at long ⊢; omega)

theorem second_walk_returns (l : Listed s bs xs)
    (run : Does ok (checkNeighbours rounds s.freeListp false) s r s') :
    r = noPair false (s.fromHead bs) ∧ s' = s := by
  obtain ⟨-, empty, next, all⟩ | ⟨ys, pre, b, post, -, rfl, place, rest⟩ := l.head_cases
  · cases rounds with
    | zero => exact absurd run not_does_stuck
    | succ rounds =>
      have start : s.first + extent Block.size [] = s.heapListp + prologue.size := next.symm
      rw [empty, checkNeighbours_step (head_prologue l.tiled) (by decide) (by simp), ← start] at run
      rw [all]
      exact checkNeighbours_returns [] l.tiled run.2
  · rw [place] at run
    rw [rest]
    exact checkNeighbours_returns _ l.tiled run

/-! ## The third walk -/

variable {inner ptr ptr2 : Nat} {o : Option Nat} {c : Block}

theorem checkOthers_end (head : Head s ptr2 epilogue) :
    Does ok (checkOthers (rounds + 1) ptr ptr2) s o s' ↔
      ok (.access (hdrp ptr2)) ∧ o = some ptr2 ∧ s' = s := by
  rw [checkOthers, does_getSize_bind, head.size, if_neg (by decide), does_pure]

theorem checkOthers_step (here : Head s ptr b) (head : Head s ptr2 c) (size : c.size ≠ 0)
    (same : c.alloc = false → ptr = ptr2) :
    Does ok (checkOthers (rounds + 1) ptr ptr2) s o s' ↔ (ok (.access (hdrp ptr2)) ∧
      ok (.access (hdrp ptr2)) ∧ ok (.access (hdrp ptr))) ∧
      Does ok (checkOthers rounds ptr (ptr + b.size)) s o s' := by
  rw [checkOthers, does_getSize_bind, head.size, if_pos size, does_getAlloc_bind, head.alloc]
  cases alloc : c.alloc with
  | true => rw [if_neg (by decide), does_nextBlkp_bind, here.size, and_assoc, and_assoc]
  | false =>
    rw [if_pos (by decide), if_neg (by simpa using same alloc), does_nextBlkp_bind, here.size, and_assoc,
      and_assoc]

theorem checkOthers_never_ends (here : Head s ptr b) (next : Head s (ptr + b.size) c) (size : c.size ≠ 0)
    (alloc : c.alloc = true) : ¬ Does ok (checkOthers rounds ptr (ptr + b.size)) s o s' := by
  induction rounds with
  | zero => exact not_does_stuck
  | succ rounds ih =>
    rw [checkOthers_step here next size (by simp [alloc])]
    exact fun run => ih run.2

theorem checkListed_step (head : Head s ptr b) (size : b.size ≠ 0)
    (run : Does ok (checkListed inner (rounds + 1) ptr ptr2) s r s') :
    ∃ o t, Does ok (checkOthers inner ptr ptr2) s o t ∧
      ∀ next, o = some next → Does ok (nextFreep ptr >>= fun p => checkListed inner rounds p next) t r s' := by
  rw [checkListed, does_getSize_bind, head.size, if_pos size, does_bind] at run
  obtain ⟨-, o, t, first, rest⟩ := run
  refine ⟨o, t, first, ?_⟩
  rintro next rfl
  exact rest

theorem checkListed_null (t : Tiled s bs) :
    ¬ Does (Inside s) (checkListed inner rounds null ptr2) s r s' := by
  intro run
  cases rounds with
  | zero => exact not_does_stuck run
  | succ rounds =>
    rw [checkListed, does_getSize_bind] at run
    exact null_outside t run.1

theorem checkListed_leaves {p h : Nat} {ys : List Nat} (l : Listed s bs xs) (ends : NullEnd s)
    (on : Onward s bs p h ys) :
    ¬ Does (Inside s) (checkListed inner rounds h s.memBrk) s r s' := by
  induction rounds generalizing p h ys with
  | zero => exact not_does_stuck
  | succ rounds ih =>
    intro run
    -- the inner loop is left at once
    have left : ∀ o t, Does (Inside s) (checkOthers inner h s.memBrk) s o t → o = some s.memBrk ∧ t = s := by
      intro o t run
      cases inner with
      | zero => exact absurd run not_does_stuck
      | succ inner =>
        rw [checkOthers_end (head_epilogue l.tiled)] at run
        exact run.2
    cases ys with
    | nil =>
      have here : h = s.heapListp := on.seg
      subst here
      obtain ⟨o, t, first, rest⟩ := checkListed_step (head_prologue l.tiled) (by decide) run
      obtain ⟨rfl, rfl⟩ := left o t first
      have next := (does_nextFreep_bind.mp (rest _ rfl)).2
      rw [ends] at next
      exact checkListed_null l.tiled next
    | cons y ys =>
      obtain ⟨b, mem, head, size, link⟩ := on.head l.tiled
      obtain ⟨rfl, -, tail⟩ := on.tail
      obtain ⟨o, t, first, rest⟩ := checkListed_step head size run
      obtain ⟨rfl, rfl⟩ := left o t first
      exact ih tail (does_nextFreep_bind.mp (rest _ rfl)).2

theorem third_walk_never (l : Listed s bs xs) (ends : NullEnd s) (hidden : ¬ Visible s bs xs) :
    ¬ Does (Inside s) (checkListed inner rounds s.freeListp s.freeListp) s r s' := by
  intro run
  cases rounds with
  | zero => exact not_does_stuck run
  | succ rounds =>
  obtain ⟨rfl, empty, next, all⟩ | ⟨ys, pre, b, post, rfl, rfl, place, rest⟩ := l.head_cases
  · rw [empty] at run
    have prologue := head_prologue l.tiled
    have after : Head s (s.heapListp + 24) (after bs) := by
      rw [next]
      exact head_after [] l.tiled
    obtain ⟨o, t, first, rest⟩ := checkListed_step prologue (by decide) run
    cases inner with
    | zero => exact not_does_stuck first
    | succ inner =>
    rw [checkOthers_step prologue prologue (by decide) fun _ => rfl] at first
    cases bs with
    | nil =>
      cases inner with
      | zero => exact not_does_stuck first.2
      | succ inner =>
        obtain ⟨-, rfl, rfl⟩ := (checkOthers_end after).mp first.2
        have link := (does_nextFreep_bind.mp (rest _ rfl)).2
        rw [ends] at link
        exact checkListed_null l.tiled link
    | cons c post =>
      obtain ⟨n, alloc⟩ := c
      cases alloc with
      | false => exact hidden (.inr (.inr ⟨rfl, n, post, rfl⟩))
      | true => exact checkOthers_never_ends prologue after (l.tiled.sizes _ (by simp)).2.ne' rfl first.2
  · have mem : (s.freeListp, b) ∈ located s.first (pre ++ b :: post) := by
      rw [place]
      exact mem_placed.mpr ⟨pre, post, rfl, rfl⟩
    have head := head_block l.tiled mem
    have size := (l.tiled.sizes b (by simp)).2.ne'
    have free : b.alloc = false := by
      obtain ⟨n, alloc⟩ := b
      cases alloc with
      | false => rfl
      | true => exact absurd (.inl ⟨_, by simp, n, mem⟩) hidden
    obtain ⟨t', next⟩ := l.tiled.next_block
    have after : Head s (s.freeListp + b.size) (after post) := by
      rw [place, ← next]
      exact head_after _ t'
    obtain ⟨o, t, first, more⟩ := checkListed_step head size run
    cases inner with
    | zero => exact not_does_stuck first
    | succ inner =>
    rw [checkOthers_step head head size fun _ => rfl] at first
    cases post with
    | nil =>
      have last : s.freeListp + b.size = s.memBrk := by
        have ends := l.tiled.ends
        simp only [extent_append, extent_cons, extent_nil] at ends
        omega
      rw [last] at first after
      cases inner with
      | zero => exact not_does_stuck first.2
      | succ inner =>
        obtain ⟨-, rfl, rfl⟩ := (checkOthers_end after).mp first.2
        exact checkListed_leaves l ends l.onward.tail.2.2 (does_nextFreep_bind.mp (more _ rfl)).2
    | cons c post =>
      cases alloc : c.alloc with
      | false => exact hidden (.inr (.inl (by rw [rest]; exact ⟨[], b, c, post, rfl, free, alloc⟩)))
      | true =>
        have pos := (l.tiled.sizes c (by simp)).2.ne'
        exact checkOthers_never_ends head after pos alloc first.2

theorem third_walk_finds {n : Nat} (l : Listed s (⟨n, false⟩ :: post) []) :
    Does (Inside s) (checkListed (inner + 2) (rounds + 1) s.freeListp s.freeListp) s false s := by
  obtain ⟨-, empty, next, -⟩ | ⟨ys, pre, b, post, eq, -⟩ := l.head_cases
  · have prologue := head_prologue l.tiled
    have size := (l.tiled.sizes _ (List.mem_cons_self ..)).2.ne'
    have first : Head s (s.heapListp + 24) ⟨n, false⟩ := by
      rw [next]
      exact head_after [] l.tiled
    have found : Does (Inside s) (checkOthers (inner + 1) s.heapListp (s.heapListp + 24)) s none s := by
      rw [checkOthers, does_getSize_bind, first.size, if_pos size, does_getAlloc_bind, first.alloc,
        if_pos (show Bool.toNat false = 0 from rfl), if_pos (by omega), does_print_bind, does_pure]
      exact ⟨first.inside, first.inside, trivial, rfl, rfl⟩
    have others : Does (Inside s) (checkOthers (inner + 2) s.heapListp s.heapListp) s none s := by
      rw [checkOthers_step prologue prologue (by decide) fun _ => rfl]
      exact ⟨⟨prologue.inside, prologue.inside, prologue.inside⟩, found⟩
    rw [empty, checkListed, does_getSize_bind, prologue.size, if_pos (by decide), others.bind_iff, does_pure]
    exact ⟨prologue.inside, rfl, rfl⟩
  · cases eq

/-! ## `mm_check` -/

theorem Visible.defective (l : Listed s bs xs) (visible : Visible s bs xs) : Defective s bs xs := by
  obtain listed | pair | ⟨rfl, n, post, rfl⟩ := visible
  · exact .inl listed
  · refine .inr (.inl ?_)
    obtain ⟨-, -, -, all⟩ | ⟨ys, pre, b, post, -, rfl, -, rest⟩ := l.head_cases
    · rwa [all] at pair
    · rw [rest] at pair
      exact freePair_append pair
  · exact .inr (.inr ⟨s.first, n, by simp, List.not_mem_nil⟩)

theorem not_freePair_iff : noPair false bs = true ↔ ¬ FreePair bs := by
  rw [← Bool.not_eq_false, noPair_eq_false]
  simp

theorem returns_of_listed (l : Listed s bs xs) (listed : AllocatedListed s bs xs) : Returns s (-1) := by
  refine ⟨xs.length + 1, s, ?_⟩
  rw [mmCheck, does_freeListp_bind, does_print_bind,
    (checkMarked_finds l l.onward listed (by omega)).bind_iff, if_neg (by decide), does_pure]
  exact ⟨trivial, rfl, rfl⟩

theorem returns_of_visible (l : Listed s bs xs) (ends : NullEnd s) (visible : Visible s bs xs) :
    Returns s (-1) := by
  by_cases listed : AllocatedListed s bs xs
  · exact returns_of_listed l listed
  · refine ⟨xs.length + bs.length + 2, s, ?_⟩
    have free : ∀ x ∈ xs, ∀ n, (x, ⟨n, true⟩) ∉ located s.first bs :=
      fun x hx n mem => listed ⟨x, hx, n, mem⟩
    rw [mmCheck, does_freeListp_bind, does_print_bind,
      (checkMarked_passes l ends l.onward free (by omega)).bind_iff, if_pos rfl, does_print_bind,
      (second_walk_runs l (by omega)).bind_iff]
    refine ⟨trivial, trivial, ?_⟩
    by_cases pair : FreePair (s.fromHead bs)
    · rw [noPair_eq_false.mpr (.inr pair), if_neg (by decide), does_pure]
      exact ⟨rfl, rfl⟩
    · obtain listed' | pair' | ⟨rfl, n, post, rfl⟩ := visible
      · exact absurd listed' listed
      · exact absurd pair' pair
      · rw [not_freePair_iff.mpr pair, if_pos rfl, does_print_bind]
        refine ⟨trivial, ?_⟩
        rw [(third_walk_finds l).bind_iff, if_neg (by decide), does_pure]
        exact ⟨rfl, rfl⟩

theorem not_returns_of_hidden {v : Int} (l : Listed s bs xs) (ends : NullEnd s)
    (hidden : ¬ Visible s bs xs) : ¬ Returns s v := by
  rintro ⟨rounds, s', run⟩
  rw [mmCheck, does_freeListp_bind, does_print_bind, does_bind] at run
  obtain ⟨-, b, t, first, run⟩ := run
  have free : ∀ x ∈ xs, ∀ n, (x, ⟨n, true⟩) ∉ located s.first bs :=
    fun x hx n mem => hidden (.inl ⟨x, hx, n, mem⟩)
  obtain ⟨rfl, rfl⟩ := checkMarked_returns l ends free first
  rw [if_pos rfl, does_print_bind, does_bind] at run
  obtain ⟨-, b, t', second, run⟩ := run
  obtain ⟨rfl, rfl⟩ := second_walk_returns l second
  have none : noPair false (t'.fromHead bs) = true := not_freePair_iff.mpr fun pair => hidden (.inr (.inl pair))
  rw [none, if_pos rfl, does_print_bind, does_bind] at run
  obtain ⟨-, b, t, third, -⟩ := run
  exact third_walk_never l ends hidden third

theorem not_returns_of_circle {v : Int} (l : Listed s bs xs) (none : ¬ AllocatedListed s bs xs)
    (loop : nextAt s.mem s.heapListp = s.heapListp) : ¬ Returns s v := by
  rintro ⟨rounds, s', run⟩
  rw [mmCheck, does_freeListp_bind, does_print_bind, does_bind] at run
  obtain ⟨-, b, t, first, -⟩ := run
  obtain ⟨rounds, last⟩ := checkMarked_arrives l l.onward (fun x hx n mem => none ⟨x, hx, n, mem⟩) first
  exact checkMarked_circles l.tiled loop last

theorem not_decides_of_never (never : ∀ v, ¬ Returns s v) : ¬ Decides s bs xs := by
  rintro ⟨sound, finds⟩
  by_cases defect : Defective s bs xs
  · exact never _ (finds defect)
  · exact never _ (sound defect)

/-! ## The link of the prologue -/

theorem word_endWith {v : Nat} (apart : p + 4 ≤ s.heapListp + 8 ∨ s.heapListp + 12 ≤ p) :
    word (s.endWith v).mem p = word s.mem p := word_setWord_of_apart (by omega)

theorem Tiled.endWith (t : Tiled s bs) (v : Nat) : Tiled (s.endWith v) bs where
  valid := t.valid.setMem _
  listp := t.listp
  prologue := by
    have start := t.listp
    refine ⟨?_, ?_⟩
    · exact (word_endWith (by simp only [State.endWith, State.store]; omega)).trans t.prologue.header
    · exact (word_endWith (by simp only [State.endWith, State.store, minBsize]; omega)).trans t.prologue.footer
  sizes := t.sizes
  blocks := by
    intro x b mem
    have start := t.listp
    have near := (t.near mem).1
    have size := t.sizes b (placed_mem mem)
    unfold State.first at near
    have frame := t.blocks x b mem
    exact ⟨(word_endWith (by omega)).trans frame.header, (word_endWith (by omega)).trans frame.footer⟩
  ends := t.ends
  epilogue := by
    have start := t.listp
    have ends := t.ends
    unfold State.first at ends
    exact (word_endWith (by simp only [State.endWith, State.store]; omega)).trans t.epilogue

theorem Listed.endWith (l : Listed s bs xs) (v : Nat) : Listed (s.endWith v) bs xs where
  tiled := l.tiled.endWith v
  chain := by
    have start := l.tiled.listp
    have near : ∀ x ∈ xs, s.heapListp + 24 ≤ x := by
      intro x hx
      obtain ⟨b, mem⟩ := l.nodes x hx
      have low := (l.tiled.near mem).1
      unfold State.first at low
      omega
    refine l.chain.congr (fun x hx => ?_) fun x hx => ?_
    · exact word_endWith (by have := near x hx; omega)
    · exact word_endWith (by have := near x hx; omega)
  nodes := l.nodes
  links := l.links
  back := by
    intro x hx
    exact (word_endWith (by simp only [State.endWith, State.store]; omega)).trans (l.back x hx)

theorem endWith_next {v : Nat} (small : v < 2 ^ 32) : nextAt (s.endWith v).mem (s.endWith v).heapListp = v :=
  word_setWord_self _ _ small

/-- Where the link of the prologue is `NULL`, `mm_check` does what it claims exactly on the heaps with a visible
defect. It does so whatever that link is exactly where an allocated block is on the list. -/
theorem decides_iff_visible (l : Listed s bs xs) :
    (NullEnd s → (Decides s bs xs ↔ Visible s bs xs)) ∧
      ((∀ v, Decides (s.endWith v) bs xs) ↔ AllocatedListed s bs xs) := by
  constructor
  · intro ends
    constructor
    · intro decides
      by_contra hidden
      exact not_decides_of_never (fun v => not_returns_of_hidden l ends hidden) decides
    · intro visible
      exact ⟨fun none => absurd (visible.defective l) none, fun _ => returns_of_visible l ends visible⟩
  · constructor
    · intro decides
      by_contra none
      have small : s.heapListp < 2 ^ 32 := by
        have start := l.tiled.listp
        have ends := l.tiled.ends
        have high := l.tiled.valid.high
        have space := l.tiled.valid.space
        unfold State.first at ends
        omega
      exact not_decides_of_never (fun v => not_returns_of_circle (l.endWith _) none (endWith_next small))
        (decides s.heapListp)
    · intro listed v
      exact ⟨fun none => absurd (.inl listed) none, fun _ => returns_of_listed (l.endWith v) listed⟩

end

theorem oneFree_listed : Listed oneFree [⟨32, false⟩] [4128] where
  tiled := oneFree_tiled
  chain := ⟨rfl, by decide, by decide +kernel, by decide +kernel⟩
  nodes := by simp [State.first, oneFree]
  links := by decide
  back := by
    intro x hx
    obtain rfl : 4128 = x := by simpa using hx
    decide +kernel

theorem single_no_pair {b : Block} : ¬ FreePair [b] :=
  not_freePair_iff.mp (by cases b; rename_i alloc; cases alloc <;> rfl)

theorem oneFree_nullEnd : NullEnd oneFree := by
  unfold NullEnd
  decide +kernel

theorem oneFree_free : ¬ AllocatedListed oneFree [⟨32, false⟩] [4128] := by
  simp [AllocatedListed, State.first, oneFree]

theorem oneFree_hidden : ¬ Visible oneFree [⟨32, false⟩] [4128] := by
  rintro (h | h | ⟨h, -⟩)
  · exact oneFree_free h
  · exact single_no_pair h
  · cases h

def oneTaken : State :=
  { oneFree with mem := ofWords 4096 [0, 25, 4128, 0, 0, 0, 25, 33, 0, 0, 4104, 0, 0, 0, 33, 1] }

theorem oneTaken_listed : Listed oneTaken [⟨32, true⟩] [4128] where
  tiled := {
    valid := oneFree_tiled.valid.setMem _
    listp := rfl
    prologue := ⟨by decide +kernel, by decide +kernel⟩
    sizes := by decide
    blocks := by
      intro x b mem
      obtain ⟨rfl, rfl⟩ := by simpa using mem
      exact ⟨by decide +kernel, by decide +kernel⟩
    ends := rfl
    epilogue := by decide +kernel }
  chain := ⟨rfl, by decide, by decide +kernel, by decide +kernel⟩
  nodes := by simp [State.first, oneTaken, oneFree]
  links := by decide
  back := by
    intro x hx
    obtain rfl : 4128 = x := by simpa using hx
    decide +kernel

theorem decides_iff_visible_oneFree :
    ¬ Decides oneFree [⟨32, false⟩] [4128] ∧ (¬ ∀ v, Decides (oneFree.endWith v) [⟨32, false⟩] [4128]) ∧
      ∀ v, Decides (oneTaken.endWith v) [⟨32, true⟩] [4128] := by
  refine ⟨?_, ?_, ?_⟩
  · rw [(decides_iff_visible oneFree_listed).1 oneFree_nullEnd]
    exact oneFree_hidden
  · rw [(decides_iff_visible oneFree_listed).2]
    exact oneFree_free
  · rw [(decides_iff_visible oneTaken_listed).2]
    exact ⟨4128, by simp, 32, by decide⟩

theorem oneFree_not_decided : Listed oneFree [⟨32, false⟩] [4128] ∧
    ¬ Defective oneFree [⟨32, false⟩] [4128] ∧ ¬ Returns oneFree 0 ∧
    ¬ Decides oneFree [⟨32, false⟩] [4128] := by
  have unlisted : ¬ Unlisted oneFree [⟨32, false⟩] [4128] := by
    rintro ⟨x, n, mem, out⟩
    simp [State.first, oneFree] at mem
    simp [mem.1] at out
  have sound : ¬ Defective oneFree [⟨32, false⟩] [4128] := by
    rintro (h | h | h)
    · exact oneFree_free h
    · exact single_no_pair h
    · exact unlisted h
  have never := not_returns_of_hidden (v := 0) oneFree_listed oneFree_nullEnd oneFree_hidden
  exact ⟨oneFree_listed, sound, never, fun decides => never (decides.1 sound)⟩

end MallocLab.Explicit
