import MallocLab.Explicit.Heap

/-!
# `place` and the free list

`place` marks a block as allocated and leaves it on the list: the links before it are not written, and the
block it splits off is linked to the old head.
-/

namespace MallocLab.Explicit
open Memory Logged

/-- What `place` is for: a well-formed heap in which the block is allocated. -/
def Places (s : State) (x asize : Nat) : Prop :=
  ∃ s' bs, Does (fun _ => True) (place x asize) s () s' ∧ WellFormed s' bs ∧
    ∃ n, (x, ⟨n, true⟩) ∈ located s'.first bs

section
variable {ok : Event → Prop} {s s' : State} {bs : List Block} {x n asize : Nat} {xs : List Nat}

theorem sizeAt_store {m : Mem} {p : Nat} {b : Block} (h8 : b.size % 8 = 0) (small : b.size < 2 ^ 32) :
    sizeAt (setWord m p b.word) p = b.size :=
  Block.sizeAt_word (word_setWord_self m p (Block.word_lt h8 small)) h8

theorem sizeAt_store_apart {m : Mem} {p q v : Nat} (apart : p + 4 ≤ q ∨ q + 4 ≤ p) :
    sizeAt (setWord m p v) q = sizeAt m q := by
  rw [sizeAt, word_setWord_of_apart apart]
  rfl

def State.mark (s : State) (x : Nat) (b : Block) : State :=
  (s.store (x - 4) b.word).store (x + b.size - 8) b.word

/-- `insertblock`. -/
def State.insert (s : State) (bp : Nat) : State :=
  { ((s.store (bp + 8) s.freeListp).store s.freeListp bp).store bp 0 with freeListp := bp }

theorem does_insertblock {bp : Nat} (run : Does ok (insertblock bp) s () s') : s' = s.insert bp := by
  simp only [insertblock, does_freeListp_bind, does_put_bind, does_change] at run
  exact run.2.2.2

theorem place_returns (s : State) (x asize : Nat) :
    ∃ s', Does (fun _ => True) (place x asize) s () s' := by
  simp only [place, does_getSize_bind, true_and]
  split
  · simp only [does_put_bind, does_ftrp_bind, does_nextBlkp_bind, insertblock, does_freeListp_bind,
      does_change, true_and]
    exact ⟨_, rfl⟩
  · simp only [does_put_bind, does_ftrp_bind, does_put, true_and]
    exact ⟨_, rfl⟩

theorem does_mark_bind {b : Block} {α : Type} {g : Prog α} {a : α} (low : 4 ≤ x) (near : x < 2 ^ 32)
    (h8 : b.size % 8 = 0) (small : b.size < 2 ^ 32) :
    (Does ok (put (hdrp x) (pack b.size b.alloc.toNat) >>= fun _ => ftrp x >>= fun p =>
      put p (pack b.size b.alloc.toNat) >>= fun _ => g) s a s') ↔
    (ok (.access (x - 4)) ∧ ok (.access (x - 4)) ∧ ok (.access (x + b.size - 8))) ∧
      Does ok g (s.mark x b) a s' := by
  have size : sizeAt (s.store (x - 4) b.word).mem (x - 4) = b.size := sizeAt_store h8 small
  simp only [does_put_bind, does_ftrp_bind, hdrp_eq low near, pack_eq b.alloc h8, size, and_assoc]
  rfl

theorem mark_size {b : Block} (low : 8 ≤ x) (h8 : b.size % 8 = 0) (small : b.size < 2 ^ 32) :
    sizeAt (s.mark x b).mem (x - 4) = b.size := by
  rw [State.mark, State.store, sizeAt_store_apart (by omega)]
  exact sizeAt_store h8 small

theorem place_run (t : Tiled s bs) (mem : (x, ⟨n, false⟩) ∈ located s.first bs) (h8 : asize % 8 = 0)
    (low : 16 ≤ asize) (high : asize ≤ n) (run : Does ok (place x asize) s () s') :
    s' = if 16 ≤ n - asize then
        ((s.mark x ⟨asize, true⟩).mark (x + asize) ⟨n - asize, false⟩).insert (x + asize)
      else s.mark x ⟨n, true⟩ := by
  obtain ⟨first, last⟩ := t.near mem
  have n8 : n % 8 = 0 := (t.sizes _ (placed_mem mem)).1
  have below := t.valid.high
  have space := t.valid.space
  simp only [State.first] at first last
  have rest : sub32 n asize = n - asize := sub32_eq (by omega) high
  simp only [place, t.hdrp mem, does_getSize_bind, t.sizeAt mem, rest] at run
  rw [← t.hdrp mem] at run
  obtain ⟨-, run⟩ := run
  split
  · rename_i large
    rw [if_pos (show n - asize ≥ 8 + 8 from large)] at run
    obtain ⟨-, run⟩ := (does_mark_bind (b := ⟨asize, true⟩) (by omega) (by omega) h8
      (by simp only; omega)).mp run
    have taken : sizeAt (s.mark x ⟨asize, true⟩).mem (x - 4) = asize :=
      mark_size (b := ⟨asize, true⟩) (by omega) h8 (by simp only; omega)
    rw [does_nextBlkp_bind, t.hdrp mem, taken] at run
    obtain ⟨-, run⟩ := (does_mark_bind (b := ⟨n - asize, false⟩) (by omega) (by omega)
      (by simp only; omega) (by simp only; omega)).mp run.2
    exact does_insertblock run
  · rename_i small
    rw [if_neg (show ¬ n - asize ≥ 8 + 8 from small)] at run
    have size : sizeAt (s.store (x - 4) (Block.word ⟨n, true⟩)).mem (x - 4) = n :=
      sizeAt_store (b := ⟨n, true⟩) n8 (by simp only; omega)
    have packed : pack n 1 = Block.word ⟨n, true⟩ := pack_eq true n8
    simp only [does_put_bind, does_ftrp_bind, does_put, t.hdrp mem, packed, size] at run
    exact run.2.2.2

structure Reached (s s' : State) (x : Nat) : Prop where
  path : ∃ us, Path (nextAt s'.mem) s'.freeListp us x ∧ ∀ v ∈ us, s.first ≤ v
  start : s'.memStartBrk = s.memStartBrk
  listp : s'.heapListp = s.heapListp

theorem nextAt_store_apart {m : Mem} {p v y : Nat} (apart : p + 4 ≤ y + 8 ∨ y + 12 ≤ p) :
    nextAt (setWord m p v) y = nextAt m y := word_setWord_of_apart (by omega)

theorem nextAt_mark {b : Block} {y c : Nat} (low : 8 ≤ x) (large : 16 ≤ b.size) (b8 : b.size % 8 = 0)
    (same : y % 8 = x % 8) (apart : y + c ≤ x ∨ x + b.size ≤ y) (pos : 8 ≤ c) :
    nextAt (s.mark x b).mem y = nextAt s.mem y := by
  rw [State.mark, State.store, nextAt_store_apart (by omega)]
  exact nextAt_store_apart (by omega)

theorem reached_of_path {us : List Nat} (path : Path (nextAt s.mem) s.freeListp us x)
    (inside : ∀ v ∈ us, s.first ≤ v) (start : s'.memStartBrk = s.memStartBrk)
    (listp : s'.heapListp = s.heapListp) (head : s'.freeListp = s.freeListp)
    (same : ∀ y ∈ us, nextAt s'.mem y = nextAt s.mem y) : Reached s s' x :=
  ⟨⟨us, by rw [head]; exact path.congr same, inside⟩, start, listp⟩

theorem WellFormed.front (wf : WellFormed s bs) (mem : (x, ⟨n, false⟩) ∈ located s.first bs) :
    ∃ us, Path (nextAt s.mem) s.freeListp us x ∧
      (∀ y ∈ us, s.first ≤ y ∧ y % 8 = x % 8 ∧ y + 8 ≠ s.freeListp ∧ ∃ c, 8 ≤ c ∧
        (y + c ≤ x ∨ x + n ≤ y)) ∧
      s.freeListp % 8 = x % 8 ∧ (s.freeListp ≤ x ∨ x + n ≤ s.freeListp) ∧ s.freeListp < 2 ^ 32 := by
  obtain ⟨t, xs, chain, nodup, free⟩ := wf
  obtain ⟨us, vs, rfl⟩ := List.append_of_mem ((free x).mpr ⟨n, mem⟩)
  have path := chain.path
  have aligned : ∀ b ∈ bs, b.size % 8 = 0 := fun b hb => (t.sizes b hb).1
  -- a node is `x` or lies apart from it
  have node : ∀ y ∈ us ++ x :: vs, s.first ≤ y ∧ y % 8 = x % 8 ∧ y < 2 ^ 32 ∧
      (y = x ∨ ∃ c, 8 ≤ c ∧ (y + c ≤ x ∨ x + n ≤ y)) := by
    intro y hy
    obtain ⟨c, member⟩ := (free y).mp hy
    have near := t.near member
    have high := t.valid.high
    have space := t.valid.space
    have size := t.sizes _ (placed_mem member)
    simp only at near size
    refine ⟨near.1, ?_, by omega, ?_⟩
    · rw [located_aligned aligned member, located_aligned aligned mem]
    · obtain ⟨same, -⟩ | apart := placed_apart member mem
      · exact .inl same
      · exact .inr ⟨c, by omega, apart⟩
  have head : s.freeListp ∈ us ++ x :: vs := by
    apply chain.head_mem
    rw [t.listp, chain.head_eq]
    cases us with
    | nil =>
      have := (node x (by simp)).1
      unfold State.first at this
      simp only [List.nil_append, List.head?_cons, Option.getD_some]
      omega
    | cons u us =>
      have := (node u (by simp)).1
      unfold State.first at this
      simp only [List.cons_append, List.head?_cons, Option.getD_some]
      omega
  have first : prevAt s.mem s.freeListp = null := by
    cases us with
    | nil => exact chain.1 ▸ chain.2.2.1
    | cons u us => exact chain.1 ▸ chain.2.2.1
  refine ⟨us, path, fun y hy => ?_, (node _ head).2.1, ?_, (node _ head).2.2.1⟩
  · obtain ⟨low, mod, -, same | apart⟩ := node y (by simp [hy])
    · subst same
      exact absurd hy fun hy => (List.nodup_append.mp nodup).2.2 _ hy _ (by simp) rfl
    · refine ⟨low, mod, fun touch => ?_, apart⟩
      -- the link of `y` would be the back link of the head, which is `NULL`
      have next := path.next_mem hy
      rw [nextAt, touch] at next
      rw [prevAt] at first
      rw [first] at next
      have visited : null ∈ us ++ x :: vs := by
        obtain next | next := List.mem_append.mp next
        · exact List.mem_append_left _ next
        · rw [List.mem_singleton.mp next]
          simp
      have := (node null visited).1
      unfold State.first at this
      simp only [null] at this
      omega
  · obtain ⟨-, -, -, same | ⟨c, pos, apart⟩⟩ := node _ head
    · exact .inl same.le
    · omega

theorem place_reached (wf : WellFormed s bs) (mem : (x, ⟨n, false⟩) ∈ located s.first bs)
    (h8 : asize % 8 = 0) (low : 16 ≤ asize) (high : asize ≤ n)
    (run : Does ok (place x asize) s () s') : Reached s s' x := by
  obtain ⟨us, path, front, mod, apart, near⟩ := wf.front mem
  have inside := (wf.tiled.near mem).1
  have n8 : n % 8 = 0 := (wf.tiled.sizes _ (placed_mem mem)).1
  rw [place_run wf.tiled mem h8 low high run]
  unfold State.first at inside
  split
  · rename_i large
    -- the remainder is the new head, and its link the old one
    have link : nextAt (((s.mark x ⟨asize, true⟩).mark (x + asize) ⟨n - asize, false⟩).insert
        (x + asize)).mem (x + asize) = s.freeListp := by
      simp only [State.insert, State.store]
      rw [nextAt_store_apart (by omega), nextAt_store_apart (by simp only [State.mark, State.store]; omega)]
      exact word_setWord_self _ _ near
    have same : ∀ y ∈ us, nextAt (((s.mark x ⟨asize, true⟩).mark (x + asize)
        ⟨n - asize, false⟩).insert (x + asize)).mem y = nextAt s.mem y := by
      intro y hy
      obtain ⟨-, same, touch, c, pos, away⟩ := front y hy
      simp only [State.insert, State.store]
      rw [nextAt_store_apart (by omega),
        nextAt_store_apart (by simp only [State.mark, State.store]; omega),
        nextAt_store_apart (by omega)]
      have rest : nextAt ((s.mark x ⟨asize, true⟩).mark (x + asize) ⟨n - asize, false⟩).mem y =
          nextAt (s.mark x ⟨asize, true⟩).mem y :=
        nextAt_mark (by omega) large (by simp only; omega) (by omega) (by simp only; omega) pos
      have taken : nextAt (s.mark x ⟨asize, true⟩).mem y = nextAt s.mem y :=
        nextAt_mark (by omega) low h8 same (by simp only; omega) pos
      exact rest.trans taken
    refine ⟨⟨(x + asize) :: us, ⟨rfl, ?_⟩, ?_⟩, rfl, rfl⟩
    · rw [link]
      exact path.congr same
    · intro v hv
      obtain rfl | hv := List.mem_cons.mp hv
      · unfold State.first
        omega
      · exact (front v hv).1
  · refine reached_of_path path (fun y hy => (front y hy).1) rfl rfl rfl fun y hy => ?_
    obtain ⟨-, same, -, c, pos, apart⟩ := front y hy
    exact nextAt_mark (b := ⟨n, true⟩) (by omega) (by simp only; omega) n8 same apart pos

theorem Reached.listed (reached : Reached s s' x) (t : Tiled s bs) (inside : s.first ≤ x)
    {bs' : List Block} (wf : WellFormed s' bs') : ∃ n, (x, ⟨n, false⟩) ∈ located s'.first bs' := by
  obtain ⟨us, path, front⟩ := reached.path
  obtain ⟨-, xs, chain, -, free⟩ := wf
  have listp := t.listp
  unfold State.first at inside
  have outside : s'.heapListp ∉ us := by
    intro mem
    have := front _ mem
    rw [reached.listp] at this
    unfold State.first at this
    omega
  exact (free x).mp (path.mem chain outside (by rw [reached.listp]; omega))

theorem not_places_of_reached (t : Tiled s bs) (inside : s.first ≤ x)
    (reached : ∀ s', Does (fun _ => True) (place x asize) s () s' → Reached s s' x) :
    ¬ Places s x asize := by
  rintro ⟨s', bs', run, wf, k, taken⟩
  obtain ⟨m, free⟩ := (reached s' run).listed t inside wf
  have same := placed_unique (fun b hb => (wf.tiled.sizes b hb).2) taken free
  cases same

/-- `place` leaves no well-formed heap in which the block is allocated. -/
theorem place_never_places (wf : WellFormed s bs) (mem : (x, ⟨n, false⟩) ∈ located s.first bs)
    (h8 : asize % 8 = 0) (low : 16 ≤ asize) (high : asize ≤ n) : ¬ Places s x asize :=
  not_places_of_reached wf.tiled (wf.tiled.near mem).1 fun _ run => place_reached wf mem h8 low high run

end

theorem place_never_places_oneFree : ¬ Places oneFree 4128 16 :=
  place_never_places (n := 32) oneFree_wellFormed (by decide) (by decide) (by decide) (by decide)

theorem place_oneFree_stays : WellFormed oneFree [⟨32, false⟩] ∧
    (∃ s', Does (fun _ => True) (place 4128 16) oneFree () s') ∧ ¬ Places oneFree 4128 16 := by
  refine ⟨oneFree_wellFormed, place_returns oneFree 4128 16, ?_⟩
  refine not_places_of_reached oneFree_tiled (by decide) fun s' run => ?_
  exact place_reached (n := 32) oneFree_wellFormed (by decide) (by decide) (by decide) (by decide) run

end MallocLab.Explicit
