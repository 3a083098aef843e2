import MallocLab.Segregated.Frames

/-!
# Placing

`place` turns a free block into an allocated one of the requested size and, when at least 16 bytes
are left, a free one of the rest.
-/

namespace MallocLab.Segregated
open Memory Logged

/-- What becomes of a free block of `n` bytes. -/
def carve (n asize : Nat) : List Block :=
  if asize + 16 ≤ n then [⟨asize, true⟩, ⟨n - asize, false⟩] else [⟨n, true⟩]

section
variable {ok : Event → Prop} {s s' t : State} {e x n asize : Nat} {pre post : List Block}
  {live : List (Nat × Block)} {bs cs : List Block}

theorem extent_carve (le : asize ≤ n) : extent Block.size (carve n asize) = n := by
  unfold carve
  split
  · simp only [extent_cons, extent_nil, Nat.add_zero]
    exact Nat.add_sub_cancel' le
  · simp

theorem Keeps.mono (keeps : Keeps s s' live bs)
    (sub : ∀ f ∈ allocated (s'.memStartBrk + 16) bs, f ∈ allocated (s'.memStartBrk + 16) cs) :
    Keeps s s' live cs :=
  fun z c hz => ⟨sub _ (keeps z c hz).1, (keeps z c hz).2⟩

structure Placed (s s' : State) (pre : List Block) (x n asize : Nat) (post : List Block) : Prop where
  only : Only s s' (frees (s.memStartBrk + 16) (pre ++ ⟨n, false⟩ :: post)) (x - 4) (x + n - 4)
  tag : tagAt s'.mem (x - 4) = tagAt s.mem (x - 4)
  restTag : asize + 16 ≤ n → tagAt s'.mem (x + asize - 4) = 0

theorem place_unlisted (wf : WellFormed s (pre ++ ⟨n, false⟩ :: post))
    (hx : x = s.memStartBrk + 16 + extent Block.size pre) (tol : Tolerates ok s.memStartBrk s.memBrk) :
    ∃ t, Does ok (deleteBlock x) s () t ∧
      Holding t s.memBrk (pre ++ ⟨n, false⟩ :: post)
        (frees (s.memStartBrk + 16) pre ++ frees (x + n) post) ∧
      LinksOnly s t (frees (s.memStartBrk + 16) pre ++ frees (x + n) post) ∧
      word t.mem (x - 4) = word s.mem (x - 4) := by
  have listed : (frees (s.memStartBrk + 16) (pre ++ ⟨n, false⟩ :: post)).Perm
      ((x, n) :: (frees (s.memStartBrk + 16) pre ++ frees (x + n) post)) := by
    rw [frees_append, frees_cons_false rfl, ← hx]
    exact List.perm_middle
  have hold : Holding s s.memBrk (pre ++ ⟨n, false⟩ :: post) _ :=
    ⟨wf.tiled, wf.lists, List.Subperm.refl _⟩
  obtain ⟨t, run, hold', only⟩ := (hold.perm listed).delete tol
  exact ⟨t, run, hold', only, (hold.perm listed).header only (fun f hf => List.mem_cons_of_mem _ hf) hx⟩

theorem Only.unlisted {u : State} (only : LinksOnly s t (frees (s.memStartBrk + 16) pre ++ frees (x + n) post))
    (inner : Only t u [] (x - 4) (x + n - 4)) (hx : x = s.memStartBrk + 16 + extent Block.size pre) :
    Only s u (frees (s.memStartBrk + 16) (pre ++ ⟨n, false⟩ :: post)) (x - 4) (x + n - 4) :=
  .after_links only inner (fun f hf => by
    rw [frees_append, frees_cons_false rfl, ← hx]
    exact List.mem_append.mpr ((List.mem_append.mp hf).imp_right (List.mem_cons_of_mem _))) (by simp)

theorem Lists.unlisted {u : State} (lists : Lists t (frees (s.memStartBrk + 16) pre ++ frees (x + n) post))
    (large : ∀ c ∈ pre, 16 ≤ c.size) (hx : x = s.memStartBrk + 16 + extent Block.size pre)
    (heads : u.sgrlists = t.sgrlists) (inner : Only t u [] (x - 4) (x + n - 4)) :
    Lists u (frees (s.memStartBrk + 16) pre ++ frees (x + n) post) :=
  lists.congr heads fun f hf q low high => inner.mem q (by
    rw [hx] at hf
    have := frees_apart large hf
    omega) (by simp)

theorem place_whole (wf : WellFormed s (pre ++ ⟨n, false⟩ :: post))
    (hx : x = s.memStartBrk + 16 + extent Block.size pre) (le : asize ≤ n) (short : n < asize + 16)
    (tol : Tolerates ok s.memStartBrk s.memBrk) :
    ∃ s', Does ok (place x asize) s () s' ∧ WellFormed s' (pre ++ ⟨n, true⟩ :: post) ∧
      Placed s s' pre x n asize post := by
  have cut := wf.tiled.cut
  have ends := wf.tiled.ends
  have n16 := wf.tiled.large ⟨n, false⟩ (by simp)
  have n8 := wf.tiled.aligned ⟨n, false⟩ (by simp)
  have small := wf.tiled.small
  simp only [extent_append, extent_cons, after_cons, ← hx] at cut ends small n16 n8
  obtain ⟨t, run, hold, only, header⟩ := place_unlisted wf hx tol
  have start := only.start
  have marked : Marked t _ x ⟨n, true⟩ :=
    marked_header_footer (by omega) n8 n16 (by simp only; omega)
  have inner : Only t _ [] (x - 4) (x + n - 4) :=
    ⟨marked.start, marked.brk, marked.max, marked.listp, fun q outside _ => marked.kept q outside⟩
  have tiled := (show Tiled t s.memBrk (pre ++ [⟨n, false⟩] ++ post) by simpa using hold.tiled).merge
    (b := ⟨n, true⟩) (by simp) marked.start (by simp) (by rw [start, ← hx]; exact marked.framed)
    (by rw [start, ← hx]; simpa using marked.kept)
  have lists := hold.lists.unlisted (fun c hc => wf.tiled.large c (by simp [hc])) hx marked.heads inner
  have whole := inner.unlisted only hx
  have same : frees (s.memStartBrk + 16) pre ++ frees (x + n) post =
      frees (s.memStartBrk + 16) (pre ++ ⟨n, true⟩ :: post) := by
    rw [frees_append, frees_cons_true rfl, ← hx]
  refine ⟨_, ?_, Holding.wellFormed ⟨tiled, lists, ?_⟩ whole wf.valid ?_, whole, ?_, fun room => ?_⟩
  · have size : sizeAt t.mem (x - 4) = n := by rw [sizeAt, header, ← sizeAt, cut.nextSize]
    have size' : sizeAt (setWord t.mem (x - 4) (pack n 1 ||| tagAt t.mem (x - 4))) (x - 4) = n :=
      (fields_put (a := true) n8 (by omega)).1
    have rest : sub32 n asize = n - asize := sub32_eq (by omega) le
    unfold place
    simp only [does_getSize_bind, hdrp, wsize, cut.nextSize, run.bind_iff, rest, minBsize,
      if_neg (show ¬ n - asize ≥ 16 by omega), does_put_bind, does_ftrp_bind, put_mem, size', does_put]
    repeat refine ⟨tol.access _ (by omega) (by omega), ?_⟩
    rfl
  · rw [whole.start, same]
  · rw [whole.start, same]
  · rw [marked.tag, tagAt, header, tagAt]
  · omega

theorem place_split (wf : WellFormed s (pre ++ ⟨n, false⟩ :: post))
    (hx : x = s.memStartBrk + 16 + extent Block.size pre) (a8 : asize % 8 = 0) (a16 : 16 ≤ asize)
    (room : asize + 16 ≤ n) (tol : Tolerates ok s.memStartBrk s.memBrk) :
    ∃ s', Does ok (place x asize) s () s' ∧
      WellFormed s' (pre ++ ⟨asize, true⟩ :: ⟨n - asize, false⟩ :: post) ∧
      Placed s s' pre x n asize post := by
  have cut := wf.tiled.cut
  have ends := wf.tiled.ends
  have n16 := wf.tiled.large ⟨n, false⟩ (by simp)
  have n8 := wf.tiled.aligned ⟨n, false⟩ (by simp)
  have small := wf.tiled.small
  have space := wf.valid.space
  have high := wf.valid.high
  simp only [extent_append, extent_cons, after_cons, ← hx] at cut ends small n16 n8
  obtain ⟨t, run, hold, only, header⟩ := place_unlisted wf hx tol
  have start := only.start
  obtain ⟨r, hr⟩ : ∃ r, r = n - asize := ⟨_, rfl⟩
  have marked : Marked t _ x ⟨asize, true⟩ :=
    marked_header_footer (by omega) a8 a16 (by simp only; omega)
  generalize hv : State.put _ _ _ = v at marked
  have stamped := framed_notag (s := v) (x := x + asize) (b := ⟨r, false⟩) (by omega) (by simp only; omega)
    (by simp only; omega) (by simp only; omega)
  generalize hu : State.store (State.store v _ _) _ _ = u at stamped
  obtain ⟨framed, untagged, kept⟩ := stamped
  simp only at kept
  have inner : Only t u [] (x - 4) (x + n - 4) := by
    refine ⟨?_, ?_, ?_, ?_, fun q outside _ => ?_⟩
    · rw [← hu]; exact marked.start
    · rw [← hu]; exact marked.brk
    · rw [← hu]; exact marked.max
    · rw [← hu]; exact marked.listp
    · rw [kept q (by omega), marked.kept q (by simp only; omega)]
  have heads : u.sgrlists = t.sgrlists := by
    rw [← hu]
    exact marked.heads
  have first : Framed u.mem x ⟨asize, true⟩ :=
    marked.framed.congr (by omega) a16 fun q _ high => kept q (by simp only at high; omega)
  have tiled := (show Tiled t s.memBrk (pre ++ [⟨n, false⟩] ++ post) by simpa using hold.tiled).replace
    [⟨asize, true⟩, ⟨r, false⟩] inner.start (by simp only [extent_cons, extent_nil]; omega)
    (by simp only [List.mem_cons, List.not_mem_nil, or_false, forall_eq_or_imp, forall_eq]; omega)
    (by simp only [List.mem_cons, List.not_mem_nil, or_false, forall_eq_or_imp, forall_eq]; omega)
    (fun y c hc => by
      rw [start, ← hx] at hc
      simp only [located, placed_cons, placed_nil, List.mem_cons, List.not_mem_nil, or_false,
        Prod.mk.injEq] at hc
      rcases hc with ⟨rfl, rfl⟩ | ⟨rfl, rfl⟩
      · exact ⟨first, by omega⟩
      · exact ⟨framed, by omega⟩)
    (fun q outside => inner.mem q (by
      simp only [start, ← hx, extent_cons, extent_nil] at outside
      omega) (by simp))
  have lists := hold.lists.unlisted (fun c hc => wf.tiled.large c (by simp [hc])) hx heads inner
  have start' : u.memStartBrk = s.memStartBrk := inner.start.trans start
  have same : frees (s.memStartBrk + 16) pre ++ frees (x + n) post =
      frees (s.memStartBrk + 16) (pre ++ [⟨asize, true⟩]) ++ frees (x + asize + r) post := by
    rw [frees_append, frees_cons_true rfl, frees_nil, List.append_nil, hr,
      show x + asize + (n - asize) = x + n by omega]
  obtain ⟨s', run', hold', only', header'⟩ :=
    (show Tiled u s.memBrk ((pre ++ [⟨asize, true⟩]) ++ ⟨r, false⟩ :: post) by simpa using tiled).insert
      (a := s.memStartBrk + 16) (y := x + asize) (by rw [start']) (by simp [hx, Nat.add_assoc])
      (by rw [← same]; exact lists) (by rwa [start'])
  have outer := inner.unlisted only hx
  have whole : Only s s' (frees (s.memStartBrk + 16) (pre ++ ⟨n, false⟩ :: post)) (x - 4) (x + n - 4) := by
    refine ⟨only'.start.trans outer.start, only'.brk.trans outer.brk, only'.max.trans outer.max,
      only'.listp.trans outer.listp, fun q outside apart => (only'.mem q fun f hf => ?_).trans
        (outer.mem q outside apart)⟩
    rcases List.mem_cons.mp hf with rfl | hf
    · simp only
      omega
    · rw [← same] at hf
      refine apart f ?_
      rw [frees_append, frees_cons_false rfl, ← hx]
      exact List.mem_append.mpr ((List.mem_append.mp hf).imp_right (List.mem_cons_of_mem _))
  have list : pre ++ [⟨asize, true⟩] ++ ⟨r, false⟩ :: post = pre ++ ⟨asize, true⟩ :: ⟨r, false⟩ :: post := by
    simp
  rw [list] at hold'
  rw [← hr]
  refine ⟨s', ?_, hold'.wellFormed whole wf.valid (by rw [whole.start]), whole, ?_, fun _ => ?_⟩
  · have size : sizeAt t.mem (x - 4) = n := by rw [sizeAt, header, ← sizeAt, cut.nextSize]
    have size₁ : sizeAt (setWord t.mem (x - 4) (pack asize 1 ||| tagAt t.mem (x - 4))) (x - 4) = asize :=
      (fields_put (a := true) a8 (by omega)).1
    have size₂ : ∀ m : Mem, sizeAt (setWord m (x + asize - 4) (pack r 0)) (x + asize - 4) = r :=
      fun m => (fields_putNotag (a := false) (by omega) (by omega)).1
    have rest : sub32 n asize = r := by rw [sub32_eq (by omega) (by omega), hr]
    unfold place
    simp (disch := omega) only [does_getSize_bind, hdrp, wsize, cut.nextSize, run.bind_iff, rest, minBsize,
      if_pos (show r ≥ 16 by omega), does_put_bind, does_ftrp_bind, does_nextBlkp_bind, does_putNotag_bind,
      put_mem, store_mem, size₁, size₂, sizeAt_store_apart]
    repeat refine ⟨tol.access _ (by omega) (by omega), ?_⟩
    rw [← hu, ← hv] at run'
    exact run'
  · have links : word s'.mem (x - 4) = word u.mem (x - 4) := word_congr fun q low high => only'.mem q fun f hf => by
      rcases List.mem_cons.mp hf with rfl | hf
      · simp only
        omega
      · rw [← same, hx] at hf
        have := frees_apart (fun c hc => wf.tiled.large c (by simp [hc])) hf
        omega
    have stamps : word u.mem (x - 4) = word v.mem (x - 4) := word_congr fun q _ _ => kept q (by omega)
    have marks : tagAt v.mem (x - 4) = tagAt t.mem (x - 4) := marked.tag
    rw [tagAt, links, stamps, ← tagAt, marks, tagAt, header, tagAt]
  · rw [tagAt, header', ← tagAt]
    exact untagged

theorem place_spec (wf : WellFormed s (pre ++ ⟨n, false⟩ :: post))
    (hx : x = s.memStartBrk + 16 + extent Block.size pre) (a8 : asize % 8 = 0) (a16 : 16 ≤ asize)
    (le : asize ≤ n) (tol : Tolerates ok s.memStartBrk s.memBrk) :
    ∃ s', Does ok (place x asize) s () s' ∧ WellFormed s' (pre ++ carve n asize ++ post) ∧
      Placed s s' pre x n asize post := by
  by_cases room : asize + 16 ≤ n
  · simpa [carve, room] using place_split wf hx a8 a16 room tol
  · simpa [carve, room] using place_whole wf hx le (by omega) tol

/-- `place` turns the block into what `carve` says and loses nothing: the heap is well formed again, the
block is in no list, every allocated block keeps its payload and every header its tag, and what is left
is not tagged. -/
theorem place_carves (wf : WellFormed s (pre ++ ⟨n, false⟩ :: post))
    (hx : x = s.memStartBrk + 16 + extent Block.size pre) (a8 : asize % 8 = 0) (a16 : 16 ≤ asize)
    (le : asize ≤ n) :
    ∃ s', Does (fun _ => True) (place x asize) s () s' ∧ WellFormed s' (pre ++ carve n asize ++ post) ∧
      s'.memStartBrk = s.memStartBrk ∧ ¬ Listed s' x ∧
      Keeps s s' (allocated (s.memStartBrk + 16) (pre ++ ⟨n, false⟩ :: post))
        (pre ++ carve n asize ++ post) ∧
      (∀ L R, pre ++ ⟨n, false⟩ :: post = L ++ R →
        tagAt s'.mem (s.memStartBrk + 16 + extent Block.size L - 4) =
          tagAt s.mem (s.memStartBrk + 16 + extent Block.size L - 4)) ∧
      (asize + 16 ≤ n → tagAt s'.mem (x + asize - 4) = 0) ∧
      extent Block.size (pre ++ carve n asize ++ post) =
        extent Block.size (pre ++ ⟨n, false⟩ :: post) := by
  obtain ⟨s', run, wf', placed⟩ := place_spec wf hx a8 a16 le (tolerates_all _ _)
  have start : s'.memStartBrk = s.memStartBrk := placed.only.start
  refine ⟨s', run, wf', start, ?_, ?_, fun L R cut => ?_, placed.restTag, ?_⟩
  · -- an allocated block starts there
    have hold : Holding s' s'.memBrk (pre ++ carve n asize ++ post) _ := ⟨wf'.tiled, wf'.lists, .refl _⟩
    rw [List.append_assoc] at hold
    rw [hx, ← start]
    refine hold.not_listed ?_
    unfold carve
    split <;> rfl
  · have here : (x, ⟨n, false⟩) ∈ located (s.memStartBrk + 16) (pre ++ ⟨n, false⟩ :: post) :=
      mem_placed.mpr ⟨pre, post, rfl, hx⟩
    have keeps := (placed.only.widen (le_refl _) (Nat.sub_le _ 4)).keeps (by rw [start]) wf.tiled.large here
      (fun _ hf => hf) fun f hf => ⟨hf, fun same => by
        rw [same] at hf
        cases (mem_allocated.mp hf).2⟩
    refine keeps.mono fun f hf => ?_
    rw [allocated_append, allocated_cons_false _ _ rfl, List.mem_append] at hf
    rw [List.append_assoc, allocated_append, allocated_append, extent_carve le]
    simp only [List.mem_append]
    exact hf.imp_right Or.inr
  · have large := wf.tiled.large
    have n16 := large ⟨n, false⟩ (by simp)
    have only := placed.only
    rw [cut] at only large
    -- every other header lies outside the block
    have header := fun outside => only.header large rfl outside
    rcases List.append_eq_append_iff.mp cut with ⟨as, split, rest⟩ | ⟨as, split, rest⟩
    · cases as with
      | nil =>
          rw [split, List.append_nil, ← hx]
          exact placed.tag
      | cons c as =>
          obtain ⟨rfl, -⟩ := List.cons.inj rest
          rw [tagAt, header (Or.inr ?_), tagAt]
          simp only [split, extent_append, extent_cons]
          omega
    · cases as with
      | nil =>
          rw [List.append_nil] at split
          rw [← split, ← hx]
          exact placed.tag
      | cons c as =>
          have := large c (by rw [← cut, split]; simp)
          rw [tagAt, header (Or.inl ?_), tagAt]
          simp only [split, extent_append, extent_cons] at hx
          omega
  · simp only [extent_append, extent_cons, extent_carve le]
    omega

end

def vacant (header : Nat) : State where
  mem := ofWords 4096 [0, 9, 9, header, 0, 0, 0, 0, 0, 0, 32, 1]
  memStartBrk := 4096
  memBrk := 4144
  memMaxAddr := 4096 + maxHeap
  heapListp := 4104
  sgrlists := fun c => if c = 5 then 4112 else null

theorem vacant_wellFormed {header : Nat} (size : header = 32 ∨ header = 34) :
    WellFormed (vacant header) [⟨32, false⟩] := by
  rcases size with rfl | rfl
  · have framed : ∀ e ∈ located 4112 [⟨32, false⟩],
        Framed (vacant 32).mem e.1 e.2 ∧ e.1 < 2 ^ 32 := by decide +kernel
    exact ⟨⟨by decide, by decide, by decide, rfl, by decide⟩, ⟨by decide, by decide +kernel, by decide,
      by decide, fun x b hb => (framed _ hb).1, rfl, by decide +kernel, by decide +kernel,
      fun x b hb => (framed _ hb).2, by decide⟩, fun c => if c = 5 then [4112] else [], by decide +kernel⟩
  · have framed : ∀ e ∈ located 4112 [⟨32, false⟩],
        Framed (vacant 34).mem e.1 e.2 ∧ e.1 < 2 ^ 32 := by decide +kernel
    exact ⟨⟨by decide, by decide, by decide, rfl, by decide⟩, ⟨by decide, by decide +kernel, by decide,
      by decide, fun x b hb => (framed _ hb).1, rfl, by decide +kernel, by decide +kernel,
      fun x b hb => (framed _ hb).2, by decide⟩, fun c => if c = 5 then [4112] else [], by decide +kernel⟩

theorem place_carves_vacant :
    ∃ s', Does (fun _ => True) (place 4112 16) (vacant 32) () s' ∧
      WellFormed s' [⟨16, true⟩, ⟨16, false⟩] ∧ ¬ Listed s' 4112 := by
  obtain ⟨s', run, wf, -, unlisted, -⟩ := place_carves (show WellFormed (vacant 32) ([] ++ ⟨32, false⟩ :: []) from
    vacant_wellFormed (Or.inl rfl)) (x := 4112) rfl (show 16 % 8 = 0 by rfl) (by decide) (by decide)
  exact ⟨s', run, wf, unlisted⟩

end MallocLab.Segregated
