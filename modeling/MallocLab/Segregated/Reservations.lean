import MallocLab.Segregated.Free

/-!
# Neighbouring free blocks

Two neighbouring free blocks may only be left when the first of them is tagged. `mm_free` keeps to
this unless it deletes a block that is in no list, or joins its block with the next one only, where
a third free block follows and the header of the joined block has no tag.
-/

namespace MallocLab.Segregated
open Memory Logged

/-- Of two neighbouring free blocks the first is tagged. -/
def Reserved (s : State) (bs : List Block) : Prop :=
  ∀ pre b c post, bs = pre ++ b :: c :: post → b.alloc = false → c.alloc = false →
    tagAt s.mem (s.memStartBrk + 16 + extent Block.size pre - 4) ≠ 0

/-- `mm_free` of the block at `x` keeps the free blocks apart or reserved, whatever the payloads and the
bytes outside the heap are. -/
def FreeReserves (s : State) (bs : List Block) (x : Nat) : Prop :=
  ∀ m, PayloadsOnly s bs m → ∃ s' bs', Does (fun _ => True) (mmFree x) { s with mem := m } () s' ∧
    WellFormed s' bs' ∧ Reserved s' bs'

/-- The next two blocks are free, and the header that the joined block gets is not tagged. -/
def Fragments (s : State) (x : Nat) (pre post : List Block) : Prop :=
  (after post).alloc = false ∧ (after post.tail).alloc = false ∧
    (tagAt s.mem (x - 4) = 0 ∨ (before pre).alloc = false ∧ taggedBefore s x pre = false)

instance (s : State) (x : Nat) (pre post : List Block) : Decidable (Fragments s x pre post) :=
  inferInstanceAs (Decidable (_ ∧ _ ∧ _))

section
variable {ok : Event → Prop} {s s' t : State} {e x y z n m k : Nat} {p : Block} {mem : Mem}
  {bs pre post L : List Block} {F : List (Nat × Nat)}

theorem after_free (free : (after post).alloc = false) :
    ∃ c post', post = c :: post' ∧ c.alloc = false := by
  cases post with
  | nil => cases free
  | cons c post => exact ⟨c, post, rfl, free⟩

theorem tagged_of_kept {tagged : Bool} (same : keptUntagged tagged pre = pre)
    (free : (before pre).alloc = false) : tagged = true := by
  rcases pre.eq_nil_or_concat' with rfl | ⟨pre, c, rfl⟩
  · cases free
  · by_contra untagged
    rw [before_concat] at free
    simp [keptUntagged, keptBefore, free, untagged] at same

theorem Joined.merged_tag (join : Joined s s' x pre p post L y m)
    (hx : x = s.memStartBrk + 16 + extent Block.size pre) :
    tagAt s'.mem (y - 4) = 0 ↔
      tagAt s.mem (x - 4) = 0 ∨ (before pre).alloc = false ∧ taggedBefore s x pre = false := by
  rw [join.tag]
  have left := join.left
  have place := join.place
  rcases keptUntagged_cases (taggedBefore s x pre) pre with ⟨same, -⟩ | ⟨c, free, untagged, split, -⟩
  · rw [left, same, ← hx] at place
    rw [place, or_iff_left]
    rintro ⟨free, untagged⟩
    exact absurd (tagged_of_kept same free) (by simp [untagged])
  · rw [← left] at split
    have last : before pre = c := by rw [split, before_concat]
    refine iff_of_true ?_ (Or.inr ⟨by rw [last, free], untagged⟩)
    have extents : extent Block.size pre = extent Block.size L + c.size := by simp [split]
    rw [taggedBefore, last, show x - c.size - 4 = y - 4 by omega] at untagged
    simpa using untagged

theorem Reserved.free (res : Reserved s (pre ++ p :: post)) (wf : WellFormed s (pre ++ p :: post))
    (hx : x = s.memStartBrk + 16 + extent Block.size pre) (fine : ¬ Fragments s x pre post)
    (join : Joined s s' x pre p post L y m) : Reserved s' (L ++ ⟨m, false⟩ :: keptAfter post) := by
  intro pre₂ b c post₂ cut hb hc
  have reach := join.reach hx
  have place := join.place
  have tag := (join.cut wf hx cut).2
  rw [join.only.start]
  have joined : L = pre₂ → ⟨m, false⟩ :: keptAfter post = b :: c :: post₂ →
      tagAt s'.mem (s.memStartBrk + 16 + extent Block.size pre₂ - 4) ≠ 0 := by
    rintro rfl rest
    obtain ⟨-, kept⟩ := List.cons.inj rest
    rw [← place]
    refine fun untagged => fine ⟨?_, ?_, (join.merged_tag hx).mp untagged⟩
    · by_contra next
      rw [keptAfter, if_pos (by simpa using next)] at kept
      simp [kept, hc] at next
    · by_cases next : (after post).alloc = true
      · rw [keptAfter, if_pos next] at kept
        simp [kept, hc] at next
      · rw [keptAfter, if_neg next] at kept
        rw [kept, after_cons, hc]
  rcases List.append_eq_append_iff.mp cut with ⟨as, hcut, rest⟩ | ⟨as, hcut, rest⟩
  · cases as with
    | nil => exact joined (by simpa using hcut.symm) rest
    | cons d as =>
        -- both blocks lie after the joined one
        obtain ⟨rfl, kept⟩ := List.cons.inj rest
        have notFirst : ¬ (pre₂ = L ++ [⟨m, false⟩] ∧ (after post).alloc = true) := by
          rintro ⟨whole, next⟩
          rw [whole, List.append_cancel_left_eq] at hcut
          obtain rfl : as = [] := (List.cons.inj hcut).2.symm
          rw [keptAfter, if_pos next] at kept
          simp [kept, hb] at next
        rw [tag, if_neg notFirst]
        obtain ⟨first, split, size⟩ := keptAfter_suffix post
        have old := res (pre ++ p :: first ++ as) b c post₂ (by rw [split, kept]; simp) hb hc
        have extents : extent Block.size (pre ++ p :: first ++ as) = extent Block.size pre₂ := by
          simp only [hcut, extent_append, extent_cons]
          omega
        rwa [extents] at old
  · have shorter : pre₂ ≠ L ++ [⟨m, false⟩] := fun whole => by
      have := congrArg List.length hcut
      simp [whole] at this
    rw [if_neg fun both => shorter both.1] at tag
    obtain ⟨X, hpre⟩ : ∃ X, pre = L ++ X := join.left ▸ keptUntagged_prefix _ pre
    rcases as with _ | ⟨d, _ | ⟨f, as⟩⟩
    · exact joined (by simpa using hcut) rest.symm
    · -- the joined block follows a free one
      simp only [List.cons_append, List.nil_append, List.cons.injEq] at rest
      obtain ⟨rfl, -, -⟩ := rest
      rw [tag]
      rcases keptUntagged_cases (taggedBefore s x pre) pre with ⟨same, -⟩ | ⟨f, free, -, split, -⟩
      · have whole : pre = pre₂ ++ [b] := same.symm.trans (join.left.symm.trans hcut)
        have tagged := tagged_of_kept same (by rw [whole, before_concat, hb])
        have extents : extent Block.size pre = extent Block.size pre₂ + b.size := by simp [whole]
        rw [taggedBefore, whole, before_concat, show x - b.size - 4 =
          s.memStartBrk + 16 + extent Block.size pre₂ - 4 by omega] at tagged
        simpa using tagged
      · rw [← join.left, hcut, List.append_assoc] at split
        exact res pre₂ b f (p :: post) (by simp [split]) hb free
    · -- both blocks lie before the joined one
      simp only [List.cons_append, List.cons.injEq] at rest
      obtain ⟨rfl, rfl, -⟩ := rest
      rw [tag]
      exact res pre₂ b c (as ++ X ++ p :: post) (by simp [hpre, hcut]) hb hc

theorem Joined.not_reserved (join : Joined s s' x pre p post L y m)
    (hx : x = s.memStartBrk + 16 + extent Block.size pre) (frag : Fragments s x pre post) :
    ¬ Reserved s' (L ++ ⟨m, false⟩ :: keptAfter post) := by
  intro res
  obtain ⟨next, second, untagged⟩ := frag
  obtain ⟨c, post, rfl, -⟩ := after_free next
  obtain ⟨d, post, rfl, free⟩ := after_free second
  have kept : keptAfter (c :: d :: post) = d :: post := by simp [keptAfter, show c.alloc = false from next]
  rw [kept] at res
  refine res L ⟨m, false⟩ d post rfl rfl free ?_
  rw [join.only.start, ← join.place]
  exact (join.merged_tag hx).mpr untagged

theorem PayloadsOnly.header (kept : PayloadsOnly s bs mem) (ht : Tiled s s.memBrk bs)
    (split : bs = pre ++ post) (hx : x = s.memStartBrk + 16 + extent Block.size pre) :
    word mem (x - 4) = word s.mem (x - 4) := by
  have ends := ht.ends
  rw [split, extent_append] at ends
  refine word_congr fun q low high => kept q (by omega) (by omega) fun z c hz => ?_
  have placed := (mem_allocated.mp hz).1
  have := ht.large c (placed_mem placed)
  rw [split, located, placed_append, List.mem_append] at placed
  rcases placed with placed | placed <;> have := placed_bounds placed <;> omega

theorem PayloadsOnly.taggedBefore (kept : PayloadsOnly s bs mem) (ht : Tiled s s.memBrk bs)
    (split : bs = pre ++ post) (hx : x = s.memStartBrk + 16 + extent Block.size pre) :
    Segregated.taggedBefore { s with mem := mem } x pre = Segregated.taggedBefore s x pre := by
  have same : word mem (x - (before pre).size - 4) = word s.mem (x - (before pre).size - 4) := by
    rcases pre.eq_nil_or_concat' with rfl | ⟨pre, c, rfl⟩
    · have ends := ht.ends
      simp only [before_nil, extent_nil] at *
      refine word_congr fun q low high => kept q (by omega) (by omega) fun z c hz => ?_
      have := placed_bounds (mem_allocated.mp hz).1
      omega
    · simp only [before_concat, extent_append, extent_cons, extent_nil, Nat.add_zero] at *
      rw [List.append_assoc] at split
      exact kept.header ht split (by omega)
  unfold Segregated.taggedBefore tagAt
  rw [same]

theorem free_reserves (wf : WellFormed s (pre ++ p :: post)) (res : Reserved s (pre ++ p :: post))
    (alloc : p.alloc = true) (hx : x = s.memStartBrk + 16 + extent Block.size pre)
    (fine : ¬ Stray s x pre post) (fine' : ¬ Fragments s x pre post) :
    FreeReserves s (pre ++ p :: post) x := by
  intro mem kept
  have same := kept.taggedBefore wf.tiled rfl hx
  have here := kept.header wf.tiled rfl hx
  obtain ⟨s', L, y, m, run, wf', join⟩ := mmFree_spec (wf.overwrite kept) alloc hx
    (by unfold Stray at fine ⊢; rwa [same]) (tolerates_all _ _)
  refine ⟨s', _, run, wf', Reserved.free ?_ (wf.overwrite kept) hx ?_ join⟩
  · intro pre₂ b c post₂ cut hb hc
    have old := res pre₂ b c post₂ cut hb hc
    rw [tagAt] at old ⊢
    rwa [kept.header wf.tiled cut rfl]
  · unfold Fragments at fine' ⊢
    rw [tagAt] at fine' ⊢
    rwa [same, here]

theorem mmFree_fragments (wf : WellFormed s (pre ++ p :: post)) (alloc : p.alloc = true)
    (hx : x = s.memStartBrk + 16 + extent Block.size pre) (frag : Fragments s x pre post)
    (run : Does (fun _ => True) (mmFree x) s () s') (wf' : WellFormed s' bs) : ¬ Reserved s' bs := by
  have fine : ¬ Stray s x pre post := fun stray => by
    rw [Stray, frag.1] at stray
    exact absurd stray.2.2 Bool.false_ne_true
  obtain ⟨t, L, y, m, run', wf'', join⟩ := mmFree_spec wf alloc hx fine (tolerates_all _ _)
  obtain rfl := (run.unique run').2
  rw [wf'.tiled.unique wf''.tiled]
  exact join.not_reserved hx frag

def strayLinks (s : State) (z : Nat) : Mem :=
  setWord (setWord s.mem z z) (z + 4) (s.memStartBrk + 4)

theorem stray_prologue (hold : Holding s e (pre ++ ⟨k, false⟩ :: ⟨n, false⟩ :: post)
      (frees (s.memStartBrk + 16) pre ++
        frees (s.memStartBrk + 16 + extent Block.size pre + k + n) post))
    (hz : z = s.memStartBrk + 16 + extent Block.size pre + k + n) (z32 : z < 2 ^ 32)
    (alloc : (after post).alloc = true)
    (next : nextAt s.mem z = z) (prev : prevAt s.mem z = s.memStartBrk + 4) :
    ∃ s', Does (fun _ => True) (mergeNext (s.memStartBrk + 16 + extent Block.size pre + k) n z) s
        (s.memStartBrk + 16 + extent Block.size pre) s' ∧
      s'.memStartBrk = s.memStartBrk ∧ word s'.mem (s.memStartBrk + 4) = z := by
  have cut := (show Tiled s e ((pre ++ [⟨k, false⟩]) ++ ⟨n, false⟩ :: post) by
    simpa using hold.tiled).cut
  have cut' := (show Tiled s e ((pre ++ [⟨k, false⟩, ⟨n, false⟩]) ++ post) by
    simpa using hold.tiled).cut
  have ends := hold.tiled.ends
  have small := hold.tiled.small
  have n16 := hold.tiled.large ⟨n, false⟩ (by simp)
  have k16 := hold.tiled.large ⟨k, false⟩ (by simp)
  simp only [extent_append, extent_cons, extent_nil, Nat.add_zero, ← Nat.add_assoc, after_cons,
    before_concat] at cut cut' ends small n16 k16
  have following : (after post).size ≤ extent Block.size post := by cases post <;> simp
  generalize hy : s.memStartBrk + 16 + extent Block.size pre = y at *
  obtain ⟨l, hl⟩ : ∃ l, l = (after post).size := ⟨_, rfl⟩
  subst hz
  rw [← hl] at following
  have size : sizeAt s.mem (y + k + n - 4) = l := cut'.nextSize.trans hl.symm
  have back : y + k - k = y := by omega
  have prevSize : sizeAt s.mem (y - 4) = k := by simpa [back] using cut.prevSize
  have total : add32 n (add32 k l) = k + n + l := by
    rw [show add32 k l = k + l from add32_eq (by omega), add32_eq (by omega)]
    omega
  have here : nextAt (setWord s.mem (y + k + n + 4) (s.memStartBrk + 4)) (y + k + n) = y + k + n := by
    rw [nextAt, word_setWord_of_apart (by omega)]
    exact next
  have there : prevAt (setWord s.mem (y + k + n + 4) (s.memStartBrk + 4)) (y + k + n) =
      s.memStartBrk + 4 := by
    rw [prevAt, word_setWord_self _ _ (by omega)]
  have ne : y + k + n ≠ null := show y + k + n ≠ 0 by omega
  have ne' : s.memStartBrk + 4 ≠ null := show s.memStartBrk + 4 ≠ 0 by omega
  unfold mergeNext deleteBlock
  simp (disch := omega) only [does_assoc, does_note_bind, does_getSize_bind, hdrp, wsize,
    does_nextFreep_bind, does_prevFreep_bind, does_prevBlkp_bind, does_nextBlkp_bind, does_put_bind,
    does_ftrp_bind, next, prev, ne, ne', ne_eq, not_false_eq_true, if_true, setBp, nextBp, prevBp,
    does_putNotag_bind, store_mem, put_mem, here, there, true_and, sizeAt_store_apart, cut.prevFooter,
    cut.nextSize, size, prevSize, back, total]
  generalize hu : State.put _ _ _ = u
  have kept : ∀ q, (q < s.memStartBrk + 4 ∨ s.memStartBrk + 8 ≤ q) → (q < y - 4 ∨ y ≤ q) →
      (q < y + k + n + 4 ∨ y + k + n + 8 ≤ q) → (q < y + k + n + l - 8 ∨ y + k + n + l - 4 ≤ q) →
      u.mem q = s.mem q := fun q _ _ _ _ => by
    rw [← hu, put_mem, setWord_of_outside (by omega), put_mem, setWord_of_outside (by omega), store_mem,
      setWord_of_outside (by omega), store_mem, setWord_of_outside (by omega)]
  have spots : ∀ f ∈ frees (s.memStartBrk + 16) pre ++ frees (y + k + n) post,
      s.memStartBrk + 16 ≤ f.1 ∧ (f.1 + 16 ≤ y ∨ y + k + n + l ≤ f.1 ∧ 16 ≤ l) := by
    intro f hf
    rcases List.mem_append.mp hf with hf | hf
    · have placed := placed_bounds (mem_frees.mp hf)
      have := hold.tiled.large ⟨f.2, false⟩ (by simp [placed_mem (mem_frees.mp hf)])
      simp only at *
      omega
    · cases post with
      | nil => cases hf
      | cons c post =>
          have c16 := hold.tiled.large c (by simp)
          rw [after_cons] at alloc hl
          rw [frees_cons_true alloc] at hf
          have placed := placed_bounds (mem_frees.mp hf)
          omega
  have lists : Lists u (frees (s.memStartBrk + 16) pre ++ frees (y + k + n) post) :=
    hold.lists.congr (by rw [← hu]; rfl) fun f hf q _ _ => by
      have := spots f hf
      exact kept q (by omega) (by omega) (by omega) (by omega)
  have listed : (frees (s.memStartBrk + 16) (pre ++ ⟨k, false⟩ :: ⟨n, false⟩ :: post)).Perm
      ((y + k, n) :: (y, k) :: (frees (s.memStartBrk + 16) pre ++ frees (y + k + n) post)) := by
    rw [frees_append, frees_cons_false rfl, frees_cons_false rfl, hy]
    exact (List.perm_middle.trans (List.perm_middle.cons _)).trans (.swap _ _ _)
  have nodes := ((hold.tiled.nodes.perm listed).tail (List.sublist_cons_self _ _)).resize
    (m := k + n + l) (by omega) (by omega)
  have headers : ∀ f ∈ frees (s.memStartBrk + 16) pre ++ frees (y + k + n) post,
      sizeAt u.mem (f.1 - 4) = f.2 := fun f hf => by
    have := spots f hf
    rw [sizeAt, word_congr fun q low high => kept q (by omega) (by omega) (by omega) (by omega)]
    exact hold.tiled.headers f (listed.symm.subset (by simp [List.mem_append.mp hf]))
  obtain ⟨s', run, -, only⟩ := insertBlock_spec lists nodes headers (tolerates_all _ _)
  refine ⟨s', run.bind_iff.mpr (does_pure.mpr ⟨rfl, rfl⟩), by rw [only.start, ← hu]; rfl, ?_⟩
  rw [word_congr fun q low high => only.mem q fun f hf => ?_, ← hu, put_mem,
    word_setWord_of_apart (by omega), put_mem, word_setWord_of_apart (by omega), store_mem,
    word_setWord_self _ _ z32]
  rcases List.mem_cons.mp hf with rfl | hf
  · simp only
    omega
  · have := spots f hf
    omega

theorem mmFree_prologue (wf : WellFormed s (pre ++ p :: post)) (alloc : p.alloc = true)
    (hx : x = s.memStartBrk + 16 + extent Block.size pre) (stray : Stray s x pre post)
    (z32 : x + p.size < 2 ^ 32) (next : nextAt s.mem (x + p.size) = x + p.size)
    (prev : prevAt s.mem (x + p.size) = s.memStartBrk + 4)
    (run : Does (fun _ => True) (mmFree x) s () s') :
    s'.memStartBrk = s.memStartBrk ∧ word s'.mem (s.memStartBrk + 4) = x + p.size := by
  obtain ⟨L, k, t, place, hold, only, rest⟩ := mmFree_stray wf alloc hx stray (tolerates_all _ _)
  obtain ⟨r, run⟩ := (rest s').mp run
  -- the links are outside everything that has been written
  have links : ∀ q, x + p.size ≤ q → q < x + p.size + 8 → t.mem q = s.mem q := by
    intro q low high
    refine only.mem q (Or.inr low) fun f hf => ?_
    rw [frees_append, frees_cons_false rfl, ← hx, List.mem_append, List.mem_cons] at hf
    rcases hf with hf | rfl | hf
    · have := placed_bounds (mem_frees.mp hf)
      have := wf.tiled.large ⟨f.2, false⟩ (by simp [placed_mem (mem_frees.mp hf)])
      simp only at *
      omega
    · have := wf.tiled.large p (by simp)
      exact Or.inr (by simp only; omega)
    · cases post with
      | nil => cases hf
      | cons c post =>
          have c16 := wf.tiled.large c (by simp)
          rw [frees_cons_true (show c.alloc = true from stray.2.2)] at hf
          have := placed_bounds (mem_frees.mp hf)
          simp only at *
          omega
  have start := only.start
  rw [nextAt, ← word_congr fun q _ _ => links q (by omega) (by omega)] at next
  rw [prevAt, ← word_congr fun q _ _ => links q (by omega) (by omega), ← start] at prev
  rw [← start] at hold place
  rw [place] at hold next prev z32
  obtain ⟨u, run', start', lost⟩ := stray_prologue hold rfl z32 stray.2.2 next prev
  rw [← place] at run' lost
  obtain rfl := (run.unique run').2
  exact ⟨start'.trans start, by rwa [← start]⟩

theorem not_free_reserves_of_stray (wf : WellFormed s (pre ++ p :: post)) (alloc : p.alloc = true)
    (hx : x = s.memStartBrk + 16 + extent Block.size pre) (stray : Stray s x pre post) :
    ¬ FreeReserves s (pre ++ p :: post) x := by
  intro reserves
  have ends := wf.tiled.ends
  have space := wf.valid.space
  have high := wf.valid.high
  have p16 := wf.tiled.large p (by simp)
  simp only [extent_append, extent_cons] at ends
  have z32 : x + p.size < 2 ^ 32 := by omega
  have kept : PayloadsOnly s (pre ++ p :: post) (strayLinks s (x + p.size)) := by
    intro q low high outside
    have : q < x + p.size ∨ x + p.size + 8 ≤ q := by
      cases post with
      | nil => simp only [extent_nil] at ends; omega
      | cons c post =>
          have c16 := wf.tiled.large c (by simp)
          have := outside (x + p.size) c (mem_allocated.mpr ⟨mem_placed.mpr
            ⟨pre ++ [p], post, by simp, by simp [hx, Nat.add_assoc]⟩, stray.2.2⟩)
          omega
    rw [strayLinks, setWord_of_outside (by omega), setWord_of_outside (by omega)]
  obtain ⟨s', bs', run, wf', -⟩ := reserves _ kept
  have same := kept.taggedBefore wf.tiled rfl hx
  have lost := mmFree_prologue (wf.overwrite kept) alloc hx (by unfold Stray; rwa [same]) z32
    (by rw [nextAt, strayLinks, word_setWord_of_apart (by omega), word_setWord_self _ _ z32])
    (by rw [prevAt, strayLinks, word_setWord_self _ _ (by omega)]) run
  have header := wf'.tiled.prologue.size
  rw [lost.1, show s.memStartBrk + 8 - 4 = s.memStartBrk + 4 by omega, sizeAt_eq, lost.2] at header
  simp only at header
  omega

/-- `mm_free` leaves neighbouring free blocks reserved, whatever the payloads are, on exactly the heaps
where it neither deletes a stray block nor fragments. -/
theorem free_reserves_iff (wf : WellFormed s (pre ++ p :: post)) (res : Reserved s (pre ++ p :: post))
    (alloc : p.alloc = true) (hx : x = s.memStartBrk + 16 + extent Block.size pre) :
    FreeReserves s (pre ++ p :: post) x ↔ ¬ Stray s x pre post ∧ ¬ Fragments s x pre post := by
  refine ⟨fun reserves => ⟨fun stray => not_free_reserves_of_stray wf alloc hx stray reserves,
    fun frag => ?_⟩, fun fine => free_reserves wf res alloc hx fine.1 fine.2⟩
  obtain ⟨s', bs', run, wf', res'⟩ := reserves s.mem fun _ _ _ _ => rfl
  exact mmFree_fragments wf alloc hx frag run wf' res'

end

def fragmented : State where
  mem := ofWords 4096 [0, 9, 9, 17, 0, 0, 17, 18, 4144, 0, 16, 16, 0, 4128, 16, 1]
  memStartBrk := 4096
  memBrk := 4160
  memMaxAddr := 4096 + maxHeap
  heapListp := 4104
  sgrlists := fun c => if c = 4 then 4128 else null

theorem fragmented_wellFormed : WellFormed fragmented [⟨16, true⟩, ⟨16, false⟩, ⟨16, false⟩] := by
  have framed : ∀ e ∈ located 4112 [⟨16, true⟩, ⟨16, false⟩, ⟨16, false⟩],
      Framed fragmented.mem e.1 e.2 ∧ e.1 < 2 ^ 32 := by decide +kernel
  exact ⟨⟨by decide, by decide, by decide, rfl, by decide⟩, ⟨by decide, by decide +kernel, by decide,
    by decide, fun x b hb => (framed _ hb).1, rfl, by decide +kernel, by decide +kernel,
    fun x b hb => (framed _ hb).2, by decide⟩, fun c => if c = 4 then [4128, 4144] else [], by decide +kernel⟩

theorem reserved_of_second {s : State} (start : s.memStartBrk = 4096) (tagged : tagAt s.mem 4124 ≠ 0) :
    Reserved s [⟨16, true⟩, ⟨16, false⟩, ⟨16, false⟩] := by
  intro pre b c post split hb hc
  match pre, split with
  | [], split =>
      obtain ⟨rfl, -⟩ := List.cons.inj split
      cases hb
  | [d], split =>
      obtain ⟨rfl, -⟩ := List.cons.inj split
      rw [start]
      exact tagged
  | d :: f :: pre, split =>
      have := congrArg List.length split
      simp only [List.length_cons, List.length_append, List.length_nil] at this
      omega

def guarded : State := fragmented.store 4108 19

theorem guarded_wellFormed : WellFormed guarded [⟨16, true⟩, ⟨16, false⟩, ⟨16, false⟩] := by
  have wf := fragmented_wellFormed
  have hold : Holding fragmented 4160 ([] ++ [⟨16, true⟩, ⟨16, false⟩, ⟨16, false⟩]) _ :=
    ⟨wf.tiled, wf.lists, List.Subperm.refl _⟩
  have retagged := hold.retag (x := 4112) (w := 19) rfl (by decide +kernel) (by decide +kernel)
  exact ⟨wf.valid.setMem _, retagged.tiled, retagged.lists⟩

theorem free_reserves_iff_guarded :
    FreeReserves guarded [⟨16, true⟩, ⟨16, false⟩, ⟨16, false⟩] 4112 ∧
      ¬ FreeReserves fragmented [⟨16, true⟩, ⟨16, false⟩, ⟨16, false⟩] 4112 := by
  constructor
  · exact (free_reserves_iff (show WellFormed guarded ([] ++ ⟨16, true⟩ :: [⟨16, false⟩, ⟨16, false⟩]) from
      guarded_wellFormed) (reserved_of_second rfl (by decide +kernel)) rfl rfl).mpr (by decide +kernel)
  · intro reserves
    have fine := (free_reserves_iff (show WellFormed fragmented ([] ++ ⟨16, true⟩ :: [⟨16, false⟩, ⟨16, false⟩]) from
      fragmented_wellFormed) (reserved_of_second rfl (by decide +kernel)) rfl rfl).mp reserves
    exact absurd fine (by decide +kernel)

theorem free_fragments_fragmented :
    WellFormed fragmented [⟨16, true⟩, ⟨16, false⟩, ⟨16, false⟩] ∧
      Reserved fragmented [⟨16, true⟩, ⟨16, false⟩, ⟨16, false⟩] ∧
      ¬ ∃ s' bs', Does (fun _ => True) (mmFree 4112) fragmented () s' ∧ WellFormed s' bs' ∧
        Reserved s' bs' := by
  refine ⟨fragmented_wellFormed, reserved_of_second rfl (by decide +kernel), ?_⟩
  rintro ⟨s', bs', run, wf', res⟩
  exact mmFree_fragments (show WellFormed fragmented ([] ++ ⟨16, true⟩ :: [⟨16, false⟩, ⟨16, false⟩]) from
    fragmented_wellFormed) rfl rfl (by decide +kernel) run wf' res

end MallocLab.Segregated
