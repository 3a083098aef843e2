import MallocLab.Segregated.Frames

/-!
# Freeing

`mm_free` marks its block free and coalesces. It keeps the heap well formed and every other
allocated block as it is, except where `coalesce` deletes a block that is in no list.
-/

namespace MallocLab.Segregated
open Memory Logged

/-- `delete_block` is only called on blocks that are in a list. -/
def DeletesListed : Event → Prop
  | .delete bp s => Listed s bp
  | _ => True

/-- What `mm_free` of the block `b` at `x` promises. -/
def FreeKeeps (s : State) (bs : List Block) (x : Nat) (b : Block) : Prop :=
  ∃ s' bs', Does DeletesListed (mmFree x) s () s' ∧ WellFormed s' bs' ∧
    Keeps s s' (others s bs x) bs' ∧
    ∃ y c, (y, c) ∈ located (s'.memStartBrk + 16) bs' ∧ c.alloc = false ∧
      y ≤ x ∧ x + b.size ≤ y + c.size

/-- What `mm_free` of the block `p` at `x` does to the heap: one free block of `m` bytes at `y`, after the
blocks `L` that are kept. The header there keeps its tag, the next one loses it. -/
structure Joined (s s' : State) (x : Nat) (pre : List Block) (p : Block) (post L : List Block)
    (y m : Nat) : Prop where
  left : L = keptUntagged (taggedBefore s x pre) pre
  size : m = freeUntagged (taggedBefore s x pre) pre + p.size + freeAfter post
  place : y = s.memStartBrk + 16 + extent Block.size L
  only : Only s s' (frees (s.memStartBrk + 16) (pre ++ ⟨p.size, false⟩ :: post)) (y - 4) (y + m)
  tag : tagAt s'.mem (y - 4) = tagAt s.mem (y - 4)
  nextTag : tagAt s'.mem (y + m - 4) = if (after post).alloc then 0 else tagAt s.mem (y + m - 4)

theorem tolerates_deletesListed (lo hi : Nat) : Tolerates DeletesListed lo hi :=
  ⟨fun _ _ _ => trivial, fun _ _ listed => listed⟩

section
variable {ok : Event → Prop} {s s' t : State} {e x y n m a b c d : Nat} {p : Block}
  {bs cs pre post L R : List Block} {F G H : List (Nat × Nat)} {live : List (Nat × Block)}

theorem mmFree_marked (wf : WellFormed s (pre ++ p :: post)) (alloc : p.alloc = true)
    (hx : x = s.memStartBrk + 16 + extent Block.size pre)
    (tol : Tolerates ok s.memStartBrk s.memBrk) :
    ∃ t, Holding t s.memBrk (pre ++ ⟨p.size, false⟩ :: post)
        (frees (s.memStartBrk + 16) (pre ++ ⟨p.size, false⟩ :: post)) ∧
      Only s t (frees (s.memStartBrk + 16) (pre ++ ⟨p.size, false⟩ :: post)) (x - 4) (x + p.size) ∧
      tagAt t.mem (x - 4) = tagAt s.mem (x - 4) ∧ tagAt t.mem (x + p.size - 4) = 0 ∧
      ∀ s', Does ok (mmFree x) s () s' ↔ ∃ r, Does ok (coalesce x) t r s' := by
  have cut := wf.tiled.cut
  have ends := wf.tiled.ends
  have p16 := wf.tiled.large p (by simp)
  have p8 := wf.tiled.aligned p (by simp)
  have small := wf.tiled.small
  have hold : Holding s s.memBrk ((pre ++ [p]) ++ post)
      (frees (s.memStartBrk + 16) pre ++ frees (x + p.size) post) := by
    have split : frees (s.memStartBrk + 16) (pre ++ p :: post) =
        frees (s.memStartBrk + 16) pre ++ frees (x + p.size) post := by
      rw [frees_append, frees_cons_true alloc, hx]
    rw [← split]
    exact ⟨by simpa using wf.tiled, wf.lists, by simpa using List.Subperm.refl _⟩
  have low := cut.prevLow
  simp only [extent_append, extent_cons, ← Nat.add_assoc, after_cons, ← hx] at cut ends small low
  have fields := fields_unsetTag (m := s.mem) (p := x + p.size - 4)
  have untagged := hold.retag (w := word s.mem (x + p.size - 4) &&& 0xFFFFFFFD) (x := x + p.size)
    (by simp [hx, Nat.add_assoc]) fields.1 fields.2
  have marked : Marked _ _ x ⟨p.size, false⟩ := marked_header_footer
    (s := s.store (x + p.size - 4) (word s.mem (x + p.size - 4) &&& 0xFFFFFFFD))
    (by omega) p8 p16 (by simp only; omega)
  obtain ⟨t, run, hold', only, tag⟩ := untagged.insert (M := [p]) rfl (by simp) (by simp) rfl hx rfl
    marked tol
  have only := only.mono (G := frees (s.memStartBrk + 16) (pre ++ ⟨p.size, false⟩ :: post))
    fun f hf => by
      rw [frees_append, frees_cons_false rfl, ← hx]
      exact List.mem_append.mpr ((List.mem_append.mp hf).imp_right (List.mem_cons_of_mem _))
  refine ⟨t, hold', ⟨only.start, only.brk, only.max, only.listp, fun q outside apart => ?_⟩,
    tag.trans (tagAt_store_apart (by omega)), ?_, fun s' => ?_⟩
  · exact (only.mem q (by omega) apart).trans (setWord_of_outside (by omega))
  · have kept := (show Only (s.store (x + p.size - 4) (word s.mem (x + p.size - 4) &&& 0xFFFFFFFD)) t
        (frees (s.memStartBrk + 16) ((pre ++ [⟨p.size, false⟩]) ++ post)) (x - 4) (x + p.size - 4) by
      simpa using only).header (by simpa using hold'.tiled.large)
      (show x + p.size = _ by simp [hx, Nat.add_assoc]) (Or.inr (le_refl _))
    rw [tagAt, kept]
    exact tag_unsetTag
  · have header : sizeAt ((s.store (x + p.size - 4) (word s.mem (x + p.size - 4) &&& 0xFFFFFFFD)).put
        (x - 4) (pack p.size 0)).mem (x - 4) = p.size :=
      (fields_put (a := false) p8 (by omega)).1
    have access : ∀ q, s.memStartBrk ≤ q → q + 4 ≤ s.memBrk → (ok (.access q) ↔ True) :=
      fun q low high => iff_true_intro (tol.access q low high)
    unfold mmFree
    simp (disch := omega) only [does_getSize_bind, does_nextBlkp_bind, does_unsetTag_bind,
      does_put_bind, does_ftrp_bind, hdrp, wsize, cut.nextSize, header, access, true_and]
    refine run.bind_iff.trans (does_bind.trans ⟨?_, ?_⟩)
    · rintro ⟨r, t', rest, last⟩
      obtain ⟨-, rfl⟩ := does_pure.mp last
      exact ⟨r, rest⟩
    · rintro ⟨r, rest⟩
      exact ⟨r, s', rest, does_pure.mpr ⟨rfl, rfl⟩⟩

theorem mmFree_spec (wf : WellFormed s (pre ++ p :: post)) (alloc : p.alloc = true)
    (hx : x = s.memStartBrk + 16 + extent Block.size pre) (fine : ¬ Stray s x pre post)
    (tol : Tolerates ok s.memStartBrk s.memBrk) :
    ∃ s' L y m, Does ok (mmFree x) s () s' ∧ WellFormed s' (L ++ ⟨m, false⟩ :: keptAfter post) ∧
      Joined s s' x pre p post L y m := by
  obtain ⟨L, hL⟩ : ∃ L, L = keptUntagged (taggedBefore s x pre) pre := ⟨_, rfl⟩
  obtain ⟨m, hm⟩ : ∃ m, m = freeUntagged (taggedBefore s x pre) pre + p.size + freeAfter post := ⟨_, rfl⟩
  obtain ⟨y, hy⟩ : ∃ y, y = s.memStartBrk + 16 + extent Block.size L := ⟨_, rfl⟩
  obtain ⟨t, hold, only, tagx, tagnext, rest⟩ := mmFree_marked wf alloc hx tol
  have large := hold.tiled.large
  have start := only.start
  have p16 := wf.tiled.large p (by simp)
  have same := only.taggedBefore large hx
  have place := hy
  rw [← start] at hold hx only tol hy
  have fine' : ¬ Stray t x pre post := by
    unfold Stray at fine ⊢
    rwa [same]
  rw [hx] at fine'
  obtain ⟨s', run, hold', only', tagy⟩ := coalesce_spec hold tol fine'
  rw [← hx, same, ← hL] at run
  rw [← hx, same, ← hL, ← hm] at hold' only'
  rw [← hx, same, ← hL] at tagy
  have left := extent_keptUntagged (taggedBefore s x pre) pre
  rw [← hL] at left
  rw [← hy] at run only' tagy
  have whole := (only.widen (c := y - 4) (d := y + m) (by omega) (by omega)).trans
    (only'.widen (le_refl _) (by omega)) (fun f hf => hf) fun f hf => hf
  refine ⟨s', L, y, m, (rest s').mpr ⟨_, run⟩, hold'.wellFormed whole wf.valid (by rw [only'.start]),
    ⟨hL, hm, place, by rwa [← start], tagy.trans ?_, ?_⟩⟩
  · -- the header before the merged block is that of the block, or lies before it
    rcases keptUntagged_cases (taggedBefore s x pre) pre with ⟨same, -⟩ | ⟨c, -, -, split, -⟩
    · rw [hL, same, ← hx] at hy
      rw [hy, tagx]
    · rw [← hL] at split
      have c16 := large c (by simp [split])
      rw [split, List.append_assoc] at only large
      have extents : extent Block.size pre = extent Block.size L + c.size := by simp [split]
      rw [tagAt, (only.mono (by rw [start]; exact fun f hf => hf)).header large (by rw [hy, start])
        (by omega), tagAt]
  · cases next : (after post).alloc
    case true =>
      have none : freeAfter post = 0 := by simp [freeAfter, next]
      have kept := (show Only t s' (frees (t.memStartBrk + 16) ((pre ++ [⟨p.size, false⟩]) ++ post))
          (y - 4) (y + m - 4) by simpa using only').header (by simpa using large)
        (show x + p.size = _ by simp [hx, Nat.add_assoc]) (Or.inr (by omega))
      rw [if_pos rfl, show y + m - 4 = x + p.size - 4 by omega, tagAt, kept]
      exact tagnext
    case false =>
      obtain ⟨c, post, rfl, free⟩ : ∃ c post', post = c :: post' ∧ c.alloc = false := by
        cases post with
        | nil => cases next
        | cons c post => exact ⟨c, post, rfl, next⟩
      have c16 := large c (by simp)
      have size : freeAfter (c :: post) = c.size := by simp [freeAfter, free]
      have list : pre ++ ⟨p.size, false⟩ :: c :: post = (pre ++ [⟨p.size, false⟩, c]) ++ post := by simp
      rw [list] at only only' large
      have place : y + m = t.memStartBrk + 16 + extent Block.size (pre ++ [⟨p.size, false⟩, c]) := by
        simp only [extent_append, extent_cons, extent_nil]
        omega
      rw [if_neg Bool.false_ne_true, tagAt, only'.header large place (Or.inr (by omega)),
        (only.mono (by rw [start]; exact fun f hf => hf)).header large (place.trans (by rw [start]))
          (Or.inr (by omega)), tagAt]

theorem Joined.reach (join : Joined s s' x pre p post L y m)
    (hx : x = s.memStartBrk + 16 + extent Block.size pre) :
    y ≤ x ∧ x + p.size ≤ y + m ∧ y + m = x + p.size + freeAfter post := by
  have := extent_keptUntagged (taggedBefore s x pre) pre
  have := join.size
  have := join.place
  rw [join.left] at this
  omega

theorem Joined.keeps (join : Joined s s' x pre p post L y m) (wf : WellFormed s (pre ++ p :: post))
    (alloc : p.alloc = true) (hx : x = s.memStartBrk + 16 + extent Block.size pre) :
    Keeps s s' (others s (pre ++ p :: post) x) (L ++ ⟨m, false⟩ :: keptAfter post) := by
  have moved := allocated_merged (taggedBefore s x pre) (s.memStartBrk + 16) pre p.size post
  rw [← join.left, ← join.size] at moved
  have large : ∀ c ∈ pre ++ ⟨p.size, false⟩ :: post, 16 ≤ c.size := by
    have := wf.tiled.large
    simp only [List.mem_append, List.mem_cons, or_imp, forall_and, forall_eq] at this ⊢
    exact this
  have here : (y, ⟨m, false⟩) ∈ located (s.memStartBrk + 16) (L ++ ⟨m, false⟩ :: keptAfter post) :=
    mem_placed.mpr ⟨_, _, rfl, join.place⟩
  have old : ∀ f ∈ others s (pre ++ p :: post) x,
      f ∈ allocated (s.memStartBrk + 16) (pre ++ ⟨p.size, false⟩ :: post) := by
    rintro ⟨z, c⟩ hf
    obtain ⟨member, ne⟩ := mem_others.mp hf
    rw [allocated_append, allocated_cons_true _ _ alloc, ← hx] at member
    rw [allocated_append, allocated_cons_false _ _ rfl, ← hx]
    simp only [List.mem_append, List.mem_cons, Prod.mk.injEq] at member ⊢
    tauto
  refine join.only.keeps (by rw [join.only.start]) large here old fun f hf => ⟨moved ▸ old f hf, ?_⟩
  rintro rfl
  cases (mem_allocated.mp (old _ hf)).2

theorem Joined.cut {pre₂ post₂ : List Block} (join : Joined s s' x pre p post L y m)
    (wf : WellFormed s (pre ++ p :: post)) (hx : x = s.memStartBrk + 16 + extent Block.size pre)
    (cut : L ++ ⟨m, false⟩ :: keptAfter post = pre₂ ++ post₂) :
    (∃ pre₀ post₀, pre ++ p :: post = pre₀ ++ post₀ ∧
        extent Block.size pre₀ = extent Block.size pre₂) ∧
      tagAt s'.mem (s.memStartBrk + 16 + extent Block.size pre₂ - 4) =
        if pre₂ = L ++ [⟨m, false⟩] ∧ (after post).alloc = true then 0
        else tagAt s.mem (s.memStartBrk + 16 + extent Block.size pre₂ - 4) := by
  have reach := join.reach hx
  have place := join.place
  have large : ∀ c ∈ pre ++ ⟨p.size, false⟩ :: post, 16 ≤ c.size := by
    have := wf.tiled.large
    simp only [List.mem_append, List.mem_cons, or_imp, forall_and, forall_eq] at this ⊢
    exact this
  obtain ⟨X, hpre⟩ : ∃ X, pre = L ++ X := join.left ▸ keptUntagged_prefix _ pre
  obtain ⟨D, hpost, size⟩ := keptAfter_suffix post
  -- the tag of a header that is neither the one before the block nor the one after it
  have other : ∀ pre₀ post₀, pre ++ ⟨p.size, false⟩ :: post = pre₀ ++ post₀ →
      extent Block.size pre₀ = extent Block.size pre₂ →
      (s.memStartBrk + 16 + extent Block.size pre₂ ≤ y - 4 ∨
        y + m ≤ s.memStartBrk + 16 + extent Block.size pre₂ - 4) →
      tagAt s'.mem (s.memStartBrk + 16 + extent Block.size pre₂ - 4) =
        tagAt s.mem (s.memStartBrk + 16 + extent Block.size pre₂ - 4) := by
    intro pre₀ post₀ list same outside
    have only := join.only
    rw [list] at only large
    rw [tagAt, only.header large (by rw [same]) outside, tagAt]
  have position := hx
  rw [hpre] at position
  simp only [extent_append] at position
  rcases List.append_eq_append_iff.mp cut with ⟨as, hcut, rest⟩ | ⟨as, hcut, -⟩
  · cases as with
    | nil =>
        rw [List.append_nil] at hcut
        subst hcut
        refine ⟨⟨pre₂, X ++ p :: post, by simp [hpre], rfl⟩, ?_⟩
        rw [if_neg (by simp), ← place]
        exact join.tag
    | cons b as =>
        obtain ⟨rfl, kept⟩ := List.cons.inj rest
        have extents : extent Block.size pre₂ = extent Block.size L + m + extent Block.size as := by
          simp [hcut, Nat.add_assoc]
        have split : ∀ c : Block, pre ++ c :: post = (pre ++ c :: D ++ as) ++ post₂ := fun c => by
          rw [hpost, kept]
          simp
        have same : ∀ c : Block, c.size = p.size →
            extent Block.size (pre ++ c :: D ++ as) = extent Block.size pre₂ := fun c hc => by
          simp only [extent_append, extent_cons, hc, hpre]
          omega
        refine ⟨⟨_, post₂, split p, same p rfl⟩, ?_⟩
        cases as with
        | nil =>
            rw [show s.memStartBrk + 16 + extent Block.size pre₂ - 4 = y + m - 4 by
              simp only [extent_nil] at extents
              omega, join.nextTag]
            simp [hcut]
        | cons c as =>
            have c16 := large c (by rw [hpost, kept]; simp)
            rw [if_neg (by simp [hcut])]
            refine other _ _ (split _) (same _ rfl) (Or.inr ?_)
            simp only [extent_cons] at extents
            omega
  · have notLast : ¬ (pre₂ = L ++ [⟨m, false⟩] ∧ (after post).alloc = true) := fun both => by
      have one := congrArg List.length hcut
      have two := congrArg List.length both.1
      simp only [List.length_append, List.length_singleton] at one two
      omega
    rw [if_neg notLast]
    refine ⟨⟨pre₂, as ++ X ++ p :: post, by simp [hpre, hcut], rfl⟩, ?_⟩
    cases as with
    | nil =>
        rw [List.append_nil] at hcut
        rw [← hcut, ← place]
        exact join.tag
    | cons c as =>
        have c16 := large c (by simp [hpre, hcut])
        refine other pre₂ (c :: as ++ X ++ ⟨p.size, false⟩ :: post) (by simp [hpre, hcut]) rfl
          (Or.inl ?_)
        simp only [hcut, extent_append, extent_cons] at place
        omega

theorem free_keeps (wf : WellFormed s (pre ++ p :: post)) (alloc : p.alloc = true)
    (hx : x = s.memStartBrk + 16 + extent Block.size pre) (fine : ¬ Stray s x pre post) :
    FreeKeeps s (pre ++ p :: post) x p := by
  obtain ⟨s', L, y, m, run, wf', join⟩ := mmFree_spec wf alloc hx fine (tolerates_deletesListed _ _)
  have reach := join.reach hx
  refine ⟨s', _, run, wf', join.keeps wf alloc hx, y, ⟨m, false⟩, ?_, rfl, reach.1, reach.2.1⟩
  rw [join.only.start]
  exact mem_placed.mpr ⟨_, _, rfl, join.place⟩

theorem mmFree_stray (wf : WellFormed s (pre ++ p :: post)) (alloc : p.alloc = true)
    (hx : x = s.memStartBrk + 16 + extent Block.size pre) (stray : Stray s x pre post)
    (tol : Tolerates ok s.memStartBrk s.memBrk) :
    ∃ L k t, x = s.memStartBrk + 16 + extent Block.size L + k ∧
      Holding t s.memBrk (L ++ ⟨k, false⟩ :: ⟨p.size, false⟩ :: post)
        (frees (s.memStartBrk + 16) L ++ frees (x + p.size) post) ∧
      Only s t (frees (s.memStartBrk + 16) (pre ++ ⟨p.size, false⟩ :: post)) (x - 4) (x + p.size) ∧
      ∀ s', Does ok (mmFree x) s () s' ↔ ∃ r, Does ok (mergeNext x p.size (x + p.size)) t r s' := by
  obtain ⟨t, hold, only, -, -, rest⟩ := mmFree_marked wf alloc hx tol
  have start := only.start
  obtain ⟨free, tagged, next⟩ := stray
  rw [← only.taggedBefore hold.tiled.large hx] at tagged
  rcases pre.eq_nil_or_concat' with rfl | ⟨pre, c, rfl⟩
  · cases free
  · obtain ⟨k, alloc⟩ := c
    rw [before_concat] at free
    obtain rfl : alloc = false := free
    simp only [List.append_assoc, List.cons_append, List.nil_append, extent_append, extent_cons, extent_nil,
      Nat.add_zero, ← Nat.add_assoc] at hold hx
    have set : tagAt t.mem (t.memStartBrk + 16 + extent Block.size pre - 4) ≠ 0 := by
      simp only [taggedBefore, before_concat, decide_eq_true_eq] at tagged
      rwa [hx, Nat.add_sub_cancel, ← start] at tagged
    rw [← start] at hold tol
    obtain ⟨s₂, hold₂, only₂, onward⟩ := coalesce_stray hold tol set next
    rw [start, ← hx] at hold₂ onward
    refine ⟨pre, k, s₂, hx, hold₂, ⟨only₂.start.trans only.start, only₂.brk.trans only.brk,
      only₂.max.trans only.max, only₂.listp.trans only.listp, fun q outside apart =>
        (only₂.mem q fun f hf => apart f (by simpa [start] using hf)).trans (only.mem q outside apart)⟩,
      fun s' => (rest s').trans (exists_congr fun r => onward r s')⟩

theorem not_free_keeps (wf : WellFormed s (pre ++ p :: post)) (alloc : p.alloc = true)
    (hx : x = s.memStartBrk + 16 + extent Block.size pre) (stray : Stray s x pre post) :
    ¬ FreeKeeps s (pre ++ p :: post) x p := by
  obtain ⟨L, k, t, place, hold, only, rest⟩ := mmFree_stray wf alloc hx stray (tolerates_deletesListed _ _)
  rintro ⟨s', -, run, -⟩
  obtain ⟨r, run⟩ := (rest s').mp run
  rw [mergeNext, deleteBlock, does_assoc, does_note_bind] at run
  -- the block after this one is allocated, or the epilogue
  have listed : Listed t (x + p.size) := run.1
  have unlisted := (show Holding t s.memBrk ((L ++ [⟨k, false⟩, ⟨p.size, false⟩]) ++ post) _ by
    simpa using hold).not_listed stray.2.2
  exact unlisted (by simpa [only.start, place, ← Nat.add_assoc] using listed)

/-- `mm_free` keeps its promise on exactly the heaps in which the block before is not a tagged free
one or the block after is free. -/
theorem free_keeps_iff (wf : WellFormed s (pre ++ p :: post)) (alloc : p.alloc = true)
    (hx : x = s.memStartBrk + 16 + extent Block.size pre) :
    FreeKeeps s (pre ++ p :: post) x p ↔ ¬ Stray s x pre post :=
  ⟨fun keeps stray => not_free_keeps wf alloc hx stray keeps, free_keeps wf alloc hx⟩

end

def reserved : State where
  mem := ofWords 4096 [0, 9, 9, 18, 0, 0, 16, 17, 0, 0, 17, 17, 0, 0, 17, 1]
  memStartBrk := 4096
  memBrk := 4160
  memMaxAddr := 4096 + maxHeap
  heapListp := 4104
  sgrlists := fun c => if c = 4 then 4112 else null

theorem reserved_wellFormed : WellFormed reserved [⟨16, false⟩, ⟨16, true⟩, ⟨16, true⟩] := by
  have framed : ∀ e ∈ located 4112 [⟨16, false⟩, ⟨16, true⟩, ⟨16, true⟩],
      Framed reserved.mem e.1 e.2 ∧ e.1 < 2 ^ 32 := by decide +kernel
  exact ⟨⟨by decide, by decide, by decide, rfl, by decide⟩, ⟨by decide, by decide +kernel, by decide,
    by decide, fun x b hb => (framed _ hb).1, rfl, by decide +kernel, by decide +kernel,
    fun x b hb => (framed _ hb).2, by decide⟩, fun c => if c = 4 then [4112] else [], by decide +kernel⟩

theorem free_keeps_iff_reserved :
    FreeKeeps reserved [⟨16, false⟩, ⟨16, true⟩, ⟨16, true⟩] 4144 ⟨16, true⟩ :=
  (free_keeps_iff (show WellFormed reserved ([⟨16, false⟩, ⟨16, true⟩] ++ ⟨16, true⟩ :: []) from
    reserved_wellFormed) rfl rfl).mpr (by decide +kernel)

theorem free_loses_reserved :
    WellFormed reserved [⟨16, false⟩, ⟨16, true⟩, ⟨16, true⟩] ∧
      (4128, ⟨16, true⟩) ∈
        allocated (reserved.memStartBrk + 16) [⟨16, false⟩, ⟨16, true⟩, ⟨16, true⟩] ∧
      ¬ FreeKeeps reserved [⟨16, false⟩, ⟨16, true⟩, ⟨16, true⟩] 4128 ⟨16, true⟩ :=
  ⟨reserved_wellFormed, by decide,
    not_free_keeps (show WellFormed reserved ([⟨16, false⟩] ++ ⟨16, true⟩ :: [⟨16, true⟩]) from
      reserved_wellFormed) rfl rfl (by decide +kernel)⟩

end MallocLab.Segregated
