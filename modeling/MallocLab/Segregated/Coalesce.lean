import MallocLab.Segregated.WellFormed

/-!
# Coalescing

`coalesce` joins a free block with its free neighbours, the one before it only when that one is not
tagged. In the one remaining case, a tagged free block before it and an allocated one after it, it
deletes a block that is in no list.
-/

namespace MallocLab.Segregated
open Memory Logged

/-- A tiled heap whose lists hold `F`, some of its free blocks. -/
structure Holding (s : State) (e : Nat) (bs : List Block) (F : List (Nat × Nat)) : Prop where
  tiled : Tiled s e bs
  lists : Lists s F
  sub : F.Subperm (frees (s.memStartBrk + 16) bs)

section
variable {ok : Event → Prop} {s s' t u : State} {e x n m : Nat} {bs pre post L M R : List Block}
  {F G : List (Nat × Nat)}

theorem Nodes.subperm {lo hi : Nat} (nodes : Nodes lo hi G) (sub : F.Subperm G) : Nodes lo hi F := by
  obtain ⟨G', perm, sub⟩ := sub
  exact (nodes.tail sub).perm perm

theorem Holding.nodes (hold : Holding s e bs F) : Nodes s.memStartBrk e F :=
  hold.tiled.nodes.subperm hold.sub

theorem Holding.perm (hold : Holding s e bs F) (perm : F.Perm G) : Holding s e bs G :=
  ⟨hold.tiled, hold.lists.perm perm, perm.symm.subperm.trans hold.sub⟩

theorem Holding.mem_located (hold : Holding s e bs F) :
    ∀ f ∈ F, (f.1, ⟨f.2, false⟩) ∈ located (s.memStartBrk + 16) bs :=
  fun _ hf => mem_frees.mp (hold.sub.subset hf)

theorem Holding.delete (hold : Holding s e bs ((x, n) :: F)) (tol : Tolerates ok s.memStartBrk e) :
    ∃ s', Does ok (deleteBlock x) s () s' ∧ Holding s' e bs F ∧ LinksOnly s s' F := by
  have header := hold.tiled.headers _ (hold.sub.subset List.mem_cons_self)
  obtain ⟨s', run, lists, only⟩ := deleteBlock_spec hold.lists hold.nodes header tol
  have sub : F.Subperm ((x, n) :: F) := (List.sublist_cons_self _ F).subperm
  refine ⟨s', run, ⟨hold.tiled.links only fun f hf => ?_, lists, ?_⟩, only⟩
  · exact ⟨_, hold.mem_located f (List.mem_cons_of_mem _ hf)⟩
  · rw [only.start]
    exact sub.trans hold.sub

theorem Tiled.header (ht : Tiled s e (pre ++ post)) (only : LinksOnly s t F)
    (sub : ∀ f ∈ F, f ∈ frees (s.memStartBrk + 16) (pre ++ post))
    (hx : x = s.memStartBrk + 16 + extent Block.size pre) :
    word t.mem (x - 4) = word s.mem (x - 4) := by
  refine word_congr fun q low high => only.mem q fun f hf => ?_
  have := header_apart ht.large (sub f hf)
  have := (placed_bounds (mem_frees.mp (sub f hf))).1
  omega

theorem Holding.header (hold : Holding s e (pre ++ post) G) (only : LinksOnly s t F)
    (sub : ∀ f ∈ F, f ∈ G) (hx : x = s.memStartBrk + 16 + extent Block.size pre) :
    word t.mem (x - 4) = word s.mem (x - 4) :=
  hold.tiled.header only (fun f hf => hold.sub.subset (sub f hf)) hx

theorem Tiled.insert {a y : Nat} (ht : Tiled u e (L ++ ⟨m, false⟩ :: R)) (ha : a = u.memStartBrk + 16)
    (hy : y = a + extent Block.size L) (lists : Lists u (frees a L ++ frees (y + m) R))
    (tol : Tolerates ok u.memStartBrk e) :
    ∃ s', Does ok (insertBlock y m) u () s' ∧
      Holding s' e (L ++ ⟨m, false⟩ :: R) (frees a (L ++ ⟨m, false⟩ :: R)) ∧
      LinksOnly u s' ((y, m) :: (frees a L ++ frees (y + m) R)) ∧
      word s'.mem (y - 4) = word u.mem (y - 4) := by
  have perm : ((y, m) :: (frees a L ++ frees (y + m) R)).Perm (frees a (L ++ ⟨m, false⟩ :: R)) := by
    rw [frees_append, frees_cons_false rfl, ← hy]
    exact List.perm_middle.symm
  have nodes := ht.nodes
  have headers := ht.headers
  rw [← ha] at nodes headers
  obtain ⟨s', run, lists', only⟩ := insertBlock_spec lists (nodes.subperm perm.subperm)
    (fun f hf => headers f (perm.subset (List.mem_cons_of_mem _ hf))) tol
  refine ⟨s', run, ⟨ht.links only fun f hf => ?_, lists'.perm perm, ?_⟩, only,
    ht.header only (fun f hf => ?_) (ha ▸ hy)⟩
  · exact ⟨_, mem_frees.mp (ha ▸ perm.subset hf)⟩
  · rw [only.start, ha]
  · exact ha ▸ perm.subset hf

theorem Holding.insert {a y z : Nat} (hold : Holding t e bs (frees a L ++ frees z R))
    (whole : bs = L ++ M ++ R) (ne : M ≠ []) (size : m = extent Block.size M)
    (ha : a = t.memStartBrk + 16) (hy : y = a + extent Block.size L) (hz : z = y + m)
    (marked : Marked t u y ⟨m, false⟩) (tol : Tolerates ok t.memStartBrk e) :
    ∃ s', Does ok (insertBlock y m) u () s' ∧
      Holding s' e (L ++ ⟨m, false⟩ :: R) (frees a (L ++ ⟨m, false⟩ :: R)) ∧
      Only t s' (frees a L ++ frees z R) (y - 4) (y + m - 4) ∧
      tagAt s'.mem (y - 4) = tagAt t.mem (y - 4) := by
  subst whole ha hy hz size
  have merged := hold.tiled.merge ne marked.start rfl marked.framed marked.kept
  have lists : Lists u (frees (t.memStartBrk + 16) L ++
      frees (t.memStartBrk + 16 + extent Block.size L + extent Block.size M) R) := by
    refine hold.lists.congr marked.heads fun f hf q low high => marked.kept q ?_
    have := frees_apart (fun c hc => hold.tiled.large c (by simp [hc])) hf
    simp only
    omega
  have big := merged.large ⟨extent Block.size M, false⟩ (by simp)
  obtain ⟨s', run, hold', only, header⟩ := merged.insert (by rw [marked.start]) rfl lists
    (by rwa [marked.start])
  refine ⟨s', run, hold', ⟨only.start.trans marked.start, only.brk.trans marked.brk,
    only.max.trans marked.max, only.listp.trans marked.listp, fun q outside apart => ?_⟩, ?_⟩
  · refine (only.mem q fun f hf => ?_).trans (marked.kept q outside)
    rcases List.mem_cons.mp hf with rfl | hf
    · simp only at big ⊢
      omega
    · exact apart f hf
  · rw [← marked.tag, tagAt, header, tagAt]

theorem Only.after_links {a b : Nat} {H : List (Nat × Nat)} (one : LinksOnly s t F)
    (two : Only t s' G a b) (subF : ∀ f ∈ F, f ∈ H) (subG : ∀ g ∈ G, g ∈ H) : Only s s' H a b :=
  ⟨two.start.trans one.start, two.brk.trans one.brk, two.max.trans one.max,
    two.listp.trans one.listp, fun q outside apart =>
      (two.mem q outside fun g hg => apart g (subG g hg)).trans
        (one.mem q fun f hf => apart f (subF f hf))⟩

/-- The result of merging: a free block of `m` bytes between `L` and `R`, with the tag that the header
there had before. -/
def Merges (ok : Event → Prop) (f : Prog Nat) (s : State) (e : Nat) (bs L : List Block) (m : Nat)
    (R : List Block) : Prop :=
  ∃ s', Does ok f s (s.memStartBrk + 16 + extent Block.size L) s' ∧
    Holding s' e (L ++ ⟨m, false⟩ :: R) (frees (s.memStartBrk + 16) (L ++ ⟨m, false⟩ :: R)) ∧
    Only s s' (frees (s.memStartBrk + 16) bs) (s.memStartBrk + 16 + extent Block.size L - 4)
      (s.memStartBrk + 16 + extent Block.size L + m - 4) ∧
    tagAt s'.mem (s.memStartBrk + 16 + extent Block.size L - 4) =
      tagAt s.mem (s.memStartBrk + 16 + extent Block.size L - 4)

theorem coalesce_alone (hold : Holding s e (pre ++ ⟨n, false⟩ :: post)
      (frees (s.memStartBrk + 16) (pre ++ ⟨n, false⟩ :: post)))
    (tol : Tolerates ok s.memStartBrk e) (prev : (before pre).alloc = true)
    (next : (after post).alloc = true) :
    Merges ok (coalesce (s.memStartBrk + 16 + extent Block.size pre)) s e
      (pre ++ ⟨n, false⟩ :: post) pre n post := by
  have cut := hold.tiled.cut
  have cut' := (show Tiled s e ((pre ++ [⟨n, false⟩]) ++ post) by simpa using hold.tiled).cut
  have ends := hold.tiled.ends
  simp only [extent_append, extent_cons, extent_nil, Nat.add_zero, ← Nat.add_assoc, after_cons] at cut cut' ends
  refine ⟨s, ?_, hold, ⟨rfl, rfl, rfl, rfl, fun _ _ _ => rfl⟩, rfl⟩
  have low := cut.prevLow
  have large := cut.prevLarge
  generalize hx : s.memStartBrk + 16 + extent Block.size pre = x at *
  unfold coalesce
  simp only [does_prevBlkp_bind, does_getAlloc_bind, does_nextBlkp_bind, does_getSize_bind, hdrp, wsize,
    cut.prevFooter, cut.prevAlloc, cut.nextSize, cut'.nextAlloc, prev, next, Bool.toNat_true, ne_eq,
    one_ne_zero, not_false_eq_true, and_self, if_true, does_pure]
  exact ⟨tol.access _ (by omega) (by omega), tol.access _ (by omega) (by omega),
    tol.access _ (by omega) (by omega), tol.access _ (by omega) (by omega),
    tol.access _ (by omega) (by omega), trivial⟩

variable {k : Nat}

theorem coalesce_next (hold : Holding s e (pre ++ ⟨n, false⟩ :: ⟨k, false⟩ :: post)
      (frees (s.memStartBrk + 16) (pre ++ ⟨n, false⟩ :: ⟨k, false⟩ :: post)))
    (tol : Tolerates ok s.memStartBrk e)
    (held : (before pre).alloc = true ∨
      tagAt s.mem (s.memStartBrk + 16 + extent Block.size pre - (before pre).size - 4) ≠ 0) :
    Merges ok (coalesce (s.memStartBrk + 16 + extent Block.size pre)) s e
      (pre ++ ⟨n, false⟩ :: ⟨k, false⟩ :: post) pre (n + k) post := by
  have cut := hold.tiled.cut
  have cut' := (show Tiled s e ((pre ++ [⟨n, false⟩]) ++ ⟨k, false⟩ :: post) by
    simpa using hold.tiled).cut
  have ends := hold.tiled.ends
  have n16 := hold.tiled.large ⟨n, false⟩ (by simp)
  have k16 := hold.tiled.large ⟨k, false⟩ (by simp)
  have small := hold.tiled.small
  have listed : (frees (s.memStartBrk + 16) (pre ++ ⟨n, false⟩ :: ⟨k, false⟩ :: post)).Perm
      ((s.memStartBrk + 16 + extent Block.size pre, n) ::
        (s.memStartBrk + 16 + extent Block.size pre + n, k) ::
        (frees (s.memStartBrk + 16) pre ++
          frees (s.memStartBrk + 16 + extent Block.size pre + n + k) post)) := by
    rw [frees_append, frees_cons_false rfl, frees_cons_false rfl]
    exact List.perm_middle.trans (List.perm_middle.cons _)
  simp only [extent_append, extent_cons, extent_nil, Nat.add_zero, ← Nat.add_assoc, after_cons]
    at cut cut' ends small n16 k16
  have low := cut.prevLow
  have large := cut.prevLarge
  obtain ⟨s₁, run₁, hold₁, only₁⟩ := (hold.perm listed).delete tol
  obtain ⟨s₂, run₂, hold₂, only₂⟩ := hold₁.delete (by rwa [only₁.start])
  have cut₁ := hold₁.tiled.cut
  have cut₂ := hold₂.tiled.cut
  have cut₂' := (show Tiled s₂ e ((pre ++ [⟨n, false⟩]) ++ ⟨k, false⟩ :: post) by
    simpa using hold₂.tiled).cut
  simp only [extent_append, extent_cons, extent_nil, Nat.add_zero, ← Nat.add_assoc, after_cons,
    only₁.start, only₂.start] at cut₁ cut₂ cut₂'
  generalize hx : s.memStartBrk + 16 + extent Block.size pre = x at *
  have n8 : n % 8 = 0 := cut.aligned.2
  have k8 : k % 8 = 0 := cut'.aligned.2
  have marked : Marked s₂ _ x ⟨n + k, false⟩ :=
    marked_header_footer (by omega) (by simp only; omega) (by simp only; omega) (by simp only; omega)
  have start : s₂.memStartBrk = s.memStartBrk := only₂.start.trans only₁.start
  obtain ⟨s', run', hold', only', tag'⟩ := hold₂.insert (M := [⟨n, false⟩, ⟨k, false⟩]) (by simp) (by simp)
    (by simp) (by rw [start]) hx.symm (by omega) marked (by rwa [start])
  have all : ∀ f, f ∈ frees (s.memStartBrk + 16) pre ++ frees (x + n + k) post →
      f ∈ frees (s.memStartBrk + 16) (pre ++ ⟨n, false⟩ :: ⟨k, false⟩ :: post) := fun f hf =>
    listed.symm.subset (List.mem_cons_of_mem _ (List.mem_cons_of_mem _ hf))
  refine ⟨s', ?_, hold', ?_⟩
  · have flag : (if ¬ tagAt s.mem (x - (before pre).size - 4) = 0 then 1
        else (before pre).alloc.toNat) ≠ 0 := by
      split
      · omega
      · rename_i untagged
        rw [held.resolve_right (by simpa using untagged)]
        decide
    have total : add32 n k = n + k := add32_eq (by omega)
    have header : sizeAt (s₂.put (x - 4) (pack (n + k) 0)).mem (x - 4) = n + k :=
      (fields_put (a := false) (by omega) (by omega)).1
    rw [hx]
    unfold coalesce
    simp only [does_prevBlkp_bind, does_getAlloc_bind, does_nextBlkp_bind, does_getSize_bind,
      does_getTag_bind, does_put_bind, does_ftrp_bind, hdrp, wsize, cut.prevFooter,
      cut.prevAlloc, cut.nextSize, cut'.nextAlloc, cut₁.nextSize, cut₂.nextSize, cut₂'.nextSize,
      Bool.toNat_false, ne_eq, not_true_eq_false, not_false_eq_true, and_false, and_true, if_false,
      if_true, run₁.bind_iff, run₂.bind_iff, flag, total, header]
    repeat refine ⟨tol.access _ (by omega) (by omega), ?_⟩
    exact run'.bind_iff.mpr (does_pure.mpr ⟨rfl, rfl⟩)
  · rw [hx]
    have header := hold.header (only₁.trans only₂ fun f hf => List.mem_cons_of_mem _ hf)
      (fun f hf => listed.symm.subset (List.mem_cons_of_mem _ hf)) hx.symm
    refine ⟨.after_links only₁ (.after_links only₂ only' (fun f hf => hf) fun f hf => hf) (fun f hf =>
      listed.symm.subset (List.mem_cons_of_mem _ hf)) all, tag'.trans ?_⟩
    rw [tagAt, header, tagAt]

theorem coalesce_prev (hold : Holding s e (pre ++ ⟨k, false⟩ :: ⟨n, false⟩ :: post)
      (frees (s.memStartBrk + 16) (pre ++ ⟨k, false⟩ :: ⟨n, false⟩ :: post)))
    (tol : Tolerates ok s.memStartBrk e)
    (untagged : tagAt s.mem (s.memStartBrk + 16 + extent Block.size pre - 4) = 0)
    (next : (after post).alloc = true) :
    Merges ok (coalesce (s.memStartBrk + 16 + extent Block.size pre + k)) s e
      (pre ++ ⟨k, false⟩ :: ⟨n, false⟩ :: post) pre (k + n) post := by
  have cut := (show Tiled s e ((pre ++ [⟨k, false⟩]) ++ ⟨n, false⟩ :: post) by
    simpa using hold.tiled).cut
  have cut' := (show Tiled s e ((pre ++ [⟨k, false⟩, ⟨n, false⟩]) ++ post) by
    simpa using hold.tiled).cut
  have ends := hold.tiled.ends
  have n16 := hold.tiled.large ⟨n, false⟩ (by simp)
  have k16 := hold.tiled.large ⟨k, false⟩ (by simp)
  have small := hold.tiled.small
  have listed : (frees (s.memStartBrk + 16) (pre ++ ⟨k, false⟩ :: ⟨n, false⟩ :: post)).Perm
      ((s.memStartBrk + 16 + extent Block.size pre + k, n) ::
        (s.memStartBrk + 16 + extent Block.size pre, k) ::
        (frees (s.memStartBrk + 16) pre ++
          frees (s.memStartBrk + 16 + extent Block.size pre + k + n) post)) := by
    rw [frees_append, frees_cons_false rfl, frees_cons_false rfl]
    exact (List.perm_middle.trans (List.perm_middle.cons _)).trans (.swap _ _ _)
  simp only [extent_append, extent_cons, extent_nil, Nat.add_zero, ← Nat.add_assoc, after_cons,
    before_concat] at cut cut' ends small n16 k16
  obtain ⟨s₁, run₁, hold₁, only₁⟩ := (hold.perm listed).delete tol
  obtain ⟨s₂, run₂, hold₂, only₂⟩ := hold₁.delete (by rwa [only₁.start])
  have cut₁ := (show Tiled s₁ e ((pre ++ [⟨k, false⟩]) ++ ⟨n, false⟩ :: post) by
    simpa using hold₁.tiled).cut
  have cut₂ := (show Tiled s₂ e ((pre ++ [⟨k, false⟩]) ++ ⟨n, false⟩ :: post) by
    simpa using hold₂.tiled).cut
  simp only [extent_append, extent_cons, extent_nil, Nat.add_zero, ← Nat.add_assoc, after_cons,
    before_concat, only₁.start, only₂.start] at cut₁ cut₂
  generalize hy : s.memStartBrk + 16 + extent Block.size pre = y at *
  have n8 : n % 8 = 0 := cut.aligned.2
  have k8 : k % 8 = 0 := cut.aligned.1
  have back : y + k - k = y := by omega
  have marked : Marked s₂ _ y ⟨k + n, false⟩ :=
    marked_footer_header (by omega) (by simp only; omega) (by simp only; omega) (by simp only; omega)
  simp only [Bool.toNat_false, ← Nat.add_assoc] at marked
  have start : s₂.memStartBrk = s.memStartBrk := only₂.start.trans only₁.start
  obtain ⟨s', run', hold', only', tag'⟩ := hold₂.insert (M := [⟨k, false⟩, ⟨n, false⟩]) (by simp) (by simp)
    (by simp) (by rw [start]) hy.symm (by omega) marked (by rwa [start])
  have all : ∀ f, f ∈ frees (s.memStartBrk + 16) pre ++ frees (y + k + n) post →
      f ∈ frees (s.memStartBrk + 16) (pre ++ ⟨k, false⟩ :: ⟨n, false⟩ :: post) := fun f hf =>
    listed.symm.subset (List.mem_cons_of_mem _ (List.mem_cons_of_mem _ hf))
  refine ⟨s', ?_, hold', ?_⟩
  · have total : add32 n k = k + n := by rw [add32_eq (by omega), Nat.add_comm]
    have prevAlloc : allocAt s.mem (y - 4) = 0 := by simpa [back] using cut.prevAlloc
    have prevSize : sizeAt s₂.mem (y - 4) = k := by simpa [back] using cut₂.prevSize
    rw [hy]
    unfold coalesce
    simp only [does_prevBlkp_bind, does_getAlloc_bind, does_nextBlkp_bind, does_getSize_bind,
      does_getTag_bind, does_put_bind, does_ftrp_bind, hdrp, wsize, cut.prevFooter, prevAlloc,
      cut.nextSize, cut'.nextAlloc, cut₁.prevFooter, cut₂.prevFooter, prevSize, cut₂.nextSize, next,
      Bool.toNat_true, ne_eq, one_ne_zero, not_true_eq_false, not_false_eq_true, false_and,
      and_self, if_false, if_true, run₁.bind_iff, run₂.bind_iff, total, back, untagged]
    simp (disch := omega) only [put_mem, sizeAt_store_apart, cut₂.prevFooter, back]
    repeat refine ⟨tol.access _ (by omega) (by omega), ?_⟩
    exact run'.bind_iff.mpr (does_pure.mpr ⟨rfl, rfl⟩)
  · rw [hy]
    have header := hold.header (only₁.trans only₂ fun f hf => List.mem_cons_of_mem _ hf)
      (fun f hf => listed.symm.subset (List.mem_cons_of_mem _ hf)) hy.symm
    refine ⟨.after_links only₁ (.after_links only₂ only' (fun f hf => hf) fun f hf => hf) (fun f hf =>
      listed.symm.subset (List.mem_cons_of_mem _ hf)) all, tag'.trans ?_⟩
    rw [tagAt, header, tagAt]

theorem coalesce_both {l : Nat} (hold : Holding s e (pre ++ ⟨k, false⟩ :: ⟨n, false⟩ :: ⟨l, false⟩ :: post)
      (frees (s.memStartBrk + 16) (pre ++ ⟨k, false⟩ :: ⟨n, false⟩ :: ⟨l, false⟩ :: post)))
    (tol : Tolerates ok s.memStartBrk e)
    (untagged : tagAt s.mem (s.memStartBrk + 16 + extent Block.size pre - 4) = 0) :
    Merges ok (coalesce (s.memStartBrk + 16 + extent Block.size pre + k)) s e
      (pre ++ ⟨k, false⟩ :: ⟨n, false⟩ :: ⟨l, false⟩ :: post) pre (k + n + l) post := by
  have cut := (show Tiled s e ((pre ++ [⟨k, false⟩]) ++ ⟨n, false⟩ :: ⟨l, false⟩ :: post) by
    simpa using hold.tiled).cut
  have cut' := (show Tiled s e ((pre ++ [⟨k, false⟩, ⟨n, false⟩]) ++ ⟨l, false⟩ :: post) by
    simpa using hold.tiled).cut
  have ends := hold.tiled.ends
  have n16 := hold.tiled.large ⟨n, false⟩ (by simp)
  have k16 := hold.tiled.large ⟨k, false⟩ (by simp)
  have l16 := hold.tiled.large ⟨l, false⟩ (by simp)
  have small := hold.tiled.small
  have listed : (frees (s.memStartBrk + 16) (pre ++ ⟨k, false⟩ :: ⟨n, false⟩ :: ⟨l, false⟩ :: post)).Perm
      ((s.memStartBrk + 16 + extent Block.size pre + k, n) ::
        (s.memStartBrk + 16 + extent Block.size pre, k) ::
        (s.memStartBrk + 16 + extent Block.size pre + k + n, l) ::
        (frees (s.memStartBrk + 16) pre ++
          frees (s.memStartBrk + 16 + extent Block.size pre + k + n + l) post)) := by
    rw [frees_append, frees_cons_false rfl, frees_cons_false rfl, frees_cons_false rfl]
    exact (List.perm_middle.trans ((List.perm_middle.trans (List.perm_middle.cons _)).cons _)).trans
      (.swap _ _ _)
  simp only [extent_append, extent_cons, extent_nil, Nat.add_zero, ← Nat.add_assoc, after_cons,
    before_concat] at cut cut' ends small n16 k16 l16
  obtain ⟨s₁, run₁, hold₁, only₁⟩ := (hold.perm listed).delete tol
  obtain ⟨s₂, run₂, hold₂, only₂⟩ := hold₁.delete (by rwa [only₁.start])
  obtain ⟨s₃, run₃, hold₃, only₃⟩ := hold₂.delete (by rwa [only₂.start, only₁.start])
  have cut₁ := (show Tiled s₁ e ((pre ++ [⟨k, false⟩]) ++ ⟨n, false⟩ :: ⟨l, false⟩ :: post) by
    simpa using hold₁.tiled).cut
  have cut₂ := (show Tiled s₂ e ((pre ++ [⟨k, false⟩]) ++ ⟨n, false⟩ :: ⟨l, false⟩ :: post) by
    simpa using hold₂.tiled).cut
  have cut₃ := (show Tiled s₃ e ((pre ++ [⟨k, false⟩]) ++ ⟨n, false⟩ :: ⟨l, false⟩ :: post) by
    simpa using hold₃.tiled).cut
  have cut₃' := (show Tiled s₃ e ((pre ++ [⟨k, false⟩, ⟨n, false⟩]) ++ ⟨l, false⟩ :: post) by
    simpa using hold₃.tiled).cut
  simp only [extent_append, extent_cons, extent_nil, Nat.add_zero, ← Nat.add_assoc, after_cons,
    before_concat, only₁.start, only₂.start, only₃.start] at cut₁ cut₂ cut₃ cut₃'
  generalize hy : s.memStartBrk + 16 + extent Block.size pre = y at *
  have n8 : n % 8 = 0 := cut.aligned.2
  have k8 : k % 8 = 0 := cut.aligned.1
  have l8 : l % 8 = 0 := cut'.aligned.2
  have back : y + k - k = y := by omega
  have marked : Marked s₃ _ y ⟨k + n + l, false⟩ :=
    marked_header_footer (by omega) (by simp only; omega) (by simp only; omega) (by simp only; omega)
  simp only [Bool.toNat_false, ← Nat.add_assoc] at marked
  have start : s₃.memStartBrk = s.memStartBrk := only₃.start.trans (only₂.start.trans only₁.start)
  obtain ⟨s', run', hold', only', tag'⟩ := hold₃.insert (M := [⟨k, false⟩, ⟨n, false⟩, ⟨l, false⟩])
    (by simp) (by simp) (by simp [Nat.add_assoc]) (by rw [start]) hy.symm (by omega) marked
    (by rwa [start])
  have all : ∀ f, f ∈ frees (s.memStartBrk + 16) pre ++ frees (y + k + n + l) post →
      f ∈ frees (s.memStartBrk + 16) (pre ++ ⟨k, false⟩ :: ⟨n, false⟩ :: ⟨l, false⟩ :: post) :=
    fun f hf => listed.symm.subset
      (List.mem_cons_of_mem _ (List.mem_cons_of_mem _ (List.mem_cons_of_mem _ hf)))
  refine ⟨s', ?_, hold', ?_⟩
  · have total : add32 n (add32 k l) = k + n + l := by
      rw [show add32 k l = k + l from add32_eq (by omega), add32_eq (by omega)]
      omega
    have prevAlloc : allocAt s.mem (y - 4) = 0 := by simpa [back] using cut.prevAlloc
    have prevSize : sizeAt s₃.mem (y - 4) = k := by simpa [back] using cut₃.prevSize
    rw [hy]
    unfold coalesce
    simp only [does_prevBlkp_bind, does_getAlloc_bind, does_nextBlkp_bind, does_getSize_bind,
      does_getTag_bind, does_put_bind, does_ftrp_bind, hdrp, wsize, cut.prevFooter, prevAlloc,
      cut.nextSize, cut'.nextAlloc, cut₁.prevFooter, cut₂.nextSize, cut₃.prevFooter, prevSize,
      cut₃.nextSize, cut₃'.nextSize, Bool.toNat_false, ne_eq, not_true_eq_false, false_and,
      and_false, and_true, if_false, run₁.bind_iff, run₂.bind_iff, run₃.bind_iff, total, back, untagged]
    simp (disch := omega) only [put_mem, sizeAt_store_apart, cut₃.prevFooter, cut₃.nextSize,
      cut₃'.nextSize, back]
    repeat refine ⟨tol.access _ (by omega) (by omega), ?_⟩
    exact run'.bind_iff.mpr (does_pure.mpr ⟨rfl, rfl⟩)
  · rw [hy]
    have only := (only₁.trans only₂ fun f hf => List.mem_cons_of_mem _ hf).trans only₃
      fun f hf => List.mem_cons_of_mem _ (List.mem_cons_of_mem _ hf)
    have header := hold.header only
      (fun f hf => listed.symm.subset (List.mem_cons_of_mem _ hf)) hy.symm
    refine ⟨.after_links only₁ (.after_links only₂ (.after_links only₃ only' (fun f hf => hf)
      fun f hf => hf) (fun f hf => hf) fun f hf => List.mem_cons_of_mem _ hf)
      (fun f hf => listed.symm.subset (List.mem_cons_of_mem _ hf)) fun f hf =>
        listed.symm.subset (List.mem_cons_of_mem _ (List.mem_cons_of_mem _ hf)), tag'.trans ?_⟩
    rw [tagAt, header, tagAt]

def taggedBefore (s : State) (x : Nat) (pre : List Block) : Bool :=
  tagAt s.mem (x - (before pre).size - 4) ≠ 0

theorem Holding.not_listed (hold : Holding s e (pre ++ post) F)
    (alloc : (after post).alloc = true) :
    ¬ Listed s (s.memStartBrk + 16 + extent Block.size pre) := by
  intro listed
  obtain ⟨n, member⟩ := hold.lists.of_listed listed
  have placed := hold.mem_located _ member
  have positive : ∀ c ∈ pre ++ post, 0 < c.size := fun c hc => by
    have := hold.tiled.large c hc
    omega
  cases post with
  | nil =>
      have := placed_bounds placed
      have := positive _ (placed_mem placed)
      simp only [List.append_nil] at *
      omega
  | cons c post =>
      have here : (s.memStartBrk + 16 + extent Block.size pre, c) ∈
          located (s.memStartBrk + 16) (pre ++ c :: post) := mem_placed.mpr ⟨pre, post, rfl, rfl⟩
      rw [← placed_unique positive placed here] at alloc
      cases alloc

def keptUntagged (tagged : Bool) (pre : List Block) : List Block :=
  if tagged then pre else keptBefore pre

def freeUntagged (tagged : Bool) (pre : List Block) : Nat := if tagged then 0 else freeBefore pre

/-- The case in which `coalesce` deletes a block that is in no list. -/
def Stray (s : State) (x : Nat) (pre post : List Block) : Prop :=
  (before pre).alloc = false ∧ taggedBefore s x pre = true ∧ (after post).alloc = true

instance (s : State) (x : Nat) (pre post : List Block) : Decidable (Stray s x pre post) :=
  inferInstanceAs (Decidable (_ ∧ _ ∧ _))

theorem coalesce_spec (hold : Holding s e (pre ++ ⟨n, false⟩ :: post)
      (frees (s.memStartBrk + 16) (pre ++ ⟨n, false⟩ :: post)))
    (tol : Tolerates ok s.memStartBrk e)
    (fine : ¬ Stray s (s.memStartBrk + 16 + extent Block.size pre) pre post) :
    let tagged := taggedBefore s (s.memStartBrk + 16 + extent Block.size pre) pre
    Merges ok (coalesce (s.memStartBrk + 16 + extent Block.size pre)) s e
      (pre ++ ⟨n, false⟩ :: post) (keptUntagged tagged pre)
      (freeUntagged tagged pre + n + freeAfter post) (keptAfter post) := by
  intro tagged
  have tag : tagged = true ↔
      tagAt s.mem (s.memStartBrk + 16 + extent Block.size pre - (before pre).size - 4) ≠ 0 := by
    simp [tagged, taggedBefore]
  have kept : (before pre).alloc = true ∨ tagged = true →
      keptUntagged tagged pre = pre ∧ freeUntagged tagged pre = 0 := by
    rintro (h | h) <;> simp [keptUntagged, freeUntagged, keptBefore, freeBefore, h]
  -- a free block before this one that is not tagged
  have split : ¬ ((before pre).alloc = true ∨ tagged = true) → ∃ pre' k, pre = pre' ++ [⟨k, false⟩] ∧
      keptUntagged tagged pre = pre' ∧ freeUntagged tagged pre = k ∧
      tagAt s.mem (s.memStartBrk + 16 + extent Block.size pre' - 4) = 0 := by
    intro free
    simp only [not_or, Bool.not_eq_true] at free
    rcases pre.eq_nil_or_concat' with rfl | ⟨pre, c, rfl⟩
    · cases free.1
    · obtain ⟨k, alloc⟩ := c
      rw [before_concat] at free
      obtain rfl : alloc = false := free.1
      refine ⟨pre, k, rfl, by simp [keptUntagged, keptBefore, free.2],
        by simp [freeUntagged, freeBefore, free.2], ?_⟩
      by_contra set
      refine absurd (tag.mpr ?_) (by simp [free.2])
      simpa [show s.memStartBrk + 16 + (extent Block.size pre + k) - k - 4 =
        s.memStartBrk + 16 + extent Block.size pre - 4 by omega] using set
  cases next : (after post).alloc
  case false =>
    -- the next block is free
    obtain ⟨l, post, rfl⟩ : ∃ l post', post = ⟨l, false⟩ :: post' := by
      cases post with
      | nil => cases next
      | cons c post =>
          obtain ⟨l, alloc⟩ := c
          rw [show alloc = false from next]
          exact ⟨l, post, rfl⟩
    have reach : freeAfter (⟨l, false⟩ :: post) = l ∧ keptAfter (⟨l, false⟩ :: post) = post := ⟨rfl, rfl⟩
    rw [reach.1, reach.2]
    by_cases held : (before pre).alloc = true ∨ tagged = true
    · rw [(kept held).1, (kept held).2, Nat.zero_add]
      exact coalesce_next hold tol (held.imp_right tag.mp)
    · obtain ⟨pre, k, rfl, keep, add, untagged⟩ := split held
      rw [keep, add]
      simp only [List.append_assoc, List.cons_append, List.nil_append, extent_append, extent_cons,
        extent_nil, Nat.add_zero, ← Nat.add_assoc] at hold ⊢
      exact coalesce_both hold tol untagged
  case true =>
    have reach : freeAfter post = 0 ∧ keptAfter post = post := by simp [freeAfter, keptAfter, next]
    rw [reach.1, reach.2, Nat.add_zero]
    by_cases held : (before pre).alloc = true ∨ tagged = true
    · have prev : (before pre).alloc = true := by
        by_contra free
        exact fine ⟨by simpa using free, held.resolve_left free, next⟩
      rw [(kept held).1, (kept held).2, Nat.zero_add]
      exact coalesce_alone hold tol prev next
    · obtain ⟨pre, k, rfl, keep, add, untagged⟩ := split held
      rw [keep, add]
      simp only [List.append_assoc, List.cons_append, List.nil_append, extent_append, extent_cons,
        extent_nil, Nat.add_zero, ← Nat.add_assoc] at hold ⊢
      exact coalesce_prev hold tol untagged next

/-- The last lines of `coalesce` for both neighbours, from where it deletes the next block at `z`. -/
def mergeNext (bp size z : Nat) : Prog Nat := do
  deleteBlock z
  let size := add32 size (add32 (← getSize (hdrp (← prevBlkp bp)))
    (← getSize (hdrp (← nextBlkp bp))))
  put (hdrp (← prevBlkp bp)) (pack size 0)
  put (← ftrp (← nextBlkp bp)) (pack size 0)
  let bp ← prevBlkp bp
  insertBlock bp size
  return bp

theorem coalesce_stray (hold : Holding s e (pre ++ ⟨k, false⟩ :: ⟨n, false⟩ :: post)
      (frees (s.memStartBrk + 16) (pre ++ ⟨k, false⟩ :: ⟨n, false⟩ :: post)))
    (tol : Tolerates ok s.memStartBrk e)
    (tagged : tagAt s.mem (s.memStartBrk + 16 + extent Block.size pre - 4) ≠ 0)
    (next : (after post).alloc = true) :
    ∃ s₂, Holding s₂ e (pre ++ ⟨k, false⟩ :: ⟨n, false⟩ :: post)
        (frees (s.memStartBrk + 16) pre ++
          frees (s.memStartBrk + 16 + extent Block.size pre + k + n) post) ∧
      LinksOnly s s₂ (frees (s.memStartBrk + 16) (pre ++ ⟨k, false⟩ :: ⟨n, false⟩ :: post)) ∧
      ∀ r s', Does ok (coalesce (s.memStartBrk + 16 + extent Block.size pre + k)) s r s' ↔
        Does ok (mergeNext (s.memStartBrk + 16 + extent Block.size pre + k) n
          (s.memStartBrk + 16 + extent Block.size pre + k + n)) s₂ r s' := by
  have cut := (show Tiled s e ((pre ++ [⟨k, false⟩]) ++ ⟨n, false⟩ :: post) by
    simpa using hold.tiled).cut
  have cut' := (show Tiled s e ((pre ++ [⟨k, false⟩, ⟨n, false⟩]) ++ post) by
    simpa using hold.tiled).cut
  have ends := hold.tiled.ends
  have n16 := hold.tiled.large ⟨n, false⟩ (by simp)
  have k16 := hold.tiled.large ⟨k, false⟩ (by simp)
  have listed : (frees (s.memStartBrk + 16) (pre ++ ⟨k, false⟩ :: ⟨n, false⟩ :: post)).Perm
      ((s.memStartBrk + 16 + extent Block.size pre + k, n) ::
        (s.memStartBrk + 16 + extent Block.size pre, k) ::
        (frees (s.memStartBrk + 16) pre ++
          frees (s.memStartBrk + 16 + extent Block.size pre + k + n) post)) := by
    rw [frees_append, frees_cons_false rfl, frees_cons_false rfl]
    exact (List.perm_middle.trans (List.perm_middle.cons _)).trans (.swap _ _ _)
  simp only [extent_append, extent_cons, extent_nil, Nat.add_zero, ← Nat.add_assoc, after_cons,
    before_concat] at cut cut' ends n16 k16
  obtain ⟨s₁, run₁, hold₁, only₁⟩ := (hold.perm listed).delete tol
  obtain ⟨s₂, run₂, hold₂, only₂⟩ := hold₁.delete (by rwa [only₁.start])
  have cut₁ := (show Tiled s₁ e ((pre ++ [⟨k, false⟩]) ++ ⟨n, false⟩ :: post) by
    simpa using hold₁.tiled).cut
  have cut₂ := (show Tiled s₂ e ((pre ++ [⟨k, false⟩]) ++ ⟨n, false⟩ :: post) by
    simpa using hold₂.tiled).cut
  simp only [extent_append, extent_cons, extent_nil, Nat.add_zero, ← Nat.add_assoc, after_cons,
    before_concat, only₁.start, only₂.start] at cut₁ cut₂
  generalize hy : s.memStartBrk + 16 + extent Block.size pre = y at *
  have back : y + k - k = y := by omega
  have prevAlloc : allocAt s.mem (y - 4) = 0 := by simpa [back] using cut.prevAlloc
  have access : ∀ p, s.memStartBrk ≤ p → p + 4 ≤ e → (ok (.access p) ↔ True) :=
    fun p low high => iff_true_intro (tol.access p low high)
  refine ⟨s₂, hold₂, (only₁.trans only₂ fun f hf => List.mem_cons_of_mem _ hf).mono fun f hf =>
    listed.symm.subset (List.mem_cons_of_mem _ hf), fun r s' => ?_⟩
  unfold coalesce mergeNext
  simp (disch := omega) only [does_prevBlkp_bind, does_getAlloc_bind, does_nextBlkp_bind,
    does_getSize_bind, does_getTag_bind, hdrp, wsize, cut.prevFooter, prevAlloc, cut.nextSize,
    cut'.nextAlloc, cut₁.prevFooter, cut₂.nextSize, next, Bool.toNat_true, ne_eq, one_ne_zero,
    not_true_eq_false, not_false_eq_true, false_and, and_false, if_false, if_true, run₁.bind_iff,
    run₂.bind_iff, back, tagged, access, true_and]

end

end MallocLab.Segregated
