import MallocLab.FirstFit.Runs

/-!
# What holds after every call of a run

`Intact` says in terms of the bytes, read through the macros of the source, what the heap looks
like to a client; `placement_independent` compares two runs of the same calls.
-/

namespace MallocLab.FirstFit
open Memory

/-- Walking `NEXT_BLKP` from a block visits the blocks `ps` and stops at a block of size 0. -/
inductive Walk (m : Mem) : Nat → List Nat → Nat → Prop
  | stop {bp : Nat} (zero : getSize m (hdrp bp) = 0) : Walk m bp [] bp
  | step {bp e : Nat} {ps : List Nat} (pos : 0 < getSize m (hdrp bp))
      (rest : Walk m (nextBlkp m bp) ps e) : Walk m bp (bp :: ps) e

/-- The blocks `ps` tile the heap, and the allocated ones are those of the live pointers. -/
structure Intact (h : Heap) (c : Client) (ps : List Nat) : Prop where
  prologue : h.heapListp = memHeapLo h.toMemLib + dsize ∧
    get h.mem (hdrp h.heapListp) = pack overhead 1
  walk : Walk h.mem h.heapListp (h.heapListp :: ps) h.memBrk
  epilogue : get h.mem (hdrp h.memBrk) = pack 0 1
  sizes : ∀ p ∈ ps, getSize h.mem (hdrp p) % 8 = 0 ∧ 16 ≤ getSize h.mem (hdrp p)
  tags : ∀ p ∈ ps, get h.mem (hdrp p) = get h.mem (ftrp h.mem p)
  separated : ps.IsChain fun p q => getAlloc h.mem (hdrp p) ≠ 0 ∨ getAlloc h.mem (hdrp q) ≠ 0
  live : (c.live.map Live.ptr).Perm (ps.filter fun p => getAlloc h.mem (hdrp p) ≠ 0)
  aligned : ∀ l ∈ c.live, l.ptr % 8 = 0
  inside : ∀ l ∈ c.live, memHeapLo h.toMemLib ≤ l.ptr ∧
    l.ptr + l.size ≤ memHeapHi h.toMemLib + 1
  disjoint : c.live.Pairwise fun k l => k.ptr + k.size ≤ l.ptr ∨ l.ptr + l.size ≤ k.ptr

section
variable {h : Heap} {pre bs : List Block} {c : Client}

theorem Tiled.walk (ht : Tiled h (pre ++ bs)) :
    Walk h.mem (h.memStartBrk + 16 + extent Block.size pre)
      ((located (h.memStartBrk + 16 + extent Block.size pre) bs).map Prod.fst) h.memBrk := by
  induction bs generalizing pre with
  | nil =>
      rw [List.append_nil] at ht
      rw [ht.brk]
      exact .stop (getSize_eq ht.epilogueHeader rfl)
  | cons b bs ih =>
      have size : getSize h.mem (hdrp (h.memStartBrk + 16 + extent Block.size pre)) = b.size :=
        getSize_eq ht.at.header (ht.aligned b (by simp))
      have large := ht.large b (by simp)
      rw [List.append_cons] at ht
      have rest := ih ht
      simp only [extent_append, extent_cons, extent_nil, Nat.add_zero, ← Nat.add_assoc] at rest
      refine .step (by omega) ?_
      rw [show nextBlkp h.mem _ = _ + getSize h.mem (hdrp _) from rfl, size]
      exact rest

theorem Tiled.fields {x : Nat} {b : Block} (ht : Tiled h bs)
    (hb : (x, b) ∈ located (h.memStartBrk + 16) bs) :
    getSize h.mem (hdrp x) = b.size ∧ getAlloc h.mem (hdrp x) = b.alloc.toNat ∧
      get h.mem (hdrp x) = get h.mem (ftrp h.mem x) := by
  have held := ht.blocks x b hb
  have aligned := ht.aligned b (placed_mem hb)
  have size : getSize h.mem (hdrp x) = b.size := getSize_eq held.header aligned
  refine ⟨size, getAlloc_eq held.header aligned, ?_⟩
  rw [ftrp, size]
  exact held.header.trans held.footer.symm

theorem located_mod {a x : Nat} {b : Block} (aligned : ∀ c ∈ bs, c.size % 8 = 0) (base : a % 8 = 0)
    (hb : (x, b) ∈ located a bs) : x % 8 = 0 := by
  induction bs generalizing a with
  | nil => simp [located] at hb
  | cons c bs ih =>
      have := aligned c (by simp)
      rcases List.mem_cons.mp hb with hb | hb
      · rwa [(Prod.mk.inj hb).1]
      · exact ih (fun d hd => aligned d (by simp [hd])) (by omega) hb

theorem Serves.intact (serves : Serves h bs c) (base : h.memStartBrk % 8 = 0) :
    Intact h c ((located (h.memStartBrk + 16) bs).map Prod.fst) := by
  have ht := serves.wf.tiled
  have fields : ∀ {x b}, (x, b) ∈ located (h.memStartBrk + 16) bs → _ := ht.fields
  have whole := (show Tiled h ([] ++ bs) from ht).walk
  rw [extent_nil, Nat.add_zero] at whole
  have allocs : ((located (h.memStartBrk + 16) bs).map Prod.fst).filter
      (fun p => getAlloc h.mem (hdrp p) ≠ 0) =
      (allocated (h.memStartBrk + 16) bs).map Prod.fst := by
    rw [List.filter_map, allocated]
    congr 1
    refine List.filter_congr fun e he => ?_
    simp only [Function.comp_apply, (fields he).2.1]
    cases e.2.alloc <;> rfl
  have first : get h.mem (hdrp h.heapListp) = prologue.word := by
    rw [ht.listp]
    exact ht.prologueHeader
  have chain : (located (h.memStartBrk + 16) bs).IsChain
      fun e f => e.2.alloc = true ∨ f.2.alloc = true := by
    refine (List.isChain_map (R := fun b d : Block => b.alloc = true ∨ d.alloc = true) Prod.snd).mp ?_
    rw [map_snd_placed]
    exact serves.wf.separated
  refine
    { prologue := ⟨ht.listp, first⟩
      walk := .step (by rw [getSize_eq first rfl]; decide) ?_
      epilogue := ht.epilogueHeader
      sizes := ?_
      tags := ?_
      separated := ?_
      live := by rw [allocs]; exact serves.accounts.ptrs
      aligned := ?_
      inside := ?_
      disjoint := ?_ }
  · rw [show nextBlkp h.mem _ = _ + getSize h.mem (hdrp _) from rfl, getSize_eq first rfl, ht.listp]
    exact whole
  · rintro p hp
    obtain ⟨⟨p, b⟩, hb, rfl⟩ := List.mem_map.mp hp
    rw [(fields hb).1]
    exact ⟨ht.aligned b (placed_mem hb), ht.large b (placed_mem hb)⟩
  · rintro p hp
    obtain ⟨⟨p, b⟩, hb, rfl⟩ := List.mem_map.mp hp
    exact (fields hb).2.2
  · refine (List.isChain_map _).mpr (chain.imp_of_mem_imp ?_)
    rintro ⟨x, b⟩ ⟨y, d⟩ hb hd apart
    rw [(fields hb).2.1, (fields hd).2.1]
    simpa using apart
  · intro l hl
    obtain ⟨b, live, -⟩ := serves.accounts.fits l hl
    exact located_mod ht.aligned (by omega) (mem_allocated.mp live).1
  · intro l hl
    obtain ⟨b, live, fit⟩ := serves.accounts.fits l hl
    have := placed_bounds (mem_allocated.mp live).1
    have := ht.brk
    simp only [memHeapLo, memHeapHi]
    omega
  · have distinct := serves.accounts.ptrs.nodup_iff.mpr
      (allocated_nodup fun b hb => by have := ht.large b hb; omega)
    refine List.Pairwise.imp_of_mem ?_ (List.pairwise_map.mp distinct)
    intro k l hk hl ne
    obtain ⟨b, placed, fit⟩ := serves.accounts.fits k hk
    obtain ⟨d, placed', fit'⟩ := serves.accounts.fits l hl
    have := placed_apart (mem_allocated.mp placed).1 (mem_allocated.mp placed').1
    omega

end

/-! ## Every run -/

/-- After every call of a run the heap is intact, and the next call returns, unless it is a
`mm_realloc` that exits. -/
theorem heap_invariant {s : MemLib} {calls : List Call} {h : Heap} {c : Client} (v : s.Valid)
    (empty : s.memBrk = s.memStartBrk) (exact : s.Exact) (base : s.memStartBrk % 8 = 0)
    (run : Runs s calls h c) :
    (∃ ps, Intact h c ps) ∧
      ∀ m call, ClientWrites c h.mem m → Legal c call →
        (∃ h' c', exec { h with mem := m } c call = .ok (h', c')) ∨
          ((∃ id size, call = .realloc id size) ∧ exec { h with mem := m } c call =
            .error (.exit 1 "ERROR: mm_malloc failed in mm_realloc\n")) := by
  obtain ⟨bs, -, serves, start, -⟩ := runs_planned v empty exact run
  refine ⟨⟨_, serves.intact (by rwa [start])⟩, fun m call writes legal => ?_⟩
  rcases exec_spec (serves.writes writes) legal with ⟨h', -, c', done, -⟩ | ⟨-, exits⟩
  · exact Or.inl ⟨h', c', done⟩
  · exact Or.inr exits

theorem heap_invariant_lowArea : ∃ h c ps,
    Runs (lowArea 0xFF) [.malloc 100, .malloc 5000, .free 0] h c ∧ Intact h c ps := by
  obtain ⟨h, run⟩ := runs_lowArea 0xFF
  obtain ⟨⟨ps, intact⟩, -⟩ :=
    heap_invariant (lowArea_valid _) rfl (lowArea_exact _) (by decide) run
  exact ⟨h, _, ps, run, intact⟩

/-- Two runs of the same calls in the same area return the same pointers, whatever the area held
before and whatever the clients wrote, and the next call does the same in both. -/
theorem placement_independent {s₁ s₂ : MemLib} {calls : List Call} {h₁ h₂ : Heap} {c₁ c₂ : Client}
    (v₁ : s₁.Valid) (v₂ : s₂.Valid) (exact₁ : s₁.Exact) (exact₂ : s₂.Exact)
    (base : s₁.memStartBrk = s₂.memStartBrk) (run₁ : Runs (memResetBrk s₁) calls h₁ c₁)
    (run₂ : Runs (memResetBrk s₂) calls h₂ c₂) :
    c₁ = c₂ ∧ memHeapsize h₁.toMemLib = memHeapsize h₂.toMemLib ∧
      ∀ m₁ m₂ call, ClientWrites c₁ h₁.mem m₁ → ClientWrites c₂ h₂.mem m₂ → Legal c₁ call →
        (exec { h₁ with mem := m₁ } c₁ call).map Prod.snd =
          (exec { h₂ with mem := m₂ } c₂ call).map Prod.snd := by
  obtain ⟨bs₁, planned₁, serves₁, start₁, -⟩ := runs_planned v₁.reset rfl exact₁ run₁
  obtain ⟨bs₂, planned₂, serves₂, start₂, -⟩ := runs_planned v₂.reset rfl exact₂ run₂
  have starts : h₁.memStartBrk = h₂.memStartBrk := start₁.trans (base.trans start₂.symm)
  -- both runs follow the one plan of their calls
  rw [show (memResetBrk s₁).memStartBrk = (memResetBrk s₂).memStartBrk from base, planned₂] at planned₁
  obtain ⟨rfl, rfl⟩ := Prod.mk.inj (Option.some.inj planned₁)
  refine ⟨rfl, ?_, fun m₁ m₂ call writes₁ writes₂ legal => ?_⟩
  · have := serves₁.wf.tiled.brk
    have := serves₂.wf.tiled.brk
    simp only [memHeapsize]
    omega
  · rw [exec_planned (serves₁.writes writes₁) legal, exec_planned (serves₂.writes writes₂) legal, starts]

theorem placement_independent_lowArea : ∃ h₁ h₂ c₁ c₂,
    Runs (memResetBrk (lowArea 0)) [.malloc 100, .malloc 5000, .free 0] h₁ c₁ ∧
      Runs (memResetBrk (lowArea 0xFF)) [.malloc 100, .malloc 5000, .free 0] h₂ c₂ ∧
      c₁ = c₂ ∧ memHeapsize h₁.toMemLib = memHeapsize h₂.toMemLib := by
  obtain ⟨h₁, run₁⟩ := runs_lowArea 0
  obtain ⟨h₂, run₂⟩ := runs_lowArea 0xFF
  obtain ⟨same, size, -⟩ := placement_independent (lowArea_valid 0) (lowArea_valid 0xFF)
    (lowArea_exact 0) (lowArea_exact 0xFF) rfl run₁ run₂
  exact ⟨h₁, h₂, _, _, run₁, run₂, same, size⟩

end MallocLab.FirstFit
