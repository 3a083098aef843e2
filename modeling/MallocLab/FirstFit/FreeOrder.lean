import MallocLab.FirstFit.Invariant

/-!
# The order of frees

Freeing live blocks one after another is `releaseAll` on the list of blocks, which does not depend
on the order.
-/

namespace MallocLab.FirstFit
open Memory

def Shows (h : Heap) (es : List (Nat × Block)) : Prop :=
  ∃ bs, WellFormed h bs ∧ es = located (h.memStartBrk + 16) bs

def freeAll (h : Heap) (ps : List Nat) : Heap := ps.foldl mmFree h

section
variable {h : Heap} {bs : List Block} {ps : List Nat}

theorem WellFormed.positive (wf : WellFormed h bs) : ∀ c ∈ bs, 0 < c.size := fun c hc => by
  have := wf.tiled.large c hc
  omega

theorem mmFree_release {p : Nat} {b : Block} (wf : WellFormed h bs)
    (live : (p, b) ∈ allocated (h.memStartBrk + 16) bs) :
    WellFormed (mmFree h p) (release p (h.memStartBrk + 16) bs) ∧ SameArea h (mmFree h p) ∧
      (mmFree h p).memBrk = h.memBrk := by
  have pos := wf.positive
  obtain ⟨pre, post, rfl, rfl⟩ := mem_placed.mp (mem_allocated.mp live).1
  obtain ⟨-, area, brk, -⟩ := mmFree_spec wf.tiled
  rw [release_extent fun c hc => pos c (by simp [hc])]
  exact ⟨mmFree_wellFormed wf, area, brk⟩

theorem freeAll_releaseAll (wf : WellFormed h bs) (nodup : ps.Nodup)
    (live : ∀ p ∈ ps, ∃ b, (p, b) ∈ allocated (h.memStartBrk + 16) bs) :
    WellFormed (freeAll h ps) (releaseAll ps (h.memStartBrk + 16) bs) ∧
      SameArea h (freeAll h ps) ∧ (freeAll h ps).memBrk = h.memBrk := by
  induction ps generalizing h bs with
  | nil => exact ⟨wf, .refl h, rfl⟩
  | cons p ps ih =>
      obtain ⟨fresh, distinct⟩ := List.nodup_cons.mp nodup
      obtain ⟨b, here⟩ := live p (by simp)
      have taken := allocated_release wf.positive here
      obtain ⟨wf', area, brk⟩ := mmFree_release wf here
      have rest := ih wf' distinct fun q hq => by
        obtain ⟨c, hc⟩ := live q (by simp [hq])
        rw [area.start]
        rcases List.mem_cons.mp (taken.mem_iff.mp hc) with same | kept
        · exact absurd ((Prod.mk.inj same).1 ▸ hq) fresh
        · exact ⟨c, kept⟩
      rw [area.start] at rest
      exact ⟨rest.1, area.trans rest.2.1, rest.2.2.trans brk⟩

end

/-! ## A heap always has a block -/

theorem release_ne_nil {p a : Nat} {bs : List Block} (ne : bs ≠ []) : release p a bs ≠ [] := by
  unfold release
  split
  · simp [join]
  · exact ne

theorem carve_ne_nil (asize : Nat) (b : Block) : carve asize b ≠ [] := by
  unfold carve
  split <;> simp

theorem plan_ne_nil {a : Nat} {bs bs' : List Block} {c c' : Client} {call : Call} (ne : bs ≠ [])
    (step : plan a bs c call = some (bs', c')) : bs' ≠ [] := by
  have carved : ∀ (pre post : List Block) asize b, pre ++ carve asize b ++ post ≠ [] :=
    fun pre post asize b => by simp [carve_ne_nil]
  cases call with
  | malloc size =>
      simp only [plan] at step
      split at step <;> obtain ⟨rfl, -⟩ := Prod.mk.inj (Option.some.inj step)
      · exact carved _ _ _ _
      · exact ne
  | free id =>
      obtain ⟨rfl, -⟩ := Prod.mk.inj (Option.some.inj step)
      exact release_ne_nil ne
  | realloc id size =>
      simp only [plan] at step
      split at step
      · obtain ⟨rfl, -⟩ := Prod.mk.inj (Option.some.inj step)
        exact release_ne_nil (carved _ _ _ _)
      · cases step

theorem planned_ne_nil {a : Nat} {bs : List Block} {c : Client} {calls : List Call}
    (run : planned a calls = some (bs, c)) : bs ≠ [] := by
  induction calls using List.reverseRecOn generalizing bs c with
  | nil =>
      obtain ⟨rfl, -⟩ := Prod.mk.inj (Option.some.inj run)
      simp
  | append_singleton calls call ih =>
      rw [planned_concat] at run
      obtain ⟨⟨bs₀, c₀⟩, before, step⟩ := Option.bind_eq_some_iff.mp run
      exact plan_ne_nil (ih before) step

/-- Freeing live blocks in any two orders ends in the same blocks, and freeing all of them in one
free block. -/
theorem free_order {s : MemLib} {calls : List Call} {h : Heap} {c : Client} {m : Mem} (v : s.Valid)
    (empty : s.memBrk = s.memStartBrk) (exact : s.Exact) (run : Runs s calls h c)
    (writes : ClientWrites c h.mem m) :
    (∀ ps qs, ps.Nodup → (∀ p ∈ ps, p ∈ c.live.map Live.ptr) → ps.Perm qs →
        ∃ es, Shows (freeAll { h with mem := m } ps) es ∧ Shows (freeAll { h with mem := m } qs) es) ∧
      ∀ ps, ps.Perm (c.live.map Live.ptr) →
        Shows (freeAll { h with mem := m } ps)
          [(h.memStartBrk + 16, ⟨memHeapsize h.toMemLib - 16, false⟩)] := by
  obtain ⟨bs, planned, serves, -⟩ := runs_planned v empty exact run
  have wf := (serves.writes writes).wf
  have ptrs := serves.accounts.ptrs
  have pos := wf.positive
  have live : ∀ {ps : List Nat}, (∀ p ∈ ps, p ∈ c.live.map Live.ptr) →
      ∀ p ∈ ps, ∃ b, (p, b) ∈ allocated (h.memStartBrk + 16) bs := fun sub p hp => by
    simpa using ptrs.mem_iff.mp (sub p hp)
  refine ⟨fun ps qs nodup sub perm => ?_, fun ps perm => ?_⟩
  · have sub' : ∀ q ∈ qs, q ∈ c.live.map Live.ptr := fun q hq => sub q (perm.mem_iff.mpr hq)
    have one := freeAll_releaseAll wf nodup (live sub)
    have two := freeAll_releaseAll wf (perm.nodup_iff.mp nodup) (live sub')
    refine ⟨_, ⟨_, one.1, rfl⟩, ⟨_, two.1, ?_⟩⟩
    rw [one.2.1.start, two.2.1.start]
    congr 1
    exact releaseAll_perm wf.separated pos nodup (live sub) perm
  · have all := perm.trans ptrs
    have nodup := all.nodup_iff.mpr (allocated_nodup pos)
    obtain ⟨wf', area, -⟩ := freeAll_releaseAll wf nodup (live fun p hp => perm.mem_iff.mp hp)
    rw [releaseAll_all wf.separated pos (planned_ne_nil planned) all] at wf'
    refine ⟨_, wf', ?_⟩
    have ends := wf.tiled.brk
    rw [area.start]
    simp only [located, placed_cons, placed_nil, memHeapsize]
    rw [show h.memBrk - h.memStartBrk - 16 = extent Block.size bs by
      simp only at ends
      omega]

theorem free_order_lowArea : ∃ h c, Runs (lowArea 0) [.malloc 100, .malloc 5000, .malloc 8] h c ∧
    (∃ es, Shows (freeAll h [4112, 4224]) es ∧ Shows (freeAll h [4224, 4112]) es) ∧
      Shows (freeAll h [4224, 9232, 4112]) [(h.memStartBrk + 16, ⟨memHeapsize h.toMemLib - 16, false⟩)] := by
  obtain ⟨h, run⟩ := runs_lowArea_three 0
  obtain ⟨orders, all⟩ := free_order (m := h.mem) (lowArea_valid 0) rfl (lowArea_exact 0) run
    fun _ changed => absurd rfl changed
  exact ⟨h, _, run, orders [4112, 4224] [4224, 4112] (by decide) (by decide) (by decide),
    all [4224, 9232, 4112] (by decide)⟩

end MallocLab.FirstFit
