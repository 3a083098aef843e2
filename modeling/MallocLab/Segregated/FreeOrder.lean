import MallocLab.Segregated.Free
import Mathlib.Data.List.Infix
import MallocLab.Releases

/-!
# Freeing without reservations

On a heap without tags in which no two neighbouring blocks are both free, `mm_free` joins the block
with exactly its free neighbours, so that the order of frees does not matter.
-/

namespace MallocLab.Segregated
open Memory Logged

/-- A well-formed heap without tags and with no two neighbouring free blocks. -/
structure Plain (s : State) (bs : List Block) : Prop where
  wf : WellFormed s bs
  separated : Separated bs
  prologue : tagAt s.mem (s.memStartBrk + 4) = 0
  untagged : ∀ pre post, bs = pre ++ post →
    tagAt s.mem (s.memStartBrk + 16 + extent Block.size pre - 4) = 0

def freeAll : List Nat → Prog Unit
  | [] => pure ()
  | p :: ps => do
      mmFree p
      freeAll ps

section
variable {s : State} {bs pre post : List Block} {b : Block} {ps qs : List Nat}

theorem Plain.notTagged (plain : Plain s (pre ++ post)) :
    taggedBefore s (s.memStartBrk + 16 + extent Block.size pre) pre = false := by
  rcases pre.eq_nil_or_concat' with rfl | ⟨pre, c, rfl⟩
  · have := plain.prologue
    simpa [taggedBefore, show s.memStartBrk + 16 - 8 - 4 = s.memStartBrk + 4 by omega] using this
  · have := plain.untagged pre ([c] ++ post) (by simp)
    simpa [taggedBefore, show s.memStartBrk + 16 + (extent Block.size pre + c.size) - c.size - 4 =
      s.memStartBrk + 16 + extent Block.size pre - 4 by omega] using this

theorem Plain.free (plain : Plain s (pre ++ b :: post)) (alloc : b.alloc = true) :
    ∃ s', Does DeletesListed (mmFree (s.memStartBrk + 16 + extent Block.size pre)) s () s' ∧
      Plain s' (join pre b.size post) ∧
      Keeps s s' (others s (pre ++ b :: post) (s.memStartBrk + 16 + extent Block.size pre))
        (join pre b.size post) ∧
      s'.memStartBrk = s.memStartBrk := by
  have untagged := plain.notTagged
  have fine : ¬ Stray s (s.memStartBrk + 16 + extent Block.size pre) pre post := fun stray => by
    rw [stray.2.1] at untagged
    cases untagged
  obtain ⟨s', L, y, m, run, wf, joined⟩ :=
    mmFree_spec plain.wf alloc rfl fine (tolerates_deletesListed _ _)
  have list : L ++ ⟨m, false⟩ :: keptAfter post = join pre b.size post := by
    rw [joined.left, joined.size, untagged]
    rfl
  have keeps := joined.keeps plain.wf alloc rfl
  obtain ⟨sl, sr⟩ := separated_split plain.separated
  have start := joined.only.start
  rw [list] at wf keeps
  refine ⟨s', run, ⟨wf, ?_, ?_, fun pre₂ post₂ cut => ?_⟩, keeps, start⟩
  · exact separated_join _ sl (separated_split (show Separated ([b] ++ post) from sr)).2
  · have kept : word s'.mem (s.memStartBrk + 4) = word s.mem (s.memStartBrk + 4) :=
      word_congr fun q low high => joined.only.mem q (by have := joined.place; omega) fun f hf => by
        have := placed_bounds (mem_frees.mp hf)
        omega
    rw [start, tagAt, kept]
    exact plain.prologue
  · obtain ⟨⟨pre₀, post₀, split, same⟩, tag⟩ := joined.cut plain.wf rfl (list.trans cut)
    rw [start, tag]
    split_ifs
    · rfl
    · rw [← same]
      exact plain.untagged _ _ split

theorem mmFree_release {p : Nat} (plain : Plain s bs)
    (live : (p, b) ∈ allocated (s.memStartBrk + 16) bs) :
    ∃ s', Does DeletesListed (mmFree p) s () s' ∧ Plain s' (release p (s.memStartBrk + 16) bs) ∧
      s'.memStartBrk = s.memStartBrk := by
  have large := plain.wf.tiled.large
  obtain ⟨placed, alloc⟩ := mem_allocated.mp live
  obtain ⟨pre, post, rfl, rfl⟩ := mem_placed.mp placed
  obtain ⟨s', run, plain', -, start⟩ := plain.free alloc
  refine ⟨s', run, ?_, start⟩
  rwa [release_extent fun c hc => by have := large c (by simp [hc]); omega]

theorem freeAll_releaseAll (plain : Plain s bs) (nodup : ps.Nodup)
    (live : ∀ p ∈ ps, ∃ b, (p, b) ∈ allocated (s.memStartBrk + 16) bs) :
    ∃ s', Does DeletesListed (freeAll ps) s () s' ∧
      Plain s' (releaseAll ps (s.memStartBrk + 16) bs) ∧ s'.memStartBrk = s.memStartBrk := by
  induction ps generalizing s bs with
  | nil => exact ⟨s, does_pure.mpr ⟨rfl, rfl⟩, plain, rfl⟩
  | cons p ps ih =>
      obtain ⟨fresh, distinct⟩ := List.nodup_cons.mp nodup
      obtain ⟨b, here⟩ := live p (by simp)
      have taken := allocated_release
        (fun c hc => by have := plain.wf.tiled.large c hc; omega) here
      obtain ⟨t, run, plain', start⟩ := mmFree_release plain here
      obtain ⟨s', rest, plain₂, start₂⟩ := ih plain' distinct fun q hq => by
        obtain ⟨c, hc⟩ := live q (by simp [hq])
        rw [start]
        rcases List.mem_cons.mp (taken.mem_iff.mp hc) with same | kept
        · exact absurd ((Prod.mk.inj same).1 ▸ hq) fresh
        · exact ⟨c, kept⟩
      rw [start] at plain₂
      exact ⟨s', run.bind_iff.mpr rest, plain₂, start₂.trans start⟩

/-- On a plain heap `mm_free` joins the block with exactly its free neighbours, and freeing blocks in
any two orders ends in the same blocks. -/
theorem plain_free (plain : Plain s bs) :
    (∀ pre b post, bs = pre ++ b :: post → b.alloc = true →
        ∃ s', Does DeletesListed (mmFree (s.memStartBrk + 16 + extent Block.size pre)) s () s' ∧
          Plain s' (join pre b.size post) ∧
          Keeps s s' (others s bs (s.memStartBrk + 16 + extent Block.size pre)) (join pre b.size post) ∧
          s'.memStartBrk = s.memStartBrk) ∧
      ∀ ps qs, ps.Nodup → (∀ p ∈ ps, ∃ b, (p, b) ∈ allocated (s.memStartBrk + 16) bs) → ps.Perm qs →
        ∃ s₁ s₂ bs', Does DeletesListed (freeAll ps) s () s₁ ∧ Plain s₁ bs' ∧
          Does DeletesListed (freeAll qs) s () s₂ ∧ Plain s₂ bs' ∧
          s₁.memStartBrk = s.memStartBrk ∧ s₂.memStartBrk = s.memStartBrk := by
  refine ⟨fun pre b post split alloc => ?_, fun ps qs nodup live perm => ?_⟩
  · subst split
    exact plain.free alloc
  · obtain ⟨s₁, run₁, plain₁, start₁⟩ := freeAll_releaseAll plain nodup live
    obtain ⟨s₂, run₂, plain₂, start₂⟩ := freeAll_releaseAll plain (perm.nodup_iff.mp nodup)
      fun q hq => live q (perm.mem_iff.mpr hq)
    rw [← releaseAll_perm plain.separated (fun c hc => by
      have := plain.wf.tiled.large c hc
      omega) nodup live perm] at plain₂
    exact ⟨s₁, s₂, _, run₁, plain₁, run₂, plain₂, start₁, start₂⟩

end

def unreserved : State := reserved.store 4108 16

theorem unreserved_plain : Plain unreserved [⟨16, false⟩, ⟨16, true⟩, ⟨16, true⟩] := by
  have wf := reserved_wellFormed
  have hold : Holding reserved 4160 ([] ++ [⟨16, false⟩, ⟨16, true⟩, ⟨16, true⟩]) _ :=
    ⟨wf.tiled, wf.lists, List.Subperm.refl _⟩
  have retagged := hold.retag (x := 4112) (w := 16) rfl (by decide +kernel) (by decide +kernel)
  have tags : ∀ pre ∈ [⟨16, false⟩, ⟨16, true⟩, ⟨16, true⟩].inits,
      tagAt unreserved.mem (unreserved.memStartBrk + 16 + extent Block.size pre - 4) = 0 := by
    decide +kernel
  exact ⟨⟨wf.valid.setMem _, retagged.tiled, retagged.lists⟩, by decide, by decide +kernel,
    fun pre post cut => tags pre ((List.mem_inits _ _).mpr ⟨post, cut.symm⟩)⟩

theorem plain_free_unreserved : ∃ s₁ s₂ bs',
    Does DeletesListed (freeAll [4128, 4144]) unreserved () s₁ ∧ Plain s₁ bs' ∧
      Does DeletesListed (freeAll [4144, 4128]) unreserved () s₂ ∧ Plain s₂ bs' := by
  obtain ⟨s₁, s₂, bs', run₁, plain₁, run₂, plain₂, -⟩ := (plain_free unreserved_plain).2 [4128, 4144]
    [4144, 4128] (by decide) (fun p hp => ⟨⟨16, true⟩, by revert p; decide⟩) (.swap _ _ _)
  exact ⟨s₁, s₂, bs', run₁, plain₁, run₂, plain₂⟩

end MallocLab.Segregated
