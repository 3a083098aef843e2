import MallocLab.FirstFit.Model
import MallocLab.FirstFit.BlockList

/-!
# Heaps that represent a list of blocks

`Tiled h bs` says that the bytes of `h` are the pad word, the prologue, the blocks `bs` one after
another and the epilogue header in the last word. A block is known by its payload address: its
header is the word before it and the next block's payload starts `size` bytes further.
-/

namespace MallocLab.FirstFit
open Memory

structure Holds (m : Mem) (x : Nat) (b : Block) : Prop where
  header : get m (x - 4) = b.word
  footer : get m (x + b.size - 8) = b.word

structure Tiled (h : Heap) (bs : List Block) : Prop where
  valid : h.Valid
  listp : h.heapListp = h.memStartBrk + 8
  prologueHeader : get h.mem (h.memStartBrk + 4) = prologue.word
  prologueFooter : get h.mem (h.memStartBrk + 8) = prologue.word
  aligned : ∀ b ∈ bs, b.size % 8 = 0
  large : ∀ b ∈ bs, 16 ≤ b.size
  blocks : ∀ x b, (x, b) ∈ located (h.memStartBrk + 16) bs → Holds h.mem x b
  brk : h.memStartBrk + 16 + extent Block.size bs = h.memBrk
  epilogueHeader : get h.mem (h.memBrk - 4) = epilogue.word

/-- The heaps of the allocator: tiled, and no two neighbouring blocks are both free. -/
structure WellFormed (h : Heap) (bs : List Block) : Prop where
  tiled : Tiled h bs
  separated : Separated bs

/-! ## Fields of a header word -/

theorem pack_eq {size : Nat} (h8 : size % 8 = 0) (a : Bool) :
    pack size a.toNat = (⟨size, a⟩ : Block).word :=
  or_eq_add h8 (by cases a <;> decide)

theorem getSize_eq {m : Mem} {p : Nat} {b : Block} (h : get m p = b.word)
    (h8 : b.size % 8 = 0) : getSize m p = b.size := by
  have hlt := word_lt m p
  rw [getSize, get, and_mask8 hlt]
  simp only [get, Block.word] at h
  rw [h]
  cases b.alloc <;> simp only [Bool.toNat_true, Bool.toNat_false] <;> omega

theorem getAlloc_eq {m : Mem} {p : Nat} {b : Block} (h : get m p = b.word)
    (h8 : b.size % 8 = 0) : getAlloc m p = b.alloc.toNat := by
  rw [getAlloc, Nat.and_one_is_mod, h]
  simp only [Block.word]
  cases b.alloc <;> simp only [Bool.toNat_true, Bool.toNat_false] <;> omega

section
variable {h : Heap} {pre post : List Block} {b : Block}

theorem Tiled.bound (ht : Tiled h (pre ++ post)) :
    h.memStartBrk + 16 + extent Block.size pre + extent Block.size post = h.memBrk ∧
      h.memBrk < 2 ^ 32 := by
  have := ht.brk
  have := ht.valid.high
  have := ht.valid.space
  simp only [extent_append] at *
  omega

theorem Tiled.at (ht : Tiled h (pre ++ b :: post)) :
    Holds h.mem (h.memStartBrk + 16 + extent Block.size pre) b :=
  ht.blocks _ _ (mem_placed.mpr ⟨pre, post, rfl, rfl⟩)

theorem Tiled.before_cut (ht : Tiled h (pre ++ post)) :
    (before pre).size % 8 = 0 ∧ (before pre).size ≤ extent Block.size pre + 8 ∧
      8 ≤ (before pre).size ∧
      get h.mem (h.memStartBrk + 16 + extent Block.size pre - 8) = (before pre).word ∧
      get h.mem (h.memStartBrk + 16 + extent Block.size pre - (before pre).size - 4) =
        (before pre).word := by
  rcases pre.eq_nil_or_concat' with rfl | ⟨pre, c, rfl⟩
  · exact ⟨rfl, by simp, le_refl _, ht.prologueFooter, ht.prologueHeader⟩
  · rw [List.append_assoc] at ht
    have held := ht.at (b := c)
    have large := ht.large c (by simp)
    have aligned := ht.aligned c (by simp)
    rw [before_concat]
    simp only [extent_append, extent_cons, extent_nil]
    refine ⟨aligned, by omega, by omega, ?_, ?_⟩
    · rw [← held.footer]
      congr 1
      omega
    · rw [← held.header]
      congr 1
      omega

theorem Tiled.after_cut (ht : Tiled h (pre ++ post)) :
    (after post).size % 8 = 0 ∧ (after post).size ≤ extent Block.size post ∧
      get h.mem (h.memStartBrk + 16 + extent Block.size pre - 4) = (after post).word := by
  cases post with
  | nil =>
      have := ht.bound.1
      refine ⟨rfl, by simp, ?_⟩
      rw [after_nil, ← ht.epilogueHeader]
      congr 1
      simp only [extent_nil] at this
      omega
  | cons c post =>
      refine ⟨ht.aligned c (by simp), by simp, ?_⟩
      rw [after_cons, ← ht.at.header]

theorem Tiled.replace {mid : List Block} {m : Mem} (mid' : List Block)
    (ht : Tiled h (pre ++ mid ++ post))
    (same : extent Block.size mid' = extent Block.size mid)
    (aligned : ∀ c ∈ mid', c.size % 8 = 0) (large : ∀ c ∈ mid', 16 ≤ c.size)
    (held : ∀ x c, (x, c) ∈ located (h.memStartBrk + 16 + extent Block.size pre) mid' → Holds m x c)
    (kept : ∀ a, (a < h.memStartBrk + 16 + extent Block.size pre - 4 ∨
      h.memStartBrk + 16 + extent Block.size pre + extent Block.size mid - 4 ≤ a) →
      m a = h.mem a) :
    Tiled { h with mem := m } (pre ++ mid' ++ post) := by
  have hb := ht.brk
  simp only [extent_append] at hb
  have unmoved : ∀ p, (p + 4 ≤ h.memStartBrk + 16 + extent Block.size pre - 4 ∨
      h.memStartBrk + 16 + extent Block.size pre + extent Block.size mid - 4 ≤ p) →
      get m p = get h.mem p :=
    fun p hp => word_congr fun a _ _ => kept a (by omega)
  refine
    { valid := ht.valid.setMem m
      listp := ht.listp
      prologueHeader := (unmoved _ (by simp only; omega)).trans ht.prologueHeader
      prologueFooter := (unmoved _ (by simp only; omega)).trans ht.prologueFooter
      aligned := ?_
      large := ?_
      blocks := ?_
      brk := by simp only [extent_append, same]; omega
      epilogueHeader := (unmoved _ (by simp only; omega)).trans ht.epilogueHeader }
  · intro c hc
    simp only [List.mem_append] at hc
    rcases hc with (hc | hc) | hc
    · exact ht.aligned c (by simp [hc])
    · exact aligned c hc
    · exact ht.aligned c (by simp [hc])
  · intro c hc
    simp only [List.mem_append] at hc
    rcases hc with (hc | hc) | hc
    · exact ht.large c (by simp [hc])
    · exact large c hc
    · exact ht.large c (by simp [hc])
  · intro x c hc
    simp only [located, placed_append, List.mem_append, extent_append, same] at hc
    rcases hc with (hc | hc) | hc
    · have old := ht.blocks x c (by simp [located, hc])
      have big := ht.large c (by simp [placed_mem hc])
      have := placed_bounds hc
      exact ⟨(unmoved _ (by omega)).trans old.header, (unmoved _ (by omega)).trans old.footer⟩
    · exact held x c hc
    · have old := ht.blocks x c (by simp [located, Nat.add_assoc] at hc ⊢; simp [hc])
      have big := ht.large c (by simp [placed_mem hc])
      have := placed_bounds hc
      exact ⟨(unmoved _ (by omega)).trans old.header, (unmoved _ (by omega)).trans old.footer⟩

end

end MallocLab.FirstFit
