import MallocLab.Explicit.Model
import MallocLab.Memory.LinkedList
import MallocLab.Blocks

/-!
# Heaps of the explicit allocator

The blocks lie between a prologue of 24 bytes and an epilogue header in the last word of the heap. The
list runs from `freeListp` to the prologue; the links of a node are 8 bytes apart.
-/

namespace MallocLab.Explicit
open Memory Logged

def sizeAt (m : Mem) (p : Nat) : Nat := word m p &&& 0xFFFFFFF8
def allocAt (m : Mem) (p : Nat) : Nat := word m p &&& 0x1
def nextAt (m : Mem) (bp : Nat) : Nat := word m (bp + 8)
def prevAt (m : Mem) (bp : Nat) : Nat := word m bp

structure Framed (m : Mem) (x : Nat) (b : Block) : Prop where
  header : word m (x - 4) = b.word
  footer : word m (x + b.size - 8) = b.word

abbrev prologue : Block := ⟨minBsize, true⟩

def State.first (s : State) : Nat := s.memStartBrk + 32

structure Tiled (s : State) (bs : List Block) : Prop where
  valid : s.Valid
  listp : s.heapListp = s.memStartBrk + 8
  prologue : Framed s.mem s.heapListp prologue
  sizes : ∀ b ∈ bs, b.size % 8 = 0 ∧ 0 < b.size
  blocks : ∀ x b, (x, b) ∈ located s.first bs → Framed s.mem x b
  ends : s.first + extent Block.size bs = s.memBrk
  epilogue : word s.mem (s.memBrk - 4) = epilogue.word

abbrev Chain (s : State) (xs : List Nat) : Prop :=
  Segment (nextAt s.mem) (prevAt s.mem) null s.freeListp xs s.heapListp

/-- The list visits every free block exactly once. -/
structure WellFormed (s : State) (bs : List Block) : Prop where
  tiled : Tiled s bs
  list : ∃ xs, Chain s xs ∧ xs.Nodup ∧ ∀ x, x ∈ xs ↔ ∃ n, (x, ⟨n, false⟩) ∈ located s.first bs

/-! ## Rules -/

section
variable {ok : Event → Prop} {α : Type} {s s' : State} {a : α} {u : Unit} {p v bp : Nat} {line : String}
  {g : Nat → Prog α} {k : Unit → Prog α}

theorem does_get_bind :
    Does ok (get p >>= g) s a s' ↔ ok (.access p) ∧ Does ok (g (word s.mem p)) s a s' := by
  rw [get, does_assoc, does_note_bind, does_read_bind]

theorem does_put_bind :
    Does ok (put p v >>= k) s a s' ↔ ok (.access p) ∧ Does ok (k ()) (s.store p v) a s' := by
  rw [put, does_assoc, does_note_bind, does_change_bind]

theorem does_put : Does ok (put p v) s u s' ↔ ok (.access p) ∧ s' = s.store p v := by
  rw [put, does_note_bind, does_change]

theorem does_getSize_bind :
    Does ok (getSize p >>= g) s a s' ↔ ok (.access p) ∧ Does ok (g (sizeAt s.mem p)) s a s' := by
  rw [getSize, does_assoc, does_get_bind, does_pure_bind]
  rfl

theorem does_getAlloc_bind :
    Does ok (getAlloc p >>= g) s a s' ↔ ok (.access p) ∧ Does ok (g (allocAt s.mem p)) s a s' := by
  rw [getAlloc, does_assoc, does_get_bind, does_pure_bind]
  rfl

theorem does_ftrp_bind :
    Does ok (ftrp bp >>= g) s a s' ↔
      ok (.access (hdrp bp)) ∧ Does ok (g (bp + sizeAt s.mem (hdrp bp) - 8)) s a s' := by
  rw [ftrp, does_assoc, does_getSize_bind, does_pure_bind]

theorem does_nextBlkp_bind :
    Does ok (nextBlkp bp >>= g) s a s' ↔
      ok (.access (hdrp bp)) ∧ Does ok (g (bp + sizeAt s.mem (hdrp bp))) s a s' := by
  rw [nextBlkp, does_assoc, does_getSize_bind, does_pure_bind]

theorem does_nextFreep_bind :
    Does ok (nextFreep bp >>= g) s a s' ↔
      ok (.access (bp + 8)) ∧ Does ok (g (nextAt s.mem bp)) s a s' := does_get_bind

theorem does_freeListp_bind :
    Does ok (freeListp >>= g) s a s' ↔ Does ok (g s.freeListp) s a s' := does_read_bind

theorem does_heapListp_bind :
    Does ok (heapListp >>= g) s a s' ↔ Does ok (g s.heapListp) s a s' := does_read_bind

theorem does_print_bind :
    Does ok (print line >>= k) s a s' ↔ ok (.print line) ∧ Does ok (k ()) s a s' := does_note_bind

end

/-! ## Headers -/

theorem Block.sizeAt_word {m : Mem} {p : Nat} {b : Block} (h : word m p = b.word) (h8 : b.size % 8 = 0) :
    sizeAt m p = b.size := by
  unfold sizeAt
  rw [h, and_mask8 (by rw [← h]; exact word_lt m p)]
  unfold Block.word
  cases b.alloc <;> simp only [Bool.toNat_true, Bool.toNat_false] <;> omega

theorem Block.allocAt_word {m : Mem} {p : Nat} {b : Block} (h : word m p = b.word)
    (h8 : b.size % 8 = 0) : allocAt m p = b.alloc.toNat := by
  unfold allocAt
  rw [h, Nat.and_one_is_mod]
  unfold Block.word
  cases b.alloc <;> simp only [Bool.toNat_true, Bool.toNat_false] <;> omega

theorem pack_eq {size : Nat} (alloc : Bool) (h8 : size % 8 = 0) :
    pack size alloc.toNat = Block.word ⟨size, alloc⟩ := by
  unfold pack
  rw [or_eq_add h8 (by cases alloc <;> decide)]
  rfl

theorem hdrp_eq {bp : Nat} (low : 4 ≤ bp) (small : bp < 2 ^ 32) : hdrp bp = bp - 4 := by
  unfold hdrp
  exact sub32_eq small low

/-! ## Blocks of a tiled heap -/

section
variable {s : State} {bs : List Block} {x : Nat} {b : Block}

theorem Tiled.near (t : Tiled s bs) (mem : (x, b) ∈ located s.first bs) :
    s.first ≤ x ∧ x + b.size ≤ s.memBrk := by
  have bounds := placed_bounds mem
  rw [t.ends] at bounds
  exact bounds

theorem Tiled.sizeAt (t : Tiled s bs) (mem : (x, b) ∈ located s.first bs) :
    sizeAt s.mem (x - 4) = b.size :=
  Block.sizeAt_word (t.blocks x b mem).header (t.sizes b (placed_mem mem)).1

theorem Tiled.allocAt (t : Tiled s bs) (mem : (x, b) ∈ located s.first bs) :
    allocAt s.mem (x - 4) = b.alloc.toNat :=
  Block.allocAt_word (t.blocks x b mem).header (t.sizes b (placed_mem mem)).1

theorem Tiled.hdrp (t : Tiled s bs) (mem : (x, b) ∈ located s.first bs) : hdrp x = x - 4 := by
  have near := t.near mem
  have high := t.valid.high
  have space := t.valid.space
  unfold State.first at near
  exact hdrp_eq (by omega) (by omega)

end

def oneFree : State where
  mem := ofWords 4096 [0, 25, 4128, 0, 0, 0, 25, 32, 0, 0, 4104, 0, 0, 0, 32, 1]
  memStartBrk := 4096
  memBrk := 4160
  memMaxAddr := 4096 + maxHeap
  heapListp := 4104
  freeListp := 4128

theorem oneFree_tiled : Tiled oneFree [⟨32, false⟩] where
  valid := ⟨by decide, by decide, by decide, rfl, by decide⟩
  listp := rfl
  prologue := ⟨by decide +kernel, by decide +kernel⟩
  sizes := by decide
  blocks := by
    intro x b mem
    obtain ⟨rfl, rfl⟩ := by simpa using mem
    exact ⟨by decide +kernel, by decide +kernel⟩
  ends := rfl
  epilogue := by decide +kernel

theorem oneFree_wellFormed : WellFormed oneFree [⟨32, false⟩] where
  tiled := oneFree_tiled
  list := by
    refine ⟨[4128], ⟨rfl, by decide, by decide +kernel, by decide +kernel⟩, by decide, fun x => ?_⟩
    simp [State.first, oneFree]

end MallocLab.Explicit
