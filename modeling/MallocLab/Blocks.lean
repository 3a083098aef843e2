import MallocLab.Memory.Tiling

/-!
# Blocks of a heap

Both allocators see the heap as the list of its blocks in address order, between an allocated
prologue and an allocated epilogue.
-/

namespace MallocLab
open Memory

structure Block where
  size : Nat
  alloc : Bool
  deriving DecidableEq, Repr

def Block.word (b : Block) : Nat := b.size + b.alloc.toNat

def Block.Fits (asize : Nat) (b : Block) : Prop := b.alloc = false ∧ asize ≤ b.size

instance (asize : Nat) (b : Block) : Decidable (b.Fits asize) :=
  inferInstanceAs (Decidable (_ ∧ _))

abbrev prologue : Block := ⟨8, true⟩
abbrev epilogue : Block := ⟨0, true⟩

/-- Positions of the blocks, the first at `a`. -/
abbrev located (a : Nat) (bs : List Block) : List (Nat × Block) := placed Block.size a bs

def allocated (a : Nat) (bs : List Block) : List (Nat × Block) :=
  (located a bs).filter fun e => e.2.alloc

def before (pre : List Block) : Block := pre.getLast?.getD prologue

def after (post : List Block) : Block := post.head?.getD epilogue

def freeBefore (pre : List Block) : Nat := if (before pre).alloc then 0 else (before pre).size
def keptBefore (pre : List Block) : List Block := if (before pre).alloc then pre else pre.dropLast
def freeAfter (post : List Block) : Nat := if (after post).alloc then 0 else (after post).size
def keptAfter (post : List Block) : List Block := if (after post).alloc then post else post.tail

/-- A free block of `n` bytes between `pre` and `post`, joined with its free neighbours. -/
def join (pre : List Block) (n : Nat) (post : List Block) : List Block :=
  keptBefore pre ++ ⟨freeBefore pre + n + freeAfter post, false⟩ :: keptAfter post

theorem Block.word_lt {b : Block} (hb : b.size % 8 = 0) (hs : b.size < 2 ^ 32) : b.word < 2 ^ 32 := by
  unfold Block.word
  cases b.alloc <;> simp only [Bool.toNat_true, Bool.toNat_false] <;> omega

@[simp] theorem before_nil : before [] = prologue := rfl

@[simp] theorem before_concat (pre : List Block) (b : Block) : before (pre ++ [b]) = b := by
  simp [before]

@[simp] theorem after_nil : after [] = epilogue := rfl

@[simp] theorem after_cons (b : Block) (post : List Block) : after (b :: post) = b := rfl

theorem mem_allocated {a x : Nat} {b : Block} {bs : List Block} :
    (x, b) ∈ allocated a bs ↔ (x, b) ∈ located a bs ∧ b.alloc = true := by
  simp [allocated]

theorem allocated_nodup {a : Nat} {bs : List Block} (pos : ∀ c ∈ bs, 0 < c.size) :
    ((allocated a bs).map Prod.fst).Nodup :=
  (placed_nodup pos).sublist (List.filter_sublist.map _)

@[simp] theorem allocated_append (a : Nat) (bs cs : List Block) :
    allocated a (bs ++ cs) = allocated a bs ++ allocated (a + extent Block.size bs) cs := by
  simp [allocated, located]

theorem allocated_cons_true (a : Nat) {b : Block} (bs : List Block) (h : b.alloc = true) :
    allocated a (b :: bs) = (a, b) :: allocated (a + b.size) bs := by
  simp [allocated, located, h]

theorem allocated_cons_false (a : Nat) {b : Block} (bs : List Block) (h : b.alloc = false) :
    allocated a (b :: bs) = allocated (a + b.size) bs := by
  simp [allocated, located, h]

@[simp] theorem allocated_nil (a : Nat) : allocated a [] = [] := rfl

/-! ## Neighbours -/

theorem keptBefore_append (pre : List Block) :
    keptBefore pre ++ (if (before pre).alloc then [] else [before pre]) = pre := by
  rcases pre.eq_nil_or_concat' with rfl | ⟨pre, b, rfl⟩
  · rfl
  · cases h : b.alloc <;> simp [keptBefore, h]

theorem cons_keptAfter (post : List Block) :
    (if (after post).alloc then [] else [after post]) ++ keptAfter post = post := by
  cases post with
  | nil => rfl
  | cons b post => cases h : b.alloc <;> simp [keptAfter, h]

theorem extent_keptBefore (pre : List Block) : extent Block.size (keptBefore pre) + freeBefore pre = extent Block.size pre := by
  conv_rhs => rw [← keptBefore_append pre]
  cases h : (before pre).alloc <;> simp [freeBefore, h]

theorem extent_keptAfter (post : List Block) : freeAfter post + extent Block.size (keptAfter post) = extent Block.size post := by
  conv_rhs => rw [← cons_keptAfter post]
  cases h : (after post).alloc <;> simp [freeAfter, h]

def absorbed (pre : List Block) (b : Block) (post : List Block) : List Block :=
  (if (before pre).alloc then [] else [before pre]) ++ b ::
    (if (after post).alloc then [] else [after post])

theorem kept_absorbed (pre : List Block) (b : Block) (post : List Block) :
    keptBefore pre ++ absorbed pre b post ++ keptAfter post = pre ++ b :: post := by
  conv_rhs => rw [← keptBefore_append pre, ← cons_keptAfter post]
  simp [absorbed]

theorem extent_absorbed (pre : List Block) (b : Block) (post : List Block) :
    extent Block.size (absorbed pre b post) = freeBefore pre + b.size + freeAfter post := by
  cases hb : (before pre).alloc <;> cases ha : (after post).alloc <;>
    simp [absorbed, freeBefore, freeAfter, hb, ha]
  all_goals omega

theorem located_absorbed {a x : Nat} {pre post : List Block} {b c : Block}
    (h : (x, c) ∈ located a (absorbed pre b post)) (alloc : c.alloc = true) :
    x = a + freeBefore pre := by
  simp only [located, absorbed, placed_append, placed_cons, List.mem_append, List.mem_cons,
    Prod.mk.injEq] at h
  rcases h with h | ⟨rfl, -⟩ | h
  · cases hb : (before pre).alloc
    · obtain ⟨rfl, rfl⟩ := by simpa [hb] using h
      rw [hb] at alloc
      cases alloc
    · simp [hb] at h
  · cases hb : (before pre).alloc <;> simp [freeBefore, hb]
  · cases ha : (after post).alloc
    · obtain ⟨-, rfl⟩ := by simpa [ha] using h
      rw [ha] at alloc
      cases alloc
    · simp [ha] at h

theorem extent_join (pre : List Block) (n : Nat) (post : List Block) :
    extent Block.size (join pre n post) = extent Block.size pre + n + extent Block.size post := by
  have hb := extent_keptBefore pre
  have ha := extent_keptAfter post
  simp only [join, extent_append, extent_cons]
  omega

theorem mem_keptBefore {pre : List Block} {b : Block} (h : b ∈ keptBefore pre) : b ∈ pre := by
  rw [← keptBefore_append pre]
  exact List.mem_append_left _ h

theorem mem_keptAfter {post : List Block} {b : Block} (h : b ∈ keptAfter post) : b ∈ post := by
  rw [← cons_keptAfter post]
  exact List.mem_append_right _ h

theorem allocated_keptBefore (a : Nat) (pre : List Block) :
    allocated a (keptBefore pre) = allocated a pre := by
  conv_rhs => rw [← keptBefore_append pre]
  cases h : (before pre).alloc
  · simp [allocated_cons_false _ [] h]
  · simp

theorem allocated_keptAfter (a : Nat) (post : List Block) :
    allocated (a + freeAfter post) (keptAfter post) = allocated a post := by
  conv_rhs => rw [← cons_keptAfter post]
  cases h : (after post).alloc
  · simp [freeAfter, h, allocated_cons_false _ (keptAfter post) h]
  · simp [freeAfter, h]

theorem allocated_join (a : Nat) (pre : List Block) (n : Nat) (post : List Block) :
    allocated a (join pre n post) =
      allocated a pre ++ allocated (a + extent Block.size pre + n) post := by
  have split := extent_keptBefore pre
  rw [join, allocated_append, allocated_cons_false _ _ rfl, allocated_keptBefore,
    ← allocated_keptAfter (a + extent Block.size pre + n)]
  congr 2
  simp only
  omega

theorem extent_aligned {bs : List Block} (aligned : ∀ c ∈ bs, c.size % 8 = 0) :
    extent Block.size bs % 8 = 0 := by
  induction bs with
  | nil => rfl
  | cons c bs ih =>
      have := aligned c (by simp)
      have := ih fun d hd => aligned d (by simp [hd])
      rw [extent_cons]
      omega

theorem located_aligned {a x : Nat} {b : Block} {bs : List Block} (aligned : ∀ c ∈ bs, c.size % 8 = 0)
    (mem : (x, b) ∈ located a bs) : x % 8 = a % 8 := by
  obtain ⟨pre, post, rfl, rfl⟩ := mem_placed.mp mem
  have := extent_aligned fun c (hc : c ∈ pre) => aligned c (by simp [hc])
  omega

end MallocLab
