import MallocLab.FirstFit.WellFormed

/-!
# Boundary-tag coalescing and placement

`coalesce` joins a free block with exactly its free neighbours, `place` carves a request out of
a free block. Both write only between the start and the end of the blocks they touch.
-/

namespace MallocLab.FirstFit
open Memory

/-- `m'` differs from `m` by the header and footer of a block `b` at `x` and by what lies between
them. -/
structure Marks (m m' : Mem) (x : Nat) (b : Block) : Prop where
  held : Holds m' x b
  kept : ∀ a, (a < x - 4 ∨ x + b.size - 4 ≤ a) → m' a = m a

section
variable {m : Mem} {x : Nat} {b : Block}

theorem Holds.congr {m' : Mem} (held : Holds m x b) (hx : 4 ≤ x) (big : 16 ≤ b.size)
    (same : ∀ a, x - 4 ≤ a → a < x + b.size - 4 → m' a = m a) : Holds m' x b :=
  ⟨(word_congr fun a _ _ => same a (by omega) (by omega)).trans held.header,
    (word_congr fun a _ _ => same a (by omega) (by omega)).trans held.footer⟩

def stamp (m : Mem) (x : Nat) (b : Block) : Mem := put (put m (x - 4) b.word) (x + b.size - 8) b.word

theorem marks_header_footer (hx : 4 ≤ x) (h8 : b.size % 8 = 0) (big : 16 ≤ b.size)
    (small : b.size < 2 ^ 32) : Marks m (stamp m x b) x b := by
  have hw := Block.word_lt h8 small
  refine ⟨⟨?_, word_setWord_self _ _ hw⟩, fun a ha => ?_⟩
  · exact (word_setWord_of_apart (by omega)).trans (word_setWord_self _ _ hw)
  · exact (setWord_of_outside (by omega)).trans (setWord_of_outside (by omega))

theorem marks_footer_header (hx : 4 ≤ x) (h8 : b.size % 8 = 0) (big : 16 ≤ b.size)
    (small : b.size < 2 ^ 32) :
    Marks m (put (put m (x + b.size - 8) b.word) (x - 4) b.word) x b := by
  have hw := Block.word_lt h8 small
  refine ⟨⟨word_setWord_self _ _ hw, ?_⟩, fun a ha => ?_⟩
  · exact (word_setWord_of_apart (by omega)).trans (word_setWord_self _ _ hw)
  · exact (setWord_of_outside (by omega)).trans (setWord_of_outside (by omega))

end

section
variable {h : Heap} {pre mid post : List Block} {b : Block} {m : Mem}

theorem Tiled.merge (ht : Tiled h (pre ++ mid ++ post)) (ne : mid ≠ [])
    (size : b.size = extent Block.size mid)
    (marked : Marks h.mem m (h.memStartBrk + 16 + extent Block.size pre) b) :
    Tiled { h with mem := m } (pre ++ b :: post) := by
  have aligned : b.size % 8 = 0 := by
    have all : ∀ c ∈ mid, c.size % 8 = 0 := fun c hc => ht.aligned c (by simp [hc])
    rw [size]
    clear * - all
    induction mid with
    | nil => rfl
    | cons c mid ih =>
        have := all c (by simp)
        have := ih fun d hd => all d (by simp [hd])
        rw [extent_cons]
        omega
  have large : 16 ≤ b.size := by
    obtain ⟨c, mid, rfl⟩ := List.exists_cons_of_ne_nil ne
    have := ht.large c (by simp)
    rw [size, extent_cons]
    omega
  have := ht.replace [b] (by simp [size]) (by simpa using aligned) (by simpa using large)
    (by simpa using marked.held) (fun a ha => marked.kept a (by omega))
  simpa using this

end

/-! ## Reading back a word just written -/

section
variable {m : Mem} {p q v : Nat}

theorem getSize_put_apart (h : p + 4 ≤ q ∨ q + 4 ≤ p) :
    getSize (put m p v) q = getSize m q := by
  simp only [getSize, get, put, word_setWord_of_apart h]

theorem getSize_put_self {b : Block} (h8 : b.size % 8 = 0) (hs : b.size < 2 ^ 32) :
    getSize (put m p b.word) p = b.size :=
  getSize_eq (word_setWord_self _ _ (Block.word_lt h8 hs)) h8

end

/-! ## Coalescing -/

structure Around (m : Mem) (x n : Nat) (p c : Block) : Prop where
  held : Holds m x ⟨n, false⟩
  prevFooter : get m (x - 8) = p.word
  prevHeader : get m (x - p.size - 4) = p.word
  nextHeader : get m (x + n - 4) = c.word
  nextFooter : c.alloc = false → get m (x + n + c.size - 8) = c.word
  aligned : p.size % 8 = 0 ∧ n % 8 = 0 ∧ c.size % 8 = 0
  large : 8 ≤ p.size ∧ 16 ≤ n ∧ (c.alloc = false → 16 ≤ c.size)
  low : p.size + 4 ≤ x
  high : x + n + c.size < 2 ^ 32

def joinedAt (x : Nat) (p : Block) : Nat := if p.alloc then x else x - p.size

def joinedSize (n : Nat) (p c : Block) : Nat :=
  (if p.alloc then 0 else p.size) + n + (if c.alloc then 0 else c.size)

theorem coalesce_marks {m : Mem} {x n : Nat} {p c : Block} (near : Around m x n p c) :
    ∃ m', coalesce m x = (joinedAt x p, m') ∧
      Marks m m' (joinedAt x p) ⟨joinedSize n p c, false⟩ := by
  obtain ⟨held, pftr, phdr, chdr, cftr, ⟨p8, n8, c8⟩, ⟨pbig, n16, c16⟩, low, high⟩ := near
  -- the fields that the code reads before it writes
  have size : getSize m (x - 4) = n := getSize_eq held.header n8
  have prevSize : getSize m (x - 8) = p.size := getSize_eq pftr p8
  have prevHeader : getSize m (x - p.size - 4) = p.size := getSize_eq phdr p8
  have prevAlloc : getAlloc m (x - 8) = p.alloc.toNat := getAlloc_eq pftr p8
  have nextSize : getSize m (x + n - 4) = c.size := getSize_eq chdr c8
  have nextAlloc : getAlloc m (x + n - 4) = c.alloc.toNat := getAlloc_eq chdr c8
  have prevFooter : x - p.size + p.size - 8 = x - 8 := by omega
  simp only [coalesce, ftrp, prevBlkp, nextBlkp, hdrp, prevSize, prevHeader, prevFooter, prevAlloc,
    size, nextAlloc, nextSize, wsize, dsize]
  cases hp : p.alloc <;> cases hc : c.alloc <;>
    simp only [Bool.toNat_true, Bool.toNat_false, ne_eq, not_true_eq_false, not_false_eq_true,
      one_ne_zero, and_self, and_true, and_false, if_true, if_false, joinedAt, joinedSize,
      hp, hc, Bool.false_eq_true]
  case true.true =>
    exact ⟨m, rfl, by simpa using held, fun _ _ => rfl⟩
  case true.false =>
    have total : pack (add32 n c.size) 0 = (⟨n + c.size, false⟩ : Block).word := by
      rw [add32_eq (by omega)]
      exact pack_eq (by omega) false
    rw [total, getSize_put_self (by simp only; omega) (by simp only; omega)]
    refine ⟨_, rfl, ?_⟩
    rw [Nat.zero_add]
    exact marks_header_footer (by omega) (by simp only; omega) (by simp only; omega)
      (by simp only; omega)
  case false.true =>
    have total : pack (add32 n p.size) 0 = (⟨p.size + n, false⟩ : Block).word := by
      rw [add32_eq (by omega), Nat.add_comm]
      exact pack_eq (by omega) false
    have footer : x + n - 8 = x - p.size + (⟨p.size + n, false⟩ : Block).size - 8 := by
      simp only
      omega
    simp (disch := omega) only [total, getSize_put_apart, prevSize]
    refine ⟨_, rfl, ?_⟩
    rw [Nat.add_zero, footer]
    exact marks_footer_header (by omega) (by simp only; omega) (by simp only; omega)
      (by simp only; omega)
  case false.false =>
    have nextFooter : getSize m (x + n + c.size - 8) = c.size := getSize_eq (cftr hc) c8
    have total : pack (add32 n (add32 p.size c.size)) 0 =
        (⟨p.size + n + c.size, false⟩ : Block).word := by
      rw [show add32 p.size c.size = p.size + c.size from add32_eq (by omega), add32_eq (by omega),
        Nat.add_left_comm, ← Nat.add_assoc]
      exact pack_eq (by omega) false
    have footer : x + n + c.size - 8 =
        x - p.size + (⟨p.size + n + c.size, false⟩ : Block).size - 8 := by
      simp only
      omega
    have := c16 hc
    simp (disch := omega) only [nextFooter, total, getSize_put_apart, size, nextSize, prevSize]
    refine ⟨_, rfl, ?_⟩
    rw [footer]
    exact marks_header_footer (by omega) (by simp only; omega) (by simp only; omega)
      (by simp only; omega)

section
variable {h : Heap} {pre post : List Block} {b : Block} {n : Nat}

theorem Tiled.around (ht : Tiled h (pre ++ ⟨n, false⟩ :: post)) :
    Around h.mem (h.memStartBrk + 16 + extent Block.size pre) n (before pre) (after post) := by
  have ht' : Tiled h ((pre ++ [⟨n, false⟩]) ++ post) := by simpa using ht
  obtain ⟨p8, pfit, pbig, pftr, phdr⟩ := ht.before_cut
  obtain ⟨c8, cfit, chdr⟩ := ht'.after_cut
  obtain ⟨bound, space⟩ := ht.bound
  have n16 := ht.large ⟨n, false⟩ (by simp)
  simp only [extent_append, extent_cons, extent_nil, Nat.add_zero, ← Nat.add_assoc] at chdr bound
  refine ⟨ht.at, pftr, phdr, chdr, ?_, ⟨p8, ht.aligned ⟨n, false⟩ (by simp), c8⟩,
    ⟨pbig, n16, ?_⟩, by omega, by omega⟩
  · intro free
    cases post with
    | nil => cases free
    | cons c post =>
        have held := ht'.at.footer
        simpa only [extent_append, extent_cons, extent_nil, Nat.add_zero, ← Nat.add_assoc,
          after_cons] using held
  · intro free
    cases post with
    | nil => cases free
    | cons c post => exact ht.large c (by simp)

theorem joinedAt_before (a : Nat) :
    joinedAt (a + extent Block.size pre) (before pre) = a + extent Block.size (keptBefore pre) := by
  have := extent_keptBefore pre
  cases hb : (before pre).alloc <;> simp only [joinedAt, freeBefore, keptBefore, hb] at this ⊢
  all_goals simp only [Bool.false_eq_true, if_true, if_false] at this ⊢
  omega

theorem coalesce_spec (ht : Tiled h (pre ++ ⟨n, false⟩ :: post)) :
    ∃ m, coalesce h.mem (h.memStartBrk + 16 + extent Block.size pre) =
        (h.memStartBrk + 16 + extent Block.size (keptBefore pre), m) ∧
      Tiled { h with mem := m } (join pre n post) ∧
      ∀ a, (a < h.memStartBrk + 16 + extent Block.size (keptBefore pre) - 4 ∨
        h.memStartBrk + 16 + extent Block.size pre + n + freeAfter post - 4 ≤ a) →
        m a = h.mem a := by
  obtain ⟨m, run, marked⟩ := coalesce_marks ht.around
  have size : joinedSize n (before pre) (after post) = freeBefore pre + n + freeAfter post := rfl
  rw [joinedAt_before, size] at marked
  rw [joinedAt_before] at run
  have before_split := extent_keptBefore pre
  refine ⟨m, run, ?_, fun a ha => marked.kept a (by simp only; omega)⟩
  -- the joined block replaces the free block and its free neighbours
  rw [← kept_absorbed] at ht
  exact ht.merge (by simp [absorbed]) (by rw [extent_absorbed]) marked

/-! ## Placement -/

theorem place_split {m : Mem} {x asize n : Nat} (header : getSize m (x - 4) = n)
    (small : n < 2 ^ 32) (n8 : n % 8 = 0) (a8 : asize % 8 = 0) (big : 16 ≤ asize)
    (fit : asize ≤ n) (room : 16 ≤ n - asize) (hx : 4 ≤ x) :
    place m x asize = stamp (stamp m x ⟨asize, true⟩) (x + asize) ⟨n - asize, false⟩ := by
  have taken : pack asize 1 = (⟨asize, true⟩ : Block).word := pack_eq a8 true
  have left : pack (n - asize) 0 = (⟨n - asize, false⟩ : Block).word := pack_eq (by omega) false
  have rest : sub32 n asize = n - asize := sub32_eq small fit
  simp only [place, hdrp, ftrp, nextBlkp, wsize, dsize, overhead, header, rest, ge_iff_le,
    Nat.reduceAdd, if_pos room, taken, left]
  simp (disch := first | omega | (simp only; omega)) only [getSize_put_self, getSize_put_apart]
  rfl

theorem place_whole {m : Mem} {x asize n : Nat} (header : getSize m (x - 4) = n)
    (small : n < 2 ^ 32) (n8 : n % 8 = 0) (fit : asize ≤ n) (room : ¬ 16 ≤ n - asize) :
    place m x asize = stamp m x ⟨n, true⟩ := by
  have taken : pack n 1 = (⟨n, true⟩ : Block).word := pack_eq n8 true
  have rest : sub32 n asize = n - asize := sub32_eq small fit
  simp only [place, hdrp, ftrp, wsize, dsize, overhead, header, rest, ge_iff_le, Nat.reduceAdd,
    if_neg room, taken]
  simp (disch := first | omega | (simp only; omega)) only [getSize_put_self]
  rfl

theorem place_spec {asize : Nat} (ht : Tiled h (pre ++ b :: post)) (a8 : asize % 8 = 0)
    (a16 : 16 ≤ asize) (fit : asize ≤ b.size) :
    Tiled { h with mem := place h.mem (h.memStartBrk + 16 + extent Block.size pre) asize }
        (pre ++ carve asize b ++ post) ∧
      ∀ a, (a < h.memStartBrk + 16 + extent Block.size pre - 4 ∨
        h.memStartBrk + 16 + extent Block.size pre + b.size - 4 ≤ a) →
        place h.mem (h.memStartBrk + 16 + extent Block.size pre) asize a = h.mem a := by
  have ht' : Tiled h (pre ++ [b] ++ post) := by simpa using ht
  have b8 := ht.aligned b (by simp)
  have b16 := ht.large b (by simp)
  obtain ⟨bound, space⟩ := ht.bound
  rw [extent_cons] at bound
  have header := getSize_eq ht.at.header b8
  by_cases room : 16 ≤ b.size - asize
  · rw [place_split header (by omega) b8 a8 a16 fit room (by omega)]
    generalize hx : h.memStartBrk + 16 + extent Block.size pre = x at *
    have first : Marks h.mem _ x ⟨asize, true⟩ :=
      marks_header_footer (by omega) a8 a16 (by simp only; omega)
    have second : Marks (stamp h.mem x ⟨asize, true⟩) _ (x + asize) ⟨b.size - asize, false⟩ :=
      marks_header_footer (by omega) (by simp only; omega) room (by simp only; omega)
    have kept : ∀ a, (a < x - 4 ∨ x + b.size - 4 ≤ a) →
        stamp (stamp h.mem x ⟨asize, true⟩) (x + asize) ⟨b.size - asize, false⟩ a = h.mem a :=
      fun a ha => (second.kept a (by simp only; omega)).trans (first.kept a (by simp only; omega))
    refine ⟨ht'.replace (carve asize b) (by simp [extent_carve fit]) ?_ ?_ ?_ ?_, kept⟩
    · simp only [carve, if_pos room, List.mem_cons, List.not_mem_nil, or_false, forall_eq_or_imp,
        forall_eq]
      omega
    · simp only [carve, if_pos room, List.mem_cons, List.not_mem_nil, or_false, forall_eq_or_imp,
        forall_eq]
      omega
    · intro y c hc
      simp only [located, carve, if_pos room, placed_cons, placed_nil, List.mem_cons, Prod.mk.injEq,
        List.not_mem_nil, or_false, hx] at hc
      rcases hc with ⟨rfl, rfl⟩ | ⟨rfl, rfl⟩
      · exact first.held.congr (by omega) a16 fun a _ _ => second.kept a (by simp only at *; omega)
      · exact second.held
    · simpa [hx] using kept
  · rw [place_whole header (by omega) b8 fit room]
    have marked : Marks h.mem _ (h.memStartBrk + 16 + extent Block.size pre) ⟨b.size, true⟩ :=
      marks_header_footer (by omega) b8 b16 (by simp only; omega)
    refine ⟨?_, marked.kept⟩
    simpa [carve, if_neg room] using ht'.merge (by simp) (by simp) marked

end

end MallocLab.FirstFit
