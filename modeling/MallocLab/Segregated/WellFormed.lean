import MallocLab.Segregated.Lists
import MallocLab.Blocks

/-!
# Heaps of the segregated allocator

`Tiled s e bs` says that the blocks `bs` lie between the prologue and an epilogue header in the last
word before `e`. Headers and footers are known by the fields that the macros read, so that any
header may carry a tag. In a well-formed heap `e` is the break and the lists hold exactly the free
blocks.
-/

namespace MallocLab.Segregated
open Memory Logged

structure Framed (m : Mem) (x : Nat) (b : Block) : Prop where
  size : sizeAt m (x - 4) = b.size
  alloc : allocAt m (x - 4) = b.alloc.toNat
  footer : sizeAt m (x + b.size - 8) = b.size

instance (m : Mem) (x : Nat) (b : Block) : Decidable (Framed m x b) :=
  decidable_of_iff (sizeAt m (x - 4) = b.size ∧ allocAt m (x - 4) = b.alloc.toNat ∧
    sizeAt m (x + b.size - 8) = b.size)
    ⟨fun ⟨size, alloc, footer⟩ => ⟨size, alloc, footer⟩, fun framed => ⟨framed.1, framed.2, framed.3⟩⟩

structure Tiled (s : State) (e : Nat) (bs : List Block) : Prop where
  low : 0 < s.memStartBrk
  prologue : Framed s.mem (s.memStartBrk + 8) prologue
  aligned : ∀ b ∈ bs, b.size % 8 = 0
  large : ∀ b ∈ bs, 16 ≤ b.size
  blocks : ∀ x b, (x, b) ∈ located (s.memStartBrk + 16) bs → Framed s.mem x b
  ends : s.memStartBrk + 16 + extent Block.size bs = e
  epilogueSize : sizeAt s.mem (e - 4) = epilogue.size
  epilogueAlloc : allocAt s.mem (e - 4) = epilogue.alloc.toNat
  near : ∀ x b, (x, b) ∈ located (s.memStartBrk + 16) bs → x < 2 ^ 32
  small : extent Block.size bs < 2 ^ 32

/-- The free blocks by address and size. -/
def frees (a : Nat) (bs : List Block) : List (Nat × Nat) :=
  ((located a bs).filter fun e => !e.2.alloc).map fun e => (e.1, e.2.size)

structure WellFormed (s : State) (bs : List Block) : Prop where
  valid : s.Valid
  tiled : Tiled s s.memBrk bs
  lists : Lists s (frees (s.memStartBrk + 16) bs)

/-- Only list heads, link words of `F` and bytes from `a` to `b` differ. -/
structure Only (s s' : State) (F : List (Nat × Nat)) (a b : Nat) : Prop where
  start : s'.memStartBrk = s.memStartBrk
  brk : s'.memBrk = s.memBrk
  max : s'.memMaxAddr = s.memMaxAddr
  listp : s'.heapListp = s.heapListp
  mem : ∀ q, (q < a ∨ b ≤ q) → (∀ f ∈ F, q < f.1 ∨ f.1 + 8 ≤ q) → s'.mem q = s.mem q

/-! ## Free blocks -/

section
variable {a x n : Nat} {b : Block} {bs cs : List Block}

theorem mem_frees : (x, n) ∈ frees a bs ↔ (x, ⟨n, false⟩) ∈ located a bs := by
  simp only [frees, List.mem_map, List.mem_filter, Bool.not_eq_eq_eq_not, Bool.not_true,
    Prod.exists, Prod.mk.injEq]
  constructor
  · rintro ⟨y, ⟨k, alloc⟩, ⟨member, free⟩, rfl, rfl⟩
    simp only at free
    rwa [free] at member
  · exact fun member => ⟨x, ⟨n, false⟩, ⟨member, rfl⟩, rfl, rfl⟩

@[simp] theorem frees_nil : frees a [] = [] := rfl

@[simp] theorem frees_append :
    frees a (bs ++ cs) = frees a bs ++ frees (a + extent Block.size bs) cs := by
  simp [frees, located]

theorem frees_cons_false (free : b.alloc = false) :
    frees a (b :: bs) = (a, b.size) :: frees (a + b.size) bs := by
  simp [frees, located, free]

theorem frees_cons_true (alloc : b.alloc = true) : frees a (b :: bs) = frees (a + b.size) bs := by
  simp [frees, located, alloc]

end

/-! ## Marking a block -/

theorem Framed.congr {m m' : Mem} {x : Nat} {b : Block} (framed : Framed m x b) (low : 4 ≤ x)
    (large : 16 ≤ b.size) (kept : ∀ q, x - 4 ≤ q → q < x + b.size - 4 → m' q = m q) : Framed m' x b := by
  have same : ∀ p, x - 4 ≤ p → p + 4 ≤ x + b.size - 4 → word m' p = word m p :=
    fun p _ _ => word_congr fun q _ _ => kept q (by omega) (by omega)
  refine ⟨?_, ?_, ?_⟩
  · rw [sizeAt, same _ (by omega) (by omega)]
    exact framed.size
  · rw [allocAt, same _ (by omega) (by omega)]
    exact framed.alloc
  · rw [sizeAt, same _ (by omega) (by omega)]
    exact framed.footer

section
variable {s : State} {x : Nat} {b : Block}

structure Marked (s s' : State) (x : Nat) (b : Block) : Prop where
  framed : Framed s'.mem x b
  heads : s'.sgrlists = s.sgrlists
  start : s'.memStartBrk = s.memStartBrk
  brk : s'.memBrk = s.memBrk
  max : s'.memMaxAddr = s.memMaxAddr
  listp : s'.heapListp = s.heapListp
  tag : tagAt s'.mem (x - 4) = tagAt s.mem (x - 4)
  kept : ∀ q, (q < x - 4 ∨ x + b.size - 4 ≤ q) → s'.mem q = s.mem q

theorem marked_header_footer (hx : 4 ≤ x) (h8 : b.size % 8 = 0) (big : 16 ≤ b.size)
    (small : b.size < 2 ^ 32) :
    Marked s ((s.put (x - 4) (pack b.size b.alloc.toNat)).put (x + b.size - 8)
      (pack b.size b.alloc.toNat)) x b := by
  have header := fields_put (m := s.mem) (p := x - 4) (a := b.alloc) h8 small
  have footer := fields_put (m := (s.put (x - 4) (pack b.size b.alloc.toNat)).mem)
    (p := x + b.size - 8) (a := b.alloc) h8 small
  refine ⟨⟨?_, ?_, footer.1⟩, rfl, rfl, rfl, rfl, rfl, ?_, fun q hq => ?_⟩
  · rw [put_mem, sizeAt_store_apart (by omega)]
    exact header.1
  · rw [put_mem, allocAt_store_apart (by omega)]
    exact header.2.1
  · rw [put_mem, tagAt_store_apart (by omega)]
    exact header.2.2
  · rw [put_mem, setWord_of_outside (by omega), put_mem, setWord_of_outside (by omega)]

theorem marked_footer_header (hx : 4 ≤ x) (h8 : b.size % 8 = 0) (big : 16 ≤ b.size)
    (small : b.size < 2 ^ 32) :
    Marked s ((s.put (x + b.size - 8) (pack b.size b.alloc.toNat)).put (x - 4)
      (pack b.size b.alloc.toNat)) x b := by
  have footer := fields_put (m := s.mem) (p := x + b.size - 8) (a := b.alloc) h8 small
  have header := fields_put (m := (s.put (x + b.size - 8) (pack b.size b.alloc.toNat)).mem)
    (p := x - 4) (a := b.alloc) h8 small
  refine ⟨⟨header.1, header.2.1, ?_⟩, rfl, rfl, rfl, rfl, rfl, ?_, fun q hq => ?_⟩
  · rw [put_mem, sizeAt_store_apart (by omega)]
    exact footer.1
  · refine header.2.2.trans ?_
    rw [put_mem, tagAt_store_apart (by omega)]
  · rw [put_mem, setWord_of_outside (by omega), put_mem, setWord_of_outside (by omega)]

theorem framed_notag (hx : 4 ≤ x) (h8 : b.size % 8 = 0) (big : 16 ≤ b.size) (small : b.size < 2 ^ 32) :
    Framed ((s.store (x - 4) (pack b.size b.alloc.toNat)).store (x + b.size - 8)
        (pack b.size b.alloc.toNat)).mem x b ∧
      tagAt ((s.store (x - 4) (pack b.size b.alloc.toNat)).store (x + b.size - 8)
        (pack b.size b.alloc.toNat)).mem (x - 4) = 0 ∧
      ∀ q, (q < x - 4 ∨ x + b.size - 4 ≤ q) →
        ((s.store (x - 4) (pack b.size b.alloc.toNat)).store (x + b.size - 8)
          (pack b.size b.alloc.toNat)).mem q = s.mem q := by
  have header := fields_putNotag (m := s.mem) (p := x - 4) (a := b.alloc) h8 small
  have footer := fields_putNotag (m := (s.store (x - 4) (pack b.size b.alloc.toNat)).mem)
    (p := x + b.size - 8) (a := b.alloc) h8 small
  refine ⟨⟨?_, ?_, footer.1⟩, ?_, fun q hq => ?_⟩
  · rw [store_mem, sizeAt_store_apart (by omega)]
    exact header.1
  · rw [store_mem, allocAt_store_apart (by omega)]
    exact header.2.1
  · rw [store_mem, tagAt_store_apart (by omega)]
    exact header.2.2
  · rw [store_mem, setWord_of_outside (by omega), store_mem, setWord_of_outside (by omega)]

end

/-! ## Tiled heaps -/

section
variable {s s' : State} {e : Nat} {bs pre mid post : List Block} {b : Block}

theorem Tiled.nodes (ht : Tiled s e bs) :
    Nodes s.memStartBrk e (frees (s.memStartBrk + 16) bs) := by
  refine ⟨?_, ?_, ?_⟩
  · refine List.pairwise_map.mpr ((List.Pairwise.imp_of_mem ?_ placed_pairwise).filter _)
    rintro ⟨x, b⟩ ⟨y, c⟩ hb - apart
    have := ht.large b (placed_mem hb)
    simp only at apart ⊢
    omega
  · rintro ⟨x, n⟩ member
    have placed := mem_frees.mp member
    have := placed_bounds placed
    have := ht.large _ (placed_mem placed)
    have := ht.near _ _ placed
    have := ht.ends
    simp only at *
    omega
  · rintro ⟨x, n⟩ member
    have placed := mem_frees.mp member
    have := placed_bounds placed
    have := ht.large _ (placed_mem placed)
    have := ht.small
    simp only at *
    omega

theorem Tiled.headers (ht : Tiled s e bs) :
    ∀ f ∈ frees (s.memStartBrk + 16) bs, sizeAt s.mem (f.1 - 4) = f.2 :=
  fun f member => (ht.blocks f.1 _ (mem_frees.mp member)).size

theorem header_apart {a : Nat} {f : Nat × Nat} (large : ∀ c ∈ pre ++ post, 16 ≤ c.size)
    (hf : f ∈ frees a (pre ++ post)) :
    f.1 + 8 ≤ a + extent Block.size pre - 4 ∨ a + extent Block.size pre ≤ f.1 := by
  have placed := mem_frees.mp hf
  have := large _ (placed_mem placed)
  rw [located, placed_append, List.mem_append] at placed
  rcases placed with placed | placed <;> have := placed_bounds placed <;> simp only at * <;> omega

theorem frees_apart {a n : Nat} {f : Nat × Nat} (large : ∀ c ∈ pre, 16 ≤ c.size)
    (hf : f ∈ frees a pre ++ frees (a + extent Block.size pre + n) post) :
    f.1 + 8 ≤ a + extent Block.size pre - 4 ∨ a + extent Block.size pre + n ≤ f.1 := by
  rcases List.mem_append.mp hf with hf | hf
  · have := placed_bounds (mem_frees.mp hf)
    have := large _ (placed_mem (mem_frees.mp hf))
    simp only at *
    omega
  · exact Or.inr (placed_bounds (mem_frees.mp hf)).1

structure Cut (s : State) (x : Nat) (p c : Block) : Prop where
  prevFooter : sizeAt s.mem (x - 8) = p.size
  prevSize : sizeAt s.mem (x - p.size - 4) = p.size
  prevAlloc : allocAt s.mem (x - p.size - 4) = p.alloc.toNat
  nextSize : sizeAt s.mem (x - 4) = c.size
  nextAlloc : allocAt s.mem (x - 4) = c.alloc.toNat
  prevLow : s.memStartBrk + p.size + 8 ≤ x
  prevLarge : 8 ≤ p.size
  aligned : p.size % 8 = 0 ∧ c.size % 8 = 0

theorem Tiled.cut (ht : Tiled s e (pre ++ post)) :
    Cut s (s.memStartBrk + 16 + extent Block.size pre) (before pre) (after post) := by
  have ends := ht.ends
  have first : sizeAt s.mem (s.memStartBrk + 16 + extent Block.size pre - 8) = (before pre).size ∧
      sizeAt s.mem (s.memStartBrk + 16 + extent Block.size pre - (before pre).size - 4) =
        (before pre).size ∧
      allocAt s.mem (s.memStartBrk + 16 + extent Block.size pre - (before pre).size - 4) =
        (before pre).alloc.toNat ∧ (before pre).size ≤ extent Block.size pre + 8 ∧
      8 ≤ (before pre).size ∧ (before pre).size % 8 = 0 := by
    rcases pre.eq_nil_or_concat' with rfl | ⟨pre, c, rfl⟩
    · exact ⟨ht.prologue.footer, ht.prologue.size, ht.prologue.alloc, by simp, by simp, rfl⟩
    · have large := ht.large c (by simp)
      have framed := ht.blocks (s.memStartBrk + 16 + extent Block.size pre) c
        (mem_placed.mpr ⟨pre, post, by simp, rfl⟩)
      simp only [before_concat, extent_append, extent_cons, extent_nil, Nat.add_zero]
      have back : s.memStartBrk + 16 + (extent Block.size pre + c.size) - c.size - 4 =
          s.memStartBrk + 16 + extent Block.size pre - 4 := by omega
      rw [back, ← Nat.add_assoc]
      exact ⟨framed.footer, framed.size, framed.alloc, by omega, by omega, ht.aligned c (by simp)⟩
  have second : sizeAt s.mem (s.memStartBrk + 16 + extent Block.size pre - 4) = (after post).size ∧
      allocAt s.mem (s.memStartBrk + 16 + extent Block.size pre - 4) = (after post).alloc.toNat ∧
      (after post).size % 8 = 0 := by
    cases post with
    | nil =>
        rw [List.append_nil] at ends
        rw [ends]
        exact ⟨ht.epilogueSize, ht.epilogueAlloc, rfl⟩
    | cons c post =>
        have framed := ht.blocks _ c (mem_placed.mpr ⟨pre, post, rfl, rfl⟩)
        exact ⟨framed.size, framed.alloc, ht.aligned c (by simp)⟩
  obtain ⟨footer, size, alloc, low, large, p8⟩ := first
  obtain ⟨size', alloc', c8⟩ := second
  exact ⟨footer, size, alloc, size', alloc', by omega, large, p8, c8⟩

theorem Tiled.payloads (ht : Tiled s e bs) (start : s'.memStartBrk = s.memStartBrk)
    (kept : ∀ q, s.memStartBrk ≤ q → q < e →
      (∀ x b, (x, b) ∈ located (s.memStartBrk + 16) bs → q < x ∨ x + b.size - 8 ≤ q) →
      s'.mem q = s.mem q) : Tiled s' e bs := by
  have ends := ht.ends
  -- a word inside the heap that overlaps no payload is kept
  have same : ∀ p, s.memStartBrk ≤ p → p + 4 ≤ e → (∀ x b, (x, b) ∈ located (s.memStartBrk + 16) bs →
      p + 4 ≤ x ∨ x + b.size - 8 ≤ p) → word s'.mem p = word s.mem p :=
    fun p low high apart => word_congr fun q _ _ => kept q (by omega) (by omega) fun x b hb => by
      have := apart x b hb
      omega
  have left : ∀ p, s.memStartBrk ≤ p → p + 4 ≤ s.memStartBrk + 16 → word s'.mem p = word s.mem p :=
    fun p low high => same p low (by omega) fun x b hb => by have := placed_bounds hb; omega
  have right : word s'.mem (e - 4) = word s.mem (e - 4) :=
    same _ (by omega) (by omega) fun x b hb => by
      have := placed_bounds hb
      have := ht.large b (placed_mem hb)
      omega
  refine ⟨by rw [start]; exact ht.low, ?_, ht.aligned, ht.large, ?_, by rw [start]; exact ends, ?_, ?_,
    by rw [start]; exact ht.near, ht.small⟩
  · have header := left (s.memStartBrk + 8 - 4) (by omega) (by omega)
    have footer := left (s.memStartBrk + 8 + 8 - 8) (by omega) (by omega)
    rw [start]
    refine ⟨?_, ?_, ?_⟩
    · rw [sizeAt, header]
      exact ht.prologue.size
    · rw [allocAt, header]
      exact ht.prologue.alloc
    · rw [sizeAt, footer]
      exact ht.prologue.footer
  · rw [start]
    intro y c hc
    have framed := ht.blocks y c hc
    have big := ht.large c (placed_mem hc)
    have inner := placed_bounds hc
    have header : word s'.mem (y - 4) = word s.mem (y - 4) :=
      same _ (by omega) (by omega) fun x b hb => by
        have := ht.large b (placed_mem hb)
        rcases placed_apart hb hc with ⟨rfl, rfl⟩ | far | far <;> omega
    have footer : word s'.mem (y + c.size - 8) = word s.mem (y + c.size - 8) :=
      same _ (by omega) (by omega) fun x b hb => by
        have := ht.large b (placed_mem hb)
        rcases placed_apart hb hc with ⟨rfl, rfl⟩ | far | far <;> omega
    refine ⟨?_, ?_, ?_⟩
    · rw [sizeAt, header]
      exact framed.size
    · rw [allocAt, header]
      exact framed.alloc
    · rw [sizeAt, footer]
      exact framed.footer
  · rw [sizeAt, right]
    exact ht.epilogueSize
  · rw [allocAt, right]
    exact ht.epilogueAlloc

theorem Tiled.links {F : List (Nat × Nat)} (ht : Tiled s e bs) (only : LinksOnly s s' F)
    (inside : ∀ f ∈ F, ∃ b, (f.1, b) ∈ located (s.memStartBrk + 16) bs) : Tiled s' e bs := by
  refine ht.payloads only.start fun q _ _ outside => only.mem q fun f hf => ?_
  obtain ⟨b, hb⟩ := inside f hf
  have := outside _ _ hb
  have := ht.large b (placed_mem hb)
  omega

theorem Tiled.replace (mid' : List Block) (ht : Tiled s e (pre ++ mid ++ post))
    (start : s'.memStartBrk = s.memStartBrk)
    (same : extent Block.size mid' = extent Block.size mid)
    (aligned : ∀ c ∈ mid', c.size % 8 = 0) (large : ∀ c ∈ mid', 16 ≤ c.size)
    (framed : ∀ x c, (x, c) ∈ located (s.memStartBrk + 16 + extent Block.size pre) mid' →
      Framed s'.mem x c ∧ x < 2 ^ 32)
    (kept : ∀ q, (q < s.memStartBrk + 16 + extent Block.size pre - 4 ∨
      s.memStartBrk + 16 + extent Block.size pre + extent Block.size mid - 4 ≤ q) →
      s'.mem q = s.mem q) : Tiled s' e (pre ++ mid' ++ post) := by
  have ends := ht.ends
  have small := ht.small
  simp only [extent_append] at ends small
  have unmoved : ∀ p, (p + 4 ≤ s.memStartBrk + 16 + extent Block.size pre - 4 ∨
      s.memStartBrk + 16 + extent Block.size pre + extent Block.size mid - 4 ≤ p) →
      word s'.mem p = word s.mem p := fun p hp => word_congr fun q _ _ => kept q (by omega)
  have size : ∀ p, (p + 4 ≤ s.memStartBrk + 16 + extent Block.size pre - 4 ∨
      s.memStartBrk + 16 + extent Block.size pre + extent Block.size mid - 4 ≤ p) →
      sizeAt s'.mem p = sizeAt s.mem p := fun p hp => by rw [sizeAt, unmoved p hp, sizeAt]
  have alloc : ∀ p, (p + 4 ≤ s.memStartBrk + 16 + extent Block.size pre - 4 ∨
      s.memStartBrk + 16 + extent Block.size pre + extent Block.size mid - 4 ≤ p) →
      allocAt s'.mem p = allocAt s.mem p := fun p hp => by rw [allocAt, unmoved p hp, allocAt]
  have old : ∀ x c, (x, c) ∈ located (s.memStartBrk + 16) (pre ++ mid ++ post) →
      (x + c.size ≤ s.memStartBrk + 16 + extent Block.size pre ∨
        s.memStartBrk + 16 + extent Block.size pre + extent Block.size mid ≤ x) →
      Framed s'.mem x c := fun x c hc outside => by
    have framed := ht.blocks x c hc
    have big := ht.large c (placed_mem hc)
    have := placed_bounds hc
    exact ⟨(size _ (by omega)).trans framed.size, (alloc _ (by omega)).trans framed.alloc,
      (size _ (by omega)).trans framed.footer⟩
  have parts : ∀ x c, (x, c) ∈ located (s.memStartBrk + 16) (pre ++ mid' ++ post) →
      (x, c) ∈ located (s.memStartBrk + 16 + extent Block.size pre) mid' ∨
        ((x, c) ∈ located (s.memStartBrk + 16) (pre ++ mid ++ post) ∧
          (x + c.size ≤ s.memStartBrk + 16 + extent Block.size pre ∨
            s.memStartBrk + 16 + extent Block.size pre + extent Block.size mid ≤ x)) := by
    intro x c hc
    simp only [located, placed_append, List.mem_append, extent_append, same, ← Nat.add_assoc] at hc ⊢
    rcases hc with (hc | hc) | hc
    · exact Or.inr ⟨Or.inl (Or.inl hc), Or.inl (placed_bounds hc).2⟩
    · exact Or.inl hc
    · exact Or.inr ⟨Or.inr hc, Or.inr (placed_bounds hc).1⟩
  refine ⟨by rw [start]; exact ht.low, ?_, ?_, ?_, ?_, ?_, ?_, ?_, ?_, ?_⟩
  · rw [start]
    exact ⟨(size _ (by omega)).trans ht.prologue.size, (alloc _ (by omega)).trans ht.prologue.alloc,
      (size (s.memStartBrk + 8 + 8 - 8) (by omega)).trans ht.prologue.footer⟩
  · intro c hc
    simp only [List.mem_append] at hc
    rcases hc with (hc | hc) | hc
    · exact ht.aligned c (by simp [hc])
    · exact aligned c hc
    · exact ht.aligned c (by simp [hc])
  · intro c hc
    simp only [List.mem_append] at hc
    rcases hc with (hc | hc) | hc
    · exact ht.large c (by simp [hc])
    · exact large c hc
    · exact ht.large c (by simp [hc])
  · rw [start]
    intro x c hc
    rcases parts x c hc with new | ⟨kept, outside⟩
    · exact (framed x c new).1
    · exact old x c kept outside
  · simp only [start, extent_append, same]
    omega
  · exact (size _ (by omega)).trans ht.epilogueSize
  · exact (alloc _ (by omega)).trans ht.epilogueAlloc
  · rw [start]
    intro x c hc
    rcases parts x c hc with new | ⟨kept, -⟩
    · exact (framed x c new).2
    · exact ht.near x c kept
  · simp only [extent_append, same]
    omega

theorem Tiled.merge (ht : Tiled s e (pre ++ mid ++ post)) (ne : mid ≠ [])
    (start : s'.memStartBrk = s.memStartBrk) (size : b.size = extent Block.size mid)
    (framed : Framed s'.mem (s.memStartBrk + 16 + extent Block.size pre) b)
    (kept : ∀ q, (q < s.memStartBrk + 16 + extent Block.size pre - 4 ∨
      s.memStartBrk + 16 + extent Block.size pre + extent Block.size mid - 4 ≤ q) →
      s'.mem q = s.mem q) : Tiled s' e (pre ++ b :: post) := by
  have aligned : b.size % 8 = 0 := by
    rw [size]
    exact extent_aligned fun c hc => ht.aligned c (by simp [hc])
  obtain ⟨c, mid, rfl⟩ := List.exists_cons_of_ne_nil ne
  have large : 16 ≤ b.size := by
    have := ht.large c (by simp)
    rw [size, extent_cons]
    omega
  have near := ht.near (s.memStartBrk + 16 + extent Block.size pre) c
    (mem_placed.mpr ⟨pre, mid ++ post, by simp, rfl⟩)
  have := ht.replace [b] start (by simp [size]) (by simpa using aligned) (by simpa using large)
    (fun x d hd => by
      simp only [located, placed_cons, placed_nil, List.mem_singleton, Prod.mk.injEq] at hd
      obtain ⟨rfl, rfl⟩ := hd
      exact ⟨framed, near⟩) kept
  simpa using this

theorem Tiled.retag {w : Nat} (ht : Tiled s e (pre ++ post))
    (size : sizeAt (setWord s.mem (s.memStartBrk + 16 + extent Block.size pre - 4) w)
      (s.memStartBrk + 16 + extent Block.size pre - 4) =
      sizeAt s.mem (s.memStartBrk + 16 + extent Block.size pre - 4))
    (alloc : allocAt (setWord s.mem (s.memStartBrk + 16 + extent Block.size pre - 4) w)
      (s.memStartBrk + 16 + extent Block.size pre - 4) =
      allocAt s.mem (s.memStartBrk + 16 + extent Block.size pre - 4)) :
    Tiled (s.store (s.memStartBrk + 16 + extent Block.size pre - 4) w) e (pre ++ post) := by
  have ends := ht.ends
  simp only [extent_append] at ends
  generalize hp : s.memStartBrk + 16 + extent Block.size pre = x at *
  have sizes : ∀ q, (q = x - 4 ∨ x ≤ q ∨ q + 4 ≤ x - 4) →
      sizeAt (setWord s.mem (x - 4) w) q = sizeAt s.mem q := by
    rintro q (rfl | apart | apart)
    · exact size
    · exact sizeAt_store_apart (by omega)
    · exact sizeAt_store_apart (by omega)
  have allocs : ∀ q, (q = x - 4 ∨ x ≤ q ∨ q + 4 ≤ x - 4) →
      allocAt (setWord s.mem (x - 4) w) q = allocAt s.mem q := by
    rintro q (rfl | apart | apart)
    · exact alloc
    · exact allocAt_store_apart (by omega)
    · exact allocAt_store_apart (by omega)
  refine ⟨ht.low, ?_, ht.aligned, ht.large, ?_, ht.ends, ?_, ?_, ht.near, ht.small⟩
  · exact ⟨(sizes _ (by simp only [store_memStartBrk]; omega)).trans ht.prologue.size,
      (allocs _ (by simp only [store_memStartBrk]; omega)).trans ht.prologue.alloc,
      (sizes (s.memStartBrk + 8 + 8 - 8) (by omega)).trans ht.prologue.footer⟩
  · intro y c hc
    have framed := ht.blocks y c hc
    have big := ht.large c (placed_mem hc)
    -- a block ends before the cut or starts at or after it
    have side : y + c.size ≤ x ∨ y = x ∨ x + 16 ≤ y := by
      rw [store_memStartBrk, located, placed_append, List.mem_append, hp] at hc
      rcases hc with hc | hc
      · have := placed_bounds hc
        omega
      · cases post with
        | nil => simp at hc
        | cons d post =>
            have := ht.large d (by simp)
            rw [placed_cons, List.mem_cons, Prod.mk.injEq] at hc
            rcases hc with ⟨rfl, rfl⟩ | hc
            · exact Or.inr (Or.inl rfl)
            · have := placed_bounds hc
              omega
    have low := (placed_bounds hc).1
    simp only [store_memStartBrk] at low
    exact ⟨(sizes _ (by omega)).trans framed.size, (allocs _ (by omega)).trans framed.alloc,
      (sizes _ (by omega)).trans framed.footer⟩
  · refine (sizes _ ?_).trans ht.epilogueSize
    cases post with
    | nil => simp only [extent_nil] at ends; omega
    | cons d post => have := ht.large d (by simp); simp only [extent_cons] at ends; omega
  · refine (allocs _ ?_).trans ht.epilogueAlloc
    cases post with
    | nil => simp only [extent_nil] at ends; omega
    | cons d post => have := ht.large d (by simp); simp only [extent_cons] at ends; omega

end

end MallocLab.Segregated
