import MallocLab.Segregated.ReallocRoom

/-!
# Reallocating in place

A block that `mm_realloc` keeps, or merges with a free block that is large enough, leaves the heap well
formed and the other blocks as they are.
-/

namespace MallocLab.Segregated
open Memory Logged

/-- What `mm_realloc` promises when it returns the block at `r` in place of the one at `x`. -/
def Intact (s s' : State) (bs : List Block) (x r : Nat) : Prop :=
  ∃ bs', WellFormed s' bs' ∧ Keeps s s' (others s bs x) bs' ∧
    ∀ z c, (z, c) ∈ others s bs x → z + c.size ≤ r ∨ r + sizeAt s'.mem (r - 4) ≤ z

/-- A block that `mm_realloc` returns without calling `mm_malloc` leaves the heap intact, whatever the
payloads and the bytes outside the heap are. -/
def ReallocKeeps (malloc : Nat → Prog Nat) (s : State) (bs : List Block) (x size : Nat) : Prop :=
  ∀ m, PayloadsOnly s bs m → ∀ r s',
    Does NoMalloc (mmRealloc malloc x size) { s with mem := m } r s' → r ≠ null →
      Intact { s with mem := m } s' bs x r

/-- A block of `b` bytes is too small also with the `next` one, which can be merged with it, and the memory
system grants what `extend_heap` asks for. -/
def HeapGrows (s : State) (size b : Nat) (next : Block) : Prop :=
  (next.alloc = false ∨ next.size = 0) ∧ 0 < shortage size b next ∧
    (memSbrk s.toMemLib (4 * max (shortage size b next) chunksize : Nat)).1 ≠ minusOne

instance (s : State) (size b : Nat) (next : Block) : Decidable (HeapGrows s size b next) :=
  inferInstanceAs (Decidable (_ ∧ _ ∧ _))

def State.claim (s : State) (x v : Nat) : State := (s.store (x - 4) (pack v 1)).store (x + v - 8) (pack v 1)

def Tags (s s' : State) (x : Nat) : Prop := s' = s ∨ s' = s.store (x - 4) (word s.mem (x - 4) ||| 0x2)

section
variable {ok : Event → Prop} {s s' t u : State} {e x n r size b v newSize : Nat} {i remainder : Int}
  {p next : Block} {bs pre post : List Block} {F : List (Nat × Nat)} {malloc : Nat → Prog Nat}

theorem tolerates_noMalloc (lo hi : Nat) : Tolerates NoMalloc lo hi :=
  ⟨fun _ _ _ => trivial, fun _ _ _ => trivial⟩

theorem HeapGrows.of_mem {m : Mem} (grows : HeapGrows { s with mem := m } size b next) :
    HeapGrows s size b next := by
  obtain ⟨grow, short, granted⟩ := grows
  refine ⟨grow, short, fun refused => granted ?_⟩
  rw [memSbrk] at refused ⊢
  split at refused
  · rename_i refuses
    exact congrArg Prod.fst (if_pos refuses)
  · rename_i accepts
    exact (congrArg Prod.fst (if_neg accepts)).trans refused

/-! ## The paths -/

theorem wanted_small (small : size ≤ maxHeap) (pos : 1 ≤ size) :
    wanted size = adjust size + buffer ∧ adjust size + buffer < 2 ^ 25 ∧
      (adjust size + buffer) % 8 = 0 := by
  rw [maxHeap_eq] at small
  have bounds := adjust_bounds (show size + 15 < 2 ^ 32 by omega) pos
  rw [wanted_eq (by omega) pos]
  refine ⟨rfl, ?_, ?_⟩ <;> simp only [buffer] <;> omega

theorem reallocRead_kept (small : size ≤ maxHeap) (pos : 1 ≤ size) (int : b < 2 ^ 31)
    (enough : adjust size + buffer ≤ b) :
    reallocRead malloc x size b next = mmRealloc.tagNext x (toInt32 (sub32 b (wanted size))) := by
  obtain ⟨want, bound, -⟩ := wanted_small small pos
  have first := toInt32_sub32 (a := b) (w := wanted size) int (by omega)
  rw [if_neg (by omega)] at first
  rw [reallocRead, if_neg (by omega)]

theorem not_reallocRead_moves (small : size ≤ maxHeap) (pos : 1 ≤ size) (lt : b < adjust size + buffer)
    (grow : ¬ (next.alloc = false ∨ next.size = 0)) :
    ¬ Does NoMalloc (reallocRead malloc x size b next) s r s' := by
  intro run
  have first := short_of_lt small pos lt
  rw [reallocRead, if_pos (by omega), if_neg grow, mmRealloc.callMalloc, does_assoc, does_note_bind] at run
  exact run.1

theorem reallocRead_merges (malloc : Nat → Prog Nat) (small : size ≤ maxHeap) (pos : 1 ≤ size) (int : b + next.size < 2 ^ 30)
    (lt : b < adjust size + buffer) (grow : next.alloc = false ∨ next.size = 0)
    (enough : shortage size b next = 0) : ∃ remainder, addInt (wanted size) remainder = b + next.size ∧
      reallocRead malloc x size b next = mmRealloc.absorb x (wanted size) remainder := by
  obtain ⟨want, bound, -⟩ := wanted_small small pos
  have first := short_of_lt small pos lt
  have second := toInt32_sub32 (a := b + next.size) (w := wanted size) (by omega) (by omega)
  rw [if_neg (by omega)] at second
  unfold shortage at enough
  refine ⟨toInt32 (sub32 (b + next.size) (wanted size)), ?_, ?_⟩
  · rw [second, addInt]
    omega
  · unfold reallocRead
    rw [if_pos (by omega), if_pos grow, show add32 b next.size = b + next.size from add32_eq (by omega)]
    simp only
    rw [if_neg (by omega)]

theorem reallocRead_grows (malloc : Nat → Prog Nat) (small : size ≤ maxHeap) (pos : 1 ≤ size)
    (grow : next.alloc = false ∨ next.size = 0) (short : 0 < shortage size b next) :
    ∃ remainder, addInt (wanted size) remainder = b + next.size + max (shortage size b next) chunksize ∧
      reallocRead malloc x size b next = (do
        let grown ← extendHeap (max (shortage size b next) chunksize)
        if grown = null then
          return null
        else
          mmRealloc.absorb x (wanted size) remainder) := by
  obtain ⟨want, bound, -⟩ := wanted_small small pos
  obtain ⟨d, hd⟩ : ∃ d, d = shortage size b next := ⟨_, rfl⟩
  rw [← hd] at short ⊢
  obtain ⟨g, hg⟩ : ∃ g, g = max d chunksize := ⟨_, rfl⟩
  rw [← hg]
  have gap : b + next.size + d = adjust size + buffer := by
    unfold shortage at hd
    omega
  have g31 : g < 2 ^ 31 := by
    simp only [chunksize] at hg
    omega
  have less : b < adjust size + buffer := by omega
  have less' : b + next.size < adjust size + buffer := by omega
  have amount : max (neg32 (-(d : Int))) (chunksize : Nat) = (g : Int) := by
    rw [neg32_eq (by omega) (by omega)]
    simp only [chunksize] at hg ⊢
    omega
  have value : ((wanted size : Nat) : Int) + (-(d : Int) + g) = (b + next.size + g : Nat) := by
    rw [want]
    omega
  have inside : ((b + next.size + g : Nat) : Int) < 2 ^ 32 := by omega
  have total : add32 b next.size = b + next.size := add32_eq (by omega)
  have ahead : -(d : Int) < 0 := by omega
  have low : toInt32 (sub32 b (wanted size)) < 0 := by
    rw [short_of_lt small pos less]
    omega
  have remainder : toInt32 (sub32 (b + next.size) (wanted size)) = -(d : Int) := by
    rw [short_of_lt small pos less']
    clear low
    omega
  refine ⟨-(d : Int) + (g : Int), ?_, ?_⟩
  · rw [addInt, value, Int.emod_eq_of_lt (Int.natCast_nonneg _) inside, Int.toNat_natCast]
  · unfold reallocRead
    simp only [if_pos low, if_pos grow, total, remainder, if_pos ahead, amount, Int.toNat_natCast]

theorem growth_shortage (small : size ≤ maxHeap) (pos : 1 ≤ size) (b8 : b % 8 = 0) (next8 : next.size % 8 = 0) :
    toInt32 (growth (max (shortage size b next) chunksize)) =
      (4 * max (shortage size b next) chunksize : Nat) := by
  obtain ⟨-, bound, w8⟩ := wanted_small small pos
  obtain ⟨d, hd⟩ : ∃ d, d = shortage size b next := ⟨_, rfl⟩
  obtain ⟨g, hg⟩ : ∃ g, g = max d chunksize := ⟨_, rfl⟩
  rw [← hd, ← hg]
  unfold shortage at hd
  simp only [chunksize] at hg
  have even : g % 2 = 0 := by omega
  rw [growth_eq (by omega) (by omega), even, Nat.add_zero, toInt32_eq (by omega)]

/-! ## What the paths write -/

theorem tagNext_effect (run : Does ok (mmRealloc.tagNext x i) s r s') :
    r = x ∧ Tags s s' (x + sizeAt s.mem (x - 4)) := by
  rw [mmRealloc.tagNext] at run
  split at run
  · rw [does_nextBlkp_bind, hdrp, wsize, does_setTag_bind, does_pure] at run
    exact ⟨run.2.2.1, Or.inr run.2.2.2⟩
  · obtain ⟨place, same⟩ := does_pure.mp run
    exact ⟨place, Or.inl same⟩

theorem absorb_effect (v8 : v % 8 = 0) (v16 : 16 ≤ v) (v32 : v < 2 ^ 32) (low : 4 ≤ x)
    (value : addInt newSize remainder = v) (deleting : Does ok (deleteBlock (x + sizeAt s.mem (x - 4))) s () u)
    (run : Does ok (mmRealloc.absorb x newSize remainder) s r s') : r = x ∧ Tags (u.claim x v) s' (x + v) := by
  rw [mmRealloc.absorb, does_nextBlkp_bind] at run
  have run := deleting.bind_iff.mp run.2
  have header : sizeAt (setWord u.mem (x - 4) (pack v 1)) (x - 4) = v :=
    (fields_putNotag (a := true) v8 v32).1
  simp only [does_putNotag_bind, does_ftrp_bind, hdrp, wsize, value, mmRealloc.finish, does_getSize_bind,
    store_mem, header] at run
  have framed := (framed_notag (s := u) (b := ⟨v, true⟩) low v8 v16 v32).1
  obtain ⟨place, tags⟩ := tagNext_effect run.2.2.2.2
  have size : sizeAt (u.claim x v).mem (x - 4) = v := framed.size
  have tags : Tags (u.claim x v) s' (x + sizeAt (u.claim x v).mem (x - 4)) := tags
  rw [size] at tags
  exact ⟨place, tags⟩

theorem Tags.outside (tags : Tags s s' x) (low : 4 ≤ x) :
    Only s s' F (x - 4) x ∧ s'.sgrlists = s.sgrlists := by
  rcases tags with rfl | rfl
  · exact ⟨⟨rfl, rfl, rfl, rfl, fun _ _ _ => rfl⟩, rfl⟩
  · exact ⟨⟨rfl, rfl, rfl, rfl, fun q outside _ => setWord_of_outside (by omega)⟩, rfl⟩

theorem Holding.tags (hold : Holding s e (pre ++ post) F) (tags : Tags s s' x)
    (hx : x = s.memStartBrk + 16 + extent Block.size pre) : Holding s' e (pre ++ post) F := by
  rcases tags with rfl | rfl
  · exact hold
  · obtain ⟨size, alloc⟩ := fields_setTag (m := s.mem) (p := x - 4)
    exact hold.retag hx size alloc

theorem Holding.delete_next (hold : Holding s e (pre ++ p :: ⟨n, false⟩ :: post)
      (frees (s.memStartBrk + 16) (pre ++ p :: ⟨n, false⟩ :: post)))
    (alloc : p.alloc = true) (hx : x = s.memStartBrk + 16 + extent Block.size pre)
    (tol : Tolerates ok s.memStartBrk e) :
    ∃ u, Does ok (deleteBlock (x + sizeAt s.mem (x - 4))) s () u ∧
      Holding u e (pre ++ p :: ⟨n, false⟩ :: post)
        (frees (s.memStartBrk + 16) pre ++ frees (x + p.size + n) post) ∧
      LinksOnly s u (frees (s.memStartBrk + 16) pre ++ frees (x + p.size + n) post) := by
  have cut := hold.tiled.cut
  rw [← hx] at cut
  have listed : (frees (s.memStartBrk + 16) (pre ++ p :: ⟨n, false⟩ :: post)).Perm
      ((x + p.size, n) :: (frees (s.memStartBrk + 16) pre ++ frees (x + p.size + n) post)) := by
    rw [frees_append, frees_cons_true alloc, frees_cons_false rfl, ← hx]
    exact List.perm_middle
  rw [show sizeAt s.mem (x - 4) = p.size from cut.nextSize]
  exact (hold.perm listed).delete tol

/-! ## The paths that do not grow the heap -/

theorem intact_of (alloc : p.alloc = true) (large : ∀ c ∈ pre ++ p :: bs, 16 ≤ c.size)
    (hx : x = s.memStartBrk + 16 + extent Block.size pre)
    (wf' : WellFormed s' (pre ++ ⟨v, true⟩ :: post))
    (only : Only s s' (frees (s.memStartBrk + 16) (pre ++ p :: bs)) (x - 4) (x + v))
    (rest : allocated (x + v) post = allocated (x + p.size) bs) : Intact s s' (pre ++ p :: bs) x x := by
  have start : s'.memStartBrk = s.memStartBrk := only.start
  have here : (x, ⟨v, true⟩) ∈ located (s.memStartBrk + 16) (pre ++ ⟨v, true⟩ :: post) :=
    mem_placed.mpr ⟨pre, post, rfl, hx⟩
  have old : ∀ f ∈ others s (pre ++ p :: bs) x, f ∈ allocated (s.memStartBrk + 16) (pre ++ p :: bs) :=
    fun f hf => (mem_others.mp hf).1
  have new : ∀ f ∈ others s (pre ++ p :: bs) x,
      f ∈ allocated (s.memStartBrk + 16) (pre ++ ⟨v, true⟩ :: post) ∧ f ≠ (x, ⟨v, true⟩) := by
    rintro ⟨z, c⟩ hf
    obtain ⟨member, ne⟩ := mem_others.mp hf
    refine ⟨?_, fun same => ne (Prod.mk.inj same).1⟩
    rw [allocated_append, allocated_cons_true _ _ alloc, ← hx, List.mem_append, List.mem_cons] at member
    rw [allocated_append, allocated_cons_true _ _ rfl, ← hx, List.mem_append, List.mem_cons]
    refine member.imp_right (Or.imp (fun same => ?_) fun member => ?_)
    · exact absurd (Prod.mk.inj same).1 ne
    · rw [show allocated (x + (⟨v, true⟩ : Block).size) post = allocated (x + p.size) bs from rest]
      exact member
  have header : sizeAt s'.mem (x - 4) = v := (wf'.tiled.blocks _ _ (by rw [start]; exact here)).size
  refine ⟨_, wf', only.keeps (by rw [start]) large here old new, fun z c hf => ?_⟩
  obtain ⟨member, ne⟩ := new _ hf
  rw [header]
  rcases placed_apart here (mem_allocated.mp member).1 with ⟨rfl, rfl⟩ | apart | apart
  · exact absurd rfl ne
  · exact Or.inr apart
  · exact Or.inl apart

theorem intact_tagNext (wf : WellFormed s (pre ++ p :: post)) (alloc : p.alloc = true)
    (hx : x = s.memStartBrk + 16 + extent Block.size pre)
    (run : Does ok (mmRealloc.tagNext x i) s r s') : Intact s s' (pre ++ p :: post) x r := by
  obtain ⟨b, flag⟩ := p
  obtain rfl : flag = true := alloc
  have cut := wf.tiled.cut
  rw [← hx] at cut
  have b16 := wf.tiled.large ⟨b, true⟩ (by simp)
  obtain ⟨rfl, tags⟩ := tagNext_effect run
  rw [show sizeAt s.mem (r - 4) = b from cut.nextSize] at tags
  simp only at b16
  have only := (tags.outside (F := frees (s.memStartBrk + 16) (pre ++ ⟨b, true⟩ :: post)) (by omega)).1
  have hold : Holding s s.memBrk ((pre ++ [⟨b, true⟩]) ++ post)
      (frees (s.memStartBrk + 16) (pre ++ ⟨b, true⟩ :: post)) :=
    ⟨by simpa using wf.tiled, wf.lists, by simpa using List.Subperm.refl _⟩
  have hold' := hold.tags tags (by simp [hx, Nat.add_assoc])
  have wf' : WellFormed s' (pre ++ [⟨b, true⟩] ++ post) :=
    hold'.wellFormed only wf.valid (by rw [only.start]; simp)
  exact intact_of (v := b) rfl wf.tiled.large hx (by simpa using wf') (only.widen (by omega) (le_refl _)) rfl

theorem intact_absorb (wf : WellFormed s (pre ++ p :: ⟨n, false⟩ :: post)) (alloc : p.alloc = true)
    (hx : x = s.memStartBrk + 16 + extent Block.size pre) (value : addInt newSize remainder = p.size + n)
    (tol : Tolerates ok s.memStartBrk s.memBrk)
    (run : Does ok (mmRealloc.absorb x newSize remainder) s r s') :
    Intact s s' (pre ++ p :: ⟨n, false⟩ :: post) x r := by
  have p16 := wf.tiled.large p (by simp)
  have p8 := wf.tiled.aligned p (by simp)
  have n8 := wf.tiled.aligned ⟨n, false⟩ (by simp)
  have small := wf.tiled.small
  simp only [extent_append, extent_cons] at small n8
  have hold : Holding s s.memBrk (pre ++ p :: ⟨n, false⟩ :: post) _ := ⟨wf.tiled, wf.lists, .refl _⟩
  obtain ⟨u, deleting, hold₁, only₁⟩ := hold.delete_next alloc hx tol
  obtain ⟨v, hv⟩ : ∃ v, v = p.size + n := ⟨_, rfl⟩
  obtain ⟨rfl, tags⟩ := absorb_effect (v := v) (by omega) (by omega) (by omega) (by omega) (by omega)
    deleting run
  have start := only₁.start
  obtain ⟨framed, -, kept⟩ := framed_notag (s := u) (x := r) (b := ⟨v, true⟩) (by omega)
    (by simp only; omega) (by simp only; omega) (by simp only; omega)
  have framed : Framed (u.claim r v).mem r ⟨v, true⟩ := framed
  have kept : ∀ q, (q < r - 4 ∨ r + v - 4 ≤ q) → (u.claim r v).mem q = u.mem q := kept
  have tiled : Tiled (u.claim r v) s.memBrk (pre ++ ⟨v, true⟩ :: post) :=
    (show Tiled u s.memBrk (pre ++ [p, ⟨n, false⟩] ++ post) by simpa using hold₁.tiled).merge (by simp) rfl
      (by simp [hv]) (by rw [start, ← hx]; exact framed) fun q outside => kept q (by
        simp only [start, ← hx, extent_cons, extent_nil] at outside
        omega)
  have place : r + p.size + n = s.memStartBrk + 16 + extent Block.size pre + v := by omega
  have lists : Lists (u.claim r v) (frees (s.memStartBrk + 16) pre ++ frees (r + p.size + n) post) :=
    hold₁.lists.congr rfl fun f hf q low high => kept q (by
      rw [place] at hf
      have := frees_apart (fun c hc => wf.tiled.large c (by simp [hc])) hf
      omega)
  have same : frees (s.memStartBrk + 16) pre ++ frees (r + p.size + n) post =
      frees (s.memStartBrk + 16) (pre ++ ⟨v, true⟩ :: post) := by
    rw [frees_append, frees_cons_true rfl, place]
  rw [same] at lists
  have hold₂ : Holding (u.claim r v) s.memBrk ((pre ++ [⟨v, true⟩]) ++ post)
      (frees (s.memStartBrk + 16) (pre ++ ⟨v, true⟩ :: post)) :=
    ⟨by simpa using tiled, lists, by
      rw [show (u.claim r v).memStartBrk = s.memStartBrk from start]
      simpa using List.Subperm.refl _⟩
  have hold₃ := hold₂.tags tags (by
    rw [show (u.claim r v).memStartBrk = s.memStartBrk from start]
    simp [hx, Nat.add_assoc])
  have only₂ : Only u (u.claim r v) [] (r - 4) (r + v) :=
    ⟨rfl, rfl, rfl, rfl, fun q outside _ => kept q (by omega)⟩
  have only₃ := (tags.outside (F := []) (by omega)).1
  have only : Only s s' (frees (s.memStartBrk + 16) (pre ++ p :: ⟨n, false⟩ :: post)) (r - 4) (r + v) :=
    .after_links only₁ (only₂.trans (only₃.widen (by omega) (le_refl _)) (fun f hf => hf) fun f hf => hf)
      (fun f hf => by
        rw [frees_append, frees_cons_true alloc, frees_cons_false rfl, ← hx]
        exact List.mem_append.mpr ((List.mem_append.mp hf).imp_right (List.mem_cons_of_mem _)))
      (by simp)
  have wf' : WellFormed s' (pre ++ [⟨v, true⟩] ++ post) :=
    hold₃.wellFormed only wf.valid (by rw [only.start]; simp)
  refine intact_of alloc wf.tiled.large hx (by simpa using wf') only ?_
  rw [allocated_cons_false _ _ rfl, hv, ← Nat.add_assoc]

theorem realloc_keeps (wf : WellFormed s (pre ++ p :: post)) (alloc : p.alloc = true)
    (hx : x = s.memStartBrk + 16 + extent Block.size pre) (pos : 1 ≤ size) (small : size ≤ maxHeap)
    (fits : ¬ HeapGrows s size p.size (after post))
    (run : Does NoMalloc (mmRealloc malloc x size) s r s') (ne : r ≠ null) :
    Intact s s' (pre ++ p :: post) x r := by
  have tol := tolerates_noMalloc s.memStartBrk s.memBrk
  have ends := wf.tiled.ends
  have next8 : (after post).size % 8 = 0 :=
    (show Tiled s s.memBrk ((pre ++ [p]) ++ post) by simpa using wf.tiled).cut.aligned.2
  have high := wf.valid.high
  have area := wf.valid.area
  rw [maxHeap_eq] at area
  simp only [extent_append, extent_cons] at ends
  have following : (after post).size ≤ extent Block.size post := by cases post <;> simp
  have int : p.size + (after post).size < 2 ^ 30 := by omega
  have run := (does_mmRealloc wf hx (by omega) tol).mp run
  by_cases enough : adjust size + buffer ≤ p.size
  · rw [reallocRead_kept small pos (by omega) enough] at run
    exact intact_tagNext wf alloc hx run
  · have less : p.size < adjust size + buffer := by omega
    by_cases grow : (after post).alloc = false ∨ (after post).size = 0
    case neg => exact absurd run (not_reallocRead_moves small pos less grow)
    case pos =>
      by_cases short : shortage size p.size (after post) = 0
      · obtain ⟨remainder, value, same⟩ := reallocRead_merges malloc (x := x) small pos int less grow
          short
        rw [same] at run
        cases post with
        | nil =>
            unfold shortage at short
            simp only [after_nil] at short
            omega
        | cons c post =>
            obtain ⟨n, flag⟩ := c
            have n16 := wf.tiled.large ⟨n, flag⟩ (by simp)
            simp only [after_cons] at value grow n16
            obtain rfl : flag = false := grow.resolve_right (by omega)
            exact intact_absorb wf alloc hx value tol run
      · -- the growth is refused
        obtain ⟨remainder, -, same⟩ := reallocRead_grows malloc (x := x) small pos grow
          (Nat.pos_of_ne_zero short)
        rw [same] at run
        obtain ⟨grown, t, growing, run⟩ := does_bind.mp run
        have refused : grown = null := by
          refine extendHeap_null ?_ growing
          rw [growth_shortage small pos (wf.tiled.aligned p (by simp)) next8]
          by_contra granted
          exact fits ⟨grow, Nat.pos_of_ne_zero short, granted⟩
        rw [if_pos refused, does_pure] at run
        exact absurd run.1 ne

end

end MallocLab.Segregated
