import MallocLab.Segregated.Realloc

/-!
# The room that a reallocated block claims

The header that `mm_realloc` leaves behind is computed from the old sizes alone. It records enough
bytes unless one of the signed differences that the code compares with 0 overflows.
-/

namespace MallocLab.Segregated
open Memory Logged

def NoMalloc : Event → Prop
  | .malloc _ => False
  | _ => True

/-- A block that `mm_realloc` returns without calling `mm_malloc` is recorded as allocated and as large
enough. -/
def ClaimsRoom (malloc : Nat → Prog Nat) (s : State) (x size : Nat) : Prop :=
  ∀ r s', Does NoMalloc (mmRealloc malloc x size) s r s' → r ≠ null →
    allocAt s'.mem (r - 4) = 1 ∧ size + 8 ≤ sizeAt s'.mem (r - 4)

/-- The negation of the remainder of a last block overflows, and the heap can grow by one chunk of words. -/
def RemainderOverflows (s : State) (size b : Nat) (post : List Block) : Prop :=
  post = [] ∧ (size + 15) / 8 * 8 + buffer = b + 2 ^ 31 ∧
    (memSbrk s.toMemLib (4 * chunksize : Nat)).1 ≠ minusOne

instance (s : State) (size b : Nat) (post : List Block) : Decidable (RemainderOverflows s size b post) :=
  inferInstanceAs (Decidable (_ ∧ _ ∧ _))

section
variable {ok : Event → Prop} {s s' t : State} {e x n r size v newSize : Nat} {i remainder : Int} {p : Block}
  {bs pre post : List Block} {malloc : Nat → Prog Nat}

theorem tagNext_header (low : 4 ≤ x) (large : 8 ≤ sizeAt s.mem (x - 4))
    (run : Does ok (mmRealloc.tagNext x i) s r s') :
    r = x ∧ word s'.mem (x - 4) = word s.mem (x - 4) := by
  rw [mmRealloc.tagNext] at run
  split at run
  · rw [does_nextBlkp_bind, hdrp, wsize, does_setTag_bind, does_pure] at run
    obtain ⟨-, -, rfl, rfl⟩ := run
    exact ⟨rfl, word_setWord_of_apart (by omega)⟩
  · obtain ⟨rfl, rfl⟩ := does_pure.mp run
    exact ⟨rfl, rfl⟩

theorem does_tagNext (all : ∀ q, ok (.access q)) : ∃ s', Does ok (mmRealloc.tagNext x i) s x s' := by
  rw [mmRealloc.tagNext]
  split
  · simp only [does_nextBlkp_bind, hdrp, wsize, does_setTag_bind, does_pure]
    exact ⟨_, all _, all _, trivial, rfl⟩
  · exact ⟨s, does_pure.mpr ⟨rfl, rfl⟩⟩

theorem absorb_header (low : 4 ≤ x) (v8 : v % 8 = 0) (v16 : 16 ≤ v) (v32 : v < 2 ^ 32)
    (value : addInt newSize remainder = v) (run : Does ok (mmRealloc.absorb x newSize remainder) s r s') :
    r = x ∧ sizeAt s'.mem (x - 4) = v ∧ allocAt s'.mem (x - 4) = 1 := by
  rw [mmRealloc.absorb, does_nextBlkp_bind] at run
  obtain ⟨u, t, -, run⟩ := does_bind.mp run.2
  have header : sizeAt (setWord t.mem (x - 4) (pack v 1)) (x - 4) = v :=
    (fields_putNotag (a := true) v8 v32).1
  simp only [does_putNotag_bind, does_ftrp_bind, hdrp, wsize, value, mmRealloc.finish, does_getSize_bind,
    store_mem, header] at run
  have framed := (framed_notag (s := t) (b := ⟨v, true⟩) low v8 v16 v32).1
  obtain ⟨place, kept⟩ := tagNext_header low (by
    have size : sizeAt _ (x - 4) = v := framed.size
    exact (show 8 ≤ v by omega).trans_eq size.symm) run.2.2.2.2
  refine ⟨place, ?_, ?_⟩
  · rw [sizeAt, kept]
    exact framed.size
  · rw [allocAt, kept]
    exact framed.alloc

theorem does_absorb (all : ∀ q, ok (.access q))
    (run : Does ok (deleteBlock (x + sizeAt s.mem (x - 4))) s () t) :
    ∃ s', Does ok (mmRealloc.absorb x newSize remainder) s x s' := by
  rw [mmRealloc.absorb]
  simp only [does_nextBlkp_bind, run.bind_iff, does_putNotag_bind, does_ftrp_bind, hdrp, wsize,
    mmRealloc.finish, does_getSize_bind, all, true_and]
  exact does_tagNext all

theorem wanted_rounded (int : size < 2 ^ 31) (pos : 1 ≤ size) :
    wanted size = (size + 15) / 8 * 8 + buffer := by
  rw [wanted_eq (by omega) pos]
  simp only [adjust, mul32, add32, dsize, buffer]
  split <;> omega

theorem wanted_bounds (int : size < 2 ^ 31) (pos : 1 ≤ size) :
    size + 136 ≤ wanted size ∧ wanted size ≤ size + 143 ∧ wanted size % 8 = 0 := by
  have := adjust_bounds (by omega) pos
  rw [wanted_eq (by omega) pos]
  omega

theorem chunk_words : toInt32 (growth chunksize) = (4 * chunksize : Nat) := by decide

theorem extendHeap_null {words : Nat}
    (refused : (memSbrk s.toMemLib (toInt32 (growth words))).1 = minusOne)
    (run : Does ok (extendHeap words) s r s') : r = null := by
  rw [extendHeap_eq, does_sbrk_bind, if_pos refused, does_pure] at run
  exact run.1

theorem reallocRead_header {b : Nat} {next : Block} (low : 4 ≤ x) (pos : 1 ≤ size) (int : size < 2 ^ 31)
    (header : sizeAt s.mem (x - 4) = b) (alloc : allocAt s.mem (x - 4) = 1) (b16 : 16 ≤ b)
    (b8 : b % 8 = 0) (next8 : next.size % 8 = 0) (small : b + next.size < 2 ^ 30)
    (fits : ¬ b + 2 ^ 31 < wanted size)
    (fine : wanted size = b + next.size + 2 ^ 31 →
      (memSbrk s.toMemLib (toInt32 (growth chunksize))).1 = minusOne)
    (run : Does NoMalloc (reallocRead malloc x size b next) s r s') (ne : r ≠ null) :
    allocAt s'.mem (r - 4) = 1 ∧ size + 8 ≤ sizeAt s'.mem (r - 4) := by
  have want := wanted_bounds int pos
  have first := toInt32_sub32 (a := b) (w := wanted size) (by omega) (by omega)
  rw [if_neg fits] at first
  rw [reallocRead, first] at run
  by_cases short : b < wanted size
  case neg =>
    -- the block is kept
    rw [if_neg (by omega)] at run
    obtain ⟨rfl, kept⟩ := tagNext_header low (by omega) run
    rw [allocAt, sizeAt, kept, ← allocAt, ← sizeAt, header]
    exact ⟨alloc, by omega⟩
  case pos =>
    rw [if_pos (by omega)] at run
    by_cases grow : next.alloc = false ∨ next.size = 0
    case neg =>
      rw [if_neg grow, mmRealloc.callMalloc, does_assoc, does_note_bind] at run
      exact run.1.elim
    case pos =>
      have second := toInt32_sub32 (a := b + next.size) (w := wanted size) (by omega) (by omega)
      rw [if_neg (by omega)] at second
      rw [if_pos grow, show add32 b next.size = b + next.size from add32_eq (by omega), second] at run
      simp only at run
      by_cases enough : wanted size ≤ b + next.size
      · rw [if_neg (by omega)] at run
        obtain ⟨rfl, size, alloc⟩ := absorb_header (v := b + next.size) low (by omega) (by omega) (by omega)
          (by unfold addInt; omega) run
        rw [size]
        exact ⟨alloc, by omega⟩
      · rw [if_pos (by omega)] at run
        obtain ⟨grown, t, growing, run⟩ := does_bind.mp run
        by_cases refused : grown = null
        · rw [if_pos refused, does_pure] at run
          exact absurd run.1 ne
        rw [if_neg refused] at run
        by_cases overflow : wanted size = b + next.size + 2 ^ 31
        · -- the chunk that is asked for instead is refused
          rw [show ((b + next.size : Nat) - wanted size : Int) = -2 ^ 31 by omega,
            neg32_least, show (max (-2 ^ 31 : Int) chunksize).toNat = chunksize by rfl] at growing
          exact absurd (extendHeap_null (fine overflow) growing) refused
        · have amount : max (neg32 ((b + next.size : Nat) - wanted size : Int)) (chunksize : Nat) =
              (max (wanted size - (b + next.size)) chunksize : Nat) := by
            rw [neg32_eq (by omega) (by omega)]
            simp only [chunksize]
            omega
          rw [amount] at run
          obtain ⟨rfl, size, alloc⟩ := absorb_header
            (v := b + next.size + max (wanted size - (b + next.size)) chunksize) low
            (by simp only [chunksize]; omega) (by omega) (by simp only [chunksize]; omega)
            (by unfold addInt; simp only [chunksize]; omega) run
          rw [size]
          exact ⟨alloc, by simp only [chunksize]; omega⟩

theorem claims_room (wf : WellFormed s (pre ++ p :: post)) (alloc : p.alloc = true)
    (hx : x = s.memStartBrk + 16 + extent Block.size pre) (pos : 1 ≤ size) (int : size < 2 ^ 31)
    (fits : ¬ p.size + 2 ^ 31 < (size + 15) / 8 * 8 + buffer)
    (fine : ¬ RemainderOverflows s size p.size post) : ClaimsRoom malloc s x size := by
  rw [← wanted_rounded int pos] at fits
  intro r s' run ne
  have cut := wf.tiled.cut
  have cut' := (show Tiled s s.memBrk ((pre ++ [p]) ++ post) by simpa using wf.tiled).cut
  have ends := wf.tiled.ends
  have high := wf.valid.high
  have area := wf.valid.area
  have p16 := wf.tiled.large p (by simp)
  have want := wanted_bounds int pos
  rw [maxHeap_eq] at area
  simp only [extent_append, extent_cons, after_cons, ← hx] at cut ends
  have following : (after post).size ≤ extent Block.size post := by cases post <;> simp
  have run := (does_mmRealloc wf hx (by omega) ⟨fun _ _ _ => trivial, fun _ _ _ => trivial⟩).mp run
  refine reallocRead_header (by omega) pos int cut.nextSize (by rw [cut.nextAlloc, alloc]; rfl) p16
    cut.aligned.2 cut'.aligned.2 (by omega) fits (fun exact => ?_) run ne
  by_contra accepted
  cases post with
  | nil => exact fine ⟨rfl, by rw [← wanted_rounded int pos]; exact exact, by rwa [← chunk_words]⟩
  | cons c post =>
      have := wf.tiled.large c (by simp)
      simp only [after_cons] at exact
      omega

theorem not_claims_room_of_far (wf : WellFormed s (pre ++ p :: post))
    (hx : x = s.memStartBrk + 16 + extent Block.size pre) (pos : 1 ≤ size) (int : size < 2 ^ 31)
    (far : p.size + 2 ^ 31 < (size + 15) / 8 * 8 + buffer) : ¬ ClaimsRoom malloc s x size := by
  intro claims
  rw [← wanted_rounded int pos] at far
  have want := wanted_bounds int pos
  have p16 := wf.tiled.large p (by simp)
  have cut := wf.tiled.cut
  simp only [after_cons, ← hx] at cut
  have first := toInt32_sub32 (a := p.size) (w := wanted size) (by omega) (by omega)
  rw [if_pos far] at first
  have all : ∀ q, NoMalloc (.access q) := fun _ => trivial
  obtain ⟨s', run⟩ := does_tagNext (x := x) (s := s) (i := p.size - wanted size + 2 ^ 32) all
  have kept := tagNext_header (by omega) (by rw [cut.nextSize]; omega) run
  have room := claims x s' ((does_mmRealloc wf hx (by omega)
    ⟨fun _ _ _ => trivial, fun _ _ _ => trivial⟩).mpr (by
      rw [reallocRead, first, if_neg (by omega)]
      exact run)) (show x ≠ 0 by omega)
  rw [sizeAt, kept.2, ← sizeAt, cut.nextSize] at room
  omega

theorem overflow_amounts {b w : Nat} (small : b < 2 ^ 31) (exact : w = b + 2 ^ 31) :
    toInt32 (sub32 b w) < 0 ∧
      max (neg32 (toInt32 (sub32 b w))) (chunksize : Nat) = (chunksize : Nat) ∧
      addInt w (toInt32 (sub32 b w) + (chunksize : Nat)) = b + 4096 := by
  have first := toInt32_sub32 (a := b) (w := w) small (by omega)
  have gap : (b : Int) - w = -2 ^ 31 := by
    rw [exact]
    push_cast
    ring
  have value : ((w : Int) + (-2 ^ 31 + (chunksize : Nat))) = (b + 4096 : Nat) := by
    rw [exact]
    push_cast
    ring
  rw [if_neg (by rw [exact]; exact lt_irrefl _), gap] at first
  have fits : ((b + 4096 : Nat) : Int) < 2 ^ 32 := by
    clear first gap value
    omega
  rw [first, neg32_least, addInt, value, Int.emod_eq_of_lt (Int.natCast_nonneg _) fits, Int.toNat_natCast]
  exact ⟨by norm_num, by norm_num, rfl⟩

theorem not_claims_room_of_overflow (wf : WellFormed s (pre ++ p :: post)) (alloc : p.alloc = true)
    (hx : x = s.memStartBrk + 16 + extent Block.size pre) (pos : 1 ≤ size) (int : size < 2 ^ 31)
    (overflow : RemainderOverflows s size p.size post) : ¬ ClaimsRoom malloc s x size := by
  intro claims
  obtain ⟨rfl, exact, accepted⟩ := overflow
  rw [← wanted_rounded int pos] at exact
  have want := wanted_bounds int pos
  have p16 := wf.tiled.large p (by simp)
  have p8 := wf.tiled.aligned p (by simp)
  have ends := wf.tiled.ends
  have high := wf.valid.high
  have area := wf.valid.area
  have space := wf.valid.space
  rw [maxHeap_eq] at area
  have chunk : growth chunksize = 16384 := by decide
  rw [← chunk_words, chunk] at accepted
  have unrefused : ¬ sbrkRefuses s.toMemLib (toInt32 16384) := fun refused =>
    accepted (by rw [memSbrk_refused refused])
  have near : s.memBrk < minusOne := by
    rw [memSbrk, if_neg unrefused] at accepted
    simp only [minusOne] at *
    omega
  have tol : ∀ lo hi, Tolerates NoMalloc lo hi :=
    fun _ _ => ⟨fun _ _ _ => trivial, fun _ _ _ => trivial⟩
  have all : ∀ q, NoMalloc (.access q) := fun _ => trivial
  obtain ⟨t, growing, hold, only⟩ := extendHeap_alone (show 16384 = growth chunksize from chunk.symm) rfl
    wf.tiled wf.lists unrefused (by omega) near (by omega) (by simpa using alloc) (tol _ _)
  have start : t.memStartBrk = s.memStartBrk := only.start.trans (grow_memStartBrk _)
  have cut := (show Tiled t _ (pre ++ p :: [⟨16384, false⟩]) by simpa using hold.tiled).cut
  have listed : (frees (s.memStartBrk + 16) (pre ++ [p] ++ [⟨16384, false⟩])).Perm
      ((s.memBrk, 16384) :: frees (s.memStartBrk + 16) (pre ++ [p])) := by
    rw [frees_append, frees_cons_false rfl, frees_nil, ends]
    exact List.perm_append_singleton _ _
  obtain ⟨u, deleting, -, -⟩ := (hold.perm listed).delete (tol _ _)
  simp only [extent_append, extent_cons, extent_nil, Nat.add_zero, ← Nat.add_assoc, ← hx, start, after_cons]
    at cut ends
  rw [← ends, ← cut.nextSize] at deleting
  -- both differences are the ones computed before the heap grew
  obtain ⟨low, amount, value⟩ := overflow_amounts (b := p.size) (by omega) exact
  have total : add32 p.size 0 = p.size := add32_eq (by omega)
  obtain ⟨s', run⟩ : ∃ s', Does NoMalloc (mmRealloc.absorb x (wanted size)
      (toInt32 (sub32 p.size (wanted size)) + (chunksize : Nat))) t x s' := does_absorb all deleting
  have header := (absorb_header (by omega) (by omega) (by omega) (by omega) value run).2.1
  have whole : Does NoMalloc (mmRealloc malloc x size) s x s' := by
    refine (does_mmRealloc wf hx (by omega) (tol _ _)).mpr ?_
    unfold reallocRead
    rw [if_pos low, if_pos (show (after []).alloc = false ∨ (after []).size = 0 from Or.inr rfl),
      show add32 p.size (after []).size = p.size from total]
    simp only
    rw [if_pos low, amount, Int.toNat_natCast]
    refine growing.bind_iff.mpr ?_
    rw [if_neg (show s.memBrk ≠ null by simp only [null]; omega)]
    exact run
  have room := (claims x s' whole (show x ≠ 0 by omega)).2
  omega

/-- The header records enough bytes exactly when neither difference overflows. -/
theorem claims_room_iff (wf : WellFormed s (pre ++ p :: post)) (alloc : p.alloc = true)
    (hx : x = s.memStartBrk + 16 + extent Block.size pre) (pos : 1 ≤ size) (int : size < 2 ^ 31) :
    ClaimsRoom malloc s x size ↔
      ¬ p.size + 2 ^ 31 < (size + 15) / 8 * 8 + buffer ∧ ¬ RemainderOverflows s size p.size post := by
  refine ⟨fun claims => ⟨fun far => ?_, fun overflow => ?_⟩,
    fun ⟨fits, fine⟩ => claims_room wf alloc hx pos int fits fine⟩
  · exact not_claims_room_of_far wf hx pos int far claims
  · exact not_claims_room_of_overflow wf alloc hx pos int overflow claims

end

theorem claims_room_iff_reserved : ClaimsRoom (fun _ => pure null) reserved 4144 4096 :=
  (claims_room_iff (show WellFormed reserved ([⟨16, false⟩, ⟨16, true⟩] ++ ⟨16, true⟩ :: []) from
    reserved_wellFormed) rfl rfl (by decide) (by decide)).mpr ⟨by decide, by decide +kernel⟩

theorem claims_no_room_reserved :
    WellFormed reserved [⟨16, false⟩, ⟨16, true⟩, ⟨16, true⟩] ∧
      ¬ ClaimsRoom (fun _ => pure null) reserved 4144 (2 ^ 31 - 1) :=
  ⟨reserved_wellFormed, not_claims_room_of_far
    (show WellFormed reserved ([⟨16, false⟩, ⟨16, true⟩] ++ ⟨16, true⟩ :: []) from reserved_wellFormed) rfl
    (by decide) (by decide) (by decide)⟩

end MallocLab.Segregated
