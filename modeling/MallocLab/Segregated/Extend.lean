import MallocLab.Segregated.Place

/-!
# Growing the heap

`extend_heap` turns the old epilogue into the header of a free block that ends at the new epilogue, and
coalesces it with the block before it.
-/

namespace MallocLab.Segregated
open Memory Logged

def growth (words : Nat) : Nat :=
  let size := if words % 2 ≠ 0 then mul32 (add32 words 1) wsize else mul32 words wsize
  if size < overhead then overhead else size

def State.grow (s : State) (words : Nat) : State :=
  { s with toMemLib := (memSbrk s.toMemLib (toInt32 (growth words))).2 }

def Inside (lo hi : Nat) : Event → Prop
  | .access p => lo ≤ p ∧ p + 4 ≤ hi
  | _ => True

/-- What `extend_heap` promises. -/
def ExtendGrows (s : State) (bs : List Block) (words : Nat) : Prop :=
  ∃ r s', Does (Inside (s.grow words).memStartBrk (s.grow words).memBrk) (extendHeap words) s r s' ∧
    (sbrkRefuses s.toMemLib (toInt32 (growth words)) ∧ r = null ∧ s' = s ∨
      ∃ L m, r = s.memStartBrk + 16 + extent Block.size L ∧ WellFormed s' (L ++ [⟨m, false⟩]) ∧
        s'.memBrk = (s.grow words).memBrk ∧ 4 * words ≤ m ∧
        Keeps s s' (allocated (s.memStartBrk + 16) bs) (L ++ [⟨m, false⟩]))

section
variable {ok : Event → Prop} {s s' t u : State} {e x n words : Nat} {bs : List Block}

theorem extendHeap_eq (words : Nat) : extendHeap words = (do
    let bp ← sbrk (toInt32 (growth words))
    if bp = minusOne then
      return null
    else
      putNotag (hdrp bp) (pack (growth words) 0)
      putNotag (← ftrp bp) (pack (growth words) 0)
      putNotag (hdrp (← nextBlkp bp)) (pack 0 1)
      insertBlock bp (growth words)
      coalesce bp) := by
  unfold extendHeap
  rfl

theorem growth_aligned (words : Nat) : growth words % 8 = 0 := by
  simp only [growth, mul32, add32, wsize, overhead]
  split <;> split <;> omega

theorem growth_eq (large : 4 ≤ words) (small : words < 2 ^ 29) :
    growth words = 4 * (words + words % 2) := by
  simp only [growth, mul32, add32, wsize, overhead]
  split <;> split <;> omega

theorem growth_lt (accepted : ¬ sbrkRefuses s.toMemLib (toInt32 (growth words))) :
    growth words < 2 ^ 31 := by
  by_contra large
  refine accepted (Or.inl (toInt32_neg (by omega) ?_))
  simp only [growth, mul32, add32, wsize, overhead]
  split <;> split <;> omega

theorem Tiled.extend (ht : Tiled s e bs) (start : u.memStartBrk = s.memStartBrk) (n8 : n % 8 = 0)
    (n16 : 16 ≤ n) (near : e < 2 ^ 32) (small : extent Block.size bs + n < 2 ^ 32)
    (framed : Framed u.mem e ⟨n, false⟩) (size : sizeAt u.mem (e + n - 4) = 0)
    (alloc : allocAt u.mem (e + n - 4) = 1) (kept : ∀ q, q < e - 4 → u.mem q = s.mem q) :
    Tiled u (e + n) (bs ++ [⟨n, false⟩]) := by
  have ends := ht.ends
  have located_new : ∀ x b, (x, b) ∈ located (s.memStartBrk + 16) (bs ++ [⟨n, false⟩]) →
      (x, b) ∈ located (s.memStartBrk + 16) bs ∨ (x = e ∧ b = ⟨n, false⟩) := fun x b hb => by
    rw [located, placed_append, List.mem_append, ends] at hb
    simpa using hb
  refine ⟨by rw [start]; exact ht.low, ?_, ?_, ?_, ?_, ?_, size, alloc, ?_, ?_⟩
  · have same : ∀ p, p + 4 ≤ e - 4 → word u.mem p = word s.mem p :=
      fun p _ => word_congr fun q _ _ => kept q (by omega)
    rw [start]
    refine ⟨?_, ?_, ?_⟩
    · rw [sizeAt, same _ (by omega)]
      exact ht.prologue.size
    · rw [allocAt, same _ (by omega)]
      exact ht.prologue.alloc
    · rw [sizeAt, same (s.memStartBrk + 8 + 8 - 8) (by omega)]
      exact ht.prologue.footer
  · simpa [or_imp, forall_and] using ⟨ht.aligned, n8⟩
  · simpa [or_imp, forall_and] using ⟨ht.large, n16⟩
  · rw [start]
    intro x b hb
    rcases located_new x b hb with old | ⟨rfl, rfl⟩
    · have bounds := placed_bounds old
      have big := ht.large b (placed_mem old)
      exact (ht.blocks x b old).congr (by omega) big fun q _ high => kept q (by omega)
    · exact framed
  · rw [start, extent_append, extent_cons, extent_nil]
    simp only
    omega
  · rw [start]
    intro x b hb
    rcases located_new x b hb with old | ⟨rfl, rfl⟩
    · exact ht.near x b old
    · exact near
  · rw [extent_append, extent_cons, extent_nil]
    exact small

/-- The heap with the new block in its list; what is left to do is to coalesce. The end of the heap is
taken where the new block ends, also when the break has wrapped around. -/
theorem extendHeap_marked (hn : n = growth words) (he : e = s.memBrk) (tiled : Tiled s e bs)
    (lists : Lists s (frees (s.memStartBrk + 16) bs))
    (accepted : ¬ sbrkRefuses s.toMemLib (toInt32 n)) (n16 : 16 ≤ n) (near : e < minusOne)
    (small : extent Block.size bs + n < 2 ^ 32) (tol : Tolerates ok s.memStartBrk (e + n)) :
    ∃ t, Holding t (e + n) (bs ++ [⟨n, false⟩]) (frees (s.memStartBrk + 16) (bs ++ [⟨n, false⟩])) ∧
      Only (s.grow words) t (frees (s.memStartBrk + 16) (bs ++ [⟨n, false⟩])) (e - 4) (e + n) ∧
      tagAt t.mem (e - 4) = 0 ∧
      ∀ r s', Does ok (extendHeap words) s r s' ↔ Does ok (coalesce e) t r s' := by
  have n8 := growth_aligned words
  have n31 : growth words < 2 ^ 31 := growth_lt (hn ▸ accepted)
  have ends := tiled.ends
  have low := tiled.low
  have returned : (memSbrk s.toMemLib (toInt32 n)).1 = e := by rw [memSbrk, if_neg accepted, he]
  have memory : (s.grow words).mem = s.mem := by rw [State.grow, ← hn, memSbrk, if_neg accepted]
  have start : (s.grow words).memStartBrk = s.memStartBrk := by
    rw [State.grow, ← hn, memSbrk, if_neg accepted]
  rw [← hn] at n8 n31
  have stamped := framed_notag (s := s.grow words) (x := e) (b := ⟨n, false⟩) (by omega) n8 n16
    (by simp only; omega)
  simp only at stamped
  generalize hv : State.store (State.store (s.grow words) _ _) _ _ = v at stamped
  obtain ⟨framed, untagged, kept⟩ := stamped
  have last := fields_putNotag (m := v.mem) (p := e + n - 4) (a := true) (show 0 % 8 = 0 by rfl) (by decide)
  generalize hu : v.store (e + n - 4) (pack 0 1) = u
  have outside : ∀ q, (q < e - 4 ∨ e + n ≤ q) → u.mem q = s.mem q := fun q hq => by
    rw [← hu, store_mem, setWord_of_outside (by omega), kept q (by omega), memory]
  have inside : ∀ q, q < e + n - 4 → u.mem q = v.mem q := fun q hq => by
    rw [← hu, store_mem, setWord_of_outside (by omega)]
  have tiled' : Tiled u (e + n) (bs ++ [⟨n, false⟩]) := by
    refine tiled.extend ?_ n8 n16 (by simp only [minusOne] at near; omega) small ?_ ?_ ?_
      fun q hq => outside q (Or.inl hq)
    · rw [← hu, ← hv]
      exact start
    · exact framed.congr (by omega) n16 fun q _ high => inside q (by simp only at high; omega)
    · rw [← hu]
      exact last.1
    · rw [← hu]
      exact last.2.1
  have lists' : Lists u (frees (s.memStartBrk + 16) bs ++ frees (e + n) []) := by
    rw [frees_nil, List.append_nil]
    refine lists.congr (by rw [← hu, ← hv]; rfl) fun f hf q _ high => outside q (Or.inl ?_)
    have := placed_bounds (mem_frees.mp hf)
    have := tiled.large _ (placed_mem (mem_frees.mp hf))
    simp only at *
    omega
  have start' : u.memStartBrk = s.memStartBrk := by
    rw [← hu, ← hv]
    exact start
  obtain ⟨t, run, hold, only, header⟩ := tiled'.insert (a := s.memStartBrk + 16) (y := e) (by rw [start'])
    ends.symm lists' (by rwa [start'])
  refine ⟨t, hold, ⟨only.start.trans ?_, only.brk.trans ?_, only.max.trans ?_, only.listp.trans ?_,
    fun q far apart => ?_⟩, ?_, fun r s' => ?_⟩
  · rw [← hu, ← hv]
    rfl
  · rw [← hu, ← hv]
    rfl
  · rw [← hu, ← hv]
    rfl
  · rw [← hu, ← hv]
    rfl
  · rw [memory, ← outside q far]
    refine only.mem q fun f hf => apart f ?_
    rw [frees_append, frees_cons_false rfl, ends]
    simpa [or_comm] using hf
  · rw [tagAt, header, word_congr fun q _ high => inside q (by omega)]
    exact untagged
  · have header : ∀ m : Mem, sizeAt (setWord m (e - 4) (pack n 0)) (e - 4) = n :=
      fun m => (fields_putNotag (a := false) n8 (by omega)).1
    have access : ∀ q, s.memStartBrk ≤ q → q + 4 ≤ e + n → (ok (.access q) ↔ True) :=
      fun q low high => iff_true_intro (tol.access q low high)
    rw [extendHeap_eq, ← hn, does_sbrk_bind, returned, if_neg (by omega)]
    simp (disch := omega) only [does_putNotag_bind, does_ftrp_bind, does_nextBlkp_bind, hdrp, wsize, store_mem,
      header, sizeAt_store_apart, access, true_and]
    rw [← hu, ← hv, State.grow, ← hn] at run
    exact run.bind_iff

theorem extendHeap_refused (refused : sbrkRefuses s.toMemLib (toInt32 (growth words))) :
    Does ok (extendHeap words) s null s := by
  rw [extendHeap_eq, does_sbrk_bind, memSbrk_refused refused, if_pos rfl, does_pure]
  exact ⟨rfl, rfl⟩

theorem grow_of_accepted (accepted : ¬ sbrkRefuses s.toMemLib (toInt32 (growth words))) :
    (s.grow words).memStartBrk = s.memStartBrk ∧
      (s.grow words).memBrk = (s.memBrk + growth words) % 2 ^ 32 := by
  have n31 := growth_lt accepted
  rw [State.grow, memSbrk, if_neg accepted, toInt32_eq n31]
  refine ⟨rfl, ?_⟩
  simp only
  omega

theorem Inside.tolerates (lo hi : Nat) : Tolerates (Inside lo hi) lo hi :=
  ⟨fun _ low high => ⟨low, high⟩, fun _ _ _ => trivial⟩

theorem grow_mem (words : Nat) : (s.grow words).mem = s.mem := by
  rw [State.grow, memSbrk]
  split <;> rfl

theorem grow_memStartBrk (words : Nat) : (s.grow words).memStartBrk = s.memStartBrk := by
  rw [State.grow, memSbrk]
  split <;> rfl

theorem extendHeap_spec (hn : n = growth words) (he : e = s.memBrk) (tiled : Tiled s e bs)
    (lists : Lists s (frees (s.memStartBrk + 16) bs))
    (accepted : ¬ sbrkRefuses s.toMemLib (toInt32 n)) (n16 : 16 ≤ n) (near : e < minusOne)
    (small : extent Block.size bs + n < 2 ^ 32)
    (fine : ¬ ((before bs).alloc = false ∧ taggedBefore s e bs = true))
    (tol : Tolerates ok s.memStartBrk (e + n)) :
    ∃ s' L m, Does ok (extendHeap words) s (s.memStartBrk + 16 + extent Block.size L) s' ∧
      L = keptUntagged (taggedBefore s e bs) bs ∧ m = freeUntagged (taggedBefore s e bs) bs + n ∧
      Holding s' (e + n) (L ++ [⟨m, false⟩]) (frees (s.memStartBrk + 16) (L ++ [⟨m, false⟩])) ∧
      Only (s.grow words) s' (frees (s.memStartBrk + 16) (bs ++ [⟨n, false⟩]))
        (s.memStartBrk + 16 + extent Block.size L - 4) (e + n) := by
  obtain ⟨t, hold, only, -, rest⟩ := extendHeap_marked hn he tiled lists accepted n16 near small tol
  have grown := grow_memStartBrk (s := s) words
  have start : t.memStartBrk = s.memStartBrk := only.start.trans grown
  have ends := tiled.ends
  have same : taggedBefore t e bs = taggedBefore s e bs := by
    rw [← grown] at only ends
    rw [only.taggedBefore hold.tiled.large ends.symm, taggedBefore, grow_mem, ← taggedBefore]
  have kept := extent_keptUntagged (taggedBefore s e bs) bs
  rw [← start] at hold tol ends
  obtain ⟨s', run, hold', only', -⟩ := coalesce_spec hold tol (by
    rw [Stray, ends, same]
    exact fun stray => fine ⟨stray.1, stray.2.1⟩)
  rw [ends, same] at run hold' only'
  have merged : freeUntagged (taggedBefore s e bs) bs + n + freeAfter [] =
    freeUntagged (taggedBefore s e bs) bs + n := rfl
  rw [merged] at hold' only'
  rw [start] at run hold' only' ends
  refine ⟨s', _, _, (rest _ _).mpr run, rfl, rfl, hold', ?_⟩
  exact (only.widen (by omega) (le_refl _)).trans (only'.widen (le_refl _) (by omega)) (fun f hf => hf)
    fun f hf => hf

theorem extendHeap_alone (hn : n = growth words) (he : e = s.memBrk) (tiled : Tiled s e bs)
    (lists : Lists s (frees (s.memStartBrk + 16) bs))
    (accepted : ¬ sbrkRefuses s.toMemLib (toInt32 n)) (n16 : 16 ≤ n) (near : e < minusOne)
    (small : extent Block.size bs + n < 2 ^ 32) (alloc : (before bs).alloc = true)
    (tol : Tolerates ok s.memStartBrk (e + n)) :
    ∃ s', Does ok (extendHeap words) s e s' ∧
      Holding s' (e + n) (bs ++ [⟨n, false⟩]) (frees (s.memStartBrk + 16) (bs ++ [⟨n, false⟩])) ∧
      Only (s.grow words) s' (frees (s.memStartBrk + 16) (bs ++ [⟨n, false⟩])) (e - 4) (e + n) := by
  obtain ⟨s', L, m, run, hL, hm, hold, only⟩ := extendHeap_spec hn he tiled lists accepted n16 near small
    (by simp [alloc]) tol
  have ends := tiled.ends
  have same : keptUntagged (taggedBefore s e bs) bs = bs ∧ freeUntagged (taggedBefore s e bs) bs = 0 := by
    cases taggedBefore s e bs <;> simp [keptUntagged, freeUntagged, keptBefore, freeBefore, alloc]
  rw [same.1] at hL
  rw [same.2, Nat.zero_add] at hm
  subst hL hm
  rw [ends] at run only
  exact ⟨s', run, hold, only⟩

theorem valid_grow (valid : s.Valid) (wrap : s.memBrk + growth words < 2 ^ 32)
    (accepted : ¬ sbrkRefuses s.toMemLib (toInt32 (growth words))) : (s.grow words).Valid := by
  have n31 := growth_lt accepted
  have := valid.low
  have := valid.area
  rw [toInt32_eq n31] at accepted
  have fits : s.memBrk + growth words ≤ s.memMaxAddr := by
    simp only [sbrkRefuses] at accepted
    omega
  rw [State.grow, toInt32_eq n31, memSbrk_accepted accepted wrap]
  exact ⟨valid.start, by simp only; omega, fits, valid.area, valid.space⟩

theorem extend_grows (wf : WellFormed s bs) (large : 4 ≤ words) (int : 4 * words < 2 ^ 31)
    (wrap : s.memBrk + growth words < 2 ^ 32)
    (fine : ¬ ((before bs).alloc = false ∧ taggedBefore s s.memBrk bs = true))
    (accepted : ¬ sbrkRefuses s.toMemLib (toInt32 (growth words))) : ExtendGrows s bs words := by
  have size := growth_eq large (by omega)
  have ends := wf.tiled.ends
  obtain ⟨start, brk⟩ := grow_of_accepted accepted
  rw [Nat.mod_eq_of_lt wrap] at brk
  have grown := grow_memStartBrk (s := s) words
  obtain ⟨s', L, m, run, hL, hm, hold, only⟩ := extendHeap_spec (n := growth words) rfl rfl wf.tiled wf.lists
    accepted (by omega) (by simp only [minusOne]; omega) (by omega) fine
    (Inside.tolerates s.memStartBrk (s.memBrk + growth words))
  have kept := extent_keptUntagged (taggedBefore s s.memBrk bs) bs
  rw [← hL] at kept
  have moved := allocated_merged (taggedBefore s s.memBrk bs) (s.memStartBrk + 16) bs (growth words) []
  rw [← hL, show freeUntagged (taggedBefore s s.memBrk bs) bs + growth words + freeAfter [] = m from hm.symm,
    show keptAfter [] = [] from rfl, allocated_append (s.memStartBrk + 16) bs,
    allocated_cons_false _ _ rfl, allocated_nil, List.append_nil] at moved
  have start' : s'.memStartBrk = s.memStartBrk := only.start.trans grown
  refine ⟨_, s', by rw [start, brk]; exact run, Or.inr ⟨L, m, rfl, ?_, only.brk, ?_, ?_⟩⟩
  · exact Holding.wellFormed (by rwa [brk]) only (valid_grow wf.valid wrap accepted) (by rw [start'])
  · omega
  · have large' : ∀ c ∈ bs ++ [⟨growth words, false⟩], 16 ≤ c.size := by
      simpa [or_imp, forall_and] using ⟨wf.tiled.large, by omega⟩
    have here : (s.memStartBrk + 16 + extent Block.size L, ⟨m, false⟩) ∈
        located (s.memStartBrk + 16) (L ++ [⟨m, false⟩]) := mem_placed.mpr ⟨L, [], rfl, rfl⟩
    have keeps : Keeps (s.grow words) s' (allocated (s.memStartBrk + 16) bs) (L ++ [⟨m, false⟩]) := by
      refine (only.widen (le_refl _) (show s.memBrk + growth words ≤ _ by simp only; omega)).keeps
        (by rw [start']) large' here (fun f hf => ?_) fun f hf => ⟨moved ▸ hf, ?_⟩
      · rw [allocated_append]
        exact List.mem_append_left _ hf
      · rintro rfl
        cases (mem_allocated.mp hf).2
    intro z c hz
    exact ⟨(keeps z c hz).1, fun q low high => ((keeps z c hz).2 q low high).trans (by rw [grow_mem])⟩

theorem not_extend_grows_of_wrap (wf : WellFormed s bs) (wrap : 2 ^ 32 ≤ s.memBrk + growth words)
    (accepted : ¬ sbrkRefuses s.toMemLib (toInt32 (growth words))) : ¬ ExtendGrows s bs words := by
  rintro ⟨r, s', run, outcome⟩
  have n31 := growth_lt accepted
  have high := wf.valid.high
  have space := wf.valid.space
  have low := wf.tiled.low
  have brk := (grow_of_accepted accepted).2
  rw [extendHeap_eq, does_sbrk_bind, show (memSbrk s.toMemLib (toInt32 (growth words))).1 = s.memBrk by
    rw [memSbrk, if_neg accepted]] at run
  by_cases last : s.memBrk = minusOne
  · rw [if_pos last, does_pure] at run
    rcases outcome with ⟨refused, -⟩ | ⟨L, m, place, -⟩
    · exact accepted refused
    · rw [run.1] at place
      simp only [null] at place
      omega
  · rw [if_neg last, does_putNotag_bind] at run
    have inside : s.memBrk - 4 + 4 ≤ (s.grow words).memBrk := run.1.2
    omega

theorem not_extend_grows_of_stray (wf : WellFormed s bs) (large : 4 ≤ words) (int : 4 * words < 2 ^ 31)
    (wrap : s.memBrk + growth words < 2 ^ 32) (free : (before bs).alloc = false)
    (tagged : taggedBefore s s.memBrk bs = true)
    (accepted : ¬ sbrkRefuses s.toMemLib (toInt32 (growth words))) : ¬ ExtendGrows s bs words := by
  rintro ⟨r, s', run, -⟩
  have size := growth_eq large (by omega)
  have ends := wf.tiled.ends
  obtain ⟨start, brk⟩ := grow_of_accepted accepted
  rw [Nat.mod_eq_of_lt wrap] at brk
  rw [start, brk] at run
  have tol := Inside.tolerates s.memStartBrk (s.memBrk + growth words)
  obtain ⟨t, hold, only, -, rest⟩ := extendHeap_marked (n := growth words) rfl rfl wf.tiled wf.lists
    accepted (by omega) (by simp only [minusOne]; omega) (by omega) tol
  have start' : t.memStartBrk = s.memStartBrk := only.start.trans start
  have same : taggedBefore t s.memBrk bs = taggedBefore s s.memBrk bs := by
    rw [← start] at only ends
    rw [only.taggedBefore hold.tiled.large ends.symm, taggedBefore, grow_mem, ← taggedBefore]
  have run := (rest r s').mp run
  rcases bs.eq_nil_or_concat' with rfl | ⟨pre, c, rfl⟩
  · cases free
  · obtain ⟨k, alloc⟩ := c
    rw [before_concat] at free
    obtain rfl : alloc = false := free
    simp only [List.append_assoc, List.cons_append, List.nil_append, extent_append, extent_cons, extent_nil,
      Nat.add_zero, ← Nat.add_assoc] at hold ends
    have set : tagAt t.mem (t.memStartBrk + 16 + extent Block.size pre - 4) ≠ 0 := by
      rw [← same, taggedBefore, before_concat] at tagged
      simpa [← ends, start'] using tagged
    rw [← start'] at hold ends
    obtain ⟨s₂, -, -, onward⟩ := coalesce_stray hold (by rw [start']; exact tol) set rfl
    have run := (onward r s').mp (by rw [ends]; exact run)
    rw [mergeNext, deleteBlock] at run
    simp only [does_assoc, does_note_bind, does_getSize_bind, does_nextFreep_bind] at run
    have outside : t.memStartBrk + 16 + extent Block.size pre + k + growth words + 4 ≤
        s.memBrk + growth words := run.2.2.1.2
    omega

/-- `extend_heap` keeps its promise exactly when `mem_sbrk` refuses, or the new break does not wrap around
and the last block is not a tagged free one. -/
theorem extend_grows_iff (wf : WellFormed s bs) (large : 4 ≤ words) (int : 4 * words < 2 ^ 31) :
    ExtendGrows s bs words ↔ sbrkRefuses s.toMemLib (toInt32 (growth words)) ∨
      s.memBrk + growth words < 2 ^ 32 ∧
        ¬ ((before bs).alloc = false ∧ taggedBefore s s.memBrk bs = true) := by
  constructor
  · intro grows
    by_cases refused : sbrkRefuses s.toMemLib (toInt32 (growth words))
    · exact Or.inl refused
    · by_cases wrap : s.memBrk + growth words < 2 ^ 32
      · exact Or.inr ⟨wrap, fun stray =>
          not_extend_grows_of_stray wf large int wrap stray.1 stray.2 refused grows⟩
      · exact absurd grows (not_extend_grows_of_wrap wf (Nat.le_of_not_lt wrap) refused)
  · rintro (refused | ⟨wrap, fine⟩)
    · exact ⟨null, s, extendHeap_refused refused, Or.inl ⟨refused, rfl, rfl⟩⟩
    · by_cases refused : sbrkRefuses s.toMemLib (toInt32 (growth words))
      · exact ⟨null, s, extendHeap_refused refused, Or.inl ⟨refused, rfl, rfl⟩⟩
      · exact extend_grows wf large int wrap fine refused

end

theorem extend_grows_iff_vacant : ExtendGrows (vacant 32) [⟨32, false⟩] 4 :=
  (extend_grows_iff (vacant_wellFormed (Or.inl rfl)) (le_refl _) (by decide)).mpr
    (Or.inr ⟨by decide, by decide +kernel⟩)

theorem extend_strays_vacant :
    WellFormed (vacant 34) [⟨32, false⟩] ∧ ¬ ExtendGrows (vacant 34) [⟨32, false⟩] 4 :=
  ⟨vacant_wellFormed (Or.inr rfl), not_extend_grows_of_stray (vacant_wellFormed (Or.inr rfl)) (le_refl _)
    (by decide) (by decide) (by decide) (by decide +kernel) (by decide)⟩

end MallocLab.Segregated
