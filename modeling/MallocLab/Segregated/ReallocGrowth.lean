import MallocLab.Segregated.ReallocKeeps
import MallocLab.Segregated.Search

/-!
# Reallocating by growing the heap

`mm_realloc` takes a block to be larger by the number that it hands to `extend_heap`, which counts it as
words. The rest of what the heap has grown by is lost, or the block that the header claims ends inside
another one.
-/

namespace MallocLab.Segregated
open Memory Logged

structure Claimed (s s' : State) (x v : Nat) : Prop where
  size : sizeAt s'.mem (x - 4) = v
  alloc : allocAt s'.mem (x - 4) = 1
  heads : s'.sgrlists = s.sgrlists
  start : s'.memStartBrk = s.memStartBrk
  brk : s'.memBrk = s.memBrk
  max : s'.memMaxAddr = s.memMaxAddr
  mem : ∀ q, (q < x - 4 ∨ x ≤ q ∧ q + 8 < x + v ∨ x + v ≤ q) → s'.mem q = s.mem q

section
variable {ok : Event → Prop} {s s' t u : State} {e x n k r size v z words : Nat} {p c : Block}
  {bs mid pre post : List Block} {F : List (Nat × Nat)} {malloc : Nat → Prog Nat}

/-! ## Growing behind any block -/

theorem mergeNext_last (hold : Holding s e (pre ++ [⟨k, false⟩, ⟨n, false⟩]) (frees (s.memStartBrk + 16) pre))
    (next : nextAt s.mem e = null) (prev : prevAt s.mem e = null) :
    ∃ s', Does NoMalloc (mergeNext (s.memStartBrk + 16 + extent Block.size pre + k) n
        (s.memStartBrk + 16 + extent Block.size pre + k + n)) s
        (s.memStartBrk + 16 + extent Block.size pre) s' ∧
      Holding s' e (pre ++ [⟨k + n, false⟩]) (frees (s.memStartBrk + 16) (pre ++ [⟨k + n, false⟩])) ∧
      s'.memStartBrk = s.memStartBrk ∧ s'.memBrk = s.memBrk ∧ s'.memMaxAddr = s.memMaxAddr := by
  have cut := (show Tiled s e ((pre ++ [⟨k, false⟩]) ++ [⟨n, false⟩]) by simpa using hold.tiled).cut
  have cut' := (show Tiled s e ((pre ++ [⟨k, false⟩, ⟨n, false⟩]) ++ []) by simpa using hold.tiled).cut
  have ends := hold.tiled.ends
  have n16 := hold.tiled.large ⟨n, false⟩ (by simp)
  have k16 := hold.tiled.large ⟨k, false⟩ (by simp)
  have small := hold.tiled.small
  have last := hold.tiled.epilogueSize
  have tol := tolerates_noMalloc s.memStartBrk e
  simp only [extent_append, extent_cons, extent_nil, Nat.add_zero, ← Nat.add_assoc, after_cons,
    before_concat] at cut cut' ends small n16 k16
  generalize hy : s.memStartBrk + 16 + extent Block.size pre = y at *
  have n8 : n % 8 = 0 := cut.aligned.2
  have k8 : k % 8 = 0 := cut.aligned.1
  have back : y + k - k = y := by omega
  have marked : Marked s _ y ⟨k + n, false⟩ :=
    marked_header_footer (by omega) (by simp only; omega) (by simp only; omega) (by simp only; omega)
  simp only [Bool.toNat_false, ← Nat.add_assoc] at marked
  have hold₀ : Holding s e (pre ++ [⟨k, false⟩, ⟨n, false⟩]) (frees (s.memStartBrk + 16) pre ++ frees e []) := by
    simpa using hold
  obtain ⟨s', run, hold', only, -⟩ := hold₀.insert (M := [⟨k, false⟩, ⟨n, false⟩]) (by simp) (by simp)
    (by simp) rfl hy.symm (by omega) marked tol
  refine ⟨s', ?_, by simpa using hold', only.start, only.brk, only.max⟩
  -- list 0 is empty and stays so
  have empty : s.sgrlists 0 = null := hold.lists.head_null (by decide) fun f hf same => by
    have := classOf_large (hold.tiled.large _ (placed_mem (hold.mem_located f hf)))
    simp only at this
    omega
  have unchanged : s.setHead 0 null = s := by
    unfold State.setHead
    congr
    funext c
    split
    · rename_i first
      rw [first, empty]
    · rfl
  have deleting : Does NoMalloc (deleteBlock e) s () s := by
    unfold deleteBlock
    simp only [does_note_bind, does_getSize_bind, hdrp, wsize, last, does_nextFreep_bind,
      does_prevFreep_bind, next, prev, ne_eq, not_true_eq_false, if_false, does_setHead]
    exact ⟨trivial, trivial, trivial, trivial, unchanged.symm⟩
  have total : add32 n (add32 k 0) = k + n := by
    rw [show add32 k 0 = k from add32_eq (by omega), add32_eq (by omega), Nat.add_comm]
  have prevSize : sizeAt s.mem (y - 4) = k := by simpa [back] using cut.prevSize
  have end_ : y + k + n = e := ends
  unfold mergeNext
  rw [end_, deleting.bind_iff]
  simp (disch := omega) only [does_prevBlkp_bind, does_nextBlkp_bind, does_getSize_bind, does_put_bind,
    does_ftrp_bind, hdrp, wsize, cut.prevFooter, cut.nextSize, back, prevSize, end_, last, total, put_mem,
    sizeAt_store_apart, Nat.add_zero]
  rw [end_] at run
  exact ⟨trivial, trivial, trivial, trivial, trivial, trivial, trivial, trivial, trivial, trivial,
    run.bind_iff.mpr (does_pure.mpr ⟨rfl, rfl⟩)⟩

theorem extendHeap_grows (hn : n = growth words) (wf : WellFormed s bs) (n16 : 16 ≤ n)
    (accepted : ¬ sbrkRefuses s.toMemLib (toInt32 n)) (near : s.memBrk < minusOne)
    (small : extent Block.size bs + n < 2 ^ 32) (next : nextAt s.mem (s.memBrk + n) = null)
    (prev : prevAt s.mem (s.memBrk + n) = null) :
    ∃ t L m, Does NoMalloc (extendHeap words) s (s.memStartBrk + 16 + extent Block.size L) t ∧
      (L = bs ∧ m = n ∨ ∃ k, bs = L ++ [⟨k, false⟩] ∧ m = k + n) ∧
      Holding t (s.memBrk + n) (L ++ [⟨m, false⟩]) (frees (s.memStartBrk + 16) (L ++ [⟨m, false⟩])) ∧
      t.memStartBrk = s.memStartBrk ∧ t.memBrk = (s.grow words).memBrk := by
  have grown := grow_memStartBrk (s := s) words
  have tol := tolerates_noMalloc s.memStartBrk (s.memBrk + n)
  by_cases stray : (before bs).alloc = false ∧ taggedBefore s s.memBrk bs = true
  case neg =>
    obtain ⟨t, L, m, run, hL, hm, hold, only⟩ := extendHeap_spec hn rfl wf.tiled wf.lists accepted n16 near
      small stray tol
    refine ⟨t, L, m, run, ?_, hold, only.start.trans grown, only.brk⟩
    rcases keptUntagged_cases (taggedBefore s s.memBrk bs) bs with ⟨same, none⟩ | ⟨c, free, -, split, size⟩
    · exact Or.inl ⟨hL.trans same, by omega⟩
    · obtain ⟨k, flag⟩ := c
      obtain rfl : flag = false := free
      rw [← hL] at split
      exact Or.inr ⟨k, split, by simp only at size; omega⟩
  case pos =>
    have ends := wf.tiled.ends
    obtain ⟨t, hold, only, -, rest⟩ := extendHeap_marked hn rfl wf.tiled wf.lists accepted n16 near small tol
    have start : t.memStartBrk = s.memStartBrk := only.start.trans grown
    obtain ⟨free, tagged⟩ := stray
    have same : taggedBefore t s.memBrk bs = taggedBefore s s.memBrk bs := by
      rw [← grown] at only ends
      rw [only.taggedBefore hold.tiled.large ends.symm, taggedBefore, grow_mem, ← taggedBefore]
    rw [← same] at tagged
    rcases bs.eq_nil_or_concat' with rfl | ⟨pre, c, rfl⟩
    · cases free
    · obtain ⟨k, alloc⟩ := c
      rw [before_concat] at free
      obtain rfl : alloc = false := free
      simp only [List.append_assoc, List.cons_append, List.nil_append, extent_append, extent_cons, extent_nil,
        Nat.add_zero, ← Nat.add_assoc] at hold ends
      have set : tagAt t.mem (t.memStartBrk + 16 + extent Block.size pre - 4) ≠ 0 := by
        rw [taggedBefore, before_concat] at tagged
        simpa [← ends, start] using tagged
      rw [← start] at hold ends tol
      obtain ⟨t₂, hold₂, only₂, onward⟩ := coalesce_stray hold tol set rfl
      -- the links behind the epilogue are not written
      have behind : ∀ q, s.memBrk + n ≤ q → t₂.mem q = s.mem q := fun q high => by
        have apart : ∀ f ∈ frees (t.memStartBrk + 16) (pre ++ [⟨k, false⟩, ⟨n, false⟩]), q < f.1 ∨ f.1 + 8 ≤ q :=
          fun f hf => by
            have := (hold.nodes.bounds f hf).2.1
            exact Or.inr (this.trans high)
        rw [only₂.mem q apart, only.mem q (Or.inr high) (by
          rw [← start]
          simpa using apart), grow_mem]
      have links : nextAt t₂.mem (s.memBrk + n) = null ∧ prevAt t₂.mem (s.memBrk + n) = null :=
        ⟨(word_congr fun q low _ => behind q low).trans next,
          (word_congr fun q low _ => behind q (by omega)).trans prev⟩
      have hold₂ : Holding t₂ (s.memBrk + n) (pre ++ [⟨k, false⟩, ⟨n, false⟩])
          (frees (t₂.memStartBrk + 16) pre) := by simpa [only₂.start] using hold₂
      obtain ⟨s', run, hold', start', brk', -⟩ := mergeNext_last hold₂ links.1 links.2
      rw [only₂.start, start] at run hold'
      rw [start] at onward
      refine ⟨s', pre, k + n, (rest _ _).mpr ?_, Or.inr ⟨k, rfl, rfl⟩, hold',
        start'.trans (only₂.start.trans start), brk'.trans (only₂.brk.trans only.brk)⟩
      rw [← ends, start]
      exact (onward _ _).mpr run

/-! ## A claimed block -/

theorem Tags.claimed (tags : Tags (u.claim x v) s' (x + v)) (v8 : v % 8 = 0) (v16 : 16 ≤ v)
    (v32 : v < 2 ^ 32) (low : 4 ≤ x) : Claimed u s' x v := by
  obtain ⟨only, heads⟩ := tags.outside (F := []) (by omega)
  obtain ⟨framed, -, -⟩ := framed_notag (s := u) (x := x) (b := ⟨v, true⟩) low v8 v16 v32
  have header : word s'.mem (x - 4) = word (u.claim x v).mem (x - 4) :=
    word_congr fun q _ _ => only.mem q (by omega) (by simp)
  refine ⟨?_, ?_, heads, only.start, only.brk, only.max, fun q outside => ?_⟩
  · rw [sizeAt, header]
    exact framed.size
  · rw [allocAt, header]
    exact framed.alloc
  · rw [only.mem q (by omega) (by simp)]
    unfold State.claim
    rw [store_mem, setWord_of_outside (by omega), store_mem, setWord_of_outside (by omega)]

theorem Claimed.blocks {e' : Nat} (claimed : Claimed s s' x v) (old : Tiled s e (pre ++ post))
    (new : Tiled s' e' bs) (hx : x = s.memStartBrk + 16 + extent Block.size pre) (v16 : 16 ≤ v) :
    ∃ rest, bs = pre ++ ⟨v, true⟩ :: rest := by
  obtain ⟨cs, rfl⟩ := Tiled.prefix_from (L := []) (show Tiled s e ([] ++ pre ++ post) from old)
    (show Tiled s' e' ([] ++ bs) from new) claimed.start fun f hf => by
      have := placed_bounds hf
      have := old.large f.2 (List.mem_append_left _ (placed_mem hf))
      simp only [extent_nil] at *
      exact word_congr fun q _ _ => claimed.mem q (by omega)
  have cut := new.cut
  rw [claimed.start, ← hx] at cut
  have size := cut.nextSize.symm.trans claimed.size
  have alloc := cut.nextAlloc.symm.trans claimed.alloc
  cases cs with
  | nil =>
      rw [after_nil] at size
      simp only at size
      omega
  | cons c cs =>
      obtain ⟨k, flag⟩ := c
      simp only [after_cons] at size alloc
      obtain rfl : flag = true := by
        cases flag
        · cases alloc
        · rfl
      exact ⟨cs, by rw [size]⟩

theorem Claimed.not_last (claimed : Claimed s s' x v) (old : Tiled s e (pre ++ [p, ⟨n, false⟩]))
    (hx : x = s.memStartBrk + 16 + extent Block.size pre) (v16 : 16 ≤ v) (more : p.size < v)
    (room : x + v + 8 ≤ e) : ¬ Tiled s' e bs := by
  intro new
  have ends := old.ends
  have ends' := new.ends
  obtain ⟨rest, rfl⟩ := claimed.blocks old new hx v16
  have cut := (show Tiled s e ((pre ++ [p, ⟨n, false⟩]) ++ []) by simpa using old).cut
  have cut' := (show Tiled s' e ((pre ++ ⟨v, true⟩ :: rest) ++ []) by simpa using new).cut
  rw [ends] at cut
  rw [ends'] at cut'
  have footer : word s'.mem (e - 8) = word s.mem (e - 8) := word_congr fun q _ _ => claimed.mem q (by omega)
  have last := cut'.prevFooter
  rw [sizeAt, footer, ← sizeAt, cut.prevFooter,
    show pre ++ [p, ⟨n, false⟩] = (pre ++ [p]) ++ [⟨n, false⟩] by simp, before_concat] at last
  simp only [claimed.start, extent_append, extent_cons, extent_nil] at ends ends' last
  rcases rest.eq_nil_or_concat' with rfl | ⟨rest, c, rfl⟩
  · simp only [extent_nil] at ends'
    omega
  · rw [show pre ++ ⟨v, true⟩ :: (rest ++ [c]) = (pre ++ ⟨v, true⟩ :: rest) ++ [c] by simp, before_concat] at last
    simp only [extent_append, extent_cons, extent_nil] at ends'
    omega

theorem Claimed.not_inner (claimed : Claimed s s' x v) (old : Tiled s e (pre ++ post))
    (hx : x = s.memStartBrk + 16 + extent Block.size pre) (v16 : 16 ≤ v) (held : Lists s F)
    (member : (z, k) ∈ F) (low : x < z) (high : z < x + v) : ¬ WellFormed s' bs := by
  intro wf
  obtain ⟨rest, rfl⟩ := claimed.blocks old wf.tiled hx v16
  have here : (x, ⟨v, true⟩) ∈ located (s'.memStartBrk + 16) (pre ++ ⟨v, true⟩ :: rest) :=
    mem_placed.mpr ⟨pre, rest, rfl, by rw [claimed.start, hx]⟩
  obtain ⟨L, segs⟩ := held
  obtain ⟨L', segs'⟩ := wf.lists
  obtain ⟨seg, perm⟩ := segs _ (classOf_lt k)
  obtain ⟨seg', perm'⟩ := segs' _ (classOf_lt k)
  -- a node of the new heap lies before or after the claimed block
  have outside : ∀ y ∈ L' (classOf k), y + 16 ≤ x ∨ x + v ≤ y := fun y hy => by
    obtain ⟨j, free, -⟩ := (mem_class perm').mp hy
    have placed := mem_frees.mp free
    have j16 := wf.tiled.large _ (placed_mem placed)
    rcases placed_apart here placed with ⟨-, same⟩ | apart | apart
    · cases same
    · exact Or.inr apart
    · simp only at *
      omega
  have node : z ∈ L (classOf k) := (mem_class perm).mpr ⟨k, member, rfl⟩
  obtain ⟨xs, ys, split⟩ := List.append_of_mem node
  have inner := seg.end_notMem
  rw [split] at seg inner
  rw [claimed.heads] at seg'
  have found : z ∈ L' (classOf k) := seg.path.mem_of_kept seg' (fun h => inner (List.mem_append_left _ h))
    (show z ≠ 0 by omega) fun y _ hy => by
      have := outside y hy
      exact word_congr fun q _ _ => claimed.mem q (by omega)
  have := outside z found
  omega

/-! ## What grows -/

theorem grown_blocks {L : List Block} {m g : Nat} (alloc : p.alloc = true)
    (grow : (after post).alloc = false ∨ post = [])
    (shape : L = pre ++ p :: post ∧ m = g ∨ ∃ k, pre ++ p :: post = L ++ [⟨k, false⟩] ∧ m = k + g) :
    (∃ n, L ++ [⟨m, false⟩] = pre ++ [p, ⟨n, false⟩]) ∨
      ∃ c rest, L ++ [⟨m, false⟩] = pre ++ p :: ⟨(after post).size, false⟩ :: c :: rest ∧
        (c.alloc = true → ∃ rest', post = ⟨(after post).size, false⟩ :: c :: rest') := by
  -- a block behind the next one, the last one replaced by that of `m` bytes
  have behind : ∀ n first tail, L = pre ++ p :: ⟨n, false⟩ :: first →
      ∃ c rest, L ++ [⟨m, false⟩] = pre ++ p :: ⟨n, false⟩ :: c :: rest ∧
        (c.alloc = true → ∃ rest', (⟨n, false⟩ : Block) :: (first ++ tail) = ⟨n, false⟩ :: c :: rest') := by
    rintro n first tail rfl
    cases first with
    | nil => exact ⟨⟨m, false⟩, [], by simp, fun h => by cases h⟩
    | cons c first => exact ⟨c, first ++ [⟨m, false⟩], by simp, fun _ => ⟨first ++ tail, rfl⟩⟩
  cases post with
  | nil =>
      rcases shape with ⟨rfl, -⟩ | ⟨k, split, -⟩
      · exact Or.inl ⟨m, by simp⟩
      · obtain ⟨-, same⟩ := List.append_inj' split rfl
        obtain rfl : p = ⟨k, false⟩ := by simpa using same
        cases alloc
  | cons c post =>
      obtain ⟨n, flag⟩ := c
      obtain rfl : flag = false := by simpa using grow
      rcases shape with ⟨whole, -⟩ | ⟨k, split, -⟩
      · exact Or.inr (by simpa using behind n post [] whole)
      · rcases post.eq_nil_or_concat' with rfl | ⟨post, c, rfl⟩
        · obtain ⟨rfl, -⟩ := List.append_inj' (show (pre ++ [p]) ++ [⟨n, false⟩] = L ++ [⟨k, false⟩] by
            simpa using split) rfl
          exact Or.inl ⟨m, by simp⟩
        · obtain ⟨rfl, -⟩ := List.append_inj' (show (pre ++ p :: ⟨n, false⟩ :: post) ++ [c] =
            L ++ [⟨k, false⟩] by simpa using split) rfl
          exact Or.inr (behind n post [c] rfl)

theorem grows_not_intact (malloc : Nat → Prog Nat) (wf : WellFormed s (pre ++ p :: post)) (alloc : p.alloc = true)
    (hx : x = s.memStartBrk + 16 + extent Block.size pre) (pos : 1 ≤ size) (small : size ≤ maxHeap)
    (grows : HeapGrows s size p.size (after post))
    (next : nextAt s.mem (s.memBrk + 4 * max (shortage size p.size (after post)) chunksize) = null)
    (prev : prevAt s.mem (s.memBrk + 4 * max (shortage size p.size (after post)) chunksize) = null) :
    ∃ s', Does NoMalloc (mmRealloc malloc x size) s x s' ∧ ¬ Intact s s' (pre ++ p :: post) x x := by
  obtain ⟨grow, short, granted⟩ := grows
  obtain ⟨remainder, value, path⟩ := reallocRead_grows malloc (x := x) small pos grow short
  have p16 := wf.tiled.large p (by simp)
  have p8 := wf.tiled.aligned p (by simp)
  have next8 : (after post).size % 8 = 0 :=
    (show Tiled s s.memBrk ((pre ++ [p]) ++ post) by simpa using wf.tiled).cut.aligned.2
  have asked := growth_shortage small pos p8 next8
  obtain ⟨-, bound, w8⟩ := wanted_small small pos
  obtain ⟨d, hd⟩ : ∃ d, d = max (shortage size p.size (after post)) chunksize := ⟨_, rfl⟩
  have d4096 : 4096 ≤ d ∧ d < 2 ^ 25 ∧ d % 8 = 0 := by
    unfold shortage at hd
    simp only [chunksize] at hd
    omega
  rw [← hd] at asked granted value path next prev
  have amount : growth d = 4 * d := by
    rw [growth_eq (by omega) (by omega), show d % 2 = 0 by omega, Nat.add_zero]
  have accepted : ¬ sbrkRefuses s.toMemLib (toInt32 (4 * d)) := fun refused => granted (by
    rw [← asked, amount, memSbrk_refused refused])
  have high := wf.valid.high
  have area := wf.valid.area
  have space := wf.valid.space
  have low := wf.tiled.low
  have ends := wf.tiled.ends
  rw [maxHeap_eq] at area
  have near : s.memBrk < minusOne := by
    rw [← asked, amount, memSbrk, if_neg accepted] at granted
    simp only [minusOne] at *
    omega
  obtain ⟨t, L, k, growing, shape, hold, start, brk⟩ := extendHeap_grows amount.symm wf (by omega) accepted near
    (by omega) next prev
  have brk : t.memBrk = (s.memBrk + 4 * d) % 2 ^ 32 := by
    rw [brk, (grow_of_accepted (show ¬ sbrkRefuses _ (toInt32 (growth d)) by rw [amount]; exact accepted)).2,
      amount]
  have final : (after post).alloc = false ∨ post = [] := by
    refine grow.imp_right fun none => ?_
    cases post with
    | nil => rfl
    | cons c post =>
        have := wf.tiled.large c (by simp)
        simp only [after_cons] at none
        omega
  have blocks := grown_blocks alloc final shape
  obtain ⟨n, rest, same⟩ : ∃ n rest, L ++ [⟨k, false⟩] = pre ++ p :: ⟨n, false⟩ :: rest := by
    rcases blocks with ⟨n, same⟩ | ⟨c, rest, same, -⟩
    · exact ⟨n, [], same⟩
    · exact ⟨_, c :: rest, same⟩
  have place := hx
  rw [← start] at place
  rw [same, ← start] at hold
  obtain ⟨u, deleting, hold₁, only₁⟩ := hold.delete_next alloc place (tolerates_noMalloc _ _)
  obtain ⟨s', run⟩ : ∃ s', Does NoMalloc (mmRealloc.absorb x (wanted size) remainder) t x s' :=
    does_absorb (fun _ => trivial) deleting
  have whole : Does NoMalloc (mmRealloc malloc x size) s x s' := by
    refine (does_mmRealloc wf hx (by omega) (tolerates_noMalloc _ _)).mpr ?_
    rw [path]
    refine growing.bind_iff.mpr ?_
    rw [if_neg (show s.memStartBrk + 16 + extent Block.size L ≠ 0 by omega)]
    exact run
  refine ⟨s', whole, ?_⟩
  rintro ⟨bs', wf', -, apart⟩
  have cut := wf.tiled.cut
  have following : (after post).size ≤ extent Block.size post := by cases post <;> simp
  simp only [extent_append, extent_cons] at ends
  obtain ⟨v, hv⟩ : ∃ v, v = p.size + (after post).size + d := ⟨_, rfl⟩
  rw [← hv] at value
  obtain ⟨-, tags⟩ := absorb_effect (v := v) (by omega) (by omega) (by omega) (by omega) value deleting run
  have claimed := tags.claimed (by omega) (by omega) (by omega) (by omega)
  have place₁ : x = u.memStartBrk + 16 + extent Block.size pre := by rw [only₁.start, place]
  have brk' : s'.memBrk = (s.memBrk + 4 * d) % 2 ^ 32 := claimed.brk.trans (only₁.brk.trans brk)
  have start' : s'.memStartBrk = s.memStartBrk := claimed.start.trans (only₁.start.trans start)
  have wrap : s.memBrk + 4 * d < 2 ^ 32 := by
    have := wf'.valid.low
    omega
  rw [Nat.mod_eq_of_lt wrap] at brk'
  rcases blocks with ⟨n', alone⟩ | ⟨c, rest', split, inUse⟩
  · obtain ⟨rfl, rfl⟩ : n = n' ∧ rest = [] := by simpa using same.symm.trans alone
    exact claimed.not_last hold₁.tiled place₁ (by omega) (by omega)
      (show x + v + 8 ≤ s.memBrk + 4 * d by omega) (brk' ▸ wf'.tiled)
  · obtain ⟨hn, rfl⟩ : n = (after post).size ∧ rest = c :: rest' := by simpa using same.symm.trans split
    have c16 := hold₁.tiled.large c (by simp)
    cases flag : c.alloc
    case true =>
      -- a block in use begins inside the claimed one
      obtain ⟨more, hpost⟩ := inUse flag
      have live : (x + p.size + n, c) ∈ others s (pre ++ p :: post) x := by
        refine mem_others.mpr ⟨mem_allocated.mpr ⟨mem_placed.mpr ⟨pre ++ [p, ⟨n, false⟩], more, ?_, ?_⟩, flag⟩, ?_⟩
        · rw [hpost, hn]
          simp
        · simp only [extent_append, extent_cons, extent_nil, hx]
          omega
        · omega
      have := apart _ _ live
      rw [claimed.size] at this
      omega
    case false =>
      obtain ⟨j, alloc'⟩ := c
      obtain rfl : alloc' = false := flag
      refine claimed.not_inner hold₁.tiled place₁ (by omega) hold₁.lists
        (show (x + p.size + n, j) ∈ _ from ?_) (by omega) (by omega) wf'
      rw [frees_cons_false rfl]
      exact List.mem_append_right _ List.mem_cons_self

theorem not_realloc_keeps (wf : WellFormed s (pre ++ p :: post)) (alloc : p.alloc = true)
    (hx : x = s.memStartBrk + 16 + extent Block.size pre) (pos : 1 ≤ size) (small : size ≤ maxHeap)
    (grows : HeapGrows s size p.size (after post)) :
    ¬ ReallocKeeps malloc s (pre ++ p :: post) x size := by
  intro keeps
  -- the links behind the new epilogue may be null
  obtain ⟨e, he⟩ : ∃ e, e = s.memBrk + 4 * max (shortage size p.size (after post)) chunksize := ⟨_, rfl⟩
  obtain ⟨m, hm⟩ : ∃ m, m = setWord (setWord s.mem e null) (e + 4) null := ⟨_, rfl⟩
  have outside : PayloadsOnly s (pre ++ p :: post) m := fun q _ high _ => by
    rw [hm, setWord_of_outside (by omega), setWord_of_outside (by omega)]
  have next : nextAt m e = null := by
    rw [hm, nextAt, word_setWord_of_apart (by omega), word_setWord_self _ _ (by decide)]
  have prev : prevAt m e = null := by
    rw [hm, prevAt, word_setWord_self _ _ (by decide)]
  have grows' : HeapGrows { s with mem := m } size p.size (after post) :=
    HeapGrows.of_mem (s := { s with mem := m }) (m := s.mem) grows
  obtain ⟨s', run, broken⟩ := grows_not_intact malloc (wf.overwrite outside) alloc hx pos small grows'
    (by rw [← he]; exact next) (by rw [← he]; exact prev)
  have low := wf.tiled.low
  exact broken (keeps m outside x s' run (show x ≠ 0 by omega))

/-- `mm_realloc` in place leaves the heap intact exactly when the heap does not grow. -/
theorem realloc_keeps_iff (wf : WellFormed s (pre ++ p :: post)) (alloc : p.alloc = true)
    (hx : x = s.memStartBrk + 16 + extent Block.size pre) (pos : 1 ≤ size) (small : size ≤ maxHeap) :
    ReallocKeeps malloc s (pre ++ p :: post) x size ↔ ¬ HeapGrows s size p.size (after post) := by
  refine ⟨fun keeps grows => not_realloc_keeps wf alloc hx pos small grows keeps,
    fun fits m outside r s' run ne => ?_⟩
  exact realloc_keeps (wf.overwrite outside) alloc hx pos small (fun grows => fits grows.of_mem) run ne

end

def mergeable : State where
  mem := ofWords 4096 ([0, 9, 9, 17, 0, 0, 17, 128] ++ List.replicate 30 0 ++ [128, 17, 0, 0, 17, 1])
  memStartBrk := 4096
  memBrk := 4272
  memMaxAddr := 4096 + maxHeap
  heapListp := 4104
  sgrlists := fun c => if c = 7 then 4128 else null

theorem mergeable_wellFormed : WellFormed mergeable [⟨16, true⟩, ⟨128, false⟩, ⟨16, true⟩] := by
  have framed : ∀ e ∈ located 4112 [⟨16, true⟩, ⟨128, false⟩, ⟨16, true⟩],
      Framed mergeable.mem e.1 e.2 ∧ e.1 < 2 ^ 32 := by decide +kernel
  exact ⟨⟨by decide, by decide, by decide, rfl, by decide⟩, ⟨by decide, by decide +kernel, by decide,
    by decide, fun x b hb => (framed _ hb).1, rfl, by decide +kernel, by decide +kernel,
    fun x b hb => (framed _ hb).2, by decide⟩, fun c => if c = 7 then [4128] else [], by decide +kernel⟩

theorem mergeable_returns : ∃ s', Does NoMalloc (mmRealloc (fun _ => pure null) 4112 1) mergeable 4112 s' := by
  have wf : WellFormed mergeable ([] ++ ⟨16, true⟩ :: ⟨128, false⟩ :: [⟨16, true⟩]) := mergeable_wellFormed
  have tol := tolerates_noMalloc mergeable.memStartBrk mergeable.memBrk
  obtain ⟨u, deleting, -⟩ := Holding.delete_next (x := 4112) ⟨wf.tiled, wf.lists, .refl _⟩ rfl rfl tol
  obtain ⟨remainder, -, path⟩ : ∃ remainder, addInt (wanted 1) remainder = 16 + (⟨128, false⟩ : Block).size ∧
      reallocRead (fun _ => pure null) 4112 1 16 ⟨128, false⟩ = mmRealloc.absorb 4112 (wanted 1) remainder :=
    reallocRead_merges _ (by decide) (le_refl 1) (by decide) (by decide) (.inl rfl) (by decide)
  obtain ⟨s', run⟩ : ∃ s', Does NoMalloc (mmRealloc.absorb 4112 (wanted 1) remainder) mergeable 4112 s' :=
    does_absorb (fun _ => trivial) deleting
  refine ⟨s', (does_mmRealloc (x := 4112) wf rfl (by decide) tol).mpr ?_⟩
  rw [after_cons, path]
  exact run

theorem realloc_keeps_iff_mergeable :
    (∃ s', Does NoMalloc (mmRealloc (fun _ => pure null) 4112 1) mergeable 4112 s') ∧
      ReallocKeeps (fun _ => pure null) mergeable [⟨16, true⟩, ⟨128, false⟩, ⟨16, true⟩] 4112 1 :=
  ⟨mergeable_returns, (realloc_keeps_iff (show WellFormed mergeable ([] ++ ⟨16, true⟩ ::
    [⟨128, false⟩, ⟨16, true⟩]) from mergeable_wellFormed) rfl rfl (le_refl 1) (by decide)).mpr (by decide +kernel)⟩

/-- The last block, of 16 bytes, claims 4112 bytes of 16400. -/
theorem realloc_grows_reserved :
    WellFormed reserved [⟨16, false⟩, ⟨16, true⟩, ⟨16, true⟩] ∧
      ∃ s', Does NoMalloc (mmRealloc (fun _ => pure null) 4144 1) reserved 4144 s' ∧
        ¬ Intact reserved s' [⟨16, false⟩, ⟨16, true⟩, ⟨16, true⟩] 4144 4144 :=
  ⟨reserved_wellFormed, grows_not_intact (fun _ => pure null)
    (show WellFormed reserved ([⟨16, false⟩, ⟨16, true⟩] ++ ⟨16, true⟩ :: []) from reserved_wellFormed) rfl rfl
    (le_refl 1) (by decide) (by decide +kernel) (by decide +kernel) (by decide +kernel)⟩

end MallocLab.Segregated
