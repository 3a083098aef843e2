import MallocLab.Segregated.Coalesce

/-!
# What an operation leaves alone

An operation writes links of free blocks and the words of one stretch of blocks. The payloads of the
allocated blocks outside the stretch stay, and so do the headers.
-/

namespace MallocLab.Segregated
open Memory Logged

/-- The allocated blocks `live` are still there with their payloads. -/
def Keeps (s s' : State) (live : List (Nat × Block)) (bs' : List Block) : Prop :=
  ∀ z c, (z, c) ∈ live → (z, c) ∈ allocated (s'.memStartBrk + 16) bs' ∧
    ∀ q, z ≤ q → q + 8 < z + c.size → s'.mem q = s.mem q

def others (s : State) (bs : List Block) (x : Nat) : List (Nat × Block) :=
  (allocated (s.memStartBrk + 16) bs).filter fun e => e.1 ≠ x

/-- Only payloads of allocated blocks and bytes outside the heap differ. -/
def PayloadsOnly (s : State) (bs : List Block) (m : Mem) : Prop :=
  ∀ q, s.memStartBrk ≤ q → q < s.memBrk →
    (∀ x b, (x, b) ∈ allocated (s.memStartBrk + 16) bs → q < x ∨ x + b.size - 8 ≤ q) →
    m q = s.mem q

section
variable {ok : Event → Prop} {s s' t : State} {e x y n m a b c d : Nat} {p : Block}
  {bs cs pre post L R : List Block} {F G H : List (Nat × Nat)} {live : List (Nat × Block)}

theorem Only.trans (one : Only s t F a b) (two : Only t s' G a b) (subF : ∀ f ∈ F, f ∈ H)
    (subG : ∀ g ∈ G, g ∈ H) : Only s s' H a b :=
  ⟨two.start.trans one.start, two.brk.trans one.brk, two.max.trans one.max,
    two.listp.trans one.listp, fun q outside apart =>
      (two.mem q outside fun g hg => apart g (subG g hg)).trans
        (one.mem q outside fun f hf => apart f (subF f hf))⟩

theorem Only.mono (only : Only s s' F a b) (sub : ∀ f ∈ F, f ∈ G) : Only s s' G a b :=
  ⟨only.start, only.brk, only.max, only.listp, fun q outside apart =>
    only.mem q outside fun f hf => apart f (sub f hf)⟩

theorem Only.widen (only : Only s s' F a b) (low : c ≤ a) (high : b ≤ d) : Only s s' F c d :=
  ⟨only.start, only.brk, only.max, only.listp, fun q outside => only.mem q (by omega)⟩

theorem Only.keeps (only : Only s s' (frees a bs) (y - 4) (y + p.size))
    (start : a = s'.memStartBrk + 16) (large : ∀ c ∈ bs, 16 ≤ c.size)
    (here : (y, p) ∈ located a cs) (old : ∀ e ∈ live, e ∈ allocated a bs)
    (new : ∀ e ∈ live, e ∈ allocated a cs ∧ e ≠ (y, p)) : Keeps s s' live cs := by
  intro z c hz
  obtain ⟨member, ne⟩ := new _ hz
  refine ⟨start ▸ member, fun q low high => only.mem q ?_ fun f hf => ?_⟩
  · rcases placed_apart here (mem_allocated.mp member).1 with ⟨rfl, rfl⟩ | apart | apart
    · exact absurd rfl ne
    · exact Or.inr (apart.trans low)
    · omega
  · obtain ⟨placed, alloc⟩ := mem_allocated.mp (old _ hz)
    have free := mem_frees.mp hf
    have := large _ (placed_mem free)
    rcases placed_apart free placed with ⟨-, rfl⟩ | apart | apart
    · cases alloc
    · simp only at *
      omega
    · omega

theorem mem_others {z : Nat} {c : Block} :
    (z, c) ∈ others s bs x ↔ (z, c) ∈ allocated (s.memStartBrk + 16) bs ∧ z ≠ x := by
  simp [others]

theorem Holding.wellFormed (hold : Holding s' s.memBrk bs F) (only : Only s s' G a b)
    (valid : s.Valid) (perm : F.Perm (frees (s'.memStartBrk + 16) bs)) : WellFormed s' bs := by
  have valid' : s'.Valid := by
    refine ⟨?_, ?_, ?_, ?_, ?_⟩ <;> simp only [only.start, only.brk, only.max]
    · exact valid.start
    · exact valid.low
    · exact valid.high
    · exact valid.area
    · exact valid.space
  exact ⟨valid', only.brk ▸ hold.tiled, hold.lists.perm perm⟩

theorem Holding.retag {w : Nat} (hold : Holding s e (pre ++ post) F)
    (hx : x = s.memStartBrk + 16 + extent Block.size pre)
    (size : sizeAt (setWord s.mem (x - 4) w) (x - 4) = sizeAt s.mem (x - 4))
    (alloc : allocAt (setWord s.mem (x - 4) w) (x - 4) = allocAt s.mem (x - 4)) :
    Holding (s.store (x - 4) w) e (pre ++ post) F := by
  subst hx
  refine ⟨hold.tiled.retag size alloc, hold.lists.congr rfl fun f hf q low high => ?_, hold.sub⟩
  have := header_apart hold.tiled.large (hold.sub.subset hf)
  exact setWord_of_outside (by omega)

theorem Only.header (only : Only s t (frees (s.memStartBrk + 16) (pre ++ post)) a b)
    (large : ∀ c ∈ pre ++ post, 16 ≤ c.size) (hx : x = s.memStartBrk + 16 + extent Block.size pre)
    (outside : x ≤ a ∨ b ≤ x - 4) : word t.mem (x - 4) = word s.mem (x - 4) := by
  refine word_congr fun q low high => only.mem q (by omega) fun f hf => ?_
  have := header_apart large hf
  have := (placed_bounds (mem_frees.mp hf)).1
  omega

theorem Only.taggedBefore (only : Only s t (frees (s.memStartBrk + 16) (pre ++ post)) (x - 4) b)
    (large : ∀ c ∈ pre ++ post, 16 ≤ c.size) (hx : x = s.memStartBrk + 16 + extent Block.size pre) :
    Segregated.taggedBefore t x pre = Segregated.taggedBefore s x pre := by
  have kept : word t.mem (x - (before pre).size - 4) = word s.mem (x - (before pre).size - 4) := by
    rcases pre.eq_nil_or_concat' with rfl | ⟨pre, c, rfl⟩
    · refine word_congr fun q low high => only.mem q ?_ fun f hf => ?_
      · simp only [before_nil, extent_nil] at *
        omega
      · have := placed_bounds (mem_frees.mp hf)
        simp only [before_nil, extent_nil] at *
        omega
    · have c16 := large c (by simp)
      rw [List.append_assoc] at large only
      simp only [before_concat, extent_append, extent_cons, extent_nil, Nat.add_zero] at *
      exact only.header large (by omega) (by omega)
  unfold Segregated.taggedBefore tagAt
  rw [kept]

theorem Tiled.unique_from (one : Tiled s e (pre ++ bs)) (two : Tiled s e (pre ++ cs)) : bs = cs := by
  induction bs generalizing pre cs with
  | nil =>
      cases cs with
      | nil => rfl
      | cons c cs =>
          have := one.cut.nextSize.symm.trans two.cut.nextSize
          have := two.large c (by simp)
          simp only [after_nil, after_cons] at *
          omega
  | cons b bs ih =>
      have size := one.cut.nextSize.symm.trans two.cut.nextSize
      have flag := one.cut.nextAlloc.symm.trans two.cut.nextAlloc
      cases cs with
      | nil =>
          have := one.large b (by simp)
          simp only [after_nil, after_cons] at *
          omega
      | cons c cs =>
          obtain ⟨n, alloc⟩ := b
          obtain ⟨k, alloc'⟩ := c
          simp only [after_cons] at size flag
          obtain rfl : alloc = alloc' := by
            cases alloc <;> cases alloc' <;> first | rfl | cases flag
          subst size
          have rest := ih (show Tiled s e (pre ++ [⟨n, alloc⟩] ++ bs) by simpa using one)
            (show Tiled s e (pre ++ [⟨n, alloc⟩] ++ cs) by simpa using two)
          rw [rest]

theorem Tiled.unique (one : Tiled s e bs) (two : Tiled s e cs) : bs = cs :=
  Tiled.unique_from (show Tiled s e ([] ++ bs) from one) (show Tiled s e ([] ++ cs) from two)

theorem Tiled.prefix_from {e' : Nat} (one : Tiled s e (L ++ pre ++ post)) (two : Tiled s' e' (L ++ cs))
    (start : s'.memStartBrk = s.memStartBrk)
    (same : ∀ f ∈ located (s.memStartBrk + 16 + extent Block.size L) pre,
      word s'.mem (f.1 - 4) = word s.mem (f.1 - 4)) : ∃ rest, cs = pre ++ rest := by
  induction pre generalizing L cs with
  | nil => exact ⟨cs, rfl⟩
  | cons b pre ih =>
      have header := same (_, b) List.mem_cons_self
      have old := (show Tiled s e (L ++ (b :: pre ++ post)) by simpa using one).cut
      have new := two.cut
      rw [start] at new
      have size := new.nextSize
      have alloc := new.nextAlloc
      rw [sizeAt, header, ← sizeAt, old.nextSize] at size
      rw [allocAt, header, ← allocAt, old.nextAlloc] at alloc
      cases cs with
      | nil =>
          have := one.large b (by simp)
          simp only [List.cons_append, after_cons, after_nil] at size
          omega
      | cons c cs =>
          obtain ⟨n, flag⟩ := b
          obtain ⟨k, flag'⟩ := c
          simp only [List.cons_append, after_cons] at size alloc
          obtain rfl : flag = flag' := by
            cases flag <;> cases flag' <;> first | rfl | cases alloc
          subst size
          obtain ⟨rest, rfl⟩ := ih (show Tiled s e (L ++ [⟨n, flag⟩] ++ pre ++ post) by simpa using one)
            (show Tiled s' e' (L ++ [⟨n, flag⟩] ++ cs) by simpa using two) fun f hf => same f (by
              refine List.mem_cons_of_mem _ ?_
              simpa [Nat.add_assoc] using hf)
          exact ⟨rest, rfl⟩

theorem WellFormed.overwrite {m : Mem} (wf : WellFormed s bs) (kept : PayloadsOnly s bs m) :
    WellFormed { s with mem := m } bs := by
  refine ⟨wf.valid.setMem m, wf.tiled.payloads rfl fun q low high outside => ?_,
    wf.lists.congr rfl fun f hf q low high => ?_⟩
  · exact kept q low high fun x b hb => outside x b (mem_allocated.mp hb).1
  · have free := mem_frees.mp hf
    have bounds := placed_bounds free
    have f16 := wf.tiled.large _ (placed_mem free)
    have ends := wf.tiled.ends
    refine kept q (by omega) (by simp only at *; omega) fun x b hb => ?_
    obtain ⟨placed, alloc⟩ := mem_allocated.mp hb
    rcases placed_apart free placed with ⟨-, rfl⟩ | apart | apart
    · cases alloc
    · simp only at *
      omega
    · have := wf.tiled.large _ (placed_mem placed)
      omega

theorem allocated_merged (tagged : Bool) (a : Nat) (pre : List Block) (n : Nat) (post : List Block) :
    allocated a (keptUntagged tagged pre ++
        ⟨freeUntagged tagged pre + n + freeAfter post, false⟩ :: keptAfter post) =
      allocated a (pre ++ ⟨n, false⟩ :: post) := by
  cases tagged
  · rw [allocated_append a pre, allocated_cons_false _ _ rfl]
    exact allocated_join a pre n post
  · simp only [keptUntagged, freeUntagged, if_true, Nat.zero_add]
    rw [allocated_append, allocated_append, allocated_cons_false _ _ rfl, allocated_cons_false _ _ rfl,
      ← Nat.add_assoc, allocated_keptAfter]

theorem extent_keptUntagged (tagged : Bool) (pre : List Block) :
    extent Block.size (keptUntagged tagged pre) + freeUntagged tagged pre = extent Block.size pre := by
  cases tagged
  · exact extent_keptBefore pre
  · rfl

theorem keptUntagged_cases (tagged : Bool) (pre : List Block) :
    (keptUntagged tagged pre = pre ∧ freeUntagged tagged pre = 0) ∨
      ∃ c, c.alloc = false ∧ tagged = false ∧ pre = keptUntagged tagged pre ++ [c] ∧
        freeUntagged tagged pre = c.size := by
  cases tagged
  · rcases pre.eq_nil_or_concat' with rfl | ⟨pre, c, rfl⟩
    · exact Or.inl ⟨rfl, rfl⟩
    · cases hc : c.alloc
      · exact Or.inr ⟨c, hc, rfl, by simp [keptUntagged, keptBefore, hc],
          by simp [freeUntagged, freeBefore, hc]⟩
      · exact Or.inl (by simp [keptUntagged, freeUntagged, keptBefore, freeBefore, hc])
  · exact Or.inl ⟨rfl, rfl⟩

theorem keptUntagged_prefix (tagged : Bool) (pre : List Block) :
    ∃ rest, pre = keptUntagged tagged pre ++ rest := by
  rcases keptUntagged_cases tagged pre with ⟨same, -⟩ | ⟨c, -, -, split, -⟩
  · exact ⟨[], by rw [same, List.append_nil]⟩
  · exact ⟨[c], split⟩

theorem keptAfter_suffix (post : List Block) :
    ∃ first, post = first ++ keptAfter post ∧ extent Block.size first = freeAfter post := by
  refine ⟨_, (cons_keptAfter post).symm, ?_⟩
  cases next : (after post).alloc <;> simp [freeAfter, next]

end

end MallocLab.Segregated
