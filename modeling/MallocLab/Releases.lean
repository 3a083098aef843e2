import MallocLab.Blocks

/-!
# Freeing on a list of blocks

A freed block joins its free neighbours. When no two neighbouring blocks are both free, the list
after any number of frees is `merged (freed ps a bs)`: the blocks of `ps` marked free and every run of
free blocks made one. So the order of the frees does not matter.
-/

namespace MallocLab
open Memory

/-- The block whose payload starts at `p`, with the blocks before and after it. -/
def blockAt (p : Nat) : Nat → List Block → Option (List Block × Block × List Block)
  | _, [] => none
  | a, b :: bs =>
      if p = a then some ([], b, bs)
      else (blockAt p (a + b.size) bs).map fun (pre, c, post) => (b :: pre, c, post)

/-- The list after the block at `p` is freed. -/
def release (p a : Nat) (bs : List Block) : List Block :=
  match blockAt p a bs with
  | some (pre, b, post) => join pre b.size post
  | none => bs

def Separated (bs : List Block) : Prop := bs.IsChain fun b c => b.alloc = true ∨ c.alloc = true

instance (bs : List Block) : Decidable (Separated bs) :=
  inferInstanceAs (Decidable (List.IsChain _ _))

def attach (b : Block) (rest : List Block) : List Block :=
  if b.alloc then b :: rest else ⟨b.size + freeAfter rest, false⟩ :: keptAfter rest

/-- Every run of free blocks made one. -/
def merged (bs : List Block) : List Block := bs.foldr attach []

/-- The blocks that start at one of `ps` marked free. -/
def freed (ps : List Nat) : Nat → List Block → List Block
  | _, [] => []
  | a, b :: bs => ⟨b.size, b.alloc && !decide (a ∈ ps)⟩ :: freed ps (a + b.size) bs

def releaseAll (ps : List Nat) (a : Nat) (bs : List Block) : List Block :=
  ps.foldl (fun bs p => release p a bs) bs

/-! ## Separation -/

theorem separated_alloc {pre post : List Block} {b : Block} (ha : b.alloc = true) :
    Separated (pre ++ b :: post) ↔ Separated pre ∧ Separated post := by
  simp only [Separated, List.isChain_append, List.isChain_cons, List.head?_cons,
    Option.mem_some_iff, forall_eq']
  constructor
  · rintro ⟨hp, ⟨-, hq⟩, -⟩
    exact ⟨hp, hq⟩
  · rintro ⟨hp, hq⟩
    exact ⟨hp, ⟨fun _ _ => Or.inl ha, hq⟩, fun _ _ => Or.inr ha⟩

theorem separated_split {pre post : List Block} (h : Separated (pre ++ post)) :
    Separated pre ∧ Separated post := by
  have := List.isChain_append.mp h
  exact ⟨this.1, this.2.1⟩

theorem before_alloc {pre post : List Block} {b : Block} (h : Separated (pre ++ b :: post))
    (hf : b.alloc = false) : (before pre).alloc = true := by
  rcases pre.eq_nil_or_concat' with rfl | ⟨pre, c, rfl⟩
  · rfl
  · have := (List.isChain_append.mp h).2.2 c (by simp) b (by simp)
    simpa [hf] using this

theorem after_alloc {pre post : List Block} {b : Block} (h : Separated (pre ++ b :: post))
    (hf : b.alloc = false) : (after post).alloc = true := by
  cases post with
  | nil => rfl
  | cons c post =>
      have := (List.isChain_cons_cons.mp (separated_split h).2).1
      simpa [hf] using this

theorem separated_keptBefore {pre : List Block} (h : Separated pre) :
    Separated (keptBefore pre) ∧ (before (keptBefore pre)).alloc = true := by
  rcases pre.eq_nil_or_concat' with rfl | ⟨pre, b, rfl⟩
  · exact ⟨h, rfl⟩
  · cases hb : b.alloc
    · have hk : keptBefore (pre ++ [b]) = pre := by simp [keptBefore, hb]
      rw [hk]
      exact ⟨(separated_split h).1, before_alloc h hb⟩
    · have hk : keptBefore (pre ++ [b]) = pre ++ [b] := by simp [keptBefore, hb]
      rw [hk, before_concat]
      exact ⟨h, hb⟩

theorem separated_keptAfter {post : List Block} (h : Separated post) :
    Separated (keptAfter post) ∧ (after (keptAfter post)).alloc = true := by
  cases post with
  | nil => exact ⟨h, rfl⟩
  | cons b post =>
      cases hb : b.alloc
      · have hk : keptAfter (b :: post) = post := by simp [keptAfter, hb]
        rw [hk]
        exact ⟨(separated_split (show Separated ([b] ++ post) from h)).2,
          after_alloc (show Separated ([] ++ b :: post) from h) hb⟩
      · have hk : keptAfter (b :: post) = b :: post := by simp [keptAfter, hb]
        rw [hk, after_cons]
        exact ⟨h, hb⟩

theorem separated_free {pre post : List Block} (b : Block) (hp : Separated pre)
    (hq : Separated post) (hb : (before pre).alloc = true) (ha : (after post).alloc = true) :
    Separated (pre ++ b :: post) := by
  refine List.isChain_append.mpr ⟨hp, List.isChain_cons.mpr ⟨?_, hq⟩, ?_⟩
  · intro c hc
    rw [after, Option.mem_def.mp hc] at ha
    exact Or.inr ha
  · intro c hc _ _
    rw [before, Option.mem_def.mp hc] at hb
    exact Or.inl hb

theorem separated_join {pre post : List Block} (n : Nat) (hp : Separated pre)
    (hq : Separated post) : Separated (join pre n post) := by
  obtain ⟨hp', hb⟩ := separated_keptBefore hp
  obtain ⟨hq', ha⟩ := separated_keptAfter hq
  exact separated_free _ hp' hq' hb ha

/-! ## Releases -/

theorem blockAt_some {p a : Nat} {bs pre post : List Block} {b : Block}
    (h : blockAt p a bs = some (pre, b, post)) : bs = pre ++ b :: post ∧ p = a + extent Block.size pre := by
  induction bs generalizing a pre with
  | nil => simp [blockAt] at h
  | cons c bs ih =>
      unfold blockAt at h
      split at h
      · rename_i hp
        obtain ⟨rfl, rfl, rfl⟩ := by simpa using h
        exact ⟨rfl, by simpa using hp⟩
      · obtain ⟨⟨pre', b', post'⟩, found, e⟩ := Option.map_eq_some_iff.mp h
        simp only [Prod.mk.injEq] at e
        obtain ⟨rfl, rfl, rfl⟩ := e
        obtain ⟨rfl, hp⟩ := ih found
        exact ⟨rfl, by simp only [extent_cons]; omega⟩

theorem blockAt_extent {a : Nat} {pre post : List Block} {b : Block}
    (pos : ∀ c ∈ pre, 0 < c.size) :
    blockAt (a + extent Block.size pre) a (pre ++ b :: post) = some (pre, b, post) := by
  induction pre generalizing a with
  | nil => simp [blockAt]
  | cons c pre ih =>
      have hc := pos c (by simp)
      have := ih (a := a + c.size) fun d hd => pos d (by simp [hd])
      simp only [List.cons_append, extent_cons, blockAt]
      rw [if_neg (by omega), show a + (c.size + extent Block.size pre) = a + c.size + extent Block.size pre by omega, this]
      rfl

theorem release_extent {a : Nat} {pre post : List Block} {b : Block}
    (pos : ∀ c ∈ pre, 0 < c.size) :
    release (a + extent Block.size pre) a (pre ++ b :: post) = join pre b.size post := by
  rw [release, blockAt_extent pos]

theorem allocated_release {p a : Nat} {bs : List Block} {b : Block} (pos : ∀ c ∈ bs, 0 < c.size)
    (live : (p, b) ∈ allocated a bs) :
    (allocated a bs).Perm ((p, b) :: allocated a (release p a bs)) := by
  obtain ⟨placed, alloc⟩ := mem_allocated.mp live
  obtain ⟨pre, post, rfl, rfl⟩ := mem_placed.mp placed
  rw [release_extent fun c hc => pos c (by simp [hc]), allocated_join, allocated_append,
    allocated_cons_true _ _ alloc]
  exact List.perm_middle

/-! ## The canonical form -/

section
variable {a n : Nat} {b : Block} {bs pre post rest : List Block} {ps qs : List Nat}

theorem merged_cons (b : Block) (bs : List Block) : merged (b :: bs) = attach b (merged bs) := rfl

theorem attach_separated (sep : Separated (b :: rest)) : attach b rest = b :: rest := by
  obtain ⟨n, alloc⟩ := b
  cases alloc
  · have next := after_alloc (show Separated ([] ++ ⟨n, false⟩ :: rest) from sep) rfl
    simp [attach, freeAfter, keptAfter, next]
  · rfl

theorem foldr_attach (sep : Separated (pre ++ rest)) : pre.foldr attach rest = pre ++ rest := by
  induction pre with
  | nil => rfl
  | cons b pre ih =>
      have tail := (separated_split (show Separated ([b] ++ (pre ++ rest)) from sep)).2
      rw [List.foldr_cons, ih tail]
      exact attach_separated sep

theorem merged_separated (sep : Separated bs) : merged bs = bs := by
  have := foldr_attach (show Separated (bs ++ []) by rwa [List.append_nil])
  rwa [List.append_nil] at this

theorem merged_join (left : Separated pre) (right : Separated post) :
    merged (pre ++ ⟨n, false⟩ :: post) = join pre n post := by
  have sep := separated_join n left right
  rw [merged, List.foldr_append]
  change pre.foldr attach (attach ⟨n, false⟩ (merged post)) = _
  rw [merged_separated right]
  rcases pre.eq_nil_or_concat' with rfl | ⟨pre, c, rfl⟩
  · simp [join, attach, keptBefore, freeBefore]
  · cases hc : c.alloc
    · have whole : attach c (attach ⟨n, false⟩ post) =
          ⟨c.size + n + freeAfter post, false⟩ :: keptAfter post := by
        simp [attach, hc, freeAfter, keptAfter, Nat.add_assoc]
      simp only [join, keptBefore, freeBefore, before_concat, hc, Bool.false_eq_true, if_false,
        List.dropLast_concat] at sep ⊢
      rw [List.foldr_append, List.foldr_cons, List.foldr_nil, whole, foldr_attach sep]
    · simp only [join, keptBefore, freeBefore, before_concat, hc, if_true, Nat.zero_add] at sep ⊢
      exact foldr_attach sep

theorem attach_attach (free : b.alloc = false) (n : Nat) (rest : List Block) :
    attach b (attach ⟨n, false⟩ rest) = attach ⟨b.size + n, false⟩ rest := by
  simp [attach, free, freeAfter, keptAfter, Nat.add_assoc]

theorem merged_freed_merged (ps : List Nat) (a : Nat) (bs : List Block) :
    merged (freed ps a (merged bs)) = merged (freed ps a bs) := by
  induction bs generalizing a with
  | nil => rfl
  | cons b bs ih =>
      rw [merged_cons, freed, merged_cons, ← ih]
      generalize merged bs = rest
      cases hb : b.alloc
      · simp only [Bool.false_and]
        cases rest with
        | nil => simp [attach, hb, freed, freeAfter, keptAfter, merged]
        | cons c rest =>
            obtain ⟨n, alloc⟩ := c
            cases alloc
            · have joined : attach b (⟨n, false⟩ :: rest) = ⟨b.size + n, false⟩ :: rest := by
                simp [attach, hb, freeAfter, keptAfter]
              rw [joined, freed, freed, merged_cons, merged_cons]
              simp only [Bool.false_and]
              rw [attach_attach rfl, ← Nat.add_assoc]
            · simp [attach, hb, freeAfter, keptAfter, freed, merged_cons]
      · rw [attach, if_pos hb, freed, merged_cons, hb]

theorem freed_append (ps : List Nat) (a : Nat) (bs cs : List Block) :
    freed ps a (bs ++ cs) = freed ps a bs ++ freed ps (a + extent Block.size bs) cs := by
  induction bs generalizing a with
  | nil => rfl
  | cons b bs ih => simp [freed, ih, Nat.add_assoc]

theorem freed_apart (apart : ∀ x c, (x, c) ∈ located a bs → x ∉ ps) : freed ps a bs = bs := by
  induction bs generalizing a with
  | nil => rfl
  | cons b bs ih =>
      have here := apart a b (by simp [located])
      rw [freed, ih fun x c hc => apart x c (by simp [located] at hc ⊢; exact Or.inr hc)]
      simp [here]

theorem freed_one (pos : ∀ c ∈ pre ++ b :: post, 0 < c.size) :
    freed [a + extent Block.size pre] a (pre ++ b :: post) = pre ++ ⟨b.size, false⟩ :: post := by
  have hb := pos b (by simp)
  rw [freed_append, freed, freed_apart, freed_apart]
  · simp
  · intro x c hc
    have := (placed_bounds hc).1
    simp only [List.mem_singleton]
    omega
  · intro x c hc
    have := (placed_bounds hc).2
    have := pos c (by simp [placed_mem hc])
    simp only [List.mem_singleton]
    omega

theorem freed_cons (p : Nat) (ps : List Nat) (a : Nat) (bs : List Block) :
    freed ps a (freed [p] a bs) = freed (p :: ps) a bs := by
  induction bs generalizing a with
  | nil => rfl
  | cons b bs ih =>
      simp only [freed, ih, List.mem_cons, List.not_mem_nil, or_false]
      congr 2
      by_cases here : a = p <;> simp [here]

theorem freed_perm (perm : ps.Perm qs) (a : Nat) (bs : List Block) : freed ps a bs = freed qs a bs := by
  induction bs generalizing a with
  | nil => rfl
  | cons b bs ih => rw [freed, freed, ih, decide_eq_decide.mpr perm.mem_iff]

theorem releaseAll_eq (sep : Separated bs) (pos : ∀ c ∈ bs, 0 < c.size) (nodup : ps.Nodup)
    (live : ∀ p ∈ ps, ∃ b, (p, b) ∈ allocated a bs) :
    releaseAll ps a bs = merged (freed ps a bs) := by
  induction ps generalizing bs with
  | nil =>
      rw [freed_apart fun x c _ => List.not_mem_nil, merged_separated sep]
      rfl
  | cons p ps ih =>
      obtain ⟨fresh, distinct⟩ := List.nodup_cons.mp nodup
      obtain ⟨b, here⟩ := live p (by simp)
      have taken := allocated_release pos here
      obtain ⟨pre, post, rfl, rfl⟩ := mem_placed.mp (mem_allocated.mp here).1
      have left := (separated_split sep).1
      have right := (separated_split (show Separated ([b] ++ post) from (separated_split sep).2)).2
      have step : release (a + extent Block.size pre) a (pre ++ b :: post) = join pre b.size post :=
        release_extent fun c hc => pos c (by simp [hc])
      have mark := freed_one (a := a) pos
      rw [step] at taken
      change releaseAll ps a (release _ a _) = _
      rw [step, ih (separated_join _ left right), ← merged_join left right, ← mark,
        merged_freed_merged, freed_cons]
      · intro c hc
        rcases List.mem_append.mp hc with hc | hc
        · exact pos c (by simp [mem_keptBefore hc])
        · rcases List.mem_cons.mp hc with rfl | hc
          · have := pos b (by simp)
            simp only
            omega
          · exact pos c (by simp [mem_keptAfter hc])
      · exact distinct
      · intro q hq
        obtain ⟨c, hc⟩ := live q (by simp [hq])
        rcases List.mem_cons.mp (taken.mem_iff.mp hc) with same | kept
        · exact absurd ((Prod.mk.inj same).1 ▸ hq) fresh
        · exact ⟨c, kept⟩

theorem releaseAll_perm (sep : Separated bs) (pos : ∀ c ∈ bs, 0 < c.size) (nodup : ps.Nodup)
    (live : ∀ p ∈ ps, ∃ b, (p, b) ∈ allocated a bs) (perm : ps.Perm qs) :
    releaseAll ps a bs = releaseAll qs a bs := by
  rw [releaseAll_eq sep pos nodup live, releaseAll_eq sep pos (perm.nodup_iff.mp nodup)
    fun q hq => live q (perm.mem_iff.mpr hq), freed_perm perm]

theorem merged_free (ne : bs ≠ []) (free : ∀ c ∈ bs, c.alloc = false) :
    merged bs = [⟨extent Block.size bs, false⟩] := by
  induction bs with
  | nil => exact absurd rfl ne
  | cons b bs ih =>
      have hb := free b (by simp)
      rw [merged_cons]
      by_cases last : bs = []
      · simp [last, merged, attach, hb, freeAfter, keptAfter]
      · rw [ih last fun c hc => free c (by simp [hc])]
        simp [attach, hb, freeAfter, keptAfter]

theorem freed_all (all : ∀ x b, (x, b) ∈ allocated a bs → x ∈ ps) :
    (∀ c ∈ freed ps a bs, c.alloc = false) ∧
      extent Block.size (freed ps a bs) = extent Block.size bs := by
  induction bs generalizing a with
  | nil => simp [freed]
  | cons b bs ih =>
      obtain ⟨rest, size⟩ := ih (a := a + b.size) fun x c hc => all x c (by
        obtain ⟨placed, alloc⟩ := mem_allocated.mp hc
        exact mem_allocated.mpr ⟨List.mem_cons_of_mem _ placed, alloc⟩)
      refine ⟨fun c hc => ?_, by simp [freed, size]⟩
      rcases List.mem_cons.mp hc with rfl | hc
      · cases hb : b.alloc
        · rfl
        · simp [all a b (mem_allocated.mpr ⟨List.mem_cons_self, hb⟩)]
      · exact rest c hc

theorem releaseAll_all (sep : Separated bs) (pos : ∀ c ∈ bs, 0 < c.size) (ne : bs ≠ [])
    (perm : ps.Perm ((allocated a bs).map Prod.fst)) :
    releaseAll ps a bs = [⟨extent Block.size bs, false⟩] := by
  have member : ∀ p, p ∈ ps ↔ ∃ b, (p, b) ∈ allocated a bs := fun p => by
    rw [perm.mem_iff]
    simp
  obtain ⟨free, size⟩ := freed_all fun x b (hb : (x, b) ∈ allocated a bs) => (member x).mpr ⟨b, hb⟩
  rw [releaseAll_eq sep pos (perm.nodup_iff.mpr (allocated_nodup pos)) fun p hp => (member p).mp hp,
    merged_free ?_ free, size]
  cases bs with
  | nil => exact absurd rfl ne
  | cons b bs => simp [freed]

end

end MallocLab
