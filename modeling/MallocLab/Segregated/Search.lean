import MallocLab.Segregated.Place

/-!
# The search of `mm_malloc`

The counter `list` stays at the first list. No block is small enough for it, so the search never ends.
-/

namespace MallocLab.Segregated
open Memory Logged

/-- What `mm_malloc` promises for a request: the search ends, and a free block that is large enough and not
tagged is used without growing the heap. -/
structure Answers (s : State) (bs : List Block) (size : Nat) : Prop where
  ends : ∃ rounds bp t, Does (fun _ => True) (searchLists (adjust size) rounds 0 (adjust size) null) s bp t
  reuses : ∀ x n, (x, n) ∈ frees (s.memStartBrk + 16) bs → adjust size ≤ n → tagAt s.mem (x - 4) = 0 →
    ∃ rounds y k s', Does (fun _ => True) (mmMalloc rounds size) s y s' ∧ s'.memBrk = s.memBrk ∧
      (y, k) ∈ frees (s.memStartBrk + 16) bs ∧ adjust size ≤ k ∧ tagAt s.mem (y - 4) = 0

section
variable {ok : Event → Prop} {s t : State} {c r asize size bp rounds : Nat} {bs : List Block}
  {F : List (Nat × Nat)}

theorem Lists.head_null (held : Lists s F) (hc : c < lists) (none : ∀ f ∈ F, classOf f.2 ≠ c) :
    s.sgrlists c = null := by
  obtain ⟨L, segs⟩ := held
  obtain ⟨seg, perm⟩ := segs c hc
  by_contra ne
  obtain ⟨n, member, same⟩ := (mem_class perm).mp (seg.head_mem ne)
  exact none _ member same

theorem classOf_large {n : Nat} (large : 16 ≤ n) : 4 ≤ classOf n := by
  have : 4 ≤ Nat.log2 n := (Nat.le_log2 (by omega)).mpr large
  unfold classOf
  omega

theorem WellFormed.head_null (wf : WellFormed s bs) (low : c < 4) : s.sgrlists c = null := by
  refine wf.lists.head_null (low.trans (by decide)) fun f hf same => ?_
  have := classOf_large (wf.tiled.large _ (placed_mem (mem_frees.mp hf)))
  simp only at this
  omega

theorem searchLists_never_ends (empty : s.sgrlists 0 = null) :
    ¬ Does ok (searchLists asize rounds 0 size bp) s r t := by
  induction rounds generalizing size bp with
  | zero => exact not_does_stuck
  | succ rounds ih =>
      rw [searchLists, if_pos (by decide), does_getHead_bind, empty, if_neg (by simp [lists])]
      exact ih

theorem mmMalloc_never_returns (empty : s.sgrlists 0 = null) (pos : 1 ≤ size) :
    ¬ Does ok (mmMalloc rounds size) s r t := by
  rw [mmMalloc, if_neg (by omega)]
  intro run
  obtain ⟨bp, u, search, -⟩ := does_bind.mp run
  exact searchLists_never_ends empty search

/-- In no well-formed heap is any request answered. -/
theorem malloc_never_answers (wf : WellFormed s bs) (size : Nat) : ¬ Answers s bs size := by
  intro answers
  obtain ⟨rounds, bp, t, run⟩ := answers.ends
  exact searchLists_never_ends (wf.head_null (by decide)) run

end

theorem malloc_never_answers_vacant : ¬ Answers (vacant 32) [⟨32, false⟩] 24 :=
  malloc_never_answers (vacant_wellFormed (Or.inl rfl)) 24

theorem malloc_misses_vacant :
    WellFormed (vacant 32) [⟨32, false⟩] ∧ (4112, 32) ∈ frees (4096 + 16) [⟨32, false⟩] ∧
      adjust 24 = 32 ∧ tagAt (vacant 32).mem (4112 - 4) = 0 ∧
      (∀ rounds r s', ¬ Does (fun _ => True) (mmMalloc rounds 24) (vacant 32) r s') ∧
      ¬ Answers (vacant 32) [⟨32, false⟩] 24 :=
  ⟨vacant_wellFormed (Or.inl rfl), by decide, by decide, by decide +kernel,
    fun _ _ _ => mmMalloc_never_returns rfl (by decide),
    fun answers => answers.ends.elim fun _ ⟨_, _, run⟩ => searchLists_never_ends rfl run⟩

end MallocLab.Segregated
