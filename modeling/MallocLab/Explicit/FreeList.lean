import MallocLab.Explicit.Place

/-!
# The operations on the free list

`insertblock` and `removeblock` on nodes whose links do not touch. However often they are called, the list
in memory is the list of nodes that the calls make, and only link words are read or written. `removeblock`
is called nowhere in the source.
-/

namespace MallocLab.Explicit
open Memory Logged

def removeblock (bp : Nat) : Prog Unit := do
  if (← prevFreep bp) ≠ null then
    put ((← prevFreep bp) + dsize) (← nextFreep bp)
  else
    let next ← nextFreep bp
    change fun s => { s with freeListp := next }
  put (← nextFreep bp) (← prevFreep bp)

structure Cells (e : Nat) (cells : Set Nat) : Prop where
  outer : e ∉ cells
  range : ∀ x ∈ insert e cells, 0 < x ∧ x < 2 ^ 32
  apart : ∀ x ∈ insert e cells, ∀ y ∈ insert e cells, x ≠ y → x + 12 ≤ y ∨ y + 12 ≤ x

structure Links (s : State) (cells : Set Nat) (xs : List Nat) : Prop where
  chain : Chain s xs
  nodup : xs.Nodup
  nodes : ∀ x ∈ xs, x ∈ cells

def OnLinks (e : Nat) (cells : Set Nat) : Event → Prop
  | .access p => ∃ x ∈ insert e cells, p = x ∨ p = x + 8
  | .print _ => False

/-- Only the list head and links differ. -/
structure Linked (s s' : State) (cells : Set Nat) : Prop where
  lib : s'.memStartBrk = s.memStartBrk ∧ s'.memBrk = s.memBrk ∧ s'.memMaxAddr = s.memMaxAddr
  listp : s'.heapListp = s.heapListp
  mem : ∀ q, (∀ x ∈ insert s.heapListp cells, (q < x ∨ x + 4 ≤ q) ∧ (q < x + 8 ∨ x + 12 ≤ q)) →
    s'.mem q = s.mem q

inductive ListOp
  | insert (bp : Nat)
  | remove (bp : Nat)

namespace ListOp

def run : ListOp → Prog Unit
  | insert bp => insertblock bp
  | remove bp => removeblock bp

def apply (xs : List Nat) : ListOp → List Nat
  | insert bp => bp :: xs
  | remove bp => xs.erase bp

def Legal (cells : Set Nat) (xs : List Nat) : ListOp → Prop
  | insert bp => bp ∈ cells ∧ bp ∉ xs
  | remove bp => bp ∈ xs

end ListOp

def runAll : List ListOp → Prog Unit
  | [] => pure ()
  | op :: ops => do
    op.run
    runAll ops

def LegalAll (cells : Set Nat) : List Nat → List ListOp → Prop
  | _, [] => True
  | xs, op :: ops => op.Legal cells xs ∧ LegalAll cells (op.apply xs) ops

section
variable {ok : Event → Prop} {s s' : State} {cells : Set Nat} {xs pre post : List Nat} {e x y v : Nat}
  {m : Mem} {α : Type} {a : α} {g : Nat → Prog α}

theorem does_prevFreep_bind :
    Does ok (prevFreep x >>= g) s a s' ↔ ok (.access x) ∧ Does ok (g (prevAt s.mem x)) s a s' := does_get_bind

/-! ## Storing a link -/

theorem nextAt_storeNext (c : Cells e cells) (hx : x ∈ insert e cells) (hy : y ∈ insert e cells)
    (small : v < 2 ^ 32) : nextAt (setWord m (x + 8) v) y = if y = x then v else nextAt m y := by
  split
  · rename_i same
    rw [same]
    exact word_setWord_self m (x + 8) small
  · rename_i other
    have := c.apart y hy x hx other
    exact word_setWord_of_apart (by omega)

theorem prevAt_storeNext (c : Cells e cells) (hx : x ∈ insert e cells) (hy : y ∈ insert e cells) :
    prevAt (setWord m (x + 8) v) y = prevAt m y := by
  apply word_setWord_of_apart
  by_cases same : y = x
  · omega
  · have := c.apart y hy x hx same
    omega

theorem prevAt_storePrev (c : Cells e cells) (hx : x ∈ insert e cells) (hy : y ∈ insert e cells)
    (small : v < 2 ^ 32) : prevAt (setWord m x v) y = if y = x then v else prevAt m y := by
  split
  · rename_i same
    rw [same]
    exact word_setWord_self m x small
  · rename_i other
    have := c.apart y hy x hx other
    exact word_setWord_of_apart (by omega)

theorem nextAt_storePrev (c : Cells e cells) (hx : x ∈ insert e cells) (hy : y ∈ insert e cells) :
    nextAt (setWord m x v) y = nextAt m y := by
  apply word_setWord_of_apart
  by_cases same : y = x
  · omega
  · have := c.apart y hy x hx same
    omega

/-! ## The two operations -/

theorem Links.outer (l : Links s cells xs) (here : x ∈ xs) : x ∈ insert s.heapListp cells :=
  Set.mem_insert_of_mem _ (l.nodes x here)

theorem Links.head (l : Links s cells xs) : s.freeListp ∈ insert s.heapListp cells := by
  rw [l.chain.head_eq]
  cases xs with
  | nil => exact Set.mem_insert _ _
  | cons x xs => exact l.outer (by simp)

theorem nextAt_insert (c : Cells s.heapListp cells) (l : Links s cells xs) (here : x ∈ cells)
    (hy : y ∈ insert s.heapListp cells) :
    nextAt (s.insert x).mem y = if y = x then s.freeListp else nextAt s.mem y := by
  have node : x ∈ insert s.heapListp cells := Set.mem_insert_of_mem _ here
  simp only [State.insert, State.store]
  rw [nextAt_storePrev c node hy, nextAt_storePrev c l.head hy, nextAt_storeNext c node hy (c.range _ l.head).2]

theorem prevAt_insert (c : Cells s.heapListp cells) (l : Links s cells xs) (here : x ∈ cells)
    (hy : y ∈ insert s.heapListp cells) : prevAt (s.insert x).mem y =
      if y = x then null else if y = s.freeListp then x else prevAt s.mem y := by
  have node : x ∈ insert s.heapListp cells := Set.mem_insert_of_mem _ here
  simp only [State.insert, State.store]
  rw [prevAt_storePrev c node hy (by decide), prevAt_storePrev c l.head hy (c.range x node).2,
    prevAt_storeNext c node hy]

theorem insertblock_runs (l : Links s cells xs) (here : x ∈ cells) :
    Does (OnLinks s.heapListp cells) (insertblock x) s () (s.insert x) := by
  have node : x ∈ insert s.heapListp cells := Set.mem_insert_of_mem _ here
  simp only [insertblock, does_freeListp_bind, does_put_bind, does_change]
  exact ⟨⟨x, node, Or.inr rfl⟩, ⟨_, l.head, Or.inl rfl⟩, ⟨x, node, Or.inl rfl⟩, rfl⟩

theorem Links.inserted (c : Cells s.heapListp cells) (l : Links s cells xs) (here : x ∈ cells) (new : x ∉ xs) :
    Links (s.insert x) cells (x :: xs) := by
  have node : x ∈ insert s.heapListp cells := Set.mem_insert_of_mem _ here
  have ne : x ≠ s.heapListp := fun same => c.outer (same ▸ here)
  have apart : x ≠ s.freeListp := by
    intro same
    by_cases empty : s.freeListp = s.heapListp
    · exact ne (same.trans empty)
    · exact new (same ▸ l.chain.head_mem empty)
  refine ⟨?_, List.nodup_cons.mpr ⟨new, l.nodup⟩, List.forall_mem_cons.mpr ⟨here, l.nodes⟩⟩
  show Segment (nextAt (s.insert x).mem) (prevAt (s.insert x).mem) null x (x :: xs) s.heapListp
  refine l.chain.push ne l.nodup ?_ ?_ (fun y hy => ?_) fun y hy => ?_
  · rw [nextAt_insert c l here node, if_pos rfl]
  · rw [prevAt_insert c l here node, if_pos rfl]
  · rw [nextAt_insert c l here (l.outer hy), if_neg]
    rintro rfl
    exact new hy
  · rw [prevAt_insert c l here (l.outer hy), if_neg]
    rintro rfl
    exact new hy

theorem Linked.inserted (l : Links s cells xs) (here : x ∈ cells) : Linked s (s.insert x) cells := by
  refine ⟨⟨rfl, rfl, rfl⟩, rfl, fun q outside => ?_⟩
  have own := outside x (Set.mem_insert_of_mem _ here)
  have old := outside _ l.head
  simp only [State.insert, State.store]
  rw [setWord_of_outside (by omega), setWord_of_outside (by omega), setWord_of_outside (by omega)]

/-- The first write of `removeblock`, by which the predecessor or the head passes over the node. -/
def State.bypass (s : State) (bp : Nat) : State :=
  if prevAt s.mem bp ≠ null then s.store (prevAt s.mem bp + 8) (nextAt s.mem bp)
  else { s with freeListp := nextAt s.mem bp }

def State.remove (s : State) (bp : Nat) : State :=
  (s.bypass bp).store (nextAt s.mem bp) (prevAt s.mem bp)

theorem bypass_listp (s : State) (x : Nat) : (s.bypass x).heapListp = s.heapListp := by
  unfold State.bypass
  split <;> rfl

theorem Links.next_mem (l : Links s cells xs) (here : x ∈ xs) : nextAt s.mem x ∈ insert s.heapListp cells := by
  obtain ⟨pre, post, rfl⟩ := List.append_of_mem here
  rw [l.chain.middle.2.1]
  cases post with
  | nil => exact Set.mem_insert _ _
  | cons y post => exact l.outer (by simp)

theorem Links.prev_mem (l : Links s cells xs) (here : x ∈ xs) (some : prevAt s.mem x ≠ null) :
    prevAt s.mem x ∈ insert s.heapListp cells ∧ prevAt s.mem x ≠ x := by
  obtain ⟨pre, post, rfl⟩ := List.append_of_mem here
  rw [l.chain.middle.1] at some ⊢
  rcases pre.eq_nil_or_concat' with rfl | ⟨pre, y, rfl⟩
  · exact absurd rfl some
  · have apart : y ≠ x := (List.nodup_append.mp l.nodup).2.2 y (by simp) x (by simp)
    simpa using ⟨l.outer (x := y) (by simp), apart⟩

theorem nextAt_bypass (c : Cells s.heapListp cells) (l : Links s cells xs) (here : x ∈ xs)
    (hy : y ∈ insert s.heapListp cells) :
    nextAt (s.bypass x).mem y = if y = prevAt s.mem x then nextAt s.mem x else nextAt s.mem y := by
  unfold State.bypass
  split
  · rename_i some
    exact nextAt_storeNext c (l.prev_mem here some).1 hy (word_lt _ _)
  · rename_i none
    rw [if_neg]
    rintro rfl
    exact none (c.range _ hy).1.ne'

theorem prevAt_bypass (c : Cells s.heapListp cells) (l : Links s cells xs) (here : x ∈ xs)
    (hy : y ∈ insert s.heapListp cells) : prevAt (s.bypass x).mem y = prevAt s.mem y := by
  unfold State.bypass
  split
  · rename_i some
    exact prevAt_storeNext c (l.prev_mem here some).1 hy
  · rfl

theorem nextAt_bypass_self (c : Cells s.heapListp cells) (l : Links s cells xs) (here : x ∈ xs) :
    nextAt (s.bypass x).mem x = nextAt s.mem x := by
  rw [nextAt_bypass c l here (l.outer here), if_neg]
  intro same
  have some : prevAt s.mem x ≠ null := same ▸ (c.range x (l.outer here)).1.ne'
  exact (l.prev_mem here some).2 same.symm

theorem removeblock_runs (c : Cells s.heapListp cells) (l : Links s cells xs) (here : x ∈ xs) :
    Does (OnLinks s.heapListp cells) (removeblock x) s () (s.remove x) := by
  have node := l.outer here
  have access : OnLinks s.heapListp cells (.access x) ∧ OnLinks s.heapListp cells (.access (x + 8)) :=
    ⟨⟨x, node, Or.inl rfl⟩, ⟨x, node, Or.inr rfl⟩⟩
  have last : OnLinks s.heapListp cells (.access (nextAt s.mem x)) := ⟨_, l.next_mem here, Or.inl rfl⟩
  have next := nextAt_bypass_self c l here
  have prev := prevAt_bypass c l here node
  rw [State.remove, removeblock, does_prevFreep_bind]
  refine ⟨access.1, ?_⟩
  split
  · rename_i some
    simp only [State.bypass, if_pos some] at next prev ⊢
    simp only [does_prevFreep_bind, does_nextFreep_bind, does_put_bind, does_put, next, prev]
    exact ⟨access.1, access.2, ⟨_, (l.prev_mem here some).1, Or.inr rfl⟩, access.2, access.1, last, trivial⟩
  · rename_i none
    simp only [State.bypass, if_neg none] at next prev ⊢
    simp only [does_prevFreep_bind, does_nextFreep_bind, does_change_bind, does_put]
    exact ⟨access.2, access.2, access.1, last, trivial⟩

theorem Links.removed (c : Cells s.heapListp cells) (l : Links s cells xs) (here : x ∈ xs) :
    Links (s.remove x) cells (xs.erase x) := by
  refine ⟨?_, l.nodup.erase x, fun y hy => l.nodes y (List.mem_of_mem_erase hy)⟩
  have after := l.next_mem here
  obtain ⟨pre, post, rfl⟩ := List.append_of_mem here
  have others : ∀ y ∈ pre ++ post, y ∈ insert s.heapListp cells := fun y hy => l.outer (by
    rcases List.mem_append.mp hy with hy | hy <;> simp [hy])
  have chain : Segment (nextAt (s.remove x).mem) (prevAt (s.remove x).mem) null
      (if prevAt s.mem x = null then nextAt s.mem x else s.freeListp) (pre ++ post) s.heapListp := by
    refine l.chain.unlink_of_notMem (fun mem => (c.range _ (l.outer mem)).1.ne' rfl) l.nodup
      (fun y hy => ?_) fun y hy => ?_
    · rw [State.remove]
      exact (nextAt_storePrev c after (others y hy)).trans (nextAt_bypass c l here (others y hy))
    · have stored := prevAt_storePrev (m := (s.bypass x).mem) c after (others y hy) (word_lt s.mem x)
      rw [prevAt_bypass c l here (others y hy)] at stored
      exact stored
  have erased : (pre ++ x :: post).erase x = pre ++ post := by
    have apart : x ∉ pre := fun mem => (List.nodup_append.mp l.nodup).2.2 x mem x (by simp) rfl
    rw [List.erase_append_right _ apart, List.erase_cons_head]
  have first : (s.remove x).freeListp = if prevAt s.mem x = null then nextAt s.mem x else s.freeListp := by
    rw [State.remove, State.bypass]
    by_cases none : prevAt s.mem x = null <;> simp [none, State.store]
  have listp : (s.remove x).heapListp = s.heapListp := bypass_listp s x
  rw [erased, Chain, first, listp]
  exact chain

theorem Linked.removed (l : Links s cells xs) (here : x ∈ xs) : Linked s (s.remove x) cells := by
  have same : (s.bypass x).memStartBrk = s.memStartBrk ∧ (s.bypass x).memBrk = s.memBrk ∧
      (s.bypass x).memMaxAddr = s.memMaxAddr := by
    unfold State.bypass
    split <;> exact ⟨rfl, rfl, rfl⟩
  refine ⟨same, bypass_listp s x, fun q outside => ?_⟩
  have far := outside _ (l.next_mem here)
  have kept : (s.bypass x).mem q = s.mem q := by
    unfold State.bypass
    split
    · rename_i some
      have := outside _ (l.prev_mem here some).1
      exact setWord_of_outside (by omega)
    · rfl
  rw [← kept]
  exact setWord_of_outside (by omega)

/-! ## Any sequence of calls -/

theorem Linked.trans {t : State} (one : Linked s s' cells) (two : Linked s' t cells) : Linked s t cells := by
  obtain ⟨⟨start, brk, max⟩, listp, mem⟩ := one
  obtain ⟨⟨start', brk', max'⟩, listp', mem'⟩ := two
  refine ⟨⟨start'.trans start, brk'.trans brk, max'.trans max⟩, listp'.trans listp, fun q outside => ?_⟩
  rw [mem' q (by rwa [listp]), mem q outside]

theorem ListOp.run_links (c : Cells s.heapListp cells) (l : Links s cells xs) {op : ListOp}
    (legal : op.Legal cells xs) : ∃ s', Does (OnLinks s.heapListp cells) op.run s () s' ∧
      Links s' cells (op.apply xs) ∧ Linked s s' cells := by
  cases op with
  | insert bp => exact ⟨_, insertblock_runs l legal.1, l.inserted c legal.1 legal.2, .inserted l legal.1⟩
  | remove bp => exact ⟨_, removeblock_runs c l legal, l.removed c legal, .removed l legal⟩

/-- The list in memory is the list that the calls make. -/
theorem runAll_links (c : Cells s.heapListp cells) (l : Links s cells xs) {ops : List ListOp}
    (legal : LegalAll cells xs ops) : ∃ s', Does (OnLinks s.heapListp cells) (runAll ops) s () s' ∧
      Links s' cells (ops.foldl ListOp.apply xs) ∧ Linked s s' cells := by
  induction ops generalizing s xs with
  | nil => exact ⟨s, does_pure.mpr ⟨rfl, rfl⟩, l, ⟨rfl, rfl, rfl⟩, rfl, fun _ _ => rfl⟩
  | cons op ops ih =>
      obtain ⟨first, rest⟩ := legal
      obtain ⟨t, run, l', linked⟩ := op.run_links c l first
      obtain ⟨u, run', l'', linked'⟩ := ih (by rwa [linked.listp]) l' rest
      rw [linked.listp] at run'
      exact ⟨u, does_bind.mpr ⟨(), t, run, run'⟩, l'', linked.trans linked'⟩

end

theorem oneFree_cells : Cells oneFree.heapListp {4128, 4144} := by
  refine ⟨?_, ?_, ?_⟩ <;> simp [oneFree]

theorem oneFree_links : Links oneFree {4128, 4144} [4128] :=
  ⟨⟨rfl, by decide, by decide +kernel, by decide +kernel⟩, by simp, by simp⟩

theorem runAll_links_oneFree : ∃ s',
    Does (OnLinks 4104 {4128, 4144}) (runAll [.insert 4144, .remove 4128, .insert 4128]) oneFree () s' ∧
      Links s' {4128, 4144} [4128, 4144] := by
  obtain ⟨s', run, links, -⟩ := runAll_links oneFree_cells oneFree_links
    (show LegalAll {4128, 4144} [4128] [.insert 4144, .remove 4128, .insert 4128] by
      simp [LegalAll, ListOp.Legal, ListOp.apply])
  exact ⟨s', run, links⟩

end MallocLab.Explicit
