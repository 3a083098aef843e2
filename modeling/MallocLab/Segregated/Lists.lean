import MallocLab.Segregated.Rules
import MallocLab.Memory.LinkedList

/-!
# The segregated lists

`Lists s F` says that the nodes of the twenty lists are the free blocks `F`, given by address and
size, each in the list of its class. `insert_block` adds a node in front of its list, because no
node is smaller than the size that is left after the shifts; `delete_block` takes one out.
-/

namespace MallocLab.Segregated
open Memory Logged

def classOf (size : Nat) : Nat := min 19 (Nat.log2 size)

def Lists (s : State) (F : List (Nat × Nat)) : Prop :=
  ∃ L : Nat → List Nat, ∀ c < lists,
    Segment (nextAt s.mem) (prevAt s.mem) null (s.sgrlists c) (L c) null ∧
      (L c).Perm ((F.filter fun e => classOf e.2 = c).map Prod.fst)

def Chains (s : State) (F : List (Nat × Nat)) (L : Nat → List Nat) : Prop :=
  ∀ c < lists, Segment (nextAt s.mem) (prevAt s.mem) null (s.sgrlists c) (L c) null ∧
    (L c).Perm ((F.filter fun e => classOf e.2 = c).map Prod.fst)

def Listed (s : State) (bp : Nat) : Prop :=
  ∃ c < lists, ∃ xs, Segment (nextAt s.mem) (prevAt s.mem) null (s.sgrlists c) xs null ∧ bp ∈ xs

/-- Free blocks whose links can be written: inside `lo`..`hi` and apart from each other. -/
structure Nodes (lo hi : Nat) (F : List (Nat × Nat)) : Prop where
  apart : F.Pairwise fun e f => e.1 + 8 ≤ f.1 ∨ f.1 + 8 ≤ e.1
  bounds : ∀ e ∈ F, lo + 4 ≤ e.1 ∧ e.1 + 8 ≤ hi ∧ e.1 < 2 ^ 32
  large : ∀ e ∈ F, 16 ≤ e.2 ∧ e.2 < 2 ^ 32

/-- Events on words inside `lo`..`hi`, and deletions of listed blocks, are allowed. -/
structure Tolerates (ok : Event → Prop) (lo hi : Nat) : Prop where
  access : ∀ p, lo ≤ p → p + 4 ≤ hi → ok (.access p)
  delete : ∀ bp s, Listed s bp → ok (.delete bp s)

theorem tolerates_all (lo hi : Nat) : Tolerates (fun _ => True) lo hi :=
  ⟨fun _ _ _ => trivial, fun _ _ _ => trivial⟩

structure LinksOnly (s s' : State) (F : List (Nat × Nat)) : Prop where
  start : s'.memStartBrk = s.memStartBrk
  brk : s'.memBrk = s.memBrk
  max : s'.memMaxAddr = s.memMaxAddr
  listp : s'.heapListp = s.heapListp
  mem : ∀ a, (∀ e ∈ F, a < e.1 ∨ e.1 + 8 ≤ a) → s'.mem a = s.mem a

/-! ## Classes -/

theorem selectFrom_eq (rounds list size : Nat) :
    selectFrom rounds list size =
      (list + min rounds (Nat.log2 size), size / 2 ^ min rounds (Nat.log2 size)) := by
  induction rounds generalizing list size with
  | zero => simp [selectFrom]
  | succ rounds ih =>
      unfold selectFrom
      by_cases large : size > 1
      · rw [if_pos large, ih, Nat.log2_def size, if_pos (show 2 ≤ size by omega),
          Nat.add_min_add_right, Nat.shiftRight_one, Nat.pow_succ', ← Nat.div_div_eq_div_mul]
        simp only [Prod.mk.injEq, and_true]
        omega
      · rw [if_neg large, Nat.log2_def size, if_neg (show ¬ 2 ≤ size by omega)]
        simp

theorem selectList_eq (size : Nat) : selectList size = (classOf size, size / 2 ^ classOf size) := by
  rw [selectList, selectFrom_eq, Nat.zero_add]
  rfl

theorem classOf_lt (size : Nat) : classOf size < lists := by
  unfold classOf
  simp only [lists]
  omega

theorem shifted_le {n k : Nat} (n16 : 16 ≤ n) (n32 : n < 2 ^ 32) (k16 : 16 ≤ k)
    (same : classOf k = classOf n) : n / 2 ^ classOf n ≤ k := by
  by_cases high : Nat.log2 n < 19
  · have : classOf n = Nat.log2 n := by
      unfold classOf
      omega
    rw [this]
    have : n / 2 ^ Nat.log2 n < 2 := by
      rw [Nat.div_lt_iff_lt_mul (Nat.two_pow_pos _), ← Nat.pow_succ']
      exact Nat.lt_log2_self
    omega
  · have class_ : classOf n = 19 := by
      unfold classOf
      omega
    rw [class_] at same ⊢
    have : 19 ≤ Nat.log2 k := by
      unfold classOf at same
      omega
    have : 2 ^ 19 ≤ k := (Nat.pow_le_pow_right (by omega) this).trans (Nat.log2_self_le (by omega))
    omega

/-! ## Nodes -/

section
variable {s s' : State} {F G : List (Nat × Nat)} {lo hi : Nat}

theorem Nodes.nodup (nodes : Nodes lo hi F) : (F.map Prod.fst).Nodup := by
  refine List.pairwise_map.mpr (nodes.apart.imp fun {e f} apart => ?_)
  show e.1 ≠ f.1
  omega

theorem Nodes.unique (nodes : Nodes lo hi F) {x n k : Nat} (one : (x, n) ∈ F) (two : (x, k) ∈ F) :
    n = k := by
  have := List.inj_on_of_nodup_map nodes.nodup one two rfl
  exact (Prod.mk.inj this).2

theorem Nodes.apart_of_ne (nodes : Nodes lo hi F) {e f : Nat × Nat} (he : e ∈ F) (hf : f ∈ F)
    (ne : e.1 ≠ f.1) : e.1 + 8 ≤ f.1 ∨ f.1 + 8 ≤ e.1 := by
  have : Std.Symm fun e f : Nat × Nat => e.1 + 8 ≤ f.1 ∨ f.1 + 8 ≤ e.1 := ⟨fun _ _ h => h.symm⟩
  exact nodes.apart.forall he hf fun same => ne (by rw [same])

theorem mem_class {xs : List Nat} {c y : Nat}
    (perm : xs.Perm ((F.filter fun e => classOf e.2 = c).map Prod.fst)) :
    y ∈ xs ↔ ∃ k, (y, k) ∈ F ∧ classOf k = c := by
  rw [perm.mem_iff]
  simp

theorem Lists.perm (lists : Lists s F) (perm : F.Perm G) : Lists s G := by
  obtain ⟨L, segs⟩ := lists
  exact ⟨L, fun c hc => ⟨(segs c hc).1, (segs c hc).2.trans ((perm.filter _).map _)⟩⟩

theorem Nodes.perm (nodes : Nodes lo hi F) (perm : F.Perm G) : Nodes lo hi G :=
  ⟨(perm.pairwise_iff fun {_ _} h => h.symm).mp nodes.apart,
    fun e he => nodes.bounds e (perm.mem_iff.mpr he), fun e he => nodes.large e (perm.mem_iff.mpr he)⟩

theorem Lists.listed (lists : Lists s F) {x n : Nat} (member : (x, n) ∈ F) : Listed s x := by
  obtain ⟨L, segs⟩ := lists
  obtain ⟨seg, perm⟩ := segs (classOf n) (classOf_lt n)
  exact ⟨_, classOf_lt n, _, seg, (mem_class perm).mpr ⟨n, member, rfl⟩⟩

theorem Lists.of_listed (lists : Lists s F) {x : Nat} (listed : Listed s x) : ∃ n, (x, n) ∈ F := by
  obtain ⟨L, segs⟩ := lists
  obtain ⟨c, hc, xs, seg, member⟩ := listed
  rw [seg.unique (segs c hc).1] at member
  obtain ⟨n, he, -⟩ := (mem_class (segs c hc).2).mp member
  exact ⟨n, he⟩

theorem Lists.congr (lists : Lists s F) (heads : s'.sgrlists = s.sgrlists)
    (same : ∀ e ∈ F, ∀ a, e.1 ≤ a → a < e.1 + 8 → s'.mem a = s.mem a) : Lists s' F := by
  obtain ⟨L, segs⟩ := lists
  refine ⟨L, fun c hc => ⟨?_, (segs c hc).2⟩⟩
  have words : ∀ x ∈ L c, nextAt s'.mem x = nextAt s.mem x ∧ prevAt s'.mem x = prevAt s.mem x := by
    intro x hx
    obtain ⟨k, he, -⟩ := (mem_class (segs c hc).2).mp hx
    have same := same _ he
    exact ⟨word_congr fun a _ _ => same a (by omega) (by omega),
      word_congr fun a _ _ => same a (by omega) (by omega)⟩
  rw [heads]
  exact (segs c hc).1.congr (fun x hx => (words x hx).1) fun x hx => (words x hx).2

theorem LinksOnly.mono (only : LinksOnly s s' F) (sub : ∀ e ∈ F, e ∈ G) : LinksOnly s s' G :=
  ⟨only.start, only.brk, only.max, only.listp,
    fun a apart => only.mem a fun e he => apart e (sub e he)⟩

theorem LinksOnly.trans {s'' : State} (one : LinksOnly s s' F) (two : LinksOnly s' s'' G)
    (sub : ∀ e ∈ G, e ∈ F) : LinksOnly s s'' F :=
  ⟨two.start.trans one.start, two.brk.trans one.brk, two.max.trans one.max,
    two.listp.trans one.listp,
    fun a apart => (two.mem a fun e he => apart e (sub e he)).trans (one.mem a apart)⟩

theorem Nodes.tail (nodes : Nodes lo hi F) (sub : G.Sublist F) : Nodes lo hi G :=
  ⟨nodes.apart.sublist sub, fun e he => nodes.bounds e (sub.subset he),
    fun e he => nodes.large e (sub.subset he)⟩

theorem Nodes.resize {x n m : Nat} (nodes : Nodes lo hi ((x, n) :: F)) (large : 16 ≤ m)
    (small : m < 2 ^ 32) : Nodes lo hi ((x, m) :: F) := by
  refine ⟨?_, ?_, ?_⟩
  · exact List.pairwise_cons.mpr (List.pairwise_cons.mp nodes.apart)
  · exact List.forall_mem_cons.mpr (List.forall_mem_cons.mp nodes.bounds)
  · exact List.forall_mem_cons.mpr ⟨⟨large, small⟩, (List.forall_mem_cons.mp nodes.large).2⟩

theorem store_prev (nodes : Nodes lo hi F) {y v : Nat} (hy : y = null ∨ ∃ k, (y, k) ∈ F)
    (hv : v < 2 ^ 32) :
    LinksOnly s (s.storeUnless y (y + 4) v) F ∧ ∀ e ∈ F,
      nextAt (s.storeUnless y (y + 4) v).mem e.1 = nextAt s.mem e.1 ∧
        prevAt (s.storeUnless y (y + 4) v).mem e.1 = if e.1 = y then v else prevAt s.mem e.1 := by
  rcases hy with rfl | ⟨k, hy⟩
  · refine ⟨⟨rfl, rfl, rfl, rfl, fun a _ => rfl⟩, fun e he => ⟨rfl, ?_⟩⟩
    rw [if_neg]
    · rfl
    · have := nodes.bounds e he
      show e.1 ≠ 0
      omega
  · have low := (nodes.bounds _ hy).1
    rw [storeUnless_of_ne s _ _ (show y ≠ 0 by omega)]
    refine ⟨⟨rfl, rfl, rfl, rfl, fun a apart => ?_⟩, fun e he => ?_⟩
    · have := apart _ hy
      exact setWord_of_outside (by simp only at this; omega)
    · simp only [store_mem, nextAt, prevAt]
      by_cases same : e.1 = y
      · rw [same, if_pos rfl, word_setWord_self _ _ hv, word_setWord_of_apart (by omega)]
        exact ⟨rfl, rfl⟩
      · have := nodes.apart_of_ne he hy same
        rw [if_neg same, word_setWord_of_apart (by simp only at this; omega),
          word_setWord_of_apart (by simp only at this; omega)]
        exact ⟨rfl, rfl⟩

theorem store_next (nodes : Nodes lo hi F) {y v : Nat} (hy : y = null ∨ ∃ k, (y, k) ∈ F)
    (hv : v < 2 ^ 32) :
    LinksOnly s (s.storeUnless y y v) F ∧ ∀ e ∈ F,
      nextAt (s.storeUnless y y v).mem e.1 = (if e.1 = y then v else nextAt s.mem e.1) ∧
        prevAt (s.storeUnless y y v).mem e.1 = prevAt s.mem e.1 := by
  rcases hy with rfl | ⟨k, hy⟩
  · refine ⟨⟨rfl, rfl, rfl, rfl, fun a _ => rfl⟩, fun e he => ⟨?_, rfl⟩⟩
    rw [if_neg]
    · rfl
    · have := nodes.bounds e he
      show e.1 ≠ 0
      omega
  · have low := (nodes.bounds _ hy).1
    rw [storeUnless_of_ne s _ _ (show y ≠ 0 by omega)]
    refine ⟨⟨rfl, rfl, rfl, rfl, fun a apart => ?_⟩, fun e he => ?_⟩
    · have := apart _ hy
      exact setWord_of_outside (by simp only at this; omega)
    · simp only [store_mem, nextAt, prevAt]
      by_cases same : e.1 = y
      · rw [same, if_pos rfl, word_setWord_self _ _ hv, word_setWord_of_apart (by omega)]
        exact ⟨rfl, rfl⟩
      · have := nodes.apart_of_ne he hy same
        rw [if_neg same, word_setWord_of_apart (by simp only at this; omega),
          word_setWord_of_apart (by simp only at this; omega)]
        exact ⟨rfl, rfl⟩

/-! ## Insertion -/

variable {ok : Event → Prop} {x n : Nat}

theorem does_placeFrom {size rounds head : Nat} (okay : head ≠ null → ok (.access (head - 4)))
    (le : head ≠ null → size ≤ sizeAt s.mem (head - 4)) :
    Does ok (placeFrom size (rounds + 1) head null) s (head, null) s := by
  unfold placeFrom
  by_cases empty : head = null
  · rw [if_neg (by simpa using empty), does_pure]
    exact ⟨rfl, rfl⟩
  · rw [if_pos empty, does_getSize_bind]
    refine ⟨okay empty, ?_⟩
    rw [hdrp, if_neg (by have := le empty; simp only [wsize]; omega), does_pure]
    exact ⟨rfl, rfl⟩

def linked (s : State) (c x : Nat) : State :=
  let head := s.sgrlists c
  (((s.store x head).storeUnless head (head + 4) x).store (x + 4) null).setHead c x

theorem does_insertBlock (lists : Lists s F) (nodes : Nodes lo hi ((x, n) :: F))
    (headers : ∀ e ∈ F, sizeAt s.mem (e.1 - 4) = e.2) (tol : Tolerates ok lo hi) :
    Does ok (insertBlock x n) s () (linked s (classOf n) x) := by
  obtain ⟨L, segs⟩ := lists
  obtain ⟨seg, perm⟩ := segs (classOf n) (classOf_lt n)
  have ⟨xlo, xhi, x32⟩ := nodes.bounds (x, n) (by simp)
  have ⟨n16, n32⟩ := nodes.large (x, n) (by simp)
  -- the head is a node of the class
  have first : s.sgrlists (classOf n) ≠ null → ∃ k, (s.sgrlists (classOf n), k) ∈ F ∧
      classOf k = classOf n := fun ne => (mem_class perm).mp (seg.head_mem ne)
  obtain ⟨rounds, enough⟩ : ∃ rounds, 2 ^ 32 = rounds + 1 := ⟨2 ^ 32 - 1, by norm_num⟩
  have search : Does ok (placeFrom (n / 2 ^ classOf n) (2 ^ 32) (s.sgrlists (classOf n)) null) s
      (s.sgrlists (classOf n), null) s := by
    rw [enough]
    refine does_placeFrom (fun ne => ?_) fun ne => ?_
    · obtain ⟨k, he, -⟩ := first ne
      have := nodes.bounds _ (List.mem_cons_of_mem _ he)
      exact tol.access _ (by omega) (by omega)
    · obtain ⟨k, he, same⟩ := first ne
      rw [headers _ he]
      exact shifted_le n16 n32 (nodes.large _ (List.mem_cons_of_mem _ he)).1 same
  unfold insertBlock
  rw [selectList_eq]
  simp only [does_getHead_bind]
  rw [search.bind_iff]
  have okx := tol.access x (by omega) (by omega)
  have okx' := tol.access (x + 4) (by omega) (by omega)
  by_cases empty : s.sgrlists (classOf n) = null
  · simp only [empty, ne_eq, not_true_eq_false, if_false, setBp, prevBp, nextBp, wsize,
      does_putNotag_bind, does_setHead, linked, storeUnless_null]
    exact ⟨okx, okx', trivial⟩
  · obtain ⟨k, he, -⟩ := first empty
    have := nodes.bounds _ (List.mem_cons_of_mem _ he)
    simp only [empty, ne_eq, not_true_eq_false, not_false_eq_true, if_false, if_true, setBp, prevBp,
      nextBp, wsize, does_putNotag_bind, does_setHead, linked, storeUnless_of_ne]
    exact ⟨okx, tol.access _ (by omega) (by omega), okx', trivial⟩

structure Linked (s s' : State) (c x : Nat) (F : List (Nat × Nat)) : Prop where
  heads : ∀ d, s'.sgrlists d = if d = c then x else s.sgrlists d
  next : nextAt s'.mem x = s.sgrlists c
  prev : prevAt s'.mem x = null
  nexts : ∀ e ∈ F, nextAt s'.mem e.1 = nextAt s.mem e.1
  prevs : ∀ e ∈ F, prevAt s'.mem e.1 = if e.1 = s.sgrlists c then x else prevAt s.mem e.1

theorem linked_spec {c : Nat} (nodes : Nodes lo hi ((x, n) :: F))
    (head : s.sgrlists c = null ∨ ∃ k, (s.sgrlists c, k) ∈ F) :
    Linked s (linked s c x) c x F ∧ LinksOnly s (linked s c x) ((x, n) :: F) := by
  have ⟨xlo, xhi, x32⟩ : lo + 4 ≤ x ∧ x + 8 ≤ hi ∧ x < 2 ^ 32 := nodes.bounds (x, n) (by simp)
  have apart : ∀ e ∈ F, x + 8 ≤ e.1 ∨ e.1 + 8 ≤ x := (List.pairwise_cons.mp nodes.apart).1
  have rest := nodes.tail (List.sublist_cons_self _ F)
  have head32 : s.sgrlists c < 2 ^ 32 := by
    rcases head with empty | ⟨k, he⟩
    · rw [empty]
      decide
    · exact (rest.bounds _ he).2.2
  obtain ⟨only, links⟩ := store_prev (s := s.store x (s.sgrlists c)) rest head x32
  have heads := storeUnless_sgrlists (s.store x (s.sgrlists c)) (s.sgrlists c + 4) x (s.sgrlists c)
  unfold linked
  dsimp only
  generalize (s.store x (s.sgrlists c)).storeUnless _ _ _ = t at *
  have kept : ∀ a, (∀ e ∈ F, a < e.1 ∨ e.1 + 8 ≤ a) → t.mem a = setWord s.mem x (s.sgrlists c) a :=
    only.mem
  refine ⟨⟨fun d => ?_, ?_, ?_, fun e he => ?_, fun e he => ?_⟩, ⟨only.start, only.brk, only.max,
    only.listp, fun a outside => ?_⟩⟩
  · rw [setHead_sgrlists, store_sgrlists, heads, store_sgrlists]
  · simp only [setHead_mem, store_mem, nextAt]
    rw [word_setWord_of_apart (by omega), word_congr (m := setWord s.mem x (s.sgrlists c)),
      word_setWord_self _ _ head32]
    exact fun a low high => kept a fun e he => by have := apart e he; omega
  · simp only [setHead_mem, store_mem, prevAt]
    rw [word_setWord_self _ _ (by decide)]
  · have := apart e he
    have := (links e he).1
    simp only [setHead_mem, store_mem, nextAt] at this ⊢
    rw [word_setWord_of_apart (by omega), this, word_setWord_of_apart (by omega)]
  · have := apart e he
    have := (links e he).2
    simp only [setHead_mem, store_mem, prevAt] at this ⊢
    rw [word_setWord_of_apart (by omega), this, word_setWord_of_apart (by omega)]
  · have here := outside (x, n) (by simp)
    simp only [setHead_mem, store_mem]
    rw [setWord_of_outside (by simp only at here; omega),
      kept a fun e he => outside e (List.mem_cons_of_mem _ he),
      setWord_of_outside (by simp only at here; omega)]

theorem Linked.chains {L : Nat → List Nat} (links : Linked s s' (classOf n) x F)
    (nodes : Nodes lo hi ((x, n) :: F)) (segs : Chains s F L) :
    Chains s' ((x, n) :: F) fun d => if d = classOf n then x :: L d else L d := by
  obtain ⟨xlo, -⟩ := nodes.bounds (x, n) (by simp)
  have rest := nodes.tail (List.sublist_cons_self _ F)
  intro c hc
  obtain ⟨seg, perm⟩ := segs c hc
  by_cases here : c = classOf n
  · subst here
    simp only [if_true]
    refine ⟨?_, by simpa using perm.cons x⟩
    rw [links.heads, if_pos rfl]
    refine seg.push (show x ≠ 0 by omega) ?_ links.next links.prev (fun y hy => ?_) fun y hy => ?_
    · exact perm.nodup_iff.mpr (rest.nodup.sublist (List.filter_sublist.map _))
    · obtain ⟨k, he, -⟩ := (mem_class perm).mp hy
      exact links.nexts _ he
    · obtain ⟨k, he, -⟩ := (mem_class perm).mp hy
      exact links.prevs _ he
  · simp only [if_neg here]
    refine ⟨?_, by simpa [Ne.symm here] using perm⟩
    rw [links.heads, if_neg here]
    refine seg.congr (fun y hy => ?_) fun y hy => ?_
    · obtain ⟨k, he, -⟩ := (mem_class perm).mp hy
      exact links.nexts _ he
    · obtain ⟨k, he, hk⟩ := (mem_class perm).mp hy
      rw [links.prevs _ he, if_neg]
      -- the head of the other list is a node of another class
      intro same
      have ne : s.sgrlists (classOf n) ≠ null := by
        have := rest.bounds _ he
        rw [← same]
        show y ≠ 0
        omega
      have ⟨seg', perm'⟩ := segs _ (classOf_lt n)
      obtain ⟨k', he', hk'⟩ := (mem_class perm').mp (seg'.head_mem ne)
      rw [← same] at he'
      rw [rest.unique he he', hk'] at hk
      exact here hk.symm

theorem insertBlock_chains {L : Nat → List Nat} (segs : Chains s F L) (nodes : Nodes lo hi ((x, n) :: F))
    (headers : ∀ e ∈ F, sizeAt s.mem (e.1 - 4) = e.2) (tol : Tolerates ok lo hi) :
    ∃ s', Does ok (insertBlock x n) s () s' ∧
      (Chains s' ((x, n) :: F) fun d => if d = classOf n then x :: L d else L d) ∧
      LinksOnly s s' ((x, n) :: F) ∧ ∀ d, d ≠ classOf n → s'.sgrlists d = s.sgrlists d := by
  have head : s.sgrlists (classOf n) = null ∨ ∃ k, (s.sgrlists (classOf n), k) ∈ F := by
    obtain ⟨seg, perm⟩ := segs (classOf n) (classOf_lt n)
    by_cases empty : s.sgrlists (classOf n) = null
    · exact Or.inl empty
    · obtain ⟨k, he, -⟩ := (mem_class perm).mp (seg.head_mem empty)
      exact Or.inr ⟨k, he⟩
  obtain ⟨links, only⟩ := linked_spec nodes head
  exact ⟨_, does_insertBlock ⟨L, segs⟩ nodes headers tol, links.chains nodes segs, only,
    fun d ne => by rw [links.heads, if_neg ne]⟩

theorem insertBlock_spec (lists : Lists s F) (nodes : Nodes lo hi ((x, n) :: F))
    (headers : ∀ e ∈ F, sizeAt s.mem (e.1 - 4) = e.2) (tol : Tolerates ok lo hi) :
    ∃ s', Does ok (insertBlock x n) s () s' ∧ Lists s' ((x, n) :: F) ∧
      LinksOnly s s' ((x, n) :: F) := by
  obtain ⟨L, segs⟩ := lists
  obtain ⟨s', run, chains, only, -⟩ := insertBlock_chains segs nodes headers tol
  exact ⟨s', run, ⟨_, chains⟩, only⟩

/-! ## Deletion -/

def unlinked (s : State) (c x : Nat) : State :=
  let next := nextAt s.mem x
  let prev := prevAt s.mem x
  let t := (s.storeUnless next (next + 4) prev).storeUnless prev prev next
  if prev = null then t.setHead c next else t

structure Unlinked (s s' : State) (c x : Nat) (F : List (Nat × Nat)) : Prop where
  heads : ∀ d, s'.sgrlists d =
    if d = c ∧ prevAt s.mem x = null then nextAt s.mem x else s.sgrlists d
  nexts : ∀ e ∈ F, nextAt s'.mem e.1 =
    if e.1 = prevAt s.mem x then nextAt s.mem x else nextAt s.mem e.1
  prevs : ∀ e ∈ F, prevAt s'.mem e.1 =
    if e.1 = nextAt s.mem x then prevAt s.mem x else prevAt s.mem e.1

theorem Lists.neighbours (lists : Lists s ((x, n) :: F)) (nodes : Nodes lo hi ((x, n) :: F)) :
    (nextAt s.mem x = null ∨ ∃ k, (nextAt s.mem x, k) ∈ F ∧ classOf k = classOf n) ∧
      (prevAt s.mem x = null ∨ ∃ k, (prevAt s.mem x, k) ∈ F ∧ classOf k = classOf n) := by
  obtain ⟨L, segs⟩ := lists
  obtain ⟨seg, perm⟩ := segs _ (classOf_lt n)
  have member : x ∈ L (classOf n) := (mem_class perm).mpr ⟨n, by simp, rfl⟩
  obtain ⟨xs, ys, split⟩ := List.append_of_mem member
  have nodup : (L (classOf n)).Nodup :=
    perm.nodup_iff.mpr (nodes.nodup.sublist (List.filter_sublist.map _))
  rw [split] at seg perm nodup
  obtain ⟨back, first, -⟩ := seg.middle
  have other : ∀ y, y ∈ xs ++ ys → ∃ k, (y, k) ∈ F ∧ classOf k = classOf n := by
    intro y hy
    obtain ⟨k, he, hk⟩ := (mem_class perm).mp (by simp at hy ⊢; tauto)
    rcases List.mem_cons.mp he with same | he
    · rw [(Prod.mk.inj same).1] at hy
      exact absurd hy (List.nodup_middle.mp nodup |> List.nodup_cons.mp).1
    · exact ⟨k, he, hk⟩
  constructor
  · cases ys with
    | nil => exact Or.inl first
    | cons y ys => exact Or.inr (other _ (by rw [first]; simp))
  · cases hl : xs.getLast? with
    | none => rw [hl] at back; exact Or.inl back
    | some z =>
        rw [hl] at back
        exact Or.inr (other _ (List.mem_append_left _ (by rw [back]; exact List.mem_of_getLast? hl)))

theorem does_deleteBlock (lists : Lists s ((x, n) :: F)) (nodes : Nodes lo hi ((x, n) :: F))
    (header : sizeAt s.mem (x - 4) = n) (tol : Tolerates ok lo hi) :
    Does ok (deleteBlock x) s () (unlinked s (classOf n) x) := by
  obtain ⟨xlo, xhi, x32⟩ := nodes.bounds (x, n) (by simp)
  obtain ⟨hnext, hprev⟩ := lists.neighbours nodes
  have apart := (List.pairwise_cons.mp nodes.apart).1
  have listed := lists.listed (List.mem_cons_self (a := (x, n)))
  have okx := tol.access x (by omega) (by omega)
  have okx' := tol.access (x + 4) (by omega) (by omega)
  unfold deleteBlock
  simp only [does_note_bind, does_getSize_bind, hdrp, wsize, header, selectList_eq,
    does_nextFreep_bind]
  refine ⟨tol.delete x s listed, tol.access _ (by omega) (by omega), okx, ?_⟩
  rcases hnext with last | ⟨k, he, -⟩ <;> rcases hprev with first | ⟨k', he', -⟩
  · simp only [last, first, ne_eq, not_true_eq_false, if_false, if_true, does_prevFreep_bind,
      does_setHead, unlinked, storeUnless_null]
    exact ⟨okx', trivial⟩
  · obtain ⟨plo, phi, p32⟩ := nodes.bounds _ (List.mem_cons_of_mem _ he')
    have ne : prevAt s.mem x ≠ null := show prevAt s.mem x ≠ 0 by omega
    simp only [last, ne, ne_eq, not_true_eq_false, not_false_eq_true, if_false, if_true,
      does_prevFreep_bind, setBp, prevBp, does_putNotag, unlinked, storeUnless_null,
      storeUnless_of_ne]
    exact ⟨okx', okx', tol.access _ (by omega) (by omega), trivial⟩
  · obtain ⟨nlo, nhi, n32⟩ := nodes.bounds _ (List.mem_cons_of_mem _ he)
    have ne : nextAt s.mem x ≠ null := show nextAt s.mem x ≠ 0 by omega
    have away := apart _ he
    have kept : nextAt (setWord s.mem (nextAt s.mem x + 4) null) x = nextAt s.mem x :=
      word_setWord_of_apart (by simp only at away; omega)
    simp only [first, ne, ne_eq, not_true_eq_false, not_false_eq_true, if_false, if_true,
      does_prevFreep_bind, does_nextFreep_bind, setBp, nextBp, wsize, does_putNotag_bind, does_setHead,
      unlinked, store_mem, kept, storeUnless_null, storeUnless_of_ne]
    exact ⟨okx', okx, tol.access _ (by omega) (by omega), okx, trivial⟩
  · obtain ⟨plo, phi, p32⟩ := nodes.bounds _ (List.mem_cons_of_mem _ he')
    obtain ⟨nlo, nhi, n32⟩ := nodes.bounds _ (List.mem_cons_of_mem _ he)
    have nne : nextAt s.mem x ≠ null := show nextAt s.mem x ≠ 0 by omega
    have pne : prevAt s.mem x ≠ null := show prevAt s.mem x ≠ 0 by omega
    have away := apart _ he
    have keptNext : nextAt (setWord s.mem (nextAt s.mem x + 4) (prevAt s.mem x)) x = nextAt s.mem x :=
      word_setWord_of_apart (by simp only at away; omega)
    have keptPrev : prevAt (setWord s.mem (nextAt s.mem x + 4) (prevAt s.mem x)) x = prevAt s.mem x :=
      word_setWord_of_apart (by simp only at away; omega)
    simp only [nne, pne, ne_eq, not_false_eq_true, if_false, if_true, does_prevFreep_bind,
      does_nextFreep_bind, setBp, nextBp, prevBp, wsize, does_putNotag_bind, does_putNotag, unlinked,
      store_mem, keptNext, keptPrev, storeUnless_of_ne]
    exact ⟨okx', okx, okx', tol.access _ (by omega) (by omega), okx', okx,
      tol.access _ (by omega) (by omega), trivial⟩

theorem unlinked_spec (lists : Lists s ((x, n) :: F)) (nodes : Nodes lo hi ((x, n) :: F)) :
    Unlinked s (unlinked s (classOf n) x) (classOf n) x F ∧
      LinksOnly s (unlinked s (classOf n) x) F := by
  have ⟨hnext, hprev⟩ := lists.neighbours nodes
  have rest := nodes.tail (List.sublist_cons_self _ F)
  have next32 : nextAt s.mem x < 2 ^ 32 := word_lt _ _
  have prev32 : prevAt s.mem x < 2 ^ 32 := word_lt _ _
  have weaken : ∀ {y}, (y = null ∨ ∃ k, (y, k) ∈ F ∧ classOf k = classOf n) →
      y = null ∨ ∃ k, (y, k) ∈ F := fun h => h.imp_right fun ⟨k, he, _⟩ => ⟨k, he⟩
  obtain ⟨only₁, links₁⟩ := store_prev (s := s) rest (weaken hnext) prev32
  obtain ⟨only₂, links₂⟩ := store_next (s := s.storeUnless (nextAt s.mem x) (nextAt s.mem x + 4)
    (prevAt s.mem x)) rest (weaken hprev) next32
  have only := only₁.trans only₂ fun _ he => he
  have heads : ((s.storeUnless (nextAt s.mem x) (nextAt s.mem x + 4) (prevAt s.mem x)).storeUnless
      (prevAt s.mem x) (prevAt s.mem x) (nextAt s.mem x)).sgrlists = s.sgrlists := by simp
  unfold unlinked
  dsimp only
  generalize State.storeUnless _ (prevAt s.mem x) _ _ = t at *
  have final : ∀ u : State, u.mem = t.mem → u.memStartBrk = t.memStartBrk → u.memBrk = t.memBrk →
      u.memMaxAddr = t.memMaxAddr → u.heapListp = t.heapListp →
      (∀ d, u.sgrlists d =
        if d = classOf n ∧ prevAt s.mem x = null then nextAt s.mem x else s.sgrlists d) →
      Unlinked s u (classOf n) x F ∧ LinksOnly s u F := by
    intro u mem start brk max listp lists
    refine ⟨⟨lists, fun e he => ?_, fun e he => ?_⟩, ⟨start.trans only.start, brk.trans only.brk,
      max.trans only.max, listp.trans only.listp, fun a outside => ?_⟩⟩
    · rw [mem, (links₂ e he).1, (links₁ e he).1]
    · rw [mem, (links₂ e he).2, (links₁ e he).2]
    · rw [mem, only.mem a outside]
  split
  · rename_i first
    exact final _ rfl rfl rfl rfl rfl fun d => by simp [heads, first]
  · rename_i inner
    exact final _ rfl rfl rfl rfl rfl fun d => by simp [heads, inner]

theorem Unlinked.chains {L : Nat → List Nat} (links : Unlinked s s' (classOf n) x F)
    (nodes : Nodes lo hi ((x, n) :: F)) (segs : Chains s ((x, n) :: F) L) :
    Chains s' F fun d => if d = classOf n then (L d).erase x else L d := by
  obtain ⟨hnext, hprev⟩ := Lists.neighbours ⟨L, segs⟩ nodes
  have rest := nodes.tail (List.sublist_cons_self _ F)
  intro c hc
  obtain ⟨seg, perm⟩ := segs c hc
  have nodup : (L c).Nodup :=
    perm.nodup_iff.mpr (nodes.nodup.sublist (List.filter_sublist.map _))
  by_cases here : c = classOf n
  · subst here
    simp only [if_true]
    have member : x ∈ L (classOf n) := (mem_class perm).mpr ⟨n, by simp, rfl⟩
    obtain ⟨xs, ys, split⟩ := List.append_of_mem member
    have notMem : x ∉ xs := by
      rw [split] at nodup
      exact fun h => (List.nodup_cons.mp (List.nodup_middle.mp nodup)).1 (List.mem_append_left _ h)
    have erased : (L (classOf n)).erase x = xs ++ ys := by
      rw [split, List.erase_append_right _ notMem, List.erase_cons_head]
    have perm' : (xs ++ ys).Perm ((F.filter fun e => classOf e.2 = classOf n).map Prod.fst) := by
      rw [split] at perm
      exact (List.perm_middle.symm.trans (by simpa using perm)).cons_inv
    rw [erased]
    refine ⟨?_, perm'⟩
    rw [split] at seg nodup
    have unlinked := seg.unlink nodup
      (fun y hy => by
        obtain ⟨k, he, -⟩ := (mem_class perm').mp hy
        exact links.nexts _ he)
      fun y hy => by
        obtain ⟨k, he, -⟩ := (mem_class perm').mp hy
        exact links.prevs _ he
    rw [links.heads]
    simpa using unlinked
  · simp only [if_neg here]
    have perm' : (L c).Perm ((F.filter fun e => classOf e.2 = c).map Prod.fst) := by
      simpa [Ne.symm here] using perm
    refine ⟨?_, perm'⟩
    rw [links.heads, if_neg (by simp [here])]
    -- the neighbours of `x` are nodes of another class
    have other : ∀ y ∈ L c, ∀ z, (z = null ∨ ∃ k, (z, k) ∈ F ∧ classOf k = classOf n) → y ≠ z := by
      rintro y hy z hz rfl
      obtain ⟨k, he, hk⟩ := (mem_class perm').mp hy
      rcases hz with rfl | ⟨k', he', hk'⟩
      · exact absurd (rest.bounds _ he).1 (by show ¬ lo + 4 ≤ 0; omega)
      · rw [rest.unique he he', hk'] at hk
        exact here hk.symm
    refine seg.congr (fun y hy => ?_) fun y hy => ?_
    · obtain ⟨k, he, -⟩ := (mem_class perm').mp hy
      rw [links.nexts _ he, if_neg (other y hy _ hprev)]
    · obtain ⟨k, he, -⟩ := (mem_class perm').mp hy
      rw [links.prevs _ he, if_neg (other y hy _ hnext)]

theorem deleteBlock_chains {L : Nat → List Nat} (segs : Chains s ((x, n) :: F) L)
    (nodes : Nodes lo hi ((x, n) :: F)) (header : sizeAt s.mem (x - 4) = n) (tol : Tolerates ok lo hi) :
    ∃ s', Does ok (deleteBlock x) s () s' ∧
      (Chains s' F fun d => if d = classOf n then (L d).erase x else L d) ∧ LinksOnly s s' F ∧
      ∀ d, d ≠ classOf n → s'.sgrlists d = s.sgrlists d := by
  obtain ⟨links, only⟩ := unlinked_spec ⟨L, segs⟩ nodes
  exact ⟨_, does_deleteBlock ⟨L, segs⟩ nodes header tol, links.chains nodes segs, only,
    fun d ne => by rw [links.heads, if_neg fun both => ne both.1]⟩

theorem deleteBlock_spec (lists : Lists s ((x, n) :: F)) (nodes : Nodes lo hi ((x, n) :: F))
    (header : sizeAt s.mem (x - 4) = n) (tol : Tolerates ok lo hi) :
    ∃ s', Does ok (deleteBlock x) s () s' ∧ Lists s' F ∧ LinksOnly s s' F := by
  obtain ⟨L, segs⟩ := lists
  obtain ⟨s', run, chains, only, -⟩ := deleteBlock_chains segs nodes header tol
  exact ⟨s', run, ⟨_, chains⟩, only⟩

end

end MallocLab.Segregated
