import MallocLab.Segregated.Lists

/-!
# Exact free lists

The twenty lists on their own, in any memory: what `insert_block` and `delete_block` do to the node
sequences, and when the sequences stay in ascending order of size.
-/

namespace MallocLab.Segregated
open Memory Logged

/-- Blocks of at least 16 bytes, given by address and size, that do not overlap and whose headers record
their sizes. -/
structure Recorded (s : State) (F : List (Nat × Nat)) : Prop where
  apart : F.Pairwise fun e f => e.1 + e.2 ≤ f.1 ∨ f.1 + f.2 ≤ e.1
  headers : ∀ e ∈ F, sizeAt s.mem (e.1 - 4) = e.2
  large : ∀ e ∈ F, 16 ≤ e.2
  bounds : ∀ e ∈ F, 4 ≤ e.1 ∧ e.1 < 2 ^ 32

/-- The lists have the node sequences `L`, and their nodes are the blocks `F`. -/
structure FreeLists (s : State) (F : List (Nat × Nat)) (L : Nat → List Nat) : Prop where
  chains : Chains s F L
  recorded : Recorded s F

structure ListWords (s s' : State) (F : List (Nat × Nat)) : Prop where
  links : LinksOnly s s' F
  heads : ∀ c, lists ≤ c → s'.sgrlists c = s.sgrlists c

def Ascending (s : State) (L : Nat → List Nat) : Prop :=
  ∀ c < lists, (L c).Pairwise fun a b => sizeAt s.mem (a - 4) ≤ sizeAt s.mem (b - 4)

section
variable {s s' : State} {F G : List (Nat × Nat)} {L L' : Nat → List Nat} {x n : Nat}

theorem Chains.congr_seq (chains : Chains s F L) (same : ∀ c < lists, L' c = L c) : Chains s F L' :=
  fun c hc => by
    rw [same c hc]
    exact chains c hc

theorem Chains.perm (chains : Chains s F L) (perm : F.Perm G) : Chains s G L :=
  fun c hc => ⟨(chains c hc).1, (chains c hc).2.trans ((perm.filter _).map _)⟩

theorem Chains.unique (one : Chains s F L) (two : Chains s G L') {c : Nat} (hc : c < lists) :
    L c = L' c := (one c hc).1.unique (two c hc).1

theorem Recorded.perm (blocks : Recorded s F) (perm : F.Perm G) : Recorded s G :=
  ⟨(perm.pairwise_iff fun {_ _} h => h.symm).mp blocks.apart,
    fun e he => blocks.headers e (perm.mem_iff.mpr he), fun e he => blocks.large e (perm.mem_iff.mpr he),
    fun e he => blocks.bounds e (perm.mem_iff.mpr he)⟩

theorem Recorded.tail (blocks : Recorded s F) (sub : G.Sublist F) : Recorded s G :=
  ⟨blocks.apart.sublist sub, fun e he => blocks.headers e (sub.subset he),
    fun e he => blocks.large e (sub.subset he), fun e he => blocks.bounds e (sub.subset he)⟩

theorem Recorded.nodes (blocks : Recorded s F) : Nodes 0 (2 ^ 32 + 8) F := by
  refine ⟨blocks.apart.imp_of_mem fun {e f} he hf apart => ?_, fun e he => ?_, fun e he => ?_⟩
  · have := blocks.large e he
    have := blocks.large f hf
    omega
  · have := blocks.bounds e he
    omega
  · have small := word_lt s.mem (e.1 - 4)
    have header := blocks.headers e he
    rw [sizeAt_eq] at header
    exact ⟨blocks.large e he, by omega⟩

theorem Recorded.relink (blocks : Recorded s F) (only : LinksOnly s s' F) : Recorded s' F := by
  refine ⟨blocks.apart, fun e he => ?_, blocks.large, blocks.bounds⟩
  rw [← blocks.headers e he, sizeAt, sizeAt]
  congr 1
  refine word_congr fun q low high => only.mem q fun f hf => ?_
  have := blocks.large e he
  have := blocks.large f hf
  have := blocks.bounds e he
  have sym : Std.Symm fun e f : Nat × Nat => e.1 + e.2 ≤ f.1 ∨ f.1 + f.2 ≤ e.1 := ⟨fun _ _ h => h.symm⟩
  by_cases same : e = f
  · subst same
    omega
  · have := blocks.apart.forall he hf same
    omega

theorem FreeLists.push (fl : FreeLists s F L) (blocks : Recorded s ((x, n) :: F)) : ∃ s',
    Does (fun _ => True) (insertBlock x n) s () s' ∧
      FreeLists s' ((x, n) :: F) (fun c => if c = classOf n then x :: L c else L c) ∧
      ListWords s s' ((x, n) :: F) := by
  obtain ⟨s', run, chains, only, heads⟩ := insertBlock_chains fl.chains blocks.nodes fl.recorded.headers
    (tolerates_all _ _)
  refine ⟨s', run, ⟨chains, blocks.relink only⟩, only, fun c hc => heads c ?_⟩
  have := classOf_lt n
  omega

theorem FreeLists.erase (fl : FreeLists s F L) (member : (x, n) ∈ F) : ∃ s',
    Does (fun _ => True) (deleteBlock x) s () s' ∧
      FreeLists s' (F.erase (x, n)) (fun c => (L c).erase x) ∧ ListWords s s' F := by
  have perm := List.perm_cons_erase member
  have blocks := fl.recorded.perm perm
  have header : sizeAt s.mem (x - 4) = n := blocks.headers (x, n) List.mem_cons_self
  obtain ⟨s', run, chains, only, heads⟩ := deleteBlock_chains (fl.chains.perm perm) blocks.nodes header
    (tolerates_all _ _)
  have rest := blocks.tail (List.sublist_cons_self _ _)
  refine ⟨s', run, ⟨chains.congr_seq fun c hc => ?_, rest.relink only⟩,
    only.mono fun e he => List.mem_of_mem_erase he, fun c hc => heads c ?_⟩
  · split
    · rfl
    · -- the block is in no other list
      rename_i other
      refine List.erase_of_not_mem fun hx => other ?_
      obtain ⟨k, he, hk⟩ := (mem_class (fl.chains c hc).2).mp hx
      rw [← fl.recorded.nodes.unique member he] at hk
      exact hk.symm
  · have := classOf_lt n
    omega

/-- `insert_block` and `delete_block` keep the lists exact, write nothing but list heads and links, and
the second undoes the first. -/
theorem lists_exact (fl : FreeLists s F L) :
    (∀ x n, Recorded s ((x, n) :: F) → ∃ s', Does (fun _ => True) (insertBlock x n) s () s' ∧
        FreeLists s' ((x, n) :: F) (fun c => if c = classOf n then x :: L c else L c) ∧
        ListWords s s' ((x, n) :: F) ∧
        ∃ s'', Does (fun _ => True) (deleteBlock x) s' () s'' ∧ FreeLists s'' F L ∧
          ListWords s' s'' ((x, n) :: F)) ∧
      ∀ x n, (x, n) ∈ F → ∃ s', Does (fun _ => True) (deleteBlock x) s () s' ∧
        FreeLists s' (F.erase (x, n)) (fun c => (L c).erase x) ∧ ListWords s s' F := by
  refine ⟨fun x n blocks => ?_, fun x n member => fl.erase member⟩
  obtain ⟨s', run, fl', only⟩ := fl.push blocks
  refine ⟨s', run, fl', only, ?_⟩
  obtain ⟨s'', run', fl'', only'⟩ := fl'.erase List.mem_cons_self
  rw [List.erase_cons_head] at fl''
  refine ⟨s'', run', ⟨fl''.chains.congr_seq fun c hc => ?_, fl''.recorded⟩, only'⟩
  by_cases here : c = classOf n
  · simp [here]
  · -- the block is fresh
    simp only [if_neg here]
    refine (List.erase_of_not_mem fun hx => ?_).symm
    obtain ⟨k, he, -⟩ := (mem_class (fl.chains c hc).2).mp hx
    have apart := (List.pairwise_cons.mp blocks.apart).1 _ he
    have := blocks.large (x, n) (by simp)
    have := fl.recorded.large _ he
    simp only at *
    omega

theorem FreeLists.head (fl : FreeLists s F L) {c : Nat} (hc : c < lists) :
    s.sgrlists c = (L c).head?.getD null := (fl.chains c hc).1.head_eq

theorem FreeLists.sizes (fl : FreeLists s F L) (fl' : FreeLists s' G L') (sub : ∀ e ∈ F, e ∈ G) {c : Nat}
    (hc : c < lists) : ∀ y ∈ L c, sizeAt s'.mem (y - 4) = sizeAt s.mem (y - 4) := by
  intro y hy
  obtain ⟨k, he, -⟩ := (mem_class (fl.chains c hc).2).mp hy
  exact (fl'.recorded.headers _ (sub _ he)).trans (fl.recorded.headers _ he).symm

/-- `insert_block` puts every block in front of its list, so the lists stay in ascending order exactly
when the block is no larger than the head of its list. -/
theorem insert_ascending_iff (fl : FreeLists s F L) (ascending : Ascending s L)
    (blocks : Recorded s ((x, n) :: F)) :
    (∃ s' L', Does (fun _ => True) (insertBlock x n) s () s' ∧ FreeLists s' ((x, n) :: F) L' ∧
        Ascending s' L') ↔
      s.sgrlists (classOf n) = null ∨ n ≤ sizeAt s.mem (s.sgrlists (classOf n) - 4) := by
  have class_ := classOf_lt n
  obtain ⟨t, run, fl', -⟩ := fl.push blocks
  have same := fun c hc => fl.sizes fl' (fun e he => List.mem_cons_of_mem _ he) (c := c) hc
  have header : sizeAt t.mem (x - 4) = n := fl'.recorded.headers (x, n) List.mem_cons_self
  rw [fl.head class_]
  constructor
  · rintro ⟨s', L', run', fl'', ascending'⟩
    obtain rfl := (run'.unique run).2
    have order := ascending' _ class_
    rw [fl''.chains.unique fl'.chains class_, if_pos rfl] at order
    cases first : L (classOf n) with
    | nil => exact Or.inl rfl
    | cons y ys =>
        rw [first] at order
        have le := (List.pairwise_cons.mp order).1 y List.mem_cons_self
        rw [header, same _ class_ y (by simp [first])] at le
        exact Or.inr le
  · intro le
    refine ⟨t, _, run, fl', fun c hc => ?_⟩
    have kept : (L c).Pairwise fun a b => sizeAt t.mem (a - 4) ≤ sizeAt t.mem (b - 4) :=
      (ascending c hc).imp_of_mem fun {a b} ha hb le => by rwa [same c hc a ha, same c hc b hb]
    by_cases here : c = classOf n
    · subst here
      rw [if_pos rfl]
      refine List.pairwise_cons.mpr ⟨fun y hy => ?_, kept⟩
      rw [header, same _ hc y hy]
      cases first : L (classOf n) with
      | nil => simp [first] at hy
      | cons z zs =>
          have bounds := fl.recorded.bounds
          obtain ⟨k, he, -⟩ := (mem_class (fl.chains _ hc).2).mp (show z ∈ L (classOf n) by simp [first])
          have low := (bounds _ he).1
          rw [first] at le hy
          have least : n ≤ sizeAt s.mem (z - 4) :=
            le.resolve_left (show z ≠ 0 by omega)
          have order := ascending _ hc
          rw [first] at order
          rcases List.mem_cons.mp hy with rfl | hy
          · exact least
          · exact least.trans ((List.pairwise_cons.mp order).1 y hy)
    · rw [if_neg here]
      exact kept

end

def twoBlocks (head : Nat) : State where
  mem := ofWords 4096 [16, 0, 0, 16, 24, 0, 0, 0, 0, 24]
  memStartBrk := 4096
  memBrk := 4136
  memMaxAddr := 4096 + maxHeap
  heapListp := 4096
  sgrlists := fun c => if c = 4 then head else null

theorem twoBlocks_recorded (head : Nat) : Recorded (twoBlocks head) [(4116, 24), (4100, 16)] := by
  refine ⟨by decide, ?_, by decide, by decide⟩
  show ∀ e ∈ [(4116, 24), (4100, 16)], sizeAt (ofWords 4096 [16, 0, 0, 16, 24, 0, 0, 0, 0, 24]) (e.1 - 4) = e.2
  decide +kernel

theorem twoBlocks_listed :
    FreeLists (twoBlocks 4100) [(4100, 16)] fun c => if c = 4 then [4100] else [] := by
  refine ⟨fun c _ => ?_, (twoBlocks_recorded 4100).tail (List.sublist_cons_self _ _)⟩
  by_cases here : c = 4
  · subst here
    exact ⟨by decide +kernel, by decide⟩
  · have empty : [(4100, 16)].filter (fun e => classOf e.2 = c) = [] := by
      simp [show classOf 16 = 4 by decide, Ne.symm here]
    simp only [if_neg here, empty]
    exact ⟨if_neg here, .nil⟩

theorem lists_exact_twoBlocks : ∃ s', Does (fun _ => True) (insertBlock 4116 24) (twoBlocks 4100) () s' ∧
    FreeLists s' [(4116, 24), (4100, 16)] fun c => if c = 4 then [4116, 4100] else [] := by
  obtain ⟨s', run, fl, -⟩ := (lists_exact twoBlocks_listed).1 4116 24 (twoBlocks_recorded 4100)
  refine ⟨s', run, fl.chains.congr_seq fun c _ => ?_, fl.recorded⟩
  rw [show classOf 24 = 4 by decide]
  split <;> rfl

def threeBlocks : State where
  mem := ofWords 4096 [16, 0, 0, 16, 24, 4140, 0, 0, 0, 24, 24, 0, 4116, 0, 0, 24]
  memStartBrk := 4096
  memBrk := 4160
  memMaxAddr := 4096 + maxHeap
  heapListp := 4096
  sgrlists := fun c => if c = 4 then 4116 else null

theorem threeBlocks_recorded : Recorded threeBlocks [(4100, 16), (4116, 24), (4140, 24)] :=
  ⟨by decide, by decide +kernel, by decide, by decide⟩

theorem threeBlocks_listed :
    FreeLists threeBlocks [(4116, 24), (4140, 24)] fun c => if c = 4 then [4116, 4140] else [] := by
  refine ⟨fun c _ => ?_, threeBlocks_recorded.tail (List.sublist_cons_self _ _)⟩
  by_cases here : c = 4
  · subst here
    exact ⟨by decide +kernel, by decide⟩
  · have empty : [(4116, 24), (4140, 24)].filter (fun e => classOf e.2 = c) = [] := by
      simp [show classOf 24 = 4 by decide, Ne.symm here]
    simp only [if_neg here, empty]
    exact ⟨if_neg here, .nil⟩

theorem insert_ascending_iff_threeBlocks :
    ∃ s' L', Does (fun _ => True) (insertBlock 4100 16) threeBlocks () s' ∧
      FreeLists s' [(4100, 16), (4116, 24), (4140, 24)] L' ∧ Ascending s' L' := by
  have ascending : Ascending threeBlocks fun c => if c = 4 then [4116, 4140] else [] := by
    intro c _
    by_cases here : c = 4
    · simp only [if_pos here]
      decide +kernel
    · simp only [if_neg here]
      exact .nil
  exact (insert_ascending_iff threeBlocks_listed ascending threeBlocks_recorded).mpr (Or.inr (by decide +kernel))

theorem insert_descends_twoBlocks :
    FreeLists (twoBlocks 4100) [(4100, 16)] (fun c => if c = 4 then [4100] else []) ∧
      Ascending (twoBlocks 4100) (fun c => if c = 4 then [4100] else []) ∧
      Recorded (twoBlocks 4100) [(4116, 24), (4100, 16)] ∧
      ¬ ∃ s' L', Does (fun _ => True) (insertBlock 4116 24) (twoBlocks 4100) () s' ∧
        FreeLists s' [(4116, 24), (4100, 16)] L' ∧ Ascending s' L' := by
  refine ⟨twoBlocks_listed, fun c _ => ?_, twoBlocks_recorded 4100, ?_⟩
  · simp only
    split <;> simp
  · rintro ⟨s', L', run, fl', ascending⟩
    obtain ⟨t, run', fl, -⟩ := twoBlocks_listed.push (twoBlocks_recorded 4100)
    obtain rfl := (run.unique run').2
    have order := ascending 4 (by decide)
    rw [fl'.chains.unique fl.chains (by decide), if_pos (by decide)] at order
    have le := (List.pairwise_cons.mp order).1 4100 (by simp)
    rw [fl'.recorded.headers (4116, 24) (by simp), fl'.recorded.headers (4100, 16) (by simp)] at le
    omega

end MallocLab.Segregated
