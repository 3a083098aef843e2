import MallocLab.Driver.Replay
import Mathlib.Order.Bounds.Basic

/-!
# Space utilisation (mdriver.c)

`eval_mm_util` keeps the sum of the sizes of the live payloads by increments, and the largest sum so far.
The sums are those of the trace alone, and payloads that share no byte cannot outgrow the heap.
-/

namespace MallocLab.Driver
open Memory

def int32 (i : Int) : Int := i.bmod (2 ^ 32)

structure Meter (σ : Type*) where
  machine : Machine σ
  blocks : Int → Nat
  blockSizes : Int → Nat
  totalSize : Int
  maxTotalSize : Int

variable {σ : Type*}

def Meter.remember (u : Meter σ) (m : Machine σ) (index : Int) (p : Nat) (size total : Int) :
    Meter σ where
  machine := m
  blocks := Function.update u.blocks index p
  blockSizes := Function.update u.blockSizes index (unsigned size)
  totalSize := total
  maxTotalSize := if u.maxTotalSize < total then total else u.maxTotalSize

def utilStep (a : Allocator σ) (op : TraceOp) (u : Meter σ) : Except Stop (Meter σ) :=
  match op with
  | .alloc index size =>
    match a.mmMalloc (unsigned size) u.machine with
    | .error stop => .error stop
    | .ok (p, m) =>
      if p = null then .error (.exit "mm_malloc failed in eval_mm_util\n")
      else .ok (u.remember m index p size (int32 (u.totalSize + size)))
  | .realloc index newsize =>
    let oldsize := toInt32 (u.blockSizes index)
    match a.mmRealloc (u.blocks index) (unsigned newsize) u.machine with
    | .error stop => .error stop
    | .ok (newp, m) =>
      if newp = null then .error (.exit "mm_realloc failed in eval_mm_util\n")
      else .ok (u.remember m index newp newsize (int32 (u.totalSize + int32 (newsize - oldsize))))
  | .free index =>
    let size := toInt32 (u.blockSizes index)
    match a.mmFree (u.blocks index) u.machine with
    | .error stop => .error stop
    | .ok m => .ok { u with machine := m, totalSize := int32 (u.totalSize - size) }

def utilLoop (a : Allocator σ) : List TraceOp → Meter σ → Except Stop (Meter σ)
  | [], u => .ok u
  | op :: ops, u =>
    match utilStep a op u with
    | .error stop => .error stop
    | .ok u => utilLoop a ops u

def metered (a : Allocator σ) (m : Machine σ) (blocks blockSizes : Int → Nat) : Meter σ :=
  ⟨restarted a m, blocks, blockSizes, 0, 0⟩

/-- The quotient of the doubles, which is no number on an empty heap. -/
def utilisation (maxTotalSize : Int) (heapsize : Nat) : Option ℚ :=
  if heapsize = 0 then none else some (maxTotalSize / heapsize)

def evalMmUtil (a : Allocator σ) (trace : Trace) (m : Machine σ) (blocks blockSizes : Int → Nat) :
    Except Stop (Option ℚ) :=
  match restart a m with
  | .error stop => .error stop
  | .ok (status, m) =>
    if status < 0 then .error (.exit "mm_init failed in eval_mm_util\n")
    else match utilLoop a trace.ops ⟨m, blocks, blockSizes, 0, 0⟩ with
    | .error stop => .error stop
    | .ok u => .ok (utilisation u.maxTotalSize (memHeapsize u.machine.lib))

def utilCalls (a : Allocator σ) : List TraceOp → Meter σ → List Call
  | [], _ => []
  | op :: ops, u =>
    callOf a op u.blocks u.machine ::
      match utilStep a op u with
      | .error _ => []
      | .ok u => utilCalls a ops u

/-! ## What a trace demands -/

def TraceOp.resize (sizes : List (Int × Nat)) : TraceOp → List (Int × Nat)
  | alloc index size => (index, size.toNat) :: sizes
  | realloc index size => (index, size.toNat) :: sizes.filter fun e => e.1 ≠ index
  | free index => sizes.filter fun e => e.1 ≠ index

def liveSizes (ops : List TraceOp) : List (Int × Nat) := ops.foldl TraceOp.resize []

/-- The sum of the sizes of the ids that are live after `ops`. -/
def demand (ops : List TraceOp) : Nat := ((liveSizes ops).map Prod.snd).sum

def demands (ops : List TraceOp) : Set Int := {d | ∃ before, before <+: ops ∧ d = demand before}

theorem demands_nil : IsGreatest (demands []) 0 := by
  refine ⟨⟨[], List.prefix_refl _, rfl⟩, ?_⟩
  rintro d ⟨before, pre, rfl⟩
  rw [List.prefix_nil.1 pre]
  exact le_refl _

theorem demands_concat {ops : List TraceOp} {op : TraceOp} {n : Int} (h : IsGreatest (demands ops) n) :
    IsGreatest (demands (ops ++ [op])) (max n (demand (ops ++ [op]))) := by
  have split : demands (ops ++ [op]) = insert (demand (ops ++ [op]) : Int) (demands ops) := by
    ext d
    simp only [demands, Set.mem_ofPred_eq, Set.mem_insert_iff, List.prefix_concat_iff]
    constructor
    · rintro ⟨before, rfl | pre, rfl⟩
      · exact .inl rfl
      · exact .inr ⟨before, pre, rfl⟩
    · rintro (rfl | ⟨before, pre, rfl⟩)
      · exact ⟨_, .inl rfl, rfl⟩
      · exact ⟨before, .inr pre, rfl⟩
  rw [split, max_comm]
  exact h.insert _

/-- What the allocator is asked for. -/
def Served (l : Ledger) (c : Call) : Prop :=
  c.stop = none ∧
  match c.op with
  | .alloc index size => c.p ≠ null ∧ Placed c.after (l.others index) ⟨c.p, size.toNat⟩
  | .realloc index size => c.p ≠ null ∧ Placed c.after (l.others index) ⟨c.p, size.toNat⟩
  | .free _ => True

/-! ## The payloads in the heap -/

structure Laid (lib : MemLib) (l : Ledger) : Prop where
  apart : (l.map Prod.snd).Pairwise Span.Apart
  inside : ∀ s ∈ l.map Prod.snd, ∀ x, s.Has x → lib.memStartBrk ≤ x ∧ x < lib.memBrk

def Ledger.total (l : Ledger) : Nat := (l.map fun e => e.2.size).sum

namespace Laid
variable {lib lib' : MemLib} {l : Ledger} {index : Int} {s : Span}

theorem nil (lib : MemLib) : Laid lib [] := ⟨List.Pairwise.nil, by simp⟩

theorem grown (h : Laid lib l) (g : Grown lib lib') : Laid lib' l := by
  refine ⟨h.apart, fun s mem x has => ?_⟩
  obtain ⟨low, high⟩ := h.inside s mem x has
  rw [g.start]
  exact ⟨low, high.trans_le g.brk⟩

theorem others (h : Laid lib l) (index : Int) : Laid lib (l.others index) := by
  have sub : ((l.others index).map Prod.snd).Sublist (l.map Prod.snd) := List.filter_sublist.map _
  exact ⟨h.apart.sublist sub, fun s mem => h.inside s (sub.subset mem)⟩

theorem cons (h : Laid lib l) (v : lib.Valid) (placed : Placed lib l s) : Laid lib ((index, s) :: l) := by
  refine ⟨List.pairwise_cons.2 ⟨fun t mem => ?_, h.apart⟩, fun t mem x has => ?_⟩
  · obtain ⟨e, memE, rfl⟩ := List.mem_map.1 mem
    exact placed.apart e memE
  · obtain rfl | mem := List.mem_cons.1 mem
    · obtain ⟨low, high⟩ := placed.inside x has
      have start := v.start
      have brk := v.low
      simp only [memHeapLo, memHeapHi] at low high
      omega
    · exact h.inside t mem x has

theorem total_le (h : Laid lib l) : l.total ≤ memHeapsize lib := by
  have room := Span.sum_sizes_le h.apart h.inside
  rw [List.map_map] at room
  exact room

end Laid

/-! ## One request -/

structure Metered (u : Meter σ) (l : Ledger) (done : List TraceOp) : Prop where
  proper : l.Proper
  sizes : ∀ e ∈ l, u.blockSizes e.1 = e.2.size
  lib : u.machine.lib.Valid
  laid : Laid u.machine.lib l
  trace : l.map (fun e => (e.1, e.2.size)) = liveSizes done
  total : u.totalSize = demand done
  greatest : IsGreatest (demands done) u.maxTotalSize
  room : u.maxTotalSize ≤ memHeapsize u.machine.lib

theorem total_eq {l : Ledger} {done : List TraceOp}
    (trace : l.map (fun e => (e.1, e.2.size)) = liveSizes done) : l.total = demand done := by
  rw [demand, ← trace, List.map_map]
  rfl

theorem memHeapsize_le {lib : MemLib} (v : lib.Valid) : memHeapsize lib ≤ maxHeap := by
  have high := v.high
  have area := v.area
  unfold memHeapsize
  omega

theorem memHeapsize_grown {lib lib' : MemLib} (g : Grown lib lib') :
    memHeapsize lib ≤ memHeapsize lib' := by
  have start := g.start
  have brk := g.brk
  unfold memHeapsize
  omega

theorem int32_eq {i : Int} (low : -2 ^ 31 ≤ i) (high : i < 2 ^ 31) : int32 i = i := by
  unfold int32
  apply Int.bmod_eq_of_le <;> omega

theorem map_others (l : Ledger) (index : Int) : (l.others index).map (fun e => (e.1, e.2.size)) =
    (l.map fun e => (e.1, e.2.size)).filter fun e => e.1 ≠ index := by
  rw [Ledger.others, List.filter_map]
  rfl

theorem liveSizes_concat (done : List TraceOp) (op : TraceOp) :
    liveSizes (done ++ [op]) = op.resize (liveSizes done) := List.foldl_concat ..

theorem step_trace {l : Ledger} {done : List TraceOp} {c : Call}
    (trace : l.map (fun e => (e.1, e.2.size)) = liveSizes done) :
    (l.step c).map (fun e => (e.1, e.2.size)) = liveSizes (done ++ [c.op]) := by
  rw [liveSizes_concat, ← trace]
  unfold Ledger.step TraceOp.resize
  cases c.op with
  | alloc index size => rfl
  | realloc index size => exact congrArg _ (map_others l index)
  | free index => exact map_others l index

theorem total_others {l : Ledger} (proper : l.Proper) {index : Int} {s : Span} (mem : (index, s) ∈ l) :
    l.total = s.size + (l.others index).total := ((proper.perm mem).map _).sum_eq

section
variable {a : Allocator σ} {u u' : Meter σ} {l : Ledger} {done ops : List TraceOp} {op : TraceOp}
  {numIds : Int}

theorem Metered.remember (k : Metered u l done) {rest : Ledger} {m : Machine σ} {index size : Int}
    {p : Nat} (g : Grown u.machine.lib m.lib) (proper : rest.Proper)
    (sizes : ∀ e ∈ rest, u.blockSizes e.1 = e.2.size) (laid : Laid u.machine.lib rest)
    (new : index ∉ rest.ids) (sized : 1 ≤ size ∧ size < 2 ^ 31)
    (placed : Placed m.lib rest ⟨p, size.toNat⟩)
    (trace : Ledger.step l ⟨op, p, u.machine.lib, m.lib, none⟩ = (index, ⟨p, size.toNat⟩) :: rest) :
    Metered (u.remember m index p size (demand (done ++ [op])))
      (Ledger.step l ⟨op, p, u.machine.lib, m.lib, none⟩) (done ++ [op]) := by
  have v := g.valid k.lib
  have listed := step_trace (c := ⟨op, p, u.machine.lib, m.lib, none⟩) k.trace
  have laid' : Laid m.lib ((index, ⟨p, size.toNat⟩) :: rest) := (laid.grown g).cons v placed
  have length : unsigned size = size.toNat := by
    unfold unsigned
    omega
  have most : (u.remember m index p size (demand (done ++ [op]))).maxTotalSize =
      max u.maxTotalSize (demand (done ++ [op])) := by
    simp only [Meter.remember]
    split <;> omega
  rw [← trace] at laid'
  have total : demand (done ++ [op]) ≤ memHeapsize m.lib := (total_eq listed).symm.trans_le laid'.total_le
  refine ⟨?_, ?_, v, laid', listed, rfl, ?_, ?_⟩
  · rw [trace]
    exact proper.cons (by simp only; omega) new
  · rw [trace]
    intro e mem
    obtain rfl | mem := List.mem_cons.1 mem
    · simp [Meter.remember, length]
    · have other : e.1 ≠ index := fun same => new (Ledger.mem_ids.2 ⟨e.2, same ▸ mem⟩)
      simpa [Meter.remember, other] using sizes e mem
  · rw [most]
    exact demands_concat k.greatest
  · rw [most]
    have grown := memHeapsize_grown g
    have room := k.room
    simp only [Meter.remember]
    omega

theorem int32_demand {c : Call} {lib : MemLib} (v : lib.Valid) (laid : Laid lib (l.step c))
    (trace : l.map (fun e => (e.1, e.2.size)) = liveSizes done) {i : Int} (eq : i = (l.step c).total) :
    int32 i = demand (done ++ [c.op]) := by
  have total := total_eq (step_trace (c := c) trace)
  have small := laid.total_le.trans (memHeapsize_le v)
  unfold maxHeap at small
  rw [← total, ← eq]
  apply int32_eq <;> omega

theorem utilStep_metered (k : Metered u l done) (allowed : op.Allowed numIds l.ids)
    (served : Served l (callOf a op u.blocks u.machine)) :
    ∃ u', utilStep a op u = .ok u' ∧
      Metered u' (l.step (callOf a op u.blocks u.machine)) (done ++ [op]) := by
  have g := a.reply_grown op u.blocks u.machine
  have v := g.valid k.lib
  have total : u.totalSize = l.total := by rw [k.total, total_eq k.trace]
  -- the size of a live payload, as an `int`
  have held : ∀ index s, (index, s) ∈ l → toInt32 (u.blockSizes index) = s.size ∧ s.size ≤ maxHeap ∧
      l.total = s.size + (l.others index).total := by
    intro index s mem
    have sum := total_others k.proper mem
    have small := k.laid.total_le.trans (memHeapsize_le k.lib)
    have size : u.blockSizes index = s.size := k.sizes _ mem
    have fits : s.size ≤ maxHeap := by omega
    rw [size]
    unfold maxHeap at fits
    exact ⟨toInt32_eq (by omega), fits, sum⟩
  obtain ⟨returns, served⟩ := served
  cases op with
  | alloc index size =>
    obtain ⟨-, sized, new⟩ := allowed
    obtain ⟨nonnull, placed⟩ := served
    have call : a.mmMalloc (unsigned size) u.machine = _ := a.serve_eq returns
    rw [Ledger.others_of_notMem new] at placed
    have sum : int32 (u.totalSize + size) = demand (done ++ [.alloc index size]) := by
      refine int32_demand (c := callOf a (.alloc index size) u.blocks u.machine) v
        ((k.laid.grown g).cons v placed) k.trace ?_
      rw [total]
      simp only [Ledger.step, callOf, Ledger.total, List.map_cons, List.sum_cons]
      omega
    simp only [callOf] at nonnull placed g ⊢
    refine ⟨_, by simp only [utilStep, call, if_neg nonnull, sum]; rfl, ?_⟩
    exact k.remember g k.proper k.sizes k.laid new sized placed rfl
  | realloc index size =>
    obtain ⟨-, sized, live⟩ := allowed
    obtain ⟨nonnull, placed⟩ := served
    have call : a.mmRealloc (u.blocks index) (unsigned size) u.machine = _ := a.serve_eq returns
    obtain ⟨s, mem⟩ := Ledger.mem_ids.1 live
    obtain ⟨oldsize, small, sum⟩ := held index s mem
    have sum : int32 (u.totalSize + int32 (size - toInt32 (u.blockSizes index))) =
        demand (done ++ [.realloc index size]) := by
      refine int32_demand (c := callOf a (.realloc index size) u.blocks u.machine) v
        (((k.laid.others index).grown g).cons v placed) k.trace ?_
      have change : int32 (size - s.size) = size - s.size := by
        unfold maxHeap at small
        apply int32_eq <;> omega
      rw [oldsize, change, total, sum]
      simp only [Ledger.step, callOf, Ledger.total, List.map_cons, List.sum_cons]
      push_cast
      omega
    simp only [callOf] at nonnull placed g ⊢
    refine ⟨_, by simp only [utilStep, call, if_neg nonnull, sum]; rfl, ?_⟩
    exact k.remember g (k.proper.others index) (fun e mem => k.sizes e (Ledger.mem_others.1 mem).1)
      (k.laid.others index) Ledger.notMem_others sized placed rfl
  | free index =>
    have call := a.free_eq returns
    obtain ⟨s, mem⟩ := Ledger.mem_ids.1 allowed.2
    obtain ⟨size, -, sum⟩ := held index s mem
    have laid := (k.laid.others index).grown g
    have difference : int32 (u.totalSize - toInt32 (u.blockSizes index)) =
        demand (done ++ [.free index]) := by
      refine int32_demand (c := callOf a (.free index) u.blocks u.machine) v laid k.trace ?_
      rw [size, total, sum]
      simp only [Ledger.step, callOf]
      push_cast
      omega
    have step : utilStep a (.free index) u = .ok { u with
        machine := (a.reply (.free index) u.blocks u.machine).2
        totalSize := int32 (u.totalSize - toInt32 (u.blockSizes index)) } := by
      simp only [utilStep, call]
    refine ⟨_, step, k.proper.others index, fun e mem => k.sizes e (Ledger.mem_others.1 mem).1, v, laid,
      step_trace (c := callOf a (.free index) u.blocks u.machine) k.trace, difference, ?_,
      k.room.trans (Int.ofNat_le.2 (memHeapsize_grown g))⟩
    -- a `FREE` is never the largest sum
    have less : (demand (done ++ [.free index]) : Int) ≤ u.maxTotalSize := by
      have before := k.greatest.2 ⟨done, List.prefix_refl _, rfl⟩
      have after := total_eq (step_trace (c := callOf a (.free index) u.blocks u.machine) k.trace)
      simp only [Ledger.step, callOf] at after
      rw [← total_eq k.trace] at before
      omega
    have greatest : IsGreatest (demands (done ++ [.free index])) _ := demands_concat k.greatest
    rwa [max_eq_left less] at greatest

/-! ## Whole traces -/

theorem utilLoop_metered (k : Metered u l done) (follows : Follows numIds l.ids ops)
    (served : Along Served l (utilCalls a ops u)) {first : List TraceOp} (pre : first <+: ops) :
    ∃ u' l', utilLoop a first u = .ok u' ∧ Metered u' l' (done ++ first) := by
  induction ops generalizing u l done first with
  | nil =>
    rw [List.prefix_nil.1 pre]
    exact ⟨u, l, rfl, by rwa [List.append_nil]⟩
  | cons op ops ih =>
    cases first with
    | nil => exact ⟨u, l, rfl, by rwa [List.append_nil]⟩
    | cons op' first =>
      obtain ⟨rfl, tail⟩ := List.cons_prefix_cons.1 pre
      obtain ⟨next, step, k'⟩ := utilStep_metered k follows.1 served.1
      rw [utilCalls, step] at served
      obtain ⟨u', l', run, k''⟩ := ih k' (follows_step rfl follows) served.2 tail
      refine ⟨u', l', ?_, by rwa [List.append_cons]⟩
      rw [utilLoop, step]
      exact run

theorem Metered.begun {m : Machine σ} (v : m.lib.Valid) (blocks blockSizes : Int → Nat) :
    Metered (metered a m blocks blockSizes) [] [] where
  proper := Ledger.Proper.nil
  sizes := by simp
  lib := restart_valid a v
  laid := Laid.nil _
  trace := rfl
  total := rfl
  greatest := demands_nil
  room := Int.natCast_nonneg _

theorem utilisation_le {n : Int} {heapsize : Nat} (le : n ≤ heapsize) {q : ℚ}
    (h : utilisation n heapsize = some q) : q ≤ 1 := by
  unfold utilisation at h
  split at h
  · cases h
  · rename_i pos
    cases h
    have room : (0 : ℚ) < heapsize := by exact_mod_cast Nat.pos_of_ne_zero pos
    rw [div_le_one room]
    exact_mod_cast le

/-- After every request the total is the demand of the trace so far, the maximum is the largest demand of
a prefix, and it is at most the size of the heap. -/
theorem util_accounts {trace : Trace} {m : Machine σ} {blocks blockSizes : Int → Nat} (v : m.lib.Valid)
    (follows : Follows trace.header.numIds ∅ trace.ops) {status : Int}
    (init : restart a m = .ok (status, restarted a m)) (ready : 0 ≤ status)
    (served : Along Served [] (utilCalls a trace.ops (metered a m blocks blockSizes))) :
    (∀ first, first <+: trace.ops → ∃ u, utilLoop a first (metered a m blocks blockSizes) = .ok u ∧
      u.totalSize = demand first) ∧
    ∃ u, utilLoop a trace.ops (metered a m blocks blockSizes) = .ok u ∧
      IsGreatest (demands trace.ops) u.maxTotalSize ∧
      u.maxTotalSize ≤ memHeapsize u.machine.lib ∧
      evalMmUtil a trace m blocks blockSizes =
        .ok (utilisation u.maxTotalSize (memHeapsize u.machine.lib)) ∧
      ∀ q, utilisation u.maxTotalSize (memHeapsize u.machine.lib) = some q → q ≤ 1 := by
  have begun := Metered.begun (a := a) v blocks blockSizes
  constructor
  · intro first pre
    obtain ⟨u, l, run, k⟩ := utilLoop_metered begun follows served pre
    exact ⟨u, run, k.total⟩
  · obtain ⟨u, l, run, k⟩ := utilLoop_metered begun follows served (List.prefix_refl _)
    refine ⟨u, run, k.greatest, k.room, ?_, fun q => utilisation_le k.room⟩
    simp only [metered] at run
    simp only [evalMmUtil, init, if_neg (not_lt.2 ready), run]

end

def growing : Trace := ⟨⟨0, 1, 3, 1⟩, [.alloc 0 8, .realloc 0 16, .free 0]⟩

theorem growing_served : Along Served [] (utilCalls scripted growing.ops
    (metered scripted (script [4096, 4096]) (fun _ => 0) fun _ => 0)) :=
  ⟨⟨rfl, by decide, script_placed rfl rfl (by decide)⟩, ⟨rfl, by decide, script_placed rfl rfl (by decide)⟩,
    ⟨rfl, trivial⟩, trivial⟩

theorem util_accounts_growing :
    ∃ u, utilLoop scripted growing.ops
        (metered scripted (script [4096, 4096]) (fun _ => 0) fun _ => 0) = .ok u ∧
      IsGreatest (demands growing.ops) u.maxTotalSize := by
  obtain ⟨u, run, greatest, -⟩ := (util_accounts script_valid (by decide) rfl (le_refl 0) growing_served).2
  exact ⟨u, run, greatest⟩

end MallocLab.Driver
