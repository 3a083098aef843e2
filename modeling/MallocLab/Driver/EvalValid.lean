import MallocLab.Driver.Replay

/-!
# The validity check (mdriver.c)

`eval_mm_valid` replays a trace and keeps a list of the extents of the live payloads. The driver's own
`malloc` for the records of that list is taken to succeed.
-/

namespace MallocLab.Driver
open Memory

structure Range where
  lo : Nat
  hi : Nat
  deriving DecidableEq, Repr

/-- `malloc_error` for a request and the return of 0, or the end of the driver. -/
inductive Failure
  | report (opnum : Nat) (msg : String)
  | stop (s : Stop)
  deriving DecidableEq, Repr

def alignment : Nat := 8

def pointer (p : Nat) : String :=
  if p = null then "(nil)" else "0x" ++ String.ofList (Nat.toDigits 16 p)

def Range.Meets (r : Range) (lo hi : Nat) : Prop := (r.lo ≤ lo ∧ lo ≤ r.hi) ∨ (r.lo ≤ hi ∧ hi ≤ r.hi)

instance (r : Range) (lo hi : Nat) : Decidable (r.Meets lo hi) := inferInstanceAs (Decidable (_ ∨ _))

def Outside (lib : MemLib) (lo hi : Nat) : Prop :=
  lo < memHeapLo lib ∨ memHeapHi lib < lo ∨ hi < memHeapLo lib ∨ memHeapHi lib < hi

instance (lib : MemLib) (lo hi : Nat) : Decidable (Outside lib lo hi) :=
  inferInstanceAs (Decidable (_ ∨ _))

def addRange (lib : MemLib) (ranges : List Range) (lo : Nat) (size : Int) (opnum : Nat) :
    Except Failure (List Range) :=
  let hi := unsigned (lo + size - 1)
  let payload := s!"Payload ({pointer lo}:{pointer hi})"
  if ¬ 0 < size then .error (.stop (.assertion "size > 0"))
  else if lo % alignment ≠ 0 then
    .error (.report opnum s!"Payload address ({pointer lo}) not aligned to {alignment} bytes")
  else if Outside lib lo hi then
    let heap := s!"({pointer (memHeapLo lib)}:{pointer (memHeapHi lib)})"
    .error (.report opnum s!"{payload} lies outside heap {heap}")
  else match ranges.find? fun p => p.Meets lo hi with
  | some p =>
    .error (.report opnum s!"{payload} overlaps another payload ({pointer p.lo}:{pointer p.hi})\n")
  | none => .ok (⟨lo, hi⟩ :: ranges)

def removeRange (ranges : List Range) (lo : Nat) : List Range := ranges.eraseP fun p => p.lo == lo

structure Checker (σ : Type*) where
  machine : Machine σ
  ranges : List Range
  blocks : Int → Nat
  blockSizes : Int → Nat

variable {σ : Type*}

def Machine.memset (m : Machine σ) (p : Nat) (b : Byte) (size : Nat) : Machine σ :=
  { m with lib := { m.lib with mem := fill m.lib.mem p b size } }

def pattern (index : Int) : Byte := BitVec.ofInt 8 index

/-- The loop over the data of the old block: a `char` is signed, `index & 0xFF` is not negative. -/
def preserved (mem : Mem) (newp : Nat) (index oldsize : Int) : Bool :=
  (List.range oldsize.toNat).all fun j => (mem (newp + j)).toInt = index % 2 ^ 8

def Checker.remember (c : Checker σ) (m : Machine σ) (ranges : List Range) (index : Int) (p : Nat)
    (size : Int) : Checker σ where
  machine := m.memset p (pattern index) (unsigned size)
  ranges := ranges
  blocks := Function.update c.blocks index p
  blockSizes := Function.update c.blockSizes index (unsigned size)

def validStep (a : Allocator σ) (i : Nat) (op : TraceOp) (c : Checker σ) : Except Failure (Checker σ) :=
  match op with
  | .alloc index size =>
    match a.mmMalloc (unsigned size) c.machine with
    | .error stop => .error (.stop stop)
    | .ok (p, m) =>
      if p = null then .error (.report i "mm_malloc failed.")
      else match addRange m.lib c.ranges p size i with
      | .error failure => .error failure
      | .ok ranges => .ok (c.remember m ranges index p size)
  | .realloc index size =>
    let oldp := c.blocks index
    match a.mmRealloc oldp (unsigned size) c.machine with
    | .error stop => .error (.stop stop)
    | .ok (newp, m) =>
      if newp = null then .error (.report i "mm_realloc failed.")
      else match addRange m.lib (removeRange c.ranges oldp) newp size i with
      | .error failure => .error failure
      | .ok ranges =>
        let oldsize := toInt32 (c.blockSizes index)
        let oldsize := if size < oldsize then size else oldsize
        if preserved m.lib.mem newp index oldsize then .ok (c.remember m ranges index newp size)
        else .error (.report i "mm_realloc did not preserve the data from old block")
  | .free index =>
    let p := c.blocks index
    match a.mmFree p c.machine with
    | .error stop => .error (.stop stop)
    | .ok m => .ok { c with ranges := removeRange c.ranges p, machine := m }

def validLoop (a : Allocator σ) : (i : Nat) → List TraceOp → Checker σ → Except Failure (Checker σ)
  | _, [], c => .ok c
  | i, op :: ops, c =>
    match validStep a i op c with
    | .error failure => .error failure
    | .ok c => validLoop a (i + 1) ops c

/-- What `eval_mm_valid` returns and the lines it printed, or how the driver ended in it. -/
inductive Verdict
  | returned (value : Int) (printed : List String)
  | stopped (s : Stop)
  deriving DecidableEq, Repr

def linenum (i : Nat) : Nat := i + 5

def mallocError (tracenum : Int) (opnum : Nat) (msg : String) : String :=
  s!"ERROR [trace {tracenum}, line {linenum opnum}]: {msg}\n"

def evalMmValid (a : Allocator σ) (trace : Trace) (tracenum : Int) (m : Machine σ)
    (blocks blockSizes : Int → Nat) : Verdict :=
  match restart a m with
  | .error stop => .stopped stop
  | .ok (status, m) =>
    if status < 0 then .returned 0 [mallocError tracenum 0 "mm_init failed."]
    else match validLoop a 0 trace.ops ⟨m, [], blocks, blockSizes⟩ with
    | .error (.report i msg) => .returned 0 [mallocError tracenum i msg]
    | .error (.stop s) => .stopped s
    | .ok _ => .returned 1 []

def begun (a : Allocator σ) (m : Machine σ) (blocks blockSizes : Int → Nat) : Checker σ :=
  ⟨restarted a m, [], blocks, blockSizes⟩

def validCalls (a : Allocator σ) : (i : Nat) → List TraceOp → Checker σ → List Call
  | _, [], _ => []
  | i, op :: ops, c =>
    callOf a op c.blocks c.machine ::
      match validStep a i op c with
      | .error _ => []
      | .ok c => validCalls a (i + 1) ops c

/-! ## One request -/

structure Accepts (lib : MemLib) (ranges : List Range) (s : Span) : Prop where
  aligned : s.start % alignment = 0
  low : memHeapLo lib ≤ s.start
  high : s.finish ≤ lib.memBrk
  apart : ∀ r ∈ ranges, ¬ r.Meets s.start (s.start + s.size - 1)

def Range.of (s : Span) : Range := ⟨s.start, s.start + s.size - 1⟩

theorem hi_eq {lo : Nat} {size : Int} (pos : 1 ≤ size) (fits : lo + size ≤ 2 ^ 32) :
    unsigned (lo + size - 1) = lo + size.toNat - 1 := by
  unfold unsigned
  omega

theorem not_outside_iff {lib : MemLib} (v : lib.Valid) (lo : Nat) {size : Int} (pos : 1 ≤ size)
    (small : size < 2 ^ 31) : ¬ Outside lib lo (unsigned (lo + size - 1)) ↔
      memHeapLo lib ≤ lo ∧ lo + size.toNat ≤ lib.memBrk := by
  obtain ⟨start, low, high, area, space⟩ := v
  simp only [Outside, memHeapLo, memHeapHi, unsigned, maxHeap] at *
  omega

theorem addRange_eq_ok {lib : MemLib} (v : lib.Valid) {ranges ranges' : List Range} {lo i : Nat}
    {size : Int} (pos : 1 ≤ size) (small : size < 2 ^ 31) :
    addRange lib ranges lo size i = .ok ranges' ↔
      Accepts lib ranges ⟨lo, size.toNat⟩ ∧ ranges' = Range.of ⟨lo, size.toNat⟩ :: ranges := by
  have heap := not_outside_iff v lo pos small
  unfold addRange
  simp only [show 0 < size from pos, not_true_eq_false, if_false]
  by_cases aligned : lo % alignment = 0
  · rw [if_neg (not_not.2 aligned)]
    by_cases outside : Outside lib lo (unsigned (lo + size - 1))
    · rw [if_pos outside]
      refine ⟨fun h => (by cases h), fun h => absurd outside (heap.2 ⟨h.1.low, h.1.high⟩)⟩
    · have fits : (lo : Int) + size ≤ 2 ^ 32 := by
        have inside := (heap.1 outside).2
        have high := v.high
        have space := v.space
        omega
      have last := hi_eq pos fits
      rw [if_neg outside, last]
      split
      · rename_i r found
        refine ⟨fun h => (by cases h), fun h => ?_⟩
        have meets := List.find?_some found
        exact absurd (of_decide_eq_true meets) (h.1.apart r (List.mem_of_find?_eq_some found))
      · rename_i none
        have apart : ∀ r ∈ ranges, ¬ r.Meets lo (lo + size.toNat - 1) := fun r mem => by
          simpa using List.find?_eq_none.1 none r mem
        obtain ⟨low, high⟩ := heap.1 outside
        constructor
        · intro h
          cases h
          exact ⟨⟨aligned, low, high, apart⟩, rfl⟩
        · rintro ⟨-, rfl⟩
          rfl
  · rw [if_pos aligned]
    exact ⟨fun h => (by cases h), fun h => absurd h.1.aligned aligned⟩

structure Tracked (ranges : List Range) (blocks blockSizes : Int → Nat) (l : Ledger) : Prop where
  proper : l.Proper
  blocks : ∀ e ∈ l, blocks e.1 = e.2.start
  sizes : ∀ e ∈ l, blockSizes e.1 = e.2.size
  small : ∀ e ∈ l, e.2.size < 2 ^ 31
  starts : (ranges.map Range.lo).Nodup
  perm : ranges.Perm (l.map fun e => Range.of e.2)

namespace Tracked
variable {ranges : List Range} {blocks blockSizes : Int → Nat} {l : Ledger} {index : Int} {s : Span}

theorem nil (blocks blockSizes : Int → Nat) : Tracked [] blocks blockSizes [] :=
  ⟨Ledger.Proper.nil, by simp, by simp, by simp, by simp, by simp⟩

theorem drop (t : Tracked ranges blocks blockSizes l) (mem : (index, s) ∈ l) :
    Tracked (removeRange ranges (blocks index)) blocks blockSizes (l.others index) where
  proper := t.proper.others index
  blocks := fun e mem => t.blocks e (Ledger.mem_others.1 mem).1
  sizes := fun e mem => t.sizes e (Ledger.mem_others.1 mem).1
  small := fun e mem => t.small e (Ledger.mem_others.1 mem).1
  starts := t.starts.sublist (List.eraseP_sublist.map _)
  perm := by
    have front : ranges.Perm (Range.of s :: (l.others index).map fun e => Range.of e.2) :=
      t.perm.trans ((t.proper.perm mem).map _)
    have single : ranges.Pairwise fun p q => (p.lo == blocks index) = true →
        (q.lo == blocks index) = true → False := by
      apply (List.pairwise_map.1 t.starts).imp
      intro p q ne hp hq
      exact ne ((beq_iff_eq.1 hp).trans (beq_iff_eq.1 hq).symm)
    have erased := front.eraseP _ single
    rw [List.eraseP_cons_of_pos (by simpa [Range.of] using (t.blocks _ mem).symm)] at erased
    exact erased

theorem push (t : Tracked ranges blocks blockSizes l) (new : index ∉ l.ids) (pos : 0 < s.size)
    (small : s.size < 2 ^ 31) (apart : ∀ r ∈ ranges, ¬ r.Meets s.start (s.start + s.size - 1)) :
    Tracked (Range.of s :: ranges) (Function.update blocks index s.start)
      (Function.update blockSizes index s.size) ((index, s) :: l) := by
  have other : ∀ e ∈ l, e.1 ≠ index := fun e mem same => new (Ledger.mem_ids.2 ⟨e.2, same ▸ mem⟩)
  refine ⟨t.proper.cons pos new, ?_, ?_, ?_, ?_, t.perm.cons _⟩
  · intro e mem
    obtain rfl | mem := List.mem_cons.1 mem
    · simp
    · rw [Function.update_of_ne (other e mem), t.blocks e mem]
  · intro e mem
    obtain rfl | mem := List.mem_cons.1 mem
    · simp
    · rw [Function.update_of_ne (other e mem), t.sizes e mem]
  · intro e mem
    obtain rfl | mem := List.mem_cons.1 mem
    · exact small
    · exact t.small e mem
  · refine List.nodup_cons.2 ⟨fun mem => ?_, t.starts⟩
    obtain ⟨r, memR, same⟩ := List.mem_map.1 mem
    have inRanges := t.perm.mem_iff.1 memR
    obtain ⟨e, memE, eq⟩ := List.mem_map.1 inRanges
    have size := t.proper.pos e memE
    apply apart r memR
    subst eq
    simp only [Range.of] at same
    simp only [Range.Meets, Range.of]
    omega

end Tracked

/-! ## What a request that passes has shown -/

/-- The payload passes the tests, the last one by its ends only. -/
structure Fits (lib : MemLib) (live : Ledger) (s : Span) : Prop where
  aligned : s.start % alignment = 0
  low : memHeapLo lib ≤ s.start
  high : s.finish ≤ lib.memBrk
  first : ∀ e ∈ live, ¬ e.2.Has s.start
  last : ∀ e ∈ live, ¬ e.2.Has (s.start + s.size - 1)

theorem meets_iff {s : Span} (pos : 0 < s.size) {lo hi : Nat} :
    (Range.of s).Meets lo hi ↔ s.Has lo ∨ s.Has hi := by
  simp only [Range.Meets, Range.of, Span.Has, Span.finish]
  omega

theorem Tracked.accepts_iff {ranges : List Range} {blocks blockSizes : Int → Nat} {l : Ledger}
    (t : Tracked ranges blocks blockSizes l) {lib : MemLib} {s : Span} :
    Accepts lib ranges s ↔ Fits lib l s := by
  have inRanges : ∀ r, r ∈ ranges ↔ ∃ e ∈ l, Range.of e.2 = r := fun r => by
    rw [t.perm.mem_iff, List.mem_map]
  constructor
  · intro ⟨aligned, low, high, apart⟩
    have ends : ∀ e ∈ l, ¬ (e.2.Has s.start ∨ e.2.Has (s.start + s.size - 1)) := fun e mem =>
      (not_congr (meets_iff (t.proper.pos e mem))).1 (apart _ ((inRanges _).2 ⟨e, mem, rfl⟩))
    exact ⟨aligned, low, high, fun e mem h => ends e mem (.inl h), fun e mem h => ends e mem (.inr h)⟩
  · intro ⟨aligned, low, high, first, last⟩
    refine ⟨aligned, low, high, fun r mem => ?_⟩
    obtain ⟨e, memE, rfl⟩ := (inRanges r).1 mem
    rw [meets_iff (t.proper.pos e memE)]
    exact not_or.2 ⟨first e memE, last e memE⟩

def Kept (mem : Mem) (p : Nat) (index : Int) (n : Nat) : Prop :=
  ∀ j < n, (mem (p + j)).toInt = index % 2 ^ 8

theorem preserved_iff {mem : Mem} {p : Nat} {index n : Int} :
    preserved mem p index n = true ↔ Kept mem p index n.toNat := by
  simp [preserved, Kept]

/-- What a request shows when the loop goes on after it. -/
def Passed (l : Ledger) (c : Call) : Prop :=
  c.stop = none ∧
  match c.op with
  | .alloc index size => c.p ≠ null ∧ Fits c.after (l.others index) ⟨c.p, size.toNat⟩
  | .realloc index size =>
    (c.p ≠ null ∧ Fits c.after (l.others index) ⟨c.p, size.toNat⟩) ∧
      ∀ old, (index, old) ∈ l → Kept c.after.mem c.p index (min old.size size.toNat)
  | .free _ => True

structure Checked (c : Checker σ) (l : Ledger) : Prop where
  tracked : Tracked c.ranges c.blocks c.blockSizes l
  lib : c.machine.lib.Valid

theorem Checked.begun (a : Allocator σ) {m : Machine σ} (v : m.lib.Valid) (blocks blockSizes : Int → Nat) :
    Checked (begun a m blocks blockSizes) [] :=
  ⟨Tracked.nil blocks blockSizes, restart_valid a v⟩

theorem Checked.remember {c : Checker σ} {ranges : List Range} {l : Ledger} {m : Machine σ}
    {index size : Int} {p : Nat} (t : Tracked ranges c.blocks c.blockSizes l) (v : m.lib.Valid)
    (new : index ∉ l.ids) (pos : 1 ≤ size) (small : size < 2 ^ 31)
    (accepts : Accepts m.lib ranges ⟨p, size.toNat⟩) :
    Checked (c.remember m (Range.of ⟨p, size.toNat⟩ :: ranges) index p size)
      ((index, ⟨p, size.toNat⟩) :: l) := by
  have length : unsigned size = size.toNat := by
    unfold unsigned
    omega
  refine ⟨?_, v.setMem _⟩
  simp only [Checker.remember, length]
  exact t.push new (by simp only; omega) (by simp only; omega) accepts.apart

def filled (op : TraceOp) (reply : Nat × Machine σ) : Machine σ :=
  match op with
  | .alloc index size => reply.2.memset reply.1 (pattern index) (unsigned size)
  | .realloc index size => reply.2.memset reply.1 (pattern index) (unsigned size)
  | .free _ => reply.2

section
variable {a : Allocator σ} {c c' : Checker σ} {l : Ledger} {numIds : Int} {op : TraceOp} {i : Nat}

theorem oldsize_eq {old : Nat} {size : Int} (pos : 1 ≤ size) (small : old < 2 ^ 31) :
    (if size < toInt32 old then size else toInt32 old).toNat = min old size.toNat := by
  rw [toInt32_eq small]
  split <;> omega

theorem callOf_valid (a : Allocator σ) (op : TraceOp) (k : Checked c l) :
    (callOf a op c.blocks c.machine).after.Valid :=
  (a.reply_grown op c.blocks c.machine).valid k.lib

theorem validStep_of_passed (k : Checked c l) (allowed : op.Allowed numIds l.ids)
    (passed : Passed l (callOf a op c.blocks c.machine)) :
    ∃ c', validStep a i op c = .ok c' ∧ Checked c' (l.step (callOf a op c.blocks c.machine)) ∧
      c'.machine = filled op (a.reply op c.blocks c.machine) := by
  have valid := callOf_valid a op k
  obtain ⟨returns, passed⟩ := passed
  cases op with
  | alloc index size =>
    obtain ⟨-, ⟨pos, small⟩, new⟩ := allowed
    obtain ⟨nonnull, fits⟩ := passed
    rw [Ledger.others_of_notMem new] at fits
    have accepts := k.tracked.accepts_iff.2 fits
    have added := (addRange_eq_ok (i := i) valid pos small).2 ⟨accepts, rfl⟩
    have call : a.mmMalloc (unsigned size) c.machine = _ := a.serve_eq returns
    simp only [callOf] at nonnull added valid accepts ⊢
    exact ⟨_, by simp only [validStep, call, if_neg nonnull, added],
      Checked.remember k.tracked valid new pos small accepts, rfl⟩
  | realloc index size =>
    obtain ⟨-, ⟨pos, small⟩, live⟩ := allowed
    obtain ⟨⟨nonnull, fits⟩, kept⟩ := passed
    have call : a.mmRealloc (c.blocks index) (unsigned size) c.machine = _ := a.serve_eq returns
    obtain ⟨s, mem⟩ := Ledger.mem_ids.1 live
    have dropped := k.tracked.drop mem
    have accepts := dropped.accepts_iff.2 fits
    have added := (addRange_eq_ok (i := i) valid pos small).2 ⟨accepts, rfl⟩
    have data := kept s mem
    rw [← oldsize_eq pos (k.tracked.small _ mem), ← k.tracked.sizes _ mem, ← preserved_iff] at data
    simp only [callOf] at nonnull added valid accepts data ⊢
    exact ⟨_, by simp only [validStep, call, if_neg nonnull, added, data, if_true],
      Checked.remember dropped valid Ledger.notMem_others pos small accepts, rfl⟩
  | free index =>
    obtain ⟨s, mem⟩ := Ledger.mem_ids.1 allowed.2
    have call := a.free_eq returns
    refine ⟨{ c with
      ranges := removeRange c.ranges (c.blocks index)
      machine := (a.reply (.free index) c.blocks c.machine).2 }, ?_, ⟨k.tracked.drop mem, valid⟩, rfl⟩
    simp only [validStep, call]

theorem validStep_returns (ok : validStep a i op c = .ok c') : a.stops op c.blocks c.machine = none := by
  cases served : a.serve op c.blocks c.machine with
  | ok r => exact (a.stops_none served).1
  | error stop =>
    cases op with
    | alloc index size =>
      have call : a.mmMalloc (unsigned size) c.machine = _ := served
      rw [validStep, call] at ok
      cases ok
    | realloc index size =>
      have call : a.mmRealloc (c.blocks index) (unsigned size) c.machine = _ := served
      simp only [validStep, call] at ok
      cases ok
    | free index =>
      simp only [Allocator.serve] at served
      cases call : a.mmFree (c.blocks index) c.machine with
      | ok m =>
        rw [call] at served
        cases served
      | error stop =>
        simp only [validStep, call] at ok
        cases ok

theorem passed_of_validStep (k : Checked c l) (allowed : op.Allowed numIds l.ids)
    (ok : validStep a i op c = .ok c') : Passed l (callOf a op c.blocks c.machine) := by
  have valid := callOf_valid a op k
  have returns := validStep_returns ok
  refine ⟨returns, ?_⟩
  cases op with
  | alloc index size =>
    obtain ⟨-, ⟨pos, small⟩, new⟩ := allowed
    have call : a.mmMalloc (unsigned size) c.machine = _ := a.serve_eq returns
    simp only [validStep, call] at ok
    split at ok
    · cases ok
    · rename_i nonnull
      split at ok
      · cases ok
      · rename_i ranges added
        have fits := k.tracked.accepts_iff.1 ((addRange_eq_ok valid pos small).1 added).1
        refine ⟨nonnull, ?_⟩
        rwa [Ledger.others_of_notMem new]
  | realloc index size =>
    obtain ⟨-, ⟨pos, small⟩, live⟩ := allowed
    obtain ⟨s, mem⟩ := Ledger.mem_ids.1 live
    have call : a.mmRealloc (c.blocks index) (unsigned size) c.machine = _ := a.serve_eq returns
    simp only [validStep, call] at ok
    split at ok
    · cases ok
    · rename_i nonnull
      split at ok
      · cases ok
      · rename_i ranges added
        have accepts := ((addRange_eq_ok valid pos small).1 added).1
        refine ⟨⟨nonnull, (k.tracked.drop mem).accepts_iff.1 accepts⟩, fun old mem' => ?_⟩
        rw [← oldsize_eq pos (k.tracked.small _ mem'), ← k.tracked.sizes _ mem', ← preserved_iff]
        simp only [callOf]
        by_contra lost
        rw [if_neg lost] at ok
        cases ok
  | free index => trivial

end

end MallocLab.Driver
