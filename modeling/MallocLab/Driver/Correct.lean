import MallocLab.Driver.Soundness

/-!
# Correct allocators in the validity check

The check of the data after `mm_realloc` compares a signed `char` with `index & 0xFF`. The two differ from
128 on, whatever the allocator does.
-/

namespace MallocLab.Driver
open Memory

def LeavesOthers (l : Ledger) (c : Call) : Prop :=
  ∀ e ∈ l.others c.op.index, ∀ x, e.2.Has x → c.after.mem x = c.before.mem x

/-- The contract of a call, which is to return. -/
def Meets (l : Ledger) (c : Call) : Prop :=
  c.stop = none ∧ LeavesOthers l c ∧
  match c.op with
  | .alloc index size => c.p ≠ null ∧ SoundPayload c.after (l.others index) ⟨c.p, size.toNat⟩
  | .realloc index size =>
    (c.p ≠ null ∧ SoundPayload c.after (l.others index) ⟨c.p, size.toNat⟩) ∧
      ∀ old, (index, old) ∈ l → ∀ j < min old.size size.toNat,
        c.after.mem (c.p + j) = c.before.mem (old.start + j)
  | .free _ => True

/-- A request whose pattern is not negative as a `char` where it is compared. -/
def TraceOp.CharSafe : TraceOp → Prop
  | realloc index _ => index % 2 ^ 8 < 2 ^ 7
  | _ => True

structure Patterned (mem : Mem) (l : Ledger) : Prop where
  apart : l.Pairwise fun e e' => e.2.Apart e'.2
  holds : ∀ e ∈ l, ∀ x, e.2.Has x → mem x = pattern e.1

theorem pattern_toInt (index : Int) : (pattern index).toInt = index % 2 ^ 8 ↔ index % 2 ^ 8 < 2 ^ 7 := by
  rw [pattern, BitVec.toInt_ofInt, Int.bmod_def]
  norm_num

theorem SoundPayload.fits {lib : MemLib} {live : Ledger} {s : Span} (h : SoundPayload lib live s)
    (v : lib.Valid) (pos : 0 < s.size) : Fits lib live s := by
  have low := (h.inside _ (Span.has_start pos)).1
  have high := (h.inside _ (Span.has_last pos)).2
  refine ⟨h.aligned, low, ?_, fun e mem => h.apart e mem _ (Span.has_start pos),
    fun e mem => h.apart e mem _ (Span.has_last pos)⟩
  have start := v.start
  have brk := v.low
  simp only [memHeapHi] at high
  unfold Span.finish
  omega

namespace Patterned
variable {mem mem' : Mem} {l : Ledger} {index : Int} {s : Span}

theorem nil (mem : Mem) : Patterned mem [] := ⟨List.Pairwise.nil, by simp⟩

theorem others (h : Patterned mem l) (index : Int)
    (same : ∀ e ∈ l.others index, ∀ x, e.2.Has x → mem' x = mem x) : Patterned mem' (l.others index) :=
  ⟨h.apart.sublist List.filter_sublist, fun e m x has =>
    (same e m x has).trans (h.holds e (Ledger.mem_others.1 m).1 x has)⟩

theorem filled (h : Patterned mem l) (apart : ∀ e ∈ l, s.Apart e.2) :
    Patterned (fill mem s.start (pattern index) s.size) ((index, s) :: l) := by
  refine ⟨List.pairwise_cons.2 ⟨apart, h.apart⟩, fun e m x has => ?_⟩
  obtain rfl | m := List.mem_cons.1 m
  · exact fill_inside has.1 has.2
  · have outside : x < s.start ∨ s.start + s.size ≤ x := by
      by_contra inside
      apply apart e m x _ has
      unfold Span.Has Span.finish
      omega
    rw [fill_of_outside outside]
    exact h.holds e m x has

end Patterned

theorem passed_iff {l : Ledger} {c : Call} {numIds : Int} (proper : l.Proper)
    (allowed : c.op.Allowed numIds l.ids) (v : c.after.Valid) (patterned : Patterned c.before.mem l)
    (meets : Meets l c) : Passed l c ↔ c.op.CharSafe := by
  obtain ⟨returns, -, meets⟩ := meets
  unfold Passed TraceOp.CharSafe
  rw [and_iff_right returns]
  cases op : c.op with
  | alloc index size =>
    rw [op] at allowed meets
    have pos := allowed.2.1.1
    simp only [iff_true]
    exact ⟨meets.1, meets.2.fits v (by simp only; omega)⟩
  | realloc index size =>
    rw [op] at allowed meets
    have pos := allowed.2.1.1
    obtain ⟨⟨nonnull, payload⟩, kept⟩ := meets
    obtain ⟨s, mem⟩ := Ledger.mem_ids.1 allowed.2.2
    -- what the new payload holds is the pattern, whether or not the driver can tell
    have data : ∀ old, (index, old) ∈ l → ∀ j < min old.size size.toNat,
        c.after.mem (c.p + j) = pattern index := fun old mem j lt => by
      rw [kept old mem j lt]
      refine patterned.holds _ mem _ ⟨Nat.le_add_right _ _, ?_⟩
      have inside : j < old.size := by omega
      exact Nat.add_lt_add_left inside old.start
    constructor
    · intro passed
      have held : 0 < s.size := proper.pos _ mem
      have first : 0 < min s.size size.toNat := by omega
      have compared := passed.2 s mem 0 first
      rw [data s mem 0 first] at compared
      exact (pattern_toInt index).1 compared
    · intro safe
      refine ⟨⟨nonnull, payload.fits v (by simp only; omega)⟩, fun old mem j lt => ?_⟩
      rw [data old mem j lt]
      exact (pattern_toInt index).2 safe
  | free index => exact Iff.rfl

section
variable {σ : Type*} {a : Allocator σ} {numIds : Int}

theorem filled_patterned {op : TraceOp} {c : Checker σ} {l : Ledger}
    (allowed : op.Allowed numIds l.ids) (patterned : Patterned c.machine.lib.mem l)
    (meets : Meets l (callOf a op c.blocks c.machine)) :
    Patterned (filled op (a.reply op c.blocks c.machine)).lib.mem
      (l.step (callOf a op c.blocks c.machine)) := by
  have rest := patterned.others op.index meets.2.1
  have length : ∀ size : Int, 1 ≤ size ∧ size < 2 ^ 31 → unsigned size = size.toNat := by
    intro size h
    unfold unsigned
    omega
  cases op with
  | alloc index size =>
    obtain ⟨-, sized, new⟩ := allowed
    obtain ⟨-, -, -, payload⟩ := meets
    simp only [TraceOp.index, Ledger.others_of_notMem new] at rest
    rw [Ledger.others_of_notMem new] at payload
    simp only [filled, Machine.memset, length size sized]
    exact rest.filled payload.apart
  | realloc index size =>
    obtain ⟨-, sized, -⟩ := allowed
    obtain ⟨-, -, ⟨-, payload⟩, -⟩ := meets
    simp only [filled, Machine.memset, length size sized]
    exact rest.filled payload.apart
  | free index => exact rest

theorem validLoop_ok_iff {i : Nat} {ops : List TraceOp} {c : Checker σ} {l : Ledger}
    (k : Checked c l) (patterned : Patterned c.machine.lib.mem l)
    (follows : Follows numIds l.ids ops) (meets : Along Meets l (validCalls a i ops c)) :
    (∃ c', validLoop a i ops c = .ok c') ↔ ∀ op ∈ ops, op.CharSafe := by
  induction ops generalizing i c l with
  | nil => simp [validLoop]
  | cons op ops ih =>
    have here := passed_iff k.tracked.proper follows.1 (callOf_valid a op k) patterned meets.1
    rw [List.forall_mem_cons]
    by_cases passed : Passed l (callOf a op c.blocks c.machine)
    · obtain ⟨next, step, checked, machine⟩ := validStep_of_passed (i := i) k follows.1 passed
      have patterned' := filled_patterned follows.1 patterned meets.1
      rw [← machine] at patterned'
      rw [validCalls_cons step] at meets
      have rest := ih checked patterned' (follows_step rfl follows) meets.2
      rw [validLoop, step, rest]
      exact (and_iff_right (here.1 passed)).symm
    · constructor
      · rintro ⟨c', ok⟩
        obtain ⟨next, step, -⟩ := validLoop_cons ok
        exact absurd (passed_of_validStep k follows.1 step) passed
      · intro safe
        exact absurd (here.2 safe.1) passed

/-- The check accepts a correct allocator exactly on the traces that reallocate no id whose low byte is
128 or more. -/
theorem correct_accepted_iff {trace : Trace} {tracenum : Int} {m : Machine σ}
    {blocks blockSizes : Int → Nat} (v : m.lib.Valid) (follows : Follows trace.header.numIds ∅ trace.ops)
    (init : restart a m = .ok (0, restarted a m))
    (meets : Along Meets [] (validCalls a 0 trace.ops (begun a m blocks blockSizes))) :
    evalMmValid a trace tracenum m blocks blockSizes = .returned 1 [] ↔
      ∀ index size, TraceOp.realloc index size ∈ trace.ops → index % 2 ^ 8 < 2 ^ 7 := by
  have loop := validLoop_ok_iff (Checked.begun a v blocks blockSizes) (Patterned.nil _) follows meets
  have safe : (∀ op ∈ trace.ops, op.CharSafe) ↔
      ∀ index size, TraceOp.realloc index size ∈ trace.ops → index % 2 ^ 8 < 2 ^ 7 := by
    constructor
    · intro h index size mem
      exact h _ mem
    · intro h op mem
      cases op with
      | realloc index size => exact h index size mem
      | alloc index size => trivial
      | free index => trivial
  rw [← safe, ← loop]
  constructor
  · exact evalMmValid_one
  · rintro ⟨c, ok⟩
    simp only [begun] at ok
    simp only [evalMmValid, init, ok]
    rfl

end

def resizing (k : Int) : Trace := ⟨⟨0, k + 1, 2, 1⟩, [.alloc k 8, .realloc k 16]⟩

theorem script_payload {lib : MemLib} (start : lib.memStartBrk = 4096) (brk : lib.memBrk = 20975616)
    {n : Nat} (small : n ≤ 16) : SoundPayload lib [] ⟨4096, n⟩ :=
  ⟨script_placed start brk small, show 4096 % 8 = 0 by decide⟩

theorem resizing_meets (k : Int) : Along Meets [] (validCalls scripted 0 (resizing k).ops
    (begun scripted (script [4096, 4096]) (fun _ => 0) fun _ => 0)) := by
  have alone : Ledger.others [(k, ⟨4096, 8⟩)] k = [] := by simp [Ledger.others]
  have nonnull : 4096 ≠ null := by decide
  refine ⟨⟨rfl, fun e mem => absurd mem List.not_mem_nil, nonnull, script_payload rfl rfl (by decide)⟩,
    ⟨rfl, ?_, ⟨nonnull, ?_⟩, ?_⟩, ?_⟩
  · intro e mem x has
    rfl
  · show SoundPayload _ (Ledger.others [(k, ⟨4096, 8⟩)] k) _
    rw [alone]
    exact script_payload rfl rfl (by decide)
  · intro old mem j lt
    have same : old = ⟨4096, 8⟩ := by
      have : (k, old) ∈ [(k, (⟨4096, 8⟩ : Span))] := mem
      simpa using this
    rw [same]
    rfl
  · generalize validStep scripted _ _ _ = next
    cases next <;> exact True.intro

theorem correct_accepted_iff_resizing :
    evalMmValid scripted (resizing 5) 0 (script [4096, 4096]) (fun _ => 0) (fun _ => 0) = .returned 1 [] := by
  refine (correct_accepted_iff script_valid (by decide) rfl (resizing_meets 5)).mpr fun index size mem => ?_
  obtain ⟨rfl, rfl⟩ : index = 5 ∧ size = 16 := by simpa [resizing] using mem
  decide

theorem resizing_128_rejected :
    Along Meets [] (validCalls scripted 0 (resizing 128).ops
        (begun scripted (script [4096, 4096]) (fun _ => 0) fun _ => 0)) ∧
      Follows (resizing 128).header.numIds ∅ (resizing 128).ops ∧
      evalMmValid scripted (resizing 128) 0 (script [4096, 4096]) (fun _ => 0) (fun _ => 0) =
        .returned 0 [mallocError 0 1 "mm_realloc did not preserve the data from old block"] :=
  ⟨resizing_meets 128, by decide, rfl⟩

end MallocLab.Driver
