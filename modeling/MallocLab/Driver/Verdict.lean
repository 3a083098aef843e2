import MallocLab.Driver.Correct

/-!
# What the validity check prints about a correct allocator

Nothing, or one line about the first request whose pattern is negative as a `char`: the loop is left there.
-/

namespace MallocLab.Driver
open Memory

instance (op : TraceOp) : Decidable op.CharSafe :=
  match op with
  | .alloc _ _ => isTrue trivial
  | .realloc _ _ => inferInstanceAs (Decidable (_ < _))
  | .free _ => isTrue trivial

def mismatch (ops : List TraceOp) : Option Nat := ops.findIdx? fun op => ¬ op.CharSafe

def notPreserved : String := "mm_realloc did not preserve the data from old block"

def verdictOf (tracenum : Int) (ops : List TraceOp) : Verdict :=
  match mismatch ops with
  | none => .returned 1 []
  | some k => .returned 0 [mallocError tracenum k notPreserved]

theorem mismatch_safe {op : TraceOp} (safe : op.CharSafe) (ops : List TraceOp) :
    mismatch (op :: ops) = (mismatch ops).map (· + 1) := by
  simp [mismatch, List.findIdx?_cons, safe]

theorem mismatch_head {op : TraceOp} (bad : ¬ op.CharSafe) (ops : List TraceOp) :
    mismatch (op :: ops) = some 0 := by
  simp [mismatch, List.findIdx?_cons, bad]

theorem mismatch_none {ops : List TraceOp} : mismatch ops = none ↔ ∀ op ∈ ops, op.CharSafe := by
  simp [mismatch, List.findIdx?_eq_none_iff]

theorem verdictOf_one {tracenum : Int} {ops : List TraceOp} :
    verdictOf tracenum ops = .returned 1 [] ↔ ∀ op ∈ ops, op.CharSafe := by
  rw [← mismatch_none, verdictOf]
  cases mismatch ops with
  | none => simp
  | some k => simp

section
variable {σ : Type*} {a : Allocator σ} {numIds : Int} {c : Checker σ} {l : Ledger}

theorem validStep_mismatch {i : Nat} {op : TraceOp} (k : Checked c l) (allowed : op.Allowed numIds l.ids)
    (patterned : Patterned c.machine.lib.mem l) (meets : Meets l (callOf a op c.blocks c.machine))
    (bad : ¬ op.CharSafe) : validStep a i op c = .error (.report i notPreserved) := by
  have valid := callOf_valid a op k
  have fails : ¬ Passed l (callOf a op c.blocks c.machine) := fun passed =>
    bad ((passed_iff k.tracked.proper allowed valid patterned meets).1 passed)
  cases op with
  | alloc index size => exact absurd trivial bad
  | realloc index size =>
    obtain ⟨-, ⟨pos, small⟩, live⟩ := allowed
    obtain ⟨returns, -, ⟨nonnull, payload⟩, -⟩ := meets
    have call : a.mmRealloc (c.blocks index) (unsigned size) c.machine = _ := a.serve_eq returns
    obtain ⟨s, mem⟩ := Ledger.mem_ids.1 live
    have fits := payload.fits valid (show 0 < size.toNat by omega)
    have accepts := (k.tracked.drop mem).accepts_iff.2 fits
    have added := (addRange_eq_ok (i := i) valid pos small).2 ⟨accepts, rfl⟩
    have differs : preserved (callOf a (.realloc index size) c.blocks c.machine).after.mem
        (callOf a (.realloc index size) c.blocks c.machine).p index
        (if size < toInt32 (c.blockSizes index) then size else toInt32 (c.blockSizes index)) = false := by
      rw [Bool.eq_false_iff]
      intro data
      apply fails
      refine ⟨returns, ⟨nonnull, fits⟩, fun old mem' => ?_⟩
      rwa [← oldsize_eq pos (k.tracked.small _ mem'), ← k.tracked.sizes _ mem', ← preserved_iff]
    simp only [callOf] at nonnull added differs
    simp only [validStep, call, if_neg nonnull, added, differs]
    rfl
  | free index => exact absurd trivial bad

theorem validLoop_verdict {i : Nat} {ops : List TraceOp} (k : Checked c l)
    (patterned : Patterned c.machine.lib.mem l) (follows : Follows numIds l.ids ops)
    (meets : Along Meets l (validCalls a i ops c)) :
    match mismatch ops with
    | none => ∃ c', validLoop a i ops c = .ok c'
    | some n => validLoop a i ops c = .error (.report (i + n) notPreserved) := by
  induction ops generalizing i c l with
  | nil => exact ⟨c, rfl⟩
  | cons op ops ih =>
    by_cases safe : op.CharSafe
    · have passed := (passed_iff k.tracked.proper follows.1 (callOf_valid a op k) patterned meets.1).2 safe
      obtain ⟨next, step, checked, machine⟩ := validStep_of_passed (i := i) k follows.1 passed
      have patterned' := filled_patterned follows.1 patterned meets.1
      rw [← machine] at patterned'
      rw [validCalls_cons step] at meets
      have rest := ih checked patterned' (follows_step rfl follows) meets.2
      rw [mismatch_safe safe, validLoop, step]
      cases found : mismatch ops with
      | none =>
        rw [found] at rest
        exact rest
      | some n =>
        rw [found] at rest
        have later : i + 1 + n = i + (n + 1) := by omega
        simp only [later] at rest
        exact rest
    · rw [mismatch_head safe, validLoop, validStep_mismatch k follows.1 patterned meets.1 safe]
      rfl

/-- The verdict on a correct allocator and the line it prints are those of the trace. -/
theorem correct_verdict {trace : Trace} {tracenum : Int} {m : Machine σ} {blocks blockSizes : Int → Nat}
    (v : m.lib.Valid) (follows : Follows trace.header.numIds ∅ trace.ops)
    (init : restart a m = .ok (0, restarted a m))
    (meets : Along Meets [] (validCalls a 0 trace.ops (begun a m blocks blockSizes))) :
    evalMmValid a trace tracenum m blocks blockSizes = verdictOf tracenum trace.ops := by
  have loop := validLoop_verdict (Checked.begun a v blocks blockSizes) (Patterned.nil _) follows meets
  unfold verdictOf
  cases found : mismatch trace.ops with
  | none =>
    rw [found] at loop
    obtain ⟨c, ok⟩ := loop
    simp only [begun] at ok
    simp only [evalMmValid, init, ok]
    rfl
  | some n =>
    rw [found] at loop
    simp only [begun] at loop
    simp only [evalMmValid, init, loop, Nat.zero_add]
    rfl

end

end MallocLab.Driver
