import MallocLab.Driver.FirstFitCalls
import MallocLab.Driver.Verdict

/-!
# The validity check of mm-firstfit.c

The check passes exactly when the area has room for the requests of the trace and none of them compares a
negative `char`. Both can be read off the trace.
-/

namespace MallocLab.Driver
open Memory

theorem restart_manages {m : Machine Nat} (ready : Ready m.lib) :
    restart firstFit m = .ok (0, restarted firstFit m) ∧ Manages (restarted firstFit m) Layout.start [] ∧
      (restarted firstFit m).lib.memStartBrk = m.lib.memStartBrk := by
  obtain ⟨h, run, wf, start, max⟩ := FirstFit.mmInit_spec ready.valid.reset rfl
  have same : h.memStartBrk = m.lib.memStartBrk := start
  have end' : h.memMaxAddr = m.lib.memMaxAddr := max
  have high := wf.tiled.valid.high
  have low := wf.tiled.valid.low
  have left : settle { m with lib := memResetBrk m.lib } h = .ok ⟨h.heapListp, h.toMemLib⟩ :=
    if_pos ⟨⟨start, max⟩, by simp only [memResetBrk]; omega, high⟩
  have result : restart firstFit m = .ok (0, ⟨h.heapListp, h.toMemLib⟩) := by
    simp only [restart, firstFit, run, settled, left]
    rfl
  rw [restarted_eq result]
  refine ⟨result, ⟨wf, ?_, ?_, ?_, by simp⟩, same⟩
  · intro brk incr from' upto
    simpa only [sbrkRefuses, end'] using
      ready.exact brk incr (by rwa [← same]) (by rwa [← end'])
  · rw [same]
    exact ready.base
  · exact ⟨by simp [payloads, Layout.start, allocated, located], by simp [payloads]⟩

section
variable {c c' : Checker Nat} {y y' : Layout} {l : Ledger} {numIds : Int} {op : TraceOp}
  {ops : List TraceOp} {i : Nat}

theorem Manages.filled {m : Machine Nat} {blocks : Int → Nat} (allowed : op.Allowed numIds l.ids)
    (k : Manages (firstFit.reply op blocks m).2 y (l.step (callOf firstFit op blocks m))) :
    Manages (filled op (firstFit.reply op blocks m)) y (l.step (callOf firstFit op blocks m)) := by
  cases op with
  | alloc index size =>
    simp only [Driver.filled, unsigned_eq allowed.2.1]
    exact k.memset _
  | realloc index size =>
    simp only [Driver.filled, unsigned_eq allowed.2.1]
    exact k.memset _
  | free index => exact k

theorem validStep_refused (refused : Refused op c.blocks c.machine) :
    validStep firstFit i op c ≠ .ok c' := by
  intro step
  cases op with
  | alloc index size =>
    have call : firstFit.mmMalloc (unsigned size) c.machine = _ := refused
    simp only [validStep, call] at step
    cases step
  | realloc index size =>
    have call : firstFit.mmRealloc (c.blocks index) (unsigned size) c.machine = _ := refused
    simp only [validStep, call] at step
    cases step
  | free index => exact refused

theorem validStep_serves (k : Manages c.machine y l) (checked : Checked c l)
    (allowed : op.Allowed numIds l.ids) (step : validStep firstFit i op c = .ok c') :
    ∃ y', y.serve op = some y' ∧
      Manages c'.machine y' (l.step (callOf firstFit op c.blocks c.machine)) ∧
      Checked c' (l.step (callOf firstFit op c.blocks c.machine)) ∧
      c'.machine.lib.memStartBrk = c.machine.lib.memStartBrk ∧
      (callOf firstFit op c.blocks c.machine).p =
        if op.isFree then null else c.machine.lib.memStartBrk + 16 + y'.offsets op.index := by
  have spec := serve_spec k checked.tracked.proper allowed checked.tracked.blocks
  obtain ⟨checked', machine⟩ := validStep_checked checked allowed step
  cases served : y.serve op with
  | none =>
    rw [served] at spec
    exact absurd step (validStep_refused spec)
  | some y' =>
    rw [served] at spec
    obtain ⟨manages, -, start, p⟩ := spec
    refine ⟨y', rfl, by rw [machine]; exact manages.filled allowed, checked', ?_, p⟩
    rw [machine, ← start]
    cases op <;> rfl

theorem valid_meets (k : Manages c.machine y l) (checked : Checked c l)
    (follows : Follows numIds l.ids ops) (room : ∃ y', y.run ops = some y') :
    Along Meets l (validCalls firstFit i ops c) := by
  induction ops generalizing i c y l with
  | nil => trivial
  | cons op ops ih =>
    obtain ⟨last, run⟩ := room
    obtain ⟨next, served, rest⟩ := Option.bind_eq_some_iff.1 (Layout.run_cons y op ops ▸ run)
    have spec := serve_spec k checked.tracked.proper follows.1 checked.tracked.blocks
    rw [served] at spec
    refine ⟨spec.2.1, ?_⟩
    cases step : validStep firstFit i op c with
    | error failure => trivial
    | ok c' =>
      obtain ⟨y', served', manages, checked', -⟩ := validStep_serves k checked follows.1 step
      obtain rfl : next = y' := Option.some.inj (served.symm.trans served')
      exact ih manages checked' (follows_step rfl follows) ⟨last, rest⟩

theorem validLoop_serves (k : Manages c.machine y l) (checked : Checked c l)
    (follows : Follows numIds l.ids ops) (ok : validLoop firstFit i ops c = .ok c') :
    (∃ y', y.run ops = some y') ∧ (validCalls firstFit i ops c).map Call.p =
      y.pointers (c.machine.lib.memStartBrk + 16) ops := by
  induction ops generalizing i c y l with
  | nil => exact ⟨⟨y, rfl⟩, rfl⟩
  | cons op ops ih =>
    obtain ⟨next, step, rest⟩ := validLoop_cons ok
    obtain ⟨y', served, manages, checked', start, p⟩ := validStep_serves k checked follows.1 step
    obtain ⟨⟨last, run⟩, same⟩ := ih manages checked' (follows_step rfl follows) rest
    rw [start] at same
    constructor
    · exact ⟨last, by rw [Layout.run_cons, served]; exact run⟩
    · simp only [validCalls_cons step, List.map_cons, p, same, Layout.pointers, served]

end

section
variable {trace : Trace} {tracenum : Int} {m : Machine Nat} {blocks blockSizes : Int → Nat}

theorem firstFit_verdict (ready : Ready m.lib) (follows : Follows trace.header.numIds ∅ trace.ops)
    (room : Suffices trace.ops) :
    evalMmValid firstFit trace tracenum m blocks blockSizes = verdictOf tracenum trace.ops := by
  obtain ⟨init, manages, -⟩ := restart_manages ready
  have meets := valid_meets (i := 0) (c := begun firstFit m blocks blockSizes) manages
    (Checked.begun firstFit ready.valid blocks blockSizes) follows (Option.isSome_iff_exists.1 room)
  exact correct_verdict ready.valid follows init meets

/-- The driver accepts mm-firstfit.c on a trace that makes sense exactly when the area has room for it and
it reallocates no id whose low byte is 128 or more. -/
theorem firstFit_accepted_iff (ready : Ready m.lib) (follows : Follows trace.header.numIds ∅ trace.ops) :
    evalMmValid firstFit trace tracenum m blocks blockSizes = .returned 1 [] ↔
      Suffices trace.ops ∧
        ∀ index size, TraceOp.realloc index size ∈ trace.ops → index % 2 ^ 8 < 2 ^ 7 := by
  have manages := (restart_manages ready).2.1
  constructor
  · intro accepted
    obtain ⟨c, ok⟩ := evalMmValid_one accepted
    obtain ⟨⟨y, run⟩, -⟩ := validLoop_serves (c := begun firstFit m blocks blockSizes) manages
      (Checked.begun firstFit ready.valid blocks blockSizes) follows ok
    have room : Suffices trace.ops := by rw [Suffices, run]; rfl
    rw [firstFit_verdict ready follows room, verdictOf_one] at accepted
    exact ⟨room, fun index size mem => accepted _ mem⟩
  · rintro ⟨room, safe⟩
    rw [firstFit_verdict ready follows room, verdictOf_one]
    intro op mem
    cases op with
    | realloc index size => exact safe index size mem
    | alloc index size => trivial
    | free index => trivial

end

def fresh : Machine Nat := ⟨null, FirstFit.lowArea 0⟩

theorem lowArea_ready (b : Byte) : Ready (FirstFit.lowArea b) :=
  ⟨FirstFit.lowArea_valid b, FirstFit.lowArea_exact b, show 4096 % 8 = 0 by decide⟩

theorem firstFit_accepted_iff_resizing :
    evalMmValid firstFit (resizing 5) 0 fresh (fun _ => 0) (fun _ => 0) = .returned 1 [] ∧
      evalMmValid firstFit (resizing 200) 0 fresh (fun _ => 0) (fun _ => 0) ≠ .returned 1 [] := by
  constructor
  · refine (firstFit_accepted_iff (lowArea_ready 0) (by decide)).mpr ⟨by decide, fun index size mem => ?_⟩
    obtain ⟨rfl, -⟩ : index = 5 ∧ size = 16 := by simpa [resizing] using mem
    decide
  · intro accepted
    have safe := ((firstFit_accepted_iff (lowArea_ready 0) (by decide)).mp accepted).2 200 16
    revert safe
    decide

end MallocLab.Driver
