import MallocLab.Driver.EvalUtil

/-!
# The timed replay (mdriver.c)

`eval_mm_speed` is what the timer runs. It replays the trace as `eval_mm_util` does, without the accounts.
-/

namespace MallocLab.Driver
open Memory

structure Runner (σ : Type*) where
  machine : Machine σ
  blocks : Int → Nat

variable {σ : Type*}

def speedStep (a : Allocator σ) (op : TraceOp) (r : Runner σ) : Except Stop (Runner σ) :=
  match op with
  | .alloc index size =>
    match a.mmMalloc (unsigned size) r.machine with
    | .error stop => .error stop
    | .ok (p, m) =>
      if p = null then .error (.exit "mm_malloc error in eval_mm_speed\n")
      else .ok ⟨m, Function.update r.blocks index p⟩
  | .realloc index newsize =>
    let oldp := r.blocks index
    match a.mmRealloc oldp (unsigned newsize) r.machine with
    | .error stop => .error stop
    | .ok (newp, m) =>
      if newp = null then .error (.exit "mm_realloc error in eval_mm_speed\n")
      else .ok ⟨m, Function.update r.blocks index newp⟩
  | .free index =>
    let block := r.blocks index
    match a.mmFree block r.machine with
    | .error stop => .error stop
    | .ok m => .ok { r with machine := m }

def speedLoop (a : Allocator σ) : List TraceOp → Runner σ → Except Stop (Runner σ)
  | [], r => .ok r
  | op :: ops, r =>
    match speedStep a op r with
    | .error stop => .error stop
    | .ok r => speedLoop a ops r

def evalMmSpeed (a : Allocator σ) (trace : Trace) (m : Machine σ) (blocks : Int → Nat) :
    Except Stop (Runner σ) :=
  match restart a m with
  | .error stop => .error stop
  | .ok (status, m) =>
    if status < 0 then .error (.exit "mm_init failed in eval_mm_speed\n")
    else speedLoop a trace.ops ⟨m, blocks⟩

def speedCalls (a : Allocator σ) : List TraceOp → Runner σ → List Call
  | [], _ => []
  | op :: ops, r =>
    callOf a op r.blocks r.machine ::
      match speedStep a op r with
      | .error _ => []
      | .ok r => speedCalls a ops r

/-! ## The same replay twice -/

def Meter.runner (u : Meter σ) : Runner σ := ⟨u.machine, u.blocks⟩

section
variable {a : Allocator σ}

theorem speedStep_utilStep (op : TraceOp) (u : Meter σ) :
    (speedStep a op u.runner).toOption = (utilStep a op u).toOption.map Meter.runner := by
  cases op with
  | alloc index size =>
    simp only [speedStep, utilStep, Meter.runner]
    cases a.mmMalloc (unsigned size) u.machine with
    | error stop => rfl
    | ok r =>
      by_cases failed : r.1 = null
      · simp only [if_pos failed]
        rfl
      · simp only [if_neg failed]
        rfl
  | realloc index size =>
    simp only [speedStep, utilStep, Meter.runner]
    cases a.mmRealloc (u.blocks index) (unsigned size) u.machine with
    | error stop => rfl
    | ok r =>
      by_cases failed : r.1 = null
      · simp only [if_pos failed]
        rfl
      · simp only [if_neg failed]
        rfl
  | free index =>
    simp only [speedStep, utilStep, Meter.runner]
    cases a.mmFree (u.blocks index) u.machine with
    | error stop => rfl
    | ok m => rfl

/-- Both loops make the same calls, and one comes to its end exactly when the other does, with the same
heap and the same pointers. -/
theorem speedLoop_utilLoop (ops : List TraceOp) (u : Meter σ) :
    speedCalls a ops u.runner = utilCalls a ops u ∧
      (speedLoop a ops u.runner).toOption = (utilLoop a ops u).toOption.map Meter.runner := by
  induction ops generalizing u with
  | nil => exact ⟨rfl, rfl⟩
  | cons op ops ih =>
    have same := speedStep_utilStep (a := a) op u
    rw [speedCalls, utilCalls, speedLoop, utilLoop]
    cases step : utilStep a op u with
    | error stop =>
      rw [step] at same
      cases step' : speedStep a op u.runner with
      | error stop' => exact ⟨rfl, rfl⟩
      | ok r =>
        rw [step'] at same
        cases same
    | ok u' =>
      rw [step] at same
      cases step' : speedStep a op u.runner with
      | error stop' =>
        rw [step'] at same
        cases same
      | ok r =>
        rw [step'] at same
        obtain rfl : r = u'.runner := Option.some.inj same
        obtain ⟨calls, ends⟩ := ih u'
        exact ⟨by simp only [calls]; rfl, ends⟩

end

end MallocLab.Driver
