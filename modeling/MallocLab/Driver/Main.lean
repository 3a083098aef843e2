import MallocLab.Driver.Verdict
import MallocLab.Driver.EvalSpeed

/-!
# The driver over all traces (mdriver.c)

`main` from `mem_init` on: the loop over the traces, the sums of the statistics and the last line. The doubles
are rational numbers, and what the timer measured is a parameter. As the driver is configured, the timer runs
`eval_mm_speed` ten times.
-/

namespace MallocLab.Driver
open Memory

/-- What `main` gets for one file: what `read_trace` makes of it, its arrays as `malloc` left them, and the
seconds that the timer measured. -/
structure TraceFile where
  reading : Except Stop Trace
  blocks : Int → Nat
  blockSizes : Int → Nat
  secs : ℚ

/-- `stats_t`; a utilisation that is no number is `none`. -/
structure Stats where
  ops : Int
  valid : Int
  secs : ℚ
  util : Option ℚ
  deriving DecidableEq

structure Session (σ : Type*) where
  machine : Machine σ
  errors : Nat
  printed : List String
  stats : List Stats

variable {σ : Type*}

def validEnd (a : Allocator σ) : (i : Nat) → List TraceOp → Checker σ → Checker σ
  | _, [], c => c
  | i, op :: ops, c =>
    match validStep a i op c with
    | .error _ => { c with machine := (a.reply op c.blocks c.machine).2 }
    | .ok c => validEnd a (i + 1) ops c

def afterValid (a : Allocator σ) (trace : Trace) (m : Machine σ) (blocks blockSizes : Int → Nat) :
    Checker σ :=
  let c := begun a m blocks blockSizes
  match restart a m with
  | .error _ => c
  | .ok (status, _) => if status < 0 then c else validEnd a 0 trace.ops c

def afterUtil (a : Allocator σ) (trace : Trace) (c : Checker σ) : Runner σ :=
  let u := metered a c.machine c.blocks c.blockSizes
  match utilLoop a trace.ops u with
  | .error _ => u.runner
  | .ok u => u.runner

def timedRuns (a : Allocator σ) (trace : Trace) : Nat → Runner σ → Except Stop (Runner σ)
  | 0, r => .ok r
  | n + 1, r =>
    match evalMmSpeed a trace r.machine r.blocks with
    | .error stop => .error stop
    | .ok r => timedRuns a trace n r

def Session.evaluate (a : Allocator σ) (file : TraceFile) (trace : Trace) (s : Session σ) :
    Except Stop (Session σ) :=
  match evalMmValid a trace s.stats.length s.machine file.blocks file.blockSizes with
  | .stopped stop => .error stop
  | .returned valid printed =>
    let c := afterValid a trace s.machine file.blocks file.blockSizes
    -- a line for every call of `malloc_error`
    let errors := s.errors + printed.length
    let printed := s.printed ++ printed
    if valid = 0 then
      .ok ⟨c.machine, errors, printed, s.stats ++ [⟨trace.header.numOps, valid, 0, some 0⟩]⟩
    else match evalMmUtil a trace c.machine c.blocks c.blockSizes with
    | .error stop => .error stop
    | .ok util =>
      match timedRuns a trace 10 (afterUtil a trace c) with
      | .error stop => .error stop
      | .ok r =>
        .ok ⟨r.machine, errors, printed, s.stats ++ [⟨trace.header.numOps, valid, file.secs, util⟩]⟩

def session (a : Allocator σ) : List TraceFile → Session σ → Except Stop (Session σ)
  | [], s => .ok s
  | file :: files, s =>
    match file.reading with
    | .error stop => .error stop
    | .ok trace =>
      match s.evaluate a file trace with
      | .error stop => .error stop
      | .ok s => session a files s

def Session.start (m : Machine σ) : Session σ := ⟨m, 0, [], []⟩

/-! ## The last line -/

def utilWeight : ℚ := 60 / 100

def avgLibcThruput : ℚ := 1500000

def numcorrect (stats : List Stats) : Nat := (stats.filter fun t => t.valid ≠ 0).length

def totalUtil : List Stats → Option ℚ
  | [] => some 0
  | t :: stats =>
    match t.util, totalUtil stats with
    | some u, some sum => some (u + sum)
    | _, _ => none

def p1 (stats : List Stats) : Option ℚ :=
  (totalUtil stats).map fun util => utilWeight * (util / stats.length)

def p2 (stats : List Stats) : ℚ :=
  let avgMmThroughput := (stats.map fun t => (t.ops : ℚ)).sum / (stats.map Stats.secs).sum
  if avgLibcThruput < avgMmThroughput then 1 - utilWeight
  else (1 - utilWeight) * (avgMmThroughput / avgLibcThruput)

inductive Closing
  | perfIndex (p1 : Option ℚ) (p2 : ℚ)
  | terminated (errors : Nat)
  deriving DecidableEq

def Session.closing (s : Session σ) : Closing :=
  if s.errors = 0 then .perfIndex (p1 s.stats) (p2 s.stats) else .terminated s.errors

/-! ## What the evaluators leave of the memory system -/

structure Stays (s s' : MemLib) : Prop where
  start : s'.memStartBrk = s.memStartBrk
  valid : s.Valid → s'.Valid

theorem Stays.refl (s : MemLib) : Stays s s := ⟨rfl, id⟩

theorem Stays.trans {s s' s'' : MemLib} (one : Stays s s') (two : Stays s' s'') : Stays s s'' :=
  ⟨two.start.trans one.start, two.valid ∘ one.valid⟩

theorem Grown.stays {s s' : MemLib} (g : Grown s s') : Stays s s' := ⟨g.start, g.valid⟩

section
variable {a : Allocator σ}

theorem restart_stays (a : Allocator σ) (m : Machine σ) : Stays m.lib (restarted a m).lib := by
  have reset : Stays m.lib (memResetBrk m.lib) := ⟨rfl, fun v => v.reset⟩
  exact reset.trans (restarted_grown a m).stays

theorem validStep_stays {i : Nat} {op : TraceOp} {c c' : Checker σ} (step : validStep a i op c = .ok c') :
    Stays c.machine.lib c'.machine.lib := by
  have served := (a.reply_grown op c.blocks c.machine).stays
  have returns := validStep_returns step
  cases op with
  | alloc index size =>
    have call : a.mmMalloc (unsigned size) c.machine = _ := a.serve_eq returns
    simp only [validStep, call] at step
    split at step
    · cases step
    · split at step
      · cases step
      · cases step
        exact served.trans (Grown.setMem _ _).stays
  | realloc index size =>
    have call : a.mmRealloc (c.blocks index) (unsigned size) c.machine = _ := a.serve_eq returns
    simp only [validStep, call] at step
    split at step
    · cases step
    · split at step
      · cases step
      · generalize (if size < toInt32 (c.blockSizes index) then size
          else toInt32 (c.blockSizes index)) = oldsize at step
        split at step
        · cases step
          exact served.trans (Grown.setMem _ _).stays
        · cases step
  | free index =>
    have call := a.free_eq returns
    simp only [validStep, call] at step
    cases step
    exact served

theorem validEnd_stays (i : Nat) (ops : List TraceOp) (c : Checker σ) :
    Stays c.machine.lib (validEnd a i ops c).machine.lib := by
  induction ops generalizing i c with
  | nil => exact Stays.refl _
  | cons op ops ih =>
    rw [validEnd]
    split
    · exact (a.reply_grown op c.blocks c.machine).stays
    · exact (validStep_stays ‹_›).trans (ih _ _)

theorem afterValid_stays (trace : Trace) (m : Machine σ) (blocks blockSizes : Int → Nat) :
    Stays m.lib (afterValid a trace m blocks blockSizes).machine.lib := by
  have begin := restart_stays a m
  unfold afterValid
  simp only
  split
  · exact begin
  · split
    · exact begin
    · exact Stays.trans begin (validEnd_stays 0 trace.ops (begun a m blocks blockSizes))

theorem speedStep_stays {op : TraceOp} {r r' : Runner σ} (step : speedStep a op r = .ok r') :
    Stays r.machine.lib r'.machine.lib := by
  cases op with
  | alloc index size =>
    simp only [speedStep] at step
    split at step
    · cases step
    · rename_i call
      split at step
      · cases step
      · cases step
        exact (a.malloc_grown call).stays
  | realloc index size =>
    simp only [speedStep] at step
    split at step
    · cases step
    · rename_i call
      split at step
      · cases step
      · cases step
        exact (a.realloc_grown call).stays
  | free index =>
    simp only [speedStep] at step
    split at step
    · cases step
    · rename_i call
      cases step
      exact (a.free_grown call).stays

theorem speedLoop_stays {ops : List TraceOp} {r r' : Runner σ} (loop : speedLoop a ops r = .ok r') :
    Stays r.machine.lib r'.machine.lib := by
  induction ops generalizing r with
  | nil =>
    cases loop
    exact Stays.refl _
  | cons op ops ih =>
    rw [speedLoop] at loop
    split at loop
    · cases loop
    · exact (speedStep_stays ‹_›).trans (ih loop)

theorem evalMmSpeed_stays {trace : Trace} {m : Machine σ} {blocks : Int → Nat} {r : Runner σ}
    (run : evalMmSpeed a trace m blocks = .ok r) : Stays m.lib r.machine.lib := by
  have begin := restart_stays a m
  unfold evalMmSpeed at run
  split at run
  · cases run
  · rename_i restart
    rw [restarted_eq restart] at begin
    split at run
    · cases run
    · exact begin.trans (speedLoop_stays run)

theorem afterUtil_stays (trace : Trace) (c : Checker σ) :
    Stays c.machine.lib (afterUtil a trace c).machine.lib := by
  have both := (speedLoop_utilLoop (a := a) trace.ops (metered a c.machine c.blocks c.blockSizes)).2
  have begun := restart_stays a c.machine
  unfold afterUtil
  simp only
  cases loop : utilLoop a trace.ops (metered a c.machine c.blocks c.blockSizes) with
  | error stop => exact begun
  | ok u =>
    rw [loop] at both
    cases speed : speedLoop a trace.ops (metered a c.machine c.blocks c.blockSizes).runner with
    | error stop =>
      rw [speed] at both
      cases both
    | ok r =>
      rw [speed] at both
      cases both
      exact begun.trans (speedLoop_stays speed)

theorem timedRuns_stays {trace : Trace} {n : Nat} {r r' : Runner σ}
    (run : timedRuns a trace n r = .ok r') : Stays r.machine.lib r'.machine.lib := by
  induction n generalizing r with
  | zero =>
    cases run
    exact Stays.refl _
  | succ n ih =>
    rw [timedRuns] at run
    split at run
    · cases run
    · exact (evalMmSpeed_stays ‹_›).trans (ih run)

end

/-! ## What is counted -/

structure Counted (s : Session σ) : Prop where
  valid : ∀ t ∈ s.stats, t.valid = 0 ∨ t.valid = 1
  errors : s.errors = (s.stats.filter fun t => t.valid = 0).length
  printed : s.printed.length = s.errors

theorem evalMmValid_returned {a : Allocator σ} {trace : Trace} {tracenum : Int} {m : Machine σ}
    {blocks blockSizes : Int → Nat} {valid : Int} {printed : List String}
    (result : evalMmValid a trace tracenum m blocks blockSizes = .returned valid printed) :
    (valid = 0 ∧ ∃ k msg, printed = [mallocError tracenum k msg]) ∨ (valid = 1 ∧ printed = []) := by
  unfold evalMmValid at result
  split at result
  · cases result
  · split at result
    · cases result
      exact .inl ⟨rfl, _, _, rfl⟩
    · split at result
      · cases result
        exact .inl ⟨rfl, _, _, rfl⟩
      · cases result
      · cases result
        exact .inr ⟨rfl, rfl⟩

section
variable {a : Allocator σ} {s s' : Session σ}

theorem Counted.nil (m : Machine σ) : Counted (Session.start m) := ⟨by simp [Session.start], rfl, rfl⟩

theorem Counted.invalid (k : Counted s) (m : Machine σ) (line : String) (ops : Int) (secs : ℚ)
    (util : Option ℚ) : Counted
      ⟨m, s.errors + 1, s.printed ++ [line], s.stats ++ [⟨ops, 0, secs, util⟩]⟩ := by
  refine ⟨fun t mem => ?_, ?_, by simp [k.printed]⟩
  · obtain mem | mem := List.mem_append.1 mem
    · exact k.valid t mem
    · rw [List.mem_singleton.1 mem]
      exact .inl rfl
  · simp [List.filter_append, k.errors]

theorem Counted.valid_one (k : Counted s) (m : Machine σ) (ops : Int) (secs : ℚ) (util : Option ℚ) :
    Counted ⟨m, s.errors, s.printed, s.stats ++ [⟨ops, 1, secs, util⟩]⟩ := by
  refine ⟨fun t mem => ?_, ?_, k.printed⟩
  · obtain mem | mem := List.mem_append.1 mem
    · exact k.valid t mem
    · rw [List.mem_singleton.1 mem]
      exact .inr rfl
  · simp [List.filter_append, k.errors]

theorem evaluate_counted {file : TraceFile} {trace : Trace} (k : Counted s)
    (run : s.evaluate a file trace = .ok s') :
    Counted s' ∧ ∃ t, s'.stats = s.stats ++ [t] ∧ t.ops = trace.header.numOps ∧
      (t.valid = 1 ↔ evalMmValid a trace s.stats.length s.machine file.blocks file.blockSizes =
        .returned 1 []) := by
  unfold Session.evaluate at run
  split at run
  · cases run
  · rename_i valid printed result
    obtain ⟨rfl, j, msg, rfl⟩ | ⟨rfl, rfl⟩ := evalMmValid_returned result
    · rw [if_pos rfl] at run
      cases run
      exact ⟨k.invalid _ _ _ _ _, _, rfl, rfl, by simp [result]⟩
    · rw [if_neg one_ne_zero] at run
      split at run
      · cases run
      · split at run
        · cases run
        · cases run
          simp only [List.length_nil, Nat.add_zero, List.append_nil]
          exact ⟨k.valid_one _ _ _ _, _, rfl, rfl, by simp [result]⟩

theorem session_counted {files : List TraceFile} (k : Counted s) (run : session a files s = .ok s') :
    Counted s' ∧ s'.stats.length = s.stats.length + files.length := by
  induction files generalizing s with
  | nil =>
    cases run
    exact ⟨k, rfl⟩
  | cons file files ih =>
    rw [session] at run
    split at run
    · cases run
    · split at run
      · cases run
      · rename_i next round
        obtain ⟨k', t, stats, -⟩ := evaluate_counted k round
        obtain ⟨k'', total⟩ := ih k' run
        refine ⟨k'', ?_⟩
        rw [total, stats, List.length_append, List.length_cons, List.length_cons, List.length_nil]
        omega

theorem Counted.numcorrect_add (k : Counted s) : numcorrect s.stats + s.errors = s.stats.length := by
  rw [k.errors, numcorrect]
  have split := s.stats.length_eq_length_filter_add fun t => decide (t.valid ≠ 0)
  have rest : (s.stats.filter fun t => t.valid = 0) = s.stats.filter fun t => !decide (t.valid ≠ 0) := by
    apply List.filter_congr
    intro t mem
    simp
  rw [split, rest]

/-- When the loop has come to its end, `errors` is the number of lines printed and of the traces found
invalid, and the index is printed exactly when there is none. -/
theorem session_counts {files : List TraceFile} {m : Machine σ}
    (run : session a files (Session.start m) = .ok s) :
    s.stats.length = files.length ∧ s.printed.length = s.errors ∧
      numcorrect s.stats + s.errors = files.length ∧
      ((∃ p q, s.closing = .perfIndex p q) ↔ ∀ t ∈ s.stats, t.valid = 1) ∧
      ∀ n, s.closing = .terminated n → n = (s.stats.filter fun t => t.valid = 0).length ∧ 0 < n := by
  obtain ⟨k, total⟩ := session_counted (Counted.nil m) run
  have length : s.stats.length = files.length := by
    simpa [Session.start] using total
  have none : s.errors = 0 ↔ ∀ t ∈ s.stats, t.valid = 1 := by
    rw [k.errors, List.length_eq_zero_iff, List.filter_eq_nil_iff]
    refine forall₂_congr fun t mem => ?_
    obtain zero | one := k.valid t mem
    · simp [zero]
    · simp [one]
  refine ⟨length, k.printed, by rw [k.numcorrect_add, length], ?_, fun n closing => ?_⟩
  · rw [← none]
    unfold Session.closing
    constructor
    · rintro ⟨p, q, closing⟩
      split at closing
      · assumption
      · cases closing
    · intro zero
      exact ⟨_, _, if_pos zero⟩
  · unfold Session.closing at closing
    split at closing
    · cases closing
    · cases closing
      exact ⟨k.errors, by omega⟩

end

def fileOf (trace : Trace) : TraceFile := ⟨.ok trace, fun _ => 0, fun _ => 0, 1⟩

theorem session_counts_scripted :
    ∃ s, session scripted [fileOf growing, fileOf (resizing 128)]
        (Session.start (script (List.replicate 26 4096))) = .ok s ∧
      numcorrect s.stats + s.errors = 2 ∧ s.closing = .terminated 1 := by
  obtain ⟨s, run, closing⟩ : ∃ s, session scripted [fileOf growing, fileOf (resizing 128)]
      (Session.start (script (List.replicate 26 4096))) = .ok s ∧ s.closing = .terminated 1 :=
    ⟨_, rfl, rfl⟩
  exact ⟨s, run, (session_counts run).2.2.1, closing⟩

end MallocLab.Driver
