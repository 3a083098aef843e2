import MallocLab.Driver.FirstFitValid
import MallocLab.Driver.EvalSpeed

/-!
# The utilisation of mm-firstfit.c

Neither the addresses nor the bytes of the area matter: the utilisation is a quotient of two numbers that the
layout of the trace gives, and the three evaluators get the same pointers.
-/

namespace MallocLab.Driver
open Memory

theorem Meets.served {l : Ledger} {c : Call} (meets : Meets l c) : Served l c := by
  obtain ⟨returns, -, meets⟩ := meets
  refine ⟨returns, ?_⟩
  cases op : c.op with
  | alloc index size =>
    rw [op] at meets
    exact ⟨meets.1, meets.2.toPlaced⟩
  | realloc index size =>
    rw [op] at meets
    exact ⟨meets.1.1, meets.1.2.toPlaced⟩
  | free index => trivial

section
variable {u : Meter Nat} {y y' : Layout} {l : Ledger} {numIds : Int} {op : TraceOp}
  {ops : List TraceOp}

structure Follower (u : Meter Nat) (y : Layout) (l : Ledger) : Prop where
  manages : Manages u.machine y l
  proper : l.Proper
  held : ∀ e ∈ l, e.2.start = u.blocks e.1

theorem utilStep_follows (k : Follower u y l) (allowed : op.Allowed numIds l.ids)
    (served : y.serve op = some y') :
    ∃ u', utilStep firstFit op u = .ok u' ∧ Follower u' y' (l.step (callOf firstFit op u.blocks u.machine)) ∧
      Served l (callOf firstFit op u.blocks u.machine) ∧
      u'.machine.lib.memStartBrk = u.machine.lib.memStartBrk ∧
      (callOf firstFit op u.blocks u.machine).p =
        if op.isFree then null else u.machine.lib.memStartBrk + 16 + y'.offsets op.index := by
  have spec := serve_spec k.manages k.proper allowed fun e mem => (k.held e mem).symm
  rw [served] at spec
  obtain ⟨manages, meets, start, p⟩ := spec
  have proper := k.proper.step (c := callOf firstFit op u.blocks u.machine) allowed
  have replied := meets.served
  have returns := replied.1
  cases op with
  | alloc index size =>
    have nonnull := replied.2.1
    have call : firstFit.mmMalloc (unsigned size) u.machine = _ := firstFit.serve_eq returns
    have held := starts_update (f := id) (x := (callOf firstFit (.alloc index size) u.blocks u.machine).p)
      (n := size.toNat) k.held allowed.2.2
    simp only [callOf] at nonnull
    refine ⟨_, by simp only [utilStep, call, if_neg nonnull]; rfl, ?_⟩
    exact ⟨⟨manages, proper, held⟩, replied, start, p⟩
  | realloc index size =>
    have nonnull := replied.2.1
    have call : firstFit.mmRealloc (u.blocks index) (unsigned size) u.machine = _ := firstFit.serve_eq returns
    have new : index ∉ (l.others index).ids := Ledger.notMem_others
    have held := starts_update (f := id) (x := (callOf firstFit (.realloc index size) u.blocks u.machine).p)
      (n := size.toNat) (fun e mem => k.held e (Ledger.mem_others.1 mem).1) new
    simp only [callOf] at nonnull
    refine ⟨_, by simp only [utilStep, call, if_neg nonnull]; rfl, ?_⟩
    exact ⟨⟨manages, proper, held⟩, replied, start, p⟩
  | free index =>
    have call := firstFit.free_eq returns
    refine ⟨_, by simp only [utilStep, call]; rfl, ?_⟩
    exact ⟨⟨manages, proper, fun e mem => k.held e (Ledger.mem_others.1 mem).1⟩, replied, start, p⟩

theorem utilStep_exits (k : Follower u y l) (allowed : op.Allowed numIds l.ids)
    (stuck : y.serve op = none) : ∃ line, utilStep firstFit op u = .error (.exit line) := by
  have spec := serve_spec k.manages k.proper allowed fun e mem => (k.held e mem).symm
  rw [stuck] at spec
  cases op with
  | alloc index size =>
    have call : firstFit.mmMalloc (unsigned size) u.machine = _ := spec
    exact ⟨_, by simp only [utilStep, call, if_pos]; rfl⟩
  | realloc index size =>
    have call : firstFit.mmRealloc (u.blocks index) (unsigned size) u.machine = _ := spec
    exact ⟨_, by simp only [utilStep, call]; rfl⟩
  | free index => cases spec

theorem utilCalls_cons {u' : Meter Nat} (step : utilStep firstFit op u = .ok u') :
    utilCalls firstFit (op :: ops) u =
      callOf firstFit op u.blocks u.machine :: utilCalls firstFit ops u' := by
  rw [utilCalls, step]

theorem utilLoop_follows (k : Follower u y l) (follows : Follows numIds l.ids ops)
    (run : y.run ops = some y') :
    ∃ u' l', utilLoop firstFit ops u = .ok u' ∧ Follower u' y' l' ∧
      Along Served l (utilCalls firstFit ops u) ∧
      (utilCalls firstFit ops u).map Call.p = y.pointers (u.machine.lib.memStartBrk + 16) ops := by
  induction ops generalizing u y l with
  | nil =>
    cases run
    exact ⟨u, l, rfl, k, trivial, rfl⟩
  | cons op ops ih =>
    obtain ⟨next, served, rest⟩ := Option.bind_eq_some_iff.1 (Layout.run_cons y op ops ▸ run)
    obtain ⟨u₁, step, k₁, replied, start, p⟩ := utilStep_follows k follows.1 served
    obtain ⟨u', l', loop, k', along, same⟩ := ih k₁ (follows_step rfl follows) rest
    rw [start] at same
    refine ⟨u', l', ?_, k', ?_, ?_⟩
    · rw [utilLoop, step]
      exact loop
    · rw [utilCalls_cons step]
      exact ⟨replied, along⟩
    · simp only [utilCalls_cons step, List.map_cons, p, same, Layout.pointers, served]

theorem utilLoop_exits (k : Follower u y l) (follows : Follows numIds l.ids ops)
    (stuck : y.run ops = none) : ∃ line, utilLoop firstFit ops u = .error (.exit line) := by
  induction ops generalizing u y l with
  | nil => cases stuck
  | cons op ops ih =>
    cases served : y.serve op with
    | none =>
      obtain ⟨line, step⟩ := utilStep_exits k follows.1 served
      exact ⟨line, by rw [utilLoop, step]⟩
    | some next =>
      obtain ⟨u₁, step, k₁, -⟩ := utilStep_follows k follows.1 served
      rw [Layout.run_cons, served] at stuck
      obtain ⟨line, loop⟩ := ih k₁ (follows_step rfl follows) stuck
      exact ⟨line, by rw [utilLoop, step]; exact loop⟩

end

theorem metered_follows {m : Machine Nat} (ready : Ready m.lib) (blocks blockSizes : Int → Nat) :
    Follower (metered firstFit m blocks blockSizes) Layout.start [] :=
  ⟨(restart_manages ready).2.1, Ledger.Proper.nil, by simp⟩

theorem Manages.heapsize {m : Machine Nat} {y : Layout} {l : Ledger} (k : Manages m y l) :
    memHeapsize m.lib = 16 + extent Block.size y.blocks := by
  have brk := k.wf.tiled.brk
  simp only [Machine.heap] at brk
  unfold memHeapsize
  omega

section
variable {trace : Trace} {m : Machine Nat} {blocks blockSizes : Int → Nat} {y : Layout}

theorem util_of_run (ready : Ready m.lib) (follows : Follows trace.header.numIds ∅ trace.ops)
    (run : Layout.start.run trace.ops = some y) :
    ∃ n : Nat, IsGreatest (demands trace.ops) n ∧ n ≤ 16 + extent Block.size y.blocks ∧
      evalMmUtil firstFit trace m blocks blockSizes =
        .ok (some ((n : ℚ) / (16 + extent Block.size y.blocks : Nat))) := by
  have init := (restart_manages ready).1
  obtain ⟨u, l, loop, k, served, -⟩ := utilLoop_follows (metered_follows ready blocks blockSizes) follows run
  obtain ⟨u', l', loop', accounts⟩ := utilLoop_metered
    (Metered.begun (a := firstFit) ready.valid blocks blockSizes) follows served (List.prefix_refl _)
  obtain rfl : u = u' := Except.ok.inj (loop.symm.trans loop')
  have size := k.manages.heapsize
  have room := accounts.room
  obtain ⟨first, pre, eq⟩ := accounts.greatest.1
  rw [size] at room
  refine ⟨demand first, eq ▸ accounts.greatest, by omega, ?_⟩
  simp only [metered] at loop
  simp only [evalMmUtil, init, loop]
  rw [size, utilisation, if_neg (show 16 + extent Block.size y.blocks ≠ 0 by omega), eq]
  rfl

theorem speed_of_run (ready : Ready m.lib) (follows : Follows trace.header.numIds ∅ trace.ops)
    (run : Layout.start.run trace.ops = some y) :
    (∃ r, evalMmSpeed firstFit trace m blocks = .ok r) ∧
      (speedCalls firstFit trace.ops ⟨restarted firstFit m, blocks⟩).map Call.p =
        Layout.start.pointers (m.lib.memStartBrk + 16) trace.ops := by
  obtain ⟨init, -, start⟩ := restart_manages ready
  obtain ⟨u, -, loop, -, -, pointers⟩ := utilLoop_follows (metered_follows ready blocks blocks) follows run
  obtain ⟨calls, ends⟩ := speedLoop_utilLoop trace.ops (metered firstFit m blocks blocks)
  simp only [metered, Meter.runner, start] at pointers calls ends
  rw [calls, pointers]
  simp only [metered] at loop
  rw [loop] at ends
  refine ⟨?_, rfl⟩
  simp only [evalMmSpeed, init]
  cases speed : speedLoop firstFit trace.ops ⟨restarted firstFit m, blocks⟩ with
  | error stop =>
    rw [speed] at ends
    cases ends
  | ok r => exact ⟨r, rfl⟩

/-- For mm-firstfit.c `eval_mm_util` returns the largest demand of the trace over 16 bytes and the blocks of
its layout, and it is left by `exit` exactly when the area has no room for the trace. -/
theorem firstFit_util (ready : Ready m.lib) (follows : Follows trace.header.numIds ∅ trace.ops) :
    match Layout.start.run trace.ops with
    | some y => ∃ n : Nat, IsGreatest (demands trace.ops) n ∧ n ≤ 16 + extent Block.size y.blocks ∧
        evalMmUtil firstFit trace m blocks blockSizes =
          .ok (some ((n : ℚ) / (16 + extent Block.size y.blocks : Nat)))
    | none => ∃ line, evalMmUtil firstFit trace m blocks blockSizes = .error (.exit line) := by
  cases run : Layout.start.run trace.ops with
  | none =>
    have init := (restart_manages ready).1
    obtain ⟨line, loop⟩ := utilLoop_exits (metered_follows ready blocks blockSizes) follows run
    simp only [metered] at loop
    refine ⟨line, ?_⟩
    simp only [evalMmUtil, init, loop]
    rfl
  | some y => exact util_of_run ready follows run

end

theorem firstFit_util_resizing : ∃ n : Nat, IsGreatest (demands (resizing 5).ops) n ∧
    evalMmUtil firstFit (resizing 5) fresh (fun _ => 0) (fun _ => 0) = .ok (some (n / (4112 : Nat))) := by
  obtain ⟨y, run, extent⟩ : ∃ y, Layout.start.run (resizing 5).ops = some y ∧
      extent Block.size y.blocks = 4096 := ⟨_, rfl, by decide⟩
  have util := @firstFit_util (resizing 5) fresh (fun _ => 0) (fun _ => 0) (lowArea_ready 0) (by decide)
  rw [run] at util
  obtain ⟨n, greatest, -, result⟩ := util
  rw [extent] at result
  exact ⟨n, greatest, result⟩

/-- Whatever the three machines hold: on a trace that passes the check, the other two evaluators come to
their ends and every request gets the same pointer in all three. -/
theorem firstFit_evaluators_agree {trace : Trace} {tracenum : Int} {m₁ m₂ m₃ : Machine Nat}
    {blocks₁ sizes₁ blocks₂ sizes₂ blocks₃ : Int → Nat} (ready₁ : Ready m₁.lib) (ready₂ : Ready m₂.lib)
    (ready₃ : Ready m₃.lib) (same₂ : m₂.lib.memStartBrk = m₁.lib.memStartBrk)
    (same₃ : m₃.lib.memStartBrk = m₁.lib.memStartBrk)
    (follows : Follows trace.header.numIds ∅ trace.ops)
    (accepted : evalMmValid firstFit trace tracenum m₁ blocks₁ sizes₁ = .returned 1 []) :
    (∃ q, evalMmUtil firstFit trace m₂ blocks₂ sizes₂ = .ok (some q)) ∧
      (∃ r, evalMmSpeed firstFit trace m₃ blocks₃ = .ok r) ∧
      (utilCalls firstFit trace.ops (metered firstFit m₂ blocks₂ sizes₂)).map Call.p =
        (validCalls firstFit 0 trace.ops (begun firstFit m₁ blocks₁ sizes₁)).map Call.p ∧
      (speedCalls firstFit trace.ops ⟨restarted firstFit m₃, blocks₃⟩).map Call.p =
        (validCalls firstFit 0 trace.ops (begun firstFit m₁ blocks₁ sizes₁)).map Call.p := by
  obtain ⟨-, manages, start₁⟩ := restart_manages ready₁
  obtain ⟨-, -, start₂⟩ := restart_manages ready₂
  obtain ⟨c, ok⟩ := evalMmValid_one accepted
  obtain ⟨⟨y, run⟩, pointers⟩ := validLoop_serves (c := Driver.begun firstFit m₁ blocks₁ sizes₁) manages
    (Checked.begun firstFit ready₁.valid blocks₁ sizes₁) follows ok
  obtain ⟨n, -, -, util⟩ := util_of_run ready₂ follows run
  obtain ⟨u, -, -, -, -, pointers₂⟩ := utilLoop_follows (metered_follows ready₂ blocks₂ sizes₂) follows run
  obtain ⟨speed, pointers₃⟩ := speed_of_run ready₃ follows run
  simp only [begun, start₁] at pointers
  simp only [metered, start₂, same₂] at pointers₂
  rw [same₃] at pointers₃
  exact ⟨⟨_, util⟩, speed, pointers₂.trans pointers.symm, pointers₃.trans pointers.symm⟩

theorem firstFit_evaluators_agree_resizing :
    (utilCalls firstFit (resizing 5).ops
        (metered firstFit ⟨7, FirstFit.lowArea 1⟩ (fun _ => 1) fun _ => 1)).map Call.p =
      (validCalls firstFit 0 (resizing 5).ops (begun firstFit fresh (fun _ => 0) fun _ => 0)).map Call.p :=
  (@firstFit_evaluators_agree (resizing 5) 0 fresh ⟨7, FirstFit.lowArea 1⟩ fresh (fun _ => 0) (fun _ => 0)
    (fun _ => 1) (fun _ => 1) (fun _ => 0) (lowArea_ready 0) (lowArea_ready 1) (lowArea_ready 0) rfl rfl
    (by decide) (firstFit_verdict (lowArea_ready 0) (by decide) (by decide))).2.2.1

end MallocLab.Driver
