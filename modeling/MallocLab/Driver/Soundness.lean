import MallocLab.Driver.EvalValid

/-!
# What an accepted allocator has shown

`add_range` looks for an end of the new payload in an old one. A new payload that encloses an old one has
both ends outside of it.
-/

namespace MallocLab.Driver
open Memory

structure SoundPayload (lib : MemLib) (live : Ledger) (s : Span) : Prop extends Placed lib live s where
  aligned : s.start % 8 = 0

/-- What the check is for: after an `ALLOC` the payload is sound, after a `REALLOC` it also holds the data
of the old payload. -/
def Sound (l : Ledger) (c : Call) : Prop :=
  match c.op with
  | .alloc index size => SoundPayload c.after (l.others index) ⟨c.p, size.toNat⟩
  | .realloc index size =>
    SoundPayload c.after (l.others index) ⟨c.p, size.toNat⟩ ∧
      ∀ old, (index, old) ∈ l → ∀ j < min old.size size.toNat, c.after.mem (c.p + j) = pattern index
  | .free _ => True

def EnclosesNone (l : Ledger) (c : Call) : Prop :=
  match c.op with
  | .alloc index size => ∀ e ∈ l.others index, ¬ Span.Encloses ⟨c.p, size.toNat⟩ e.2
  | .realloc index size => ∀ e ∈ l.others index, ¬ Span.Encloses ⟨c.p, size.toNat⟩ e.2
  | .free _ => True

theorem pattern_eq {b : Byte} {index : Int} (h : b.toInt = index % 2 ^ 8) : b = pattern index := by
  apply BitVec.eq_of_toInt_eq
  rw [pattern, BitVec.toInt_ofInt, ← Int.emod_bmod]
  have same : (index % ((2 ^ 8 : Nat) : Int)).bmod (2 ^ 8) = b.toInt.bmod (2 ^ 8) := by
    rw [h]
    norm_num
  rw [same, BitVec.toInt_bmod_cancel]

theorem soundPayload_iff {lib : MemLib} (v : lib.Valid) {live : Ledger} (proper : live.Proper) {s : Span}
    (fits : Fits lib live s) :
    SoundPayload lib live s ↔ ∀ e ∈ live, ¬ s.Encloses e.2 := by
  obtain ⟨aligned, low, high, first, last⟩ := fits
  have ends : ∀ e ∈ live, s.Apart e.2 ↔ ¬ s.Encloses e.2 := fun e mem =>
    Span.apart_iff_not_encloses (proper.pos e mem) (first e mem) (last e mem)
  constructor
  · intro sound e mem
    exact (ends e mem).1 (sound.apart e mem)
  · intro none
    refine ⟨⟨fun x has => ?_, fun e mem => (ends e mem).2 (none e mem)⟩, aligned⟩
    obtain ⟨least, most⟩ := has
    have start := v.start
    have brk := v.low
    unfold Span.finish at high most
    simp only [memHeapLo, memHeapHi] at *
    omega

theorem sound_iff {l : Ledger} (proper : l.Proper) {c : Call} (v : c.after.Valid)
    (passed : Passed l c) : Sound l c ↔ EnclosesNone l c := by
  unfold Passed at passed
  unfold Sound EnclosesNone
  cases op : c.op with
  | alloc index size =>
    rw [op] at passed
    exact soundPayload_iff v (proper.others index) passed.2.2
  | realloc index size =>
    rw [op] at passed
    obtain ⟨-, ⟨-, fits⟩, kept⟩ := passed
    have payload := soundPayload_iff v (proper.others index) fits
    refine ⟨fun h => payload.1 h.1, fun h => ⟨payload.2 h, fun old mem j lt => ?_⟩⟩
    exact pattern_eq (kept old mem j lt)
  | free index => exact Iff.rfl

section
variable {σ : Type*} {a : Allocator σ} {numIds : Int}

theorem validLoop_cons {i : Nat} {op : TraceOp} {ops : List TraceOp} {c c' : Checker σ}
    (ok : validLoop a i (op :: ops) c = .ok c') :
    ∃ c'', validStep a i op c = .ok c'' ∧ validLoop a (i + 1) ops c'' = .ok c' := by
  rw [validLoop] at ok
  split at ok
  · cases ok
  · exact ⟨_, ‹_›, ok⟩

theorem validCalls_cons {i : Nat} {op : TraceOp} {ops : List TraceOp} {c c' : Checker σ}
    (step : validStep a i op c = .ok c') :
    validCalls a i (op :: ops) c = callOf a op c.blocks c.machine :: validCalls a (i + 1) ops c' := by
  rw [validCalls, step]

theorem validStep_checked {i : Nat} {op : TraceOp} {c c' : Checker σ} {l : Ledger} (k : Checked c l)
    (allowed : op.Allowed numIds l.ids) (step : validStep a i op c = .ok c') :
    Checked c' (l.step (callOf a op c.blocks c.machine)) ∧
      c'.machine = filled op (a.reply op c.blocks c.machine) := by
  obtain ⟨next, step', checked, machine⟩ :=
    validStep_of_passed (i := i) k allowed (passed_of_validStep k allowed step)
  rw [step] at step'
  cases step'
  exact ⟨checked, machine⟩

theorem along_sound_iff {i : Nat} {ops : List TraceOp} {c c' : Checker σ} {l : Ledger}
    (k : Checked c l) (follows : Follows numIds l.ids ops) (ok : validLoop a i ops c = .ok c') :
    Along Sound l (validCalls a i ops c) ↔ Along EnclosesNone l (validCalls a i ops c) := by
  induction ops generalizing i c l with
  | nil => exact Iff.rfl
  | cons op ops ih =>
    obtain ⟨next, step, rest⟩ := validLoop_cons ok
    rw [validCalls_cons step]
    have here := sound_iff k.tracked.proper (callOf_valid a op k)
      (passed_of_validStep k follows.1 step)
    exact and_congr here (ih (validStep_checked k follows.1 step).1 (follows_step rfl follows) rest)

theorem evalMmValid_one {trace : Trace} {tracenum : Int} {m : Machine σ} {blocks blockSizes : Int → Nat}
    {printed : List String}
    (accepted : evalMmValid a trace tracenum m blocks blockSizes = .returned 1 printed) :
    ∃ c, validLoop a 0 trace.ops (begun a m blocks blockSizes) = .ok c := by
  unfold evalMmValid at accepted
  split at accepted
  · cases accepted
  · rename_i status m' run
    split at accepted
    · cases accepted
    · split at accepted
      · cases accepted
      · cases accepted
      · rw [begun, restarted_eq run]
        exact ⟨_, ‹_›⟩

/-- Where `eval_mm_valid` returns 1, the calls of the allocator were sound exactly when no call returned a
payload that encloses another live one. -/
theorem accepted_sound_iff {trace : Trace} {tracenum : Int} {m : Machine σ}
    {blocks blockSizes : Int → Nat} {printed : List String} (v : m.lib.Valid)
    (follows : Follows trace.header.numIds ∅ trace.ops)
    (accepted : evalMmValid a trace tracenum m blocks blockSizes = .returned 1 printed) :
    Along Sound [] (validCalls a 0 trace.ops (begun a m blocks blockSizes)) ↔
      Along EnclosesNone [] (validCalls a 0 trace.ops (begun a m blocks blockSizes)) := by
  obtain ⟨c, ok⟩ := evalMmValid_one accepted
  exact along_sound_iff (Checked.begun a v blocks blockSizes) follows ok

end

def twoIds : Trace := ⟨⟨0, 2, 2, 1⟩, [.alloc 0 8, .alloc 1 24]⟩

theorem accepted_sound_iff_twoIds :
    Along Sound [] (validCalls scripted 0 twoIds.ops
      (begun scripted (script [4096, 4104]) (fun _ => 0) fun _ => 0)) := by
  have accepted : evalMmValid scripted twoIds 0 (script [4096, 4104]) (fun _ => 0) (fun _ => 0) =
      .returned 1 [] := rfl
  refine (accepted_sound_iff script_valid (by decide) accepted).mpr ⟨?_, ?_, trivial⟩
  · rintro e mem
    cases mem
  · rintro e mem ⟨low, -⟩
    have first : e ∈ [((0 : Int), (⟨4096, 8⟩ : Span))] := mem
    rw [List.mem_singleton.1 first] at low
    revert low
    decide

theorem enclosing_accepted :
    evalMmValid scripted twoIds 0 (script [4104, 4096]) (fun _ => 0) (fun _ => 0) = .returned 1 [] ∧
      (script [4104, 4096]).lib.Valid ∧ Follows twoIds.header.numIds ∅ twoIds.ops ∧
      ¬ Along Sound [] (validCalls scripted 0 twoIds.ops
        (begun scripted (script [4104, 4096]) (fun _ => 0) fun _ => 0)) := by
  refine ⟨rfl, script_valid, by decide, fun sound => ?_⟩
  have second := sound.2.1.apart (0, ⟨4104, 8⟩) (by decide) 4104
  exact second (by decide) (by decide)

end MallocLab.Driver
