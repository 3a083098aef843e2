import MallocLab.Driver.Main
import MallocLab.Driver.FirstFitUtil

/-!
# The whole driver over mm-firstfit.c

On traces that make sense and fit into the area, everything the driver finds out about the first-fit allocator,
apart from the times, is a function of the single trace: no trace sees what an earlier one left in the area.
-/

namespace MallocLab.Driver
open Memory

def peak (ops : List TraceOp) : Nat := (Finset.range (ops.length + 1)).sup fun n => demand (ops.take n)

def footprint (ops : List TraceOp) : Nat :=
  (Layout.start.run ops).elim 0 fun y => 16 + extent Block.size y.blocks

theorem peak_isGreatest (ops : List TraceOp) : IsGreatest (demands ops) (peak ops) := by
  constructor
  · obtain ⟨n, -, eq⟩ := Finset.exists_mem_eq_sup (Finset.range (ops.length + 1)) ⟨0, by simp⟩
      fun n => demand (ops.take n)
    exact ⟨ops.take n, List.take_prefix n ops, by rw [peak, eq]⟩
  · rintro d ⟨first, pre, rfl⟩
    have short : first.length ∈ Finset.range (ops.length + 1) := by
      have := pre.length_le
      simp only [Finset.mem_range]
      omega
    have le := Finset.le_sup (f := fun n => demand (ops.take n)) short
    rw [← List.prefix_iff_eq_take.1 pre] at le
    exact_mod_cast le

def statsOf (file : TraceFile) (trace : Trace) : Stats :=
  match mismatch trace.ops with
  | some _ => ⟨trace.header.numOps, 0, 0, some 0⟩
  | none => ⟨trace.header.numOps, 1, file.secs, some (peak trace.ops / footprint trace.ops)⟩

def linesFrom : (i : Nat) → List Trace → List String
  | _, [] => []
  | i, t :: traces =>
    (mismatch t.ops).toList.map (fun k => mallocError i k notPreserved) ++ linesFrom (i + 1) traces

structure Sensible (t : Trace) : Prop where
  follows : Follows t.header.numIds ∅ t.ops
  room : Suffices t.ops

theorem Ready.stays {lib lib' : MemLib} (ready : Ready lib) (stays : Stays lib lib') : Ready lib' := by
  have v := stays.valid ready.valid
  have max : lib'.memMaxAddr = lib.memMaxAddr := by rw [v.area, ready.valid.area, stays.start]
  refine ⟨v, ?_, by rw [stays.start]; exact ready.base⟩
  intro brk incr low high
  simpa only [sbrkRefuses, max] using
    ready.exact brk incr (by rw [← stays.start]; exact low) (by rw [← max]; exact high)

section
variable {trace : Trace} {m : Machine Nat}

theorem util_peak (ready : Ready m.lib) (sensible : Sensible trace) (blocks blockSizes : Int → Nat) :
    evalMmUtil firstFit trace m blocks blockSizes = .ok (some (peak trace.ops / footprint trace.ops)) := by
  obtain ⟨y, run⟩ := Option.isSome_iff_exists.1 sensible.room
  obtain ⟨n, greatest, -, result⟩ := util_of_run ready sensible.follows run
  have same : n = peak trace.ops := by exact_mod_cast greatest.unique (peak_isGreatest trace.ops)
  have size : footprint trace.ops = 16 + extent Block.size y.blocks := by
    rw [footprint, run]
    rfl
  rw [result, ← same, size]

theorem peak_le (sensible : Sensible trace) :
    0 < footprint trace.ops ∧ peak trace.ops ≤ footprint trace.ops := by
  obtain ⟨y, run⟩ := Option.isSome_iff_exists.1 sensible.room
  obtain ⟨n, greatest, le, -⟩ :=
    @util_of_run trace fresh (fun _ => 0) (fun _ => 0) y (lowArea_ready 0) sensible.follows run
  have same : n = peak trace.ops := by exact_mod_cast greatest.unique (peak_isGreatest trace.ops)
  have size : footprint trace.ops = 16 + extent Block.size y.blocks := by
    rw [footprint, run]
    rfl
  omega

theorem realloc_index {numIds : Int} {live : Finset Int} {ops : List TraceOp} {index size : Int}
    (follows : Follows numIds live ops) (mem : TraceOp.realloc index size ∈ ops) :
    0 ≤ index ∧ index < numIds := by
  induction ops generalizing live with
  | nil => cases mem
  | cons op ops ih =>
    obtain rfl | mem := List.mem_cons.1 mem
    · exact follows.1.1
    · exact ih follows.2 mem

/-- A trace of at most 128 ids whose requests together can add no more than the area has is accepted, and its
utilisation is at least what its requests allow. -/
theorem firstFit_accepts {tracenum : Int} {blocks blockSizes : Int → Nat} (ready : Ready m.lib)
    (follows : Follows trace.header.numIds ∅ trace.ops) (ids : trace.header.numIds ≤ 128)
    (room : (trace.ops.map TraceOp.charge).sum ≤ maxHeap - 16 - 4096) :
    evalMmValid firstFit trace tracenum m blocks blockSizes = .returned 1 [] ∧
      ∃ q, evalMmUtil firstFit trace m blocks blockSizes = .ok (some q) ∧
        (peak trace.ops : ℚ) / (4112 + (trace.ops.map TraceOp.charge).sum : Nat) ≤ q ∧ q ≤ 1 := by
  have enough := suffices_of_charge room
  have sensible : Sensible trace := ⟨follows, enough⟩
  constructor
  · rw [firstFit_verdict ready follows enough, verdictOf_one]
    intro op mem
    cases op with
    | realloc index size =>
      have range := realloc_index follows mem
      simp only [TraceOp.CharSafe]
      omega
    | alloc index size => trivial
    | free index => trivial
  · obtain ⟨y, run⟩ := Option.isSome_iff_exists.1 enough
    obtain ⟨pos, le⟩ := peak_le sensible
    have grown := Layout.run_extent run
    have size : footprint trace.ops ≤ 4112 + (trace.ops.map TraceOp.charge).sum := by
      rw [footprint, run]
      simp only [Layout.start, extent_cons, extent_nil] at grown
      simp only [Option.elim_some]
      omega
    have heap : (0 : ℚ) < footprint trace.ops := by exact_mod_cast pos
    refine ⟨_, util_peak ready sensible blocks blockSizes, ?_, ?_⟩
    · apply div_le_div_of_nonneg_left (by positivity) heap
      exact_mod_cast size
    · rw [div_le_one heap]
      exact_mod_cast le

theorem timedRuns_ends (sensible : Sensible trace) (n : Nat) {r : Runner Nat}
    (ready : Ready r.machine.lib) : ∃ r', timedRuns firstFit trace n r = .ok r' := by
  induction n generalizing r with
  | zero => exact ⟨r, rfl⟩
  | succ n ih =>
    obtain ⟨y, run⟩ := Option.isSome_iff_exists.1 sensible.room
    obtain ⟨⟨next, ok⟩, -⟩ := @speed_of_run trace r.machine r.blocks y ready sensible.follows run
    obtain ⟨r', rest⟩ := ih (ready.stays (evalMmSpeed_stays ok))
    exact ⟨r', by rw [timedRuns, ok]; exact rest⟩

theorem evaluate_firstFit {s : Session Nat} (file : TraceFile) (ready : Ready s.machine.lib)
    (sensible : Sensible trace) :
    ∃ s', s.evaluate firstFit file trace = .ok s' ∧ Ready s'.machine.lib ∧
      s'.errors = s.errors + (mismatch trace.ops).toList.length ∧
      s'.printed = s.printed ++
        ((mismatch trace.ops).toList.map fun k => mallocError s.stats.length k notPreserved) ∧
      s'.stats = s.stats ++ [statsOf file trace] := by
  have verdict := @firstFit_verdict trace s.stats.length s.machine file.blocks file.blockSizes ready
    sensible.follows sensible.room
  have ready' := ready.stays (afterValid_stays (a := firstFit) trace s.machine file.blocks file.blockSizes)
  unfold Session.evaluate
  rw [verdict, verdictOf]
  cases found : mismatch trace.ops with
  | some k =>
    refine ⟨_, rfl, ready', rfl, rfl, ?_⟩
    simp only [statsOf, found]
  | none =>
    simp only [one_ne_zero, if_false]
    rw [util_peak ready' sensible]
    have readyU := ready'.stays (afterUtil_stays (a := firstFit) trace
      (afterValid firstFit trace s.machine file.blocks file.blockSizes))
    obtain ⟨r, runs⟩ := timedRuns_ends sensible 10 readyU
    rw [runs]
    refine ⟨_, rfl, readyU.stays (timedRuns_stays runs), rfl, rfl, ?_⟩
    simp only [statsOf, found]

end

theorem session_firstFit {files : List TraceFile} {traces : List Trace} {s : Session Nat}
    (read : files.map TraceFile.reading = traces.map Except.ok) (sensible : ∀ t ∈ traces, Sensible t)
    (ready : Ready s.machine.lib) :
    ∃ s', session firstFit files s = .ok s' ∧
      s'.errors = s.errors + (linesFrom s.stats.length traces).length ∧
      s'.printed = s.printed ++ linesFrom s.stats.length traces ∧
      s'.stats = s.stats ++ List.zipWith statsOf files traces := by
  induction files generalizing traces s with
  | nil =>
    rw [List.map_nil, eq_comm, List.map_eq_nil_iff] at read
    subst read
    exact ⟨s, rfl, by simp [linesFrom], by simp [linesFrom], by simp⟩
  | cons file files ih =>
    cases traces with
    | nil => cases read
    | cons trace traces =>
      obtain ⟨first, rest⟩ := List.cons.inj read
      obtain ⟨next, round, ready', errors₁, printed₁, stats₁⟩ :=
        evaluate_firstFit file ready (sensible trace List.mem_cons_self)
      obtain ⟨s', run, errors, printed, stats⟩ :=
        ih rest (fun t mem => sensible t (List.mem_cons_of_mem _ mem)) ready'
      rw [stats₁, List.length_append, List.length_singleton] at errors printed
      refine ⟨s', ?_, ?_, ?_, ?_⟩
      · rw [session, first]
        simp only
        rw [round]
        exact run
      · rw [errors, errors₁]
        simp [linesFrom, Nat.add_assoc]
      · rw [printed, printed₁]
        simp [linesFrom]
      · rw [stats, stats₁]
        simp

theorem firstFit_accepts_resizing :
    evalMmValid firstFit (resizing 5) 0 fresh (fun _ => 0) (fun _ => 0) = .returned 1 [] :=
  (firstFit_accepts (lowArea_ready 0) (by decide) (by decide) (by decide)).1

/-- The whole driver over mm-firstfit.c, on traces that make sense and for which the area has room: it comes
to its end, it prints a line exactly for the traces with a request that the check cannot recognise, and the
statistics of a trace depend on no other trace. -/
theorem firstFit_session {files : List TraceFile} {traces : List Trace} {m : Machine Nat}
    (read : files.map TraceFile.reading = traces.map Except.ok) (sensible : ∀ t ∈ traces, Sensible t)
    (ready : Ready m.lib) :
    ∃ s, session firstFit files (Session.start m) = .ok s ∧ s.printed = linesFrom 0 traces ∧
      s.errors = (linesFrom 0 traces).length ∧ s.stats = List.zipWith statsOf files traces := by
  obtain ⟨s, run, errors, printed, stats⟩ := session_firstFit (s := Session.start m) read sensible ready
  refine ⟨s, run, ?_, ?_, ?_⟩
  · simpa [Session.start] using printed
  · simpa [Session.start] using errors
  · simpa [Session.start] using stats

theorem resizing_sensible : ∀ t ∈ [resizing 5, resizing 200], Sensible t := by
  intro t mem
  obtain rfl | mem := List.mem_cons.1 mem
  · exact ⟨by decide, by decide⟩
  · rw [List.mem_singleton.1 mem]
    exact ⟨by decide, by decide⟩

theorem firstFit_session_resizing :
    ∃ s, session firstFit [fileOf (resizing 5), fileOf (resizing 200)] (Session.start fresh) = .ok s ∧
      s.printed = [mallocError 1 1 notPreserved] := by
  obtain ⟨s, run, printed, -⟩ := @firstFit_session [fileOf (resizing 5), fileOf (resizing 200)] _ fresh
    rfl resizing_sensible (lowArea_ready 0)
  exact ⟨s, run, printed⟩

/-! ## The performance index -/

theorem totalUtil_bounds {stats : List Stats} (util : ∀ t ∈ stats, ∃ u, t.util = some u ∧ 0 ≤ u ∧ u ≤ 1) :
    ∃ sum, totalUtil stats = some sum ∧ 0 ≤ sum ∧ sum ≤ stats.length := by
  induction stats with
  | nil => exact ⟨0, rfl, le_refl _, by simp⟩
  | cons t stats ih =>
    obtain ⟨u, eq, low, high⟩ := util t List.mem_cons_self
    obtain ⟨sum, total, low', high'⟩ := ih fun t mem => util t (List.mem_cons_of_mem _ mem)
    refine ⟨u + sum, by rw [totalUtil, eq, total], by linarith, ?_⟩
    rw [List.length_cons]
    push_cast
    linarith

theorem p1_bounds {stats : List Stats} (ne : stats ≠ [])
    (util : ∀ t ∈ stats, ∃ u, t.util = some u ∧ 0 ≤ u ∧ u ≤ 1) :
    ∃ p, p1 stats = some p ∧ 0 ≤ p ∧ p ≤ utilWeight := by
  obtain ⟨sum, total, low, high⟩ := totalUtil_bounds util
  have some' : (0 : ℚ) < stats.length := by exact_mod_cast List.length_pos_iff.2 ne
  have weight : 0 ≤ utilWeight := by norm_num [utilWeight]
  refine ⟨utilWeight * (sum / stats.length), by rw [p1, total]; rfl, by positivity, ?_⟩
  have average : sum / stats.length ≤ 1 := (div_le_one some').2 high
  calc utilWeight * (sum / stats.length) ≤ utilWeight * 1 := mul_le_mul_of_nonneg_left average weight
    _ = utilWeight := mul_one _

theorem p2_bounds {stats : List Stats} (ops : ∀ t ∈ stats, 0 ≤ t.ops) (secs : ∀ t ∈ stats, 0 ≤ t.secs) :
    0 ≤ p2 stats ∧ p2 stats ≤ 1 - utilWeight := by
  have weight : 0 ≤ 1 - utilWeight := by norm_num [utilWeight]
  have reference : 0 < avgLibcThruput := by norm_num [avgLibcThruput]
  have total : 0 ≤ (stats.map fun t => (t.ops : ℚ)).sum := by
    apply List.sum_nonneg
    simpa using ops
  have time : 0 ≤ (stats.map Stats.secs).sum := by
    apply List.sum_nonneg
    simpa using secs
  have speed := div_nonneg total time
  unfold p2
  simp only
  split
  · exact ⟨weight, le_refl _⟩
  · rename_i slow
    have share : (stats.map fun t => (t.ops : ℚ)).sum / (stats.map Stats.secs).sum / avgLibcThruput ≤ 1 :=
      (div_le_one reference).2 (not_lt.1 slow)
    constructor
    · exact mul_nonneg weight (div_nonneg speed reference.le)
    · calc _ ≤ (1 - utilWeight) * 1 := mul_le_mul_of_nonneg_left share weight
        _ = 1 - utilWeight := mul_one _

theorem linesFrom_length (i : Nat) (traces : List Trace) :
    (linesFrom i traces).length = (traces.filter fun t => (mismatch t.ops).isSome).length := by
  induction traces generalizing i with
  | nil => rfl
  | cons t traces ih =>
    rw [linesFrom, List.length_append, ih]
    cases found : mismatch t.ops with
    | none => simp [found]
    | some k => simp [found, Nat.add_comm]

theorem statsOf_valid {file : TraceFile} {trace : Trace} (sensible : Sensible trace)
    (none : mismatch trace.ops = none) :
    (statsOf file trace).ops = trace.header.numOps ∧ (statsOf file trace).secs = file.secs ∧
      ∃ u, (statsOf file trace).util = some u ∧ 0 ≤ u ∧ u ≤ 1 := by
  obtain ⟨pos, le⟩ := peak_le sensible
  have heap : (0 : ℚ) < footprint trace.ops := by exact_mod_cast pos
  simp only [statsOf, none]
  refine ⟨trivial, trivial, _, rfl, by positivity, ?_⟩
  rw [div_le_one heap]
  exact_mod_cast le

/-- For mm-firstfit.c the last line is that the driver terminated with as many errors as there are traces
with such a request or, when there is none, an index of at most 60 points for the space and 40 for the speed. -/
theorem firstFit_closing {files : List TraceFile} {traces : List Trace} {m : Machine Nat}
    (read : files.map TraceFile.reading = traces.map Except.ok) (sensible : ∀ t ∈ traces, Sensible t)
    (ready : Ready m.lib) (ne : files ≠ []) (timed : ∀ f ∈ files, 0 < f.secs)
    (ops : ∀ t ∈ traces, 0 ≤ t.header.numOps) :
    ∃ s, session firstFit files (Session.start m) = .ok s ∧
      if ∀ t ∈ traces, mismatch t.ops = none then
        ∃ p, s.closing = .perfIndex (some p) (p2 s.stats) ∧ (0 ≤ p ∧ p ≤ utilWeight) ∧
          0 ≤ p2 s.stats ∧ p2 s.stats ≤ 1 - utilWeight
      else s.closing = .terminated (traces.filter fun t => (mismatch t.ops).isSome).length := by
  obtain ⟨s, run, errors, -, stats⟩ := session_firstFit (s := Session.start m) read sensible ready
  have lines : s.errors = (traces.filter fun t => (mismatch t.ops).isSome).length := by
    rw [errors, linesFrom_length]
    exact Nat.zero_add _
  refine ⟨s, run, ?_⟩
  split
  · rename_i safe
    have none : s.errors = 0 := by
      rw [lines, List.length_eq_zero_iff, List.filter_eq_nil_iff]
      intro t mem
      simp [safe t mem]
    have stats' : s.stats = List.zipWith statsOf files traces := by simpa [Session.start] using stats
    -- every entry is that of a file and its trace
    have entry : ∀ t ∈ s.stats, ∃ f ∈ files, ∃ trace ∈ traces, t = statsOf f trace := by
      intro t mem
      rw [stats', ← List.map_uncurry_zip_eq_zipWith] at mem
      obtain ⟨⟨f, trace⟩, pair, rfl⟩ := List.mem_map.1 mem
      exact ⟨f, (List.of_mem_zip pair).1, trace, (List.of_mem_zip pair).2, rfl⟩
    have some' : s.stats ≠ [] := by
      have length := congrArg List.length read
      rw [List.length_map, List.length_map] at length
      rw [stats', Ne, ← List.length_eq_zero_iff, List.length_zipWith, ← length, Nat.min_self,
        List.length_eq_zero_iff]
      exact ne
    have space := p1_bounds some' fun t mem => by
      obtain ⟨f, -, trace, memT, rfl⟩ := entry t mem
      exact (statsOf_valid (sensible trace memT) (safe trace memT)).2.2
    have speed : 0 ≤ p2 s.stats ∧ p2 s.stats ≤ 1 - utilWeight := p2_bounds
      (fun t mem => by
        obtain ⟨f, -, trace, memT, rfl⟩ := entry t mem
        rw [(statsOf_valid (sensible trace memT) (safe trace memT)).1]
        exact ops trace memT)
      (fun t mem => by
        obtain ⟨f, memF, trace, memT, rfl⟩ := entry t mem
        rw [(statsOf_valid (sensible trace memT) (safe trace memT)).2.1]
        exact (timed f memF).le)
    obtain ⟨p, eq, low, high⟩ := space
    exact ⟨p, by rw [Session.closing, if_pos none, eq], ⟨low, high⟩, speed⟩
  · rename_i bad
    have some' : s.errors ≠ 0 := by
      intro zero
      apply bad
      intro t mem
      rw [lines, List.length_eq_zero_iff, List.filter_eq_nil_iff] at zero
      simpa using zero t mem
    rw [Session.closing, if_neg some', lines]

theorem firstFit_closing_resizing :
    ∃ s, session firstFit [fileOf (resizing 5), fileOf (resizing 200)] (Session.start fresh) = .ok s ∧
      s.closing = .terminated 1 := by
  obtain ⟨s, run, closing⟩ := @firstFit_closing [fileOf (resizing 5), fileOf (resizing 200)] _ fresh rfl
    resizing_sensible (lowArea_ready 0) (by simp) (by simp [fileOf]) (by simp [resizing])
  rw [if_neg (by decide)] at closing
  exact ⟨s, run, closing⟩

end MallocLab.Driver
