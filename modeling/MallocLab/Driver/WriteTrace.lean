import Mathlib.Data.List.TakeWhile
import MallocLab.Driver.ReadTrace

/-!
# Trace files written out

The file of a trace: the four numbers of the header and a line for every request. `read_trace` gives the
trace back, or fails the assertion that the trace itself violates.
-/

namespace MallocLab.Driver
open Memory

def numeral (i : Int) : Word :=
  if i < 0 then ⟨'-', Nat.toDigits 10 i.natAbs⟩
  else ⟨(Nat.toDigits 10 i.natAbs).headD '0', (Nat.toDigits 10 i.natAbs).tail⟩

def TraceOp.written : TraceOp → List Word
  | alloc index size => [⟨'a', []⟩, numeral index, numeral size]
  | realloc index size => [⟨'r', []⟩, numeral index, numeral size]
  | free index => [⟨'f', []⟩, numeral index]

def Header.written (h : Header) : List Word :=
  [numeral h.suggHeapsize, numeral h.numIds, numeral h.numOps, numeral h.weight]

def Trace.written (t : Trace) : List Word := t.header.written ++ t.ops.flatMap TraceOp.written

def IsInt (i : Int) : Prop := -2 ^ 31 ≤ i ∧ i < 2 ^ 31

def TraceOp.Ints : TraceOp → Prop
  | alloc index size => IsInt index ∧ IsInt size
  | realloc index size => IsInt index ∧ IsInt size
  | free index => IsInt index

structure Trace.Ints (t : Trace) : Prop where
  suggHeapsize : IsInt t.header.suggHeapsize
  numIds : IsInt t.header.numIds
  numOps : IsInt t.header.numOps
  weight : IsInt t.header.weight
  ops : ∀ op ∈ t.ops, op.Ints

def largestId (ops : List TraceOp) : Nat :=
  (ops.filter fun op => !op.isFree).foldr (fun op n => max (unsigned op.index) n) 0

/-- The header agrees with the requests. -/
def Trace.Counted (t : Trace) : Prop :=
  largestId t.ops = unsigned (t.header.numIds - 1) ∧ unsigned t.header.numOps = t.ops.length % 2 ^ 32

/-! ## Numerals -/

theorem takeSign_digit {c : Char} {cs : List Char} (digit : c.isDigit = true) :
    takeSign (c :: cs) = (false, c :: cs) := by
  unfold takeSign
  split
  · rename_i h
    cases h
    exact absurd digit (by decide)
  · rename_i h
    cases h
    exact absurd digit (by decide)
  · rfl

theorem toDigits_isDigit (n : Nat) : ∀ c ∈ Nat.toDigits 10 n, c.isDigit = true :=
  fun _ => Nat.isDigit_of_mem_toDigits (by decide) (by decide)

theorem takeSign_numeral (i : Int) :
    takeSign ((numeral i).first :: (numeral i).rest) = (decide (i < 0), Nat.toDigits 10 i.natAbs) := by
  obtain ⟨c, cs, split⟩ := List.exists_cons_of_ne_nil (Nat.toDigits_ne_nil (n := i.natAbs) (b := 10))
  have digit := toDigits_isDigit i.natAbs c (by rw [split]; exact List.mem_cons_self)
  unfold numeral
  by_cases negative : i < 0
  · rw [if_pos negative, decide_eq_true negative]
    rfl
  · rw [if_neg negative, decide_eq_false negative, split]
    exact takeSign_digit digit

theorem scanNumeral_numeral (i : Int) (words : List Word) :
    scanNumeral (numeral i :: words) = (some ⟨decide (i < 0), i.natAbs⟩, [], words) := by
  have digits := toDigits_isDigit i.natAbs
  have value : decimal (Nat.toDigits 10 i.natAbs) = i.natAbs := by
    rw [decimal, ← Nat.ofDigitChars_eq_foldl]
    exact Nat.ofDigitChars_ten_toDigits
  rw [scanNumeral, takeSign_numeral]
  simp only
  rw [List.takeWhile_eq_self_iff.mpr digits, List.dropWhile_eq_nil_iff.mpr digits,
    if_neg Nat.toDigits_ne_nil, value]

section
variable {i : Int} {words : List Word}

theorem toInt32_unsigned_int (int : IsInt i) : toInt32 (unsigned i) = i := by
  obtain ⟨low, high⟩ := int
  unfold toInt32 unsigned
  split <;> omega

theorem toInt_numeral (int : IsInt i) : (Numeral.mk (decide (i < 0)) i.natAbs).toInt = i := by
  obtain ⟨low, high⟩ := int
  simp only [Numeral.toInt, decide_eq_true_eq]
  split <;> omega

theorem toUnsigned_numeral (int : IsInt i) :
    (Numeral.mk (decide (i < 0)) i.natAbs).toUnsigned = unsigned i := by
  obtain ⟨low, high⟩ := int
  simp only [Numeral.toUnsigned, decide_eq_true_eq, unsigned]
  split
  · omega
  · split <;> omega

theorem scanD_numeral (int : IsInt i) (old : Int) : scanD (numeral i :: words) old = (i, words) := by
  simp only [scanD, scanNumeral_numeral, toInt_numeral int]
  rfl

theorem scanU_numeral (int : IsInt i) (old : Nat) :
    scanU (numeral i :: words) old = (true, unsigned i, words) := by
  simp only [scanU, scanNumeral_numeral, toUnsigned_numeral int]
  rfl

theorem scanUU_numeral {j : Int} (int : IsInt i) (int' : IsInt j) (index size : Nat) :
    scanUU (numeral i :: numeral j :: words) index size = (unsigned i, unsigned j, words) := by
  simp only [scanUU, scanU_numeral int, scanU_numeral int']

theorem scanUd_numeral (int : IsInt i) (index : Nat) :
    scanUd (numeral i :: words) index = (unsigned i, words) := by
  simp only [scanUd, scanNumeral_numeral, toUnsigned_numeral int]
  rfl

end

/-! ## What is read back -/

theorem readHeader_written {t : Trace} (ints : t.Ints) (junk : Nat → Nat) (words : List Word) :
    readHeader junk (t.header.written ++ words) = (t.header, words) := by
  simp only [readHeader, Header.written, List.cons_append, List.nil_append, scanD_numeral ints.suggHeapsize,
    scanD_numeral ints.numIds, scanD_numeral ints.numOps, scanD_numeral ints.weight]

theorem requestLine_written {op : TraceOp} (ints : op.Ints) (index size : Nat) (words : List Word) :
    ∃ type operands index' size', op.written = ⟨type, []⟩ :: operands ∧
      requestLine type index size (operands ++ words) = some (op, index', size', words) := by
  cases op with
  | alloc i n =>
    refine ⟨'a', [numeral i, numeral n], unsigned i, unsigned n, rfl, ?_⟩
    simp only [requestLine, List.cons_append, List.nil_append, scanUU_numeral ints.1 ints.2,
      toInt32_unsigned_int ints.1, toInt32_unsigned_int ints.2]
  | realloc i n =>
    refine ⟨'r', [numeral i, numeral n], unsigned i, unsigned n, rfl, ?_⟩
    simp only [requestLine, List.cons_append, List.nil_append, scanUU_numeral ints.1 ints.2,
      toInt32_unsigned_int ints.1, toInt32_unsigned_int ints.2]
  | free i =>
    refine ⟨'f', [numeral i], unsigned i, size, rfl, ?_⟩
    simp only [requestLine, List.cons_append, List.nil_append, scanUd_numeral ints, toInt32_unsigned_int ints]

theorem requests_written {ops : List TraceOp} (ints : ∀ op ∈ ops, op.Ints) (index size : Nat) :
    requests (ops.flatMap TraceOp.written) index size = ops := by
  induction ops generalizing index size with
  | nil => exact requests_nil index size
  | cons op ops ih =>
    obtain ⟨head, tail⟩ := List.forall_mem_cons.1 ints
    obtain ⟨type, operands, index', size', shape, line⟩ :=
      requestLine_written head index size (ops.flatMap TraceOp.written)
    rw [List.flatMap_cons, shape, List.cons_append]
    exact requests_cons line (ih tail index' size')

theorem readRequests_written {ops : List TraceOp} (ints : ∀ op ∈ ops, op.Ints) {read : List TraceOp}
    (path : String) {l : Reader} (r : Reads l read) :
    (readRequests path (ops.flatMap TraceOp.written) l).2 = none := by
  induction ops generalizing l read with
  | nil => exact congrArg Prod.snd (readRequests_nil path l)
  | cons op ops ih =>
    obtain ⟨head, tail⟩ := List.forall_mem_cons.1 ints
    obtain ⟨type, operands, index', size', shape, line⟩ :=
      requestLine_written head l.index l.size (ops.flatMap TraceOp.written)
    obtain ⟨l', next, -, -, r'⟩ := readRequest_reads r line
    rw [List.flatMap_cons, shape, List.cons_append, readRequests_cons next rfl]
    exact ih tail r'

/-! ## The comparisons -/

theorem unsigned_toInt32 {n : Nat} (h : n < 2 ^ 32) : unsigned (toInt32 n) = n := by
  unfold toInt32 unsigned
  split <;> omega

theorem le_largestId {ops : List TraceOp} {op : TraceOp} (mem : op ∈ ops) (kind : op.isFree = false) :
    unsigned op.index ≤ largestId ops := by
  unfold largestId
  have kept : op ∈ ops.filter fun op => !op.isFree := List.mem_filter.2 ⟨mem, by simp [kind]⟩
  generalize (ops.filter fun op => !op.isFree) = counted at kept
  induction counted with
  | nil => cases kept
  | cons first rest ih =>
    rw [List.foldr_cons]
    obtain rfl | later := List.mem_cons.1 kept
    · exact le_max_left _ _
    · exact (ih later).trans (le_max_right _ _)

theorem largestId_le {ops : List TraceOp} {n : Nat}
    (bound : ∀ op ∈ ops, op.isFree = false → unsigned op.index ≤ n) : largestId ops ≤ n := by
  unfold largestId
  have all : ∀ op ∈ ops.filter fun op => !op.isFree, unsigned op.index ≤ n := fun op mem =>
    bound op (List.mem_filter.1 mem).1 (by simpa using (List.mem_filter.1 mem).2)
  generalize (ops.filter fun op => !op.isFree) = counted at all
  induction counted with
  | nil => exact Nat.zero_le n
  | cons first rest ih =>
    obtain ⟨head, tail⟩ := List.forall_mem_cons.1 all
    exact max_le head (ih tail)

theorem Reads.maxIndex_eq {l : Reader} {ops : List TraceOp} (r : Reads l ops) :
    l.maxIndex = largestId ops := by
  have range := r.maxIndex
  apply Nat.le_antisymm
  · obtain zero | ⟨op, mem, kind, name⟩ := r.attained
    · rw [zero]
      exact Nat.zero_le _
    · have largest := le_largestId mem kind
      rwa [name, unsigned_toInt32 range] at largest
  · apply largestId_le
    intro op mem kind
    obtain ⟨i, le, name⟩ := r.below op mem kind
    rw [name, unsigned_toInt32 (by omega)]
    exact le

theorem finish_reads {l : Reader} {ops : List TraceOp} (r : Reads l ops) (header : Header) :
    finish header l =
      if largestId ops ≠ unsigned (header.numIds - 1) then
        .error (.assertion "max_index == trace->num_ids - 1")
      else if unsigned header.numOps ≠ ops.length % 2 ^ 32 then
        .error (.assertion "trace->num_ops == op_index")
      else .ok ⟨header, ops⟩ := by
  rw [finish, r.maxIndex_eq, r.count, r.stores, stored_ops]

section
variable {granted : Nat → Bool} {t : Trace}

theorem reading_written (ints : t.Ints) (all : Granted granted) (junk : Nat → Nat) (size : Nat)
    (tracedir filename : String) :
    readTrace granted junk size tracedir filename (some t.written) = ⟨stored t.ops,
      if largestId t.ops ≠ unsigned (t.header.numIds - 1) then
        .error (.assertion "max_index == trace->num_ids - 1")
      else if unsigned t.header.numOps ≠ t.ops.length % 2 ^ 32 then
        .error (.assertion "trace->num_ops == op_index")
      else .ok t⟩ := by
  have header : readHeader junk t.written = (t.header, t.ops.flatMap TraceOp.written) :=
    readHeader_written ints junk _
  have reads := readRequests_reads (tracedir ++ filename) (t.ops.flatMap TraceOp.written) (Reads.nil size)
  have ends := readRequests_written ints.ops (tracedir ++ filename) (Reads.nil size)
  have left : t.ops.flatMap TraceOp.written = (readHeader junk t.written).2 := by rw [header]
  rw [requests_written ints.ops, List.nil_append, left] at reads
  rw [left] at ends
  obtain ⟨⟨l, stop⟩, run⟩ : ∃ e, readRequests (tracedir ++ filename)
    (readHeader junk t.written).2 ⟨0, size, 0, 0, []⟩ = e := ⟨_, rfl⟩
  rw [run] at reads ends
  simp only at ends
  subst ends
  have shown : readTrace granted junk size tracedir filename (some t.written) =
    ⟨l.stores, finish (readHeader junk t.written).1 l⟩ := readTrace_run all run
  rw [shown, reads.stores, finish_reads reads, header]

/-- A trace for whose requests the array has room is written out and read back, unless its header does not count
its requests or its ids. -/
theorem readTrace_written (ints : t.Ints) (all : Granted granted) (room : t.ops.length ≤ opsLength t.header)
    (junk : Nat → Nat) (size : Nat) (tracedir filename : String) :
    (∀ k op, (k, op) ∈ stored t.ops → k < opsLength t.header) ∧
      readTrace granted junk size tracedir filename (some t.written) = ⟨stored t.ops,
        if largestId t.ops ≠ unsigned (t.header.numIds - 1) then
          .error (.assertion "max_index == trace->num_ids - 1")
        else if unsigned t.header.numOps ≠ t.ops.length % 2 ^ 32 then
          .error (.assertion "trace->num_ops == op_index")
        else .ok t⟩ :=
  ⟨fun _ _ mem => (mem_stored mem).trans_le room, reading_written ints all junk size tracedir filename⟩

end

/-! ## The traces of files -/

theorem requestLine_ints {type : Char} {index size index' size' : Nat} {words left : List Word} {op : TraceOp}
    (h : requestLine type index size words = some (op, index', size', left)) : op.Ints := by
  unfold requestLine at h
  split at h
  · cases h
    exact ⟨toInt32_range _, toInt32_range _⟩
  · cases h
    exact ⟨toInt32_range _, toInt32_range _⟩
  · cases h
    exact toInt32_range _
  · cases h

theorem requests_ints (words : List Word) (index size : Nat) :
    ∀ op ∈ requests words index size, op.Ints := by
  induction words, index, size using requests.induct with
  | case1 index size => simp [requests]
  | case2 index size w words none =>
    rw [requests, none]
    simp
  | case3 index size w words op index' size' left line ih =>
    rw [requests_cons line rfl]
    exact List.forall_mem_cons.2 ⟨requestLine_ints line, ih⟩

/-- `read_trace` returns the trace for the file, without a store past its array. -/
def Yields (granted : Nat → Bool) (junk : Nat → Nat) (size : Nat) (tracedir filename : String)
    (words : List Word) (t : Trace) : Prop :=
  (readTrace granted junk size tracedir filename (some words)).result = .ok t ∧
    ∀ k op, (k, op) ∈ (readTrace granted junk size tracedir filename (some words)).stores →
      k < opsLength t.header

section
variable {granted : Nat → Bool} {junk : Nat → Nat} {size : Nat} {tracedir filename : String} {t : Trace}
  {words : List Word}

theorem Yields.counted (all : Granted granted) (yields : Yields granted junk size tracedir filename words t) :
    t.Ints ∧ t.Counted ∧ t.ops.length ≤ opsLength t.header := by
  obtain ⟨accepted, inside⟩ := yields
  obtain ⟨l, reads, stores, result | ⟨stop, result⟩⟩ :=
    readTrace_granted junk size tracedir filename words all
  · rw [result, finish_reads reads] at accepted
    split_ifs at accepted with ids ops
    cases accepted
    rw [stores] at inside
    have header := readHeader_inRange junk words
    refine ⟨⟨?_, header.1, header.2, ?_, requests_ints _ _ _⟩, ⟨not_not.1 ids, not_not.1 ops⟩, ?_⟩
    · exact scanD_range _ (toInt32_range _)
    · exact scanD_range _ (toInt32_range _)
    · by_contra more
      have small : opsLength (readHeader junk words).1 < 2 ^ 32 := by
        simp only [opsLength, arrayLength, unsigned]
        omega
      exact absurd (inside _ _ (stored_mem (not_le.1 more) small)) (lt_irrefl _)
  · rw [result] at accepted
    cases accepted

theorem yields_written (all : Granted granted) (ints : t.Ints) (counted : t.Counted)
    (room : t.ops.length ≤ opsLength t.header) : Yields granted junk size tracedir filename t.written t := by
  rw [Yields, reading_written ints all, if_neg (not_not.2 counted.1), if_neg (not_not.2 counted.2)]
  exact ⟨rfl, fun k op mem => (mem_stored mem).trans_le room⟩

/-- The traces that `read_trace` returns for some file without a store past its array are those whose header
counts their requests and ids; each of them comes out of the file written from it. -/
theorem readTrace_returns_iff (all : Granted granted) (t : Trace) :
    ((∃ words, Yields granted junk size tracedir filename words t) ↔
      t.Ints ∧ t.Counted ∧ t.ops.length ≤ opsLength t.header) ∧
    ∀ words, Yields granted junk size tracedir filename words t →
      Yields granted junk size tracedir filename t.written t := by
  refine ⟨⟨fun ⟨words, yields⟩ => yields.counted all, ?_⟩, fun words yields => ?_⟩
  · rintro ⟨ints, counted, room⟩
    exact ⟨t.written, yields_written all ints counted room⟩
  · obtain ⟨ints, counted, room⟩ := yields.counted all
    exact yields_written all ints counted room

end

def coalesceTrace (numOps : Int) : Trace :=
  ⟨⟨20000, 3, numOps, 1⟩, [.alloc 0 80, .alloc 1 80, .alloc 2 80, .free 0, .free 2, .free 1]⟩

example : (coalesceTrace 2).written = coalesceCase4 := by decide

theorem coalesceTrace_ints {numOps : Int} (int : IsInt numOps) : (coalesceTrace numOps).Ints := by
  refine ⟨?_, ?_, int, ?_, ?_⟩ <;> simp [IsInt, coalesceTrace, TraceOp.Ints]

theorem readTrace_written_coalesce :
    readTrace (fun _ => true) (fun _ => 0) 0 "traces/" "coalesceCase4.rep" (some (coalesceTrace 6).written) =
      ⟨stored (coalesceTrace 6).ops, .ok (coalesceTrace 6)⟩ ∧
    readTrace (fun _ => true) (fun _ => 0) 0 "traces/" "coalesceCase4.rep" (some (coalesceTrace 7).written) =
      ⟨stored (coalesceTrace 7).ops, .error (.assertion "trace->num_ops == op_index")⟩ := by
  have granted : Granted fun _ => true := ⟨rfl, rfl, rfl, rfl⟩
  constructor
  · rw [(readTrace_written (coalesceTrace_ints ⟨by decide, by decide⟩) granted (by decide) _ _ _ _).2]
    rfl
  · rw [(readTrace_written (coalesceTrace_ints ⟨by decide, by decide⟩) granted (by decide) _ _ _ _).2]
    rfl

theorem readTrace_returns_iff_coalesce :
    (∃ words, Yields (fun _ => true) (fun _ => 0) 0 "traces/" "coalesceCase4.rep" words (coalesceTrace 6)) ∧
      ¬ ∃ words, Yields (fun _ => true) (fun _ => 0) 0 "traces/" "coalesceCase4.rep" words (coalesceTrace 2) := by
  have granted : Granted fun _ => true := ⟨rfl, rfl, rfl, rfl⟩
  constructor
  · rw [(readTrace_returns_iff granted _).1]
    exact ⟨coalesceTrace_ints ⟨by decide, by decide⟩, ⟨by decide, by decide⟩, by decide⟩
  · rw [(readTrace_returns_iff granted _).1]
    rintro ⟨-, ⟨-, count⟩, -⟩
    exact absurd count (by decide)

end MallocLab.Driver
