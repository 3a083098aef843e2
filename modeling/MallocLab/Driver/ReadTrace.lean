import MallocLab.Driver.Scan
import MallocLab.Memory.Words

/-!
# Reading a trace file (mdriver.c)

`read_trace` counts the requests and the largest id while it stores the requests, and compares both with
the header when the file is at its end.
-/

namespace MallocLab.Driver
open Memory

inductive TraceOp
  | alloc (index size : Int)
  | realloc (index size : Int)
  | free (index : Int)
  deriving DecidableEq, Repr

namespace TraceOp

def index : TraceOp → Int
  | alloc index _ => index
  | realloc index _ => index
  | free index => index

def isFree : TraceOp → Bool
  | free _ => true
  | _ => false

end TraceOp

structure Header where
  suggHeapsize : Int
  numIds : Int
  numOps : Int
  weight : Int
  deriving DecidableEq, Repr

structure Trace where
  header : Header
  ops : List TraceOp
  deriving DecidableEq, Repr

/-- How the driver stops: `unix_error`, a line printed before `exit(1)`, an assertion that fails, a call of the
allocator that never returns. It is not followed behind a call that lowers the break. -/
inductive Stop
  | unixError (msg : String)
  | exit (line : String)
  | assertion (test : String)
  | endless
  | lowered
  deriving DecidableEq, Repr

def unsigned (i : Int) : Nat := (i % 2 ^ 32).toNat

def arrayLength (count : Int) (sizeof : Nat) : Nat := unsigned (count * sizeof) / sizeof

def opsLength (h : Header) : Nat := arrayLength h.numOps 12
def blocksLength (h : Header) : Nat := arrayLength h.numIds 4

def uninitialized (junk : Nat → Nat) : Header where
  suggHeapsize := toInt32 (junk 0)
  numIds := toInt32 (junk 1)
  numOps := toInt32 (junk 2)
  weight := toInt32 (junk 3)

def readHeader (junk : Nat → Nat) (words : List Word) : Header × List Word :=
  let (suggHeapsize, words) := scanD words (uninitialized junk).suggHeapsize
  let (numIds, words) := scanD words (uninitialized junk).numIds
  let (numOps, words) := scanD words (uninitialized junk).numOps
  let (weight, words) := scanD words (uninitialized junk).weight
  (⟨suggHeapsize, numIds, numOps, weight⟩, words)

structure Reader where
  index : Nat
  size : Nat
  maxIndex : Nat
  opIndex : Nat
  stores : List (Nat × TraceOp)
  deriving DecidableEq, Repr

def Reader.store (l : Reader) (op : TraceOp) : Reader :=
  { l with opIndex := add32 l.opIndex 1, stores := l.stores ++ [(l.opIndex, op)] }

def readRequest (type : Char) (words : List Word) (l : Reader) : Option (Reader × List Word) :=
  match type with
  | 'a' =>
    let (index, size, words) := scanUU words l.index l.size
    let maxIndex := if l.maxIndex < index then index else l.maxIndex
    some (Reader.store { l with index, size, maxIndex } (.alloc (toInt32 index) (toInt32 size)), words)
  | 'r' =>
    let (index, size, words) := scanUU words l.index l.size
    let maxIndex := if l.maxIndex < index then index else l.maxIndex
    some (Reader.store { l with index, size, maxIndex } (.realloc (toInt32 index) (toInt32 size)), words)
  | 'f' =>
    let (index, words) := scanUd words l.index
    -- here `max_index` stays as it is
    some (Reader.store { l with index } (.free (toInt32 index)), words)
  | _ => none

theorem readRequest_length {type : Char} {words left : List Word} {l l' : Reader}
    (h : readRequest type words l = some (l', left)) : left.length ≤ words.length := by
  unfold readRequest at h
  split at h
  · cases h
    exact scanUU_length words l.index l.size
  · cases h
    exact scanUU_length words l.index l.size
  · cases h
    exact scanUd_length words l.index
  · cases h

def readRequests (path : String) : List Word → Reader → Reader × Option Stop
  | [], l => (l, none)
  | w :: words, l =>
    match _h : readRequest w.first words l with
    | none => (l, some (.exit s!"Bogus type character ({w.first}) in tracefile {path}\n"))
    | some (l', left) => readRequests path left l'
termination_by words => words.length
decreasing_by exact Nat.lt_succ_of_le (readRequest_length _h)

theorem readRequests_nil (path : String) (l : Reader) : readRequests path [] l = (l, none) := by
  rw [readRequests]

theorem readRequests_cons {path : String} {w : Word} {words left : List Word} {l l' : Reader}
    {r : Reader × Option Stop} (next : readRequest w.first words l = some (l', left))
    (more : readRequests path left l' = r) : readRequests path (w :: words) l = r := by
  rw [readRequests, next]
  exact more

structure Reading where
  stores : List (Nat × TraceOp)
  result : Except Stop Trace

def finish (header : Header) (l : Reader) : Except Stop Trace :=
  if l.maxIndex ≠ unsigned (header.numIds - 1) then
    .error (.assertion "max_index == trace->num_ids - 1")
  else if unsigned header.numOps ≠ l.opIndex then .error (.assertion "trace->num_ops == op_index")
  else .ok ⟨header, l.stores.map Prod.snd⟩

/-- `granted n` says whether the `n`-th `malloc` succeeds, `file` is empty where `fopen` fails, and `size`
is what the variable holds before it is first set. -/
def readTrace (granted : Nat → Bool) (junk : Nat → Nat) (size : Nat) (tracedir filename : String)
    (file : Option (List Word)) : Reading :=
  let path := tracedir ++ filename
  if granted 1 = false then ⟨[], .error (.unixError "malloc 1 failed in read_trance")⟩
  else match file with
  | none => ⟨[], .error (.unixError s!"Could not open {path} in read_trace")⟩
  | some words =>
    let (header, words) := readHeader junk words
    if granted 2 = false then ⟨[], .error (.unixError "malloc 2 failed in read_trace")⟩
    else if granted 3 = false then ⟨[], .error (.unixError "malloc 3 failed in read_trace")⟩
    else if granted 4 = false then ⟨[], .error (.unixError "malloc 4 failed in read_trace")⟩
    else match readRequests path words ⟨0, size, 0, 0, []⟩ with
    | (l, some stop) => ⟨l.stores, .error stop⟩
    | (l, none) => ⟨l.stores, finish header l⟩

/-! ## The requests a file lists -/

/-- The request on a line of type `type`; operands that are missing are those of the line before. -/
def requestLine (type : Char) (index size : Nat) (words : List Word) :
    Option (TraceOp × Nat × Nat × List Word) :=
  match type with
  | 'a' =>
    let (index, size, words) := scanUU words index size
    some (.alloc (toInt32 index) (toInt32 size), index, size, words)
  | 'r' =>
    let (index, size, words) := scanUU words index size
    some (.realloc (toInt32 index) (toInt32 size), index, size, words)
  | 'f' =>
    let (index, words) := scanUd words index
    some (.free (toInt32 index), index, size, words)
  | _ => none

theorem requestLine_length {type : Char} {index size index' size' : Nat} {words left : List Word}
    {op : TraceOp} (h : requestLine type index size words = some (op, index', size', left)) :
    left.length ≤ words.length := by
  unfold requestLine at h
  split at h
  · cases h
    exact scanUU_length words index size
  · cases h
    exact scanUU_length words index size
  · cases h
    exact scanUd_length words index
  · cases h

def requests : List Word → (index size : Nat) → List TraceOp
  | [], _, _ => []
  | w :: words, index, size =>
    match _h : requestLine w.first index size words with
    | none => []
    | some (op, index', size', left) => op :: requests left index' size'
termination_by words => words.length
decreasing_by exact Nat.lt_succ_of_le (requestLine_length _h)

theorem requests_nil (index size : Nat) : requests [] index size = [] := by rw [requests]

theorem requests_cons {w : Word} {words left : List Word} {index size index' size' : Nat} {op : TraceOp}
    {ops : List TraceOp} (line : requestLine w.first index size words = some (op, index', size', left))
    (more : requests left index' size' = ops) : requests (w :: words) index size = op :: ops := by
  rw [requests, line]
  exact congrArg _ more

def listed (junk : Nat → Nat) (size : Nat) (words : List Word) : List TraceOp :=
  requests (readHeader junk words).2 0 size

/-! ## What the loop has read -/

def stored (ops : List TraceOp) : List (Nat × TraceOp) :=
  ops.zipIdx.map fun e => (e.2 % 2 ^ 32, e.1)

theorem stored_concat (ops : List TraceOp) (op : TraceOp) :
    stored (ops ++ [op]) = stored ops ++ [(ops.length % 2 ^ 32, op)] := by
  simp [stored, List.zipIdx_append]

theorem stored_ops (ops : List TraceOp) : (stored ops).map Prod.snd = ops := by
  simp [stored, Function.comp_def]

theorem mem_stored {ops : List TraceOp} {k : Nat} {op : TraceOp} (h : (k, op) ∈ stored ops) :
    k < ops.length := by
  obtain ⟨⟨op', i⟩, mem, eq⟩ := List.mem_map.1 h
  cases eq
  exact (Nat.mod_le i _).trans_lt (List.snd_lt_of_mem_zipIdx mem)

theorem stored_mem {ops : List TraceOp} {k : Nat} (h : k < ops.length) (small : k < 2 ^ 32) :
    (k, ops[k]) ∈ stored ops := by
  apply List.mem_map.2
  refine ⟨(ops[k], k), ?_, by rw [Nat.mod_eq_of_lt small]⟩
  exact List.mk_mem_zipIdx_iff_getElem?.2 (List.getElem?_eq_getElem h)

structure Reads (l : Reader) (ops : List TraceOp) : Prop where
  stores : l.stores = stored ops
  count : l.opIndex = ops.length % 2 ^ 32
  index : l.index < 2 ^ 32
  maxIndex : l.maxIndex < 2 ^ 32
  below : ∀ op ∈ ops, op.isFree = false → ∃ i ≤ l.maxIndex, op.index = toInt32 i
  attained : l.maxIndex = 0 ∨ ∃ op ∈ ops, op.isFree = false ∧ op.index = toInt32 l.maxIndex

theorem Reads.nil (size : Nat) : Reads ⟨0, size, 0, 0, []⟩ [] where
  stores := rfl
  count := rfl
  index := show 0 < 2 ^ 32 by decide
  maxIndex := show 0 < 2 ^ 32 by decide
  below := by simp
  attained := .inl rfl

theorem Reads.counted {l : Reader} {ops : List TraceOp} (r : Reads l ops) {op : TraceOp} {index : Nat}
    (size : Nat) (lt : index < 2 ^ 32) (kind : op.isFree = false) (name : op.index = toInt32 index) :
    Reads (Reader.store { l with
      index, size, maxIndex := if l.maxIndex < index then index else l.maxIndex } op) (ops ++ [op]) where
  stores := by rw [stored_concat, ← r.stores, ← r.count]; rfl
  count := by
    have := r.count
    simp only [Reader.store, add32, List.length_append, List.length_singleton]
    omega
  index := lt
  maxIndex := by
    have := r.maxIndex
    simp only [Reader.store]
    split <;> omega
  below := by
    intro op' mem kind'
    simp only [Reader.store]
    obtain mem | mem := List.mem_append.1 mem
    · obtain ⟨i, le, eq⟩ := r.below op' mem kind'
      exact ⟨i, by split <;> omega, eq⟩
    · cases List.mem_singleton.1 mem
      exact ⟨index, by split <;> omega, name⟩
  attained := by
    simp only [Reader.store]
    split
    · exact .inr ⟨op, by simp, kind, name⟩
    · obtain zero | ⟨op', mem, h⟩ := r.attained
      · exact .inl zero
      · exact .inr ⟨op', List.mem_append_left _ mem, h⟩

theorem Reads.skipped {l : Reader} {ops : List TraceOp} (r : Reads l ops) {op : TraceOp} {index : Nat}
    (lt : index < 2 ^ 32) (kind : op.isFree = true) :
    Reads (Reader.store { l with index } op) (ops ++ [op]) where
  stores := by rw [stored_concat, ← r.stores, ← r.count]; rfl
  count := by
    have := r.count
    simp only [Reader.store, add32, List.length_append, List.length_singleton]
    omega
  index := lt
  maxIndex := r.maxIndex
  below := by
    intro op' mem kind'
    obtain mem | mem := List.mem_append.1 mem
    · exact r.below op' mem kind'
    · cases List.mem_singleton.1 mem
      rw [kind] at kind'
      cases kind'
  attained := by
    obtain zero | ⟨op', mem, h⟩ := r.attained
    · exact .inl zero
    · exact .inr ⟨op', List.mem_append_left _ mem, h⟩

theorem readRequest_reads {l : Reader} {ops : List TraceOp} (r : Reads l ops) {type : Char}
    {words left : List Word} {op : TraceOp} {index size : Nat}
    (h : requestLine type l.index l.size words = some (op, index, size, left)) :
    ∃ l', readRequest type words l = some (l', left) ∧ l'.index = index ∧ l'.size = size ∧
      Reads l' (ops ++ [op]) := by
  unfold requestLine at h
  split at h
  · cases h
    exact ⟨_, rfl, rfl, rfl, r.counted _ (scanUU_index_lt words l.size r.index) rfl rfl⟩
  · cases h
    exact ⟨_, rfl, rfl, rfl, r.counted _ (scanUU_index_lt words l.size r.index) rfl rfl⟩
  · cases h
    exact ⟨_, rfl, rfl, rfl, r.skipped (scanUd_index_lt words r.index) rfl⟩
  · cases h

theorem readRequest_none {l : Reader} {type : Char} {words : List Word}
    (h : requestLine type l.index l.size words = none) : readRequest type words l = none := by
  unfold requestLine at h
  unfold readRequest
  split at h
  · cases h
  · cases h
  · cases h
  · rfl

theorem readRequests_reads (path : String) (words : List Word) {l : Reader} {ops : List TraceOp}
    (r : Reads l ops) :
    Reads (readRequests path words l).1 (ops ++ requests words l.index l.size) := by
  generalize named : l.index = index
  generalize sized : l.size = size
  induction words, index, size using requests.induct generalizing l ops with
  | case1 index size => simpa [readRequests, requests] using r
  | case2 index size w words none =>
    subst named sized
    rw [readRequests, requests, none, readRequest_none none]
    simpa using r
  | case3 index size w words op index' size' left line ih =>
    subst named sized
    obtain ⟨l', next, named, sized, r'⟩ := readRequest_reads r line
    rw [requests_cons line rfl, readRequests_cons next rfl]
    simpa using ih r' named sized

/-! ## The headers -/

def Header.InRange (h : Header) : Prop :=
  (-2 ^ 31 ≤ h.numIds ∧ h.numIds < 2 ^ 31) ∧ -2 ^ 31 ≤ h.numOps ∧ h.numOps < 2 ^ 31

theorem Numeral.toInt_range (n : Numeral) : -2 ^ 31 ≤ n.toInt ∧ n.toInt < 2 ^ 31 := by
  unfold Numeral.toInt
  split <;> omega

theorem toInt32_range (n : Nat) : -2 ^ 31 ≤ toInt32 n ∧ toInt32 n < 2 ^ 31 := by
  unfold toInt32
  split <;> omega

theorem scanD_range (words : List Word) {old : Int} (h : -2 ^ 31 ≤ old ∧ old < 2 ^ 31) :
    -2 ^ 31 ≤ (scanD words old).1 ∧ (scanD words old).1 < 2 ^ 31 := by
  unfold scanD
  split
  · exact Numeral.toInt_range _
  · exact h

theorem readHeader_inRange (junk : Nat → Nat) (words : List Word) :
    (readHeader junk words).1.InRange :=
  ⟨scanD_range _ (toInt32_range _), scanD_range _ (toInt32_range _)⟩

/-! ## The runs of `read_trace` -/

def Granted (granted : Nat → Bool) : Prop :=
  granted 1 = true ∧ granted 2 = true ∧ granted 3 = true ∧ granted 4 = true

section
variable {granted : Nat → Bool} {junk : Nat → Nat} {size : Nat} {tracedir filename : String}
  {words : List Word}

theorem readTrace_refused (h : ¬ Granted granted) : ∃ stop,
    readTrace granted junk size tracedir filename (some words) = ⟨[], .error stop⟩ := by
  unfold readTrace
  split
  · exact ⟨_, rfl⟩
  · dsimp only
    split
    · exact ⟨_, rfl⟩
    · split
      · exact ⟨_, rfl⟩
      · split
        · exact ⟨_, rfl⟩
        · simp_all [Granted]

theorem readTrace_run {l : Reader} {stop : Option Stop} (h : Granted granted)
    (run : readRequests (tracedir ++ filename) (readHeader junk words).2 ⟨0, size, 0, 0, []⟩ = (l, stop)) :
    readTrace granted junk size tracedir filename (some words) =
      match stop with
      | some stop => ⟨l.stores, .error stop⟩
      | none => ⟨l.stores, finish (readHeader junk words).1 l⟩ := by
  obtain ⟨one, two, three, four⟩ := h
  simp only [readTrace, one, two, three, four, run]
  cases stop <;> rfl

theorem readTrace_granted (junk : Nat → Nat) (size : Nat) (tracedir filename : String)
    (words : List Word) (h : Granted granted) :
    let reading := readTrace granted junk size tracedir filename (some words)
    ∃ l, Reads l (listed junk size words) ∧ reading.stores = stored (listed junk size words) ∧
      (reading.result = finish (readHeader junk words).1 l ∨ ∃ stop, reading.result = .error stop) := by
  intro reading
  have reads := readRequests_reads (tracedir ++ filename) (readHeader junk words).2 (Reads.nil size)
  obtain ⟨⟨l, stop⟩, run⟩ : ∃ e,
    readRequests (tracedir ++ filename) (readHeader junk words).2 ⟨0, size, 0, 0, []⟩ = e := ⟨_, rfl⟩
  rw [run] at reads
  have shown := readTrace_run h run
  refine ⟨l, reads, ?_, ?_⟩
  · cases stop <;> exact (congrArg Reading.stores shown).trans reads.stores
  · cases stop with
    | none => exact .inl (congrArg Reading.result shown)
    | some stop => exact .inr ⟨stop, congrArg Reading.result shown⟩

/-- Every store is inside the array, and a file with another number of requests than its header says is
not accepted. -/
structure InBounds (header : Header) (count : Nat) (reading : Reading) : Prop where
  stores : ∀ k op, (k, op) ∈ reading.stores → (k : Int) < header.numOps ∧ k < opsLength header
  rejected : (count : Int) ≠ header.numOps → ∃ stop, reading.result = .error stop

theorem opsLength_le {header : Header} (ops : 0 ≤ header.numOps) :
    (opsLength header : Int) ≤ header.numOps := by
  simp only [opsLength, arrayLength, unsigned]
  omega

theorem finish_ok {header : Header} {l : Reader} {trace : Trace} (h : finish header l = .ok trace) :
    l.maxIndex = unsigned (header.numIds - 1) ∧ unsigned header.numOps = l.opIndex ∧
      trace = ⟨header, l.stores.map Prod.snd⟩ := by
  unfold finish at h
  split at h
  · cases h
  · split at h
    · cases h
    · cases h
      exact ⟨not_not.1 ‹_›, not_not.1 ‹_›, rfl⟩

/-- `read_trace` stays inside its array exactly on the files that list no more requests than it has room
for. -/
theorem readTrace_inBounds_iff (ops : 0 ≤ (readHeader junk words).1.numOps) :
    InBounds (readHeader junk words).1 (listed junk size words).length
        (readTrace granted junk size tracedir filename (some words)) ↔
      (Granted granted → (listed junk size words).length ≤ opsLength (readHeader junk words).1) := by
  have room := opsLength_le ops
  have range := (readHeader_inRange junk words).2
  constructor
  · intro inBounds all
    obtain ⟨l, -, stores, -⟩ := readTrace_granted junk size tracedir filename words all
    by_contra more
    have first : opsLength (readHeader junk words).1 < (listed junk size words).length := by omega
    have store := stored_mem first (by omega)
    rw [← stores] at store
    exact absurd (inBounds.stores _ _ store).2 (lt_irrefl _)
  · intro fits
    by_cases all : Granted granted
    · obtain ⟨l, reads, stores, result⟩ := readTrace_granted junk size tracedir filename words all
      have few := fits all
      refine ⟨fun k op mem => ?_, fun differs => ?_⟩
      · rw [stores] at mem
        have := mem_stored mem
        omega
      · obtain result | stopped := result
        · rw [result]
          cases shown : finish (readHeader junk words).1 l with
          | error stop => exact ⟨stop, rfl⟩
          | ok trace =>
            have same := (finish_ok shown).2.1
            have count := reads.count
            simp only [unsigned] at same
            omega
        · exact stopped
    · obtain ⟨stop, shown⟩ := readTrace_refused all
      rw [shown]
      exact ⟨fun _ _ mem => absurd mem List.not_mem_nil, fun _ => ⟨stop, rfl⟩⟩

end

def coalesceCase4 : List Word :=
  [⟨'2', ['0', '0', '0', '0']⟩, ⟨'3', []⟩, ⟨'2', []⟩, ⟨'1', []⟩,
   ⟨'a', []⟩, ⟨'0', []⟩, ⟨'8', ['0']⟩, ⟨'a', []⟩, ⟨'1', []⟩, ⟨'8', ['0']⟩,
   ⟨'a', []⟩, ⟨'2', []⟩, ⟨'8', ['0']⟩, ⟨'f', []⟩, ⟨'0', []⟩, ⟨'f', []⟩, ⟨'2', []⟩,
   ⟨'f', []⟩, ⟨'1', []⟩]

theorem coalesceCase4_header :
    readHeader (fun _ => 0) coalesceCase4 = (⟨20000, 3, 2, 1⟩, coalesceCase4.drop 4) := by
  decide

theorem coalesceCase4_listed : listed (fun _ => 0) 0 coalesceCase4 =
    [.alloc 0 80, .alloc 1 80, .alloc 2 80, .free 0, .free 2, .free 1] := by
  rw [listed, coalesceCase4_header]
  iterate 6 apply requests_cons rfl
  exact requests_nil _ _

theorem readTrace_inBounds_case4 :
    InBounds (readHeader (fun _ => 0) (coalesceCase4.take 10)).1
      (listed (fun _ => 0) 0 (coalesceCase4.take 10)).length
      (readTrace (fun _ => true) (fun _ => 0) 0 "" "" (some (coalesceCase4.take 10))) := by
  have lines : listed (fun _ => 0) 0 (coalesceCase4.take 10) = [.alloc 0 80, .alloc 1 80] := by
    iterate 2 apply requests_cons rfl
    exact requests_nil _ _
  refine (readTrace_inBounds_iff (by decide)).mpr fun _ => ?_
  rw [lines]
  decide

theorem coalesceCase4_out_of_bounds :
    ¬ InBounds (readHeader (fun _ => 0) coalesceCase4).1 (listed (fun _ => 0) 0 coalesceCase4).length
      (readTrace (fun _ => true) (fun _ => 0) 0 "traces/" "coalesceCase4.rep" (some coalesceCase4)) := by
  intro inBounds
  have granted : Granted fun _ => true := ⟨rfl, rfl, rfl, rfl⟩
  obtain ⟨l, -, stores, -⟩ :=
    readTrace_granted (fun _ => 0) 0 "traces/" "coalesceCase4.rep" coalesceCase4 granted
  have third : (2, TraceOp.alloc 2 80) ∈ stored (listed (fun _ => 0) 0 coalesceCase4) := by
    rw [coalesceCase4_listed]
    decide
  rw [← stores] at third
  have inside := (inBounds.stores _ _ third).1
  rw [coalesceCase4_header] at inside
  exact absurd inside (by decide)

/-! ## Accepted traces -/

structure TraceOp.InArrays (h : Header) (op : TraceOp) : Prop where
  low : 0 ≤ op.index
  high : op.index < h.numIds
  inside : op.index < blocksLength h

theorem blocksLength_eq {h : Header} (pos : 0 < h.numIds) (few : h.numIds < 2 ^ 30) :
    (blocksLength h : Int) = h.numIds := by
  simp only [blocksLength, arrayLength, unsigned]
  omega

theorem toInt32_unsigned {i : Int} (low : 0 ≤ i) (high : i < 2 ^ 31) : toInt32 (unsigned i) = i := by
  rw [toInt32_eq (by unfold unsigned; omega)]
  unfold unsigned
  omega

theorem few_ids {h : Header} (range : h.InRange) {op : TraceOp} (inArrays : op.InArrays h)
    (name : op.index = toInt32 (unsigned (h.numIds - 1))) : h.numIds < 2 ^ 30 := by
  obtain ⟨low, high, inside⟩ := inArrays
  have ids := range.1
  rw [toInt32_unsigned (by omega) (by omega)] at name
  simp only [blocksLength, arrayLength, unsigned] at inside
  omega

section
variable {granted : Nat → Bool} {junk : Nat → Nat} {size : Nat} {tracedir filename : String}
  {words : List Word} {trace : Trace}

theorem readTrace_ok
    (accepted : (readTrace granted junk size tracedir filename (some words)).result = .ok trace) :
    ∃ l, Reads l (listed junk size words) ∧
      l.maxIndex = unsigned ((readHeader junk words).1.numIds - 1) ∧
      trace = ⟨(readHeader junk words).1, listed junk size words⟩ := by
  by_cases all : Granted granted
  · obtain ⟨l, reads, -, result | ⟨stop, result⟩⟩ :=
      readTrace_granted junk size tracedir filename words all
    · rw [result] at accepted
      obtain ⟨largest, -, shown⟩ := finish_ok accepted
      rw [reads.stores, stored_ops] at shown
      exact ⟨l, reads, largest, shown⟩
    · rw [result] at accepted
      cases accepted
  · obtain ⟨stop, shown⟩ := readTrace_refused all
    rw [shown] at accepted
    cases accepted

/-- The traces that `read_trace` accepts are safe to replay when the ids of their `FREE` requests, which
it does not look at, are in range. -/
theorem accepted_safe_iff
    (accepted : (readTrace granted junk size tracedir filename (some words)).result = .ok trace) :
    (∀ op ∈ trace.ops, op.InArrays trace.header) ↔
      0 < (readHeader junk words).1.numIds ∧ (readHeader junk words).1.numIds < 2 ^ 30 ∧
        ∀ op ∈ listed junk size words, op.isFree = true →
          0 ≤ op.index ∧ op.index < (readHeader junk words).1.numIds := by
  obtain ⟨l, reads, largest, rfl⟩ := readTrace_ok accepted
  have range := readHeader_inRange junk words
  simp only
  generalize (readHeader junk words).1 = h at *
  constructor
  · intro safe
    have attained := reads.attained
    rw [largest] at attained
    obtain zero | ⟨op, mem, -, name⟩ := attained
    · have one : h.numIds = 1 := by
        have := range.1
        unfold unsigned at zero
        omega
      rw [one]
      refine ⟨by decide, by decide, fun op mem _ => ?_⟩
      rw [← one]
      exact ⟨(safe op mem).low, (safe op mem).high⟩
    · have slot := safe op mem
      exact ⟨slot.low.trans_lt slot.high, few_ids range slot name,
        fun op mem _ => ⟨(safe op mem).low, (safe op mem).high⟩⟩
  · rintro ⟨pos, few, frees⟩ op mem
    have length := blocksLength_eq pos few
    suffices slot : 0 ≤ op.index ∧ op.index < h.numIds from
      ⟨slot.1, slot.2, by rw [length]; exact slot.2⟩
    cases kind : op.isFree with
    | true => exact frees op mem kind
    | false =>
      obtain ⟨i, le, name⟩ := reads.below op mem kind
      rw [largest] at le
      unfold unsigned at le
      rw [name, toInt32_eq (by omega)]
      omega

end

def freeing (id : Char) : List Word :=
  [⟨'2', ['0', '0', '0', '0']⟩, ⟨'1', []⟩, ⟨'2', []⟩, ⟨'1', []⟩,
   ⟨'a', []⟩, ⟨'0', []⟩, ⟨'8', []⟩, ⟨'f', []⟩, ⟨id, []⟩]

theorem freeing_zero_accepted :
    (readTrace (fun _ => true) (fun _ => 0) 0 "" "" (some (freeing '0'))).result =
      .ok ⟨⟨20000, 1, 2, 1⟩, [.alloc 0 8, .free 0]⟩ := by
  have run : readRequests ("" ++ "") (readHeader (fun _ => 0) (freeing '0')).2 ⟨0, 0, 0, 0, []⟩ =
      (⟨0, 8, 0, 2, [(0, .alloc 0 8), (1, .free 0)]⟩, none) := by
    iterate 2 apply readRequests_cons rfl
    exact readRequests_nil _ _
  rw [readTrace_run ⟨rfl, rfl, rfl, rfl⟩ run]
  rfl

theorem accepted_safe_iff_freeing :
    (readTrace (fun _ => true) (fun _ => 0) 0 "" "" (some (freeing '0'))).result =
      .ok ⟨⟨20000, 1, 2, 1⟩, [.alloc 0 8, .free 0]⟩ ∧
    ∀ op ∈ [TraceOp.alloc 0 8, .free 0], op.InArrays ⟨20000, 1, 2, 1⟩ := by
  have lines : listed (fun _ => 0) 0 (freeing '0') = [.alloc 0 8, .free 0] := by
    iterate 2 apply requests_cons rfl
    exact requests_nil _ _
  refine ⟨freeing_zero_accepted,
    (accepted_safe_iff freeing_zero_accepted).mpr ⟨by decide, by decide, ?_⟩⟩
  rw [lines]
  decide

theorem freeing_five_accepted :
    ∃ trace, (readTrace (fun _ => true) (fun _ => 0) 0 "" "" (some (freeing '5'))).result = .ok trace ∧
      trace.header.numOps = 2 ∧ (listed (fun _ => 0) 0 (freeing '5')).length = 2 ∧
      ¬ ∀ op ∈ trace.ops, 0 ≤ op.index ∧ op.index < trace.header.numIds := by
  have run : readRequests ("" ++ "") (readHeader (fun _ => 0) (freeing '5')).2 ⟨0, 0, 0, 0, []⟩ =
      (⟨5, 8, 0, 2, [(0, .alloc 0 8), (1, .free 5)]⟩, none) := by
    iterate 2 apply readRequests_cons rfl
    exact readRequests_nil _ _
  have lines : listed (fun _ => 0) 0 (freeing '5') = [.alloc 0 8, .free 5] := by
    iterate 2 apply requests_cons rfl
    exact requests_nil _ _
  refine ⟨⟨⟨20000, 1, 2, 1⟩, [.alloc 0 8, .free 5]⟩, ?_, rfl, by rw [lines]; rfl, by decide⟩
  rw [readTrace_run ⟨rfl, rfl, rfl, rfl⟩ run]
  rfl

end MallocLab.Driver
