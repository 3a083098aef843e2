import MallocLab.Driver.ReadTrace
import MallocLab.Memlib
import MallocLab.Memory.Spans

/-!
# Replaying a trace against an allocator (mdriver.c)

The allocator is any state machine over its own variables and the memory system. Its calls may stop the
driver. All that one that returns can do to the break is to raise it; it may write any bytes. The array
`blocks` and `block_sizes` of the trace are the driver's, and no subscript of a trace that keeps to its ids
is out of their range.
-/

namespace MallocLab.Driver
open Memory

structure Grown (s s' : MemLib) : Prop where
  start : s'.memStartBrk = s.memStartBrk
  brk : s.memBrk ≤ s'.memBrk
  valid : s.Valid → s'.Valid

theorem Grown.refl (s : MemLib) : Grown s s := ⟨rfl, le_refl _, id⟩

theorem Grown.trans {s s' s'' : MemLib} (g : Grown s s') (g' : Grown s' s'') : Grown s s'' :=
  ⟨g'.start.trans g.start, g.brk.trans g'.brk, g'.valid ∘ g.valid⟩

theorem Grown.setMem (s : MemLib) (m : Mem) : Grown s { s with mem := m } :=
  ⟨rfl, le_refl _, fun v => v.setMem m⟩

structure Machine (σ : Type*) where
  own : σ
  lib : MemLib

structure Allocator (σ : Type*) where
  mmInit : Machine σ → Except Stop (Int × Machine σ)
  mmMalloc : Nat → Machine σ → Except Stop (Nat × Machine σ)
  mmRealloc : Nat → Nat → Machine σ → Except Stop (Nat × Machine σ)
  mmFree : Nat → Machine σ → Except Stop (Machine σ)
  init_grown : ∀ {m r}, mmInit m = .ok r → Grown m.lib r.2.lib
  malloc_grown : ∀ {size m r}, mmMalloc size m = .ok r → Grown m.lib r.2.lib
  realloc_grown : ∀ {p size m r}, mmRealloc p size m = .ok r → Grown m.lib r.2.lib
  free_grown : ∀ {p m m'}, mmFree p m = .ok m' → Grown m.lib m'.lib

variable {σ : Type*}

def Allocator.serve (a : Allocator σ) (op : TraceOp) (blocks : Int → Nat) (m : Machine σ) :
    Except Stop (Nat × Machine σ) :=
  match op with
  | .alloc _ size => a.mmMalloc (unsigned size) m
  | .realloc index size => a.mmRealloc (blocks index) (unsigned size) m
  | .free index => (a.mmFree (blocks index) m).map fun m => (null, m)

/-- What a call leaves; a call that stops the driver leaves everything as it was. -/
def Allocator.reply (a : Allocator σ) (op : TraceOp) (blocks : Int → Nat) (m : Machine σ) : Nat × Machine σ :=
  match a.serve op blocks m with
  | .ok r => r
  | .error _ => (null, m)

def Allocator.stops (a : Allocator σ) (op : TraceOp) (blocks : Int → Nat) (m : Machine σ) : Option Stop :=
  match a.serve op blocks m with
  | .ok _ => none
  | .error stop => some stop

section
variable {a : Allocator σ} {op : TraceOp} {blocks : Int → Nat} {m : Machine σ}

theorem Allocator.serve_eq (returns : a.stops op blocks m = none) :
    a.serve op blocks m = .ok (a.reply op blocks m) := by
  unfold stops at returns
  unfold reply
  cases served : a.serve op blocks m with
  | error stop =>
    rw [served] at returns
    cases returns
  | ok r => rfl

theorem Allocator.stops_none {r : Nat × Machine σ} (served : a.serve op blocks m = .ok r) :
    a.stops op blocks m = none ∧ a.reply op blocks m = r := by
  rw [stops, reply, served]
  exact ⟨rfl, rfl⟩

theorem Allocator.free_eq {index : Int} (returns : a.stops (.free index) blocks m = none) :
    a.mmFree (blocks index) m = .ok (a.reply (.free index) blocks m).2 := by
  have served := serve_eq returns
  simp only [serve] at served
  cases freed : a.mmFree (blocks index) m with
  | error stop =>
    rw [freed] at served
    cases served
  | ok m' =>
    rw [freed] at served
    rw [← Except.ok.inj served]

theorem Allocator.reply_grown (a : Allocator σ) (op : TraceOp) (blocks : Int → Nat) (m : Machine σ) :
    Grown m.lib (a.reply op blocks m).2.lib := by
  cases returns : a.stops op blocks m with
  | some stop =>
    have same : a.reply op blocks m = (null, m) := by
      unfold stops at returns
      unfold reply
      split at returns
      · cases returns
      · rfl
    rw [same]
    exact Grown.refl m.lib
  | none =>
    cases op with
    | alloc index size => exact a.malloc_grown (serve_eq returns)
    | realloc index size => exact a.realloc_grown (serve_eq returns)
    | free index => exact a.free_grown (free_eq returns)

end

def restart (a : Allocator σ) (m : Machine σ) : Except Stop (Int × Machine σ) :=
  a.mmInit { m with lib := memResetBrk m.lib }

def restarted (a : Allocator σ) (m : Machine σ) : Machine σ :=
  match restart a m with
  | .ok (_, m) => m
  | .error _ => { m with lib := memResetBrk m.lib }

theorem restarted_eq {a : Allocator σ} {m m' : Machine σ} {status : Int} (run : restart a m = .ok (status, m')) :
    restarted a m = m' := by
  rw [restarted, run]

theorem restarted_grown (a : Allocator σ) (m : Machine σ) :
    Grown (memResetBrk m.lib) (restarted a m).lib := by
  cases run : restart a m with
  | error stop =>
    rw [restarted, run]
    exact Grown.refl _
  | ok r =>
    obtain ⟨status, m'⟩ := r
    rw [restarted_eq run]
    exact a.init_grown run

theorem restart_valid (a : Allocator σ) {m : Machine σ} (v : m.lib.Valid) : (restarted a m).lib.Valid :=
  (restarted_grown a m).valid v.reset

/-! ## The traces that make sense -/

/-- `ALLOC` names an id that is not live, `REALLOC` and `FREE` a live one; the ids are in range and the
sizes are positive values of an `int`. -/
def TraceOp.Allowed (numIds : Int) (live : Finset Int) : TraceOp → Prop
  | alloc index size => (0 ≤ index ∧ index < numIds) ∧ (1 ≤ size ∧ size < 2 ^ 31) ∧ index ∉ live
  | realloc index size => (0 ≤ index ∧ index < numIds) ∧ (1 ≤ size ∧ size < 2 ^ 31) ∧ index ∈ live
  | free index => (0 ≤ index ∧ index < numIds) ∧ index ∈ live

def TraceOp.liveAfter (live : Finset Int) : TraceOp → Finset Int
  | alloc index _ => insert index live
  | realloc _ _ => live
  | free index => live.erase index

def Follows (numIds : Int) : Finset Int → List TraceOp → Prop
  | _, [] => True
  | live, op :: ops => op.Allowed numIds live ∧ Follows numIds (op.liveAfter live) ops

instance (numIds : Int) (live : Finset Int) (op : TraceOp) : Decidable (op.Allowed numIds live) := by
  cases op <;> exact inferInstanceAs (Decidable (_ ∧ _))

def decFollows (numIds : Int) : (live : Finset Int) → (ops : List TraceOp) →
    Decidable (Follows numIds live ops)
  | _, [] => isTrue trivial
  | live, op :: ops =>
    have := decFollows numIds (op.liveAfter live) ops
    inferInstanceAs (Decidable (_ ∧ _))

instance (numIds : Int) (live : Finset Int) (ops : List TraceOp) : Decidable (Follows numIds live ops) :=
  decFollows numIds live ops

/-! ## The live payloads -/

abbrev Ledger := List (Int × Span)

structure Call where
  op : TraceOp
  p : Nat
  before : MemLib
  after : MemLib
  stop : Option Stop

def callOf (a : Allocator σ) (op : TraceOp) (blocks : Int → Nat) (m : Machine σ) : Call :=
  ⟨op, (a.reply op blocks m).1, m.lib, (a.reply op blocks m).2.lib, a.stops op blocks m⟩

namespace Ledger

def others (l : Ledger) (index : Int) : Ledger := l.filter fun e => e.1 ≠ index

def ids (l : Ledger) : Finset Int := (l.map Prod.fst).toFinset

def step (l : Ledger) (c : Call) : Ledger :=
  match c.op with
  | .alloc index size => (index, ⟨c.p, size.toNat⟩) :: l
  | .realloc index size => (index, ⟨c.p, size.toNat⟩) :: l.others index
  | .free index => l.others index

structure Proper (l : Ledger) : Prop where
  nodup : (l.map Prod.fst).Nodup
  pos : ∀ e ∈ l, 0 < e.2.size

variable {l : Ledger} {index : Int}

theorem Proper.nil : Proper [] := ⟨List.nodup_nil, by simp⟩

theorem mem_ids : index ∈ l.ids ↔ ∃ s, (index, s) ∈ l := by
  simp [ids]

theorem mem_others {e : Int × Span} : e ∈ l.others index ↔ e ∈ l ∧ e.1 ≠ index := by
  simp [others]

theorem others_of_notMem (h : index ∉ l.ids) : l.others index = l := by
  apply List.filter_eq_self.2
  rintro ⟨i, s⟩ mem
  have : i ≠ index := fun same => h (mem_ids.2 ⟨s, same ▸ mem⟩)
  simpa using this

theorem Proper.others (h : l.Proper) (index : Int) : (l.others index).Proper :=
  ⟨h.nodup.sublist (List.filter_sublist.map _), fun e mem => h.pos e (mem_others.1 mem).1⟩

theorem Proper.cons (h : l.Proper) {s : Span} (pos : 0 < s.size) (new : index ∉ l.ids) :
    Proper ((index, s) :: l) := by
  refine ⟨List.nodup_cons.2 ⟨?_, h.nodup⟩, ?_⟩
  · simpa [ids] using new
  · intro e mem
    obtain rfl | mem := List.mem_cons.1 mem
    · exact pos
    · exact h.pos e mem

theorem notMem_others : index ∉ (l.others index).ids := by
  rintro mem
  obtain ⟨s, mem⟩ := mem_ids.1 mem
  exact (mem_others.1 mem).2 rfl

theorem Proper.perm (h : l.Proper) {s : Span} (mem : (index, s) ∈ l) :
    l.Perm ((index, s) :: l.others index) := by
  have nodup := h.nodup
  clear h
  induction l with
  | nil => cases mem
  | cons e l ih =>
    obtain ⟨head, tail⟩ := List.nodup_cons.1 nodup
    obtain same | mem := List.mem_cons.1 mem
    · subst same
      have rest : Ledger.others ((index, s) :: l) index = l := by
        have : index ∉ ids l := by simpa [ids] using head
        rw [← others_of_notMem this]
        simp [Ledger.others]
      rw [rest]
    · have other : e.1 ≠ index := by
        intro same
        apply head
        rw [same]
        exact List.mem_map_of_mem (f := Prod.fst) mem
      have rest : Ledger.others (e :: l) index = e :: Ledger.others l index := by
        simp [Ledger.others, other]
      rw [rest]
      exact ((ih mem tail).cons e).trans (List.Perm.swap _ _ _)

theorem Proper.step (h : l.Proper) {numIds : Int} {c : Call} (allowed : c.op.Allowed numIds l.ids) :
    (l.step c).Proper := by
  unfold Ledger.step
  cases op : c.op with
  | alloc index size =>
    rw [op] at allowed
    obtain ⟨-, ⟨pos, -⟩, new⟩ := allowed
    exact h.cons (by simp only; omega) new
  | realloc index size =>
    rw [op] at allowed
    obtain ⟨-, ⟨pos, -⟩, -⟩ := allowed
    exact (h.others index).cons (by simp only; omega) notMem_others
  | free index => exact h.others index

theorem ids_others : (l.others index).ids = l.ids.erase index := by
  ext i
  simp only [mem_ids, mem_others, Finset.mem_erase]
  constructor
  · rintro ⟨s, mem, other⟩
    exact ⟨other, s, mem⟩
  · rintro ⟨other, s, mem⟩
    exact ⟨s, mem, other⟩

theorem ids_cons {s : Span} : ids ((index, s) :: l) = insert index l.ids := by
  simp [ids]

theorem ids_step {numIds : Int} {c : Call} (allowed : c.op.Allowed numIds l.ids) :
    (l.step c).ids = c.op.liveAfter l.ids := by
  unfold Ledger.step
  cases op : c.op with
  | alloc index size => exact ids_cons
  | realloc index size =>
    rw [op] at allowed
    simp only [TraceOp.liveAfter, ids_cons, ids_others]
    exact Finset.insert_erase allowed.2.2
  | free index => exact ids_others

end Ledger

theorem follows_step {numIds : Int} {op : TraceOp} {ops : List TraceOp} {l : Ledger} {c : Call} (same : c.op = op)
    (follows : Follows numIds l.ids (op :: ops)) : Follows numIds (l.step c).ids ops := by
  subst same
  rw [Ledger.ids_step follows.1]
  exact follows.2

structure Placed (lib : MemLib) (live : Ledger) (s : Span) : Prop where
  inside : ∀ x, s.Has x → memHeapLo lib ≤ x ∧ x ≤ memHeapHi lib
  apart : ∀ e ∈ live, s.Apart e.2

/-- `P` holds at every call, of the payloads that are live when it is made. -/
def Along (P : Ledger → Call → Prop) : Ledger → List Call → Prop
  | _, [] => True
  | l, c :: calls => P l c ∧ Along P (l.step c) calls

/-! ## A concrete allocator -/

def scripted : Allocator (List Nat) where
  mmInit m := .ok (0, { m with lib := { m.lib with memBrk := max m.lib.memBrk m.lib.memMaxAddr } })
  mmMalloc _ m := .ok (m.own.headD null, { m with own := m.own.tail })
  mmRealloc _ _ m := .ok (m.own.headD null, { m with own := m.own.tail })
  mmFree _ m := .ok m
  init_grown run := by
    cases run
    exact ⟨rfl, le_max_left _ _, fun v => ⟨v.start, v.low.trans (le_max_left _ _),
      max_le v.high (le_refl _), v.area, v.space⟩⟩
  malloc_grown run := by
    cases run
    exact Grown.refl _
  realloc_grown run := by
    cases run
    exact Grown.refl _
  free_grown run := by
    cases run
    exact Grown.refl _

def script (pointers : List Nat) : Machine (List Nat) := ⟨pointers, memInit (fun _ => 0) 4096⟩

theorem script_valid : (memInit (fun _ => 0) 4096).Valid :=
  ⟨by decide, by decide, by decide, by decide, by decide⟩

theorem script_placed {lib : MemLib} (start : lib.memStartBrk = 4096) (brk : lib.memBrk = 20975616)
    {n : Nat} (small : n ≤ 16) : Placed lib [] ⟨4096, n⟩ := by
  refine ⟨fun x has => ?_, by simp⟩
  obtain ⟨low, high⟩ := has
  simp only [Span.finish] at low high
  simp only [memHeapLo, memHeapHi, start, brk]
  omega

end MallocLab.Driver
