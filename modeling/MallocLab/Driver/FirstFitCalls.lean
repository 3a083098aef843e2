import MallocLab.Driver.Layout
import MallocLab.Driver.Correct
import MallocLab.FirstFit.FreeOrder

/-!
# The driver over mm-firstfit.c

The first-fit allocator as the one that a trace is replayed against. While the heap holds the blocks of a
layout, a call does on the bytes what the layout does for the request, and meets the contract.
-/

namespace MallocLab.Driver
open Memory

def Raises (s s' : MemLib) : Prop :=
  (s'.memStartBrk = s.memStartBrk ∧ s'.memMaxAddr = s.memMaxAddr) ∧
    s.memBrk ≤ s'.memBrk ∧ s'.memBrk ≤ s'.memMaxAddr

instance (s s' : MemLib) : Decidable (Raises s s') := inferInstanceAs (Decidable (_ ∧ _))

theorem Raises.grown {s s' : MemLib} (r : Raises s s') : Grown s s' := by
  obtain ⟨⟨start, max⟩, low, high⟩ := r
  refine ⟨start, low, fun v => ⟨?_, ?_, high, ?_, ?_⟩⟩
  · rw [start]
    exact v.start
  · rw [start]
    exact v.low.trans low
  · rw [start, max]
    exact v.area
  · rw [max]
    exact v.space

def settle (m : Machine Nat) (h : FirstFit.Heap) : Except Stop (Machine Nat) :=
  if Raises m.lib h.toMemLib then .ok ⟨h.heapListp, h.toMemLib⟩ else .error .lowered

def Stop.of : FirstFit.Stop → Stop
  | .exit _ message => .exit message
  | .diverge => .endless

def settled {α : Type*} (m : Machine Nat) : α × FirstFit.Heap → Except Stop (α × Machine Nat)
  | (value, h) => (settle m h).map (Prod.mk value)

def answer (m : Machine Nat) : Except FirstFit.Stop (Nat × FirstFit.Heap) → Except Stop (Nat × Machine Nat)
  | .ok r => settled m r
  | .error stop => .error (Stop.of stop)

def Machine.heap (m : Machine Nat) : FirstFit.Heap := ⟨m.lib, m.own⟩

theorem settle_grown {m m' : Machine Nat} {h : FirstFit.Heap} (ok : settle m h = .ok m') :
    Grown m.lib m'.lib := by
  unfold settle at ok
  split at ok
  · cases ok
    exact Raises.grown ‹_›
  · cases ok

theorem settled_grown {α : Type*} {m : Machine Nat} {left : α × FirstFit.Heap} {r : α × Machine Nat}
    (ok : settled m left = .ok r) : Grown m.lib r.2.lib := by
  obtain ⟨value, h⟩ := left
  cases run : settle m h with
  | error stop =>
    simp only [settled, run] at ok
    cases ok
  | ok m' =>
    simp only [settled, run] at ok
    cases ok
    exact settle_grown run

theorem answer_grown {m : Machine Nat} {result : Except FirstFit.Stop (Nat × FirstFit.Heap)}
    {r : Nat × Machine Nat} (ok : answer m result = .ok r) : Grown m.lib r.2.lib := by
  cases result with
  | error stop => cases ok
  | ok left => exact settled_grown ok

def firstFit : Allocator Nat where
  mmInit m := settled m (FirstFit.mmInit m.lib)
  mmMalloc size m := answer m (FirstFit.mmMalloc m.heap size)
  mmRealloc p size m := answer m (FirstFit.mmRealloc m.heap p size)
  mmFree p m := settle m (FirstFit.mmFree m.heap p)
  init_grown := settled_grown
  malloc_grown := answer_grown
  realloc_grown := answer_grown
  free_grown := settle_grown

/-- An area in which the driver can begin. -/
structure Ready (lib : MemLib) : Prop where
  valid : lib.Valid
  exact : lib.Exact
  base : lib.memStartBrk % 8 = 0

def payloads (l : Ledger) : List FirstFit.Live := l.map fun e => ⟨0, e.2.start, e.2.size⟩

/-- The machine holds the blocks of the layout, and the live ids own the allocated ones. -/
structure Manages (m : Machine Nat) (y : Layout) (l : Ledger) : Prop where
  wf : FirstFit.WellFormed m.heap y.blocks
  exact : m.lib.Exact
  base : m.lib.memStartBrk % 8 = 0
  accounts : FirstFit.Accounts (m.lib.memStartBrk + 16) y.blocks (payloads l)
  offsets : ∀ e ∈ l, e.2.start = m.lib.memStartBrk + 16 + y.offsets e.1

section
variable {m : Machine Nat} {y : Layout} {l : Ledger} {index size : Int} {s : Span}

theorem settle_heap {h : FirstFit.Heap} {bs bs' : List Block} (wf : FirstFit.WellFormed m.heap bs)
    (wf' : FirstFit.WellFormed h bs') (area : FirstFit.SameArea m.heap h)
    (grow : extent Block.size bs ≤ extent Block.size bs') :
    settle m h = .ok ⟨h.heapListp, h.toMemLib⟩ := by
  have brk := wf.tiled.brk
  have brk' := wf'.tiled.brk
  have start := area.start
  have high := wf'.tiled.valid.high
  simp only [Machine.heap] at brk start
  exact if_pos ⟨⟨start, area.max⟩, by omega, high⟩

theorem payloads_perm (proper : l.Proper) (mem : (index, s) ∈ l) :
    (payloads l).Perm (⟨0, s.start, s.size⟩ :: payloads (l.others index)) :=
  (proper.perm mem).map _

namespace Manages

theorem block (k : Manages m y l) (mem : (index, s) ∈ l) :
    ∃ b, (s.start, b) ∈ allocated (m.lib.memStartBrk + 16) y.blocks ∧ s.size + 8 ≤ b.size :=
  k.accounts.fits _ (List.mem_map.2 ⟨_, mem, rfl⟩)

theorem release_live (k : Manages m y l) (mem : (index, s) ∈ l) (bs : List Block) :
    release s.start (m.lib.memStartBrk + 16) bs = release (y.offsets index) 0 bs := by
  have place : s.start = m.lib.memStartBrk + 16 + y.offsets index := k.offsets _ mem
  rw [place, release_shift]

theorem front (k : Manages m y l) (proper : l.Proper) (mem : (index, s) ∈ l) :
    Manages m y ((index, s) :: l.others index) := by
  have perm := payloads_perm proper mem
  refine ⟨k.wf, k.exact, k.base, ⟨?_, fun p live => ?_⟩, fun e live => ?_⟩
  · exact (perm.map _).symm.trans k.accounts.ptrs
  · exact k.accounts.fits p (perm.mem_iff.2 live)
  · exact k.offsets e ((proper.perm mem).mem_iff.2 live)

theorem kept (k : Manages m y l) {h : FirstFit.Heap} {p : Nat}
    (keeps : FirstFit.KeepsPayloads m.heap h y.blocks p) (mem : (index, s) ∈ l) (ne : s.start ≠ p)
    {x : Nat} (has : s.Has x) : h.mem x = m.lib.mem x := by
  obtain ⟨b, live, fit⟩ := k.block mem
  obtain ⟨placed, alloc⟩ := mem_allocated.1 live
  obtain ⟨low, high⟩ := has
  simp only [Span.finish] at high
  exact keeps s.start b placed alloc ne x low (by omega)

theorem overwrite (k : Manages m y l) {mem : Mem}
    (inside : ∀ a, mem a ≠ m.lib.mem a → ∃ e ∈ l, e.2.Has a) :
    Manages { m with lib := { m.lib with mem := mem } } y l := by
  refine ⟨k.wf.overwrite fun a changed => ?_, k.exact, k.base, k.accounts, k.offsets⟩
  obtain ⟨⟨index, s⟩, live, low, high⟩ := inside a changed
  obtain ⟨b, placed, fit⟩ := k.block live
  refine ⟨s.start, b, placed, low, ?_⟩
  simp only [Span.finish] at high
  omega

theorem memset (k : Manages m y ((index, s) :: l)) (b : Byte) :
    Manages (m.memset s.start b s.size) y ((index, s) :: l) := by
  apply k.overwrite
  intro a changed
  refine ⟨_, List.mem_cons_self, ?_⟩
  by_contra outside
  apply changed
  apply fill_of_outside
  simp only [Span.Has, Span.finish] at outside
  omega

theorem apart {e : Int × Span} (k : Manages m y (e :: l)) {e' : Int × Span} (mem : e' ∈ l) :
    e.2.start ≠ e'.2.start ∧ e.2.Apart e'.2 := by
  have large := k.wf.tiled.large
  have distinct := k.accounts.ptrs.nodup_iff.mpr
    (allocated_nodup fun b hb => by have := large b hb; omega)
  have other : e.2.start ≠ e'.2.start := by
    have head := (List.nodup_cons.1 distinct).1
    intro same
    apply head
    rw [List.map_map]
    exact List.mem_map.2 ⟨e', mem, same.symm⟩
  obtain ⟨b, live, fit⟩ := k.block (List.mem_cons_self (a := e))
  obtain ⟨b', live', fit'⟩ := k.block (List.mem_cons_of_mem e mem)
  have blocks := placed_apart (mem_allocated.1 live).1 (mem_allocated.1 live').1
  refine ⟨other, Span.apart_of_le ?_⟩
  unfold Span.finish
  omega

theorem sound (k : Manages m y ((index, s) :: l)) : SoundPayload m.lib l s := by
  obtain ⟨b, live, fit⟩ := k.block List.mem_cons_self
  have place := (mem_allocated.1 live).1
  have bounds := placed_bounds place
  have brk := k.wf.tiled.brk
  have mod := located_aligned k.wf.tiled.aligned place
  have base := k.base
  refine ⟨⟨fun x has => ?_, fun e mem => (k.apart mem).2⟩, by omega⟩
  obtain ⟨low, high⟩ := has
  simp only [Machine.heap] at brk
  simp only [Span.finish] at high
  simp only [memHeapLo, memHeapHi]
  omega

end Manages

theorem manages_settled {h : FirstFit.Heap} {l' : Ledger} {y' : Layout} (k : Manages m y l)
    (wf : FirstFit.WellFormed h y'.blocks) (area : FirstFit.SameArea m.heap h)
    (accounts : FirstFit.Accounts (m.lib.memStartBrk + 16) y'.blocks (payloads l'))
    (offsets : ∀ e ∈ l', e.2.start = m.lib.memStartBrk + 16 + y'.offsets e.1) :
    Manages ⟨h.heapListp, h.toMemLib⟩ y' l' := by
  have start : h.memStartBrk = m.lib.memStartBrk := area.start
  have exact := FirstFit.Exact.of_sameArea (h := m.heap) k.exact area
  refine ⟨wf, exact, ?_, ?_, ?_⟩
  · rw [start]
    exact k.base
  · rw [start]
    exact accounts
  · rw [start]
    exact offsets

theorem starts_update {f : Nat → Nat} {x n : Nat} {places : Int → Nat} {rest : Ledger}
    (old : ∀ e ∈ rest, e.2.start = f (places e.1)) (new : index ∉ rest.ids) :
    ∀ e ∈ (index, (⟨f x, n⟩ : Span)) :: rest,
      e.2.start = f (Function.update places index x e.1) := by
  intro e mem
  obtain rfl | mem := List.mem_cons.1 mem
  · rw [Function.update_self]
  · have other : e.1 ≠ index := fun same => new (Ledger.mem_ids.2 ⟨e.2, same ▸ mem⟩)
    rw [Function.update_of_ne other]
    exact old e mem

end

/-! ## One request -/

section
variable {m : Machine Nat} {y : Layout} {l : Ledger} {index size : Int} {numIds : Int}
  {blocks : Int → Nat}

theorem unsigned_eq (sized : 1 ≤ size ∧ size < 2 ^ 31) : unsigned size = size.toNat := by
  unfold unsigned
  omega

theorem malloc_take (k : Manages m y l) (sized : 1 ≤ size ∧ size < 2 ^ 31) :
    match y.take size with
    | some (bs, x) =>
      ∃ h, firstFit.mmMalloc (unsigned size) m =
          .ok (m.lib.memStartBrk + 16 + x, ⟨h.heapListp, h.toMemLib⟩) ∧
        FirstFit.WellFormed h bs ∧ FirstFit.SameArea m.heap h ∧
        FirstFit.KeepsPayloads m.heap h y.blocks null ∧
        FirstFit.Accounts (m.lib.memStartBrk + 16) bs
          (⟨0, m.lib.memStartBrk + 16 + x, size.toNat⟩ :: payloads l)
    | none => firstFit.mmMalloc (unsigned size) m = .ok (null, m) := by
  have length := unsigned_eq sized
  have call := FirstFit.mmMalloc_choose k.wf k.exact (show 0 < unsigned size by omega)
    (show unsigned size < 2 ^ 31 by omega)
  rw [FirstFit.room_eq k.wf.tiled] at call
  cases chosen : FirstFit.choose (FirstFit.adjust (unsigned size)) (FirstFit.spare y.blocks) y.blocks with
  | none =>
    rw [chosen] at call
    simp only [Layout.take, chosen, Option.map_none]
    simp only [firstFit, call, answer, settled, settle_heap k.wf k.wf (.refl _) (le_refl _)]
    rfl
  | some found =>
    obtain ⟨pre, b, post⟩ := found
    rw [chosen] at call
    obtain ⟨h, run, wf, area, keeps⟩ := call
    simp only [Layout.take, chosen, Option.map_some]
    have bounds := FirstFit.adjust_bounds (show unsigned size < 2 ^ 32 - 15 by omega)
    obtain ⟨fits, total⟩ := extent_choose chosen
    have carved := FirstFit.extent_carve fits
    refine ⟨h, ?_, wf, area, keeps, ?_⟩
    · simp only [firstFit, run, answer, settled]
      rw [settle_heap k.wf wf area (by simp only [extent_append, extent_cons] at total ⊢; omega)]
      rfl
    · exact k.accounts.request k.wf.separated chosen (by omega)

theorem realloc_take {s : Span} (k : Manages m y l) (proper : l.Proper)
    (sized : 1 ≤ size ∧ size < 2 ^ 31) (mem : (index, s) ∈ l) :
    match y.take size with
    | some (bs, x) =>
      ∃ h, firstFit.mmRealloc s.start (unsigned size) m =
          .ok (m.lib.memStartBrk + 16 + x, ⟨h.heapListp, h.toMemLib⟩) ∧
        FirstFit.WellFormed h (release (y.offsets index) 0 bs) ∧ FirstFit.SameArea m.heap h ∧
        FirstFit.KeepsPayloads m.heap h y.blocks s.start ∧
        (∀ j < min s.size size.toNat,
          h.mem (m.lib.memStartBrk + 16 + x + j) = m.lib.mem (s.start + j)) ∧
        FirstFit.Accounts (m.lib.memStartBrk + 16) (release (y.offsets index) 0 bs)
          (⟨0, m.lib.memStartBrk + 16 + x, size.toNat⟩ :: payloads (l.others index))
    | none => firstFit.mmRealloc s.start (unsigned size) m =
        .error (.exit "ERROR: mm_malloc failed in mm_realloc\n") := by
  have length := unsigned_eq sized
  obtain ⟨b, live, fit⟩ := k.block mem
  have request := malloc_take k sized
  have call := FirstFit.mmRealloc_choose k.wf k.exact (show 0 < unsigned size by omega)
    (show unsigned size < 2 ^ 31 by omega) live
  rw [FirstFit.room_eq k.wf.tiled] at call
  have freed := k.release_live mem
  cases chosen : FirstFit.choose (FirstFit.adjust (unsigned size)) (FirstFit.spare y.blocks) y.blocks with
  | none =>
    rw [chosen] at call
    simp only [Layout.take, chosen, Option.map_none]
    simp only [firstFit, call, answer, Stop.of]
  | some found =>
    obtain ⟨pre, c, post⟩ := found
    rw [chosen] at call
    simp only [Layout.take, chosen, Option.map_some] at request ⊢
    obtain ⟨h, run, wf, area, keeps, data⟩ := call
    obtain ⟨h₁, -, wf₁, -, -, accounts⟩ := request
    simp only [Machine.heap] at wf data
    obtain ⟨fits, total⟩ := extent_choose chosen
    have carved := FirstFit.extent_carve fits
    have positive := wf₁.positive
    -- the old payload is still live beside the new one
    obtain ⟨-, -, -, rest⟩ := accounts.release positive
      (((payloads_perm proper mem).cons _).trans (.swap _ _ _))
    simp only [freed] at rest wf
    refine ⟨h, ?_, wf, area, keeps, fun j lt => ?_, rest⟩
    · simp only [firstFit, run, answer, settled]
      rw [settle_heap k.wf wf area (by
        rw [extent_release]
        simp only [extent_append, extent_cons] at total ⊢
        omega)]
      rfl
    · exact data j (by omega) (by omega)

theorem free_release {s : Span} (k : Manages m y l) (proper : l.Proper) (mem : (index, s) ∈ l) :
    ∃ h, firstFit.mmFree s.start m = .ok ⟨h.heapListp, h.toMemLib⟩ ∧
      FirstFit.WellFormed h (release (y.offsets index) 0 y.blocks) ∧ FirstFit.SameArea m.heap h ∧
      FirstFit.KeepsPayloads m.heap h y.blocks s.start ∧
      FirstFit.Accounts (m.lib.memStartBrk + 16) (release (y.offsets index) 0 y.blocks)
        (payloads (l.others index)) := by
  obtain ⟨b, live, -, accounts⟩ := k.accounts.release k.wf.positive (payloads_perm proper mem)
  obtain ⟨wf, area, -⟩ := FirstFit.mmFree_release k.wf live
  have keeps : FirstFit.KeepsPayloads m.heap (FirstFit.mmFree m.heap s.start) y.blocks s.start := by
    obtain ⟨pre, post, same, at'⟩ := mem_placed.1 (mem_allocated.1 live).1
    have tiled := k.wf.tiled
    rw [same] at tiled ⊢
    simp only at at'
    rw [at']
    exact (FirstFit.mmFree_spec tiled).2.2.2
  have freed : release s.start (m.heap.memStartBrk + 16) y.blocks = _ := k.release_live mem y.blocks
  simp only [freed] at wf
  simp only [k.release_live mem] at accounts
  refine ⟨FirstFit.mmFree m.heap s.start, ?_, wf, area, keeps, accounts⟩
  exact settle_heap k.wf wf area (by rw [extent_release])

def Refused (op : TraceOp) (blocks : Int → Nat) (m : Machine Nat) : Prop :=
  match op with
  | .alloc _ size => firstFit.mmMalloc (unsigned size) m = .ok (null, m)
  | .realloc index size => firstFit.mmRealloc (blocks index) (unsigned size) m =
      .error (.exit "ERROR: mm_malloc failed in mm_realloc\n")
  | .free _ => False

/-- A request does on the heap what it does on the layout, and meets the contract, unless the layout has no
room for it. -/
theorem serve_spec {op : TraceOp} (k : Manages m y l) (proper : l.Proper)
    (allowed : op.Allowed numIds l.ids) (held : ∀ e ∈ l, blocks e.1 = e.2.start) :
    match y.serve op with
    | some y' =>
      Manages (firstFit.reply op blocks m).2 y' (l.step (callOf firstFit op blocks m)) ∧
        Meets l (callOf firstFit op blocks m) ∧
        (firstFit.reply op blocks m).2.lib.memStartBrk = m.lib.memStartBrk ∧
        (firstFit.reply op blocks m).1 =
          if op.isFree then null else m.lib.memStartBrk + 16 + y'.offsets op.index
    | none => Refused op blocks m := by
  have start := k.wf.tiled.valid.start
  cases op with
  | alloc index size =>
    obtain ⟨-, sized, new⟩ := allowed
    have call := malloc_take k sized
    cases taken : y.take size with
    | none =>
      rw [taken] at call
      simp only [Layout.serve, taken, Option.map_none]
      exact call
    | some found =>
      obtain ⟨bs, x⟩ := found
      rw [taken] at call
      obtain ⟨h, run, wf, area, keeps, accounts⟩ := call
      have served : firstFit.serve (.alloc index size) blocks m = .ok _ := run
      obtain ⟨returns, reply⟩ := firstFit.stops_none served
      simp only [Layout.serve, taken, Option.map_some, callOf, returns, reply, Ledger.step]
      have manages : Manages ⟨h.heapListp, h.toMemLib⟩
          ⟨bs, Function.update y.offsets index x⟩ ((index, ⟨m.lib.memStartBrk + 16 + x, size.toNat⟩) :: l) :=
        manages_settled k wf area accounts
          (starts_update (f := fun x => m.lib.memStartBrk + 16 + x) k.offsets new)
      have sound := manages.sound
      refine ⟨manages, ⟨rfl, fun e mem a has => ?_, ?_⟩, area.start, by simp [TraceOp.isFree, TraceOp.index]⟩
      · have mem := (Ledger.mem_others.1 mem).1
        have nonnull : e.2.start ≠ null := by
          have place := k.offsets e mem
          simp only [null]
          omega
        exact k.kept keeps mem nonnull has
      · simp only [Ledger.others_of_notMem new]
        exact ⟨by simp only [null]; omega, sound⟩
  | realloc index size =>
    obtain ⟨-, sized, live⟩ := allowed
    obtain ⟨s, mem⟩ := Ledger.mem_ids.1 live
    have pointer : blocks index = s.start := held _ mem
    have front := k.front proper mem
    have call := realloc_take k proper sized mem
    cases taken : y.take size with
    | none =>
      rw [taken] at call
      simp only [Layout.serve, taken, Option.map_none, Refused, pointer]
      exact call
    | some found =>
      obtain ⟨bs, x⟩ := found
      rw [taken] at call
      obtain ⟨h, run, wf, area, keeps, data, accounts⟩ := call
      rw [← pointer] at run
      have served : firstFit.serve (.realloc index size) blocks m = .ok _ := run
      obtain ⟨returns, reply⟩ := firstFit.stops_none served
      simp only [Layout.serve, taken, Option.map_some, callOf, returns, reply, Ledger.step]
      have manages : Manages ⟨h.heapListp, h.toMemLib⟩
          ⟨release (y.offsets index) 0 bs, Function.update y.offsets index x⟩
          ((index, ⟨m.lib.memStartBrk + 16 + x, size.toNat⟩) :: l.others index) :=
        manages_settled k wf area accounts
          (starts_update (f := fun x => m.lib.memStartBrk + 16 + x)
            (fun e mem => k.offsets e (Ledger.mem_others.1 mem).1) Ledger.notMem_others)
      refine ⟨manages, ⟨rfl, fun e mem a has => ?_, ?_⟩, area.start, by simp [TraceOp.isFree, TraceOp.index]⟩
      · have other := (front.apart mem).1
        exact k.kept keeps (Ledger.mem_others.1 mem).1 other.symm has
      · refine ⟨⟨by simp only [null]; omega, manages.sound⟩, fun old mem' j lt => ?_⟩
        have same : old.start = s.start := (held _ mem').symm.trans pointer
        have sizes : old.size = s.size := by
          obtain eq | other := List.mem_cons.1 ((proper.perm mem).mem_iff.1 mem')
          · rw [(Prod.mk.inj eq).2]
          · exact absurd rfl (Ledger.mem_others.1 other).2
        rw [sizes] at lt
        rw [same]
        exact data j lt
  | free index =>
    obtain ⟨s, mem⟩ := Ledger.mem_ids.1 allowed.2
    have pointer : blocks index = s.start := held _ mem
    have front := k.front proper mem
    obtain ⟨h, run, wf, area, keeps, accounts⟩ := free_release k proper mem
    rw [← pointer] at run
    have served : firstFit.serve (.free index) blocks m = .ok (null, ⟨h.heapListp, h.toMemLib⟩) := by
      rw [Allocator.serve, run]
      rfl
    obtain ⟨returns, reply⟩ := firstFit.stops_none served
    simp only [Layout.serve, callOf, returns, reply, Ledger.step]
    refine ⟨?_, ⟨rfl, fun e mem a has => ?_, trivial⟩, area.start, by simp [TraceOp.isFree]⟩
    · have wf' : FirstFit.WellFormed h
          ({ y with blocks := release (y.offsets index) 0 y.blocks } : Layout).blocks := wf
      exact manages_settled k wf' area accounts fun e mem => k.offsets e (Ledger.mem_others.1 mem).1
    · have other := (front.apart mem).1
      exact k.kept keeps (Ledger.mem_others.1 mem).1 other.symm has

end

end MallocLab.Driver
