import MallocLab.Memory.Words

/-!
# The simulated memory system (memlib.c)

The heap area is `maxHeap` bytes from `memStartBrk` on. Pointers are 32-bit words: the sum that
`memSbrk` compares with `memMaxAddr` wraps around.
-/

namespace MallocLab
open Memory

abbrev null : Nat := 0

abbrev minusOne : Nat := 0xFFFFFFFF

def maxHeap : Nat := 20 * 2 ^ 20

structure MemLib where
  mem : Mem
  memStartBrk : Nat
  memBrk : Nat
  memMaxAddr : Nat

/-- `mem_init`, where `malloc` returned `area`. -/
def memInit (mem : Mem) (area : Nat) : MemLib where
  mem := mem
  memStartBrk := area
  memBrk := area
  memMaxAddr := (area + maxHeap) % 2 ^ 32

def memResetBrk (s : MemLib) : MemLib := { s with memBrk := s.memStartBrk }

def sbrkRefuses (s : MemLib) (incr : Int) : Prop :=
  incr < 0 ∨ (s.memMaxAddr : Int) < (s.memBrk + incr) % 2 ^ 32

instance (s : MemLib) (incr : Int) : Decidable (sbrkRefuses s incr) :=
  inferInstanceAs (Decidable (_ ∨ _))

def memSbrk (s : MemLib) (incr : Int) : Nat × MemLib :=
  if sbrkRefuses s incr then (minusOne, s)
  else (s.memBrk, { s with memBrk := ((s.memBrk + incr) % 2 ^ 32).toNat })

def memHeapLo (s : MemLib) : Nat := s.memStartBrk

def memHeapHi (s : MemLib) : Nat := s.memBrk - 1

def memHeapsize (s : MemLib) : Nat := s.memBrk - s.memStartBrk

theorem maxHeap_eq : maxHeap = 20971520 := rfl

/-- The area lies inside the address space and the break inside the area. -/
structure MemLib.Valid (s : MemLib) : Prop where
  start : 0 < s.memStartBrk
  low : s.memStartBrk ≤ s.memBrk
  high : s.memBrk ≤ s.memMaxAddr
  area : s.memMaxAddr = s.memStartBrk + maxHeap
  space : s.memMaxAddr < 2 ^ 32

theorem MemLib.Valid.setMem {s : MemLib} (v : s.Valid) (m : Mem) : { s with mem := m }.Valid :=
  ⟨v.start, v.low, v.high, v.area, v.space⟩

theorem MemLib.Valid.reset {s : MemLib} (v : s.Valid) : (memResetBrk s).Valid :=
  ⟨v.start, le_refl _, v.low.trans v.high, v.area, v.space⟩

/-- `mem_sbrk` on this area refuses exactly the negative increments and those that do not fit. -/
def MemLib.Exact (s : MemLib) : Prop :=
  ∀ (brk : Nat) (incr : Int), s.memStartBrk ≤ brk → brk ≤ s.memMaxAddr →
    -2 ^ 31 ≤ incr → incr < 2 ^ 31 →
    (sbrkRefuses { s with memBrk := brk } incr ↔ incr < 0 ∨ (s.memMaxAddr : Int) < brk + incr)

theorem MemLib.exact_iff {s : MemLib} (le : s.memStartBrk ≤ s.memMaxAddr)
    (space : s.memMaxAddr < 2 ^ 32) : s.Exact ↔ s.memMaxAddr + (2 ^ 31 - 1) < 2 ^ 32 := by
  constructor
  · intro h
    have := h s.memMaxAddr (2 ^ 31 - 1) le (le_refl _) (by omega) (by omega)
    simp only [sbrkRefuses] at this
    omega
  · intro h brk incr _ _ _ _
    simp only [sbrkRefuses]
    omega

theorem memSbrk_refused {s : MemLib} {incr : Int} (h : sbrkRefuses s incr) :
    memSbrk s incr = (minusOne, s) := if_pos h

theorem memSbrk_accepted {s : MemLib} {n : Nat} (h : ¬ sbrkRefuses s n)
    (wrap : s.memBrk + n < 2 ^ 32) :
    memSbrk s n = (s.memBrk, { s with memBrk := s.memBrk + n }) := by
  rw [memSbrk, if_neg h]
  congr 2
  omega

end MallocLab
