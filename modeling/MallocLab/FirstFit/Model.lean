import MallocLab.Memlib

/-!
# The first-fit allocator (mm-firstfit.c)

Functions over the raw memory, under the names of the source. A pointer into the heap never
comes near the end of the address space, so pointer arithmetic is that of the natural numbers;
sizes are unsigned 32-bit words.
-/

namespace MallocLab.FirstFit
open Memory

/-- Why a call does not return: it runs into `exit`, or into a loop that never ends. -/
inductive Stop
  | exit (status : Nat) (message : String)
  | diverge
  deriving DecidableEq, Repr

structure Heap extends MemLib where
  heapListp : Nat

abbrev wsize : Nat := 4
abbrev dsize : Nat := 8
abbrev chunksize : Nat := 4096
abbrev overhead : Nat := 8

def pack (size alloc : Nat) : Nat := size ||| alloc

abbrev get (m : Mem) (p : Nat) : Nat := word m p
abbrev put (m : Mem) (p val : Nat) : Mem := setWord m p val

def getSize (m : Mem) (p : Nat) : Nat := get m p &&& 0xFFFFFFF8
def getAlloc (m : Mem) (p : Nat) : Nat := get m p &&& 0x1

def hdrp (bp : Nat) : Nat := bp - wsize
def ftrp (m : Mem) (bp : Nat) : Nat := bp + getSize m (hdrp bp) - dsize

def nextBlkp (m : Mem) (bp : Nat) : Nat := bp + getSize m (bp - wsize)
def prevBlkp (m : Mem) (bp : Nat) : Nat := bp - getSize m (bp - dsize)

@[irreducible] def coalesce (m : Mem) (bp : Nat) : Nat × Mem :=
  let prevAlloc := getAlloc m (ftrp m (prevBlkp m bp))
  let nextAlloc := getAlloc m (hdrp (nextBlkp m bp))
  let size := getSize m (hdrp bp)
  if prevAlloc ≠ 0 ∧ nextAlloc ≠ 0 then
    (bp, m)
  else if prevAlloc ≠ 0 ∧ nextAlloc = 0 then
    let size := add32 size (getSize m (hdrp (nextBlkp m bp)))
    let m := put m (hdrp bp) (pack size 0)
    let m := put m (ftrp m bp) (pack size 0)
    (bp, m)
  else if prevAlloc = 0 ∧ nextAlloc ≠ 0 then
    let size := add32 size (getSize m (hdrp (prevBlkp m bp)))
    let m := put m (ftrp m bp) (pack size 0)
    let m := put m (hdrp (prevBlkp m bp)) (pack size 0)
    (prevBlkp m bp, m)
  else
    let size := add32 size (add32 (getSize m (hdrp (prevBlkp m bp)))
      (getSize m (ftrp m (nextBlkp m bp))))
    let m := put m (hdrp (prevBlkp m bp)) (pack size 0)
    let m := put m (ftrp m (nextBlkp m bp)) (pack size 0)
    (prevBlkp m bp, m)

@[irreducible] def place (m : Mem) (bp asize : Nat) : Mem :=
  let csize := getSize m (hdrp bp)
  if sub32 csize asize ≥ dsize + overhead then
    let m := put m (hdrp bp) (pack asize 1)
    let m := put m (ftrp m bp) (pack asize 1)
    let bp := nextBlkp m bp
    let m := put m (hdrp bp) (pack (sub32 csize asize) 0)
    put m (ftrp m bp) (pack (sub32 csize asize) 0)
  else
    let m := put m (hdrp bp) (pack csize 1)
    put m (ftrp m bp) (pack csize 1)

/-- The loop of `find_fit`; `none` when it has not ended after the given number of rounds. -/
def findFitFrom (m : Mem) (asize : Nat) : Nat → Nat → Option Nat
  | 0, _ => none
  | rounds + 1, bp =>
      if getSize m (hdrp bp) > 0 then
        if getAlloc m (hdrp bp) = 0 ∧ asize ≤ getSize m (hdrp bp) then some bp
        else findFitFrom m asize rounds (nextBlkp m bp)
      else some null

/-- The loop reads memory that it does not change and its only variable is a 32-bit pointer:
when it has not ended after `2 ^ 32` rounds it never does. -/
@[irreducible] def findFit (h : Heap) (asize : Nat) : Except Stop Nat :=
  match findFitFrom h.mem asize (2 ^ 32) h.heapListp with
  | some bp => .ok bp
  | none => .error .diverge

def extendHeap (h : Heap) (words : Nat) : Nat × Heap :=
  let size := if words % 2 ≠ 0 then mul32 (add32 words 1) wsize else mul32 words wsize
  let (bp, sys) := memSbrk h.toMemLib (toInt32 size)
  let h := { h with toMemLib := sys }
  if bp = minusOne then (null, h)
  else
    let m := put h.mem (hdrp bp) (pack size 0)
    let m := put m (ftrp m bp) (pack size 0)
    let m := put m (hdrp (nextBlkp m bp)) (pack 0 1)
    let (bp, m) := coalesce m bp
    (bp, { h with mem := m })

def mmInit (s : MemLib) : Int × Heap :=
  let (heapListp, s) := memSbrk s (4 * wsize)
  if heapListp = null then (-1, ⟨s, heapListp⟩)
  else
    let m := put s.mem heapListp 0
    let m := put m (heapListp + wsize) (pack overhead 1)
    let m := put m (heapListp + dsize) (pack overhead 1)
    let m := put m (heapListp + wsize + dsize) (pack 0 1)
    let h : Heap := ⟨{ s with mem := m }, heapListp + dsize⟩
    let (bp, h) := extendHeap h (chunksize / wsize)
    if bp = null then (-1, h) else (0, h)

/-- The block size for a request of `size` bytes. -/
def adjust (size : Nat) : Nat :=
  if size ≤ dsize then dsize + overhead
  else mul32 dsize (add32 (add32 size overhead) (dsize - 1) / dsize)

def mmMalloc (h : Heap) (size : Nat) : Except Stop (Nat × Heap) :=
  if size ≤ 0 then .ok (null, h)
  else do
    let asize := adjust size
    let bp ← findFit h asize
    if bp ≠ null then
      .ok (bp, { h with mem := place h.mem bp asize })
    else
      let extendsize := max asize chunksize
      let (bp, h) := extendHeap h (extendsize / wsize)
      if bp = null then .ok (null, h)
      else .ok (bp, { h with mem := place h.mem bp asize })

def mmFree (h : Heap) (bp : Nat) : Heap :=
  let size := getSize h.mem (hdrp bp)
  let m := put h.mem (hdrp bp) (pack size 0)
  let m := put m (ftrp m bp) (pack size 0)
  { h with mem := (coalesce m bp).2 }

def mmRealloc (h : Heap) (ptr size : Nat) : Except Stop (Nat × Heap) := do
  let (newp, h) ← mmMalloc h size
  if newp = null then
    .error (.exit 1 "ERROR: mm_malloc failed in mm_realloc\n")
  else
    let copySize := getSize h.mem (hdrp ptr)
    let copySize := if size < copySize then size else copySize
    let h := { h with mem := copy h.mem newp ptr copySize }
    .ok (newp, mmFree h ptr)

end MallocLab.FirstFit
