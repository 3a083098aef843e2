import MallocLab.Memlib
import MallocLab.Memory.Logged

/-!
# The explicit free list (mm2.c)

Programs over the raw memory that log every word they read or write and every line they print. `place` and
`insertblock` stand without their debugging calls. Pointer arithmetic is that of the natural numbers, but
for `HDRP`, which wraps around below 4.
-/

namespace MallocLab.Explicit
open Memory Logged

structure State extends MemLib where
  heapListp : Nat
  freeListp : Nat

inductive Event
  | access (p : Nat)
  | print (line : String)

abbrev Prog (α : Type) := Logged State Event α

abbrev wsize : Nat := 4
abbrev dsize : Nat := 8
abbrev overhead : Nat := 8
abbrev minBsize : Nat := 24

def pack (size alloc : Nat) : Nat := size ||| alloc

def State.store (s : State) (p val : Nat) : State := { s with mem := setWord s.mem p val }

def print (line : String) : Prog Unit := note fun _ => .print line

def get (p : Nat) : Prog Nat := do
  note fun _ => .access p
  read fun s => word s.mem p

def put (p val : Nat) : Prog Unit := do
  note fun _ => .access p
  change fun s => s.store p val

def getSize (p : Nat) : Prog Nat := do
  return (← get p) &&& 0xFFFFFFF8

def getAlloc (p : Nat) : Prog Nat := do
  return (← get p) &&& 0x1

def hdrp (bp : Nat) : Nat := sub32 bp wsize

def ftrp (bp : Nat) : Prog Nat := do
  return bp + (← getSize (hdrp bp)) - dsize

def nextBlkp (bp : Nat) : Prog Nat := do
  return bp + (← getSize (hdrp bp))

def nextFreep (bp : Nat) : Prog Nat := get (bp + dsize)
def prevFreep (bp : Nat) : Prog Nat := get bp

def heapListp : Prog Nat := read fun s => s.heapListp
def freeListp : Prog Nat := read fun s => s.freeListp

def insertblock (bp : Nat) : Prog Unit := do
  put (bp + dsize) (← freeListp)
  put (← freeListp) bp
  put bp 0
  change fun s => { s with freeListp := bp }

def place (bp asize : Nat) : Prog Unit := do
  let csize ← getSize (hdrp bp)
  if sub32 csize asize ≥ dsize + overhead then
    put (hdrp bp) (pack asize 1)
    put (← ftrp bp) (pack asize 1)
    let bp ← nextBlkp bp
    put (hdrp bp) (pack (sub32 csize asize) 0)
    put (← ftrp bp) (pack (sub32 csize asize) 0)
    insertblock bp
  else
    -- `bp` is not removed from the list
    put (hdrp bp) (pack csize 1)
    put (← ftrp bp) (pack csize 1)

/-! ## The heap checker

Each loop may take the given number of rounds. A loop that can find an error returns whether it found
none. -/

/-- Is every block in the free list marked free? -/
def checkMarked : Nat → Nat → Prog Bool
  | 0, _ => stuck
  | rounds + 1, ptr => do
    if (← getSize (hdrp ptr)) ≠ 0 then
      if (← getAlloc (hdrp ptr)) = 1 then
        if ptr ≠ (← heapListp) then
          print "ERROR: allocated block in freelist!\n"
          return false
        else if (← nextFreep ptr) = null then return true
        else checkMarked rounds (← nextFreep ptr)
      else checkMarked rounds (← nextFreep ptr)
    else return true

/-- Are there free blocks side by side? -/
def checkNeighbours : Nat → Nat → Bool → Prog Bool
  | 0, _, _ => stuck
  | rounds + 1, ptr, lastWasFree => do
    if (← getSize (hdrp ptr)) ≠ 0 then
      if (← getAlloc (hdrp ptr)) = 0 then
        if lastWasFree then
          print "ERROR: Two free blcoks side by side!\n"
          return false
        else checkNeighbours rounds (← nextBlkp ptr) true
      else checkNeighbours rounds (← nextBlkp ptr) false
    else return true

/-- The inner loop of the next one, with the last value of `ptr2` where it finds no error. -/
def checkOthers : Nat → Nat → Nat → Prog (Option Nat)
  | 0, _, _ => stuck
  | rounds + 1, ptr, ptr2 => do
    if (← getSize (hdrp ptr2)) ≠ 0 then
      if (← getAlloc (hdrp ptr2)) = 0 then
        if ptr ≠ ptr2 then
          print "ERROR: Found free block that is not in freelist!\n"
          return none
        else checkOthers rounds ptr (← nextBlkp ptr)
      else checkOthers rounds ptr (← nextBlkp ptr)
    else return some ptr2

/-- Is every free block in the list? -/
def checkListed (inner : Nat) : Nat → Nat → Nat → Prog Bool
  | 0, _, _ => stuck
  | rounds + 1, ptr, ptr2 => do
    if (← getSize (hdrp ptr)) ≠ 0 then
      match ← checkOthers inner ptr ptr2 with
      | none => return false
      | some ptr2 => checkListed inner rounds (← nextFreep ptr) ptr2
    else return true

/-- Do the pointers in consecutive blocks point to each other? -/
def checkLinks : Nat → Nat → Nat → Prog Bool
  | 0, _, _ => stuck
  | rounds + 1, ptr, ptr2 => do
    if (← getSize (hdrp ptr)) ≠ 0 then
      if (← getSize (hdrp ptr2)) ≠ 0 then
        if (← nextFreep ptr) ≠ ptr2 ∨ (← prevFreep ptr2) ≠ ptr then
          print "ERROR: Pointers in consecutive blocks don't point to each other!\n"
          return false
        else
          let ptr ← nextFreep ptr
          checkLinks rounds ptr (← nextFreep ptr)
      else return true
    else return true

/-- Are there cycles in the list? -/
def checkCycles : Nat → Bool → Nat → Nat → Prog Bool
  | 0, _, _, _ => stuck
  | rounds + 1, firstLoop, ptr, ptr2 => do
    if (← getSize (hdrp ptr)) ≠ 0 then
      if (← getSize (hdrp ptr2)) ≠ 0 then
        if (← getSize (hdrp (← nextFreep ptr2))) ≠ 0 then
          if ¬ firstLoop ∧ ptr = ptr2 then
            print "ERROR: There is a cycle in the list!\n"
            return false
          else
            let ptr ← nextFreep ptr
            let ptr2 ← nextFreep (← nextFreep ptr)
            checkCycles rounds false ptr ptr2
        else return true
      else return true
    else return true

def checkblock (bp : Nat) : Prog Unit := do
  let lo ← read fun s => memHeapLo s.toMemLib
  let hi ← read fun s => memHeapHi s.toMemLib
  if (← get (hdrp bp)) ≠ (← get (← ftrp bp)) then
    print "CHECKBLOCK ERROR: header and footer do not match! \n"
  if bp % 8 ≠ 0 then
    print "CHECKBLOCK ERROR: bp is not divisible by 8! \n"
  if bp < lo ∨ bp > hi then
    print "CHECKBLOCK ERROR: NEXT_FREEP(bp) is not on heap! \n"
  if (← nextFreep bp) < lo ∨ (← nextFreep bp) > hi then
    print "CHECKBLOCK ERROR: NEXT_FREEP(bp) is not on heap! \n"
  if (← prevFreep bp) < lo ∨ (← prevFreep bp) > hi then
    print "CHECKBLOCK ERROR: PREV_FREEP(bp) is not on heap! \n"
  if bp + (← getSize (hdrp bp)) ≠ (← ftrp bp) ∨
      sub32 bp (← getSize (← ftrp bp)) ≠ hdrp bp then
    print "CHECKBLOCK ERROR: payload does not match size! \n"

def checkBlocks : Nat → Nat → Prog Unit
  | 0, _ => stuck
  | rounds + 1, ptr => do
    if (← getSize (hdrp ptr)) ≠ 0 then
      checkblock ptr
      checkBlocks rounds (← nextFreep ptr)
    else return ()

/-- `mm_check`, whose loops may each take the given number of rounds. -/
def mmCheck (rounds : Nat) : Prog Int := do
  let head ← freeListp
  print "Check if every block in free list is marked free \n"
  if ← checkMarked rounds head then
    print "Check if there are any free blocks side by side \n"
    if ← checkNeighbours rounds head false then
      print "Check if every free block is in the list \n"
      if ← checkListed rounds rounds head head then
        let ptr2 ← nextFreep head
        print "Check if pointers in consecutive blocks point to each other \n"
        if ← checkLinks rounds head ptr2 then
          print "Check if there are cycles in the list \n"
          if ← checkCycles rounds true head head then
            print "Check each block for errors \n"
            checkBlocks rounds head
            return 0
          else return -1
        else return -1
      else return -1
    else return -1
  else return -1

end MallocLab.Explicit
