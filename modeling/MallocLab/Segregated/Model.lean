import MallocLab.Memlib
import MallocLab.Memory.Logged

/-!
# The segregated-list allocator (mm.c)

The functions of the source as programs over the raw memory. They log every word they read or
write, every call of `delete_block` with the state in which it is made, and the calls of
`mm_malloc` and `memmove` that `mm_realloc` makes. Pointer arithmetic is that of the natural
numbers; sizes are unsigned 32-bit words and `int` variables are signed 32-bit ones. The name `ptr`
that `mm_malloc` does not declare is read as `bp`.
-/

namespace MallocLab.Segregated
open Memory Logged

structure State extends MemLib where
  heapListp : Nat
  /-- The heads of the lists, outside the heap. -/
  sgrlists : Nat → Nat

inductive Event
  | access (p : Nat)
  | delete (bp : Nat) (s : State)
  | malloc (size : Nat)
  | memmove (dst src n : Nat)

abbrev Prog (α : Type) := Logged State Event α

abbrev wsize : Nat := 4
abbrev dsize : Nat := 8
abbrev chunksize : Nat := 4096
abbrev overhead : Nat := 8
abbrev minBsize : Nat := 16
abbrev lists : Nat := 20
abbrev buffer : Nat := 128

def pack (size alloc : Nat) : Nat := size ||| alloc

def State.store (s : State) (p val : Nat) : State := { s with mem := setWord s.mem p val }

def State.setHead (s : State) (list bp : Nat) : State :=
  { s with sgrlists := fun c => if c = list then bp else s.sgrlists c }

def get (p : Nat) : Prog Nat := do
  note fun _ => .access p
  read fun s => word s.mem p

/-- `PUT_NOTAG` and `SET_BP`. -/
def putNotag (p val : Nat) : Prog Unit := do
  note fun _ => .access p
  change fun s => s.store p val

def getSize (p : Nat) : Prog Nat := do
  return (← get p) &&& 0xFFFFFFF8

def getAlloc (p : Nat) : Prog Nat := do
  return (← get p) &&& 0x1

def getTag (p : Nat) : Prog Nat := do
  return (← get p) &&& 0x2

def put (p val : Nat) : Prog Unit := do
  let tag ← getTag p
  putNotag p (val ||| tag)

def setTag (p : Nat) : Prog Unit := do
  let w ← get p
  putNotag p (w ||| 0x2)

def unsetTag (p : Nat) : Prog Unit := do
  let w ← get p
  putNotag p (w &&& 0xFFFFFFFD)

def hdrp (bp : Nat) : Nat := bp - wsize

def ftrp (bp : Nat) : Prog Nat := do
  return bp + (← getSize (hdrp bp)) - dsize

def nextBlkp (bp : Nat) : Prog Nat := do
  return bp + (← getSize (bp - wsize))

def prevBlkp (bp : Nat) : Prog Nat := do
  return bp - (← getSize (bp - dsize))

def prevBp (bp : Nat) : Nat := bp
def nextBp (bp : Nat) : Nat := bp + wsize

def nextFreep (bp : Nat) : Prog Nat := get bp
def prevFreep (bp : Nat) : Prog Nat := get (nextBp bp)

abbrev setBp (p bp : Nat) : Prog Unit := putNotag p bp

def getHead (list : Nat) : Prog Nat := read fun s => s.sgrlists list
def setHead (list bp : Nat) : Prog Unit := change fun s => s.setHead list bp

def sbrk (incr : Int) : Prog Nat := do
  let bp ← read fun s => (memSbrk s.toMemLib incr).1
  change fun s => { s with toMemLib := (memSbrk s.toMemLib incr).2 }
  return bp

/-- The loop that selects a list, with the number of rounds that `list < LISTS - 1` leaves. -/
def selectFrom : Nat → Nat → Nat → Nat × Nat
  | 0, list, size => (list, size)
  | rounds + 1, list, size =>
      if size > 1 then selectFrom rounds (list + 1) (size >>> 1) else (list, size)

def selectList (size : Nat) : Nat × Nat := selectFrom (lists - 1) 0 size

/-- The loop of `insert_block` that selects the place in the list. -/
def placeFrom (size : Nat) : Nat → Nat → Nat → Prog (Nat × Nat)
  | 0, _, _ => stuck
  | rounds + 1, searchBp, insertBp =>
      if searchBp ≠ null then do
        let n ← getSize (hdrp searchBp)
        if size > n then do
          let next ← nextFreep searchBp
          placeFrom size rounds next searchBp
        else return (searchBp, insertBp)
      else return (searchBp, insertBp)

/-- The search reads memory that it does not change and its variables are two 32-bit pointers, the
second the first one of the round before: what has not ended after `2 ^ 32` rounds never does. -/
@[irreducible] def insertBlock (bp size : Nat) : Prog Unit := do
  let (list, size) := selectList size
  let head ← getHead list
  let (searchBp, insertBp) ← placeFrom size (2 ^ 32) head null
  if searchBp ≠ null then
    if insertBp ≠ null then
      setBp (prevBp bp) searchBp
      setBp (nextBp searchBp) bp
      setBp (nextBp bp) insertBp
      setBp (prevBp insertBp) bp
    else
      setBp (prevBp bp) searchBp
      setBp (nextBp searchBp) bp
      setBp (nextBp bp) null
      setHead list bp
  else
    if insertBp ≠ null then
      setBp (prevBp bp) null
      setBp (nextBp bp) insertBp
      setBp (prevBp insertBp) bp
    else
      setBp (prevBp bp) null
      setBp (nextBp bp) null
      setHead list bp

@[irreducible] def deleteBlock (bp : Nat) : Prog Unit := do
  note fun s => .delete bp s
  let size ← getSize (hdrp bp)
  let (list, _) := selectList size
  if (← nextFreep bp) ≠ null then
    if (← prevFreep bp) ≠ null then
      setBp (nextBp (← nextFreep bp)) (← prevFreep bp)
      setBp (prevBp (← prevFreep bp)) (← nextFreep bp)
    else
      setBp (nextBp (← nextFreep bp)) null
      setHead list (← nextFreep bp)
  else
    if (← prevFreep bp) ≠ null then
      setBp (prevBp (← prevFreep bp)) null
    else
      setHead list null

@[irreducible] def coalesce (bp : Nat) : Prog Nat := do
  let prevAlloc ← getAlloc (hdrp (← prevBlkp bp))
  let nextAlloc ← getAlloc (hdrp (← nextBlkp bp))
  let size ← getSize (hdrp bp)
  if prevAlloc ≠ 0 ∧ nextAlloc ≠ 0 then
    return bp
  else
    let tag ← getTag (hdrp (← prevBlkp bp))
    let prevAlloc := if tag ≠ 0 then 1 else prevAlloc
    deleteBlock bp
    if prevAlloc ≠ 0 ∧ nextAlloc = 0 then
      deleteBlock (← nextBlkp bp)
      let size := add32 size (← getSize (hdrp (← nextBlkp bp)))
      put (hdrp bp) (pack size 0)
      put (← ftrp bp) (pack size 0)
      insertBlock bp size
      return bp
    else if prevAlloc = 0 ∧ nextAlloc ≠ 0 then
      deleteBlock (← prevBlkp bp)
      let size := add32 size (← getSize (hdrp (← prevBlkp bp)))
      put (← ftrp bp) (pack size 0)
      put (hdrp (← prevBlkp bp)) (pack size 0)
      let bp ← prevBlkp bp
      insertBlock bp size
      return bp
    else
      deleteBlock (← prevBlkp bp)
      deleteBlock (← nextBlkp bp)
      let size := add32 size (add32 (← getSize (hdrp (← prevBlkp bp)))
        (← getSize (hdrp (← nextBlkp bp))))
      put (hdrp (← prevBlkp bp)) (pack size 0)
      put (← ftrp (← nextBlkp bp)) (pack size 0)
      let bp ← prevBlkp bp
      insertBlock bp size
      return bp

@[irreducible] def extendHeap (words : Nat) : Prog Nat := do
  let size := if words % 2 ≠ 0 then mul32 (add32 words 1) wsize else mul32 words wsize
  let size := if size < overhead then overhead else size
  let bp ← sbrk (toInt32 size)
  if bp = minusOne then
    return null
  else
    putNotag (hdrp bp) (pack size 0)
    putNotag (← ftrp bp) (pack size 0)
    putNotag (hdrp (← nextBlkp bp)) (pack 0 1)
    insertBlock bp size
    coalesce bp

def mmInit : Prog Int := do
  change fun s => { s with sgrlists := fun _ => null }
  let heapListp ← sbrk (4 * wsize)
  change fun s => { s with heapListp := heapListp }
  if heapListp = minusOne then
    return -1
  else
    putNotag heapListp 0
    putNotag (heapListp + 1 * wsize) (pack dsize 1)
    putNotag (heapListp + 2 * wsize) (pack dsize 1)
    putNotag (heapListp + 3 * wsize) (pack 0 1)
    change fun s => { s with heapListp := heapListp + dsize }
    let bp ← extendHeap (chunksize / wsize)
    if bp = null then return -1 else return 0

def adjust (size : Nat) : Nat :=
  if size ≤ dsize then 2 * dsize
  else mul32 dsize (add32 (add32 size dsize) (dsize - 1) / dsize)

@[irreducible] def place (bp asize : Nat) : Prog Unit := do
  let bpSize ← getSize (hdrp bp)
  let remainder := sub32 bpSize asize
  deleteBlock bp
  if remainder ≥ minBsize then
    put (hdrp bp) (pack asize 1)
    put (← ftrp bp) (pack asize 1)
    putNotag (hdrp (← nextBlkp bp)) (pack remainder 0)
    putNotag (← ftrp (← nextBlkp bp)) (pack remainder 0)
    insertBlock (← nextBlkp bp) remainder
  else
    put (hdrp bp) (pack bpSize 1)
    put (← ftrp bp) (pack bpSize 1)

/-- The inner loop of `mm_malloc`: the first block of a list that is large enough and not tagged. -/
def fitFrom (asize : Nat) : Nat → Nat → Prog Nat
  | 0, _ => stuck
  | rounds + 1, bp =>
      if bp ≠ null then do
        if asize > (← getSize (hdrp bp)) ∨ (← getTag (hdrp bp)) ≠ 0 then
          fitFrom asize rounds (← nextFreep bp)
        else return bp
      else return bp

/-- The outer loop of `mm_malloc`, stuck when it has not ended after the given number of rounds. The
source never changes `list`. -/
def searchLists (asize : Nat) : Nat → Nat → Nat → Nat → Prog Nat
  | 0, _, _, _ => stuck
  | rounds + 1, list, size, bp =>
      if list < lists then do
        let head ← getHead list
        if (size ≤ 1 ∧ head ≠ null) ∨ list = lists - 1 then do
          let bp ← fitFrom asize (2 ^ 32) head
          if bp ≠ null then return bp
          else searchLists asize rounds list (size >>> 1) bp
        else searchLists asize rounds list (size >>> 1) bp
      else return bp

/-- `mm_malloc`, whose search may take the given number of rounds. -/
def mmMalloc (rounds size : Nat) : Prog Nat := do
  if size ≤ 0 then
    return null
  else
    let asize := adjust size
    let bp ← searchLists asize rounds 0 asize null
    if bp = null then
      let extendsize := max asize chunksize
      let bp ← extendHeap (extendsize / wsize)
      if bp = null then
        return null
      else
        place bp asize
        return bp
    else
      place bp asize
      return bp

def mmFree (bp : Nat) : Prog Unit := do
  let size ← getSize (hdrp bp)
  unsetTag (hdrp (← nextBlkp bp))
  put (hdrp bp) (pack size 0)
  put (← ftrp bp) (pack size 0)
  insertBlock bp size
  let _ ← coalesce bp

def memmove (dst src n : Nat) : Prog Unit := do
  note fun _ => .memmove dst src n
  change fun s => { s with mem := copy s.mem dst src n }

/-- An unsigned word read as the sum of a word and an `int`. -/
def addInt (a : Nat) (i : Int) : Nat := ((a + i) % 2 ^ 32).toNat

/-- `mm_realloc` over any procedure for `mm_malloc`. -/
def mmRealloc (malloc : Nat → Prog Nat) (bp size : Nat) : Prog Nat := do
  if size = 0 then
    return null
  else
    let newSize := add32 (adjust size) buffer
    let blockBuffer := toInt32 (sub32 (← getSize (hdrp bp)) newSize)
    if blockBuffer < 0 then
      let nextAlloc ← getAlloc (hdrp (← nextBlkp bp))
      let nextSize ← getSize (hdrp (← nextBlkp bp))
      if nextAlloc = 0 ∨ nextSize = 0 then
        let remainder := toInt32 (sub32 (add32 (← getSize (hdrp bp))
          (← getSize (hdrp (← nextBlkp bp)))) newSize)
        if remainder < 0 then
          let extendsize := max (neg32 remainder) chunksize
          let grown ← extendHeap extendsize.toNat
          if grown = null then
            return null
          else
            absorb newSize (remainder + extendsize)
        else
          absorb newSize remainder
      else
        let newBp ← callMalloc (sub32 newSize dsize)
        memmove newBp bp (min size newSize)
        mmFree bp
        finish newBp newSize
    else
      tagNext bp blockBuffer
where
  callMalloc (n : Nat) : Prog Nat := do
    note fun _ => .malloc n
    malloc n
  /-- Tag the next block when the buffer has become small. -/
  tagNext (newBp : Nat) (blockBuffer : Int) : Prog Nat := do
    if blockBuffer < 2 * buffer then
      setTag (hdrp (← nextBlkp newBp))
      return newBp
    else
      return newBp
  /-- The buffer is computed again from the header of the block returned. -/
  finish (newBp newSize : Nat) : Prog Nat := do
    tagNext newBp (toInt32 (sub32 (← getSize (hdrp newBp)) newSize))
  /-- The next block is taken without splitting. -/
  absorb (newSize : Nat) (remainder : Int) : Prog Nat := do
    deleteBlock (← nextBlkp bp)
    putNotag (hdrp bp) (pack (addInt newSize remainder) 1)
    putNotag (← ftrp bp) (pack (addInt newSize remainder) 1)
    finish bp newSize

end MallocLab.Segregated
