import MallocLab.Segregated.Model

/-!
# Running the macros

What the macros of mm.c read from a memory, and one rule for each program that does no more than a
macro. A run of a longer program is taken apart with these rules.
-/

namespace MallocLab.Segregated
open Memory Logged

def sizeAt (m : Mem) (p : Nat) : Nat := word m p &&& 0xFFFFFFF8
def allocAt (m : Mem) (p : Nat) : Nat := word m p &&& 0x1
def tagAt (m : Mem) (p : Nat) : Nat := word m p &&& 0x2

def nextAt (m : Mem) (bp : Nat) : Nat := word m bp
def prevAt (m : Mem) (bp : Nat) : Nat := word m (bp + 4)

/-! ## Fields of the state -/

section
variable (s : State) (p v c : Nat)

@[simp] theorem store_mem : (s.store p v).mem = setWord s.mem p v := rfl
@[simp] theorem store_sgrlists : (s.store p v).sgrlists = s.sgrlists := rfl
@[simp] theorem store_memStartBrk : (s.store p v).memStartBrk = s.memStartBrk := rfl
@[simp] theorem store_memBrk : (s.store p v).memBrk = s.memBrk := rfl
@[simp] theorem store_memMaxAddr : (s.store p v).memMaxAddr = s.memMaxAddr := rfl
@[simp] theorem store_heapListp : (s.store p v).heapListp = s.heapListp := rfl
@[simp] theorem setHead_mem : (s.setHead c v).mem = s.mem := rfl
@[simp] theorem setHead_memStartBrk : (s.setHead c v).memStartBrk = s.memStartBrk := rfl
@[simp] theorem setHead_memBrk : (s.setHead c v).memBrk = s.memBrk := rfl
@[simp] theorem setHead_memMaxAddr : (s.setHead c v).memMaxAddr = s.memMaxAddr := rfl
@[simp] theorem setHead_heapListp : (s.setHead c v).heapListp = s.heapListp := rfl

def State.put (s : State) (p v : Nat) : State := s.store p (v ||| tagAt s.mem p)

@[simp] theorem put_mem : (s.put p v).mem = setWord s.mem p (v ||| tagAt s.mem p) := rfl
@[simp] theorem put_sgrlists : (s.put p v).sgrlists = s.sgrlists := rfl
@[simp] theorem put_memStartBrk : (s.put p v).memStartBrk = s.memStartBrk := rfl
@[simp] theorem put_memBrk : (s.put p v).memBrk = s.memBrk := rfl
@[simp] theorem put_memMaxAddr : (s.put p v).memMaxAddr = s.memMaxAddr := rfl
@[simp] theorem put_heapListp : (s.put p v).heapListp = s.heapListp := rfl

def State.storeUnless (s : State) (bp p v : Nat) : State := if bp = null then s else s.store p v

@[simp] theorem storeUnless_null : s.storeUnless null p v = s := rfl

theorem storeUnless_of_ne {bp : Nat} (ne : bp ≠ null) : s.storeUnless bp p v = s.store p v := if_neg ne

@[simp] theorem storeUnless_sgrlists (bp : Nat) : (s.storeUnless bp p v).sgrlists = s.sgrlists := by
  unfold State.storeUnless
  split <;> rfl

@[simp] theorem setHead_sgrlists (d : Nat) :
    (s.setHead c v).sgrlists d = if d = c then v else s.sgrlists d := rfl

end

/-! ## Rules -/

section
variable {ok : Event → Prop} {α : Type} {s s' : State} {a : α} {u : Unit} {p v bp list : Nat}
  {g : Nat → Prog α} {k : Unit → Prog α}

theorem does_get_bind :
    Does ok (get p >>= g) s a s' ↔ ok (.access p) ∧ Does ok (g (word s.mem p)) s a s' := by
  rw [get, does_assoc, does_note_bind, does_read_bind]

theorem does_putNotag_bind :
    Does ok (putNotag p v >>= k) s a s' ↔
      ok (.access p) ∧ Does ok (k ()) (s.store p v) a s' := by
  rw [putNotag, does_assoc, does_note_bind, does_change_bind]

theorem does_putNotag :
    Does ok (putNotag p v) s u s' ↔ ok (.access p) ∧ s' = s.store p v := by
  rw [putNotag, does_note_bind, does_change]

theorem does_getSize_bind :
    Does ok (getSize p >>= g) s a s' ↔ ok (.access p) ∧ Does ok (g (sizeAt s.mem p)) s a s' := by
  rw [getSize, does_assoc, does_get_bind, does_pure_bind]
  rfl

theorem does_getAlloc_bind :
    Does ok (getAlloc p >>= g) s a s' ↔ ok (.access p) ∧ Does ok (g (allocAt s.mem p)) s a s' := by
  rw [getAlloc, does_assoc, does_get_bind, does_pure_bind]
  rfl

theorem does_getTag_bind :
    Does ok (getTag p >>= g) s a s' ↔ ok (.access p) ∧ Does ok (g (tagAt s.mem p)) s a s' := by
  rw [getTag, does_assoc, does_get_bind, does_pure_bind]
  rfl

theorem does_put_bind :
    Does ok (put p v >>= k) s a s' ↔
      ok (.access p) ∧ Does ok (k ()) (s.put p v) a s' := by
  rw [put, does_assoc, does_getTag_bind, does_putNotag_bind, and_self_left]
  rfl

theorem does_put : Does ok (put p v) s u s' ↔ ok (.access p) ∧ s' = s.put p v := by
  rw [put, does_getTag_bind, does_putNotag, and_self_left]
  rfl

theorem does_setTag_bind :
    Does ok (setTag p >>= k) s a s' ↔
      ok (.access p) ∧ Does ok (k ()) (s.store p (word s.mem p ||| 0x2)) a s' := by
  rw [setTag, does_assoc, does_get_bind, does_putNotag_bind, and_self_left]

theorem does_unsetTag_bind :
    Does ok (unsetTag p >>= k) s a s' ↔
      ok (.access p) ∧ Does ok (k ()) (s.store p (word s.mem p &&& 0xFFFFFFFD)) a s' := by
  rw [unsetTag, does_assoc, does_get_bind, does_putNotag_bind, and_self_left]

theorem does_ftrp_bind :
    Does ok (ftrp bp >>= g) s a s' ↔
      ok (.access (bp - 4)) ∧ Does ok (g (bp + sizeAt s.mem (bp - 4) - 8)) s a s' := by
  rw [ftrp, does_assoc, hdrp, does_getSize_bind, does_pure_bind]

theorem does_nextBlkp_bind :
    Does ok (nextBlkp bp >>= g) s a s' ↔
      ok (.access (bp - 4)) ∧ Does ok (g (bp + sizeAt s.mem (bp - 4))) s a s' := by
  rw [nextBlkp, does_assoc, does_getSize_bind, does_pure_bind]

theorem does_prevBlkp_bind :
    Does ok (prevBlkp bp >>= g) s a s' ↔
      ok (.access (bp - 8)) ∧ Does ok (g (bp - sizeAt s.mem (bp - 8))) s a s' := by
  rw [prevBlkp, does_assoc, does_getSize_bind, does_pure_bind]

theorem does_nextFreep_bind :
    Does ok (nextFreep bp >>= g) s a s' ↔
      ok (.access bp) ∧ Does ok (g (nextAt s.mem bp)) s a s' := does_get_bind

theorem does_prevFreep_bind :
    Does ok (prevFreep bp >>= g) s a s' ↔
      ok (.access (bp + 4)) ∧ Does ok (g (prevAt s.mem bp)) s a s' := does_get_bind

theorem does_getHead_bind :
    Does ok (getHead list >>= g) s a s' ↔ Does ok (g (s.sgrlists list)) s a s' := does_read_bind

theorem does_setHead :
    Does ok (setHead list bp) s u s' ↔ s' = s.setHead list bp := does_change

theorem does_sbrk_bind {incr : Int} :
    Does ok (sbrk incr >>= g) s a s' ↔ Does ok (g (memSbrk s.toMemLib incr).1)
      { s with toMemLib := (memSbrk s.toMemLib incr).2 } a s' := by
  rw [sbrk, does_assoc, does_read_bind, does_assoc, does_change_bind, does_pure_bind]

end

/-! ## Fields of a word -/

section
variable {m : Mem} {p q v : Nat}

theorem sizeAt_eq (m : Mem) (p : Nat) : sizeAt m p = word m p / 8 * 8 := and_mask8 (word_lt m p)

theorem allocAt_eq (m : Mem) (p : Nat) : allocAt m p = word m p % 2 := Nat.and_one_is_mod _

theorem tagAt_eq (m : Mem) (p : Nat) : tagAt m p = word m p / 2 % 2 * 2 := and_two _

theorem sizeAt_store_apart (h : p + 4 ≤ q ∨ q + 4 ≤ p) :
    sizeAt (setWord m p v) q = sizeAt m q := by
  simp only [sizeAt, word_setWord_of_apart h]

theorem allocAt_store_apart (h : p + 4 ≤ q ∨ q + 4 ≤ p) :
    allocAt (setWord m p v) q = allocAt m q := by
  simp only [allocAt, word_setWord_of_apart h]

theorem tagAt_store_apart (h : p + 4 ≤ q ∨ q + 4 ≤ p) :
    tagAt (setWord m p v) q = tagAt m q := by
  simp only [tagAt, word_setWord_of_apart h]

theorem pack_tag {size tag : Nat} {a : Bool} (h8 : size % 8 = 0) (ht : tag = 0 ∨ tag = 2) :
    pack size a.toNat ||| tag = size + (a.toNat + tag) := by
  have flags : a.toNat ||| tag = a.toNat + tag := by
    rcases ht with rfl | rfl <;> cases a <;> rfl
  rw [pack, Nat.or_assoc, flags]
  refine or_eq_add h8 ?_
  cases a <;> simp only [Bool.toNat_true, Bool.toNat_false] <;> omega

theorem tagAt_cases (m : Mem) (p : Nat) : tagAt m p = 0 ∨ tagAt m p = 2 := by
  rw [tagAt_eq]
  omega

theorem fields_put {size : Nat} {a : Bool} (h8 : size % 8 = 0) (hs : size < 2 ^ 32) :
    sizeAt (setWord m p (pack size a.toNat ||| tagAt m p)) p = size ∧
      allocAt (setWord m p (pack size a.toNat ||| tagAt m p)) p = a.toNat ∧
      tagAt (setWord m p (pack size a.toNat ||| tagAt m p)) p = tagAt m p := by
  have flag := tagAt_cases m p
  generalize tagAt m p = tag at *
  rw [pack_tag h8 flag]
  have small : size + (a.toNat + tag) < 2 ^ 32 := by
    cases a <;> simp only [Bool.toNat_true, Bool.toNat_false] <;> omega
  rw [sizeAt_eq, allocAt_eq, tagAt_eq, word_setWord_self _ _ small]
  cases a <;> simp only [Bool.toNat_true, Bool.toNat_false] <;> omega

theorem fields_putNotag {size : Nat} {a : Bool} (h8 : size % 8 = 0) (hs : size < 2 ^ 32) :
    sizeAt (setWord m p (pack size a.toNat)) p = size ∧
      allocAt (setWord m p (pack size a.toNat)) p = a.toNat ∧
      tagAt (setWord m p (pack size a.toNat)) p = 0 := by
  have packed := pack_tag (a := a) h8 (Or.inl rfl)
  rw [Nat.or_zero, Nat.add_zero] at packed
  have small : size + a.toNat < 2 ^ 32 := by
    cases a <;> simp only [Bool.toNat_true, Bool.toNat_false] <;> omega
  rw [packed, sizeAt_eq, allocAt_eq, tagAt_eq, word_setWord_self _ _ small]
  cases a <;> simp only [Bool.toNat_true, Bool.toNat_false] <;> omega

theorem fields_unsetTag : sizeAt (setWord m p (word m p &&& 0xFFFFFFFD)) p = sizeAt m p ∧
    allocAt (setWord m p (word m p &&& 0xFFFFFFFD)) p = allocAt m p := by
  have small := word_lt m p
  rw [sizeAt_eq, sizeAt_eq, allocAt_eq, allocAt_eq, and_mask2 small, word_setWord_self _ _ (by omega)]
  omega

theorem tag_unsetTag : tagAt (setWord m p (word m p &&& 0xFFFFFFFD)) p = 0 := by
  have small := word_lt m p
  rw [tagAt_eq, and_mask2 small, word_setWord_self _ _ (by omega)]
  omega

theorem fields_setTag : sizeAt (setWord m p (word m p ||| 0x2)) p = sizeAt m p ∧
    allocAt (setWord m p (word m p ||| 0x2)) p = allocAt m p := by
  have small := word_lt m p
  rw [sizeAt_eq, sizeAt_eq, allocAt_eq, allocAt_eq, or_two, word_setWord_self _ _ (by omega)]
  omega

end

end MallocLab.Segregated
