import MallocLab.Releases
import MallocLab.Memlib

/-!
# First fit on a list of blocks

What the first-fit allocator is for: the heap is the list of its blocks in address order, a
request takes the first free block that is large enough, and a freed block joins its free
neighbours. No memory appears here.
-/

namespace MallocLab.FirstFit
open Memory

def carve (asize : Nat) (b : Block) : List Block :=
  if 16 ≤ b.size - asize then [⟨asize, true⟩, ⟨b.size - asize, false⟩] else [⟨b.size, true⟩]

/-- The first block that fits, with the blocks before and after it. -/
def firstFit (asize : Nat) : List Block → Option (List Block × Block × List Block)
  | [] => none
  | b :: bs =>
      if b.Fits asize then some ([], b, bs)
      else (firstFit asize bs).map fun (pre, c, post) => (b :: pre, c, post)

def growth (asize : Nat) : Nat := max asize 4096

/-- The block that a request takes when `room` bytes of the area are still unused. -/
def choose (asize room : Nat) (bs : List Block) : Option (List Block × Block × List Block) :=
  match firstFit asize bs with
  | some c => some c
  | none =>
      if growth asize ≤ room then
        some (keptBefore bs, ⟨freeBefore bs + growth asize, false⟩, [])
      else none

def taken (asize : Nat) (b : Block) : Nat := if 16 ≤ b.size - asize then asize else b.size

theorem allocated_carve (a asize : Nat) (b : Block) :
    allocated a (carve asize b) = [(a, ⟨taken asize b, true⟩)] := by
  unfold carve taken
  split <;> simp [allocated, located]

theorem le_taken {asize : Nat} {b : Block} (fit : asize ≤ b.size) : asize ≤ taken asize b := by
  unfold taken
  split <;> omega

/-! ## Separation -/

theorem separated_carve {pre post : List Block} {b : Block} (asize : Nat)
    (h : Separated (pre ++ b :: post)) (hf : b.alloc = false) :
    Separated (pre ++ carve asize b ++ post) := by
  obtain ⟨hp, hq⟩ := separated_split h
  have hq := (separated_split (show Separated ([b] ++ post) from hq)).2
  have ha := after_alloc h hf
  unfold carve
  split
  · have rest : Separated (⟨b.size - asize, false⟩ :: post) := @separated_free [] post _ .nil hq rfl ha
    simpa using (separated_alloc (b := ⟨asize, true⟩) rfl).mpr ⟨hp, rest⟩
  · simpa using (separated_alloc (b := ⟨b.size, true⟩) rfl).mpr ⟨hp, hq⟩

theorem extent_carve {asize : Nat} {b : Block} (h : asize ≤ b.size) :
    extent Block.size (carve asize b) = b.size := by
  unfold carve
  split
  · simp only [extent_cons, extent_nil]
    omega
  · simp

/-! ## The search -/

theorem firstFit_some {asize : Nat} {bs pre post : List Block} {b : Block} :
    firstFit asize bs = some (pre, b, post) ↔
      bs = pre ++ b :: post ∧ b.Fits asize ∧ ∀ c ∈ pre, ¬ c.Fits asize := by
  induction bs generalizing pre with
  | nil => simp [firstFit]
  | cons c bs ih =>
      by_cases hc : c.Fits asize
      · simp only [firstFit, hc, if_true, Option.some.injEq, Prod.mk.injEq]
        constructor
        · rintro ⟨rfl, rfl, rfl⟩
          exact ⟨rfl, hc, by simp⟩
        · rintro ⟨h, -, none⟩
          cases pre with
          | nil => simpa using h
          | cons d pre =>
              obtain ⟨rfl, -⟩ := List.cons.inj h
              exact absurd hc (none c (by simp))
      · simp only [firstFit, hc, if_false, Option.map_eq_some_iff, Prod.exists, Prod.mk.injEq]
        constructor
        · rintro ⟨pre', b', post', h, rfl, rfl, rfl⟩
          obtain ⟨h, hb, none⟩ := ih.mp h
          exact ⟨by rw [h, List.cons_append], hb, by simpa [hc] using none⟩
        · rintro ⟨h, hb, none⟩
          cases pre with
          | nil =>
              obtain ⟨rfl, -⟩ := List.cons.inj h
              exact absurd hb hc
          | cons d pre =>
              obtain ⟨rfl, tail⟩ := List.cons.inj h
              exact ⟨pre, b, post, ih.mpr ⟨tail, hb, fun e he => none e (by simp [he])⟩, rfl, rfl, rfl⟩

theorem firstFit_none {asize : Nat} {bs : List Block} :
    firstFit asize bs = none ↔ ∀ b ∈ bs, ¬ b.Fits asize := by
  induction bs with
  | nil => simp [firstFit]
  | cons c bs ih =>
      by_cases hc : c.Fits asize
      · simp [firstFit, hc]
      · simp [firstFit, hc, ih]

theorem choose_spec {asize room a : Nat} {bs pre post : List Block} {b : Block}
    (sep : Separated bs) (h : choose asize room bs = some (pre, b, post)) :
    b.alloc = false ∧ asize ≤ b.size ∧ Separated (pre ++ b :: post) ∧
      allocated a bs = allocated a pre ++ allocated (a + extent Block.size pre + b.size) post := by
  unfold choose at h
  split at h
  · rename_i found
    rw [Option.some.injEq] at h
    subst h
    obtain ⟨rfl, ⟨free, fit⟩, -⟩ := firstFit_some.mp found
    exact ⟨free, fit, sep, by rw [allocated_append, allocated_cons_false _ _ free]⟩
  · split at h
    · simp only [Option.some.injEq, Prod.mk.injEq] at h
      obtain ⟨rfl, rfl, rfl⟩ := h
      refine ⟨rfl, ?_, ?_, by simp [allocated_keptBefore]⟩
      · simp only [growth]
        omega
      · obtain ⟨kept, last⟩ := separated_keptBefore sep
        exact separated_free _ kept .nil last rfl
    · cases h

end MallocLab.FirstFit
