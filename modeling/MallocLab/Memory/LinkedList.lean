import Mathlib.Tactic

/-!
# Doubly linked lists

`Segment next prev p h xs e`: following `next` from `h` visits the nodes `xs` and stops at `e`;
following `prev` leads back, and from the first node to `p`. The links are any two functions on
addresses, so that a change of the store is a change of these functions.
-/

namespace MallocLab.Memory

def Segment (next prev : Nat → Nat) : Nat → Nat → List Nat → Nat → Prop
  | _, h, [], e => h = e
  | p, h, x :: xs, e => h = x ∧ x ≠ e ∧ prev x = p ∧ Segment next prev x (next x) xs e

instance Segment.decidable (next prev : Nat → Nat) :
    ∀ p h xs e, Decidable (Segment next prev p h xs e)
  | _, h, [], e => inferInstanceAs (Decidable (h = e))
  | p, h, x :: xs, e =>
      have := Segment.decidable next prev x (next x) xs e
      inferInstanceAs (Decidable (h = x ∧ x ≠ e ∧ prev x = p ∧ Segment next prev x (next x) xs e))

section
variable {next prev next' prev' : Nat → Nat} {p h e b : Nat} {xs ys : List Nat}

theorem Segment.congr (seg : Segment next prev p h xs e) (hn : ∀ x ∈ xs, next' x = next x)
    (hp : ∀ x ∈ xs, prev' x = prev x) : Segment next' prev' p h xs e := by
  induction xs generalizing p h with
  | nil => exact seg
  | cons x xs ih =>
      obtain ⟨rfl, ne, back, rest⟩ := seg
      refine ⟨rfl, ne, by rw [hp h (by simp), back], ?_⟩
      rw [hn h (by simp)]
      exact ih rest (fun y hy => hn y (by simp [hy])) fun y hy => hp y (by simp [hy])

theorem Segment.end_notMem (seg : Segment next prev p h xs e) : e ∉ xs := by
  induction xs generalizing p h with
  | nil => simp
  | cons x xs ih =>
      obtain ⟨-, ne, -, rest⟩ := seg
      simp [ne.symm, ih rest]

theorem Segment.head_eq (seg : Segment next prev p h xs e) : h = xs.head?.getD e := by
  cases xs with
  | nil => exact seg
  | cons x xs => exact seg.1

theorem Segment.head_iff (seg : Segment next prev p h xs e) : h = e ↔ xs = [] := by
  cases xs with
  | nil => simpa using show h = e from seg
  | cons x xs =>
      obtain ⟨rfl, ne, -⟩ := seg
      simpa using ne

theorem Segment.head_mem (seg : Segment next prev p h xs e) (ne : h ≠ e) : h ∈ xs := by
  cases xs with
  | nil => exact absurd seg ne
  | cons x xs =>
      rw [seg.1]
      simp

theorem Segment.unique (seg : Segment next prev p h xs e) (other : Segment next prev' b h ys e) :
    xs = ys := by
  induction xs generalizing p h b ys with
  | nil => exact (other.head_iff.mp seg).symm
  | cons x xs ih =>
      obtain ⟨rfl, ne, -, rest⟩ := seg
      cases ys with
      | nil => exact absurd other ne
      | cons y ys =>
          obtain ⟨rfl, -, -, rest'⟩ := other
          rw [ih rest rest']

theorem Segment.repoint {q : Nat} (seg : Segment next prev p h xs e) (nodup : xs.Nodup)
    (hn : ∀ x ∈ xs, next' x = next x) (hp : ∀ x ∈ xs, prev' x = if x = h then q else prev x) :
    Segment next' prev' q h xs e := by
  cases xs with
  | nil => exact seg
  | cons x xs =>
      obtain ⟨rfl, ne, -, rest⟩ := seg
      refine ⟨rfl, ne, by rw [hp h (by simp), if_pos rfl], ?_⟩
      rw [hn h (by simp)]
      refine rest.congr (fun y hy => hn y (by simp [hy])) fun y hy => ?_
      rw [hp y (by simp [hy]), if_neg]
      rintro rfl
      exact (List.nodup_cons.mp nodup).1 hy

theorem Segment.push (seg : Segment next prev p h xs e) (ne : b ≠ e)
    (nodup : xs.Nodup) (first : next' b = h) (back : prev' b = p)
    (hn : ∀ x ∈ xs, next' x = next x) (hp : ∀ x ∈ xs, prev' x = if x = h then b else prev x) :
    Segment next' prev' p b (b :: xs) e := by
  refine ⟨rfl, ne, back, ?_⟩
  rw [first]
  exact seg.repoint nodup hn hp

/-- Following `next` from `h` visits `us` and then comes to `x`. -/
def Path (next : Nat → Nat) : Nat → List Nat → Nat → Prop
  | h, [], x => h = x
  | h, u :: us, x => h = u ∧ Path next (next u) us x

theorem Segment.path (seg : Segment next prev p h (xs ++ b :: ys) e) : Path next h xs b := by
  induction xs generalizing p h with
  | nil => exact seg.1
  | cons x xs ih =>
      obtain ⟨rfl, -, -, rest⟩ := seg
      exact ⟨rfl, ih rest⟩

theorem Path.congr (path : Path next h xs b) (same : ∀ x ∈ xs, next' x = next x) :
    Path next' h xs b := by
  induction xs generalizing h with
  | nil => exact path
  | cons x xs ih =>
      obtain ⟨rfl, rest⟩ := path
      refine ⟨rfl, ?_⟩
      rw [same h (by simp)]
      exact ih rest fun y hy => same y (by simp [hy])

theorem Path.next_mem (path : Path next h xs b) {x : Nat} (mem : x ∈ xs) : next x ∈ xs ++ [b] := by
  induction xs generalizing h with
  | nil => cases mem
  | cons y xs ih =>
      obtain ⟨rfl, rest⟩ := path
      obtain rfl | mem := List.mem_cons.mp mem
      · cases xs with
        | nil =>
            have : next x = b := rest
            simp [this]
        | cons z xs =>
            have : next x = z := rest.1
            simp [this]
      · exact List.mem_cons_of_mem _ (ih rest mem)

theorem Path.mem_of_kept (path : Path next h xs b) (seg : Segment next' prev' p h ys e) (inner : e ∉ xs)
    (ne : b ≠ e) (kept : ∀ x ∈ xs, x ∈ ys → next' x = next x) : b ∈ ys := by
  induction xs generalizing p h ys with
  | nil =>
      cases path
      exact seg.head_mem ne
  | cons x xs ih =>
      obtain ⟨rfl, rest⟩ := path
      obtain ⟨first, inner⟩ := not_or.mp (mt List.mem_cons.mpr inner)
      cases ys with
      | nil => exact absurd seg (Ne.symm first)
      | cons y ys =>
          obtain ⟨rfl, -, -, tail⟩ := seg
          rw [kept h (by simp) (by simp)] at tail
          exact List.mem_cons_of_mem _ (ih rest tail inner fun z hz hz' =>
            kept z (List.mem_cons_of_mem _ hz) (List.mem_cons_of_mem _ hz'))

theorem Path.mem (path : Path next h xs b) (seg : Segment next prev p h ys e) (inner : e ∉ xs)
    (ne : b ≠ e) : b ∈ ys :=
  path.mem_of_kept seg inner ne fun _ _ _ => rfl

theorem Segment.middle (seg : Segment next prev p h (xs ++ b :: ys) e) :
    prev b = xs.getLast?.getD p ∧ next b = ys.head?.getD e ∧ Segment next prev b (next b) ys e := by
  induction xs generalizing p h with
  | nil =>
      obtain ⟨-, -, back, rest⟩ := seg
      exact ⟨by simpa using back, rest.head_eq, rest⟩
  | cons x xs ih =>
      obtain ⟨-, -, -, rest⟩ := seg
      obtain ⟨back, first, tail⟩ := ih rest
      refine ⟨?_, first, tail⟩
      rw [back, List.getLast?_cons]
      rfl

theorem Segment.unlink_inner (seg : Segment next prev p h (xs ++ b :: ys) e) (ne : xs ≠ [])
    (nodup : (xs ++ b :: ys).Nodup)
    (hn : ∀ x ∈ xs ++ ys, next' x = if x = prev b then next b else next x)
    (hp : ∀ x ∈ xs ++ ys, prev' x = if x = next b then prev b else prev x) :
    Segment next' prev' p h (xs ++ ys) e := by
  induction xs generalizing p h with
  | nil => exact absurd rfl ne
  | cons x xs ih =>
      obtain ⟨back, first, tail⟩ := seg.middle
      obtain ⟨rfl, stop, start, rest⟩ := seg
      have apart := (List.nodup_cons.mp nodup).1
      have inner : h ≠ next b := by
        rw [first]
        cases ys with
        | nil => exact stop
        | cons y ys =>
            rintro rfl
            simp at apart
      refine ⟨rfl, stop, by rw [hp h (by simp), if_neg inner, start], ?_⟩
      cases xs with
      | nil =>
          simp only [List.getLast?_singleton, Option.getD_some] at back
          rw [hn h (by simp), if_pos back.symm]
          refine tail.repoint (by simp at nodup; exact nodup.2.2) (fun y hy => ?_) fun y hy => ?_
          · rw [hn y (by simp [hy]), if_neg]
            rintro rfl
            rw [back] at hy
            simp [hy] at apart
          · rw [hp y (by simp [hy]), back]
      | cons y xs =>
          have last : h ≠ prev b := by
            rintro same
            rw [← same, List.getLast?_cons_cons] at back
            have : h ∈ y :: xs := List.mem_of_getLast? (by
              cases hl : (y :: xs).getLast? with
              | none => simp at hl
              | some z => rw [back, hl]; rfl)
            exact apart (List.mem_append_left _ this)
          rw [hn h (by simp), if_neg last]
          exact ih rest (by simp) (List.nodup_cons.mp nodup).2
            (fun z hz => hn z (List.mem_cons_of_mem _ hz)) fun z hz => hp z (List.mem_cons_of_mem _ hz)

theorem Segment.unlink_of_notMem (seg : Segment next prev p h (xs ++ b :: ys) e) (outer : p ∉ xs ++ b :: ys)
    (nodup : (xs ++ b :: ys).Nodup)
    (hn : ∀ x ∈ xs ++ ys, next' x = if x = prev b then next b else next x)
    (hp : ∀ x ∈ xs ++ ys, prev' x = if x = next b then prev b else prev x) :
    Segment next' prev' p (if prev b = p then next b else h) (xs ++ ys) e := by
  obtain ⟨back, -, tail⟩ := seg.middle
  cases xs with
  | nil =>
      simp only [List.getLast?_nil, Option.getD_none] at back
      rw [if_pos back]
      refine tail.repoint (List.nodup_cons.mp nodup).2 (fun y hy => ?_) fun y hy => ?_
      · rw [hn y hy, if_neg]
        rintro rfl
        rw [back] at hy
        exact outer (List.mem_append_right _ (List.mem_cons_of_mem _ hy))
      · rw [hp y hy, back]
  | cons x xs =>
      rw [if_neg]
      · exact seg.unlink_inner (by simp) nodup hn hp
      · intro same
        refine outer (List.mem_append_left _ (List.mem_of_getLast? ?_))
        rw [List.getLast?_cons] at back ⊢
        rw [← same, back]
        rfl

theorem Segment.unlink (seg : Segment next prev e h (xs ++ b :: ys) e)
    (nodup : (xs ++ b :: ys).Nodup)
    (hn : ∀ x ∈ xs ++ ys, next' x = if x = prev b then next b else next x)
    (hp : ∀ x ∈ xs ++ ys, prev' x = if x = next b then prev b else prev x) :
    Segment next' prev' e (if prev b = e then next b else h) (xs ++ ys) e :=
  seg.unlink_of_notMem seg.end_notMem nodup hn hp

end

end MallocLab.Memory
