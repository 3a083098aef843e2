import Mathlib.Order.Interval.Finset.Nat
import Mathlib.Algebra.BigOperators.Group.List.Basic
import Mathlib.Tactic

/-!
# Spans of bytes

A span is a run of consecutive addresses. Spans that share no byte take up no more room together than the
addresses they lie in.
-/

namespace MallocLab.Memory

structure Span where
  start : Nat
  size : Nat
  deriving DecidableEq, Repr

namespace Span

def finish (s : Span) : Nat := s.start + s.size

def Has (s : Span) (a : Nat) : Prop := s.start ≤ a ∧ a < s.finish

instance (s : Span) (a : Nat) : Decidable (s.Has a) := inferInstanceAs (Decidable (_ ∧ _))

def Apart (s t : Span) : Prop := ∀ a, s.Has a → ¬ t.Has a

def Encloses (s t : Span) : Prop := s.start ≤ t.start ∧ t.finish ≤ s.finish

instance (s t : Span) : Decidable (s.Encloses t) := inferInstanceAs (Decidable (_ ∧ _))

variable {s t : Span}

theorem Apart.symm (h : s.Apart t) : t.Apart s := fun a ht hs => h a hs ht

theorem has_start (pos : 0 < s.size) : s.Has s.start := by
  unfold Has finish
  omega

theorem has_last (pos : 0 < s.size) : s.Has (s.start + s.size - 1) := by
  unfold Has finish
  omega

theorem apart_of_le (h : s.finish ≤ t.start ∨ t.finish ≤ s.start) : s.Apart t := by
  intro a hs ht
  unfold Has at hs ht
  omega

theorem Apart.le (h : s.Apart t) (ps : 0 < s.size) (pt : 0 < t.size) :
    s.finish ≤ t.start ∨ t.finish ≤ s.start := by
  by_contra both
  have first := h (max s.start t.start)
  unfold Has finish at first
  unfold finish at both
  omega

/-- Spans overlap in one of three ways: an end of the first lies in the second, or the first encloses
the second. -/
theorem apart_iff_not_encloses (pt : 0 < t.size) (first : ¬ t.Has s.start)
    (last : ¬ t.Has (s.start + s.size - 1)) : s.Apart t ↔ ¬ s.Encloses t := by
  constructor
  · rintro apart ⟨low, high⟩
    exact apart t.start ⟨low, ((has_start pt).2).trans_le high⟩ (has_start pt)
  · intro not
    apply apart_of_le
    unfold Has finish at first last
    unfold Encloses finish at not
    unfold finish
    omega

def bytes (s : Span) : Finset Nat := Finset.Ico s.start s.finish

theorem mem_bytes {a : Nat} : a ∈ s.bytes ↔ s.Has a := Finset.mem_Ico

theorem card_bytes (s : Span) : s.bytes.card = s.size := by
  rw [bytes, Nat.card_Ico, finish, Nat.add_sub_cancel_left]

def covered : List Span → Finset Nat
  | [] => ∅
  | s :: spans => s.bytes ∪ covered spans

theorem mem_covered {spans : List Span} {a : Nat} : a ∈ covered spans ↔ ∃ s ∈ spans, s.Has a := by
  induction spans with
  | nil => simp [covered]
  | cons s spans ih => simp [covered, mem_bytes, ih]

theorem card_covered {spans : List Span} (apart : spans.Pairwise Apart) :
    (covered spans).card = (spans.map size).sum := by
  induction spans with
  | nil => rfl
  | cons s spans ih =>
    obtain ⟨head, tail⟩ := List.pairwise_cons.1 apart
    have disjoint : Disjoint s.bytes (covered spans) := by
      rw [Finset.disjoint_left]
      intro a mem memSpans
      obtain ⟨t, memT, has⟩ := mem_covered.1 memSpans
      exact head t memT a (mem_bytes.1 mem) has
    rw [covered, Finset.card_union_of_disjoint disjoint, card_bytes, ih tail]
    simp

theorem sum_sizes_le {spans : List Span} {lo hi : Nat} (apart : spans.Pairwise Apart)
    (inside : ∀ s ∈ spans, ∀ a, s.Has a → lo ≤ a ∧ a < hi) : (spans.map size).sum ≤ hi - lo := by
  rw [← card_covered apart, ← Nat.card_Ico]
  apply Finset.card_le_card
  intro a mem
  obtain ⟨s, memS, has⟩ := mem_covered.1 mem
  exact Finset.mem_Ico.2 (inside s memS a has)

end Span

end MallocLab.Memory
