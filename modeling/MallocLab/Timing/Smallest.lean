import Mathlib.Data.List.Basic
import Mathlib.Order.Defs.LinearOrder
import Mathlib.Tactic

/-!
# The smallest entries of a list

`Smallest kept all` says that `kept`, in ascending order, are the `kept.length` smallest entries of
`all`. It is kept up while entries are added to `all` one by one.
-/

namespace MallocLab.Timing

structure Smallest {α : Type*} [LinearOrder α] (kept all : List α) : Prop where
  sorted : kept.Pairwise (· ≤ ·)
  split : ∃ rest, all.Perm (kept ++ rest) ∧ ∀ x ∈ kept, ∀ y ∈ rest, x ≤ y

variable {α : Type*} [LinearOrder α] {kept kept' all : List α} {v w x : α}

theorem smallest_nil : Smallest ([] : List α) all :=
  ⟨List.Pairwise.nil, all, List.Perm.refl _, by simp⟩

theorem Smallest.add (old : Smallest kept all) (whole : kept.length = all.length)
    (perm : kept'.Perm (v :: kept)) (sorted : kept'.Pairwise (· ≤ ·)) : Smallest kept' (all ++ [v]) := by
  obtain ⟨rest, split, -⟩ := old.split
  have none : rest = [] := by
    have := split.length_eq
    rw [List.length_append] at this
    exact List.length_eq_zero_iff.mp (by omega)
  rw [none, List.append_nil] at split
  refine ⟨sorted, [], ?_, by simp⟩
  rw [List.append_nil]
  exact (List.perm_append_singleton v all).trans ((split.cons v).trans perm.symm)

theorem Smallest.replace (old : Smallest (kept ++ [w]) all) (below : v < w)
    (perm : kept'.Perm (v :: kept)) (sorted : kept'.Pairwise (· ≤ ·)) : Smallest kept' (all ++ [v]) := by
  obtain ⟨rest, split, apart⟩ := old.split
  have last := (List.pairwise_append.mp old.sorted).2.2
  refine ⟨sorted, w :: rest, ?_, fun x hx y hy => ?_⟩
  · calc all ++ [v]
      List.Perm _ (v :: all) := List.perm_append_singleton v all
      List.Perm _ (v :: (kept ++ [w] ++ rest)) := split.cons v
      List.Perm _ (kept' ++ w :: rest) := by simpa using perm.symm.append_right (w :: rest)
  · have bound : x ≤ w := by
      rcases List.mem_cons.mp (perm.subset hx) with rfl | hx
      · exact below.le
      · exact last x hx w (by simp)
    rcases List.mem_cons.mp hy with rfl | hy
    · exact bound
    · exact bound.trans (apart w (by simp) y hy)

theorem Smallest.skip (old : Smallest (kept ++ [w]) all) (above : w ≤ v) :
    Smallest (kept ++ [w]) (all ++ [v]) := by
  obtain ⟨rest, split, apart⟩ := old.split
  have last := (List.pairwise_append.mp old.sorted).2.2
  refine ⟨old.sorted, rest ++ [v], ?_, fun x hx y hy => ?_⟩
  · rw [← List.append_assoc]
    exact split.append_right [v]
  · rcases List.mem_append.mp hy with hy | hy
    · exact apart x hx y hy
    · rw [List.mem_singleton.mp hy]
      refine le_trans ?_ above
      rcases List.mem_append.mp hx with hx | hx
      · exact last x hx w (by simp)
      · exact (List.mem_singleton.mp hx).le

theorem Smallest.head_le (old : Smallest (x :: kept) all) : x ∈ all ∧ ∀ y ∈ all, x ≤ y := by
  obtain ⟨rest, split, apart⟩ := old.split
  refine ⟨split.symm.subset (by simp), fun y hy => ?_⟩
  rcases List.mem_append.mp (split.subset hy) with hy | hy
  · rcases List.mem_cons.mp hy with rfl | hy
    · exact le_rfl
    · exact (List.pairwise_cons.mp old.sorted).1 y hy
  · exact apart x (by simp) y hy

end MallocLab.Timing
