import MallocLab.Memlib

/-!
# Runs of the simulated memory system

The break stays inside its area as long as no accepted increment wraps around the address space.
-/

namespace MallocLab
open Memory

inductive MemCall
  | sbrk (incr : Int)
  | resetBrk
  deriving DecidableEq, Repr

def MemCall.exec (s : MemLib) : MemCall → MemLib
  | .sbrk incr => (memSbrk s incr).2
  | .resetBrk => memResetBrk s

def MemCall.Word : MemCall → Prop
  | .sbrk incr => -2 ^ 31 ≤ incr ∧ incr < 2 ^ 31
  | .resetBrk => True

/-- The call does what it promises: `mem_sbrk` refuses with -1 and changes nothing, or returns the
old break and raises it by exactly the increment. Only a reset lowers the break. -/
def MemCall.Honest (s : MemLib) : MemCall → Prop
  | .sbrk incr => (memSbrk s incr = (minusOne, s) ∨
      0 ≤ incr ∧ memSbrk s incr = (s.memBrk, { s with memBrk := s.memBrk + incr.toNat })) ∧
      s.memBrk ≤ (memSbrk s incr).2.memBrk
  | .resetBrk => True

/-- An increment that `mem_sbrk` accepts although the sum leaves the address space. -/
def MemCall.Wraps (s : MemLib) : MemCall → Prop
  | .sbrk incr => ¬ sbrkRefuses s incr ∧ 2 ^ 32 ≤ s.memBrk + incr
  | .resetBrk => False

/-- The break is inside the area before and after every call, and every call is honest. -/
def StaysInside (s : MemLib) : List MemCall → Prop
  | [] => s.memStartBrk ≤ s.memBrk ∧ s.memBrk ≤ s.memMaxAddr
  | call :: calls => (s.memStartBrk ≤ s.memBrk ∧ s.memBrk ≤ s.memMaxAddr) ∧ call.Honest s ∧
      StaysInside (call.exec s) calls

instance : (call : MemCall) → Decidable call.Word
  | .sbrk _ => inferInstanceAs (Decidable (_ ∧ _))
  | .resetBrk => inferInstanceAs (Decidable True)

instance (s : MemLib) : (call : MemCall) → Decidable (call.Wraps s)
  | .sbrk _ => inferInstanceAs (Decidable (_ ∧ _))
  | .resetBrk => inferInstanceAs (Decidable False)

def NeverWraps (s : MemLib) : List MemCall → Prop
  | [] => True
  | call :: calls => ¬ call.Wraps s ∧ NeverWraps (call.exec s) calls

instance NeverWraps.decidable : (s : MemLib) → (calls : List MemCall) → Decidable (NeverWraps s calls)
  | _, [] => inferInstanceAs (Decidable True)
  | s, call :: calls =>
      have := NeverWraps.decidable (call.exec s) calls
      inferInstanceAs (Decidable (¬ call.Wraps s ∧ NeverWraps (call.exec s) calls))

section
variable {s : MemLib} {calls : List MemCall} {call : MemCall}

theorem MemCall.exec_inside (low : s.memStartBrk ≤ s.memBrk) (high : s.memBrk ≤ s.memMaxAddr)
    (space : s.memMaxAddr < 2 ^ 32) (fine : ¬ call.Wraps s) :
    call.Honest s ∧ (call.exec s).memStartBrk = s.memStartBrk ∧
      (call.exec s).memMaxAddr = s.memMaxAddr ∧ s.memStartBrk ≤ (call.exec s).memBrk ∧
      (call.exec s).memBrk ≤ s.memMaxAddr := by
  cases call with
  | resetBrk => exact ⟨trivial, rfl, rfl, le_refl _, low.trans high⟩
  | sbrk incr =>
      by_cases refused : sbrkRefuses s incr
      · have same := memSbrk_refused refused
        simp only [Honest, exec, same]
        exact ⟨⟨Or.inl trivial, le_refl _⟩, trivial, trivial, low, high⟩
      · have accepted := refused
        simp only [sbrkRefuses, not_or, not_lt] at accepted
        have wrap : s.memBrk + incr < 2 ^ 32 := by
          by_contra wrap
          exact fine ⟨refused, by omega⟩
        have nat : (incr.toNat : Int) = incr := Int.toNat_of_nonneg accepted.1
        rw [← nat] at refused
        have moved := memSbrk_accepted refused (by omega)
        rw [nat] at moved
        simp only [Honest, exec, moved]
        exact ⟨⟨Or.inr ⟨accepted.1, trivial⟩, by omega⟩, trivial, trivial, by omega, by omega⟩

theorem MemCall.Wraps.not_honest (wraps : call.Wraps s) (word : call.Word)
    (space : s.memBrk < 2 ^ 32) : ¬ call.Honest s := by
  cases call with
  | resetBrk => cases wraps
  | sbrk incr =>
      obtain ⟨accepted, beyond⟩ := wraps
      have fallen : (memSbrk s incr).2.memBrk < s.memBrk := by
        rw [memSbrk, if_neg accepted]
        simp only [Word] at word
        simp only
        omega
      intro honest
      exact absurd honest.2 (by omega)

theorem stays_inside_iff (low : s.memStartBrk ≤ s.memBrk) (high : s.memBrk ≤ s.memMaxAddr)
    (space : s.memMaxAddr < 2 ^ 32) (words : ∀ call ∈ calls, call.Word) :
    StaysInside s calls ↔ NeverWraps s calls := by
  induction calls generalizing s with
  | nil => exact ⟨fun _ => trivial, fun _ => ⟨low, high⟩⟩
  | cons call calls ih =>
      have word := words call (by simp)
      by_cases wraps : call.Wraps s
      · have not := wraps.not_honest word (by omega)
        exact ⟨fun inside => absurd inside.2.1 not, fun never => absurd wraps never.1⟩
      · obtain ⟨honest, start, max, low', high'⟩ := call.exec_inside low high space wraps
        have rest := ih (s := call.exec s) (by omega) (by omega) (by omega) fun c hc =>
          words c (by simp [hc])
        exact ⟨fun inside => ⟨wraps, rest.mp inside.2.2⟩,
          fun never => ⟨⟨low, high⟩, honest, rest.mpr never.2⟩⟩

end

/-- After `mem_init` the break stays inside exactly in the runs in which no accepted increment
wraps, on an area that ends below the end of the address space. -/
theorem break_inside_iff {mem : Mem} {area : Nat} {calls : List MemCall}
    (fits : area + maxHeap ≤ 2 ^ 32) (words : ∀ call ∈ calls, call.Word) :
    StaysInside (memInit mem area) calls ↔
      area + maxHeap < 2 ^ 32 ∧ NeverWraps (memInit mem area) calls := by
  have large := maxHeap_eq
  rcases Nat.lt_or_ge (area + maxHeap) (2 ^ 32) with below | above
  · have max : (memInit mem area).memMaxAddr = area + maxHeap := Nat.mod_eq_of_lt below
    rw [stays_inside_iff (le_refl _) (by rw [max]; exact Nat.le_add_right _ _) (by omega) words]
    exact ⟨fun never => ⟨below, never⟩, And.right⟩
  · -- the end of the area is the null pointer
    have max : (memInit mem area).memMaxAddr = 0 := by
      rw [show area = 2 ^ 32 - maxHeap by omega]
      rfl
    refine ⟨fun inside => ?_, fun never => by omega⟩
    have high : area ≤ (memInit mem area).memMaxAddr := by
      cases calls with
      | nil => exact inside.2
      | cons call calls => exact inside.1.2
    omega

theorem break_inside_iff_low :
    StaysInside (memInit (fun _ => 0) 4096) [.sbrk 16, .sbrk 4096, .resetBrk, .sbrk (-1)] :=
  (break_inside_iff (by decide) (by decide)).mpr ⟨by decide, by decide⟩

theorem break_falls_high :
    ¬ StaysInside (memInit (fun _ => 0) 0xF6000000) [.sbrk 200000000] := by
  rintro ⟨-, honest, -⟩
  refine MemCall.Wraps.not_honest ?_ ?_ ?_ honest
  all_goals decide

end MallocLab
