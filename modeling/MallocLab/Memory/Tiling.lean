import Mathlib.Data.List.Basic
import Mathlib.Tactic

/-!
# Lists laid out one after another

`placed size a bs` gives every item of `bs` the position at which it starts when the items are
laid out from `a` on without gaps. The items and their size are parameters.
-/

namespace MallocLab.Memory

variable {β : Type*} (size : β → Nat)

def extent : List β → Nat
  | [] => 0
  | b :: bs => size b + extent bs

def placed : Nat → List β → List (Nat × β)
  | _, [] => []
  | a, b :: bs => (a, b) :: placed (a + size b) bs

@[simp] theorem extent_nil : extent size [] = 0 := rfl

@[simp] theorem extent_cons (b : β) (bs : List β) :
    extent size (b :: bs) = size b + extent size bs := rfl

@[simp] theorem extent_append (bs cs : List β) :
    extent size (bs ++ cs) = extent size bs + extent size cs := by
  induction bs with
  | nil => simp
  | cons b bs ih => simp [ih, Nat.add_assoc]

@[simp] theorem placed_nil (a : Nat) : placed size a [] = [] := rfl

@[simp] theorem placed_cons (a : Nat) (b : β) (bs : List β) :
    placed size a (b :: bs) = (a, b) :: placed size (a + size b) bs := rfl

@[simp] theorem placed_append (a : Nat) (bs cs : List β) :
    placed size a (bs ++ cs) = placed size a bs ++ placed size (a + extent size bs) cs := by
  induction bs generalizing a with
  | nil => simp
  | cons b bs ih => simp [ih, Nat.add_assoc]

@[simp] theorem map_snd_placed (a : Nat) (bs : List β) :
    (placed size a bs).map Prod.snd = bs := by
  induction bs generalizing a with
  | nil => rfl
  | cons b bs ih => simp [ih]

variable {size}

theorem mem_placed {a x : Nat} {b : β} {bs : List β} :
    (x, b) ∈ placed size a bs ↔ ∃ pre post, bs = pre ++ b :: post ∧ x = a + extent size pre := by
  constructor
  · intro h
    induction bs generalizing a with
    | nil => simp at h
    | cons c bs ih =>
        rcases List.mem_cons.mp h with h | h
        · obtain ⟨rfl, rfl⟩ := Prod.mk.inj h
          exact ⟨[], bs, rfl, rfl⟩
        · obtain ⟨pre, post, rfl, rfl⟩ := ih h
          exact ⟨c :: pre, post, rfl, by simp [Nat.add_assoc]⟩
  · rintro ⟨pre, post, rfl, rfl⟩
    simp

theorem placed_mem {a x : Nat} {b : β} {bs : List β} (h : (x, b) ∈ placed size a bs) : b ∈ bs := by
  obtain ⟨pre, post, rfl, -⟩ := mem_placed.mp h
  simp

theorem placed_bounds {a x : Nat} {b : β} {bs : List β} (h : (x, b) ∈ placed size a bs) :
    a ≤ x ∧ x + size b ≤ a + extent size bs := by
  obtain ⟨pre, post, rfl, rfl⟩ := mem_placed.mp h
  simp only [extent_append, extent_cons]
  omega

theorem placed_apart {a x y : Nat} {b c : β} {bs : List β} (hb : (x, b) ∈ placed size a bs)
    (hc : (y, c) ∈ placed size a bs) :
    (x = y ∧ b = c) ∨ x + size b ≤ y ∨ y + size c ≤ x := by
  induction bs generalizing a with
  | nil => simp at hb
  | cons d bs ih =>
      simp only [placed_cons, List.mem_cons, Prod.mk.injEq] at hb hc
      rcases hb with ⟨rfl, rfl⟩ | hb <;> rcases hc with ⟨rfl, rfl⟩ | hc
      · exact Or.inl ⟨rfl, rfl⟩
      · exact Or.inr (Or.inl (placed_bounds hc).1)
      · exact Or.inr (Or.inr (placed_bounds hb).1)
      · exact ih hb hc

theorem placed_pairwise {a : Nat} {bs : List β} :
    (placed size a bs).Pairwise fun e f => e.1 + size e.2 ≤ f.1 := by
  induction bs generalizing a with
  | nil => simp
  | cons b bs ih =>
      rw [placed_cons, List.pairwise_cons]
      exact ⟨fun f hf => (placed_bounds hf).1, ih⟩

theorem placed_unique {a x : Nat} {b c : β} {bs : List β} (pos : ∀ d ∈ bs, 0 < size d)
    (hb : (x, b) ∈ placed size a bs) (hc : (x, c) ∈ placed size a bs) : b = c := by
  have hpb := pos b (placed_mem hb)
  have hpc := pos c (placed_mem hc)
  rcases placed_apart hb hc with ⟨-, h⟩ | h | h
  · exact h
  · omega
  · omega

theorem placed_nodup {a : Nat} {bs : List β} (pos : ∀ d ∈ bs, 0 < size d) :
    ((placed size a bs).map Prod.fst).Nodup := by
  induction bs generalizing a with
  | nil => simp
  | cons b bs ih =>
      simp only [placed_cons, List.map_cons, List.nodup_cons, List.mem_map, Prod.exists,
        exists_and_right, exists_eq_right, not_exists]
      refine ⟨fun c hc => ?_, ih fun d hd => pos d (by simp [hd])⟩
      have := (placed_bounds hc).1
      have := pos b (by simp)
      omega

end MallocLab.Memory
