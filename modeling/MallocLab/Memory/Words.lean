import Mathlib.Data.Nat.Bitwise
import Mathlib.Tactic

/-!
# Byte memory and little-endian words

Memory is a total map from addresses to bytes. A word is four consecutive bytes, least
significant first. Nothing here mentions a program: the allocators and the driver share it.
-/

namespace MallocLab.Memory

abbrev Byte := BitVec 8
abbrev Mem := Nat → Byte

def word (m : Mem) (p : Nat) : Nat :=
  (m p).toNat + 2 ^ 8 * (m (p + 1)).toNat + 2 ^ 16 * (m (p + 2)).toNat +
    2 ^ 24 * (m (p + 3)).toNat

/-- Store the low 32 bits of `v` at `p`. -/
def setWord (m : Mem) (p : Nat) (v : Nat) : Mem := fun a =>
  if p ≤ a ∧ a < p + 4 then BitVec.ofNat 8 (v / 2 ^ (8 * (a - p))) else m a

def fill (m : Mem) (p : Nat) (b : Byte) (n : Nat) : Mem := fun a =>
  if p ≤ a ∧ a < p + n then b else m a

def copy (m : Mem) (dst src : Nat) (n : Nat) : Mem := fun a =>
  if dst ≤ a ∧ a < dst + n then m (src + (a - dst)) else m a

/-- Memory that holds the words `ws` from `base` on and zeros elsewhere. -/
def ofWords (base : Nat) (ws : List Nat) : Mem := fun a =>
  if base ≤ a then BitVec.ofNat 8 (ws.getD ((a - base) / 4) 0 / 2 ^ (8 * ((a - base) % 4))) else 0

/-! ## Unsigned and signed 32-bit arithmetic -/

def add32 (a b : Nat) : Nat := (a + b) % 2 ^ 32

def sub32 (a b : Nat) : Nat := (a + 2 ^ 32 - b) % 2 ^ 32

def mul32 (a b : Nat) : Nat := (a * b) % 2 ^ 32

def toInt32 (n : Nat) : Int :=
  if n % 2 ^ 32 < 2 ^ 31 then (n % 2 ^ 32 : Nat) else (n % 2 ^ 32 : Nat) - 2 ^ 32

/-- The negation of a signed value, which leaves the least one as it is. -/
def neg32 (i : Int) : Int := (-i).bmod (2 ^ 32)

theorem add32_eq {a b : Nat} (h : a + b < 2 ^ 32) : add32 a b = a + b := Nat.mod_eq_of_lt h

theorem sub32_eq {a b : Nat} (ha : a < 2 ^ 32) (h : b ≤ a) : sub32 a b = a - b := by
  unfold sub32
  omega

theorem mul32_eq {a b : Nat} (h : a * b < 2 ^ 32) : mul32 a b = a * b := Nat.mod_eq_of_lt h

theorem toInt32_eq {n : Nat} (h : n < 2 ^ 31) : toInt32 n = n := by
  unfold toInt32
  rw [Nat.mod_eq_of_lt (by omega), if_pos h]

theorem toInt32_neg {n : Nat} (h : 2 ^ 31 ≤ n) (h' : n < 2 ^ 32) : toInt32 n < 0 := by
  unfold toInt32
  rw [Nat.mod_eq_of_lt h', if_neg (by omega)]
  omega

/-- The signed difference of two unsigned values, which is off by `2 ^ 32` when it is too low. -/
theorem toInt32_sub32 {a w : Nat} (ha : a < 2 ^ 31) (hw : w < 2 ^ 32) :
    toInt32 (sub32 a w) = if a + 2 ^ 31 < w then (a : Int) - w + 2 ^ 32 else (a : Int) - w := by
  unfold toInt32 sub32
  split <;> split <;> omega

theorem neg32_eq {i : Int} (low : -2 ^ 31 < i) (high : i < 2 ^ 31) : neg32 i = -i := by
  unfold neg32
  rw [Int.bmod_def]
  split <;> omega

theorem neg32_least : neg32 (-2 ^ 31) = -2 ^ 31 := by decide

/-! ## Reading back -/

theorem word_lt (m : Mem) (p : Nat) : word m p < 2 ^ 32 := by
  have h0 := (m p).isLt
  have h1 := (m (p + 1)).isLt
  have h2 := (m (p + 2)).isLt
  have h3 := (m (p + 3)).isLt
  unfold word
  omega

theorem word_congr {m m' : Mem} {p : Nat} (h : ∀ a, p ≤ a → a < p + 4 → m' a = m a) :
    word m' p = word m p := by
  unfold word
  rw [h p (by omega) (by omega), h (p + 1) (by omega) (by omega), h (p + 2) (by omega) (by omega),
    h (p + 3) (by omega) (by omega)]

theorem setWord_of_outside {m : Mem} {p a : Nat} {v : Nat} (h : a < p ∨ p + 4 ≤ a) :
    setWord m p v a = m a := by
  unfold setWord
  rw [if_neg (by omega)]

theorem word_setWord_self (m : Mem) (p : Nat) {v : Nat} (hv : v < 2 ^ 32) :
    word (setWord m p v) p = v := by
  simp only [word, setWord]
  rw [if_pos (by omega), if_pos (by omega), if_pos (by omega), if_pos (by omega)]
  simp only [BitVec.toNat_ofNat]
  norm_num
  omega

theorem word_setWord_of_apart {m : Mem} {p q : Nat} {v : Nat} (h : p + 4 ≤ q ∨ q + 4 ≤ p) :
    word (setWord m p v) q = word m q :=
  word_congr fun _ _ _ => setWord_of_outside (by omega)

theorem fill_of_outside {m : Mem} {p a : Nat} {b : Byte} {n : Nat} (h : a < p ∨ p + n ≤ a) :
    fill m p b n a = m a := by
  unfold fill
  rw [if_neg (by omega)]

theorem fill_inside {m : Mem} {p a : Nat} {b : Byte} {n : Nat} (h : p ≤ a) (h' : a < p + n) :
    fill m p b n a = b := by
  unfold fill
  rw [if_pos ⟨h, h'⟩]

theorem copy_of_outside {m : Mem} {dst src a : Nat} {n : Nat} (h : a < dst ∨ dst + n ≤ a) :
    copy m dst src n a = m a := by
  unfold copy
  rw [if_neg (by omega)]

theorem copy_inside {m : Mem} {dst src : Nat} {n i : Nat} (h : i < n) :
    copy m dst src n (dst + i) = m (src + i) := by
  unfold copy
  rw [if_pos (by omega), Nat.add_sub_cancel_left]

/-! ## Masks of a 32-bit word -/

theorem and_mask8 {w : Nat} (hw : w < 2 ^ 32) : w &&& 0xFFFFFFF8 = w / 8 * 8 := by
  apply Nat.eq_of_testBit_eq
  intro i
  have hm : (0xFFFFFFF8 : Nat) = 2 ^ 3 * (2 ^ 29 - 1) := by norm_num
  rw [Nat.testBit_and, hm, Nat.testBit_two_pow_mul, Nat.testBit_two_pow_sub_one,
    show w / 8 * 8 = 2 ^ 3 * (w / 2 ^ 3) by omega, Nat.testBit_two_pow_mul,
    Nat.testBit_div_two_pow]
  by_cases low : 3 ≤ i
  · by_cases high : i < 32
    · simp [low, show i - 3 < 29 by omega]
    · have : w.testBit i = false :=
        Nat.testBit_lt_two_pow (hw.trans_le (Nat.pow_le_pow_right (by omega) (by omega)))
      simp [low, this]
  · simp [low]

theorem and_two (w : Nat) : w &&& 2 = w / 2 % 2 * 2 := by
  apply Nat.eq_of_testBit_eq
  intro i
  rw [Nat.testBit_and, show (2 : Nat) = 2 ^ 1 by norm_num, Nat.testBit_two_pow]
  rcases i with _ | _ | i
  · simp [Nat.testBit_zero]
  · simp [Nat.testBit_succ, Nat.testBit_zero]
  · have : w / 2 % 2 * 2 < 2 ^ (i + 2) := by
      have := Nat.pow_le_pow_right (n := 2) (show 0 < 2 by omega) (show 2 ≤ i + 2 by omega)
      omega
    simp [Nat.testBit_lt_two_pow this]

theorem or_two (w : Nat) : w ||| 2 = w / 4 * 4 + w % 2 + 2 := by
  apply Nat.eq_of_testBit_eq
  intro i
  have hr : w / 4 * 4 + w % 2 + 2 = 2 ^ 2 * (w / 2 ^ 2) + (w % 2 + 2) := by omega
  rw [Nat.testBit_or, hr, Nat.testBit_two_pow_mul_add _ (show w % 2 + 2 < 2 ^ 2 by omega),
    Nat.testBit_div_two_pow]
  rcases i with _ | _ | i
  · simp [Nat.testBit_zero]
  · simp [Nat.testBit_succ, Nat.testBit_zero]
  · have : Nat.testBit 2 (i + 2) = false := by
      rw [Nat.testBit_succ, Nat.testBit_succ]
      simp
    simp [this]

theorem and_mask2 {w : Nat} (hw : w < 2 ^ 32) : w &&& 0xFFFFFFFD = w / 4 * 4 + w % 2 := by
  apply Nat.eq_of_testBit_eq
  intro i
  have hm : (0xFFFFFFFD : Nat) = 2 ^ 2 * (2 ^ 30 - 1) + 1 := by norm_num
  have hr : w / 4 * 4 + w % 2 = 2 ^ 2 * (w / 2 ^ 2) + w % 2 := by omega
  rw [Nat.testBit_and, hm, hr, Nat.testBit_two_pow_mul_add _ (show 1 < 2 ^ 2 by norm_num),
    Nat.testBit_two_pow_mul_add _ (show w % 2 < 2 ^ 2 by omega), Nat.testBit_two_pow_sub_one,
    Nat.testBit_div_two_pow]
  rcases i with _ | _ | i
  · simp [Nat.testBit_zero]
  · simp [Nat.testBit_succ, Nat.testBit_zero]
  · by_cases high : i < 30
    · simp [high]
    · have : w.testBit (i + 2) = false :=
        Nat.testBit_lt_two_pow (hw.trans_le (Nat.pow_le_pow_right (by omega) (by omega)))
      simp [this]

theorem or_eq_add {size flag : Nat} (hs : size % 8 = 0) (hf : flag < 8) :
    size ||| flag = size + flag := by
  have h := Nat.two_pow_add_eq_or_of_lt (i := 3) hf (size / 8)
  rw [show 2 ^ 3 * (size / 8) = size by omega] at h
  exact h.symm

end MallocLab.Memory
