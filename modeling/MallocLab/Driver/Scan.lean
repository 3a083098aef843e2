import Mathlib.Data.List.Basic
import Mathlib.Tactic

/-!
# Scanning a text file

A file is the sequence of its words, the maximal runs of characters other than blanks. A conversion that
stops inside a word leaves the rest of that word as the next input. As in a 32-bit C library, `%d` clamps
its value to the range of `int` and `%u` to that of `unsigned`, and a sign is consumed also where no digit
follows it.
-/

namespace MallocLab.Driver

structure Word where
  first : Char
  rest : List Char
  deriving DecidableEq, Repr

def pushBack : List Char → List Word → List Word
  | [], words => words
  | c :: cs, words => ⟨c, cs⟩ :: words

structure Numeral where
  negative : Bool
  value : Nat
  deriving DecidableEq, Repr

def takeSign : List Char → Bool × List Char
  | '-' :: cs => (true, cs)
  | '+' :: cs => (false, cs)
  | cs => (false, cs)

def decimal (digits : List Char) : Nat :=
  digits.foldl (fun n c => 10 * n + (c.toNat - '0'.toNat)) 0

/-- The numeral at the front of the input, the rest of the word it stops in, and the words after that. -/
def scanNumeral : List Word → Option Numeral × List Char × List Word
  | [] => (none, [], [])
  | w :: words =>
    let (negative, cs) := takeSign (w.first :: w.rest)
    let digits := cs.takeWhile Char.isDigit
    let numeral := if digits = [] then none else some ⟨negative, decimal digits⟩
    (numeral, cs.dropWhile Char.isDigit, words)

def Numeral.toUnsigned (n : Numeral) : Nat :=
  if 2 ^ 32 ≤ n.value then 2 ^ 32 - 1
  else if n.negative then (2 ^ 32 - n.value) % 2 ^ 32 else n.value

def Numeral.toInt (n : Numeral) : Int :=
  if n.negative then max (-2 ^ 31) (-(n.value : Int)) else min (2 ^ 31 - 1) (n.value : Int)

/-- `fscanf(f, "%u", &old)`, with whether it assigned. -/
def scanU (words : List Word) (old : Nat) : Bool × Nat × List Word :=
  match scanNumeral words with
  | (some n, cs, words) => (true, n.toUnsigned, pushBack cs words)
  | (none, cs, words) => (false, old, pushBack cs words)

/-- `fscanf(f, "%u %u", &index, &size)`. -/
def scanUU (words : List Word) (index size : Nat) : Nat × Nat × List Word :=
  match scanU words index with
  | (true, index, words) => let (_, size, words) := scanU words size; (index, size, words)
  | (false, index, words) => (index, size, words)

/-- `fscanf(f, "%ud", &index)`: the `d` is taken only where it follows the last digit. -/
def scanUd (words : List Word) (index : Nat) : Nat × List Word :=
  match scanNumeral words with
  | (some n, 'd' :: cs, words) => (n.toUnsigned, pushBack cs words)
  | (some n, cs, words) => (n.toUnsigned, pushBack cs words)
  | (none, cs, words) => (index, pushBack cs words)

/-- `fscanf(f, "%d", &old)`. -/
def scanD (words : List Word) (old : Int) : Int × List Word :=
  match scanNumeral words with
  | (some n, cs, words) => (n.toInt, pushBack cs words)
  | (none, cs, words) => (old, pushBack cs words)

theorem pushBack_length (cs : List Char) (words : List Word) :
    (pushBack cs words).length ≤ words.length + 1 := by
  cases cs with
  | nil => exact Nat.le_succ _
  | cons c cs => exact le_refl _

theorem pushBack_tail (c : Char) (cs : List Char) (words : List Word) :
    (pushBack cs words).length ≤ (pushBack (c :: cs) words).length := pushBack_length cs words

theorem scanNumeral_length {words after : List Word} {numeral : Option Numeral} {cs : List Char}
    (h : scanNumeral words = (numeral, cs, after)) : (pushBack cs after).length ≤ words.length := by
  cases words with
  | nil =>
    cases h
    exact le_refl _
  | cons w words =>
    cases h
    exact pushBack_length _ _

theorem scanU_length (words : List Word) (old : Nat) :
    (scanU words old).2.2.length ≤ words.length := by
  unfold scanU
  split <;> exact scanNumeral_length ‹_›

theorem scanUU_length (words : List Word) (index size : Nat) :
    (scanUU words index size).2.2.length ≤ words.length := by
  have first := scanU_length words index
  unfold scanUU
  split
  · rename_i next left h
    rw [h] at first
    exact (scanU_length left size).trans first
  · rename_i next left h
    rw [h] at first
    exact first

theorem scanUd_length (words : List Word) (index : Nat) :
    (scanUd words index).2.length ≤ words.length := by
  unfold scanUd
  split
  · exact (pushBack_tail 'd' _ _).trans (scanNumeral_length ‹_›)
  · exact scanNumeral_length ‹_›
  · exact scanNumeral_length ‹_›

theorem Numeral.toUnsigned_lt (n : Numeral) : n.toUnsigned < 2 ^ 32 := by
  unfold Numeral.toUnsigned
  split
  · decide
  · split
    · exact Nat.mod_lt _ (by decide)
    · omega

theorem scanU_lt (words : List Word) {old : Nat} (h : old < 2 ^ 32) : (scanU words old).2.1 < 2 ^ 32 := by
  unfold scanU
  split
  · exact Numeral.toUnsigned_lt _
  · exact h

theorem scanUU_index_lt (words : List Word) {index : Nat} (size : Nat) (h : index < 2 ^ 32) :
    (scanUU words index size).1 < 2 ^ 32 := by
  have first := scanU_lt words h
  unfold scanUU
  split <;> rename_i e <;> rw [e] at first <;> exact first

theorem scanUd_index_lt (words : List Word) {index : Nat} (h : index < 2 ^ 32) :
    (scanUd words index).1 < 2 ^ 32 := by
  unfold scanUd
  split
  · exact Numeral.toUnsigned_lt _
  · exact Numeral.toUnsigned_lt _
  · exact h

end MallocLab.Driver
