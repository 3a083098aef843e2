import MallocLab.Timing.Smallest

/-!
# The K-best sampler (fcyc.c)

The samples are the entries of any linear order. What `has_converged` compares in floating point is a
parameter, as are the readings of the cycle counters. `samplecount` is a natural number: `fcyc` takes no
more than `maxsamples` samples, an `int`, and at least one.
-/

namespace MallocLab.Timing

structure Sampler (α : Type*) (kbest : Nat) where
  values : Vector α kbest
  samplecount : Nat

variable {α : Type*} {kbest : Nat}

section
variable {v x : α} {pre tail : List α} {values : Vector α kbest}

theorem getElem_of_split (split : values.toList = pre ++ x :: tail) (h : pre.length < kbest) :
    values[pre.length] = x := by
  have inside : pre.length < values.toList.length := by simpa using h
  rw [← Vector.getElem_toList inside]
  simp [split]

theorem swap_toList (split : values.toList = pre ++ x :: v :: tail) (h : pre.length + 1 < kbest) :
    (values.swap pre.length (pre.length + 1)).toList = pre ++ v :: x :: tail := by
  have first : values[pre.length] = x := getElem_of_split split (by omega)
  have second : values[pre.length + 1] = v := by
    have inner : values.toList = (pre ++ [x]) ++ v :: tail := by simpa using split
    simpa using getElem_of_split inner (by simpa using h)
  rw [Vector.toList_swap, first, second, split]
  simp

theorem set_toList {pos : Nat} (h : pos < kbest) :
    (values.set pos v).toList = values.toList.take pos ++ v :: values.toList.drop (pos + 1) := by
  rw [Vector.toList_set, List.set_eq_take_append_cons_drop, if_pos (by simpa using h)]

end

variable [LinearOrder α]

def initSampler (zero : α) : Sampler α kbest := ⟨Vector.replicate kbest zero, 0⟩

def insertionSort (values : Vector α kbest) : (pos : Nat) → pos < kbest → Vector α kbest
  | 0, _ => values
  | pos + 1, h =>
      if values[pos] > values[pos + 1] then insertionSort (values.swap pos (pos + 1)) pos (by omega)
      else values

def addSample (hk : 0 < kbest) (s : Sampler α kbest) (val : α) : Sampler α kbest where
  values :=
    if h : s.samplecount < kbest then
      insertionSort (s.values.set s.samplecount val) s.samplecount h
    else if val < s.values[kbest - 1] then
      insertionSort (s.values.set (kbest - 1) val) (kbest - 1) (by omega)
    else insertionSort s.values 0 hk
  samplecount := s.samplecount + 1

/-- `near` is the comparison of the first with the last value. -/
def hasConverged (hk : 0 < kbest) (near : α → α → Bool) (s : Sampler α kbest) : Bool :=
  s.samplecount ≥ kbest && near s.values[0] s.values[kbest - 1]

/-- The loops of `fcyc`, where the reading taken after `i` samples is `cyc i`. -/
def sample (hk : 0 < kbest) (near : α → α → Bool) (maxsamples : Int) (cyc : Nat → α)
    (s : Sampler α kbest) : Sampler α kbest :=
  let s' := addSample hk s (cyc s.samplecount)
  if !hasConverged hk near s' ∧ s'.samplecount < maxsamples then sample hk near maxsamples cyc s' else s'
termination_by (maxsamples - s.samplecount).toNat
decreasing_by
  rename_i more
  have := more.2
  simp only [s', addSample] at this ⊢
  omega

def fcyc (hk : 0 < kbest) (zero : α) (near : α → α → Bool) (maxsamples : Int) (compensate : Bool)
    (getCompCounter getCounter : Nat → α) : α :=
  if compensate then (sample hk near maxsamples getCompCounter (initSampler zero)).values[0]
  else (sample hk near maxsamples getCounter (initSampler zero)).values[0]

section
variable {hk : 0 < kbest} {v x : α} {pre tail samples : List α} {values : Vector α kbest} {s : Sampler α kbest}

theorem insertionSort_spec {pos : Nat} (split : values.toList = pre ++ v :: tail)
    (place : pre.length = pos) (h : pos < kbest) (sorted : pre.Pairwise (· ≤ ·)) :
    ∃ kept, (insertionSort values pos h).toList = kept ++ tail ∧ kept.Perm (v :: pre) ∧
      kept.Pairwise (· ≤ ·) := by
  subst place
  induction pre using List.reverseRecOn generalizing values v tail with
  | nil => exact ⟨[v], by simpa [insertionSort] using split, List.Perm.refl _, by simp⟩
  | append_singleton pre x ih =>
      obtain ⟨front, -, last⟩ := List.pairwise_append.mp sorted
      have inner : values.toList = pre ++ x :: v :: tail := by simpa using split
      have long : pre.length + 1 < kbest := by simpa using h
      have first : values[pre.length] = x := getElem_of_split inner (by omega)
      have second : values[pre.length + 1] = v := by simpa using getElem_of_split split h
      simp only [List.length_append, List.length_singleton, insertionSort, first, second]
      split_ifs with greater
      · obtain ⟨kept, result, perm, order⟩ := ih (swap_toList inner long) front (by omega)
        refine ⟨kept ++ [x], by simpa using result, ?_, ?_⟩
        · calc kept ++ [x]
            List.Perm _ ((v :: pre) ++ [x]) := perm.append_right [x]
            List.Perm _ (v :: (pre ++ [x])) := List.Perm.refl _
        · refine List.pairwise_append.mpr ⟨order, by simp, fun a ha b hb => ?_⟩
          rw [List.mem_singleton.mp hb]
          rcases List.mem_cons.mp (perm.subset ha) with rfl | ha
          · exact greater.le
          · exact last a ha x (by simp)
      · refine ⟨pre ++ [x] ++ [v], by simpa using split, List.perm_append_singleton v (pre ++ [x]), ?_⟩
        refine List.pairwise_append.mpr ⟨sorted, by simp, fun a ha b hb => ?_⟩
        rw [List.mem_singleton.mp hb]
        have bound : x ≤ v := not_lt.mp greater
        rcases List.mem_append.mp ha with ha | ha
        · exact (last a ha x (by simp)).trans bound
        · exact (List.mem_singleton.mp ha).trans_le bound

/-- The first `min (samplecount, kbest)` values are the smallest samples. -/
structure Sampled (s : Sampler α kbest) (samples : List α) : Prop where
  count : s.samplecount = samples.length
  kept : Smallest (s.values.toList.take (min samples.length kbest)) samples

theorem sampled_init (zero : α) : Sampled (initSampler zero : Sampler α kbest) [] :=
  ⟨rfl, by simpa using smallest_nil⟩

theorem insertionSort_set {pos : Nat} (h : pos < kbest) (val : α)
    (sorted : (values.toList.take pos).Pairwise (· ≤ ·)) :
    let kept := (insertionSort (values.set pos val) pos h).toList.take (pos + 1)
    kept.Perm (val :: values.toList.take pos) ∧ kept.Pairwise (· ≤ ·) := by
  have front : (values.toList.take pos).length = pos := by simp; omega
  obtain ⟨kept, result, perm, order⟩ := insertionSort_spec (set_toList (v := val) h) front h sorted
  have length : kept.length = pos + 1 := by rw [perm.length_eq, List.length_cons, front]
  rw [result, ← length, List.take_left]
  exact ⟨perm, order⟩

theorem addSample_sampled (old : Sampled s samples) (val : α) :
    Sampled (addSample hk s val) (samples ++ [val]) := by
  obtain ⟨count, kept⟩ := old
  have length : s.values.toList.length = kbest := Vector.length_toList
  refine ⟨by simp [addSample, count], ?_⟩
  rw [List.length_append, List.length_singleton]
  unfold addSample
  split_ifs with room below
  · -- there is room for one more value
    rw [← count] at kept ⊢
    rw [Nat.min_eq_left (by omega)] at kept ⊢
    obtain ⟨perm, order⟩ := insertionSort_set room val kept.sorted
    exact kept.add (by simp [count]; omega) perm order
  all_goals
    have whole : s.values.toList.take kbest = s.values.toList.take (kbest - 1) ++ [s.values[kbest - 1]] := by
      have inside : kbest - 1 < s.values.toList.length := by omega
      have last := List.take_append_getElem inside
      rw [Vector.getElem_toList, Nat.sub_add_cancel hk] at last
      exact last.symm
    rw [Nat.min_eq_right (by omega), whole] at kept
    rw [Nat.min_eq_right (by omega)]
  · have front := (List.pairwise_append.mp kept.sorted).1
    obtain ⟨perm, order⟩ := insertionSort_set (show kbest - 1 < kbest by omega) val front
    rw [Nat.sub_add_cancel hk] at perm order
    exact kept.replace below perm order
  · rw [insertionSort, whole]
    exact kept.skip (not_lt.mp below)

theorem foldl_sampled (old : Sampled s samples) (more : List α) :
    Sampled (more.foldl (addSample hk) s) (samples ++ more) := by
  induction more generalizing s samples with
  | nil => simpa using old
  | cons v more ih => simpa using ih (addSample_sampled old v)

variable {near : α → α → Bool} {maxsamples : Int} {cyc : Nat → α}

theorem addSample_reading (old : Sampled s ((List.range s.samplecount).map cyc)) :
    Sampled (addSample hk s (cyc s.samplecount))
      ((List.range (addSample hk s (cyc s.samplecount)).samplecount).map cyc) := by
  simpa [addSample, List.range_succ] using addSample_sampled old (cyc s.samplecount)

theorem sample_sampled (old : Sampled s ((List.range s.samplecount).map cyc)) :
    0 < (sample hk near maxsamples cyc s).samplecount ∧
      Sampled (sample hk near maxsamples cyc s)
        ((List.range (sample hk near maxsamples cyc s).samplecount).map cyc) := by
  fun_induction sample hk near maxsamples cyc s with
  | case1 s s' more ih => exact ih (addSample_reading old)
  | case2 s s' stop => exact ⟨Nat.succ_pos _, addSample_reading old⟩

theorem Sampled.least (hk : 0 < kbest) (done : Sampled s ((List.range s.samplecount).map cyc))
    (pos : 0 < s.samplecount) : IsLeast {v | ∃ i < s.samplecount, cyc i = v} s.values[0] := by
  have length : s.values.toList.length = kbest := Vector.length_toList
  obtain ⟨x, rest, split⟩ := List.exists_cons_of_length_pos (show 0 < s.values.toList.length by omega)
  have first : s.values[0] = x := getElem_of_split (show s.values.toList = [] ++ x :: rest from split) hk
  obtain ⟨m, more⟩ : ∃ m, min ((List.range s.samplecount).map cyc).length kbest = m + 1 :=
    ⟨min s.samplecount kbest - 1, by simp; omega⟩
  have kept := done.kept
  rw [more, split, List.take_succ_cons] at kept
  obtain ⟨member, least⟩ := kept.head_le
  rw [first]
  constructor
  · simpa using member
  · rintro v ⟨i, taken, rfl⟩
    exact least _ (List.mem_map_of_mem (List.mem_range.mpr taken))

/-- Whatever is sampled, the first `min (n, kbest)` values are the smallest of the `n` samples in
ascending order, and `fcyc` returns the least sample it has taken. -/
theorem keeps_smallest (hk : 0 < kbest) (zero : α) :
    (∀ samples : List α,
      let values := (samples.foldl (addSample hk) (initSampler zero)).values
      (values.toList.take (min samples.length kbest)).length = min samples.length kbest ∧
        Smallest (values.toList.take (min samples.length kbest)) samples) ∧
    ∀ near maxsamples compensate getCompCounter getCounter,
      let cyc : Nat → α := if compensate then getCompCounter else getCounter
      let taken := (sample hk near maxsamples cyc (initSampler zero)).samplecount
      0 < taken ∧ IsLeast {v | ∃ i < taken, cyc i = v}
        (fcyc hk zero near maxsamples compensate getCompCounter getCounter) := by
  constructor
  · intro samples
    have done : Sampled (samples.foldl (addSample hk) (initSampler zero)) samples :=
      foldl_sampled (sampled_init zero) samples
    exact ⟨by simp, done.kept⟩
  · intro near maxsamples compensate getCompCounter getCounter
    have done : ∀ cyc : Nat → α, 0 < (sample hk near maxsamples cyc (initSampler zero)).samplecount ∧ _ :=
      fun cyc => sample_sampled (sampled_init zero)
    cases compensate with
    | true => exact ⟨(done _).1, (done _).2.least hk (done _).1⟩
    | false => exact ⟨(done _).1, (done _).2.least hk (done _).1⟩

end

theorem keeps_smallest_three :
    Smallest (([5, 3, 4, 1, 2].foldl (addSample (show 0 < 3 by decide)) (initSampler 0)).values.toList.take 3)
      [5, 3, 4, 1, 2] :=
  ((keeps_smallest (show 0 < 3 by decide) 0).1 [5, 3, 4, 1, 2]).2

end MallocLab.Timing
