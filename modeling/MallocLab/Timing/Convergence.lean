import MallocLab.Timing.Sampler

/-!
# When the measurement ends (fcyc.c)

`fcyc` runs the function until `kbest` of the readings are near the least one, or `maxsamples` are taken.
-/

namespace MallocLab.Timing

section
variable {α : Type*} [LinearOrder α] {kept all : List α} {w : α} {test : α → Bool}

theorem Smallest.last_iff (old : Smallest (kept ++ [w]) all)
    (down : ∀ y z, z ≤ y → test y = true → test z = true) :
    test w = true ↔ kept.length + 1 ≤ all.countP test := by
  obtain ⟨rest, split, apart⟩ := old.split
  have below := (List.pairwise_append.mp old.sorted).2.2
  have count : all.countP test = kept.countP test + [w].countP test + rest.countP test := by
    rw [split.countP_eq, List.countP_append, List.countP_append]
  rw [count]
  constructor
  · intro last
    have whole : kept.countP test = kept.length :=
      List.countP_eq_length.mpr fun x hx => down w x (below x hx w (by simp)) last
    rw [whole, List.countP_singleton, if_pos last]
    exact Nat.le_add_right _ _
  · intro enough
    by_contra fails
    have none : rest.countP test = 0 :=
      List.countP_eq_zero.mpr fun y hy near => fails (down y w (apart w (by simp) y hy) near)
    have most : kept.countP test ≤ kept.length := List.countP_le_length
    rw [none, List.countP_singleton, if_neg fails] at enough
    omega

end

variable {α : Type*} {kbest : Nat}

def withinEpsilon [Field α] [LinearOrder α] (epsilon first last : α) : Bool :=
  (1 + epsilon) * first ≥ last

variable [LinearOrder α]

def readings (compensate : Bool) (getCompCounter getCounter : Nat → α) : Nat → α :=
  if compensate then getCompCounter else getCounter

def taken (hk : 0 < kbest) (zero : α) (near : α → α → Bool) (maxsamples : Int) (cyc : Nat → α) : Nat :=
  (sample hk near maxsamples cyc (initSampler zero)).samplecount

/-- Among the first `n` readings `kbest` are near the least one. -/
def Settled (kbest : Nat) (near : α → α → Bool) (cyc : Nat → α) (n : Nat) : Prop :=
  ∃ v, IsLeast {v | ∃ i < n, cyc i = v} v ∧ kbest ≤ ((List.range n).map cyc).countP (near v)

section
variable {near : α → α → Bool} {maxsamples : Int} {cyc : Nat → α} {s : Sampler α kbest}

theorem Settled.le {n : Nat} (settled : Settled kbest near cyc n) : kbest ≤ n := by
  obtain ⟨v, -, enough⟩ := settled
  refine enough.trans ((List.countP_le_length).trans ?_)
  simp

theorem hasConverged_iff (hk : 0 < kbest) (down : ∀ v y z, z ≤ y → near v y = true → near v z = true)
    (done : Sampled s ((List.range s.samplecount).map cyc)) :
    hasConverged hk near s = true ↔ Settled kbest near cyc s.samplecount := by
  rw [hasConverged, Bool.and_eq_true, decide_eq_true_eq]
  by_cases full : kbest ≤ s.samplecount
  · have length : s.values.toList.length = kbest := Vector.length_toList
    have whole : s.values.toList = s.values.toList.take (kbest - 1) ++ [s.values[kbest - 1]] := by
      have last := List.take_append_getElem (show kbest - 1 < s.values.toList.length by omega)
      rw [Vector.getElem_toList, Nat.sub_add_cancel hk, List.take_of_length_le length.le] at last
      exact last.symm
    have kept := done.kept
    rw [List.length_map, List.length_range, Nat.min_eq_right full, List.take_of_length_le length.le,
      whole] at kept
    have front : (s.values.toList.take (kbest - 1)).length + 1 = kbest := by
      rw [List.length_take]
      omega
    have enough := kept.last_iff (down s.values[0])
    rw [front] at enough
    have least := done.least hk (hk.trans_le full)
    constructor
    · rintro ⟨-, last⟩
      exact ⟨s.values[0], least, enough.mp last⟩
    · rintro ⟨v, smallest, count⟩
      rw [smallest.unique least] at count
      exact ⟨full, enough.mpr count⟩
  · constructor
    · rintro ⟨enough, -⟩
      exact absurd enough full
    · intro settled
      exact absurd settled.le full

theorem sample_stops (hk : 0 < kbest) (down : ∀ v y z, z ≤ y → near v y = true → near v z = true)
    (old : Sampled s ((List.range s.samplecount).map cyc))
    (before : ∀ n, 0 < n → n ≤ s.samplecount → ¬ (maxsamples ≤ n ∨ Settled kbest near cyc n)) :
    IsLeast {n : Nat | 0 < n ∧ (maxsamples ≤ n ∨ Settled kbest near cyc n)}
      (sample hk near maxsamples cyc s).samplecount := by
  fun_induction sample hk near maxsamples cyc s with
  | case1 s s' more ih =>
      have done : Sampled s' ((List.range s'.samplecount).map cyc) := addSample_reading old
      refine ih done fun n pos le => ?_
      rcases Nat.lt_or_ge s.samplecount n with new | old
      · have last : n = s'.samplecount := Nat.le_antisymm le new
        rw [last]
        rintro (limit | settled)
        · exact absurd more.2 (not_lt.mpr limit)
        · rw [(hasConverged_iff hk down done).mpr settled] at more
          exact absurd more.1 (by decide)
      · exact before n pos old
  | case2 s s' stop =>
      have done : Sampled s' ((List.range s'.samplecount).map cyc) := addSample_reading old
      refine ⟨⟨Nat.succ_pos _, ?_⟩, fun n stops => ?_⟩
      · by_contra neither
        obtain ⟨room, unsettled⟩ := not_or.mp neither
        rw [← hasConverged_iff hk down done] at unsettled
        exact stop ⟨by simpa using unsettled, not_le.mp room⟩
      · by_contra less
        exact before n stops.1 (Nat.lt_succ_iff.mp (not_le.mp less)) stops.2

/-- `fcyc` runs the function as often as it takes to settle, or `maxsamples` times; where it stops short of
that, `kbest` of the readings are near the result. -/
theorem fcyc_stops (hk : 0 < kbest) (zero : α) (near : α → α → Bool)
    (down : ∀ v y z, z ≤ y → near v y = true → near v z = true) (maxsamples : Int) (compensate : Bool)
    (getCompCounter getCounter : Nat → α) :
    IsLeast {n : Nat | 0 < n ∧
        (maxsamples ≤ n ∨ Settled kbest near (readings compensate getCompCounter getCounter) n)}
      (taken hk zero near maxsamples (readings compensate getCompCounter getCounter)) ∧
    (taken hk zero near maxsamples (readings compensate getCompCounter getCounter) < maxsamples →
      kbest ≤ ((List.range (taken hk zero near maxsamples (readings compensate getCompCounter getCounter))).map
        (readings compensate getCompCounter getCounter)).countP
          (near (fcyc hk zero near maxsamples compensate getCompCounter getCounter))) := by
  have result : fcyc hk zero near maxsamples compensate getCompCounter getCounter =
      (sample hk near maxsamples (readings compensate getCompCounter getCounter) (initSampler zero)).values[0] := by
    cases compensate <;> rfl
  rw [result]
  generalize readings compensate getCompCounter getCounter = cyc
  have start : Sampled (initSampler zero : Sampler α kbest) ((List.range 0).map cyc) := sampled_init zero
  have stops : IsLeast {n : Nat | 0 < n ∧ (maxsamples ≤ n ∨ Settled kbest near cyc n)}
      (taken hk zero near maxsamples cyc) :=
    sample_stops hk down start fun n pos le => absurd pos (not_lt.mpr le)
  obtain ⟨pos, done⟩ : 0 < taken hk zero near maxsamples cyc ∧
      Sampled (sample hk near maxsamples cyc (initSampler zero))
        ((List.range (taken hk zero near maxsamples cyc)).map cyc) := sample_sampled start
  refine ⟨stops, fun short => ?_⟩
  obtain limit | ⟨v, least, enough⟩ := stops.1.2
  · exact absurd short (not_lt.mpr limit)
  · rw [(done.least hk pos).unique least]
    exact enough

end

theorem withinEpsilon_down [Field α] (epsilon v y z : α) (le : z ≤ y)
    (near : withinEpsilon epsilon v y = true) : withinEpsilon epsilon v z = true := by
  rw [withinEpsilon, decide_eq_true_eq] at *
  exact le.trans near

def warmUp (i : Nat) : ℚ := if i = 0 then 200 else 100

theorem fcyc_stops_three : taken (show 0 < 3 by decide) 0 (withinEpsilon (1 / 100)) 10 warmUp ≤ 4 := by
  have stops := (fcyc_stops (show 0 < 3 by decide) (0 : ℚ) (withinEpsilon (1 / 100))
    (withinEpsilon_down (1 / 100)) 10 false warmUp warmUp).1
  refine stops.2 ⟨by decide, Or.inr ⟨100, ⟨⟨1, by decide, rfl⟩, ?_⟩, by decide +kernel⟩⟩
  rintro v ⟨i, -, rfl⟩
  simp only [readings, warmUp, Bool.false_eq_true, if_false]
  split_ifs <;> norm_num

end MallocLab.Timing
