import Mathlib.Tactic

/-!
# Programs that log what they do

A program over a state of type `σ` may fail to return; when it returns it has logged a list of
events of type `ε`. `Does ok f s a s'` says that `f` returns `a` and ends in `s'` when it is run in
`s`, and that every event it logs meets `ok`. The rules below take a program apart step by step, in
both directions: they run it symbolically and they invert a run.
-/

namespace MallocLab.Memory

def Logged (σ ε α : Type) : Type := σ → Option (α × σ × List ε)

namespace Logged
variable {σ ε α β : Type}

instance : Monad (Logged σ ε) where
  pure a := fun s => some (a, s, [])
  bind f g := fun s => (f s).bind fun (a, s', ev) =>
    (g a s').map fun (b, s'', ev') => (b, s'', ev ++ ev')

def read (f : σ → α) : Logged σ ε α := fun s => some (f s, s, [])

def change (f : σ → σ) : Logged σ ε Unit := fun s => some ((), f s, [])

/-- Log an event that may depend on the state. -/
def note (f : σ → ε) : Logged σ ε Unit := fun s => some ((), s, [f s])

def stuck : Logged σ ε α := fun _ => none

def Does (ok : ε → Prop) (f : Logged σ ε α) (s : σ) (a : α) (s' : σ) : Prop :=
  ∃ ev, f s = some (a, s', ev) ∧ ∀ e ∈ ev, ok e

variable {ok ok' : ε → Prop} {f : Logged σ ε α} {g : α → Logged σ ε β} {s s' s'' : σ} {a : α} {b : β}

theorem Does.mono (weaker : ∀ e, ok e → ok' e) (run : Does ok f s a s') : Does ok' f s a s' := by
  obtain ⟨ev, run, all⟩ := run
  exact ⟨ev, run, fun e he => weaker e (all e he)⟩

theorem Does.unique {c : α} (run : Does ok f s a s') (other : Does ok' f s c s'') :
    a = c ∧ s' = s'' := by
  obtain ⟨ev, run, -⟩ := run
  obtain ⟨ev', other, -⟩ := other
  rw [run] at other
  simp only [Option.some.injEq, Prod.mk.injEq] at other
  exact ⟨other.1, other.2.1⟩

theorem does_pure {c : α} : Does ok (pure c : Logged σ ε α) s a s' ↔ a = c ∧ s' = s := by
  constructor
  · rintro ⟨ev, run, -⟩
    simp only [pure, Option.some.injEq, Prod.mk.injEq] at run
    exact ⟨run.1.symm, run.2.1.symm⟩
  · rintro ⟨rfl, rfl⟩
    exact ⟨[], rfl, by simp⟩

theorem does_bind : Does ok (f >>= g) s b s'' ↔
    ∃ a s', Does ok f s a s' ∧ Does ok (g a) s' b s'' := by
  constructor
  · rintro ⟨ev, run, all⟩
    simp only [bind, Option.bind_eq_some_iff, Option.map_eq_some_iff, Prod.exists, Prod.mk.injEq] at run
    obtain ⟨a, s', ev₁, first, b', s₂, ev₂, second, rfl, rfl, rfl⟩ := run
    exact ⟨a, s', ⟨ev₁, first, fun e he => all e (by simp [he])⟩,
      ⟨ev₂, second, fun e he => all e (by simp [he])⟩⟩
  · rintro ⟨a, s', ⟨ev₁, first, all₁⟩, ev₂, second, all₂⟩
    refine ⟨ev₁ ++ ev₂, by simp only [bind, first, second, Option.bind_some, Option.map_some], ?_⟩
    intro e he
    rcases List.mem_append.mp he with he | he
    · exact all₁ e he
    · exact all₂ e he

theorem Does.bind_iff (first : Does ok f s a s') :
    Does ok (f >>= g) s b s'' ↔ Does ok (g a) s' b s'' := by
  rw [does_bind]
  constructor
  · rintro ⟨c, t, run, rest⟩
    obtain ⟨rfl, rfl⟩ := first.unique run
    exact rest
  · exact fun rest => ⟨a, s', first, rest⟩

theorem Does.rest (first : Does ok' f s a s') (run : Does ok (f >>= g) s b s'') :
    Does ok (g a) s' b s'' := by
  obtain ⟨c, t, other, rest⟩ := does_bind.mp run
  obtain ⟨rfl, rfl⟩ := first.unique other
  exact rest

theorem does_pure_bind {c : α} :
    Does ok ((pure c : Logged σ ε α) >>= g) s b s' ↔ Does ok (g c) s b s' :=
  Does.bind_iff (does_pure.mpr ⟨rfl, rfl⟩)

theorem does_assoc {γ : Type} {h : β → Logged σ ε γ} {c : γ} :
    Does ok (f >>= g >>= h) s c s' ↔ Does ok (f >>= fun a => g a >>= h) s c s' := by
  simp only [does_bind]
  constructor
  · rintro ⟨b, t, ⟨a, u, first, second⟩, third⟩
    exact ⟨a, u, first, b, t, second, third⟩
  · rintro ⟨a, u, first, b, t, second, third⟩
    exact ⟨b, t, ⟨a, u, first, second⟩, third⟩

theorem does_read_bind {h : σ → α} : Does ok (read h >>= g) s b s' ↔ Does ok (g (h s)) s b s' :=
  Does.bind_iff ⟨[], rfl, by simp⟩

theorem does_change {h : σ → σ} {u : Unit} :
    Does ok (change h : Logged σ ε Unit) s u s' ↔ s' = h s := by
  constructor
  · rintro ⟨ev, run, -⟩
    simp only [change, Option.some.injEq, Prod.mk.injEq] at run
    exact run.2.1.symm
  · rintro rfl
    exact ⟨[], rfl, by simp⟩

theorem does_change_bind {h : σ → σ} {g : Unit → Logged σ ε β} :
    Does ok (change h >>= g) s b s' ↔ Does ok (g ()) (h s) b s' :=
  Does.bind_iff (does_change.mpr rfl)

theorem does_note {h : σ → ε} {u : Unit} :
    Does ok (note h : Logged σ ε Unit) s u s' ↔ ok (h s) ∧ s' = s := by
  constructor
  · rintro ⟨ev, run, all⟩
    simp only [note, Option.some.injEq, Prod.mk.injEq] at run
    obtain ⟨-, rfl, rfl⟩ := run
    exact ⟨all _ (by simp), rfl⟩
  · rintro ⟨good, rfl⟩
    exact ⟨[h s'], rfl, by simpa using good⟩

theorem does_note_bind {h : σ → ε} {g : Unit → Logged σ ε β} :
    Does ok (note h >>= g) s b s' ↔ ok (h s) ∧ Does ok (g ()) s b s' := by
  rw [does_bind]
  constructor
  · rintro ⟨u, t, first, rest⟩
    obtain ⟨good, rfl⟩ := does_note.mp first
    exact ⟨good, rest⟩
  · rintro ⟨good, rest⟩
    exact ⟨(), s, does_note.mpr ⟨good, rfl⟩, rest⟩

theorem not_does_stuck : ¬ Does ok (stuck : Logged σ ε α) s a s' := by
  rintro ⟨ev, run, -⟩
  cases run

end Logged

end MallocLab.Memory
