import MallocLab.FirstFit.Refinement

/-!
# Runs of a client over the allocator

A run is `mm_init` and a sequence of calls. A call names a live pointer by the index of the call
that returned it, so that two runs can make the same calls while their pointers may differ.
Before every call the client writes what it likes into its payloads.
-/

namespace MallocLab.FirstFit
open Memory

inductive Call
  | malloc (size : Nat)
  | free (id : Nat)
  | realloc (id size : Nat)
  deriving DecidableEq, Repr

/-- A live pointer with the index of the call that returned it and the size asked for. -/
structure Live where
  id : Nat
  ptr : Nat
  size : Nat
  deriving DecidableEq, Repr

structure Client where
  live : List Live
  returned : List Nat
  deriving DecidableEq, Repr

def Client.start : Client := ⟨[], []⟩

def Client.pointer (c : Client) (id : Nat) : Nat :=
  match c.live.find? (fun l => l.id == id) with
  | some l => l.ptr
  | none => null

def Client.drop (c : Client) (id : Nat) : List Live := c.live.eraseP fun l => l.id == id

def Client.gets (c : Client) (live : List Live) (p size : Nat) : Client :=
  ⟨if p = null then live else ⟨c.returned.length, p, size⟩ :: live, c.returned ++ [p]⟩

def exec (h : Heap) (c : Client) : Call → Except Stop (Heap × Client)
  | .malloc size => do
      let (p, h) ← mmMalloc h size
      .ok (h, c.gets c.live p size)
  | .free id => .ok (mmFree h (c.pointer id), c.gets (c.drop id) null 0)
  | .realloc id size => do
      let (p, h) ← mmRealloc h (c.pointer id) size
      .ok (h, c.gets (c.drop id) p size)

def Legal (c : Client) : Call → Prop
  | .malloc size => 0 < size ∧ size < 2 ^ 31
  | .free id => id ∈ c.live.map Live.id
  | .realloc id size => id ∈ c.live.map Live.id ∧ 0 < size ∧ size < 2 ^ 31

instance (c : Client) : (call : Call) → Decidable (Legal c call)
  | .malloc _ => inferInstanceAs (Decidable (_ ∧ _))
  | .free _ => inferInstanceAs (Decidable (_ ∈ _))
  | .realloc _ _ => inferInstanceAs (Decidable (_ ∧ _))

/-- Only bytes of live payloads differ. -/
def ClientWrites (c : Client) (m m' : Mem) : Prop :=
  ∀ a, m' a ≠ m a → ∃ l ∈ c.live, l.ptr ≤ a ∧ a < l.ptr + l.size

inductive Runs (s : MemLib) : List Call → Heap → Client → Prop
  | init {h : Heap} (run : mmInit s = (0, h)) : Runs s [] h .start
  | call {calls : List Call} {h h' : Heap} {c c' : Client} {m : Mem} {call : Call}
      (before : Runs s calls h c) (writes : ClientWrites c h.mem m) (legal : Legal c call)
      (run : exec { h with mem := m } c call = .ok (h', c')) : Runs s (calls ++ [call]) h' c'

/-! ## The same calls on lists of blocks -/

def spare (bs : List Block) : Nat := maxHeap - 16 - extent Block.size bs

/-- One call on the list of blocks; `none` when `mm_realloc` exits. -/
def plan (a : Nat) (bs : List Block) (c : Client) : Call → Option (List Block × Client)
  | .malloc size =>
      match choose (adjust size) (spare bs) bs with
      | some (pre, b, post) =>
          some (pre ++ carve (adjust size) b ++ post,
            c.gets c.live (a + extent Block.size pre) size)
      | none => some (bs, c.gets c.live null size)
  | .free id => some (release (c.pointer id) a bs, c.gets (c.drop id) null 0)
  | .realloc id size =>
      match choose (adjust size) (spare bs) bs with
      | some (pre, b, post) =>
          some (release (c.pointer id) a (pre ++ carve (adjust size) b ++ post),
            c.gets (c.drop id) (a + extent Block.size pre) size)
      | none => none

def planned (a : Nat) (calls : List Call) : Option (List Block × Client) :=
  calls.foldlM (fun s call => plan a s.1 s.2 call) ([⟨4096, false⟩], .start)

theorem planned_concat (a : Nat) (calls : List Call) (call : Call) :
    planned a (calls ++ [call]) = (planned a calls).bind fun s => plan a s.1 s.2 call := by
  simp [planned, List.foldlM_append]

/-! ## The client's account of the blocks -/

structure Accounts (a : Nat) (bs : List Block) (live : List Live) : Prop where
  ptrs : (live.map Live.ptr).Perm ((allocated a bs).map Prod.fst)
  fits : ∀ l ∈ live, ∃ b, (l.ptr, b) ∈ allocated a bs ∧ l.size + 8 ≤ b.size

section
variable {a : Nat} {bs : List Block} {live : List Live}

theorem Accounts.request {asize room id size : Nat} {pre post : List Block} {b : Block}
    (accounts : Accounts a bs live) (sep : Separated bs)
    (chosen : choose asize room bs = some (pre, b, post)) (large : size + 8 ≤ asize) :
    Accounts a (pre ++ carve asize b ++ post) (⟨id, a + extent Block.size pre, size⟩ :: live) := by
  have allocs := allocated_choose (a := a) sep chosen
  have taken := le_taken (choose_spec (a := a) sep chosen).2.1
  refine ⟨(accounts.ptrs.cons _).trans (allocs.map Prod.fst).symm, ?_⟩
  intro l member
  rcases List.mem_cons.mp member with rfl | member
  · exact ⟨_, allocs.mem_iff.mpr List.mem_cons_self, by simp only; omega⟩
  · obtain ⟨c, placed, fit⟩ := accounts.fits l member
    exact ⟨c, allocs.mem_iff.mpr (List.mem_cons_of_mem _ placed), fit⟩

theorem Accounts.release {l : Live} {rest : List Live} (accounts : Accounts a bs live)
    (pos : ∀ c ∈ bs, 0 < c.size) (split : live.Perm (l :: rest)) :
    ∃ b, (l.ptr, b) ∈ allocated a bs ∧ l.size + 8 ≤ b.size ∧
      Accounts a (release l.ptr a bs) rest := by
  obtain ⟨b, placed, fit⟩ := accounts.fits l (split.mem_iff.mpr List.mem_cons_self)
  have allocs := allocated_release pos placed
  have ptrs : (l.ptr :: rest.map Live.ptr).Perm ((allocated a bs).map Prod.fst) :=
    (split.map Live.ptr).symm.trans accounts.ptrs
  refine ⟨b, placed, fit, (ptrs.trans (allocs.map Prod.fst)).cons_inv, fun k member => ?_⟩
  obtain ⟨c, other, fit⟩ := accounts.fits k (split.mem_iff.mpr (List.mem_cons_of_mem _ member))
  rcases List.mem_cons.mp (allocs.mem_iff.mp other) with same | kept
  · -- the live pointers are distinct
    have nodup := ptrs.nodup_iff.mpr (allocated_nodup pos)
    rw [← (Prod.mk.inj same).1] at nodup
    exact absurd (List.mem_map_of_mem member) (List.nodup_cons.mp nodup).1
  · exact ⟨c, kept, fit⟩

end

theorem perm_cons_eraseP {α : Type*} {p : α → Bool} {l : List α} {a : α}
    (found : l.find? p = some a) : l.Perm (a :: l.eraseP p) := by
  induction l with
  | nil => simp at found
  | cons b l ih =>
      by_cases hb : p b = true
      · rw [List.find?_cons_of_pos hb, Option.some.injEq] at found
        rw [List.eraseP_cons_of_pos hb, found]
      · rw [List.find?_cons_of_neg hb] at found
        rw [List.eraseP_cons_of_neg hb]
        exact ((ih found).cons b).trans (.swap _ _ _)

theorem Client.pointer_live {c : Client} {id : Nat} (known : id ∈ c.live.map Live.id) :
    ∃ l, c.pointer id = l.ptr ∧ c.live.Perm (l :: c.drop id) := by
  obtain ⟨l, member, rfl⟩ := List.mem_map.mp known
  have found : (c.live.find? fun k => k.id == l.id).isSome :=
    List.find?_isSome.mpr ⟨l, member, by simp⟩
  obtain ⟨k, first⟩ := Option.isSome_iff_exists.mp found
  exact ⟨k, by simp only [pointer, first], perm_cons_eraseP first⟩

/-! ## One call -/

/-- The heap represents the blocks, and the client accounts for them. -/
structure Serves (h : Heap) (bs : List Block) (c : Client) : Prop where
  wf : WellFormed h bs
  exact : h.Exact
  accounts : Accounts (h.memStartBrk + 16) bs c.live

section
variable {h : Heap} {bs : List Block} {c : Client} {id size : Nat}

theorem room_eq (ht : Tiled h bs) : room h = spare bs := by
  have := ht.brk
  have := ht.valid.area
  unfold room spare
  omega

theorem Serves.writes {m : Mem} (serves : Serves h bs c) (writes : ClientWrites c h.mem m) :
    Serves { h with mem := m } bs c := by
  refine ⟨serves.wf.overwrite fun a changed => ?_, serves.exact, serves.accounts⟩
  obtain ⟨l, member, low, high⟩ := writes a changed
  obtain ⟨b, live, fit⟩ := serves.accounts.fits l member
  exact ⟨l.ptr, b, live, low, by omega⟩

theorem exec_malloc (serves : Serves h bs c) (pos : 0 < size) (small : size < 2 ^ 31) :
    ∃ h' bs' c', exec h c (.malloc size) = .ok (h', c') ∧
      plan (h.memStartBrk + 16) bs c (.malloc size) = some (bs', c') ∧ Serves h' bs' c' ∧
      SameArea h h' := by
  have request := mmMalloc_choose serves.wf serves.exact pos small
  have bounds := adjust_bounds (show size < 2 ^ 32 - 15 by omega)
  rw [room_eq serves.wf.tiled] at request
  simp only [plan, exec]
  cases chosen : choose (adjust size) (spare bs) bs with
  | none =>
      rw [chosen] at request
      rw [request]
      exact ⟨h, bs, _, rfl, rfl, ⟨serves.wf, serves.exact, serves.accounts⟩, .refl h⟩
  | some found =>
      obtain ⟨pre, b, post⟩ := found
      rw [chosen] at request
      obtain ⟨h', run, wf, area, -⟩ := request
      rw [run]
      refine ⟨h', _, _, rfl, rfl, ⟨wf, Exact.of_sameArea serves.exact area, ?_⟩, area⟩
      rw [area.start, Client.gets, if_neg (show _ ≠ 0 by omega)]
      exact serves.accounts.request serves.wf.separated chosen bounds.2.2.1

theorem exec_free (serves : Serves h bs c) (known : id ∈ c.live.map Live.id) :
    ∃ h' bs' c', exec h c (.free id) = .ok (h', c') ∧
      plan (h.memStartBrk + 16) bs c (.free id) = some (bs', c') ∧ Serves h' bs' c' ∧
      SameArea h h' := by
  have pos : ∀ b ∈ bs, 0 < b.size := fun b hb => by have := serves.wf.tiled.large b hb; omega
  obtain ⟨l, ptr, split⟩ := Client.pointer_live known
  obtain ⟨b, live, -, accounts⟩ := serves.accounts.release pos split
  refine ⟨_, _, _, rfl, rfl, ?_⟩
  rw [ptr]
  obtain ⟨pre, post, rfl, place⟩ := mem_placed.mp (mem_allocated.mp live).1
  obtain ⟨-, area, -⟩ := mmFree_spec serves.wf.tiled
  rw [place] at accounts ⊢
  refine ⟨⟨?_, Exact.of_sameArea serves.exact area, by rwa [area.start]⟩, area⟩
  rw [release_extent fun d hd => pos d (by simp [hd])]
  exact mmFree_wellFormed serves.wf

theorem exec_realloc (serves : Serves h bs c) (known : id ∈ c.live.map Live.id) (pos : 0 < size)
    (small : size < 2 ^ 31) :
    (∃ h' bs' c', exec h c (.realloc id size) = .ok (h', c') ∧
        plan (h.memStartBrk + 16) bs c (.realloc id size) = some (bs', c') ∧ Serves h' bs' c' ∧
        SameArea h h') ∨
      (plan (h.memStartBrk + 16) bs c (.realloc id size) = none ∧
        exec h c (.realloc id size) =
          .error (.exit 1 "ERROR: mm_malloc failed in mm_realloc\n")) := by
  have positive : ∀ b ∈ bs, 0 < b.size := fun b hb => by
    have := serves.wf.tiled.large b hb
    omega
  obtain ⟨l, ptr, split⟩ := Client.pointer_live known
  obtain ⟨b, live, -⟩ := serves.accounts.release positive split
  have moved := mmRealloc_choose serves.wf serves.exact pos small live
  have request := mmMalloc_choose serves.wf serves.exact pos small
  have bounds := adjust_bounds (show size < 2 ^ 32 - 15 by omega)
  rw [room_eq serves.wf.tiled] at moved request
  simp only [plan, exec, ptr]
  cases chosen : choose (adjust size) (spare bs) bs with
  | none =>
      rw [chosen] at moved
      rw [moved]
      exact Or.inr ⟨rfl, rfl⟩
  | some found =>
      obtain ⟨pre, d, post⟩ := found
      rw [chosen] at moved request
      obtain ⟨h', run, wf, area, -⟩ := moved
      obtain ⟨h₁, -, wf₁, -⟩ := request
      rw [run]
      refine Or.inl ⟨h', _, _, rfl, rfl, ⟨wf, Exact.of_sameArea serves.exact area, ?_⟩, area⟩
      have grown : Accounts _ _ (⟨c.returned.length, _, size⟩ :: c.live) :=
        serves.accounts.request serves.wf.separated chosen bounds.2.2.1
      obtain ⟨-, -, -, accounts⟩ := grown.release
        (fun e he => by have := wf₁.tiled.large e he; omega) ((split.cons _).trans (.swap _ _ _))
      rw [area.start, Client.gets, if_neg (show _ ≠ 0 by omega)]
      exact accounts

theorem exec_spec {call : Call} (serves : Serves h bs c) (legal : Legal c call) :
    (∃ h' bs' c', exec h c call = .ok (h', c') ∧
        plan (h.memStartBrk + 16) bs c call = some (bs', c') ∧ Serves h' bs' c' ∧
        SameArea h h') ∨
      (plan (h.memStartBrk + 16) bs c call = none ∧ (∃ id size, call = .realloc id size) ∧
        exec h c call = .error (.exit 1 "ERROR: mm_malloc failed in mm_realloc\n")) := by
  cases call with
  | malloc size => exact Or.inl (exec_malloc serves legal.1 legal.2)
  | free id => exact Or.inl (exec_free serves legal)
  | realloc id size =>
      rcases exec_realloc serves legal.1 legal.2.1 legal.2.2 with done | ⟨stuck, exits⟩
      · exact Or.inl done
      · exact Or.inr ⟨stuck, ⟨id, size, rfl⟩, exits⟩

theorem exec_planned {call : Call} (serves : Serves h bs c) (legal : Legal c call) :
    (exec h c call).map Prod.snd = match plan (h.memStartBrk + 16) bs c call with
      | some (_, c') => .ok c'
      | none => .error (.exit 1 "ERROR: mm_malloc failed in mm_realloc\n") := by
  rcases exec_spec serves legal with ⟨h', bs', c', run, planned, -⟩ | ⟨stuck, -, exits⟩
  · rw [run, planned]
    rfl
  · rw [exits, stuck]
    rfl

/-! ## Whole runs -/

variable {s : MemLib} {calls : List Call}

/-- Every run follows the plan of its calls. -/
theorem runs_planned (v : s.Valid) (empty : s.memBrk = s.memStartBrk) (exact : s.Exact)
    (run : Runs s calls h c) :
    ∃ bs, planned (s.memStartBrk + 16) calls = some (bs, c) ∧ Serves h bs c ∧
      h.memStartBrk = s.memStartBrk ∧ h.memMaxAddr = s.memMaxAddr := by
  induction run with
  | init run =>
      rename_i h
      obtain ⟨h', run', wf, start, max⟩ := mmInit_spec v empty
      obtain ⟨-, rfl⟩ := Prod.mk.inj (run.symm.trans run')
      refine ⟨_, rfl, ⟨wf, ?_, ?_⟩, start, max⟩
      · intro brk incr low high
        simpa only [sbrkRefuses, max] using exact brk incr (by rwa [← start]) (by rwa [← max])
      · exact ⟨by simp [Client.start, allocated, located], by simp [Client.start]⟩
  | call before writes legal run ih =>
      obtain ⟨bs, plan, serves, start, max⟩ := ih
      rcases exec_spec (serves.writes writes) legal with done | ⟨-, -, exits⟩
      · obtain ⟨h₂, bs₂, c₂, run₂, plan₂, serves₂, area⟩ := done
        obtain ⟨rfl, rfl⟩ := Prod.mk.inj (Except.ok.inj (run.symm.trans run₂))
        refine ⟨bs₂, ?_, serves₂, area.start.trans start, area.max.trans max⟩
        rw [planned_concat, plan, ← start]
        exact plan₂
      · rw [exits] at run
        cases run

theorem Runs.extend {bs : List Block} {c' : Client} {call : Call} (v : s.Valid)
    (empty : s.memBrk = s.memStartBrk) (exact : s.Exact) (run : Runs s calls h c)
    (legal : Legal c call) (next : planned (s.memStartBrk + 16) (calls ++ [call]) = some (bs, c')) :
    ∃ h', Runs s (calls ++ [call]) h' c' := by
  obtain ⟨bs₀, plan₀, serves, start, -⟩ := runs_planned v empty exact run
  rw [planned_concat, plan₀, ← start] at next
  change plan _ bs₀ c call = _ at next
  rcases exec_spec serves legal with ⟨h', bs', c'', done, plan', -⟩ | ⟨stuck, -⟩
  · rw [plan'] at next
    obtain ⟨rfl, rfl⟩ := Prod.mk.inj (Option.some.inj next)
    exact ⟨h', .call (m := h.mem) run (fun a changed => absurd rfl changed) legal done⟩
  · rw [stuck] at next
    cases next

end

theorem runs_lowArea_two (b : Byte) : ∃ h, Runs (lowArea b) [.malloc 100, .malloc 5000] h
    ⟨[⟨1, 4224, 5000⟩, ⟨0, 4112, 100⟩], [4112, 4224]⟩ := by
  have valid := lowArea_valid b
  have exact := lowArea_exact b
  obtain ⟨h₀, run₀, -⟩ := mmInit_spec valid rfl
  obtain ⟨h₁, run₁⟩ := (Runs.init run₀).extend valid rfl exact
    (show Legal .start (.malloc 100) by decide)
    (show planned (4096 + 16) [.malloc 100] =
      some ([⟨112, true⟩, ⟨3984, false⟩], ⟨[⟨0, 4112, 100⟩], [4112]⟩) by decide)
  exact run₁.extend valid rfl exact (show Legal _ (.malloc 5000) by decide)
    (show planned (4096 + 16) [.malloc 100, .malloc 5000] =
      some ([⟨112, true⟩, ⟨5008, true⟩, ⟨3984, false⟩],
        ⟨[⟨1, 4224, 5000⟩, ⟨0, 4112, 100⟩], [4112, 4224]⟩) by decide)

theorem runs_lowArea (b : Byte) : ∃ h, Runs (lowArea b) [.malloc 100, .malloc 5000, .free 0] h
    ⟨[⟨1, 4224, 5000⟩], [4112, 4224, null]⟩ := by
  obtain ⟨h, run⟩ := runs_lowArea_two b
  exact run.extend (lowArea_valid b) rfl (lowArea_exact b) (show Legal _ (.free 0) by decide)
    (show planned (4096 + 16) [.malloc 100, .malloc 5000, .free 0] =
      some ([⟨112, false⟩, ⟨5008, true⟩, ⟨3984, false⟩],
        ⟨[⟨1, 4224, 5000⟩], [4112, 4224, null]⟩) by decide)

theorem runs_lowArea_three (b : Byte) : ∃ h, Runs (lowArea b) [.malloc 100, .malloc 5000, .malloc 8] h
    ⟨[⟨2, 9232, 8⟩, ⟨1, 4224, 5000⟩, ⟨0, 4112, 100⟩], [4112, 4224, 9232]⟩ := by
  obtain ⟨h, run⟩ := runs_lowArea_two b
  exact run.extend (lowArea_valid b) rfl (lowArea_exact b) (show Legal _ (.malloc 8) by decide)
    (show planned (4096 + 16) [.malloc 100, .malloc 5000, .malloc 8] =
      some ([⟨112, true⟩, ⟨5008, true⟩, ⟨16, true⟩, ⟨3968, false⟩],
        ⟨[⟨2, 9232, 8⟩, ⟨1, 4224, 5000⟩, ⟨0, 4112, 100⟩], [4112, 4224, 9232]⟩) by decide)

end MallocLab.FirstFit
