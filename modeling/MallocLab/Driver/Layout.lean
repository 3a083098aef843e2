import MallocLab.Driver.Replay
import MallocLab.FirstFit.Runs

/-!
# The layout of a trace

First fit on the list of blocks, driven by the requests of a trace. The block of an id is known by its
offset from the first block: neither an address nor a byte of memory appears.
-/

namespace MallocLab.Driver
open Memory

structure Layout where
  blocks : List Block
  offsets : Int → Nat

def Layout.start : Layout := ⟨[⟨4096, false⟩], fun _ => 0⟩

/-- The blocks after a request of `size` bytes, with the offset of the block that it takes. -/
def Layout.take (y : Layout) (size : Int) : Option (List Block × Nat) :=
  let asize := FirstFit.adjust (unsigned size)
  (FirstFit.choose asize (FirstFit.spare y.blocks) y.blocks).map fun (pre, b, post) =>
    (pre ++ FirstFit.carve asize b ++ post, extent Block.size pre)

def Layout.serve (y : Layout) : TraceOp → Option Layout
  | .alloc index size =>
    (y.take size).map fun (bs, x) => ⟨bs, Function.update y.offsets index x⟩
  | .realloc index size =>
    (y.take size).map fun (bs, x) =>
      ⟨release (y.offsets index) 0 bs, Function.update y.offsets index x⟩
  | .free index => some { y with blocks := release (y.offsets index) 0 y.blocks }

def Layout.run (y : Layout) (ops : List TraceOp) : Option Layout := ops.foldlM Layout.serve y

def Suffices (ops : List TraceOp) : Prop := (Layout.start.run ops).isSome

instance (ops : List TraceOp) : Decidable (Suffices ops) := inferInstanceAs (Decidable (_ = true))

def Layout.pointers (a : Nat) : Layout → List TraceOp → List Nat
  | _, [] => []
  | y, op :: ops =>
    match y.serve op with
    | none => []
    | some y => (if op.isFree then null else a + y.offsets op.index) :: y.pointers a ops

@[simp] theorem Layout.run_nil (y : Layout) : y.run [] = some y := rfl

theorem Layout.run_cons (y : Layout) (op : TraceOp) (ops : List TraceOp) :
    y.run (op :: ops) = (y.serve op).bind fun y => y.run ops := rfl

/-! ## Offsets and addresses -/

theorem blockAt_shift (a p x : Nat) (bs : List Block) : blockAt (a + p) (a + x) bs = blockAt p x bs := by
  induction bs generalizing x with
  | nil => rfl
  | cons b bs ih =>
    have rest := ih (x + b.size)
    rw [← Nat.add_assoc] at rest
    simp only [blockAt, rest, Nat.add_left_cancel_iff]

theorem release_shift (a p : Nat) (bs : List Block) : release (a + p) a bs = release p 0 bs := by
  have shifted := blockAt_shift a p 0 bs
  rw [Nat.add_zero] at shifted
  rw [release, release, shifted]

/-! ## The room that a trace needs -/

def TraceOp.charge : TraceOp → Nat
  | alloc _ size => FirstFit.growth (FirstFit.adjust (unsigned size))
  | realloc _ size => FirstFit.growth (FirstFit.adjust (unsigned size))
  | free _ => 0

theorem extent_release (p a : Nat) (bs : List Block) :
    extent Block.size (release p a bs) = extent Block.size bs := by
  unfold release
  split
  · rename_i pre b post found
    obtain ⟨rfl, -⟩ := blockAt_some found
    rw [extent_join, extent_append, extent_cons, Nat.add_assoc]
  · rfl

theorem extent_choose {asize room : Nat} {bs pre post : List Block} {b : Block}
    (chosen : FirstFit.choose asize room bs = some (pre, b, post)) :
    asize ≤ b.size ∧ (extent Block.size (pre ++ b :: post) = extent Block.size bs ∨
      extent Block.size (pre ++ b :: post) = extent Block.size bs + FirstFit.growth asize) := by
  unfold FirstFit.choose at chosen
  split at chosen
  · rename_i found
    cases chosen
    obtain ⟨rfl, fits, -⟩ := FirstFit.firstFit_some.mp found
    exact ⟨fits.2, .inl rfl⟩
  · split at chosen
    · cases chosen
      have split := extent_keptBefore bs
      have least : asize ≤ FirstFit.growth asize := le_max_left _ _
      refine ⟨by simp only; omega, .inr ?_⟩
      rw [extent_append, extent_cons, extent_nil]
      simp only
      omega
    · cases chosen

namespace Layout
variable {y y' : Layout} {op : TraceOp} {bs : List Block} {size : Int} {x : Nat}

theorem take_extent (h : y.take size = some (bs, x)) :
    extent Block.size bs = extent Block.size y.blocks ∨ extent Block.size bs =
      extent Block.size y.blocks + FirstFit.growth (FirstFit.adjust (unsigned size)) := by
  obtain ⟨⟨pre, b, post⟩, chosen, eq⟩ := Option.map_eq_some_iff.1 h
  obtain ⟨fits, total⟩ := extent_choose chosen
  cases eq
  have carved := FirstFit.extent_carve fits
  simp only [extent_append, extent_cons] at total ⊢
  omega

theorem take_isSome (room : FirstFit.growth (FirstFit.adjust (unsigned size)) ≤ FirstFit.spare y.blocks) :
    ∃ r, y.take size = some r := by
  simp only [take, FirstFit.choose, if_pos room]
  split
  · exact ⟨_, rfl⟩
  · exact ⟨_, rfl⟩

theorem serve_extent (h : y.serve op = some y') :
    extent Block.size y.blocks ≤ extent Block.size y'.blocks ∧
      extent Block.size y'.blocks ≤ extent Block.size y.blocks + op.charge := by
  cases op with
  | alloc index size =>
    obtain ⟨⟨bs, x⟩, taken, rfl⟩ := Option.map_eq_some_iff.1 h
    have total := take_extent taken
    simp only [TraceOp.charge]
    omega
  | realloc index size =>
    obtain ⟨⟨bs, x⟩, taken, rfl⟩ := Option.map_eq_some_iff.1 h
    have total := take_extent taken
    simp only [TraceOp.charge, extent_release]
    omega
  | free index =>
    cases h
    simp only [TraceOp.charge, extent_release]
    omega

theorem serve_isSome (room : op.charge ≤ FirstFit.spare y.blocks) : ∃ y', y.serve op = some y' := by
  cases op with
  | alloc index size =>
    obtain ⟨r, taken⟩ := take_isSome room
    exact ⟨_, by rw [serve, taken]; rfl⟩
  | realloc index size =>
    obtain ⟨r, taken⟩ := take_isSome room
    exact ⟨_, by rw [serve, taken]; rfl⟩
  | free index => exact ⟨_, rfl⟩

theorem run_isSome (y : Layout) {ops : List TraceOp}
    (room : (ops.map TraceOp.charge).sum ≤ FirstFit.spare y.blocks) : ∃ y', y.run ops = some y' := by
  induction ops generalizing y with
  | nil => exact ⟨y, rfl⟩
  | cons op ops ih =>
    rw [List.map_cons, List.sum_cons] at room
    obtain ⟨next, served⟩ := serve_isSome (show op.charge ≤ FirstFit.spare y.blocks by omega)
    have grown := (serve_extent served).2
    have left : (ops.map TraceOp.charge).sum ≤ FirstFit.spare next.blocks := by
      unfold FirstFit.spare at room ⊢
      omega
    obtain ⟨last, rest⟩ := ih next left
    exact ⟨last, by rw [run_cons, served]; exact rest⟩

theorem run_extent {ops : List TraceOp} (run : y.run ops = some y') :
    extent Block.size y'.blocks ≤ extent Block.size y.blocks + (ops.map TraceOp.charge).sum := by
  induction ops generalizing y with
  | nil =>
    cases run
    exact Nat.le_add_right _ _
  | cons op ops ih =>
    obtain ⟨next, served, rest⟩ := Option.bind_eq_some_iff.1 (run_cons y op ops ▸ run)
    have first := (serve_extent served).2
    have others := ih rest
    rw [List.map_cons, List.sum_cons]
    omega

end Layout

theorem suffices_of_charge {ops : List TraceOp}
    (room : (ops.map TraceOp.charge).sum ≤ maxHeap - 16 - 4096) : Suffices ops := by
  obtain ⟨y, run⟩ := Layout.start.run_isSome room
  rw [Suffices, run]
  rfl

/-- Two blocks of which the first is freed before a third is asked for: it takes the place of the first. -/
example : (Layout.start.pointers 0 [.alloc 0 100, .alloc 1 200, .free 0, .alloc 2 50]) = [0, 112, null, 0] := by
  decide

end MallocLab.Driver
