import Tmpi.Intra.Completion
import Tmpi.Intra.Updates

/-! Persistent requests, from `tmpi_Send_init` and its likes on through any number of starts. -/

namespace Tmpi.Intra

/-! ## `mpi_sr.c`: the creation of persistent requests -/

section Creation

variable (cfg : Config) (s : Sys) (context : UInt32) (me dest tag : Int) (data : Buffer) (room : Bool)

/-- `isPersistent` is `FALSE` here, and `isImmediate` is `TRUE`. -/
def tmpiRecvInit (source : Int) : Sys := tmpiIntraInitRh cfg s context source me tag data false true

end Creation

/-- Runs from `s₀` whose steps are all `allowed`. -/
inductive Since (cfg : Config) (allowed : Sys → Act → Prop) (s₀ : Sys) : Sys → Prop where
  | refl : Since cfg allowed s₀ s₀
  | step {s s' act} : Since cfg allowed s₀ s → allowed s act → step cfg s act = some s' →
      Since cfg allowed s₀ s'

/-- The runs of a list of steps. -/
theorem Since.follow {cfg : Config} {s₀ s s' : Sys} {may : Sys → Act → Bool} {acts : List Act}
    (since : Since cfg (fun s act => may s act = true) s₀ s)
    (run : Intra.follow cfg may s acts = some s') : Since cfg (fun s act => may s act = true) s₀ s' := by
  induction acts generalizing s with
  | nil =>
      cases run
      exact since
  | cons act rest ih =>
      unfold Intra.follow at run
      split at run
      next admitted =>
        obtain ⟨next, one, others⟩ := Option.bind_eq_some_iff.mp run
        exact ih (.step since admitted one) others
      next => cases run

/-! ## What is kept -/

variable {cfg : Config} {s s' : Sys} {g : Ghost} {a b : Addr} {h h' : SHandle} {act : Act}

/-- The request of `a` is one that its owner holds, as it was made. -/
structure Held (s : Sys) (a : Addr) (h : SHandle) (made : HandleType × UInt32 × Int × Int × Int × Nat × Mode × Bool) :
    Prop where
  cell : s.smem a = .send h
  held : h.held = true
  made : h.made = made
  errval : h.stat = .free → h.errval = .success

theorem Held.step {made : HandleType × UInt32 × Int × Int × Int × Nat × Mode × Bool}
    (inv : Inv cfg s g) (held : Held s a h made) (persistent : h.handleType = .persistent)
    (noFault : ∀ what, .fault what ∉ s'.log) (kept : act.drops a = false)
    (run : Intra.step cfg s act = some s') :
    ∃ added h', s'.log = s.log ++ added ∧ Update true added a h h' ∧ Held s' a h' made := by
  have live := inv.live_of_held held.cell (.inl held.held)
  obtain ⟨added, log, cell⟩ := step_moves run kept live
  rw [held.cell] at cell
  cases after : s'.smem a with
  | remote r =>
      rw [after] at cell
      cases cell with
      | parked dead => exact absurd live dead
  | send h' =>
      rw [after] at cell
      cases cell with
      | send up =>
          refine ⟨added, h', log, up, after, up.held persistent held.held, up.made.trans held.made, fun free => ?_⟩
          rcases up.freed free with ⟨before, same⟩ | success | ⟨what, fault⟩
          · rw [same, held.errval before]
          · exact success
          · refine absurd ?_ (noFault what)
            rw [log]
            exact List.mem_append_right _ fault

/-- The request is held through every step that does not give it up. -/
theorem Since.held {s₀ : Sys} {h₀ : SHandle} {made : HandleType × UInt32 × Int × Int × Int × Nat × Mode × Bool}
    (inv : Inv cfg s₀ g) (held : Held s₀ a h₀ made) (persistent : made.1 = .persistent)
    (since : Since cfg (fun s act => breaks s act = false ∧ act.drops a = false) s₀ s) :
    ∃ g h, Inv cfg s g ∧ Held s a h made := by
  induction since with
  | refl => exact ⟨g, h₀, inv, held⟩
  | step before may run ih =>
      obtain ⟨g, h, inv, held⟩ := ih
      obtain ⟨g', inv'⟩ := inv.step may.1 run
      have type : h.handleType = .persistent := by rw [← persistent, ← held.made]; rfl
      obtain ⟨-, h', -, -, held'⟩ := held.step inv type inv'.logs.noFault may.2 run
      exact ⟨g', h', inv', held'⟩

end Tmpi.Intra
