import Mathlib.Data.List.Basic
import Mathlib.Data.Nat.ModEq
import Mathlib.Logic.Function.Basic

/-! Bounded buffers in an array whose indices wrap around. -/

namespace Tmpi

/-- The `size` items of a buffer from slot `header` on. -/
def ringItems {Item : Type} (cap : Nat) (slot : Nat → Item) (header size : Nat) : List Item :=
  (List.range size).map fun i => slot ((header + i) % cap)

namespace Ring

variable {Item : Type} {cap header size : Nat} {slot : Nat → Item}

/-- Different items are in different slots. -/
theorem slot_injective {i j : Nat} (low : i < cap) (low' : j < cap)
    (same : (header + i) % cap = (header + j) % cap) : i = j := by
  have congruent : i ≡ j [MOD cap] := Nat.ModEq.add_left_cancel' header same
  exact congruent.eq_of_lt_of_lt low low'

theorem push (room : size < cap) (item : Item) :
    ringItems cap (Function.update slot ((header + size) % cap) item) header (size + 1) =
      ringItems cap slot header size ++ [item] := by
  rw [ringItems, List.range_succ, List.map_append, List.map_singleton, Function.update_self, ringItems]
  congr 1
  refine List.map_congr_left fun i member => ?_
  have low : i < size := List.mem_range.mp member
  refine Function.update_of_ne (fun same => ?_) _ _
  have equal := slot_injective (lt_trans low room) room same
  omega

theorem pop : ringItems cap slot header (size + 1) =
    slot (header % cap) :: ringItems cap slot ((header + 1) % cap) size := by
  rw [ringItems, List.range_succ_eq_map, List.map_cons, List.map_map, ringItems, Nat.add_zero]
  congr 1
  refine List.map_congr_left fun i _ => ?_
  rw [Function.comp_apply, Nat.mod_add_mod, Nat.succ_eq_add_one, Nat.add_right_comm, Nat.add_assoc header i 1]

end Ring

end Tmpi
