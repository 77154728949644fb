import Mathlib.Algebra.Order.Group.Nat
import Mathlib.Data.Nat.Bitwise
import Mathlib.Data.Finset.Card
import Mathlib.Order.Interval.Finset.Nat
import Mathlib.Logic.Relation
import Mathlib.Tactic

/-! The binomial tree on the natural numbers: the parent of a number clears its
lowest set bit. Below a bound it truncates to a spanning tree of `0 .. bound-1`
in which a subtree is an interval. -/

namespace Tmpi.Binomial

/-- `child` arises from `parent` by setting bit `bit`, below all bits of `parent`. -/
def Edge (parent child bit : Nat) : Prop := parent % 2^(bit+1) = 0 ∧ child = parent + 2^bit

theorem edge_lt {parent child bit : Nat} (edge : Edge parent child bit) : parent < child := by
  have := edge.2
  have := Nat.two_pow_pos bit
  omega

theorem edge_div {parent child bit : Nat} (edge : Edge parent child bit) (level : Nat)
    (above : bit < level) : child / 2^level = parent / 2^level := by
  obtain ⟨clear, rfl⟩ := edge
  obtain ⟨quotient, rfl⟩ := Nat.dvd_of_mod_eq_zero clear
  obtain ⟨extra, rfl⟩ := Nat.exists_eq_add_of_lt above
  have split : 2^(bit + extra + 1) = 2^(bit+1) * 2^extra := by ring
  have low : (2^(bit+1) * quotient + 2^bit) / 2^(bit+1) = quotient := by
    rw [Nat.mul_add_div (by positivity), Nat.div_eq_of_lt (Nat.pow_lt_pow_right (by decide) (by omega))]
    rfl
  rw [split, ← Nat.div_div_eq_div_mul, ← Nat.div_div_eq_div_mul, low,
    Nat.mul_div_cancel_left _ (by positivity)]

theorem edge_odd {parent child bit : Nat} (edge : Edge parent child bit) :
    ∃ half, child = 2^bit * (2*half+1) := by
  obtain ⟨clear, rfl⟩ := edge
  obtain ⟨quotient, rfl⟩ := Nat.dvd_of_mod_eq_zero clear
  exact ⟨quotient, by ring⟩

theorem odd_edge (bit half : Nat) : Edge (2^(bit+1) * half) (2^bit * (2*half+1)) bit :=
  ⟨Nat.mul_mod_right _ _, by ring⟩

theorem two_pow_odd_unique {a b x y : Nat} (same : 2^a * (2*x+1) = 2^b * (2*y+1)) :
    a = b ∧ x = y := by
  have equal : a = b := by
    rcases Nat.lt_trichotomy a b with less | equal | less
    · obtain ⟨d, rfl⟩ := Nat.exists_eq_add_of_lt less
      have cancel : 2*x+1 = 2 * (2^d * (2*y+1)) := by
        apply Nat.eq_of_mul_eq_mul_left (Nat.two_pow_pos a)
        rw [same]; ring
      omega
    · exact equal
    · obtain ⟨d, rfl⟩ := Nat.exists_eq_add_of_lt less
      have cancel : 2*y+1 = 2 * (2^d * (2*x+1)) := by
        apply Nat.eq_of_mul_eq_mul_left (Nat.two_pow_pos b)
        rw [← same]; ring
      omega
  subst equal
  have cancel := Nat.eq_of_mul_eq_mul_left (Nat.two_pow_pos a) same
  exact ⟨rfl, by omega⟩

theorem edge_unique {parent other child bit level : Nat} (left : Edge parent child bit)
    (right : Edge other child level) : parent = other ∧ bit = level := by
  obtain ⟨x, hx⟩ := edge_odd left
  obtain ⟨y, hy⟩ := edge_odd right
  obtain ⟨rfl, rfl⟩ := two_pow_odd_unique (hx.symm.trans hy)
  have := left.2
  have := right.2
  exact ⟨by omega, rfl⟩

theorem exists_edge {child : Nat} (nonzero : child ≠ 0) : ∃ parent bit, Edge parent child bit := by
  obtain ⟨bit, odd, isOdd, rfl⟩ := Nat.exists_eq_two_pow_mul_odd nonzero
  obtain ⟨half, rfl⟩ := isOdd
  exact ⟨2^(bit+1) * half, bit, odd_edge bit half⟩

/-- Number `v` lies in the subtree of `c`: clearing lowest bits leads from `v` to `c`. -/
def Below (c v : Nat) : Prop :=
  Relation.ReflTransGen (fun child parent => ∃ bit, Edge parent child bit) v c

/-- The subtree of a number with lowest set bit `level` is the interval of the
numbers that agree with it from that bit on. -/
theorem below_iff {p c level : Nat} (edge : Edge p c level) (v : Nat) :
    Below c v ↔ v / 2^level = c / 2^level := by
  obtain ⟨half, isOdd⟩ := edge_odd edge
  have quotient : c / 2^level = 2*half+1 := by
    rw [isOdd, Nat.mul_div_cancel_left _ (by positivity)]
  constructor
  · intro below
    induction below using Relation.ReflTransGen.head_induction_on with
    | refl => rfl
    | @head v w stepped _ ih =>
        obtain ⟨bit, up⟩ := stepped
        by_cases above : bit < level
        · rw [edge_div up level above, ih]
        · -- a parent cleared at or above `level` has an even quotient there
          have divides : 2^(level+1) ∣ w :=
            dvd_trans (pow_dvd_pow 2 (by omega)) (Nat.dvd_of_mod_eq_zero up.1)
          obtain ⟨q, rfl⟩ := divides
          have even : 2^(level+1) * q / 2^level = 2 * q := by
            rw [show 2^(level+1) * q = 2^level * (2*q) by ring,
              Nat.mul_div_cancel_left _ (by positivity)]
          omega
  · intro agree
    induction v using Nat.strong_induction_on with
    | _ v ih =>
        by_cases same : v % 2^level = 0
        · have equal : v = c := by
            rw [isOdd, ← Nat.div_add_mod v (2^level), same, agree, quotient, Nat.add_zero]
          rw [equal]
          exact Relation.ReflTransGen.refl
        · have nonzero : v ≠ 0 := by
            rintro rfl
            exact same (Nat.zero_mod _)
          obtain ⟨w, bit, up⟩ := exists_edge nonzero
          have above : bit < level := by
            by_contra high
            apply same
            obtain ⟨h, rfl⟩ := edge_odd up
            exact Nat.mod_eq_zero_of_dvd
              (Dvd.dvd.mul_right (pow_dvd_pow 2 (by omega)) _)
          exact Relation.ReflTransGen.head ⟨bit, up⟩
            (ih w (edge_lt up) (by rw [← edge_div up level above, agree]))

theorem below_zero (v : Nat) : Below 0 v := by
  induction v using Nat.strong_induction_on with
  | _ v ih =>
      by_cases zero : v = 0
      · rw [zero]
        exact Relation.ReflTransGen.refl
      · obtain ⟨w, bit, up⟩ := exists_edge zero
        exact Relation.ReflTransGen.head ⟨bit, up⟩ (ih w (edge_lt up))

theorem card_interval (bound c level : Nat) (aligned : 2^level ∣ c) :
    ((Finset.range bound).filter fun v => v / 2^level = c / 2^level).card =
      min (2^level) (bound - c) := by
  obtain ⟨q, rfl⟩ := aligned
  have same : (Finset.range bound).filter (fun v => v / 2^level = 2^level * q / 2^level) =
      Finset.Ico (2^level * q) (min (2^level * q + 2^level) bound) := by
    ext v
    simp only [Finset.mem_filter, Finset.mem_range, Finset.mem_Ico, lt_min_iff]
    rw [Nat.mul_div_cancel_left _ (Nat.two_pow_pos level), Nat.div_eq_iff (Nat.two_pow_pos level)]
    have := Nat.two_pow_pos level
    constructor <;> rintro ⟨_, _⟩ <;> constructor <;> grind
  rw [same, Nat.card_Ico]
  generalize 2^level * q = base
  generalize 2^level = width
  omega

end Tmpi.Binomial
