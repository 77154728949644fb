import Tmpi.Lib.Binomial
import Mathlib.Data.List.InsertIdx

/-! `netd_make_hcube`: the hypercube spanning tree of a group of machines.

Ids and sizes are the group's `int`s as naturals; `netq.h` caps a group at 256
machines, so no sum in the construction leaves the `int` range. The tree is
computed once for each root and cached by the source; the cached value is the one
computed here. -/

namespace Tmpi.Netd

/-- `NETD_HCUBE_INFO`: `up` is -1 at the root, `nChildren` is the length of `children`. -/
structure HcubeInfo where
  up : Int
  children : List Nat
  deriving DecidableEq, Repr

/-- `a & ~b`, at any width. -/
def andNot (a b : Nat) : Nat := a &&& (a ^^^ b)

/-- A store into the children array; `none` is a store outside it. -/
def storeAt (a : List Nat) (i x : Nat) : Option (List Nat) :=
  if i < a.length then some (a.set i x) else none

/-- `while (mask<size)`: the mask the loop stops with and the number of children.
The mask doubles in every round, so `size` rounds are enough. -/
def hcubeScan (size idx : Nat) : Nat → Nat → Nat → Nat × Nat
  | 0, mask, k => (mask, k)
  | fuel + 1, mask, k =>
      if mask < size then
        if mask &&& idx ≠ 0 then (mask, k)
        else hcubeScan size idx fuel (mask <<< 1) (if mask ||| idx < size then k + 1 else k)
      else (mask, k)

/-- `for (i=0; i<k; i++)`, with `k-i` rounds left: the slot `k-i-1` gets the next child. -/
def hcubeFill (size idx root : Nat) : Nat → Nat → List Nat → Option (List Nat × Nat)
  | 0, mask, a => some (a, mask)
  | left + 1, mask, a => do
      let a ← storeAt a left (((mask ||| idx) + root) % size)
      hcubeFill size idx root left (mask <<< 1) a

/-- `while (last_stree_size<mask)`: shifts the children in front of the first one down.
A loop that has not ended after `fuel` rounds counts as a failure. -/
def hcubeShift (lastStreeSize : Nat) : Nat → Nat → Nat → List Nat → Option (List Nat × Nat)
  | 0, _, _, _ => none
  | fuel + 1, mask, k, a =>
      if lastStreeSize < mask then do
        let x ← a[k + 1]?
        let a ← storeAt a k x
        hcubeShift lastStreeSize fuel (mask >>> 1) (k + 1) a
      else some (a, k)

def netdMakeHcube (size myid root : Nat) : Option HcubeInfo :=
  let idx := (size + myid - root) % size
  let scan := hcubeScan size idx size 1 0
  let mask := scan.1
  let k := scan.2
  let up : Int := if idx = 0 then -1 else ((andNot idx mask + root) % size : Nat)
  if k > 0 then do
    let (a, mask) ← hcubeFill size idx root k 1 (List.replicate k 0)
    let mask := mask >>> 1
    let lastStreeNode ← a[0]?
    let lastStreeSize := min mask (size - (lastStreeNode + size - root) % size)
    let (a, slot) ← hcubeShift lastStreeSize k (mask >>> 1) 0 a
    let a ← storeAt a slot lastStreeNode
    some ⟨up, a⟩
  else some ⟨up, []⟩

example : netdMakeHcube 9 0 0 = some ⟨-1, [4, 2, 8, 1]⟩ := by decide
example : netdMakeHcube 9 2 3 = some ⟨3, []⟩ := by decide

/-! ## The scan -/

theorem and_two_pow_ne_zero (idx j : Nat) : (2^j &&& idx ≠ 0) ↔ idx.testBit j = true := by
  rw [Nat.two_pow_and]
  cases idx.testBit j <;> simp

theorem or_two_pow {idx j : Nat} (clear : idx % 2^(j+1) = 0) : 2^j ||| idx = idx + 2^j := by
  obtain ⟨q, rfl⟩ := Nat.dvd_of_mod_eq_zero clear
  rw [Nat.two_pow_add_eq_or_of_lt (Nat.pow_lt_pow_right (by decide) (by omega)), Nat.or_comm]

theorem mod_succ_of_testBit {idx j : Nat} (clear : idx % 2^j = 0) :
    idx % 2^(j+1) = if idx.testBit j then 2^j else 0 := by
  rw [Nat.mod_pow_succ, clear, ← Nat.toNat_testBit]
  cases idx.testBit j <;> simp

theorem andNot_two_pow {idx j : Nat} (clear : idx % 2^j = 0) (bit : idx.testBit j = true) :
    Binomial.Edge (andNot idx (2^j)) idx j := by
  have remainder := mod_succ_of_testBit clear
  rw [if_pos bit] at remainder
  have split := Nat.div_add_mod idx (2^(j+1))
  rw [remainder] at split
  have small : 2^j < 2^(j+1) := Nat.pow_lt_pow_right (by decide) (by omega)
  generalize idx / 2^(j+1) = high at split
  rw [← split, Nat.two_pow_add_eq_or_of_lt small]
  have cleared : andNot (2^(j+1) * high ||| 2^j) (2^j) = 2^(j+1) * high := by
    apply Nat.eq_of_testBit_eq
    intro i
    simp only [andNot, Nat.testBit_and, Nat.testBit_xor, Nat.testBit_or, Nat.testBit_two_pow,
      Nat.testBit_two_pow_mul]
    by_cases here : j = i
    · subst here; simp
    · simp [here]
  rw [cleared, ← Nat.two_pow_add_eq_or_of_lt small]
  exact ⟨Nat.mul_mod_right _ _, rfl⟩

/-- What the scan has established when it looks at bit `j`: the bits below are
clear and `k` of them give a child inside the group. -/
structure Scanned (size idx j k : Nat) : Prop where
  clear : idx % 2^j = 0
  within : k ≤ j
  inside : ∀ i, i < k → idx + 2^i < size
  full : k < j → size ≤ idx + 2^k

theorem hcubeScan_spec (size idx : Nat) (fuel j k : Nat) (enough : size ≤ fuel + j)
    (scanned : Scanned size idx j k) :
    ∃ stop, (hcubeScan size idx fuel (2^j) k).1 = 2^stop ∧
      Scanned size idx stop (hcubeScan size idx fuel (2^j) k).2 ∧
      (size ≤ 2^stop ∨ idx.testBit stop = true) := by
  induction fuel generalizing j k with
  | zero =>
      have := Nat.lt_two_pow_self (n := j)
      exact ⟨j, rfl, scanned, Or.inl (by omega)⟩
  | succ fuel ih =>
      rw [hcubeScan]
      by_cases below : 2^j < size
      · rw [if_pos below]
        by_cases bit : idx.testBit j = true
        · rw [if_pos ((and_two_pow_ne_zero idx j).mpr bit)]
          exact ⟨j, rfl, scanned, Or.inr bit⟩
        · rw [if_neg (fun h => bit ((and_two_pow_ne_zero idx j).mp h))]
          have clear : idx % 2^(j+1) = 0 := by
            rw [mod_succ_of_testBit scanned.clear, if_neg bit]
          rw [show 2^j <<< 1 = 2^(j+1) by rw [Nat.shiftLeft_eq]; ring, or_two_pow clear]
          apply ih _ _ (by omega)
          by_cases fits : idx + 2^j < size
          · rw [if_pos fits]
            -- a child at bit `j` fits, so all those below it did
            have equal : k = j := by
              by_contra differ
              have less : k < j := lt_of_le_of_ne scanned.within differ
              have := scanned.full less
              have := Nat.pow_lt_pow_right (a := 2) (by decide) less
              omega
            subst equal
            refine ⟨clear, le_refl _, ?_, by omega⟩
            intro i less
            rcases Nat.lt_succ_iff_lt_or_eq.mp less with less | rfl
            · exact scanned.inside i less
            · exact fits
          · rw [if_neg fits]
            refine ⟨clear, Nat.le_succ_of_le scanned.within, scanned.inside, ?_⟩
            intro _
            rcases Nat.lt_or_eq_of_le scanned.within with less | rfl
            · exact scanned.full less
            · omega
      · rw [if_neg below]
        exact ⟨j, rfl, scanned, Or.inl (by omega)⟩

/-! ## Filling and reordering the array -/

def countdown (n : Nat) : List Nat := (List.range n).reverse

theorem countdown_succ (n : Nat) : countdown (n+1) = n :: countdown n := by
  simp [countdown, List.range_succ]

theorem countdown_succ_last (n : Nat) :
    countdown (n+1) = (countdown n).map (· + 1) ++ [0] := by
  simp [countdown, List.range_succ_eq_map]

theorem length_countdown (n : Nat) : (countdown n).length = n := by
  simp [countdown]

theorem getElem_countdown (n i : Nat) (bound : i < (countdown n).length) :
    (countdown n)[i] = n - 1 - i := by
  simp [countdown]

theorem hcubeFill_spec (size idx root left bit : Nat) (a : List Nat) (room : left ≤ a.length) :
    hcubeFill size idx root left (2^bit) a =
      some ((countdown left).map (fun e => ((2^(bit+e) ||| idx) + root) % size) ++ a.drop left,
        2^(bit+left)) := by
  induction left generalizing bit a with
  | zero => simp [hcubeFill, countdown]
  | succ left ih =>
      have stored : storeAt a left (((2^bit ||| idx) + root) % size) =
          some (a.set left (((2^bit ||| idx) + root) % size)) := by
        rw [storeAt, if_pos (by omega)]
      rw [hcubeFill, stored, Option.bind_eq_bind, Option.bind_some,
        show 2^bit <<< 1 = 2^(bit+1) by rw [Nat.shiftLeft_eq]; ring,
        ih (bit+1) _ (by rw [List.length_set]; omega), countdown_succ_last]
      have rest : (a.set left (((2^bit ||| idx) + root) % size)).drop left =
          ((2^bit ||| idx) + root) % size :: a.drop (left+1) := by
        rw [List.drop_eq_getElem_cons (by rw [List.length_set]; omega), List.getElem_set_self,
          List.drop_set, if_pos (by omega)]
      rw [rest]
      simp [Nat.add_comm, Nat.add_left_comm]

/-- The reordering loop keeps the array of the form "a prefix of the other children,
one slot that will be overwritten, the rest of them". -/
theorem hcubeShift_spec (last top : Nat) (others : List Nat)
    (stops : ∀ i, others.length ≤ i → top >>> i ≤ last) (fuel k x : Nat)
    (reach : k ≤ others.length) (enough : others.length < fuel + k) :
    ∃ slot y, hcubeShift last fuel (top >>> k) k (others.take k ++ x :: others.drop k) =
        some (others.take slot ++ y :: others.drop slot, slot) ∧
      slot ≤ others.length ∧ (∀ i, k ≤ i → i < slot → last < top >>> i) ∧
      top >>> slot ≤ last := by
  induction fuel generalizing k x with
  | zero => omega
  | succ fuel ih =>
      rw [hcubeShift]
      by_cases more : last < top >>> k
      · rw [if_pos more]
        have bound : k < others.length := by
          by_contra out
          have := stops k (by omega)
          omega
        have next : (others.take k ++ x :: others.drop k)[k+1]? = some others[k] := by
          rw [List.getElem?_append_right (by rw [List.length_take]; omega)]
          have offset : k + 1 - (others.take k).length = 1 := by
            rw [List.length_take]; omega
          rw [offset, List.drop_eq_getElem_cons bound]
          rfl
        have stored : storeAt (others.take k ++ x :: others.drop k) k others[k] =
            some (others.take (k+1) ++ others[k] :: others.drop (k+1)) := by
          rw [storeAt, if_pos (by simp; omega)]
          have width : (others.take k).length = k := by rw [List.length_take]; omega
          rw [List.set_append_right _ _ (by omega), width, Nat.sub_self, List.set_cons_zero,
            List.drop_eq_getElem_cons bound, List.take_succ_eq_append_getElem bound]
          simp only [List.append_assoc, List.singleton_append]
        rw [next, Option.bind_eq_bind, Option.bind_some, stored, Option.bind_eq_bind,
          Option.bind_some, ← Nat.shiftRight_add]
        obtain ⟨slot, y, ran, within, before, stop⟩ := ih (k+1) others[k] (by omega) (by omega)
        refine ⟨slot, y, ran, within, ?_, stop⟩
        intro i low high
        rcases Nat.eq_or_lt_of_le low with rfl | low
        · exact more
        · exact before i low high
      · rw [if_neg more]
        exact ⟨k, x, rfl, reach, by omega, by omega⟩

/-! ## The tree of one node -/

/-- The exponents of the children of a node, in the order of its array. -/
def childExponents (k slot : Nat) : List Nat :=
  (countdown (k-1)).take slot ++ (k-1) :: (countdown (k-1)).drop slot

def rotate (size root idx : Nat) : Nat := (idx + root) % size

def unrotate (size root v : Nat) : Nat := (size + v - root) % size

theorem rotate_unrotate {size root v : Nat} (inRoot : root < size) (inV : v < size) :
    rotate size root (unrotate size root v) = v := by
  simp only [rotate, unrotate, Nat.mod_add_mod]
  rw [show size + v - root + root = v + size by omega, Nat.add_mod_right, Nat.mod_eq_of_lt inV]

theorem unrotate_rotate {size root idx : Nat} (inRoot : root < size) (inIdx : idx < size) :
    unrotate size root (rotate size root idx) = idx := by
  simp only [rotate, unrotate]
  by_cases wraps : idx + root < size
  · rw [Nat.mod_eq_of_lt wraps, show size + (idx + root) - root = idx + size by omega,
      Nat.add_mod_right, Nat.mod_eq_of_lt inIdx]
  · have wrapped : (idx + root) % size = idx + root - size := by
      rw [Nat.mod_eq_sub_mod (by omega), Nat.mod_eq_of_lt (by omega)]
    rw [wrapped, show size + (idx + root - size) - root = idx by omega, Nat.mod_eq_of_lt inIdx]

theorem rotate_lt {size root : Nat} (positive : 0 < size) (idx : Nat) :
    rotate size root idx < size := Nat.mod_lt _ positive

theorem unrotate_lt {size : Nat} (positive : 0 < size) (root v : Nat) :
    unrotate size root v < size := Nat.mod_lt _ positive

/-- The size of the subtree at the child for bit `e` of the node `idx`. -/
def weight (size idx e : Nat) : Nat := min (2^e) (size - (idx + 2^e))

/-- What `netd_make_hcube` computes on the node with rotated id `idx`: its parent
clears the lowest bit, its children set a lower one, heavy children first. -/
structure NodeSpec (size root idx : Nat) (tr : HcubeInfo) : Prop where
  up_root : idx = 0 → tr.up = -1
  up_edge : idx ≠ 0 → ∃ parent bit, Binomial.Edge parent idx bit ∧
    tr.up = (rotate size root parent : Nat)
  kids : ∃ exps : List Nat, tr.children = exps.map (fun e => rotate size root (idx + 2^e)) ∧
    exps.Nodup ∧ (∀ e, e ∈ exps ↔ idx % 2^(e+1) = 0 ∧ idx + 2^e < size) ∧
    exps.Pairwise fun e f => weight size idx f ≤ weight size idx e

theorem scanned_mem {size idx stop k : Nat} (scanned : Scanned size idx stop k)
    (exit : size ≤ 2^stop ∨ idx.testBit stop = true) (e : Nat) :
    e < k ↔ idx % 2^(e+1) = 0 ∧ idx + 2^e < size := by
  constructor
  · intro less
    refine ⟨?_, scanned.inside e less⟩
    apply Nat.mod_eq_zero_of_dvd
    exact dvd_trans (pow_dvd_pow 2 (by have := scanned.within; omega))
      (Nat.dvd_of_mod_eq_zero scanned.clear)
  · rintro ⟨clear, fits⟩
    by_contra high
    rcases Nat.lt_or_eq_of_le scanned.within with less | equal
    · have := scanned.full less
      have := Nat.pow_le_pow_right (n := 2) (by decide) (by omega : k ≤ e)
      omega
    · subst equal
      rcases exit with large | bit
      · have := Nat.pow_le_pow_right (n := 2) (by decide) (by omega : k ≤ e)
        omega
      · have low : idx % 2^(k+1) = 0 := by
          apply Nat.mod_eq_zero_of_dvd
          exact dvd_trans (pow_dvd_pow 2 (by omega)) (Nat.dvd_of_mod_eq_zero clear)
        rw [mod_succ_of_testBit scanned.clear, if_pos bit] at low
        have := Nat.two_pow_pos k
        omega

theorem childExponents_perm (k slot : Nat) :
    (childExponents k slot).Perm ((k-1) :: countdown (k-1)) := by
  have middle : (childExponents k slot).Perm
      ((k-1) :: ((countdown (k-1)).take slot ++ (countdown (k-1)).drop slot)) := List.perm_middle
  rwa [List.take_append_drop] at middle

theorem mem_childExponents {k slot : Nat} (positive : 0 < k) (e : Nat) :
    e ∈ childExponents k slot ↔ e < k := by
  rw [(childExponents_perm k slot).mem_iff]
  simp only [countdown, List.mem_cons, List.mem_reverse, List.mem_range]
  omega

theorem nodup_childExponents (k slot : Nat) : (childExponents k slot).Nodup := by
  rw [(childExponents_perm k slot).nodup_iff]
  simp [countdown, List.nodup_range]

/-- Only the subtree at the highest child can be cut off by the group size. -/
theorem weight_complete {size idx stop k e : Nat} (scanned : Scanned size idx stop k)
    (less : e < k - 1) : weight size idx e = 2^e := by
  have fits := scanned.inside (k-1) (by omega)
  have := Nat.pow_le_pow_right (n := 2) (by decide) (by omega : e + 1 ≤ k - 1)
  rw [Nat.pow_succ] at this
  rw [weight, Nat.min_eq_left (by omega)]

theorem childExponents_sorted {size idx stop k slot : Nat} (scanned : Scanned size idx stop k)
    (within : slot ≤ k - 1)
    (before : ∀ i, i < slot → weight size idx (k-1) < (2^(k-1) >>> 1) >>> i)
    (after : (2^(k-1) >>> 1) >>> slot ≤ weight size idx (k-1)) :
    (childExponents k slot).Pairwise fun e f => weight size idx f ≤ weight size idx e := by
  have power (i : Nat) (bound : i < k - 1) : (2^(k-1) >>> 1) >>> i = 2^(k-1-1-i) := by
    rw [← Nat.shiftRight_add, Nat.shiftRight_eq_div_pow,
      Nat.pow_div (by omega) (by decide)]
    congr 1
    omega
  have descending : (countdown (k-1)).Pairwise
      fun e f => weight size idx f ≤ weight size idx e := by
    have decreasing : (countdown (k-1)).Pairwise fun e f => f < e := by
      simp only [countdown, List.pairwise_reverse]
      exact List.pairwise_lt_range
    apply List.Pairwise.imp_of_mem _ decreasing
    intro e f memE memF less
    simp only [countdown, List.mem_reverse, List.mem_range] at memE memF
    rw [weight_complete scanned memE, weight_complete scanned memF]
    exact Nat.pow_le_pow_right (by decide) less.le
  rw [childExponents, List.pairwise_append, List.pairwise_cons]
  refine ⟨descending.sublist (List.take_sublist _ _),
    ⟨?_, descending.sublist (List.drop_sublist _ _)⟩, ?_⟩
  · intro e member
    obtain ⟨i, bound, rfl⟩ := List.mem_iff_getElem.mp member
    rw [List.length_drop, length_countdown] at bound
    rw [List.getElem_drop, getElem_countdown, weight_complete scanned (by omega)]
    rw [power slot (by omega)] at after
    exact le_trans (Nat.pow_le_pow_right (by decide) (by omega)) after
  · intro e memE f memF
    obtain ⟨i, bound, rfl⟩ := List.mem_iff_getElem.mp memE
    rw [List.length_take, length_countdown, Nat.lt_min] at bound
    rw [List.getElem_take, getElem_countdown]
    rcases List.mem_cons.mp memF with rfl | memF
    · have less := before i (by omega)
      rw [power i (by omega)] at less
      rw [weight_complete (e := k-1-1-i) scanned (by omega)]
      exact less.le
    · obtain ⟨j, bound', rfl⟩ := List.mem_iff_getElem.mp memF
      rw [List.length_drop, length_countdown] at bound'
      rw [List.getElem_drop, getElem_countdown, weight_complete scanned (by omega),
        weight_complete scanned (by omega)]
      exact Nat.pow_le_pow_right (by decide) (by omega)

theorem netdMakeHcube_spec {size root v : Nat} (inRoot : root < size) (inV : v < size) :
    ∃ tr, netdMakeHcube size v root = some tr ∧ NodeSpec size root (unrotate size root v) tr := by
  have inIdx : unrotate size root v < size := unrotate_lt (by omega) root v
  obtain ⟨stop, masked, scanned, exit⟩ := hcubeScan_spec size (unrotate size root v) size 0 0
    (by omega) ⟨Nat.mod_one _, le_refl _, by omega, by omega⟩
  rw [Nat.pow_zero] at masked scanned
  have up_edge : unrotate size root v ≠ 0 →
      Binomial.Edge (andNot (unrotate size root v) (2^stop)) (unrotate size root v) stop := by
    intro nonzero
    apply andNot_two_pow scanned.clear
    rcases exit with large | bit
    · exfalso
      apply nonzero
      have := scanned.clear
      rwa [Nat.mod_eq_of_lt (by omega)] at this
    · exact bit
  have member := scanned_mem scanned exit
  unfold netdMakeHcube
  simp only [show (size + v - root) % size = unrotate size root v from rfl, masked]
  generalize (hcubeScan size (unrotate size root v) size 1 0).2 = k at scanned member ⊢
  generalize unrotate size root v = idx at inIdx scanned exit up_edge member ⊢
  by_cases positive : k > 0
  · rw [if_pos positive]
    obtain ⟨n, rfl⟩ : ∃ n, k = n + 1 := ⟨k - 1, by omega⟩
    have filled := hcubeFill_spec size idx root (n+1) 0 (List.replicate (n+1) 0) (by simp)
    have entries : (countdown (n+1)).map (fun e => ((2^(0+e) ||| idx) + root) % size) =
        (countdown (n+1)).map (fun e => rotate size root (idx + 2^e)) := by
      apply List.map_congr_left
      intro e present
      have less : e < n + 1 := by simpa [countdown] using present
      rw [Nat.zero_add, or_two_pow ((member e).mp less).1, rotate]
    rw [entries, List.drop_eq_nil_of_le (by simp), List.append_nil, Nat.zero_add,
      Nat.pow_zero] at filled
    rw [filled, Option.bind_eq_bind, Option.bind_some, countdown_succ, List.map_cons]
    simp only [List.getElem?_cons_zero, Option.bind_some, Option.bind_eq_bind]
    have fits := ((member n).mp (by omega)).2
    have lastSize : min (2^(n+1) >>> 1)
        (size - (rotate size root (idx + 2^n) + size - root) % size) = weight size idx n := by
      have shifted : 2^(n+1) >>> 1 = 2^n := by
        rw [Nat.shiftRight_eq_div_pow, Nat.pow_div (by omega) (by decide), Nat.add_sub_cancel]
      have back := unrotate_rotate inRoot fits
      rw [unrotate, Nat.add_comm size] at back
      rw [shifted, back, weight]
    have top : 2^(n+1) >>> 1 >>> 1 = (2^n >>> 1) >>> 0 := by
      rw [Nat.shiftRight_zero, ← Nat.shiftRight_add, Nat.shiftRight_eq_div_pow,
        Nat.shiftRight_eq_div_pow, Nat.pow_succ, Nat.pow_succ 2 1,
        Nat.mul_div_mul_right _ _ (by decide)]
    have heavy : 1 ≤ weight size idx n := by
      rw [weight, Nat.le_min]
      exact ⟨Nat.one_le_two_pow, by omega⟩
    obtain ⟨slot, y, shifted, within, before, after⟩ :=
      hcubeShift_spec (weight size idx n) (2^n >>> 1)
        ((countdown n).map fun e => rotate size root (idx + 2^e))
        (by
          intro i high
          rw [List.length_map, length_countdown] at high
          rw [← Nat.shiftRight_add, Nat.shiftRight_eq_div_pow,
            Nat.div_eq_of_lt (Nat.pow_lt_pow_right (by decide) (by omega))]
          omega)
        (n+1) 0 (rotate size root (idx + 2^n)) (by omega)
        (by rw [List.length_map, length_countdown]; omega)
    rw [List.length_map, length_countdown] at within
    simp only [List.take_zero, List.nil_append, List.drop_zero] at shifted
    have width : (((countdown n).map fun e => rotate size root (idx + 2^e)).take slot).length =
        slot := by
      rw [List.length_take, List.length_map, length_countdown, Nat.min_eq_left within]
    have stored : storeAt (((countdown n).map fun e => rotate size root (idx + 2^e)).take slot ++
          y :: ((countdown n).map fun e => rotate size root (idx + 2^e)).drop slot) slot
          (rotate size root (idx + 2^n)) =
        some ((childExponents (n+1) slot).map fun e => rotate size root (idx + 2^e)) := by
      rw [storeAt, if_pos (by rw [List.length_append, width, List.length_cons]; omega),
        List.set_append_right _ _ (by omega), width, Nat.sub_self, List.set_cons_zero,
        childExponents, Nat.add_sub_cancel, List.map_append, List.map_cons, List.map_take,
        List.map_drop]
    rw [lastSize, top, shifted, Option.bind_some, stored, Option.bind_some]
    refine ⟨_, rfl, ?_, ?_, childExponents (n+1) slot, rfl, nodup_childExponents _ _, ?_, ?_⟩
    · intro zero
      simp [zero]
    · intro nonzero
      exact ⟨_, stop, up_edge nonzero, by simp [nonzero, rotate]⟩
    · intro e
      rw [mem_childExponents (by omega), member e]
    · exact childExponents_sorted scanned within (fun i less => before i (by omega) less) after
  · rw [if_neg positive]
    refine ⟨_, rfl, ?_, ?_, [], rfl, List.nodup_nil, ?_, List.Pairwise.nil⟩
    · intro zero
      simp [zero]
    · intro nonzero
      exact ⟨_, stop, up_edge nonzero, by simp [nonzero, rotate]⟩
    · intro e
      rw [← member e]
      simp
      omega

/-! ## The tree of the group -/

/-- The tree entry each node computes for `root`. -/
def hcubeOf (size root v : Nat) : HcubeInfo := (netdMakeHcube size v root).getD ⟨-1, []⟩

/-- One step from a node to the node it computes as its parent. -/
def Climbs (size root : Nat) (v w : Nat) : Prop := (hcubeOf size root v).up = w

open Classical in
/-- The nodes from which following `up` leads to `c`. -/
noncomputable def hcubeSubtree (size root c : Nat) : Finset Nat :=
  (Finset.range size).filter fun v => Relation.ReflTransGen (Climbs size root) v c

theorem hcubeOf_spec {size root v : Nat} (inRoot : root < size) (inV : v < size) :
    netdMakeHcube size v root = some (hcubeOf size root v) ∧
      NodeSpec size root (unrotate size root v) (hcubeOf size root v) := by
  obtain ⟨tr, made, spec⟩ := netdMakeHcube_spec inRoot inV
  have same : hcubeOf size root v = tr := by simp [hcubeOf, made]
  rw [same]
  exact ⟨made, spec⟩

theorem unrotate_root (size root : Nat) : unrotate size root root = 0 := by
  rw [unrotate, Nat.add_sub_cancel, Nat.mod_self]

theorem climbs_iff {size root v w : Nat} (inRoot : root < size) (inV : v < size)
    (inW : w < size) : Climbs size root v w ↔
      ∃ bit, Binomial.Edge (unrotate size root w) (unrotate size root v) bit := by
  have spec := (hcubeOf_spec inRoot inV).2
  constructor
  · intro climbs
    by_cases zero : unrotate size root v = 0
    · rw [Climbs, spec.up_root zero] at climbs
      omega
    · obtain ⟨parent, bit, edge, up⟩ := spec.up_edge zero
      rw [Climbs, up, Int.natCast_inj] at climbs
      have bound : parent < size :=
        (Binomial.edge_lt edge).trans (unrotate_lt (by omega : 0 < size) root v)
      rw [← climbs, unrotate_rotate inRoot bound]
      exact ⟨bit, edge⟩
  · rintro ⟨bit, edge⟩
    have nonzero : unrotate size root v ≠ 0 := by
      have := Binomial.edge_lt edge
      omega
    obtain ⟨parent, bit', edge', up⟩ := spec.up_edge nonzero
    obtain ⟨rfl, rfl⟩ := Binomial.edge_unique edge' edge
    rw [Climbs, up, rotate_unrotate inRoot inW]

theorem climbs_lt {size root v w : Nat} (inRoot : root < size) (inV : v < size)
    (climbs : Climbs size root v w) : w < size := by
  have spec := (hcubeOf_spec inRoot inV).2
  by_cases zero : unrotate size root v = 0
  · rw [Climbs, spec.up_root zero] at climbs
    omega
  · obtain ⟨parent, bit, _, up⟩ := spec.up_edge zero
    rw [Climbs, up, Int.natCast_inj] at climbs
    rw [← climbs]
    exact rotate_lt (by omega) _

theorem climbs_star_iff {size root v c : Nat} (inRoot : root < size) (inV : v < size)
    (inC : c < size) : Relation.ReflTransGen (Climbs size root) v c ↔
      Binomial.Below (unrotate size root c) (unrotate size root v) := by
  constructor
  · intro path
    induction path using Relation.ReflTransGen.head_induction_on with
    | refl => exact Relation.ReflTransGen.refl
    | @head v w climbs _ ih =>
        have inW := climbs_lt inRoot inV climbs
        exact Relation.ReflTransGen.head ((climbs_iff inRoot inV inW).mp climbs) (ih inW)
  · intro below
    generalize target : unrotate size root c = i at below
    generalize start : unrotate size root v = j at below
    induction below using Relation.ReflTransGen.head_induction_on generalizing v with
    | refl =>
        rw [← rotate_unrotate inRoot inV, ← rotate_unrotate inRoot inC, start, target]
    | @head j k edge _ ih =>
        obtain ⟨bit, edge⟩ := edge
        have bound : k < size := by
          rw [← start] at edge
          exact (Binomial.edge_lt edge).trans (unrotate_lt (by omega : 0 < size) root v)
        have back := unrotate_rotate inRoot bound
        have inW : rotate size root k < size := rotate_lt (by omega) k
        refine Relation.ReflTransGen.head ((climbs_iff inRoot inV inW).mpr ⟨bit, ?_⟩) (ih inW back)
        rw [back, start]
        exact edge

theorem mem_children_iff {size root p c : Nat} (inRoot : root < size) (inP : p < size)
    (inC : c < size) : c ∈ (hcubeOf size root p).children ↔ (hcubeOf size root c).up = p := by
  change _ ↔ Climbs size root c p
  obtain ⟨exps, listed, _, mem, _⟩ := (hcubeOf_spec inRoot inP).2.kids
  rw [climbs_iff inRoot inC inP, listed, List.mem_map]
  constructor
  · rintro ⟨e, present, rfl⟩
    obtain ⟨clear, fits⟩ := (mem e).mp present
    exact ⟨e, clear, unrotate_rotate inRoot fits⟩
  · rintro ⟨e, clear, sum⟩
    have fits : unrotate size root p + 2^e < size := by
      rw [← sum]
      exact unrotate_lt (by omega) root c
    exact ⟨e, (mem e).mpr ⟨clear, fits⟩, by rw [← sum, rotate_unrotate inRoot inC]⟩

theorem children_lt {size root p c : Nat} (inRoot : root < size) (inP : p < size)
    (present : c ∈ (hcubeOf size root p).children) : c < size := by
  obtain ⟨exps, listed, _⟩ := (hcubeOf_spec inRoot inP).2.kids
  rw [listed, List.mem_map] at present
  obtain ⟨e, _, rfl⟩ := present
  exact rotate_lt (by omega) _

theorem children_nodup {size root p : Nat} (inRoot : root < size) (inP : p < size) :
    (hcubeOf size root p).children.Nodup := by
  obtain ⟨exps, listed, nodup, mem, _⟩ := (hcubeOf_spec inRoot inP).2.kids
  rw [listed]
  apply nodup.map_on
  intro e memE f memF same
  have back := congrArg (unrotate size root) same
  rw [unrotate_rotate inRoot ((mem e).mp memE).2, unrotate_rotate inRoot ((mem f).mp memF).2] at back
  exact Nat.pow_right_injective (le_refl 2) (by simpa using back)

/-- The subtree at a child for bit `e` has the size that the ordering works with. -/
theorem card_subtree {size root p e : Nat} (inRoot : root < size)
    (clear : unrotate size root p % 2^(e+1) = 0) (fits : unrotate size root p + 2^e < size) :
    (hcubeSubtree size root (rotate size root (unrotate size root p + 2^e))).card =
      weight size (unrotate size root p) e := by
  set idx := unrotate size root p
  have edge : Binomial.Edge idx (idx + 2^e) e := ⟨clear, rfl⟩
  have inC : rotate size root (idx + 2^e) < size := rotate_lt (by omega) _
  have aligned : 2^e ∣ idx + 2^e := by
    obtain ⟨half, odd⟩ := Binomial.edge_odd edge
    exact ⟨_, odd⟩
  rw [weight, ← Binomial.card_interval size (idx + 2^e) e aligned]
  apply Finset.card_nbij' (unrotate size root) (rotate size root)
  · intro v member
    simp only [hcubeSubtree, Finset.coe_filter, Finset.mem_range, Set.mem_ofPred_eq] at member ⊢
    refine ⟨unrotate_lt (by omega) root v, ?_⟩
    have below := (climbs_star_iff inRoot member.1 inC).mp member.2
    rw [unrotate_rotate inRoot fits] at below
    exact (Binomial.below_iff edge _).mp below
  · intro i member
    simp only [hcubeSubtree, Finset.coe_filter, Finset.mem_range, Set.mem_ofPred_eq] at member ⊢
    refine ⟨rotate_lt (by omega) i, ?_⟩
    rw [climbs_star_iff inRoot (rotate_lt (by omega) i) inC, unrotate_rotate inRoot fits,
      unrotate_rotate inRoot member.1]
    exact (Binomial.below_iff edge _).mpr member.2
  · intro v member
    simp only [hcubeSubtree, Finset.coe_filter, Finset.mem_range, Set.mem_ofPred_eq] at member
    exact rotate_unrotate inRoot member.1
  · intro i member
    simp only [Finset.coe_filter, Finset.mem_range, Set.mem_ofPred_eq] at member
    exact unrotate_rotate inRoot member.1

theorem children_sorted {size root p : Nat} (inRoot : root < size) (inP : p < size) :
    (hcubeOf size root p).children.Pairwise fun a b =>
      (hcubeSubtree size root b).card ≤ (hcubeSubtree size root a).card := by
  obtain ⟨exps, listed, _, mem, sorted⟩ := (hcubeOf_spec inRoot inP).2.kids
  rw [listed, List.pairwise_map]
  apply List.Pairwise.imp_of_mem _ sorted
  intro e f memE memF heavier
  obtain ⟨clearE, fitsE⟩ := (mem e).mp memE
  obtain ⟨clearF, fitsF⟩ := (mem f).mp memF
  rw [card_subtree inRoot clearE fitsE, card_subtree inRoot clearF fitsF]
  exact heavier

theorem reaches_root {size root v : Nat} (inRoot : root < size) (inV : v < size) :
    Relation.ReflTransGen (Climbs size root) v root := by
  rw [climbs_star_iff inRoot inV inRoot, unrotate_root size root]
  exact Binomial.below_zero _

/-- On every node the construction stays inside its array, and the entries computed
independently by the nodes are the two ends of the edges of one spanning tree,
with the children of every node ordered by the size of their subtrees. -/
theorem netdMakeHcube_spanning_tree (size root : Nat) (inRoot : root < size) :
    (∀ v, v < size → netdMakeHcube size v root = some (hcubeOf size root v)) ∧
    (hcubeOf size root root).up = -1 ∧
    (∀ p c, p < size → c < size →
      (c ∈ (hcubeOf size root p).children ↔ (hcubeOf size root c).up = p)) ∧
    (∀ p, p < size → (hcubeOf size root p).children.Nodup ∧
      ∀ c ∈ (hcubeOf size root p).children, c < size) ∧
    (∀ v, v < size → Relation.ReflTransGen (Climbs size root) v root) ∧
    (∀ p, p < size → (hcubeOf size root p).children.Pairwise fun a b =>
      (hcubeSubtree size root b).card ≤ (hcubeSubtree size root a).card) := by
  refine ⟨fun v inV => (hcubeOf_spec inRoot inV).1,
    (hcubeOf_spec inRoot inRoot).2.up_root (unrotate_root size root),
    fun p c inP inC => mem_children_iff inRoot inP inC,
    fun p inP => ⟨children_nodup inRoot inP, fun c present => children_lt inRoot inP present⟩,
    fun v inV => reaches_root inRoot inV, fun p inP => children_sorted inRoot inP⟩

theorem netdMakeHcube_spanning_tree_six :
    (hcubeOf 6 4 4).up = -1 ∧ (hcubeOf 6 4 4).children.Nodup :=
  have tree := netdMakeHcube_spanning_tree 6 4 (by decide)
  ⟨tree.2.1, (tree.2.2.2.1 4 (by decide)).1⟩

end Tmpi.Netd
