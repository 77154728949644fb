import Tmpi.Lib.Spanning
import Tmpi.Netd.Hcube

/-! `netd_make_tree`, and the trees over which the group operations move their bytes. -/

namespace Tmpi.Netd

/-- `NETD_TREE_INFO`: -1 stands for a missing link. -/
structure TreeInfo where
  up : Int
  left : Int
  right : Int
  deriving DecidableEq, Repr

def netdMakeTree (size myid root : Nat) : TreeInfo :=
  let idx := (size + myid - root) % size
  { left := if 2*idx + 1 < size then ((root + 2*idx + 1) % size : Nat) else -1
    right := if 2*idx + 2 < size then ((root + 2*idx + 2) % size : Nat) else -1
    up := if myid ≠ root then ((root + (idx - 1)/2) % size : Nat) else -1 }

/-- A link that is there (`!= -1`). -/
def linked (link : Int) : Option Nat := if link = -1 then none else some link.toNat

def TreeInfo.children (tr : TreeInfo) : List Nat := [tr.left, tr.right].filterMap linked

example : (netdMakeTree 4 1 0).children = [3] := by decide

@[simp] theorem linked_natCast (v : Nat) : linked v = some v := by
  simp [linked, show (v : Int) ≠ -1 by omega]

theorem linked_eq_some {link : Int} {v : Nat} (valid : -1 ≤ link) :
    linked link = some v ↔ link = v := by
  rw [linked]
  split_ifs with missing
  · simp only [false_iff]
    omega
  · rw [Option.some.injEq]
    omega

theorem linked_toNat {link : Int} {v : Nat} (there : linked link = some v) : link.toNat = v := by
  rw [linked] at there
  split_ifs at there
  exact Option.some.inj there

theorem linked_ite (there : Prop) [Decidable there] (v : Nat) :
    linked (if there then (v : Int) else -1) = if there then some v else none := by
  split_ifs
  · exact linked_natCast v
  · rfl

/-! ## The binary tree -/

section Binary

variable {size root : Nat}

theorem makeTree_up (v : Nat) :
    linked (netdMakeTree size v root).up =
      if v = root then none else some (rotate size root ((unrotate size root v - 1)/2)) := by
  by_cases atRoot : v = root
  · simp [netdMakeTree, atRoot, linked]
  · simp only [netdMakeTree, ne_eq, atRoot, not_false_eq_true, if_true, if_false, linked_natCast,
      rotate, unrotate, Nat.add_comm root]

theorem makeTree_children (v : Nat) :
    (netdMakeTree size v root).children =
      ([1, 2].filter fun side => 2 * unrotate size root v + side < size).map
        fun side => rotate size root (2 * unrotate size root v + side) := by
  have first : root + 2 * unrotate size root v + 1 = 2 * unrotate size root v + 1 + root := by omega
  have second : root + 2 * unrotate size root v + 2 = 2 * unrotate size root v + 2 + root := by omega
  change [if 2 * unrotate size root v + 1 < size then
        (((root + 2 * unrotate size root v + 1) % size : Nat) : Int) else -1,
      if 2 * unrotate size root v + 2 < size then
        (((root + 2 * unrotate size root v + 2) % size : Nat) : Int) else -1].filterMap linked = _
  simp only [List.filterMap_cons, List.filterMap_nil, linked_ite, first, second]
  by_cases left : 2 * unrotate size root v + 1 < size <;>
    by_cases right : 2 * unrotate size root v + 2 < size <;> simp [left, right, rotate]

theorem mem_makeTree_children {p c : Nat} (inRoot : root < size) :
    c ∈ (netdMakeTree size p root).children ↔ c < size ∧
      (unrotate size root c = 2 * unrotate size root p + 1 ∨
        unrotate size root c = 2 * unrotate size root p + 2) := by
  rw [makeTree_children]
  simp only [List.mem_map, List.mem_filter, List.mem_cons, List.not_mem_nil, or_false,
    decide_eq_true_eq]
  constructor
  · rintro ⟨side, ⟨which, fits⟩, rfl⟩
    rw [unrotate_rotate inRoot fits]
    exact ⟨rotate_lt (by omega) _, by omega⟩
  · rintro ⟨inC, which⟩
    have bound := unrotate_lt (by omega : 0 < size) root c
    refine ⟨unrotate size root c - 2 * unrotate size root p, ⟨by omega, by omega⟩, ?_⟩
    rw [show 2 * unrotate size root p + (unrotate size root c - 2 * unrotate size root p) =
      unrotate size root c by omega, rotate_unrotate inRoot inC]

theorem makeTree_children_nodup {p : Nat} (inRoot : root < size) :
    (netdMakeTree size p root).children.Nodup := by
  rw [makeTree_children]
  apply List.Nodup.map_on _ (List.Nodup.filter _ (by decide))
  intro a memA b memB same
  simp only [List.mem_filter, decide_eq_true_eq] at memA memB
  have back := congrArg (unrotate size root) same
  rw [unrotate_rotate inRoot memA.2, unrotate_rotate inRoot memB.2] at back
  omega

theorem unrotate_eq_zero {v : Nat} (inRoot : root < size) (inV : v < size) :
    unrotate size root v = 0 ↔ v = root := by
  constructor
  · intro zero
    rw [← rotate_unrotate inRoot inV, zero, rotate, Nat.zero_add, Nat.mod_eq_of_lt inRoot]
  · rintro rfl
    exact unrotate_root size v

theorem parent_iff_child {p c : Nat} (inRoot : root < size) (inP : p < size) (inC : c < size) :
    linked (netdMakeTree size c root).up = some p ↔
      unrotate size root c = 2 * unrotate size root p + 1 ∨
        unrotate size root c = 2 * unrotate size root p + 2 := by
  have zero := unrotate_eq_zero inRoot inC
  have bound := unrotate_lt (by omega : 0 < size) root c
  rw [makeTree_up]
  by_cases atRoot : c = root
  · rw [if_pos atRoot]
    simp only [reduceCtorEq, false_iff]
    omega
  · rw [if_neg atRoot, Option.some.injEq]
    have half : (unrotate size root c - 1) / 2 < size := by omega
    constructor
    · intro same
      have back := congrArg (unrotate size root) same
      rw [unrotate_rotate inRoot half] at back
      omega
    · intro which
      rw [show (unrotate size root c - 1) / 2 = unrotate size root p by omega,
        rotate_unrotate inRoot inP]

/-- The binary tree of `netd_make_tree`. -/
def binaryTree (inRoot : root < size) : Spanning (Finset.range size) root where
  up v := linked (netdMakeTree size v root).up
  kids v := (netdMakeTree size v root).children
  rank := unrotate size root
  root_mem := Finset.mem_range.mpr inRoot
  up_root := by rw [makeTree_up, if_pos rfl]
  up_some := by
    intro v inside other
    have inV := Finset.mem_range.mp inside
    have zero := unrotate_eq_zero inRoot inV
    have bound := unrotate_lt (by omega : 0 < size) root v
    refine ⟨rotate size root ((unrotate size root v - 1)/2),
      Finset.mem_range.mpr (rotate_lt (by omega) _), ?_, ?_⟩
    · rw [makeTree_up, if_neg other]
    · rw [unrotate_rotate inRoot (by omega)]
      omega
  mem_kids := by
    intro p inside c
    rw [mem_makeTree_children inRoot, Finset.mem_range]
    constructor
    · rintro ⟨inC, which⟩
      exact ⟨inC, (parent_iff_child inRoot (Finset.mem_range.mp inside) inC).mpr which⟩
    · rintro ⟨inC, above⟩
      exact ⟨inC, (parent_iff_child inRoot (Finset.mem_range.mp inside) inC).mp above⟩
  kids_nodup := fun _ _ => makeTree_children_nodup inRoot

end Binary

/-! ## The star, the hypercube and the detour -/

section Trees

variable {size root : Nat}

/-- `for (i=0; i<size; i++) { if (i==myid) continue; .. }` -/
def others (size myid : Nat) : List Nat := (List.range size).filter fun i => i ≠ myid

def starTree (inRoot : root < size) : Spanning (Finset.range size) root where
  up v := if v = root then none else some root
  kids v := if v = root then others size root else []
  rank v := if v = root then 0 else 1
  root_mem := Finset.mem_range.mpr inRoot
  up_root := by simp
  up_some := by
    intro v _ other
    exact ⟨root, Finset.mem_range.mpr inRoot, by simp [other], by simp [other]⟩
  mem_kids := by
    intro p _ c
    by_cases atRoot : p = root
    · subst atRoot
      by_cases same : c = p <;> simp [others, same]
    · simp only [atRoot, if_false, List.not_mem_nil, false_iff, not_and]
      intro _ above
      split_ifs at above
      exact atRoot (Option.some.inj above).symm
  kids_nodup := by
    intro p _
    split_ifs
    · exact List.Nodup.filter _ List.nodup_range
    · exact List.nodup_nil

theorem hcubeOf_up_valid {v : Nat} (inRoot : root < size) (inV : v < size) :
    -1 ≤ (hcubeOf size root v).up := by
  have spec := (hcubeOf_spec inRoot inV).2
  by_cases zero : unrotate size root v = 0
  · rw [spec.up_root zero]
  · obtain ⟨parent, bit, _, up⟩ := spec.up_edge zero
    rw [up]
    omega

def hcubeTree (inRoot : root < size) : Spanning (Finset.range size) root where
  up v := linked (hcubeOf size root v).up
  kids v := (hcubeOf size root v).children
  rank := unrotate size root
  root_mem := Finset.mem_range.mpr inRoot
  up_root := by
    rw [(hcubeOf_spec inRoot inRoot).2.up_root (unrotate_root size root)]
    rfl
  up_some := by
    intro v inside other
    have inV := Finset.mem_range.mp inside
    obtain ⟨parent, bit, edge, up⟩ := (hcubeOf_spec inRoot inV).2.up_edge
      (fun zero => other ((unrotate_eq_zero inRoot inV).mp zero))
    have less := Binomial.edge_lt edge
    have bound := unrotate_lt (by omega : 0 < size) root v
    refine ⟨rotate size root parent, Finset.mem_range.mpr (rotate_lt (by omega) _), ?_, ?_⟩
    · rw [up, linked_natCast]
    · rw [unrotate_rotate inRoot (by omega)]
      exact less
  mem_kids := by
    intro p inside c
    have inP := Finset.mem_range.mp inside
    rw [Finset.mem_range]
    constructor
    · intro child
      have inC := children_lt inRoot inP child
      rw [linked_eq_some (hcubeOf_up_valid inRoot inC)]
      exact ⟨inC, (mem_children_iff inRoot inP inC).mp child⟩
    · rintro ⟨inC, above⟩
      rw [linked_eq_some (hcubeOf_up_valid inRoot inC)] at above
      exact (mem_children_iff inRoot inP inC).mpr above
  kids_nodup := fun _ inside => children_nodup inRoot (Finset.mem_range.mp inside)

/-- The same tree with every node's children in reverse order. -/
def hcubeTreeReversed (inRoot : root < size) : Spanning (Finset.range size) root :=
  { hcubeTree inRoot with
    kids := fun v => ((hcubeTree inRoot).kids v).reverse
    mem_kids := fun p inside c => by
      rw [List.mem_reverse]
      exact (hcubeTree inRoot).mem_kids p inside c
    kids_nodup := fun p inside => List.nodup_reverse.mpr ((hcubeTree inRoot).kids_nodup p inside) }

theorem unrotate_zero {v : Nat} (inV : v < size) : unrotate size 0 v = v := by
  rw [unrotate, Nat.sub_zero, Nat.add_mod_left, Nat.mod_eq_of_lt inV]

/-- The tree of `netd_bcast_tree`: the binary tree rooted at 0, in which `root`
hands its data to 0 and no longer hears from its parent there. -/
def detourUp (size root v : Nat) : Option Nat :=
  if v = root then none
  else if v = 0 then some root
  else linked (netdMakeTree size v 0).up

def detourKids (size root v : Nat) : List Nat :=
  (if v = root ∧ v ≠ 0 then [0] else []) ++
    (netdMakeTree size v 0).children.filter fun c => c ≠ root

theorem detourUp_binary {v : Nat} (inV : v < size) (other : v ≠ root)
    (nonzero : v ≠ 0) : detourUp size root v = some ((v - 1)/2) := by
  have half : (v - 1)/2 < size := by omega
  rw [detourUp, if_neg other, if_neg nonzero, makeTree_up, if_neg nonzero,
    unrotate_zero inV, rotate, Nat.add_zero, Nat.mod_eq_of_lt half]

theorem mem_makeTree_zero {p c : Nat} (positive : 0 < size) (inP : p < size) :
    c ∈ (netdMakeTree size p 0).children ↔ c < size ∧ (c = 2*p + 1 ∨ c = 2*p + 2) := by
  rw [mem_makeTree_children positive, unrotate_zero inP]
  constructor
  · rintro ⟨inC, which⟩
    rw [unrotate_zero inC] at which
    exact ⟨inC, which⟩
  · rintro ⟨inC, which⟩
    rw [unrotate_zero inC]
    exact ⟨inC, which⟩

def detourTree (inRoot : root < size) : Spanning (Finset.range size) root where
  up := detourUp size root
  kids := detourKids size root
  rank v := if v = root then 0 else v + 1
  root_mem := Finset.mem_range.mpr inRoot
  up_root := by simp [detourUp]
  up_some := by
    intro v inside other
    have inV := Finset.mem_range.mp inside
    by_cases zero : v = 0
    · refine ⟨root, Finset.mem_range.mpr inRoot, ?_, ?_⟩
      · rw [detourUp, if_neg other, if_pos zero]
      · simp [other]
    · refine ⟨(v - 1)/2, Finset.mem_range.mpr (by omega),
        detourUp_binary inV other zero, ?_⟩
      rw [if_neg other]
      split_ifs <;> omega
  mem_kids := by
    intro p inside c
    have inP := Finset.mem_range.mp inside
    have positive : 0 < size := by omega
    simp only [detourKids, List.mem_append, List.mem_filter, mem_makeTree_zero positive inP,
      decide_eq_true_eq, Finset.mem_range]
    by_cases other : c = root
    · subst other
      have none : detourUp size c c = none := by simp [detourUp]
      simp only [none, ne_eq, not_true_eq_false, and_false, or_false, reduceCtorEq, iff_false]
      split_ifs with atRoot
      · simp only [List.mem_singleton]
        omega
      · simp
    · by_cases zero : c = 0
      · subst zero
        have above : detourUp size root 0 = some root := by
          rw [detourUp, if_neg other, if_pos rfl]
        rw [above, Option.some.injEq]
        by_cases atRoot : p = root
        · simp [atRoot, Ne.symm other, positive]
        · simp [atRoot, Ne.symm atRoot]
      · have notHead : c ∉ (if p = root ∧ p ≠ 0 then [0] else []) := by
          split_ifs <;> simp [zero]
        simp only [notHead, false_or, ne_eq, other, not_false_eq_true, and_true]
        constructor
        · rintro ⟨inC, which⟩
          refine ⟨inC, ?_⟩
          rw [detourUp_binary inC other zero, Option.some.injEq]
          omega
        · rintro ⟨inC, above⟩
          rw [detourUp_binary inC other zero, Option.some.injEq] at above
          exact ⟨inC, by omega⟩
  kids_nodup := by
    intro p inside
    have inP := Finset.mem_range.mp inside
    have positive : 0 < size := by omega
    apply List.Nodup.append
    · split_ifs <;> simp
    · exact List.Nodup.filter _ (makeTree_children_nodup positive)
    · intro c memHead memTail
      have zero : c = 0 := by
        split_ifs at memHead
        · exact List.mem_singleton.mp memHead
        · cases memHead
      have := (mem_makeTree_zero positive inP).mp (List.mem_of_mem_filter memTail)
      omega

end Trees

end Tmpi.Netd
