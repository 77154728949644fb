import Tmpi.Lib.Ranking
import Mathlib.Algebra.Group.Int.Defs

/-! Process groups: the constructors and queries of `group.c`. -/

namespace Tmpi.Mpi

/-- `MPI_UNDEFINED`. -/
def mpiUndefined : Int := -32766

/-- `MPI_GROUP_COOKIE`. -/
def mpiGroupCookie : Nat := 0x87ef54a0

/-- `MPI_ERR_GROUP`. -/
def mpiErrGroup : Nat := 8

/-- A block of `int`s: the bytes asked of `malloc`, and what has been stored from index 0 on. -/
structure Table where
  bytes : Nat
  cells : List Int
  deriving DecidableEq, Repr

/-- An `int` as a `size_t`. -/
def sizeT (size : Int) : Nat := if 0 ≤ size then size.toNat else (2 ^ 64 + size).toNat

def malloc (size : Int) : Table := ⟨sizeT size, []⟩

def Table.store (table : Table) (x : Int) : Table := { table with cells := table.cells ++ [x] }

/-- `tmpi_Group`; its `np` is the number of cells of the table. -/
structure Group where
  cookie : Nat
  localRank : Int
  refCount : Nat
  isPermanent : Bool
  lrank2grank : Table
  deriving DecidableEq, Repr

/-- `MPI_Group`. `MPI_GROUP_NULL` is left out: `group_verify` reads through it. -/
inductive MpiGroup where
  | empty
  | ptr (group : Group)
  deriving DecidableEq, Repr

def Group.cells (grp : Group) : List Int := grp.lrank2grank.cells

def Group.np (grp : Group) : Nat := grp.cells.length

/-- `lrank2grank[rank]`. -/
def Group.cell (grp : Group) (rank : Int) : Int := grp.cells.getD rank.toNat 0

def groupVerify : MpiGroup → Option Group
  | .empty => none
  | .ptr group => if group.cookie = mpiGroupCookie then some group else none

/-- The check each function begins with. -/
def verified (group : MpiGroup) : Except Nat Group :=
  match groupVerify group with
  | none => .error mpiErrGroup
  | some grp => .ok grp

/-- The search loops: the first index at which `x` stands. -/
def search (cells : List Int) (x : Int) : Int :=
  match cells.idxOf? x with
  | none => mpiUndefined
  | some j => j

/-- The loops that look for the caller from index `start` on; `old` stays when nothing is found. -/
def findRank (old : Int) (start : Nat) (cells : List Int) (grank : Int) : Int :=
  match (cells.drop start).idxOf? grank with
  | none => old
  | some i => ((start + i : Nat) : Int)

def newGroup (localRank : Int) (table : Table) : Group where
  cookie := mpiGroupCookie
  localRank := localRank
  refCount := 1
  isPermanent := false
  lrank2grank := table

/-- `MPI_GROUP_EMPTY` in place of a group of nobody. -/
def orEmpty (newgrp : Group) : MpiGroup := if newgrp.np = 0 then .empty else .ptr newgrp

/-! ## Queries -/

def mpiGroupSize (group : MpiGroup) : Except Nat Nat := do
  let grp ← verified group
  return grp.np

def mpiGroupRank (group : MpiGroup) : Except Nat Int := do
  let grp ← verified group
  return grp.localRank

def mpiGroupTranslateRanks (group1 : MpiGroup) (ranks1 : List Int) (group2 : MpiGroup) :
    Except Nat (List Int) := do
  let grp1 ← verified group1
  let grp2 ← verified group2
  return ranks1.map fun rank => search grp2.cells (grp1.cell rank)

inductive Comparison where
  | ident | similar | unequal
  deriving DecidableEq, Repr

/-- The two passes of `MPI_Group_compare`. -/
def compareTables (grp1 grp2 : Group) : Comparison :=
  if grp1.np ≠ grp2.np then .unequal
  else
    let result :=
      if (List.range grp1.np).any fun i => grp1.cell i != grp2.cell i then Comparison.similar
      else .ident
    if result = .ident then .ident
    else if grp1.cells.any fun grank => search grp2.cells grank == mpiUndefined then .unequal
    else result

def mpiGroupCompare (group1 group2 : MpiGroup) : Except Nat Comparison := do
  let grp1 ← verified group1
  let grp2 ← verified group2
  return compareTables grp1 grp2

/-! ## Constructors

The struct comes from `malloc`: `memory` is what its `local_rank` holds until it is assigned. -/

def unionTable (grp1 grp2 : Group) : Table :=
  let table := grp1.cells.foldl Table.store (malloc (grp1.np + grp2.np))
  grp2.cells.foldl (fun table grank =>
    if search grp1.cells grank = mpiUndefined then table.store grank else table) table

def unionRank (memory : Int) (grp1 grp2 : Group) (cells : List Int) : Int :=
  if grp1.localRank ≠ mpiUndefined then grp1.localRank
  else if grp2.localRank ≠ mpiUndefined then
    findRank memory grp1.np cells (grp2.cell grp2.localRank)
  else mpiUndefined

def mpiGroupUnion (memory : Int) (group1 group2 : MpiGroup) : Except Nat MpiGroup := do
  let grp1 ← verified group1
  let grp2 ← verified group2
  let table := unionTable grp1 grp2
  return .ptr (newGroup (unionRank memory grp1 grp2 table.cells) table)

def intersectionTable (grp1 grp2 : Group) : Table :=
  grp1.cells.foldl (fun table grank =>
    if search grp2.cells grank ≠ mpiUndefined then table.store grank else table) (malloc grp1.np)

def intersectionRank (memory : Int) (grp1 grp2 : Group) (cells : List Int) : Int :=
  if grp1.localRank = mpiUndefined ∨ grp2.localRank = mpiUndefined then mpiUndefined
  else findRank memory 0 cells (grp1.cell grp1.localRank)

def mpiGroupIntersection (memory : Int) (group1 group2 : MpiGroup) : Except Nat MpiGroup := do
  let grp1 ← verified group1
  let grp2 ← verified group2
  let table := intersectionTable grp1 grp2
  return orEmpty (newGroup (intersectionRank memory grp1 grp2 table.cells) table)

def differenceTable (grp1 grp2 : Group) : Table :=
  grp1.cells.foldl (fun table grank =>
    if search grp2.cells grank = mpiUndefined then table.store grank else table) (malloc grp1.np)

def differenceRank (memory : Int) (grp1 grp2 : Group) (cells : List Int) : Int :=
  if grp1.localRank = mpiUndefined ∨ grp2.localRank ≠ mpiUndefined then mpiUndefined
  else findRank memory 0 cells (grp1.cell grp1.localRank)

def mpiGroupDifference (memory : Int) (group1 group2 : MpiGroup) : Except Nat MpiGroup := do
  let grp1 ← verified group1
  let grp2 ← verified group2
  let table := differenceTable grp1 grp2
  return orEmpty (newGroup (differenceRank memory grp1 grp2 table.cells) table)

def inclTable (grp : Group) (ranks : List Int) : Table :=
  ranks.foldl (fun table rank => table.store (grp.cell rank)) (malloc ranks.length)

/-- The caller's rank as the loop over `ranks` leaves it; `i` is the next index. -/
def inclRank (grp : Group) : Nat → Int → List Int → Int
  | _, localRank, [] => localRank
  | i, localRank, rank :: ranks =>
      inclRank grp (i + 1) (if grp.localRank = rank then i else localRank) ranks

def mpiGroupIncl (group : MpiGroup) (ranks : List Int) : Except Nat MpiGroup := do
  let grp ← verified group
  if ranks.length = 0 then return .empty
  else return .ptr (newGroup (inclRank grp 0 mpiUndefined ranks) (inclTable grp ranks))

def exclTable (grp : Group) (ranks : List Int) : Table :=
  (List.range grp.np).foldl (fun table (i : Nat) =>
    if search ranks i = mpiUndefined then table.store (grp.cell i) else table)
    (malloc (grp.np - ranks.length))

def exclRank (grp : Group) (cells : List Int) : Int :=
  if grp.localRank ≠ mpiUndefined then findRank mpiUndefined 0 cells (grp.cell grp.localRank)
  else mpiUndefined

def mpiGroupExcl (group : MpiGroup) (ranks : List Int) : Except Nat MpiGroup := do
  let grp ← verified group
  if ranks.length ≥ grp.np then return .empty
  else
    let table := exclTable grp ranks
    return .ptr (newGroup (exclRank grp table.cells) table)

/-! ## What the loops store -/

section Loops

variable {α : Type} (table : Table)

theorem foldl_store (keep : α → Prop) [DecidablePred keep] (item : α → Int) (l : List α) :
    l.foldl (fun table x => if keep x then table.store (item x) else table) table =
      { table with cells := table.cells ++ (l.filter fun x => decide (keep x)).map item } := by
  induction l generalizing table with
  | nil => simp
  | cons x l ih =>
      rw [List.foldl_cons, ih]
      by_cases kept : keep x
      · simp [kept, Table.store]
      · simp [kept]

theorem foldl_store_all (item : α → Int) (l : List α) :
    l.foldl (fun table x => table.store (item x)) table =
      { table with cells := table.cells ++ l.map item } := by
  induction l generalizing table with
  | nil => simp
  | cons x l ih =>
      rw [List.foldl_cons, ih]
      simp [Table.store]

end Loops

theorem search_eq_undefined {cells : List Int} {x : Int} :
    search cells x = mpiUndefined ↔ x ∉ cells := by
  unfold search
  cases found : cells.idxOf? x with
  | none => simpa using List.idxOf?_eq_none_iff.mp found
  | some j =>
      have member : x ∈ cells := List.mem_of_getElem? (Ranking.getElem?_of_idxOf? found)
      have rank : (j : Int) ≠ mpiUndefined := by
        unfold mpiUndefined
        omega
      simp [member, rank]

section Cells

variable (grp grp1 grp2 : Group) (ranks : List Int)

theorem unionTable_eq : unionTable grp1 grp2 =
    ⟨sizeT (grp1.np + grp2.np), grp1.cells ++ grp2.cells.filter (· ∉ grp1.cells)⟩ := by
  have first : grp1.cells.foldl Table.store (malloc (grp1.np + grp2.np)) = _ :=
    foldl_store_all _ id grp1.cells
  have second := foldl_store ⟨sizeT (grp1.np + grp2.np), grp1.cells⟩
    (search grp1.cells · = mpiUndefined) id grp2.cells
  rw [unionTable, first]
  simpa [malloc, search_eq_undefined] using second

theorem intersectionTable_eq : intersectionTable grp1 grp2 =
    ⟨sizeT grp1.np, grp1.cells.filter (· ∈ grp2.cells)⟩ := by
  have loop := foldl_store (malloc grp1.np)
    (search grp2.cells · ≠ mpiUndefined) id grp1.cells
  simpa [intersectionTable, malloc, search_eq_undefined] using loop

theorem differenceTable_eq : differenceTable grp1 grp2 =
    ⟨sizeT grp1.np, grp1.cells.filter (· ∉ grp2.cells)⟩ := by
  have loop := foldl_store (malloc grp1.np)
    (search grp2.cells · = mpiUndefined) id grp1.cells
  simpa [differenceTable, malloc, search_eq_undefined] using loop

theorem inclTable_eq : inclTable grp ranks = ⟨sizeT ranks.length, ranks.map grp.cell⟩ := by
  have loop := foldl_store_all (malloc ranks.length) grp.cell ranks
  simpa [inclTable, malloc] using loop

/-- The members whose index is not listed, in the order of the group. -/
def kept : List Int :=
  ((List.range grp.np).filter fun i : Nat => (i : Int) ∉ ranks).map fun i : Nat => grp.cell i

theorem exclTable_eq : exclTable grp ranks =
    ⟨sizeT (grp.np - ranks.length), kept grp ranks⟩ := by
  have loop := foldl_store (malloc (grp.np - ranks.length))
    (fun i : Nat => search ranks i = mpiUndefined) (fun i => grp.cell i) (List.range grp.np)
  simpa [exclTable, malloc, search_eq_undefined, kept] using loop

end Cells

end Tmpi.Mpi
