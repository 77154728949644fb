import Tmpi.Lib.Circular
import Tmpi.Lib.Path
import Mathlib.Data.List.Range
import Mathlib.Tactic

/-! `tqueue.c`: queues of elements that are carved from chunks. One pair of link fields serves the
queues and the free lists. -/

namespace Tmpi.Utils

/-- A `BUCKET`: the control node of a queue, or the header of an element. -/
inductive Bucket where
  | qctrl (q : Nat)
  | elem (addr : Nat)
  deriving DecidableEq, Repr

/-- `TQueue`, but for its control node; elements hold values of type `α`. -/
structure TQueue (α : Type) where
  count : Int
  cmp : Option (α → Int → Int → Int → Int)
  allocate : Option Bucket
  itemSize : Nat
  chunkGroup : Nat

/-- The queues, the links of all buckets and what the elements hold. -/
structure Queues (α : Type) where
  queue : Nat → TQueue α
  links : Pointers Bucket
  content : Nat → α

/-- `sizeof(BUCKET)`, two pointers of 32 bits; `Pointer.bucket` has the other width. -/
def bucketSize : Nat := 8

/-- The distance between two elements, as `Q_init` rounds it; in `int`s it is `Pointer.qInitItemSize`. -/
def itemStride (itemSize : Nat) : Nat :=
  (if itemSize % 7 ≠ 0 then (itemSize + 7) / 8 * 8 else itemSize) + bucketSize

theorem itemStride_pos (itemSize : Nat) : 0 < itemStride itemSize := Nat.add_pos_right _ (by decide)

/-- The elements of a chunk. -/
def chunk (size group base : Nat) : List Nat := (List.range group).map fun i => base + i * size

/-- The loop of `Q_newElem`: the elements of a chunk from the second on, up to the last one. -/
def carveChunk (prev : Bucket → Option Bucket) (size group base : Nat) : Bucket → Option Bucket :=
  let link (prev : Bucket → Option Bucket) (i : Nat) :=
    Function.update prev (.elem (base + i * size)) (some (.elem (base + (i + 1) * size)))
  Function.update ((List.range' 1 (group - 2)).foldl link prev) (.elem (base + (group - 1) * size)) none

namespace Queues

variable {α : Type} (s : Queues α) (q : Nat)

/-- `Q_newElem`; `block` is what `malloc` returns, if it is called. -/
def qNewElem (block : Option Nat) : Queues α × Option Bucket :=
  let p := s.queue q
  match p.allocate with
  | none =>
      match block with
      | none => (s, none)
      | some base =>
          ({ s with
            queue := Function.update s.queue q { p with allocate := some (.elem (base + p.itemSize)) }
            links := {
              next := Function.update s.links.next (.elem base) none
              prev := carveChunk s.links.prev p.itemSize p.chunkGroup base } }, some (.elem base))
  | some elem =>
      ({ s with
        queue := Function.update s.queue q { p with allocate := s.links.prev elem }
        links := { s.links with next := Function.update s.links.next elem none } }, some elem)

/-- `Q_freeElem` -/
def qFreeElem (elem : Option Bucket) : Queues α :=
  match elem with
  | none => s
  | some e =>
      { s with
        queue := Function.update s.queue q { s.queue q with allocate := some e }
        links := { s.links with prev := Function.update s.links.prev e (s.queue q).allocate } }

/-- `Q_delElem` -/
def qDelElem (elem : Bucket) : Queues α :=
  { s with
    queue := Function.update s.queue q { s.queue q with count := (s.queue q).count - 1 }
    links := s.links.remove elem }

/-- `Q_removeElem` -/
def qRemoveElem (elem : Bucket) : Queues α := s.qDelElem q elem

/-- `Q_init` -/
def qInit (cmp : Option (α → Int → Int → Int → Int)) (itemSize group : Nat) (block : Option Nat) : Queues α :=
  let s : Queues α := { s with
    queue := Function.update s.queue q ⟨0, cmp, none, itemStride itemSize, group⟩
    links := {
      next := Function.update s.links.next (.qctrl q) (some (.qctrl q))
      prev := Function.update s.links.prev (.qctrl q) (some (.qctrl q)) } }
  let (s, elem) := s.qNewElem q block
  s.qFreeElem q elem

/-- `Q_create`, but for the memory of the queue itself. -/
def qCreate (cmp : Option (α → Int → Int → Int → Int)) (itemSize group : Nat) (block : Option Nat) :
    Option (Queues α) :=
  if itemSize ≤ 0 ∨ group ≤ 1 then none else some (s.qInit q cmp itemSize group block)

def enQ (elem : Bucket) : Queues α :=
  { s with
    queue := Function.update s.queue q { s.queue q with count := (s.queue q).count + 1 }
    links := s.links.append (.qctrl q) elem }

def deQ : Queues α × Option Bucket :=
  match s.links.next (.qctrl q) with
  | none => (s, none)
  | some e => if e = .qctrl q then (s, none) else (s.qDelElem q e, some e)

/-- `(*p->cmp)((void *)(e+1), context, tag, src)==0` -/
def accepts (cmp : α → Int → Int → Int → Int) (context tag src : Int) : Bucket → Bool
  | .qctrl _ => false
  | .elem a => cmp (s.content a) context tag src = 0

/-- The loop of `Q_probe`; none when the fuel runs out. -/
def probeLoop (accept : Bucket → Bool) : Nat → Option Bucket → Option (Option Bucket)
  | 0, _ => none
  | _ + 1, none => some none
  | fuel + 1, some e =>
      if e = .qctrl q then some none
      else if accept e then some (some e)
      else probeLoop accept fuel (s.links.next e)

/-- `Q_probe` -/
def qProbe (fuel : Nat) (context tag src : Int) : Option (Option Bucket) :=
  match (s.queue q).cmp with
  | none => some none
  | some cmp => s.probeLoop q (s.accepts cmp context tag src) fuel (s.links.next (.qctrl q))

/-- The loop of `Q_find`. -/
def findLoop (accept : Bucket → Bool) : Nat → Option Bucket → Option (Queues α × Option Bucket)
  | 0, _ => none
  | _ + 1, none => some (s, none)
  | fuel + 1, some e =>
      if e = .qctrl q then some (s, none)
      else if accept e then some (s.qDelElem q e, some e)
      else findLoop accept fuel (s.links.next e)

/-- `Q_find` -/
def qFind (fuel : Nat) (context tag src : Int) : Option (Queues α × Option Bucket) :=
  match (s.queue q).cmp with
  | none => some (s, none)
  | some cmp => s.findLoop q (s.accepts cmp context tag src) fuel (s.links.next (.qctrl q))

/-- `Q_find` is `Q_probe` and then `Q_removeElem`. -/
def removeProbed (r : Option Bucket) : Queues α × Option Bucket :=
  match r with
  | none => (s, none)
  | some e => (s.qRemoveElem q e, some e)

variable {s q}

theorem removeProbed_snd {r : Option Bucket} : (s.removeProbed q r).2 = r := by
  cases r with
  | none => rfl
  | some e => rfl

theorem findLoop_eq (accept : Bucket → Bool) (fuel : Nat) (e : Option Bucket) :
    s.findLoop q accept fuel e = (s.probeLoop q accept fuel e).map (s.removeProbed q) := by
  induction fuel generalizing e with
  | zero => rfl
  | succ fuel ih =>
      cases e with
      | none => rfl
      | some e =>
          rw [findLoop, probeLoop]
          split
          · rfl
          · split
            · rfl
            · exact ih (s.links.next e)

theorem qFind_eq (fuel : Nat) (context tag src : Int) :
    s.qFind q fuel context tag src = (s.qProbe q fuel context tag src).map (s.removeProbed q) := by
  rw [qFind, qProbe]
  cases (s.queue q).cmp with
  | none => rfl
  | some cmp => exact findLoop_eq _ fuel _

/-- More fuel changes no result. -/
theorem probeLoop_mono {accept : Bucket → Bool} {fuel fuel' : Nat} {e r : Option Bucket}
    (result : s.probeLoop q accept fuel e = some r) (le : fuel ≤ fuel') :
    s.probeLoop q accept fuel' e = some r := by
  induction fuel generalizing e fuel' with
  | zero => cases result
  | succ fuel ih =>
      obtain ⟨fuel', rfl⟩ : ∃ n, fuel' = n + 1 := ⟨fuel' - 1, by omega⟩
      cases e with
      | none => exact result
      | some e =>
          rw [probeLoop] at result ⊢
          split at result
          case isTrue control =>
            rw [if_pos control]
            exact result
          case isFalse other =>
            rw [if_neg other]
            split at result
            case isTrue taken =>
              rw [if_pos taken]
              exact result
            case isFalse refused =>
              rw [if_neg refused]
              exact ih result (Nat.le_of_succ_le_succ le)

/-- The loop returns the first element of the rest of the ring that `accept` takes. -/
theorem probeLoop_linked {accept : Bucket → Bool} {l : List Bucket} {y : Bucket} {fuel : Nat}
    (linked : s.links.Linked (y :: l ++ [.qctrl q])) (elements : .qctrl q ∉ l) (enough : l.length < fuel) :
    s.probeLoop q accept fuel (s.links.next y) = some (l.find? accept) := by
  induction l generalizing y fuel with
  | nil =>
      obtain ⟨fuel, rfl⟩ : ∃ n, fuel = n + 1 := ⟨fuel - 1, by simp at enough; omega⟩
      rw [linked.1, probeLoop, if_pos rfl]
      rfl
  | cons x l ih =>
      obtain ⟨fuel, rfl⟩ : ∃ n, fuel = n + 1 := ⟨fuel - 1, by simp at enough; omega⟩
      obtain ⟨next, -, rest⟩ := linked
      have other : x ≠ .qctrl q := fun same => elements (same ▸ List.mem_cons_self)
      rw [next, probeLoop, if_neg other, List.find?_cons]
      cases accept x with
      | true => rfl
      | false =>
          apply ih rest (fun member => elements (List.mem_cons_of_mem x member))
          rw [List.length_cons] at enough
          omega

theorem probeLoop_ring {accept : Bucket → Bool} {l : List Nat} {fuel : Nat}
    (ring : s.links.Ring (.qctrl q) (l.map .elem)) (enough : l.length < fuel) :
    s.probeLoop q accept fuel (s.links.next (.qctrl q)) =
      some ((l.find? fun a => accept (.elem a)).map .elem) := by
  rw [probeLoop_linked ring (by simp) (by simpa using enough), List.find?_map]
  rfl

/-- `deQ` takes the head. -/
theorem deQ_ring {l : List Nat} (ring : s.links.Ring (.qctrl q) (l.map .elem)) :
    s.deQ q = s.removeProbed q (l.head?.map .elem) := by
  rw [deQ, ring.first]
  cases l with
  | nil => exact if_pos rfl
  | cons a l => exact if_neg nofun

end Queues

/-! What a chunk's elements point to. -/

section

variable {α β : Type} [DecidableEq β] {f : β → α} {key : Nat → β} {value : Nat → α} {l : List Nat}

theorem foldl_update_of_ne {b : β} (other : ∀ i ∈ l, b ≠ key i) :
    l.foldl (fun f i => Function.update f (key i) (value i)) f b = f b := by
  induction l generalizing f with
  | nil => rfl
  | cons i l ih =>
      calc
        _ = Function.update f (key i) (value i) b := ih fun j member => other j (List.mem_cons_of_mem i member)
        _ = f b := Function.update_of_ne (other i List.mem_cons_self) ..

theorem foldl_update_of_mem (injective : Function.Injective key) {i : Nat} (member : i ∈ l) :
    l.foldl (fun f i => Function.update f (key i) (value i)) f (key i) = value i := by
  induction l generalizing f with
  | nil => cases member
  | cons j l ih =>
      by_cases later : i ∈ l
      · exact ih later
      · obtain rfl : i = j := (List.mem_cons.mp member).resolve_right later
        calc
          _ = Function.update f (key i) (value i) (key i) :=
            foldl_update_of_ne fun j member same => later (injective same ▸ member)
          _ = value i := Function.update_self ..

end

variable {prev : Bucket → Option Bucket} {size group base : Nat}

theorem element_injective (pos : 0 < size) :
    Function.Injective fun i : Nat => Bucket.elem (base + i * size) := by
  intro i j same
  have equal : base + i * size = base + j * size := Bucket.elem.inj same
  exact Nat.eq_of_mul_eq_mul_right pos (Nat.add_left_cancel equal)

theorem carveChunk_of_not_mem {b : Bucket} (outside : ∀ a ∈ chunk size group base, b ≠ .elem a) (some : 0 < group) :
    carveChunk prev size group base b = prev b := by
  have apart : ∀ i < group, b ≠ .elem (base + i * size) :=
    fun i less => outside _ (List.mem_map.mpr ⟨i, List.mem_range.mpr less, rfl⟩)
  rw [carveChunk, Function.update_of_ne (apart _ (Nat.sub_lt some Nat.one_pos))]
  refine foldl_update_of_ne fun i member => apart i ?_
  have range := List.mem_range'_1.mp member
  omega

/-- The elements of a chunk from the second on are a list. -/
theorem carveChunk_path (pos : 0 < size) (many : 1 < group) :
    Path (carveChunk prev size group base) (some (.elem (base + size)))
      ((chunk size group base).tail.map .elem) none := by
  obtain ⟨m, rfl⟩ : ∃ m, group = m + 2 := ⟨group - 2, by omega⟩
  have links : ∀ i, 1 ≤ i → i < 1 + m → carveChunk prev size (m + 2) base (.elem (base + i * size)) =
      some (.elem (base + (i + 1) * size)) := by
    intro i low high
    have other : Bucket.elem (base + i * size) ≠ .elem (base + (m + 2 - 1) * size) := by
      intro same
      have equal := element_injective pos same
      omega
    rw [carveChunk, Function.update_of_ne other]
    apply foldl_update_of_mem (element_injective pos)
    exact List.mem_range'_1.mpr ⟨low, by omega⟩
  have last : carveChunk prev size (m + 2) base (.elem (base + (1 + m) * size)) = none := by
    rw [carveChunk, show m + 2 - 1 = 1 + m by omega]
    exact Function.update_self ..
  have path := Path.range' (f := fun i => Bucket.elem (base + i * size)) links last
  have shape : (chunk size (m + 2) base).tail.map Bucket.elem =
      (List.range' 1 (m + 1)).map fun i => Bucket.elem (base + i * size) := by
    rw [chunk, List.range_eq_range', List.range'_succ]
    simp
  rw [shape]
  simpa using path

theorem chunk_nodup (pos : 0 < size) : (chunk size group base).Nodup := by
  refine List.nodup_range.map fun i j same => ?_
  exact Nat.eq_of_mul_eq_mul_right pos (Nat.add_left_cancel same)

end Tmpi.Utils
