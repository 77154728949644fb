import Tmpi.Utils.Fifo

/-! `Q_reset` over the runs of the queues. -/

namespace Tmpi.Utils

namespace Queues

variable {α : Type} (s : Queues α) (q : Nat) (control : Nat → Nat)

/-- Where a bucket is; `control` has the addresses of the control nodes. -/
def address : Bucket → Nat
  | .qctrl q => control q
  | .elem a => a

/-- `(BUCKET *)elem-1` -/
def header (elem : Bucket) : Bucket := .elem (address control elem - bucketSize)

/-- The loop of `Q_reset`. What `Q_removeElem` is given is the header of an element, so it takes the bytes before it
for one. `none` where a null pointer is followed or the fuel runs out. -/
def qReset : Nat → Queues α → Option (Queues α)
  | 0, _ => none
  | fuel + 1, s =>
      match s.links.next (.qctrl q) with
      | none => none
      | some elem =>
          if elem = .qctrl q then some s
          else
            let e := header control elem
            if s.links.prev e = none ∨ s.links.next e = none then none
            else qReset fuel ((s.qRemoveElem q e).qFreeElem q (some e))

variable {s q control}

/-- One round of the loop. -/
def round (s : Queues α) (q : Nat) (e : Bucket) : Queues α := (s.qRemoveElem q e).qFreeElem q (some e)

section

variable {b e y z : Bucket} {fuel : Nat}

theorem qReset_round (first : s.links.next (.qctrl q) = some b) (other : b ≠ .qctrl q)
    (prev : s.links.prev (header control b) = some y) (next : s.links.next (header control b) = some z) :
    qReset q control (fuel + 1) s = qReset q control fuel (s.round q (header control b)) := by
  rw [qReset, first]
  dsimp only
  rw [if_neg other, if_neg (by rw [prev, next]; simp)]
  rfl

theorem round_allocate : ((s.round q e).queue q).allocate = some e := by
  simp [round, qFreeElem, qRemoveElem]

theorem round_count : ((s.round q e).queue q).count = (s.queue q).count - 1 := by
  simp [round, qFreeElem, qRemoveElem, qDelElem]

theorem round_prev_self : (s.round q e).links.prev e = (s.queue q).allocate := by
  simp [round, qFreeElem, qRemoveElem, qDelElem]

theorem round_next (prev : s.links.prev e = some y) (next : s.links.next e = some z) :
    (s.round q e).links.next = Function.update s.links.next y (some z) := by
  simp only [round, qFreeElem, qRemoveElem, qDelElem, Pointers.remove, prev, next, Pointers.setAt]

theorem round_prev (prev : s.links.prev e = some y) (next : s.links.next e = some z) :
    (s.round q e).links.prev = Function.update (Function.update s.links.prev z (some y)) e (s.queue q).allocate := by
  simp only [round, qFreeElem, qRemoveElem, qDelElem, Pointers.remove, prev, next, Pointers.setAt,
    Function.update_self]

/-- The bytes before the first header say that what follows them is not behind the control node. -/
structure Stuck (s : Queues α) (q : Nat) (control : Nat → Nat) (b : Bucket) : Prop where
  first : s.links.next (.qctrl q) = some b
  other : b ≠ .qctrl q
  astray : s.links.prev (header control b) ≠ some (.qctrl q)
  free : (s.queue q).allocate ≠ some (.qctrl q)

/-- Then the same bytes are put on the free list over and over. -/
theorem Stuck.never_ends (stuck : Stuck s q control b) (fuel : Nat) : qReset q control fuel s = none := by
  induction fuel generalizing s with
  | zero => rfl
  | succ fuel ih =>
      cases prev : s.links.prev (header control b) with
      | none =>
          rw [qReset, stuck.first]
          dsimp only
          rw [if_neg stuck.other, if_pos (.inl prev)]
      | some y =>
          cases next : s.links.next (header control b) with
          | none =>
              rw [qReset, stuck.first]
              dsimp only
              rw [if_neg stuck.other, if_pos (.inr next)]
          | some z =>
              rw [qReset_round stuck.first stuck.other prev next]
              have apart : Bucket.qctrl q ≠ y := fun same => stuck.astray (same ▸ prev)
              refine ih ⟨?_, stuck.other, ?_, ?_⟩
              · rw [round_next prev next, Function.update_of_ne apart]
                exact stuck.first
              · rw [round_prev_self]
                exact stuck.free
              · rw [round_allocate]
                exact nofun

/-- Every free list there can be has `first` on it, and no more elements than were counted. -/
def Strays (s : Queues α) (q first : Nat) (most : Int) : Prop :=
  ∀ l : List Nat, Path s.links.prev (s.queue q).allocate (l.map .elem) none →
    first ∈ l ∧ l.length + (s.queue q).count ≤ most

/-- What a round puts on the free list stands before what was on it. -/
theorem round_path (prev : s.links.prev e = some (.qctrl q)) (next : s.links.next e = some z) {l : List Nat}
    (path : Path (s.round q e).links.prev ((s.round q e).queue q).allocate (l.map .elem) none) :
    ∃ a rest, l = a :: rest ∧ e = .elem a ∧ Path s.links.prev (s.queue q).allocate (rest.map .elem) none := by
  rw [round_allocate] at path
  cases l with
  | nil => cases path
  | cons a rest =>
      have once := List.nodup_cons.mp path.nodup
      obtain ⟨here, behind⟩ := path
      obtain rfl : e = .elem a := Option.some.inj here
      refine ⟨a, rest, rfl, rfl, ?_⟩
      rw [round_prev_self] at behind
      apply behind.congr
      intro x member
      have other : x ≠ .elem a := fun same => once.1 (same ▸ member)
      rw [round_prev prev next, Function.update_of_ne other]
      -- what is written to points back at the control node, which is on no free list
      have unwritten : x ≠ z := by
        rintro rfl
        have link : (s.round q (.elem a)).links.prev x = some (.qctrl q) := by
          rw [round_prev prev next, Function.update_of_ne other, Function.update_self]
        rcases behind.follows member with ends | ⟨y, inside, there⟩
        · rw [link] at ends
          cases ends
        · rw [link] at there
          obtain ⟨c, -, same⟩ := List.mem_map.mp inside
          rw [← Option.some.inj there] at same
          cases same
      exact (Function.update_of_ne unwritten ..).symm

theorem Strays.round {first : Nat} {most : Int} (strays : Strays s q first most)
    (prev : s.links.prev e = some (.qctrl q)) (next : s.links.next e = some z) :
    Strays (s.round q e) q first most := by
  intro l path
  obtain ⟨a, rest, rfl, -, before⟩ := round_path prev next path
  obtain ⟨member, bounded⟩ := strays rest before
  rw [round_count, List.length_cons]
  exact ⟨List.mem_cons_of_mem a member, by push_cast; omega⟩

/-- What the loop leaves when it ends. -/
theorem Strays.ends {first : Nat} {most : Int} {t : Queues α} (strays : Strays s q first most)
    (free : (s.queue q).allocate ≠ some (.qctrl q)) (result : qReset q control fuel s = some t) :
    Strays t q first most := by
  induction fuel generalizing s with
  | zero => cases result
  | succ fuel ih =>
      have again := result
      rw [qReset] at again
      cases head : s.links.next (.qctrl q) with
      | none =>
          rw [head] at again
          cases again
      | some b =>
          rw [head] at again
          dsimp only at again
          by_cases same : b = .qctrl q
          · rw [if_pos same] at again
            exact Option.some.inj again ▸ strays
          · rw [if_neg same] at again
            by_cases null : s.links.prev (header control b) = none ∨ s.links.next (header control b) = none
            · rw [if_pos null] at again
              cases again
            · obtain ⟨hasPrev, hasNext⟩ := not_or.mp null
              obtain ⟨z, next⟩ := Option.ne_none_iff_exists'.mp hasNext
              by_cases straight : s.links.prev (header control b) = some (.qctrl q)
              · rw [qReset_round head same straight next] at result
                apply ih (strays.round straight next) _ result
                rw [round_allocate]
                exact nofun
              · have stuck : Stuck s q control b := ⟨head, same, straight, free⟩
                rw [stuck.never_ends] at result
                cases result

end

end Queues

namespace Fifos

variable {α : Type} (x : Fifos α) (q : Nat)

/-- The elements do not overlap, and no header begins before the first address. -/
structure Spread (stride : Nat) : Prop where
  high : ∀ a, x.place a ≠ .unknown → bucketSize ≤ a
  apart : ∀ a b, x.place a ≠ .unknown → x.place b ≠ .unknown → a < b → a + stride ≤ b

/-- `Q_reset` empties the queue: what was queued is on the free list once, beside what was on it. -/
def Empties (control : Nat → Nat) : Prop :=
  ∃ fuel s, Queues.qReset q control fuel x.mem = some s ∧ (s.queue q).count = 0 ∧ s.links.Ring (.qctrl q) [] ∧
    ∃ l : List Nat, Path s.links.prev (s.queue q).allocate (l.map .elem) none ∧ l.Nodup ∧
      (∀ a, x.place a = .queue q → a ∈ l) ∧ ∀ a, x.place a = .free q → a ∈ l

variable {x q} {stride : Nat}

theorem Row.empties (row : x.Row q stride) (control : Nat → Nat) (empty : x.contents q = []) : x.Empties q control := by
  have ring := row.ring
  obtain ⟨l, path, once, free⟩ := row.free
  refine ⟨1, x.mem, ?_, ?_, ?_, l, path, once, fun a linked => ?_, fun a isFree => (free a).mpr isFree⟩
  · rw [Queues.qReset, ring.first, empty]
    exact if_pos rfl
  · rw [row.count, empty]
    rfl
  · rw [empty] at ring
    exact ring
  · have member := (row.queued a).mpr linked
    rw [empty] at member
    cases member

/-- The first element's header is taken for the element itself, and what is before it goes on the free list. -/
theorem Row.strays (row : x.Row q stride) (wide : bucketSize < stride) (spread : x.Spread stride) {control : Nat → Nat}
    {a : Nat} {l : List Nat} (contents : x.contents q = a :: l) : ¬x.Empties q control := by
  rintro ⟨fuel, t, result, count, -, l', path, once, queued, free⟩
  have known : x.place a = .queue q := (row.queued a).mp (contents ▸ List.mem_cons_self)
  obtain ⟨frees, list, freeOnce, isFree⟩ := row.free
  have first : x.mem.links.next (.qctrl q) = some (.elem a) := by
    rw [row.ring.first, contents]
    rfl
  have allocate : (x.mem.queue q).allocate ≠ some (.qctrl q) := by
    intro same
    obtain ⟨b, element, -⟩ := row.head_free same
    cases element
  -- the bytes before the first element are no element
  have outside : x.place (a - bucketSize) = .unknown := by
    by_contra inside
    have high := spread.high a (by rw [known]; exact nofun)
    have apart := spread.apart (a - bucketSize) a inside (by rw [known]; exact nofun) (by unfold bucketSize at *; omega)
    omega
  cases fuel with
  | zero => cases result
  | succ fuel =>
      have header : Queues.header control (.elem a) = .elem (a - bucketSize) := rfl
      have astray : Queues.Strays t q (a - bucketSize) (frees.length + (x.mem.queue q).count) := by
        by_cases straight : x.mem.links.prev (.elem (a - bucketSize)) = some (.qctrl q)
        · cases next : x.mem.links.next (.elem (a - bucketSize)) with
          | none =>
              rw [Queues.qReset, first] at result
              dsimp only at result
              rw [if_neg nofun, header, if_pos (.inr next)] at result
              cases result
          | some z =>
              rw [Queues.qReset_round first nofun (header ▸ straight) (header ▸ next)] at result
              refine Queues.Strays.ends ?_ ?_ result
              · intro l path
                obtain ⟨b, rest, rfl, same, before⟩ := Queues.round_path (header ▸ straight) (header ▸ next) path
                obtain rfl := Bucket.elem.inj same
                have lengths := congrArg List.length (before.unique list)
                rw [List.length_map, List.length_map] at lengths
                rw [Queues.round_count, List.length_cons, lengths]
                exact ⟨List.mem_cons_self, by push_cast; omega⟩
              · rw [Queues.round_allocate]
                exact nofun
        · have stuck : Queues.Stuck x.mem q control (.elem a) := ⟨first, nofun, straight, allocate⟩
          rw [stuck.never_ends] at result
          cases result
      obtain ⟨stray, bounded⟩ := astray l' path
      rw [count, row.count] at bounded
      -- so there are too many elements on the free list
      have distinct : ((a - bucketSize) :: (x.contents q ++ frees)).Nodup := by
        refine List.nodup_cons.mpr ⟨fun member => ?_, List.nodup_append.mpr ⟨row.once, freeOnce, ?_⟩⟩
        · rcases List.mem_append.mp member with linked | isOnList
          · have place := (row.queued _).mp linked
            rw [outside] at place
            cases place
          · have place := (isFree _).mp isOnList
            rw [outside] at place
            cases place
        · rintro b linked c onList rfl
          have place := (isFree b).mp onList
          rw [(row.queued b).mp linked] at place
          cases place
      have within : (a - bucketSize) :: (x.contents q ++ frees) ⊆ l' := by
        intro b member
        rcases List.mem_cons.mp member with rfl | member
        · exact stray
        · rcases List.mem_append.mp member with linked | onList
          · exact queued b ((row.queued b).mp linked)
          · exact free b ((isFree b).mp onList)
      have fewer := (List.subperm_of_subset distinct within).length_le
      rw [List.length_cons, List.length_append] at fewer
      omega

theorem Reach.positive {itemSize : Nat} (run : Reach itemSize x) (made : x.made q = true) : 0 < itemSize := by
  induction run with
  | start mem => cases made
  | step before step ih =>
      cases step with
      | create new call fresh =>
          unfold Queues.qCreate at call
          split at call
          case isTrue => cases call
          case isFalse guard => omega
      | _ => exact ih made

end Fifos

/-- `Q_reset` does what it is for just where there is nothing to do. -/
theorem q_reset_empties_iff {α : Type} {itemSize : Nat} {x : Fifos α} (run : Fifos.Reach itemSize x)
    (spread : x.Spread (itemStride itemSize)) {q : Nat} (made : x.made q = true) (control : Nat → Nat) :
    x.Empties q control ↔ x.contents q = [] := by
  have row := run.inv.row q made
  have positive := run.positive made
  have wide : bucketSize < itemStride itemSize := by
    unfold itemStride
    split <;> omega
  constructor
  · intro empties
    cases contents : x.contents q with
    | nil => rfl
    | cons a l => exact absurd empties (row.strays wide spread contents)
  · exact row.empties control

namespace Fifos

/-- A queue that has carved two elements. -/
def carvedTwo : Fifos Int :=
  ⟨(start ⟨fun _ => ⟨0, none, none, 0, 0⟩, ⟨fun _ => none, fun _ => none⟩, fun _ => (0 : Int)⟩).mem.qInit 0 none 8 2
    (some 100), Function.update (fun _ => false) 0 true, fun _ => [], supply 0 (fun _ => .unknown) [100, 116]⟩

theorem carvedTwo_reach : Reach 8 carvedTwo := by
  have start : Reach 8
      (start ⟨fun _ => ⟨0, none, none, 0, 0⟩, ⟨fun _ => none, fun _ => none⟩, fun _ => (0 : Int)⟩) := .start _
  exact start.step (@Step.create _ _ _ 0 none 2 (some 100) _ rfl rfl fun _ _ => rfl)

/-- One of them is queued. -/
def oneQueued : Fifos Int := (carvedTwo.newElem 0 none).enQ 0 100

theorem oneQueued_reach : Reach 8 oneQueued :=
  (carvedTwo_reach.step (@Step.newElem _ _ _ 0 none rfl fun _ _ => by contradiction)).step
    (@Step.enQ _ _ _ 0 100 rfl rfl)

theorem spread_two {x : Fifos Int} (two : ∀ a, x.place a ≠ .unknown → a = 100 ∨ a = 116) : x.Spread 16 := by
  constructor
  · intro a known
    unfold bucketSize
    rcases two a known with rfl | rfl <;> omega
  · intro a b knownA knownB less
    rcases two a knownA with rfl | rfl <;> rcases two b knownB with rfl | rfl <;> omega

theorem carvedTwo_known {a : Nat} (known : carvedTwo.place a ≠ .unknown) : a = 100 ∨ a = 116 := by
  by_contra other
  refine known (if_neg ?_)
  simpa using other

end Fifos

theorem q_reset_empties_two : Fifos.carvedTwo.Empties 0 fun _ => 0 :=
  (q_reset_empties_iff Fifos.carvedTwo_reach (Fifos.spread_two fun _ => Fifos.carvedTwo_known) rfl _).mpr rfl

/-- A queue of one element cannot be reset. -/
theorem q_reset_one : Fifos.Reach 8 Fifos.oneQueued ∧ Fifos.oneQueued.contents 0 = [100] ∧
    ∀ control, ¬Fifos.oneQueued.Empties 0 control := by
  refine ⟨Fifos.oneQueued_reach, rfl, fun control => ?_⟩
  have known : ∀ a, Fifos.oneQueued.place a ≠ .unknown → a = 100 ∨ a = 116 := by
    intro a known
    by_cases same : a = 100
    · exact .inl same
    · refine Fifos.carvedTwo_known fun unknown => known ?_
      have queued : Fifos.oneQueued.place a = Fifos.hand Fifos.carvedTwo.place (some (.elem 100)) a := by
        exact Function.update_of_ne same ..
      rw [queued, Fifos.hand_some, Function.update_of_ne same]
      exact unknown
  exact (Fifos.oneQueued_reach.inv.row 0 rfl).strays (by decide) (Fifos.spread_two known) rfl

end Tmpi.Utils
