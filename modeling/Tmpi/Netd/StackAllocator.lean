import Tmpi.Lib.Path
import Mathlib.Data.List.Perm.Basic
import Mathlib.Data.List.Range
import Mathlib.Data.Finset.Card
import Mathlib.Data.Finset.Range

/-! `stackallocator.c`: items of one size, in chunks, shared by any number of threads.

An item is its address. A step is a critical section of `sa_alloc` or `sa_free`, with the code up
to the next one. -/

namespace Tmpi.Netd

/-- `CHUNK_SIZE` -/
def chunkSize : Nat := 128

/-- `StackAllocator`, and the `next` fields. -/
structure StackAllocator where
  first : Option Nat
  next : Nat → Option Nat
  bufIdx : Nat
  buffers : Nat → Nat
  maxBuffers : Nat
  size : Nat

/-- `INT_MAX` -/
def intMax : Nat := 2147483647

/-- `sa_init` with the `next` fields of unused memory. There is none where an `int` overflows. -/
def saInit (memory : Nat → Option Nat) (size maxItems : Int) : Option StackAllocator :=
  let maxItems := if maxItems ≤ 0 then 1 else maxItems
  if maxItems + chunkSize ≤ intMax ∧ size + 7 ≤ intMax then
    some {
      first := none
      next := memory
      bufIdx := 0
      buffers := fun _ => 0
      maxBuffers := ((maxItems + chunkSize - 1) / chunkSize).toNat
      size := (if size < 8 then 8 else (size + 7) / 8 * 8).toNat }
  else none

/-- What is known of a call of `sa_alloc` when it releases the lock. -/
inductive SaAlloc where
  | returns (item : Option Nat)
  /-- Has a new chunk, and has yet to link it. -/
  | gap (block : Nat)

namespace StackAllocator

variable (sa : StackAllocator)

/-- The loop of `sa_alloc` in the gap. -/
def linkItems (block : Nat) : Nat → Option Nat :=
  (List.range (chunkSize - 1)).foldl
    (fun next i => Function.update next (block + i * sa.size) (some (block + (i + 1) * sa.size)))
    sa.next

/-- The first critical section of `sa_alloc`; `block` is what `malloc` returns, if it is called. -/
def saAlloc (block : Option Nat) : StackAllocator × SaAlloc :=
  match sa.first with
  | some item => ({ sa with first := sa.next item }, .returns (some item))
  | none =>
      if sa.bufIdx = sa.maxBuffers then (sa, .returns none)
      else
        match block with
        | none => (sa, .returns none)
        | some block => ({ sa with next := sa.linkItems block }, .gap block)

/-- The second critical section, when the thread has a new chunk. -/
def saLink (block : Nat) : StackAllocator :=
  let last := block + (chunkSize - 1) * sa.size
  let next := Function.update sa.next last sa.first
  { sa with
    buffers := Function.update sa.buffers sa.bufIdx block
    bufIdx := sa.bufIdx + 1
    next := next
    first := next block }

def saFree (item : Nat) : StackAllocator :=
  { sa with next := Function.update sa.next item sa.first, first := some item }

/-- `sa_checkone` -/
def saCheckone (addr : Nat) : Bool :=
  (List.range sa.bufIdx).any fun i =>
    let buffer := sa.buffers i
    buffer ≤ addr && addr ≤ buffer + (chunkSize * sa.size - sa.size) &&
      (addr - buffer) % sa.size == 0

/-- The loop of `sa_check`, which has counted `count` items. -/
def saCheckLoop : Nat → Option Nat → Nat → Option Int
  | 0, _, _ => none
  | _ + 1, none, count => some (if count ≠ chunkSize * sa.bufIdx then 1 else 0)
  | fuel + 1, some item, count =>
      if sa.saCheckone item then saCheckLoop fuel (sa.next item) (count + 1)
      else some (BitVec.ofNat 32 item).toInt

def saCheck (fuel : Nat) : Option Int := sa.saCheckLoop fuel sa.first 0

end StackAllocator

/-- An allocator and its threads. `held` are the items that its users have; `stores` are the
indices at which `sa_alloc` has written to `buffers`. -/
structure SaSys where
  sa : StackAllocator
  gap : Nat → Option Nat
  held : List Nat
  stores : List Nat

/-- The memory of two chunks does not overlap. -/
def Apart (size block block' : Nat) : Prop :=
  block + chunkSize * size ≤ block' ∨ block' + chunkSize * size ≤ block

instance (size block block' : Nat) : Decidable (Apart size block block') :=
  inferInstanceAs (Decidable (_ ∨ _))

namespace SaSys

variable (n : Nat) (s : SaSys) (t : Nat)

/-- What `malloc` may return for a chunk. -/
def Mallocs (block : Nat) : Prop :=
  0 < block ∧ chunkSize * s.sa.size ≤ intMax ∧
    (∀ i < s.sa.bufIdx, Apart s.sa.size (s.sa.buffers i) block) ∧
    ∀ u < n, ∀ other ∈ s.gap u, Apart s.sa.size other block

instance (block : Nat) : Decidable (s.Mallocs n block) := by
  unfold Mallocs
  infer_instance

inductive Act where
  | alloc (t : Nat) (block : Option Nat)
  | link (t : Nat)
  | free (t item : Nat)
  /-- A user writes to its item. -/
  | write (t item : Nat) (value : Option Nat)

def Act.thread : Act → Nat
  | .alloc t _ | .link t | .free t _ | .write t _ _ => t

/-- Items that are freed are ones that a user has. -/
def step : Act → Option SaSys
  | .alloc t block =>
      if s.gap t = none ∧ ∀ b ∈ block, s.Mallocs n b then
        match s.sa.saAlloc block with
        | (sa, .returns none) => some { s with sa }
        | (sa, .returns (some item)) => some { s with sa, held := item :: s.held }
        | (sa, .gap block) => some { s with sa, gap := Function.update s.gap t (some block) }
      else none
  | .link t =>
      (s.gap t).map fun block =>
        { sa := s.sa.saLink block
          gap := Function.update s.gap t none
          held := block :: s.held
          stores := s.sa.bufIdx :: s.stores }
  | .free t item =>
      if s.gap t = none ∧ item ∈ s.held then
        some { s with sa := s.sa.saFree item, held := s.held.erase item }
      else none
  | .write t item value =>
      if s.gap t = none ∧ item ∈ s.held then
        some { s with sa := { s.sa with next := Function.update s.sa.next item value } }
      else none

/-- The runs of the threads `0, .., n - 1` whose steps are `Ok`. -/
inductive Reach (Ok : SaSys → Act → Prop) : SaSys → Prop where
  | init {memory : Nat → Option Nat} {size maxItems : Int} {sa : StackAllocator} :
      saInit memory size maxItems = some sa → Reach Ok ⟨sa, fun _ => none, [], []⟩
  | step {s s' : SaSys} {act : Act} : Reach Ok s → act.thread < n → Ok s act →
      s.step n act = some s' → Reach Ok s'

/-- The run of some actions. -/
def run : SaSys → List Act → Option SaSys
  | s, [] => some s
  | s, act :: acts => (s.step n act).bind fun s => run s acts

variable {n s} in
theorem Reach.run {s' : SaSys} {acts : List Act} (reach : Reach n (fun _ _ => True) s)
    (inside : ∀ act ∈ acts, act.thread < n) (runs : s.run n acts = some s') :
    Reach n (fun _ _ => True) s' := by
  induction acts generalizing s with
  | nil => exact Option.some.inj runs ▸ reach
  | cons act acts ih =>
      obtain ⟨mid, taken, rest⟩ := Option.bind_eq_some_iff.mp runs
      exact ih (.step reach (inside act List.mem_cons_self) trivial taken)
        (fun a later => inside a (List.mem_cons_of_mem act later)) rest

end SaSys

/-! ## Chunks -/

/-- The items of a chunk. -/
def chunkItems (size block : Nat) : List Nat :=
  (List.range chunkSize).map fun i => block + i * size

section Chunks

variable {size block block' item : Nat}

theorem mem_chunkItems : item ∈ chunkItems size block ↔ ∃ i < chunkSize, item = block + i * size := by
  simp only [chunkItems, List.mem_map, List.mem_range]
  constructor
  · rintro ⟨i, low, rfl⟩
    exact ⟨i, low, rfl⟩
  · rintro ⟨i, low, rfl⟩
    exact ⟨i, low, rfl⟩

theorem chunkItems_nodup (pos : 0 < size) : (chunkItems size block).Nodup := by
  refine List.Nodup.map (fun i j same => ?_) List.nodup_range
  exact Nat.eq_of_mul_eq_mul_right pos (Nat.add_left_cancel same)

theorem chunkItems_range (member : item ∈ chunkItems size block) :
    block ≤ item ∧ item + size ≤ block + chunkSize * size := by
  obtain ⟨i, low, rfl⟩ := mem_chunkItems.mp member
  refine ⟨Nat.le_add_right _ _, ?_⟩
  have bound : (i + 1) * size ≤ chunkSize * size := Nat.mul_le_mul_right size low
  rw [Nat.add_mul, Nat.one_mul] at bound
  omega

theorem Apart.disjoint (apart : Apart size block block') (pos : 0 < size) :
    List.Disjoint (chunkItems size block) (chunkItems size block') := by
  intro item here there
  have first := chunkItems_range here
  have second := chunkItems_range there
  rcases apart with below | above <;> omega

theorem Apart.symm (apart : Apart size block block') : Apart size block' block := Or.symm apart

/-- The first item, and those behind it. -/
theorem chunkItems_eq : chunkItems size block = block ::
    ((List.range (chunkSize - 1)).map fun i => block + (i + 1) * size) := by
  have split : chunkSize = (chunkSize - 1) + 1 := rfl
  rw [chunkItems, split, List.range_succ_eq_map, List.map_cons, List.map_map, Nat.zero_mul,
    Nat.add_zero]
  rfl

end Chunks

section Links

variable {sa : StackAllocator} {block item : Nat}

/-- The loop after `k` rounds. -/
theorem linkItems_rounds (pos : 0 < sa.size) (k : Nat) :
    let next := (List.range k).foldl (fun next i =>
      Function.update next (block + i * sa.size) (some (block + (i + 1) * sa.size))) sa.next
    (∀ i < k, next (block + i * sa.size) = some (block + (i + 1) * sa.size)) ∧
      ∀ item, (∀ i < k, item ≠ block + i * sa.size) → next item = sa.next item := by
  induction k with
  | zero => exact ⟨fun i low => absurd low (Nat.not_lt_zero i), fun _ _ => rfl⟩
  | succ k ih =>
      obtain ⟨linked, others⟩ := ih
      simp only [List.range_succ, List.foldl_append, List.foldl_cons, List.foldl_nil]
      constructor
      · intro i low
        by_cases last : i = k
        · subst last
          rw [Function.update_self]
        · have apart : block + i * sa.size ≠ block + k * sa.size := by
            intro same
            exact last (Nat.eq_of_mul_eq_mul_right pos (Nat.add_left_cancel same))
          rw [Function.update_of_ne apart]
          exact linked i (by omega)
      · intro item away
        rw [Function.update_of_ne (away k (Nat.lt_succ_self k))]
        exact others item fun i low => away i (Nat.lt_succ_of_lt low)

theorem linkItems_other (pos : 0 < sa.size) (away : item ∉ chunkItems sa.size block) :
    sa.linkItems block item = sa.next item := by
  refine (linkItems_rounds pos (chunkSize - 1)).2 item fun i low same => away ?_
  exact mem_chunkItems.mpr ⟨i, lt_of_lt_of_le low (Nat.sub_le _ _), same⟩

/-- A chunk whose items but the last one are linked. -/
def Linked (size : Nat) (next : Nat → Option Nat) (block : Nat) : Prop :=
  ∀ i < chunkSize - 1, next (block + i * size) = some (block + (i + 1) * size)

theorem linkItems_linked (pos : 0 < sa.size) : Linked sa.size (sa.linkItems block) block :=
  (linkItems_rounds pos (chunkSize - 1)).1

theorem Linked.congr {size : Nat} {next next' : Nat → Option Nat} (linked : Linked size next block)
    (same : ∀ item ∈ chunkItems size block, next' item = next item) : Linked size next' block := by
  intro i low
  rw [same _ (mem_chunkItems.mpr ⟨i, lt_of_lt_of_le low (Nat.sub_le _ _), rfl⟩)]
  exact linked i low

/-- The items of a chunk from the `j`-th on lead to what follows the last one. -/
theorem Linked.path {size : Nat} {next : Nat → Option Nat} (linked : Linked size next block)
    {rest : Option Nat} (last : next (block + (chunkSize - 1) * size) = rest)
    (j k : Nat) (all : j + k = chunkSize) (some' : 0 < k) :
    Path next (some (block + j * size)) ((List.range k).map fun i => block + (j + i) * size) rest := by
  induction k generalizing j with
  | zero => exact absurd some' (Nat.lt_irrefl 0)
  | succ k ih =>
      rw [List.range_succ_eq_map, List.map_cons, List.map_map, Nat.add_zero]
      refine ⟨rfl, ?_⟩
      rcases Nat.eq_zero_or_pos k with rfl | more
      · have end' : j = chunkSize - 1 := by omega
        rw [end', last]
        rfl
      · rw [linked j (by omega)]
        have tail := ih (j + 1) (by omega) more
        have items : ((List.range k).map fun i => block + (j + 1 + i) * size) =
            (List.range k).map ((fun i => block + (j + i) * size) ∘ Nat.succ) := by
          refine List.map_congr_left fun i _ => ?_
          rw [Function.comp_apply, Nat.succ_eq_add_one, Nat.add_right_comm, Nat.add_assoc j i 1]
        rw [← items]
        exact tail

end Links

/-! ## The invariant -/

namespace SaSys

variable {n : Nat} {s s' : SaSys} {t : Nat}

/-- The items of the registered chunks. -/
def registered (sa : StackAllocator) : List Nat :=
  (List.range sa.bufIdx).flatMap fun i => chunkItems sa.size (sa.buffers i)

/-- What holds between critical sections; `free` is the free list. -/
structure Inv (n : Nat) (s : SaSys) (free : List Nat) : Prop where
  pos : 0 < s.sa.size
  path : Path s.sa.next s.sa.first free none
  items : (free ++ s.held).Perm (registered s.sa)
  apart : ∀ i < s.sa.bufIdx, ∀ j < s.sa.bufIdx, i ≠ j →
    Apart s.sa.size (s.sa.buffers i) (s.sa.buffers j)
  gap : ∀ t < n, ∀ block, s.gap t = some block →
    Linked s.sa.size s.sa.next block ∧
      (∀ i < s.sa.bufIdx, Apart s.sa.size (s.sa.buffers i) block) ∧
      ∀ u < n, u ≠ t → ∀ other, s.gap u = some other → Apart s.sa.size other block

theorem mem_registered {sa : StackAllocator} {item : Nat} :
    item ∈ registered sa ↔ ∃ i < sa.bufIdx, item ∈ chunkItems sa.size (sa.buffers i) := by
  simp only [registered, List.mem_flatMap, List.mem_range]

theorem Inv.nodup {free : List Nat} (inv : Inv n s free) : (free ++ s.held).Nodup := by
  rw [inv.items.nodup_iff, registered, List.nodup_flatMap]
  refine ⟨fun i _ => chunkItems_nodup inv.pos, ?_⟩
  refine List.nodup_range.pairwise_of_forall_ne fun i here j there apart => ?_
  exact (inv.apart i (List.mem_range.mp here) j (List.mem_range.mp there) apart).disjoint inv.pos

/-- An item that a thread has in the gap is neither free nor held. -/
theorem Inv.fresh {free : List Nat} (inv : Inv n s free) {block : Nat}
    (apart : ∀ i < s.sa.bufIdx, Apart s.sa.size (s.sa.buffers i) block) {item : Nat}
    (member : item ∈ chunkItems s.sa.size block) : item ∉ free ∧ item ∉ s.held := by
  have unknown : item ∉ free ++ s.held := by
    rw [inv.items.mem_iff, mem_registered]
    rintro ⟨i, low, here⟩
    exact (apart i low).disjoint inv.pos here member
  rw [List.mem_append, not_or] at unknown
  exact unknown

theorem init_inv {memory : Nat → Option Nat} {size maxItems : Int} {sa : StackAllocator}
    (init : saInit memory size maxItems = some sa) : Inv n ⟨sa, fun _ => none, [], []⟩ [] := by
  rw [saInit, Option.ite_none_right_eq_some, Option.some.injEq] at init
  obtain ⟨-, rfl⟩ := init
  refine ⟨?_, rfl, .nil, fun i low => absurd low (Nat.not_lt_zero i), nofun⟩
  change 0 < (if size < 8 then 8 else (size + 7) / 8 * 8).toNat
  split <;> omega

/-- The memory of items that no thread has in the gap may change. -/
theorem Inv.gap_congr {free : List Nat} (inv : Inv n s free) {sa : StackAllocator}
    (size : sa.size = s.sa.size) (idx : sa.bufIdx = s.sa.bufIdx) (buffers : sa.buffers = s.sa.buffers)
    (same : ∀ item, item ∉ free → item ∉ s.held → sa.next item = s.sa.next item) :
    ∀ t < n, ∀ block, s.gap t = some block → Linked sa.size sa.next block ∧
      (∀ i < sa.bufIdx, Apart sa.size (sa.buffers i) block) ∧
      ∀ u < n, u ≠ t → ∀ other, s.gap u = some other → Apart sa.size other block := by
  intro t low block here
  obtain ⟨linked, apart, others⟩ := inv.gap t low block here
  rw [size, idx, buffers]
  refine ⟨linked.congr fun item member => ?_, apart, others⟩
  have fresh := inv.fresh apart member
  exact same item fresh.1 fresh.2

/-- An item of the free list is returned. -/
theorem Inv.pop {free : List Nat} (inv : Inv n s free) {item : Nat} (first : s.sa.first = some item) :
    ∃ rest, Inv n { s with
      sa := { s.sa with first := s.sa.next item }
      held := item :: s.held } rest := by
  cases free with
  | nil =>
      have none : s.sa.first = none := inv.path
      rw [first] at none
      cases none
  | cons other rest =>
      obtain ⟨here, tail⟩ := inv.path
      rw [first, Option.some.injEq] at here
      subst here
      exact ⟨rest, inv.pos, tail, List.perm_middle.trans inv.items, inv.apart, inv.gap⟩

/-- A thread has a new chunk. -/
theorem Inv.chunk {free : List Nat} (inv : Inv n s free) {block : Nat} {first : Option Nat}
    (same : s.sa.first = first) (mallocs : s.Mallocs n block) : Inv n { s with
      sa := { s.sa with first, next := s.sa.linkItems block }
      gap := Function.update s.gap t (some block) } free := by
  subst same
  obtain ⟨-, -, registered, gaps⟩ := mallocs
  have keeps : ∀ item, item ∉ chunkItems s.sa.size block →
      s.sa.linkItems block item = s.sa.next item := fun item => linkItems_other inv.pos
  have new : Linked s.sa.size (s.sa.linkItems block) block := linkItems_linked inv.pos
  refine ⟨inv.pos, inv.path.congr fun item member => keeps item fun here => ?_, inv.items, inv.apart,
    fun u low other here => ?_⟩
  · exact (inv.fresh registered here).1 member
  · by_cases self : u = t
    · subst self
      have same : block = other := by
        simpa only [Function.update_self, Option.some.injEq] using here
      subst same
      refine ⟨new, registered, fun v low' apart b there => ?_⟩
      simp only [Function.update_of_ne apart] at there
      exact gaps v low' b there
    · simp only [Function.update_of_ne self] at here
      obtain ⟨linked, apart, others⟩ := inv.gap u low other here
      have away : Apart s.sa.size other block := gaps u low other here
      refine ⟨linked.congr fun item member => keeps item fun there => ?_, apart,
        fun v low' ne b there => ?_⟩
      · exact away.disjoint inv.pos member there
      · by_cases also : v = t
        · subst also
          have same : block = b := by
            simpa only [Function.update_self, Option.some.injEq] using there
          exact same ▸ away.symm
        · simp only [Function.update_of_ne also] at there
          exact others v low' ne b there

theorem alloc_inv {free : List Nat} (inv : Inv n s free) {block : Option Nat}
    (taken : s.step n (.alloc t block) = some s') : ∃ free, Inv n s' free := by
  rw [step, Option.ite_none_right_eq_some] at taken
  obtain ⟨⟨-, mallocs⟩, taken⟩ := taken
  cases first : s.sa.first with
  | some item =>
      simp only [StackAllocator.saAlloc, first, Option.some.injEq] at taken
      subst taken
      exact inv.pop first
  | none =>
      simp only [StackAllocator.saAlloc, first] at taken
      by_cases limit : s.sa.bufIdx = s.sa.maxBuffers
      · simp only [if_pos limit, Option.some.injEq] at taken
        subst taken
        exact ⟨free, inv⟩
      · cases block with
        | none =>
            simp only [if_neg limit, Option.some.injEq] at taken
            subst taken
            exact ⟨free, inv⟩
        | some block =>
            simp only [if_neg limit, Option.some.injEq] at taken
            subst taken
            exact ⟨free, inv.chunk first (mallocs block rfl)⟩

theorem registered_saLink (sa : StackAllocator) (block : Nat) :
    registered (sa.saLink block) = registered sa ++ chunkItems sa.size block := by
  have old : ∀ i ∈ List.range sa.bufIdx, chunkItems sa.size ((sa.saLink block).buffers i) =
      chunkItems sa.size (sa.buffers i) := by
    intro i member
    have low : i ≠ sa.bufIdx := (List.mem_range.mp member).ne
    exact congrArg _ (Function.update_of_ne low _ _)
  have new : (sa.saLink block).buffers sa.bufIdx = block := Function.update_self _ _ _
  change (List.range (sa.bufIdx + 1)).flatMap
    (fun i => chunkItems sa.size ((sa.saLink block).buffers i)) = _
  rw [List.range_succ, List.flatMap_append, List.flatMap_singleton, new, List.flatMap_congr old]
  rfl

/-- The chunk is linked before whatever is free by then. -/
theorem link_inv {free : List Nat} (inv : Inv n s free) (inside : t < n)
    (taken : s.step n (.link t) = some s') : ∃ free, Inv n s' free := by
  obtain ⟨block, here, rfl⟩ := Option.map_eq_some_iff.mp taken
  obtain ⟨linked, apart, others⟩ := inv.gap t inside block here
  set last := block + (chunkSize - 1) * s.sa.size with lastEq
  set next := Function.update s.sa.next last s.sa.first with nextEq
  have member : last ∈ chunkItems s.sa.size block :=
    mem_chunkItems.mpr ⟨chunkSize - 1, by decide, rfl⟩
  have keeps : ∀ item, item ∉ chunkItems s.sa.size block → next item = s.sa.next item := by
    intro item away
    have ne : item ≠ last := by
      rintro rfl
      exact away member
    exact Function.update_of_ne ne _ _
  have linked' : Linked s.sa.size next block := by
    intro i low
    have before : block + i * s.sa.size ≠ last := by
      intro same
      have equal := Nat.eq_of_mul_eq_mul_right inv.pos (Nat.add_left_cancel same)
      omega
    rw [nextEq, Function.update_of_ne before]
    exact linked i low
  set rest := (List.range (chunkSize - 1)).map fun i => block + (i + 1) * s.sa.size with restEq
  have chain : Path next (next block) rest s.sa.first := by
    have ends : next last = s.sa.first := Function.update_self _ _ _
    have whole := linked'.path ends 0 chunkSize rfl (by decide)
    have items : ((List.range chunkSize).map fun i => block + (0 + i) * s.sa.size) = block :: rest := by
      rw [restEq, ← chunkItems_eq, chunkItems]
      simp only [Nat.zero_add]
    rw [items] at whole
    exact whole.2
  have behind : Path next s.sa.first free none :=
    inv.path.congr fun item there => keeps item fun chunk => (inv.fresh apart chunk).1 there
  refine ⟨rest ++ free, inv.pos, Path.append_iff.mpr ⟨_, chain, behind⟩, ?_, ?_, ?_⟩
  · change ((rest ++ free) ++ block :: s.held).Perm (registered (s.sa.saLink block))
    rw [registered_saLink, chunkItems_eq, ← restEq]
    calc
      ((rest ++ free) ++ block :: s.held).Perm (block :: (rest ++ free ++ s.held)) :=
        List.perm_middle
      _ = (block :: rest) ++ (free ++ s.held) := by rw [List.append_assoc, List.cons_append]
      List.Perm _ ((free ++ s.held) ++ (block :: rest)) := List.perm_append_comm
      List.Perm _ (registered s.sa ++ (block :: rest)) := inv.items.append_right _
  · intro i low j low' ne
    change i < s.sa.bufIdx + 1 at low
    change j < s.sa.bufIdx + 1 at low'
    change Apart s.sa.size (Function.update s.sa.buffers s.sa.bufIdx block i)
      (Function.update s.sa.buffers s.sa.bufIdx block j)
    by_cases new : i = s.sa.bufIdx
    · have old : j < s.sa.bufIdx := by omega
      rw [new, Function.update_self, Function.update_of_ne old.ne]
      exact (apart j old).symm
    · rw [Function.update_of_ne new]
      by_cases new' : j = s.sa.bufIdx
      · rw [new', Function.update_self]
        exact apart i (by omega)
      · rw [Function.update_of_ne new']
        exact inv.apart i (by omega) j (by omega) ne
  · intro u low other there
    have self : u ≠ t := by
      rintro rfl
      simp only [Function.update_self, reduceCtorEq] at there
    simp only [Function.update_of_ne self] at there
    obtain ⟨linkedU, apartU, othersU⟩ := inv.gap u low other there
    have away : Apart s.sa.size other block := others u low self other there
    refine ⟨linkedU.congr fun item member' => keeps item fun chunk => ?_, fun i low' => ?_,
      fun v low' ne b at' => ?_⟩
    · exact away.disjoint inv.pos member' chunk
    · change i < s.sa.bufIdx + 1 at low'
      change Apart s.sa.size (Function.update s.sa.buffers s.sa.bufIdx block i) other
      by_cases new : i = s.sa.bufIdx
      · rw [new, Function.update_self]
        exact away.symm
      · rw [Function.update_of_ne new]
        exact apartU i (by omega)
    · have ne' : v ≠ t := by
        rintro rfl
        simp only [Function.update_self, reduceCtorEq] at at'
      simp only [Function.update_of_ne ne'] at at'
      exact othersU v low' ne b at'

/-- An item that a user has is nobody else's. -/
theorem Inv.not_free {free : List Nat} (inv : Inv n s free) {item : Nat} (held : item ∈ s.held) :
    item ∉ free := fun member =>
  (List.nodup_append.mp inv.nodup).2.2 item member item held rfl

theorem free_inv {free : List Nat} (inv : Inv n s free) {item : Nat}
    (taken : s.step n (.free t item) = some s') : ∃ free, Inv n s' free := by
  rw [step, Option.ite_none_right_eq_some, Option.some.injEq] at taken
  obtain ⟨⟨-, held⟩, rfl⟩ := taken
  have away := inv.not_free held
  refine ⟨item :: free, inv.pos, ⟨rfl, ?_⟩, ?_, inv.apart,
    inv.gap_congr rfl rfl rfl fun other _ unheld => ?_⟩
  · change Path (Function.update s.sa.next item s.sa.first)
      (Function.update s.sa.next item s.sa.first item) free none
    rw [Function.update_self]
    exact inv.path.congr fun other member =>
      Function.update_of_ne (ne_of_mem_of_not_mem member away) _ _
  · calc
      ((item :: free) ++ s.held.erase item).Perm (free ++ (item :: s.held.erase item)) :=
        List.perm_middle.symm
      List.Perm _ (free ++ s.held) := (List.perm_cons_erase held).symm.append_left free
      List.Perm _ (registered s.sa) := inv.items
  · exact Function.update_of_ne (ne_of_mem_of_not_mem held unheld).symm _ _

theorem write_inv {free : List Nat} (inv : Inv n s free) {item : Nat} {value : Option Nat}
    (taken : s.step n (.write t item value) = some s') : ∃ free, Inv n s' free := by
  rw [step, Option.ite_none_right_eq_some, Option.some.injEq] at taken
  obtain ⟨⟨-, held⟩, rfl⟩ := taken
  have away := inv.not_free held
  refine ⟨free, inv.pos, inv.path.congr fun other member => ?_, inv.items, inv.apart,
    inv.gap_congr rfl rfl rfl fun other _ unheld => ?_⟩
  · exact Function.update_of_ne (ne_of_mem_of_not_mem member away) _ _
  · exact Function.update_of_ne (ne_of_mem_of_not_mem held unheld).symm _ _

theorem reach_inv {Ok : SaSys → Act → Prop} (reach : Reach n Ok s) : ∃ free, Inv n s free := by
  induction reach with
  | init init => exact ⟨[], init_inv init⟩
  | @step s s' act _ inside _ taken ih =>
      obtain ⟨free, inv⟩ := ih
      cases act with
      | alloc t block => exact alloc_inv inv taken
      | link t => exact link_inv inv inside taken
      | free t item => exact free_inv inv taken
      | write t item value => exact write_inv inv taken

/-! ## What the users get -/

/-- An item of a chunk, at a multiple of the size. -/
def Aligned (sa : StackAllocator) (item : Nat) : Prop :=
  ∃ i < sa.bufIdx, sa.buffers i ≤ item ∧ item + sa.size ≤ sa.buffers i + chunkSize * sa.size ∧
    (item - sa.buffers i) % sa.size = 0

/-- What holds of an allocator at any time; `free` is its free list. -/
structure Sound (s : SaSys) (free : List Nat) : Prop where
  path : Path s.sa.next s.sa.first free none
  distinct : s.held.Nodup
  listed : free.Nodup
  disjoint : s.held.Disjoint free
  aligned : ∀ item, item ∈ free ∨ item ∈ s.held → Aligned s.sa item
  count : free.length + s.held.length = chunkSize * s.sa.bufIdx
  check : ∃ result, (∀ fuel, free.length < fuel → s.sa.saCheck fuel = some result) ∧
    (result = 0 ↔ s.held = [])

theorem Inv.aligned {free : List Nat} (inv : Inv n s free) {item : Nat}
    (member : item ∈ free ∨ item ∈ s.held) : Aligned s.sa item := by
  have here : item ∈ registered s.sa := inv.items.mem_iff.mp (List.mem_append.mpr member)
  obtain ⟨i, low, chunk⟩ := mem_registered.mp here
  obtain ⟨j, -, equal⟩ := mem_chunkItems.mp chunk
  have range := chunkItems_range chunk
  refine ⟨i, low, range.1, range.2, ?_⟩
  rw [equal, Nat.add_sub_cancel_left, Nat.mul_mod_left]

theorem Aligned.checks {sa : StackAllocator} {item : Nat} (aligned : Aligned sa item) :
    sa.saCheckone item = true := by
  obtain ⟨i, low, above, below, mod⟩ := aligned
  rw [StackAllocator.saCheckone, List.any_eq_true]
  refine ⟨i, List.mem_range.mpr low, ?_⟩
  have last : item ≤ sa.buffers i + (chunkSize * sa.size - sa.size) := by
    have enough : sa.size ≤ chunkSize * sa.size := Nat.le_mul_of_pos_left _ (by decide)
    omega
  simp only [Bool.and_eq_true, decide_eq_true_eq, beq_iff_eq]
  exact ⟨⟨above, last⟩, mod⟩

/-- `sa_check` counts the free list. -/
theorem saCheckLoop_path {sa : StackAllocator} {free : List Nat} {first : Option Nat}
    (path : Path sa.next first free none) (checks : ∀ item ∈ free, sa.saCheckone item = true)
    (count fuel : Nat) (enough : free.length < fuel) : sa.saCheckLoop fuel first count =
      some (if count + free.length ≠ chunkSize * sa.bufIdx then 1 else 0) := by
  induction free generalizing first count fuel with
  | nil =>
      obtain ⟨fuel, rfl⟩ := Nat.exists_eq_add_one_of_ne_zero (Nat.ne_of_gt enough)
      have none : first = none := path
      rw [none]
      rfl
  | cons item rest ih =>
      obtain ⟨fuel, rfl⟩ := Nat.exists_eq_add_one_of_ne_zero
        (Nat.ne_of_gt (lt_of_le_of_lt (Nat.zero_le _) enough))
      obtain ⟨rfl, tail⟩ := path
      have more : rest.length < fuel := Nat.lt_of_succ_lt_succ enough
      have later := ih tail (fun item member => checks item (List.mem_cons_of_mem _ member))
        (count + 1) fuel more
      rw [StackAllocator.saCheckLoop, if_pos (checks item List.mem_cons_self), later,
        List.length_cons, Nat.add_assoc, Nat.add_comm 1]

theorem Inv.sound {free : List Nat} (inv : Inv n s free) : s.Sound free := by
  obtain ⟨listed, distinct, apart⟩ := List.nodup_append.mp inv.nodup
  have total : free.length + s.held.length = chunkSize * s.sa.bufIdx := by
    have lengths : ∀ i ∈ List.range s.sa.bufIdx,
        (chunkItems s.sa.size (s.sa.buffers i)).length = chunkSize := by
      intro i _
      rw [chunkItems, List.length_map, List.length_range]
    calc
      free.length + s.held.length = (free ++ s.held).length := List.length_append.symm
      _ = (registered s.sa).length := inv.items.length_eq
      _ = ((List.range s.sa.bufIdx).map fun _ => chunkSize).sum := by
        rw [registered, List.length_flatMap, List.map_congr_left lengths]
      _ = chunkSize * s.sa.bufIdx := by
        rw [List.map_const', List.sum_replicate, List.length_range, smul_eq_mul, Nat.mul_comm]
  refine ⟨inv.path, distinct, listed, fun item here there => apart item there item here rfl,
    fun item => inv.aligned, total, _, fun fuel enough => saCheckLoop_path inv.path
      (fun item member => (inv.aligned (.inl member)).checks) 0 fuel enough, ?_⟩
  rw [Nat.zero_add, ← total, ← List.length_eq_zero_iff]
  split <;> omega

/-- In every state that threads can reach, nothing is lost and nothing is given out twice. -/
theorem stackAllocator_sound (reach : Reach n (fun _ _ => True) s) : ∃ free, s.Sound free := by
  obtain ⟨free, inv⟩ := reach_inv reach
  exact ⟨free, inv.sound⟩

/-- Two threads make chunks at the same time, and an item is freed. -/
def twoChunks : List Act :=
  [.alloc 0 (some 8), .alloc 1 (some 6000), .link 1, .link 0, .free 1 6000]

theorem stackAllocator_sound_two : ∃ s : SaSys, (∃ free, s.Sound free) ∧ s.held = [8] ∧
    s.sa.bufIdx = 2 := by
  have ends : ((saInit (fun _ => none) 37 200).bind fun sa =>
      run 2 ⟨sa, fun _ => none, [], []⟩ twoChunks).map (fun s => (s.held, s.sa.bufIdx)) =
        some ([8], 2) := by decide
  obtain ⟨s, runs, equal⟩ := Option.map_eq_some_iff.mp ends
  obtain ⟨sa, init, runs⟩ := Option.bind_eq_some_iff.mp runs
  have reach := (Reach.init init).run (by decide) runs
  exact ⟨s, stackAllocator_sound reach, congrArg Prod.fst equal, congrArg Prod.snd equal⟩

/-! ## The limit -/

/-- The threads between their two critical sections. -/
def gaps (n : Nat) (s : SaSys) : Finset Nat := (Finset.range n).filter fun t => (s.gap t).isSome

/-- The array of chunks is large enough. -/
structure Limited (s : SaSys) : Prop where
  bufIdx : s.sa.bufIdx ≤ s.sa.maxBuffers
  stores : ∀ i ∈ s.stores, i < s.sa.maxBuffers
  null : ∀ block, s.sa.first = none → s.sa.maxBuffers ≤ s.sa.bufIdx →
    s.sa.saAlloc block = (s.sa, .returns none)

/-- No thread gets a chunk when those that are registered and those in the gap are all there may
be. -/
def Spare (n : Nat) (s : SaSys) : Act → Prop
  | .alloc _ (some _) => s.sa.first = none → s.sa.bufIdx ≠ s.sa.maxBuffers →
      s.sa.bufIdx + (gaps n s).card < s.sa.maxBuffers
  | _ => True

theorem mem_gaps : t ∈ gaps n s ↔ t < n ∧ ∃ block, s.gap t = some block := by
  rw [gaps, Finset.mem_filter, Finset.mem_range, Option.isSome_iff_exists]

theorem gaps_enter {block : Nat} (inside : t < n) (none : s.gap t = none)
    (after : s'.gap = Function.update s.gap t (some block)) :
    (gaps n s').card = (gaps n s).card + 1 := by
  have fresh : t ∉ gaps n s := by
    rw [mem_gaps, none]
    rintro ⟨-, b, has⟩
    cases has
  have same : gaps n s' = insert t (gaps n s) := by
    ext u
    rw [Finset.mem_insert, mem_gaps, mem_gaps, after]
    by_cases self : u = t
    · subst self
      simp [inside]
    · simp [self]
  rw [same, Finset.card_insert_of_notMem fresh]

theorem gaps_leave {block : Nat} (inside : t < n) (here : s.gap t = some block)
    (after : s'.gap = Function.update s.gap t none) : (gaps n s).card = (gaps n s').card + 1 := by
  have gone : s'.gap t = none := by rw [after, Function.update_self]
  have before : s.gap = Function.update s'.gap t (some block) := by
    rw [after, Function.update_idem, ← here, Function.update_eq_self]
  exact gaps_enter inside gone before

/-- What a step does to the chunks. -/
inductive Chunks (n : Nat) (s s' : SaSys) : Act → Prop where
  | stay {act : Act} : s'.sa.bufIdx = s.sa.bufIdx → gaps n s' = gaps n s →
      s'.stores = s.stores → Chunks n s s' act
  | enter {t block : Nat} : s.sa.first = none → s.sa.bufIdx ≠ s.sa.maxBuffers →
      s'.sa.bufIdx = s.sa.bufIdx → (gaps n s').card = (gaps n s).card + 1 →
      s'.stores = s.stores → Chunks n s s' (.alloc t (some block))
  | link {t : Nat} : s'.sa.bufIdx = s.sa.bufIdx + 1 → (gaps n s).card = (gaps n s').card + 1 →
      s'.stores = s.sa.bufIdx :: s.stores → Chunks n s s' (.link t)

theorem step_chunks {act : Act} (inside : act.thread < n) (taken : s.step n act = some s') :
    s'.sa.maxBuffers = s.sa.maxBuffers ∧ Chunks n s s' act := by
  cases act with
  | alloc t block =>
      rw [step, Option.ite_none_right_eq_some] at taken
      obtain ⟨⟨none, -⟩, taken⟩ := taken
      cases first : s.sa.first with
      | some item =>
          simp only [StackAllocator.saAlloc, first, Option.some.injEq] at taken
          subst taken
          exact ⟨rfl, .stay rfl rfl rfl⟩
      | none =>
          simp only [StackAllocator.saAlloc, first] at taken
          by_cases limit : s.sa.bufIdx = s.sa.maxBuffers
          · simp only [if_pos limit, Option.some.injEq] at taken
            subst taken
            exact ⟨rfl, .stay rfl rfl rfl⟩
          · cases block with
            | none =>
                simp only [if_neg limit, Option.some.injEq] at taken
                subst taken
                exact ⟨rfl, .stay rfl rfl rfl⟩
            | some block =>
                simp only [if_neg limit, Option.some.injEq] at taken
                subst taken
                exact ⟨rfl, .enter first limit rfl (gaps_enter inside none rfl) rfl⟩
  | link t =>
      obtain ⟨block, here, rfl⟩ := Option.map_eq_some_iff.mp taken
      exact ⟨rfl, .link rfl (gaps_leave inside here rfl) rfl⟩
  | free t item =>
      rw [step, Option.ite_none_right_eq_some, Option.some.injEq] at taken
      obtain ⟨-, rfl⟩ := taken
      exact ⟨rfl, .stay rfl rfl rfl⟩
  | write t item value =>
      rw [step, Option.ite_none_right_eq_some, Option.some.injEq] at taken
      obtain ⟨-, rfl⟩ := taken
      exact ⟨rfl, .stay rfl rfl rfl⟩

/-- The chunks that are registered or in the gap fit. -/
structure Fits (n : Nat) (s : SaSys) : Prop where
  chunks : s.sa.bufIdx + (gaps n s).card ≤ s.sa.maxBuffers
  stores : ∀ i ∈ s.stores, i < s.sa.maxBuffers

theorem reach_fits (reach : Reach n (Spare n) s) : Fits n s := by
  induction reach with
  | @init memory size maxItems sa init =>
      refine ⟨?_, nofun⟩
      have none : gaps n ⟨sa, fun _ => none, [], []⟩ = ∅ := by
        rw [gaps, Finset.filter_eq_empty_iff]
        exact fun u _ => nofun
      rw [saInit, Option.ite_none_right_eq_some, Option.some.injEq] at init
      obtain ⟨-, rfl⟩ := init
      rw [none, Finset.card_empty]
      exact Nat.zero_le _
  | @step s s' act _ inside spare taken ih =>
      obtain ⟨chunks, stores⟩ := ih
      obtain ⟨most, happens⟩ := step_chunks inside taken
      rw [← most] at chunks stores
      cases happens with
      | stay idx gaps stored =>
          refine ⟨?_, ?_⟩
          · rw [idx, gaps]
            exact chunks
          · rw [stored]
            exact stores
      | enter first limit idx gaps stored =>
          have room := spare first limit
          refine ⟨?_, ?_⟩
          · rw [idx, gaps, most]
            exact room
          · rw [stored]
            exact stores
      | link idx gaps stored =>
          refine ⟨?_, ?_⟩
          · rw [idx]
            omega
          · rw [stored]
            intro i member
            rcases List.mem_cons.mp member with rfl | old
            · omega
            · exact stores i old

theorem Fits.limited (fits : Fits n s) : s.Limited := by
  have chunks := fits.chunks
  refine ⟨by omega, fits.stores, fun block first limit => ?_⟩
  have all : s.sa.bufIdx = s.sa.maxBuffers := by omega
  simp only [StackAllocator.saAlloc, first, if_pos all]

/-- The threads in the gap link their chunks. -/
theorem run_links (n : Nat) (s : SaSys) : ∃ acts s', (∀ act ∈ acts, act.thread < n) ∧
    s.run n acts = some s' ∧ s'.sa.bufIdx = s.sa.bufIdx + (gaps n s).card ∧
      s'.sa.maxBuffers = s.sa.maxBuffers := by
  obtain ⟨count, count_eq⟩ : ∃ count, (gaps n s).card = count := ⟨_, rfl⟩
  induction count generalizing s with
  | zero => exact ⟨[], s, nofun, rfl, by rw [count_eq]; rfl, rfl⟩
  | succ count ih =>
      have some' : (gaps n s).Nonempty := Finset.card_pos.mp (by omega)
      obtain ⟨t, member⟩ := some'
      obtain ⟨inside, block, here⟩ := mem_gaps.mp member
      obtain ⟨mid, taken⟩ : ∃ mid, s.step n (.link t) = some mid := by
        rw [step, here]
        exact ⟨_, rfl⟩
      obtain ⟨linked, fewer, most⟩ : mid.sa.bufIdx = s.sa.bufIdx + 1 ∧
          (gaps n s).card = (gaps n mid).card + 1 ∧ mid.sa.maxBuffers = s.sa.maxBuffers := by
        obtain ⟨block, here', rfl⟩ := Option.map_eq_some_iff.mp taken
        exact ⟨rfl, gaps_leave inside here' rfl, rfl⟩
      obtain ⟨acts, last, low, runs, idx, most'⟩ := ih mid (by omega)
      refine ⟨.link t :: acts, last, ?_, ?_, by omega, most'.trans most⟩
      · intro act member
        rcases List.mem_cons.mp member with rfl | later
        · exact inside
        · exact low act later
      · rw [run, taken]
        exact runs

/-- The array is large enough as long as no thread gets a chunk too many; when one does, threads
can go on until it is not. -/
theorem saAlloc_limit (n : Nat) : (∀ s, Reach n (Spare n) s → s.Limited) ∧
    ∀ s s' act, Reach n (fun _ _ => True) s → act.thread < n → s.step n act = some s' →
      ¬ Spare n s act → ∃ acts last, (∀ act ∈ acts, act.thread < n) ∧
        s'.run n acts = some last ∧ ¬ last.Limited := by
  refine ⟨fun s reach => (reach_fits reach).limited, fun s s' act _ inside taken beyond => ?_⟩
  obtain ⟨acts, last, low, runs, idx, most⟩ := run_links n s'
  refine ⟨acts, last, low, runs, fun limited => ?_⟩
  have bound := limited.bufIdx
  obtain ⟨same, happens⟩ := step_chunks inside taken
  cases act with
  | alloc t block =>
      cases block with
      | none => exact beyond trivial
      | some block =>
          simp only [Spare, Classical.not_imp, Nat.not_lt] at beyond
          obtain ⟨first, limit, room⟩ := beyond
          cases happens with
          | stay idx' gaps' stored =>
              rw [step, Option.ite_none_right_eq_some] at taken
              obtain ⟨⟨none, -⟩, taken⟩ := taken
              simp only [StackAllocator.saAlloc, first, if_neg limit, Option.some.injEq] at taken
              have more : (gaps n s').card = (gaps n s).card + 1 := by
                subst taken
                exact gaps_enter inside none rfl
              omega
          | enter _ _ idx' gaps' stored => omega
  | link t => exact beyond trivial
  | free t item => exact beyond trivial
  | write t item value => exact beyond trivial

theorem saAlloc_limit_one : ∃ s, Reach 1 (Spare 1) s ∧ s.sa.bufIdx = 1 ∧ s.Limited := by
  obtain ⟨sa, init, idx, most⟩ : ∃ sa, saInit (fun _ => none) 8 1 = some sa ∧
      sa.bufIdx = 0 ∧ sa.maxBuffers = 1 := ⟨_, rfl, rfl, rfl⟩
  have ends : ((saInit (fun _ => none) 8 1).bind fun sa =>
      (step 1 ⟨sa, fun _ => none, [], []⟩ (.alloc 0 (some 8))).bind fun s =>
        s.step 1 (.link 0)).map (fun s => s.sa.bufIdx) = some 1 := by decide
  obtain ⟨s, runs, count⟩ := Option.map_eq_some_iff.mp ends
  rw [init, Option.bind_some] at runs
  obtain ⟨mid, chunk, linked⟩ := Option.bind_eq_some_iff.mp runs
  have nobody : gaps 1 ⟨sa, fun _ => none, [], []⟩ = ∅ := rfl
  have spare : Spare 1 ⟨sa, fun _ => none, [], []⟩ (.alloc 0 (some 8)) := by
    intro _ _
    rw [nobody, Finset.card_empty, idx, most]
    decide
  have spare' : Spare 1 mid (.link 0) := trivial
  have reach : Reach 1 (Spare 1) s :=
    .step (.step (.init init) (by decide) spare chunk) (by decide) spare' linked
  exact ⟨s, reach, count, (saAlloc_limit 1).1 s reach⟩

/-- Two threads find room for one chunk. -/
def overLimit : List Act := [.alloc 0 (some 8), .alloc 1 (some 6000), .link 0, .link 1]

theorem saAlloc_exceeds : ∃ s, Reach 2 (fun _ _ => True) s ∧ s.sa.maxBuffers = 1 ∧
    s.sa.bufIdx = 2 ∧ 1 ∈ s.stores ∧ ¬ s.Limited := by
  have ends : ((saInit (fun _ => none) 8 1).bind fun sa =>
      run 2 ⟨sa, fun _ => none, [], []⟩ overLimit).map
        (fun s => (s.sa.maxBuffers, s.sa.bufIdx, s.stores)) = some (1, 2, [1, 0]) := by decide
  obtain ⟨s, runs, equal⟩ := Option.map_eq_some_iff.mp ends
  obtain ⟨sa, init, runs⟩ := Option.bind_eq_some_iff.mp runs
  simp only [Prod.mk.injEq] at equal
  obtain ⟨most, idx, stored⟩ := equal
  refine ⟨s, (Reach.init init).run (by decide) runs, most, idx, by rw [stored]; decide, fun limited => ?_⟩
  have bound := limited.bufIdx
  omega

end SaSys

end Tmpi.Netd
