import Tmpi.Lib.Path

/-! The handle allocators of `bcast.c` and `reduce.c`, which are the same code: a list of free
handles with lock-free push and pop. A step is one load, store or compare-and-swap. -/

namespace Tmpi.Coll

/-- The `next` fields of the handles and the `free` field of the queue; addresses from `fresh` on
have not been handed out by `calloc`. -/
structure Cells where
  free : Option Nat
  next : Nat → Option Nat
  fresh : Nat

namespace Cells

variable (groupSize : Nat) (c : Cells)

def setNext (h : Nat) (v : Option Nat) : Cells := { c with next := Function.update c.next h v }

/-- `casp` on `free`. -/
def casp (old new : Option Nat) : Cells × Bool :=
  if c.free = old then ({ c with free := new }, true) else (c, false)

/-- `calloc` of a chunk and the links between its handles behind the first, but for the last's. -/
def chunk : Cells :=
  { c with
    next := fun h =>
      if c.fresh ≤ h ∧ h < c.fresh + groupSize then
        if c.fresh + 1 ≤ h ∧ h + 1 < c.fresh + groupSize then some (h + 1) else none
      else c.next h
    fresh := c.fresh + groupSize }

/-- `tmpi_bcq_create` and `tmpi_rdcq_create`: `first` is handle 0, the others are free. -/
def create : Cells where
  free := some 1
  next h := if 1 ≤ h ∧ h < groupSize then some (h + 1) else none
  fresh := groupSize + 1

end Cells

/-- Where a thread is inside `tmpi_bch_alloc` or `tmpi_rdch_alloc`. -/
inductive AllocPc where
  /-- Loads `*pfree`. -/
  | head
  /-- Loads `ret->next`. -/
  | next (ret : Nat)
  | cas (ret : Nat) (localfree : Option Nat)
  /-- Has a chunk from `ret` on; loads `*pfree` for its last handle. -/
  | tail (ret : Nat)
  | tailStore (ret : Nat) (v : Option Nat)
  | tailLoad (ret : Nat)
  | tailCas (ret : Nat) (v : Option Nat)
  deriving DecidableEq, Repr

/-- Where a thread is inside `tmpi_bch_free` or `tmpi_rdch_free`. -/
inductive FreePc where
  | head
  | store (v : Option Nat)
  | load
  | cas (v : Option Nat)
  deriving DecidableEq, Repr

section Steps

variable (groupSize : Nat) (c : Cells)

/-- A step of `tmpi_bch_alloc` or `tmpi_rdch_alloc`, which may be the last one. -/
def allocStep : AllocPc → Cells × (AllocPc ⊕ Nat)
  | .head =>
      match c.free with
      | some ret => (c, .inl (.next ret))
      | none => (c.chunk groupSize, .inl (.tail c.fresh))
  | .next ret => (c, .inl (.cas ret (c.next ret)))
  | .cas ret localfree =>
      let (c, done) := c.casp (some ret) localfree
      (c, if done then .inr ret else .inl .head)
  | .tail ret => (c, .inl (.tailStore ret c.free))
  | .tailStore ret v => (c.setNext (ret + groupSize - 1) v, .inl (.tailLoad ret))
  | .tailLoad ret => (c, .inl (.tailCas ret (c.next (ret + groupSize - 1))))
  | .tailCas ret v =>
      let (c, done) := c.casp v (some (ret + 1))
      (c, if done then .inr ret else .inl (.tail ret))

/-- A step of `tmpi_bch_free` or `tmpi_rdch_free` of `handle`; `none` is the end. -/
def freeStep (handle : Nat) : FreePc → Cells × Option FreePc
  | .head => (c, some (.store c.free))
  | .store v => (c.setNext handle v, some .load)
  | .load => (c, some (.cas (c.next handle)))
  | .cas v =>
      let (c, done) := c.casp v (some handle)
      (c, if done then none else some .head)

end Steps

/-- What a thread does with the handles of a queue. -/
inductive HandlePc where
  | idle
  | alloc (pc : AllocPc)
  | free (handle : Nat) (pc : FreePc)
  deriving DecidableEq, Repr

/-- What a thread has in its hands inside a call. -/
def HandlePc.has (groupSize : Nat) (h : Nat) : HandlePc → Prop
  | .idle => False
  | .alloc (.tail ret) | .alloc (.tailStore ret _) | .alloc (.tailLoad ret)
  | .alloc (.tailCas ret _) => ret ≤ h ∧ h < ret + groupSize
  | .alloc _ => False
  | .free handle _ => h = handle

/-- The handles of a queue and its threads; `held` counts how often a handle has been returned by
an allocation and not been passed to a deallocation. -/
structure Handles where
  cells : Cells
  pc : Nat → HandlePc
  held : Nat → Nat

namespace Handles

/-- The guarding node is held from the start. -/
def create (groupSize : Nat) : Handles :=
  ⟨.create groupSize, fun _ => .idle, fun h => if h = 0 then 1 else 0⟩

/-- Any thread may free a handle that is held, or write to its `next`. -/
inductive Act where
  | alloc (t : Nat)
  /-- `calloc` has no memory for a chunk, and the allocation returns `NULL`. -/
  | fail (t : Nat)
  | free (t h : Nat)
  | write (h : Nat) (v : Option Nat)
  | run (t : Nat)
  deriving DecidableEq, Repr

variable (groupSize : Nat) (s : Handles)

def goto (t : Nat) (pc : HandlePc) : Handles := { s with pc := Function.update s.pc t pc }

def step : Act → Option Handles
  | .alloc t => if s.pc t = .idle then some (s.goto t (.alloc .head)) else none
  | .fail t =>
      if s.pc t = .alloc .head ∧ s.cells.free = none then some (s.goto t .idle) else none
  | .free t h =>
      if s.pc t = .idle ∧ 0 < s.held h then
        some ({ s with held := Function.update s.held h (s.held h - 1) }.goto t (.free h .head))
      else none
  | .write h v => if 0 < s.held h then some { s with cells := s.cells.setNext h v } else none
  | .run t =>
      match s.pc t with
      | .idle => none
      | .alloc pc =>
          match allocStep groupSize s.cells pc with
          | (cells, .inl pc) => some ({ s with cells }.goto t (.alloc pc))
          | (cells, .inr h) =>
              some ({ s with cells, held := Function.update s.held h (s.held h + 1) }.goto t .idle)
      | .free h pc =>
          match freeStep s.cells h pc with
          | (cells, some pc) => some ({ s with cells }.goto t (.free h pc))
          | (cells, none) => some ({ s with cells }.goto t .idle)

/-- Runs whose steps are ones that `allowed` admits in their states. -/
inductive Reach (allowed : Handles → Act → Prop) : Handles → Prop where
  | create : Reach allowed (create groupSize)
  | step {s₁ s₂ act} : Reach allowed s₁ → allowed s₁ act → s₁.step groupSize act = some s₂ →
      Reach allowed s₂

def run : Handles → List Act → Option Handles
  | s, [] => some s
  | s, act :: acts => (s.step groupSize act).bind fun s => run s acts

/-- On the list of free handles. -/
def Listed (h : Nat) : Prop := ∃ front, Path s.cells.next s.cells.free front (some h)

/-- One reference to a handle is held, and nobody else can get it. -/
structure Exclusive (h : Nat) : Prop where
  once : s.held h = 1
  notInside : ∀ t, ¬ (s.pc t).has groupSize h
  notListed : ¬ s.Listed h

/-- The compare-and-swap of an allocation succeeds, but what it has read as the next handle is no
longer behind the first one. -/
def Stale : Act → Prop
  | .run t => ∃ ret localfree, s.pc t = .alloc (.cas ret localfree) ∧ s.cells.free = some ret ∧
      ¬ ∃ l, Path s.cells.next (s.cells.next ret) l localfree
  | _ => False

/-! ## The list of free handles -/

/-- The links that a thread inside a call has made. -/
def Linked (cells : Cells) : HandlePc → Prop
  | .alloc (.tail ret) | .alloc (.tailStore ret _) | .alloc (.tailLoad ret) =>
      ∀ h, ret + 1 ≤ h → h + 1 < ret + groupSize → cells.next h = some (h + 1)
  | .alloc (.tailCas ret v) =>
      (∀ h, ret + 1 ≤ h → h + 1 < ret + groupSize → cells.next h = some (h + 1)) ∧
        cells.next (ret + groupSize - 1) = v
  | .free handle (.cas v) => cells.next handle = v
  | _ => True

/-- The free handles are `l`, and every other handle has at most one user. -/
structure Inv (l : List Nat) : Prop where
  list : Path s.cells.next s.cells.free l none
  nodup : l.Nodup
  listed : ∀ h ∈ l, h < s.cells.fresh ∧ s.held h = 0 ∧ ∀ t, ¬ (s.pc t).has groupSize h
  held : ∀ h, 0 < s.held h →
    h < s.cells.fresh ∧ s.held h = 1 ∧ ∀ t, ¬ (s.pc t).has groupSize h
  inside : ∀ t h, (s.pc t).has groupSize h →
    h < s.cells.fresh ∧ ∀ t', (s.pc t').has groupSize h → t' = t
  linked : ∀ t, Linked groupSize s.cells (s.pc t)

variable {groupSize} {s}

theorem run_alloc {t : Nat} {pc pc' : AllocPc} {cells : Cells} (inside : s.pc t = .alloc pc)
    (goes : allocStep groupSize s.cells pc = (cells, .inl pc')) :
    s.step groupSize (.run t) = some ({ s with cells }.goto t (.alloc pc')) := by
  simp only [step, inside, goes]

theorem run_alloc_ends {t h : Nat} {pc : AllocPc} {cells : Cells} (inside : s.pc t = .alloc pc)
    (goes : allocStep groupSize s.cells pc = (cells, .inr h)) :
    s.step groupSize (.run t) = some ({ s with
      cells, held := Function.update s.held h (s.held h + 1) }.goto t .idle) := by
  simp only [step, inside, goes]

theorem run_free {t handle : Nat} {pc pc' : FreePc} {cells : Cells}
    (inside : s.pc t = .free handle pc) (goes : freeStep s.cells handle pc = (cells, some pc')) :
    s.step groupSize (.run t) = some ({ s with cells }.goto t (.free handle pc')) := by
  simp only [step, inside, goes]

theorem run_free_ends {t handle : Nat} {pc : FreePc} {cells : Cells}
    (inside : s.pc t = .free handle pc) (goes : freeStep s.cells handle pc = (cells, none)) :
    s.step groupSize (.run t) = some ({ s with cells }.goto t .idle) := by
  simp only [step, inside, goes]

theorem Linked.congr {cells cells' : Cells} {pc : HandlePc} (linked : Linked groupSize cells pc)
    (many : 2 ≤ groupSize)
    (same : ∀ h, pc.has groupSize h → cells'.next h = cells.next h) :
    Linked groupSize cells' pc := by
  cases pc with
  | idle => trivial
  | alloc pc =>
      cases pc with
      | head | next _ | cas _ _ => trivial
      | tail ret | tailStore ret _ | tailLoad ret =>
          intro h low high
          rw [same h ⟨by omega, by omega⟩]
          exact linked h low high
      | tailCas ret v =>
          constructor
          · intro h low high
            rw [same h ⟨by omega, by omega⟩]
            exact linked.1 h low high
          · rw [same (ret + groupSize - 1) ⟨by omega, by omega⟩]
            exact linked.2
  | free handle pc =>
      cases pc with
      | head | store _ | load => trivial
      | cas v =>
          have keeps : cells'.next handle = cells.next handle := same handle rfl
          exact keeps.trans linked

/-- Every handle that is held is one that nobody else can get. -/
theorem Inv.exclusive {l : List Nat} (inv : s.Inv groupSize l) {h : Nat} (holds : 0 < s.held h) :
    s.Exclusive groupSize h where
  once := (inv.held h holds).2.1
  notInside := (inv.held h holds).2.2
  notListed := by
    rintro listed
    have member : h ∈ l := inv.list.mem_iff.mpr listed
    have free : s.held h = 0 := (inv.listed h member).2.1
    omega

theorem path_consecutive {next : Nat → Option Nat} {first count : Nat}
    (linked : ∀ h, first ≤ h → h < first + count → next h = some (h + 1)) :
    Path next (some first) (List.range' first count) (some (first + count)) := by
  induction count generalizing first with
  | zero => rfl
  | succ count ih =>
      constructor
      · rfl
      · rw [linked first (le_refl first) (by omega)]
        have later : ∀ h, first + 1 ≤ h → h < first + 1 + count → next h = some (h + 1) :=
          fun h low high => linked h (by omega) (by omega)
        have rest := ih later
        rwa [Nat.add_right_comm] at rest

theorem inv_create (many : 2 ≤ groupSize) :
    (create groupSize).Inv groupSize (List.range' 1 groupSize) where
  list := by
    obtain ⟨count, rfl⟩ : ∃ count, groupSize = count + 1 := ⟨groupSize - 1, by omega⟩
    rw [List.range'_1_concat, Path.append_iff]
    refine ⟨some (1 + count), path_consecutive ?_, rfl, ?_⟩
    · intro h low high
      exact if_pos ⟨low, by omega⟩
    · exact if_neg (by omega)
  nodup := List.nodup_range'
  listed h member := by
    obtain ⟨low, high⟩ := List.mem_range'_1.mp member
    have other : h ≠ 0 := by omega
    exact ⟨by simp only [create, Cells.create]; omega, if_neg other, fun _ => id⟩
  held h holds := by
    have guard : h = 0 := by
      by_contra other
      simp [create, other] at holds
    subst guard
    exact ⟨Nat.succ_pos groupSize, rfl, fun _ => id⟩
  inside _ _ inside := inside.elim
  linked _ := trivial

/-- A step inside a call that writes at most to what the thread has in its hands. -/
theorem Inv.inside_step {l : List Nat} (inv : s.Inv groupSize l) (many : 2 ≤ groupSize) {t : Nat}
    {cells : Cells} {pc : HandlePc} (free : cells.free = s.cells.free)
    (fresh : cells.fresh = s.cells.fresh)
    (next : ∀ h, ¬ (s.pc t).has groupSize h → cells.next h = s.cells.next h)
    (less : ∀ h, pc.has groupSize h → (s.pc t).has groupSize h)
    (linked : Linked groupSize cells pc) :
    ({ s with cells }.goto t pc).Inv groupSize l := by
  have fewer : ∀ t' h, (({ s with cells }.goto t pc).pc t').has groupSize h →
      (s.pc t').has groupSize h := by
    intro t' h inside
    by_cases same : t' = t
    · subst same
      simp only [goto, Function.update_self] at inside
      exact less h inside
    · simpa only [goto, Function.update_of_ne same] using inside
  constructor
  · change Path cells.next cells.free l none
    rw [free]
    apply inv.list.congr
    intro h member
    exact next h ((inv.listed h member).2.2 t)
  · exact inv.nodup
  · intro h member
    obtain ⟨bound, unheld, outside⟩ := inv.listed h member
    exact ⟨fresh ▸ bound, unheld, fun t' inside => outside t' (fewer t' h inside)⟩
  · intro h holds
    obtain ⟨bound, once, outside⟩ := inv.held h holds
    exact ⟨fresh ▸ bound, once, fun t' inside => outside t' (fewer t' h inside)⟩
  · intro t₁ h inside
    obtain ⟨bound, alone⟩ := inv.inside t₁ h (fewer t₁ h inside)
    exact ⟨fresh ▸ bound, fun t₂ also => alone t₂ (fewer t₂ h also)⟩
  · intro t'
    by_cases same : t' = t
    · subst same
      simpa only [goto, Function.update_self] using linked
    · simp only [goto, Function.update_of_ne same]
      apply (inv.linked t').congr many
      intro h inside
      exact next h fun also => same ((inv.inside t h also).2 t' inside)

theorem Inv.ready {l : List Nat} (inv : s.Inv groupSize l) {t h : Nat}
    (ready : h ∈ l ∨ (s.pc t).has groupSize h) :
    h < s.cells.fresh ∧ s.held h = 0 ∧ ∀ t', (s.pc t').has groupSize h → t' = t := by
  rcases ready with member | inside
  · obtain ⟨bound, unheld, outside⟩ := inv.listed h member
    exact ⟨bound, unheld, fun t' also => absurd also (outside t')⟩
  · obtain ⟨bound, alone⟩ := inv.inside t h inside
    refine ⟨bound, ?_, alone⟩
    by_contra holds
    exact (inv.held h (Nat.pos_of_ne_zero holds)).2.2 t inside

/-- The end of a call: what it puts on the list and what it returns were free or in its hands. -/
theorem Inv.leave {l l' : List Nat} (inv : s.Inv groupSize l) {t : Nat} {free : Option Nat}
    {held : Nat → Nat} (list : Path s.cells.next free l' none) (nodup : l'.Nodup)
    (member : ∀ h ∈ l', (h ∈ l ∨ (s.pc t).has groupSize h) ∧ held h = s.held h)
    (returned : ∀ h, held h = s.held h ∨
      held h = s.held h + 1 ∧ (h ∈ l ∨ (s.pc t).has groupSize h)) :
    ({ s with cells := { s.cells with free }, held }.goto t .idle).Inv groupSize l' := by
  have others : ∀ t' h, (({ s with cells := { s.cells with free }, held }.goto t .idle).pc
      t').has groupSize h → t' ≠ t ∧ (s.pc t').has groupSize h := by
    intro t' h inside
    by_cases same : t' = t
    · subst same
      simp only [goto, Function.update_self] at inside
      exact inside.elim
    · simp only [goto, Function.update_of_ne same] at inside
      exact ⟨same, inside⟩
  constructor
  · exact list
  · exact nodup
  · intro h listed
    obtain ⟨ready, same⟩ := member h listed
    obtain ⟨bound, unheld, alone⟩ := inv.ready ready
    refine ⟨bound, same.trans unheld, fun t' inside => ?_⟩
    exact (others t' h inside).1 (alone t' (others t' h inside).2)
  · intro h holds
    rcases returned h with same | ⟨one, ready⟩
    · have before : 0 < s.held h := same ▸ holds
      obtain ⟨bound, once, outside⟩ := inv.held h before
      exact ⟨bound, same.trans once, fun t' inside => outside t' (others t' h inside).2⟩
    · obtain ⟨bound, unheld, alone⟩ := inv.ready ready
      refine ⟨bound, by rw [← Nat.zero_add 1, ← unheld]; exact one, fun t' inside => ?_⟩
      exact (others t' h inside).1 (alone t' (others t' h inside).2)
  · intro t₁ h inside
    obtain ⟨bound, alone⟩ := inv.inside t₁ h (others t₁ h inside).2
    exact ⟨bound, fun t₂ also => alone t₂ (others t₂ h also).2⟩
  · intro t'
    by_cases same : t' = t
    · subst same
      simp only [goto, Function.update_self]
      trivial
    · simp only [goto, Function.update_of_ne same]
      exact inv.linked t'

/-- An allocation takes the first free handle. -/
theorem Inv.pop {l : List Nat} (inv : s.Inv groupSize l) {t ret : Nat} {localfree : Option Nat}
    (head : s.cells.free = some ret)
    (behind : ∃ front, Path s.cells.next (s.cells.next ret) front localfree) :
    ∃ l', ({ s with
        cells := { s.cells with free := localfree }
        held := Function.update s.held ret (s.held ret + 1) }.goto t .idle).Inv groupSize l' := by
  have whole := inv.list
  rw [head] at whole
  have nodup := inv.nodup
  cases l with
  | nil => exact absurd whole nofun
  | cons first rest =>
      obtain ⟨same, tail⟩ := whole
      obtain rfl := Option.some.inj same
      obtain ⟨front, path⟩ := behind
      obtain ⟨rest', rfl, left⟩ := tail.split path
      obtain ⟨once, rest_nodup⟩ := List.nodup_cons.mp nodup
      refine ⟨rest', inv.leave left (List.Nodup.of_append_right rest_nodup) ?_ ?_⟩
      · intro h member
        have also : h ∈ front ++ rest' := List.mem_append_right front member
        have other : h ≠ ret := by
          rintro rfl
          exact once also
        exact ⟨.inl (List.mem_cons_of_mem ret also), Function.update_of_ne other _ _⟩
      · intro h
        by_cases taken : h = ret
        · subst taken
          exact .inr ⟨Function.update_self _ _ _, .inl List.mem_cons_self⟩
        · exact .inl (Function.update_of_ne taken _ _)

/-- An allocation puts all handles of its chunk but the first one on the list. -/
theorem Inv.push_chunk {l : List Nat} (inv : s.Inv groupSize l) (many : 2 ≤ groupSize)
    {t ret : Nat} {v : Option Nat} (at_cas : s.pc t = .alloc (.tailCas ret v))
    (head : s.cells.free = v) :
    ({ s with
        cells := { s.cells with free := some (ret + 1) }
        held := Function.update s.held ret (s.held ret + 1) }.goto t .idle).Inv groupSize
      (List.range' (ret + 1) (groupSize - 1) ++ l) := by
  have linked := inv.linked t
  rw [at_cas] at linked
  obtain ⟨between, last⟩ := linked
  have own : ∀ h, ret ≤ h → h < ret + groupSize → (s.pc t).has groupSize h := by
    intro h low high
    rw [at_cas]
    exact ⟨low, high⟩
  have outside : ∀ h ∈ List.range' (ret + 1) (groupSize - 1), (s.pc t).has groupSize h := by
    intro h member
    obtain ⟨low, high⟩ := List.mem_range'_1.mp member
    exact own h (by omega) (by omega)
  apply inv.leave
  · rw [Path.append_iff]
    refine ⟨v, ?_, head ▸ inv.list⟩
    obtain ⟨count, rfl⟩ : ∃ count, groupSize = count + 2 := ⟨groupSize - 2, by omega⟩
    rw [show count + 2 - 1 = count + 1 from rfl, List.range'_1_concat, Path.append_iff]
    refine ⟨some (ret + 1 + count), path_consecutive ?_, rfl, ?_⟩
    · intro h low high
      exact between h low (by omega)
    · rw [← last]
      congr 1
      omega
  · refine List.Nodup.append List.nodup_range' inv.nodup fun h member also => ?_
    exact (inv.listed h also).2.2 t (outside h member)
  · intro h member
    have other : h ≠ ret := by
      rintro rfl
      rcases List.mem_append.mp member with member | member
      · have := (List.mem_range'_1.mp member).1
        omega
      · exact (inv.listed h member).2.2 t (own h (le_refl h) (by omega))
    refine ⟨?_, Function.update_of_ne other _ _⟩
    rcases List.mem_append.mp member with member | member
    · exact .inr (outside h member)
    · exact .inl member
  · intro h
    by_cases taken : h = ret
    · subst taken
      exact .inr ⟨Function.update_self _ _ _, .inr (own h (le_refl h) (by omega))⟩
    · exact .inl (Function.update_of_ne taken _ _)

/-- A deallocation puts its handle on the list. -/
theorem Inv.push {l : List Nat} (inv : s.Inv groupSize l) {t handle : Nat} {v : Option Nat}
    (at_cas : s.pc t = .free handle (.cas v)) (head : s.cells.free = v) :
    ({ s with cells := { s.cells with free := some handle } }.goto t .idle).Inv groupSize
      (handle :: l) := by
  have linked := inv.linked t
  have own : (s.pc t).has groupSize handle := by
    rw [at_cas]
    exact rfl
  rw [at_cas] at linked
  have link : s.cells.next handle = s.cells.free := linked.trans head.symm
  apply inv.leave
  · exact ⟨rfl, link ▸ inv.list⟩
  · exact List.nodup_cons.mpr ⟨fun member => (inv.listed handle member).2.2 t own, inv.nodup⟩
  · intro h member
    refine ⟨?_, rfl⟩
    rcases List.mem_cons.mp member with rfl | member
    · exact .inr own
    · exact .inl member
  · exact fun h => .inl rfl

/-- A thread frees a handle that it holds. -/
theorem Inv.call_free {l : List Nat} (inv : s.Inv groupSize l) {t handle : Nat}
    (idle : s.pc t = .idle) (holds : 0 < s.held handle) :
    ({ s with held := Function.update s.held handle (s.held handle - 1) }.goto t
      (.free handle .head)).Inv groupSize l := by
  obtain ⟨bound, once, outside⟩ := inv.held handle holds
  have nobody : Function.update s.held handle (s.held handle - 1) handle = 0 := by
    rw [Function.update_self, once]
  have owners : ∀ t' h, (Function.update s.pc t (.free handle .head) t').has groupSize h →
      t' = t ∧ h = handle ∨ (s.pc t').has groupSize h ∧ h ≠ handle := by
    intro t' h inside
    by_cases same : t' = t
    · subst same
      rw [Function.update_self] at inside
      exact .inl ⟨rfl, inside⟩
    · rw [Function.update_of_ne same] at inside
      refine .inr ⟨inside, ?_⟩
      rintro rfl
      exact outside t' inside
  constructor
  · exact inv.list
  · exact inv.nodup
  · intro h member
    obtain ⟨below, unheld, free⟩ := inv.listed h member
    have other : h ≠ handle := by
      rintro rfl
      omega
    refine ⟨below, (Function.update_of_ne other _ _).trans unheld, fun t' inside => ?_⟩
    rcases owners t' h inside with ⟨-, same⟩ | ⟨before, -⟩
    · exact other same
    · exact free t' before
  · intro h held
    have other : h ≠ handle := by
      rintro rfl
      exact absurd nobody (Nat.ne_of_gt held)
    have same : Function.update s.held handle (s.held handle - 1) h = s.held h :=
      Function.update_of_ne other _ _
    have before : 0 < s.held h := by
      rw [← same]
      exact held
    obtain ⟨below, one, free⟩ := inv.held h before
    refine ⟨below, same.trans one, fun t' inside => ?_⟩
    rcases owners t' h inside with ⟨-, same⟩ | ⟨before, -⟩
    · exact other same
    · exact free t' before
  · intro t₁ h inside
    rcases owners t₁ h inside with ⟨rfl, rfl⟩ | ⟨before, other⟩
    · refine ⟨bound, fun t₂ also => ?_⟩
      rcases owners t₂ h also with ⟨same, -⟩ | ⟨-, other⟩
      · exact same
      · exact absurd rfl other
    · obtain ⟨below, alone⟩ := inv.inside t₁ h before
      refine ⟨below, fun t₂ also => ?_⟩
      rcases owners t₂ h also with ⟨-, same⟩ | ⟨before, -⟩
      · exact absurd same other
      · exact alone t₂ before
  · intro t'
    by_cases same : t' = t
    · subst same
      simp only [goto, Function.update_self]
      trivial
    · simp only [goto, Function.update_of_ne same]
      exact inv.linked t'

/-- A write to the `next` field of a handle that is held. -/
theorem Inv.write {l : List Nat} (inv : s.Inv groupSize l) (many : 2 ≤ groupSize) {handle : Nat}
    {v : Option Nat} (holds : 0 < s.held handle) :
    ({ s with cells := s.cells.setNext handle v } : Handles).Inv groupSize l := by
  have same : ∀ h, h ≠ handle → (s.cells.setNext handle v).next h = s.cells.next h :=
    fun h other => Function.update_of_ne other _ _
  constructor
  · apply inv.list.congr
    intro h member
    apply same
    rintro rfl
    have unheld : s.held h = 0 := (inv.listed h member).2.1
    omega
  · exact inv.nodup
  · exact inv.listed
  · exact inv.held
  · exact inv.inside
  · intro t
    apply (inv.linked t).congr many
    intro h inside
    apply same
    rintro rfl
    exact (inv.held h holds).2.2 t inside

/-- With no free handle left, an allocation takes a new chunk. -/
theorem Inv.take_chunk {l : List Nat} (inv : s.Inv groupSize l) (many : 2 ≤ groupSize) {t : Nat}
    (head : s.cells.free = none) (empty : ∀ h, ¬ (s.pc t).has groupSize h) :
    ({ s with cells := s.cells.chunk groupSize }.goto t (.alloc (.tail s.cells.fresh))).Inv
      groupSize [] := by
  have old : ∀ h, h < s.cells.fresh → (s.cells.chunk groupSize).next h = s.cells.next h :=
    fun h below => if_neg (by omega)
  have owners : ∀ t' h,
      (Function.update s.pc t (.alloc (.tail s.cells.fresh)) t').has groupSize h →
      t' = t ∧ s.cells.fresh ≤ h ∧ h < s.cells.fresh + groupSize ∨
        (s.pc t').has groupSize h ∧ h < s.cells.fresh := by
    intro t' h inside
    by_cases same : t' = t
    · subst same
      rw [Function.update_self] at inside
      exact .inl ⟨rfl, inside⟩
    · rw [Function.update_of_ne same] at inside
      exact .inr ⟨inside, (inv.inside t' h inside).1⟩
  constructor
  · exact head
  · exact List.nodup_nil
  · exact fun h member => absurd member List.not_mem_nil
  · intro h holds
    obtain ⟨below, once, outside⟩ := inv.held h holds
    refine ⟨Nat.lt_of_lt_of_le below (Nat.le_add_right _ _), once, fun t' inside => ?_⟩
    rcases owners t' h inside with ⟨-, above, -⟩ | ⟨before, -⟩
    · omega
    · exact outside t' before
  · intro t₁ h inside
    rcases owners t₁ h inside with ⟨rfl, above, bound⟩ | ⟨before, below⟩
    · refine ⟨bound, fun t₂ also => ?_⟩
      rcases owners t₂ h also with ⟨same, -⟩ | ⟨-, below⟩
      · exact same
      · omega
    · refine ⟨Nat.lt_of_lt_of_le below (Nat.le_add_right _ _), fun t₂ also => ?_⟩
      rcases owners t₂ h also with ⟨-, above, -⟩ | ⟨again, -⟩
      · omega
      · exact (inv.inside t₁ h before).2 t₂ again
  · intro t'
    by_cases same : t' = t
    · subst same
      simp only [goto, Function.update_self]
      intro h low high
      exact (if_pos ⟨by omega, by omega⟩).trans (if_pos ⟨low, high⟩)
    · simp only [goto, Function.update_of_ne same]
      apply (inv.linked t').congr many
      intro h inside
      exact old h (inv.inside t' h inside).1

/-- One step of a thread inside an allocation. -/
theorem Inv.alloc_step {l : List Nat} (inv : s.Inv groupSize l) (many : 2 ≤ groupSize) {t : Nat}
    {pc : AllocPc} (inside : s.pc t = .alloc pc) (fresh : ¬ s.Stale (.run t)) {s' : Handles}
    (goes : s.step groupSize (.run t) = some s') : ∃ l', s'.Inv groupSize l' := by
  simp only [step, inside] at goes
  have linked := inv.linked t
  rw [inside] at linked
  cases pc with
  | head =>
      cases head : s.cells.free with
      | some ret =>
          simp only [allocStep, head, Option.some.injEq] at goes
          subst goes
          exact ⟨l, inv.inside_step many rfl rfl (fun _ _ => rfl) (fun _ has => has.elim) trivial⟩
      | none =>
          simp only [allocStep, head, Option.some.injEq] at goes
          subst goes
          exact ⟨[], inv.take_chunk many head fun h has => by rw [inside] at has; exact has⟩
  | next ret =>
      simp only [allocStep, Option.some.injEq] at goes
      subst goes
      exact ⟨l, inv.inside_step many rfl rfl (fun _ _ => rfl) (fun _ has => has.elim) trivial⟩
  | cas ret localfree =>
      by_cases head : s.cells.free = some ret
      · simp only [allocStep, Cells.casp, head, if_true, Option.some.injEq] at goes
        subst goes
        apply inv.pop head
        by_contra behind
        exact fresh ⟨ret, localfree, inside, head, behind⟩
      · simp only [allocStep, Cells.casp, head, if_false, Bool.false_eq_true, Option.some.injEq] at goes
        subst goes
        exact ⟨l, inv.inside_step many rfl rfl (fun _ _ => rfl) (fun _ has => has.elim) trivial⟩
  | tail ret =>
      simp only [allocStep, Option.some.injEq] at goes
      subst goes
      refine ⟨l, inv.inside_step many rfl rfl (fun _ _ => rfl) (fun _ has => ?_) linked⟩
      rw [inside]
      exact has
  | tailStore ret v =>
      simp only [allocStep, Option.some.injEq] at goes
      subst goes
      refine ⟨l, inv.inside_step many rfl rfl (fun h outside => ?_) (fun _ has => ?_) ?_⟩
      · apply Function.update_of_ne
        rintro rfl
        rw [inside] at outside
        exact outside ⟨by omega, by omega⟩
      · rw [inside]
        exact has
      · intro h low high
        have other : h ≠ ret + groupSize - 1 := by omega
        exact (Function.update_of_ne other _ _).trans (linked h low high)
  | tailLoad ret =>
      simp only [allocStep, Option.some.injEq] at goes
      subst goes
      refine ⟨l, inv.inside_step many rfl rfl (fun _ _ => rfl) (fun _ has => ?_) ⟨linked, rfl⟩⟩
      rw [inside]
      exact has
  | tailCas ret v =>
      by_cases head : s.cells.free = v
      · simp only [allocStep, Cells.casp, head, if_true, Option.some.injEq] at goes
        subst goes
        exact ⟨_, inv.push_chunk many inside head⟩
      · simp only [allocStep, Cells.casp, head, if_false, Bool.false_eq_true, Option.some.injEq] at goes
        subst goes
        refine ⟨l, inv.inside_step many rfl rfl (fun _ _ => rfl) (fun _ has => ?_) linked.1⟩
        rw [inside]
        exact has

/-- One step of a thread inside a deallocation: it may put its handle in front of the list. -/
theorem Inv.free_step {l : List Nat} (inv : s.Inv groupSize l) (many : 2 ≤ groupSize) {t : Nat}
    {handle : Nat} {pc : FreePc} (inside : s.pc t = .free handle pc) {s' : Handles}
    (goes : s.step groupSize (.run t) = some s') :
    ∃ l', s'.Inv groupSize l' ∧ l <:+ l' ∧ ∀ h ∈ l, s'.cells.next h = s.cells.next h := by
  simp only [step, inside] at goes
  have keeps : ∀ pc' : FreePc, ∀ h, (HandlePc.free handle pc').has groupSize h →
      (s.pc t).has groupSize h := by
    intro pc' h has
    rw [inside]
    exact has
  cases pc with
  | head =>
      simp only [freeStep, Option.some.injEq] at goes
      subst goes
      exact ⟨l, inv.inside_step many rfl rfl (fun _ _ => rfl) (keeps _) trivial, List.suffix_rfl,
        fun _ _ => rfl⟩
  | store v =>
      simp only [freeStep, Option.some.injEq] at goes
      subst goes
      have other : ∀ h, ¬ (s.pc t).has groupSize h →
          (s.cells.setNext handle v).next h = s.cells.next h := by
        intro h outside
        apply Function.update_of_ne
        rintro rfl
        rw [inside] at outside
        exact outside rfl
      exact ⟨l, inv.inside_step many rfl rfl other (keeps _) trivial, List.suffix_rfl,
        fun h member => other h ((inv.listed h member).2.2 t)⟩
  | load =>
      simp only [freeStep, Option.some.injEq] at goes
      subst goes
      exact ⟨l, inv.inside_step many rfl rfl (fun _ _ => rfl) (keeps _) rfl, List.suffix_rfl,
        fun _ _ => rfl⟩
  | cas v =>
      by_cases head : s.cells.free = v
      · simp only [freeStep, Cells.casp, head, if_true, Option.some.injEq] at goes
        subst goes
        exact ⟨_, inv.push inside head, List.suffix_cons handle l, fun _ _ => rfl⟩
      · simp only [freeStep, Cells.casp, head, if_false, Bool.false_eq_true,
          Option.some.injEq] at goes
        subst goes
        exact ⟨l, inv.inside_step many rfl rfl (fun _ _ => rfl) (keeps _) trivial,
          List.suffix_rfl, fun _ _ => rfl⟩

/-- A step inside a call does not write to a handle that is held. -/
theorem Inv.run_held {l : List Nat} (inv : s.Inv groupSize l) (many : 2 ≤ groupSize) {t : Nat}
    {s' : Handles} (goes : s.step groupSize (.run t) = some s') {h : Nat} (holds : 0 < s.held h) :
    s'.cells.next h = s.cells.next h := by
  obtain ⟨bound, -, outside⟩ := inv.held h holds
  have away := outside t
  cases inside : s.pc t with
  | idle =>
      simp only [step, inside] at goes
      exact absurd goes nofun
  | alloc pc =>
      simp only [step, inside] at goes
      rw [inside] at away
      cases pc with
      | head =>
          cases head : s.cells.free with
          | some ret =>
              simp only [allocStep, head, Option.some.injEq] at goes
              subst goes
              rfl
          | none =>
              simp only [allocStep, head, Option.some.injEq] at goes
              subst goes
              exact if_neg (by omega)
      | next ret | tail ret | tailLoad ret =>
          simp only [allocStep, Option.some.injEq] at goes
          subst goes
          rfl
      | cas ret localfree =>
          by_cases head : s.cells.free = some ret
          · simp only [allocStep, Cells.casp, head, if_true, Option.some.injEq] at goes
            subst goes
            rfl
          · simp only [allocStep, Cells.casp, head, if_false, Bool.false_eq_true,
              Option.some.injEq] at goes
            subst goes
            rfl
      | tailStore ret v =>
          simp only [allocStep, Option.some.injEq] at goes
          subst goes
          apply Function.update_of_ne
          rintro rfl
          exact away ⟨by omega, by omega⟩
      | tailCas ret v =>
          by_cases head : s.cells.free = v
          · simp only [allocStep, Cells.casp, head, if_true, Option.some.injEq] at goes
            subst goes
            rfl
          · simp only [allocStep, Cells.casp, head, if_false, Bool.false_eq_true,
              Option.some.injEq] at goes
            subst goes
            rfl
  | free handle pc =>
      simp only [step, inside] at goes
      rw [inside] at away
      cases pc with
      | head | load =>
          simp only [freeStep, Option.some.injEq] at goes
          subst goes
          rfl
      | store v =>
          simp only [freeStep, Option.some.injEq] at goes
          subst goes
          exact Function.update_of_ne away _ _
      | cas v =>
          by_cases head : s.cells.free = v
          · simp only [freeStep, Cells.casp, head, if_true, Option.some.injEq] at goes
            subst goes
            rfl
          · simp only [freeStep, Cells.casp, head, if_false, Bool.false_eq_true,
              Option.some.injEq] at goes
            subst goes
            rfl

/-- Every step but a stale compare-and-swap keeps the invariant. -/
theorem Inv.step {l : List Nat} (inv : s.Inv groupSize l) (many : 2 ≤ groupSize) {act : Act}
    (fresh : ¬ s.Stale act) {s' : Handles} (goes : s.step groupSize act = some s') :
    ∃ l', s'.Inv groupSize l' := by
  cases act with
  | alloc t =>
      simp only [Handles.step] at goes
      split at goes
      · obtain rfl := Option.some.inj goes
        exact ⟨l, inv.inside_step many rfl rfl (fun _ _ => rfl) (fun _ has => has.elim) trivial⟩
      · exact absurd goes nofun
  | fail t =>
      simp only [Handles.step] at goes
      split at goes
      · obtain rfl := Option.some.inj goes
        exact ⟨l, inv.inside_step many rfl rfl (fun _ _ => rfl) (fun _ has => has.elim) trivial⟩
      · exact absurd goes nofun
  | free t h =>
      simp only [Handles.step] at goes
      split at goes
      · next holds =>
        obtain rfl := Option.some.inj goes
        exact ⟨l, inv.call_free holds.1 holds.2⟩
      · exact absurd goes nofun
  | write h v =>
      simp only [Handles.step] at goes
      split at goes
      · next holds =>
        obtain rfl := Option.some.inj goes
        exact ⟨l, inv.write many holds⟩
      · exact absurd goes nofun
  | run t =>
      cases inside : s.pc t with
      | idle =>
          simp only [Handles.step, inside] at goes
          exact absurd goes nofun
      | alloc pc => exact inv.alloc_step many inside fresh goes
      | free h pc =>
          obtain ⟨l', kept, -⟩ := inv.free_step many inside goes
          exact ⟨l', kept⟩

theorem Reach.inv (many : 2 ≤ groupSize)
    (reach : Reach groupSize (fun s act => ¬ s.Stale act) s) : ∃ l, s.Inv groupSize l := by
  induction reach with
  | create => exact ⟨_, inv_create many⟩
  | step _ fresh goes ih =>
      obtain ⟨l, inv⟩ := ih
      exact inv.step many fresh goes

/-- As long as no stale compare-and-swap succeeds, a handle that an allocation returns is held by
nobody else and is not on the list of free handles. -/
theorem alloc_exclusive (many : 2 ≤ groupSize)
    (reach : Reach groupSize (fun s act => ¬ s.Stale act) s) {act : Act} (fresh : ¬ s.Stale act)
    {s' : Handles} (goes : s.step groupSize act = some s') {h : Nat}
    (returned : s.held h < s'.held h) : s'.Exclusive groupSize h := by
  obtain ⟨l, inv⟩ := Reach.inv many (.step reach fresh goes)
  exact inv.exclusive (Nat.zero_lt_of_lt returned)

/-! ## One thread allocates -/

/-- Only thread `p` allocates. -/
def Sole (p : Nat) (_ : Handles) (act : Act) : Prop := ∀ t, act = .alloc t → t = p

/-- What the only thread that allocates has read of the list is still there. -/
structure SoleInv (groupSize p : Nat) (s : Handles) (l : List Nat) : Prop where
  inv : s.Inv groupSize l
  alone : ∀ t pc, s.pc t = .alloc pc → t = p
  next : ∀ ret, s.pc p = .alloc (.next ret) → ret ∈ l
  cas : ∀ ret localfree, s.pc p = .alloc (.cas ret localfree) →
    ret ∈ l ∧ s.cells.next ret = localfree

variable {p : Nat}

theorem SoleInv.not_stale {l : List Nat} (sole : SoleInv groupSize p s l)
    (act : Act) : ¬ s.Stale act := by
  cases act with
  | run t =>
      rintro ⟨ret, localfree, inside, -, behind⟩
      obtain rfl := sole.alone t _ inside
      exact behind ⟨[], (sole.cas ret localfree inside).2⟩
  | _ => exact id

/-- A step of another thread keeps what the list has. -/
theorem SoleInv.others {l l' : List Nat} (sole : SoleInv groupSize p s l)
    {s' : Handles} (inv : s'.Inv groupSize l') (longer : l <:+ l')
    (links : ∀ h ∈ l, s'.cells.next h = s.cells.next h)
    (pcs : ∀ t pc, s'.pc t = .alloc pc → s.pc t = .alloc pc) :
    SoleInv groupSize p s' l' where
  inv := inv
  alone t pc inside := sole.alone t pc (pcs t pc inside)
  next ret inside := longer.mem (sole.next ret (pcs p _ inside))
  cas ret localfree inside := by
    obtain ⟨member, link⟩ := sole.cas ret localfree (pcs p _ inside)
    exact ⟨longer.mem member, (links ret member).trans link⟩

theorem SoleInv.goto {l l' : List Nat} (sole : SoleInv groupSize p s l)
    {s' : Handles} {pc : HandlePc} (inv : (s'.goto p pc).Inv groupSize l') (same : s'.pc = s.pc)
    (next : ∀ ret, pc = .alloc (.next ret) → ret ∈ l')
    (cas : ∀ ret localfree, pc = .alloc (.cas ret localfree) →
      ret ∈ l' ∧ s'.cells.next ret = localfree) :
    SoleInv groupSize p (s'.goto p pc) l' where
  inv := inv
  alone t pc' inside := by
    by_cases self : t = p
    · exact self
    · simp only [Handles.goto, Function.update_of_ne self, same] at inside
      exact sole.alone t pc' inside
  next ret inside := by
    simp only [Handles.goto, Function.update_self] at inside
    exact next ret inside
  cas ret localfree inside := by
    simp only [Handles.goto, Function.update_self] at inside
    exact cas ret localfree inside

/-- A step of the thread that allocates. -/
theorem SoleInv.alloc_step {l : List Nat} (sole : SoleInv groupSize p s l)
    (many : 2 ≤ groupSize) {pc : AllocPc} (inside : s.pc p = .alloc pc) {s' : Handles}
    (goes : s.step groupSize (.run p) = some s') :
    ∃ l', SoleInv groupSize p s' l' := by
  obtain ⟨l', inv⟩ := sole.inv.alloc_step many inside (sole.not_stale _) goes
  refine ⟨l', ?_⟩
  simp only [step, inside] at goes
  cases pc with
  | head =>
      cases head : s.cells.free with
      | some ret =>
          simp only [allocStep, head, Option.some.injEq] at goes
          subst goes
          refine sole.goto inv rfl (fun ret' same => ?_) nofun
          cases same
          exact inv.list.mem_iff.mpr ⟨[], head⟩
      | none =>
          simp only [allocStep, head, Option.some.injEq] at goes
          subst goes
          exact sole.goto inv rfl nofun nofun
  | next ret =>
      simp only [allocStep, Option.some.injEq] at goes
      subst goes
      refine sole.goto inv rfl nofun fun ret' localfree same => ?_
      cases same
      exact ⟨inv.list.mem_iff.mpr (sole.inv.list.mem_iff.mp (sole.next ret inside)), rfl⟩
  | cas ret localfree =>
      by_cases head : s.cells.free = some ret
      · simp only [allocStep, Cells.casp, head, if_true, Option.some.injEq] at goes
        subst goes
        exact sole.goto inv rfl nofun nofun
      · simp only [allocStep, Cells.casp, head, if_false, Bool.false_eq_true,
          Option.some.injEq] at goes
        subst goes
        exact sole.goto inv rfl nofun nofun
  | tail ret | tailStore ret v | tailLoad ret =>
      simp only [allocStep, Option.some.injEq] at goes
      subst goes
      exact sole.goto inv rfl nofun nofun
  | tailCas ret v =>
      by_cases head : s.cells.free = v
      · simp only [allocStep, Cells.casp, head, if_true, Option.some.injEq] at goes
        subst goes
        exact sole.goto inv rfl nofun nofun
      · simp only [allocStep, Cells.casp, head, if_false, Bool.false_eq_true,
          Option.some.injEq] at goes
        subst goes
        exact sole.goto inv rfl nofun nofun

theorem SoleInv.step {l : List Nat} (sole : SoleInv groupSize p s l)
    (many : 2 ≤ groupSize) {act : Act} (only : Sole p s act) {s' : Handles}
    (goes : s.step groupSize act = some s') : ∃ l', SoleInv groupSize p s' l' := by
  cases act with
  | alloc t =>
      obtain rfl := only t rfl
      obtain ⟨l', inv⟩ := sole.inv.step many (sole.not_stale _) goes
      simp only [Handles.step] at goes
      split at goes
      · obtain rfl := Option.some.inj goes
        exact ⟨l', sole.goto inv rfl nofun nofun⟩
      · exact absurd goes nofun
  | fail t =>
      obtain ⟨l', inv⟩ := sole.inv.step many (sole.not_stale _) goes
      simp only [Handles.step] at goes
      split at goes
      · next empty =>
        obtain rfl := Option.some.inj goes
        obtain rfl := sole.alone t _ empty.1
        exact ⟨l', sole.goto inv rfl nofun nofun⟩
      · exact absurd goes nofun
  | free t h =>
      simp only [Handles.step] at goes
      split at goes
      · next holds =>
        obtain rfl := Option.some.inj goes
        refine ⟨l, sole.others (sole.inv.call_free holds.1 holds.2) List.suffix_rfl
          (fun _ _ => rfl) fun t' pc inside => ?_⟩
        by_cases self : t' = t
        · subst self
          simp only [Handles.goto, Function.update_self] at inside
          cases inside
        · simpa only [Handles.goto, Function.update_of_ne self] using inside
      · exact absurd goes nofun
  | write h v =>
      simp only [Handles.step] at goes
      split at goes
      · next holds =>
        obtain rfl := Option.some.inj goes
        refine ⟨l, sole.others (sole.inv.write many holds) List.suffix_rfl (fun h' member => ?_)
          fun _ _ inside => inside⟩
        apply Function.update_of_ne
        rintro rfl
        have unheld := (sole.inv.listed h' member).2.1
        omega
      · exact absurd goes nofun
  | run t =>
      cases inside : s.pc t with
      | idle =>
          simp only [Handles.step, inside] at goes
          exact absurd goes nofun
      | alloc pc =>
          obtain rfl := sole.alone t pc inside
          exact sole.alloc_step many inside goes
      | free h pc =>
          obtain ⟨l', inv, longer, links⟩ := sole.inv.free_step many inside goes
          refine ⟨l', sole.others inv longer links fun t' pc' at' => ?_⟩
          by_cases self : t' = t
          · subst self
            simp only [Handles.step, inside] at goes
            split at goes <;>
              · obtain rfl := Option.some.inj goes
                simp only [Handles.goto, Function.update_self] at at'
                cases at'
          · simp only [Handles.step, inside] at goes
            split at goes <;>
              · obtain rfl := Option.some.inj goes
                simpa only [Handles.goto, Function.update_of_ne self] using at'

/-- Where one thread allocates, no compare-and-swap is stale. -/
theorem Reach.sole (many : 2 ≤ groupSize) (reach : Reach groupSize (Sole p) s) :
    ∃ l, SoleInv groupSize p s l := by
  induction reach with
  | create =>
      have idle : ∀ pc, HandlePc.idle ≠ .alloc pc := nofun
      exact ⟨_, inv_create many, fun _ pc inside => absurd inside (idle pc),
        fun _ inside => absurd inside (idle _), fun _ _ inside => absurd inside (idle _)⟩
  | step _ only goes ih =>
      obtain ⟨l, sole⟩ := ih
      exact sole.step many only goes

theorem sole_held (many : 2 ≤ groupSize) (reach : Reach groupSize (Sole p) s) {t : Nat}
    {s' : Handles} (goes : s.step groupSize (.run t) = some s') {h : Nat} (holds : 0 < s.held h) :
    s'.cells.next h = s.cells.next h := by
  obtain ⟨l, sole⟩ := Reach.sole many reach
  exact sole.inv.run_held many goes holds

/-- Only that thread is inside an allocation. -/
theorem sole_alloc (many : 2 ≤ groupSize) (reach : Reach groupSize (Sole p) s) {t : Nat}
    {pc : AllocPc} (inside : s.pc t = .alloc pc) : t = p := by
  obtain ⟨l, sole⟩ := Reach.sole many reach
  exact sole.alone t pc inside

/-- Where one thread allocates, a handle that is held is not free and in nobody's hands. -/
theorem sole_exclusive (many : 2 ≤ groupSize) (reach : Reach groupSize (Sole p) s) {h : Nat}
    (holds : 0 < s.held h) : s.Exclusive groupSize h := by
  obtain ⟨l, sole⟩ := Reach.sole many reach
  exact sole.inv.exclusive holds

/-! ## Several threads allocate -/

theorem Reach.run {s' : Handles} {acts : List Act} (reach : Reach groupSize (fun _ _ => True) s)
    (runs : s.run groupSize acts = some s') : Reach groupSize (fun _ _ => True) s' := by
  induction acts generalizing s with
  | nil => exact Option.some.inj runs ▸ reach
  | cons act acts ih =>
      obtain ⟨next, goes, rest⟩ := Option.bind_eq_some_iff.mp runs
      exact ih (.step reach trivial goes) rest

theorem alloc_exclusive_first :
    ∃ s s' : Handles, s.step 2 (.run 0) = some s' ∧ s.held 1 < s'.held 1 ∧ s'.Exclusive 2 1 := by
  let s₁ : Handles := (create 2).goto 0 (.alloc .head)
  let s₂ : Handles := s₁.goto 0 (.alloc (.next 1))
  let s₃ : Handles := s₂.goto 0 (.alloc (.cas 1 (some 2)))
  have calls : Reach 2 (fun s act => ¬ s.Stale act) s₁ :=
    .step .create (id : ¬ (create 2).Stale (.alloc 0)) rfl
  have loads : Reach 2 (fun s act => ¬ s.Stale act) s₂ := by
    refine .step calls (?_ : ¬ s₁.Stale (.run 0)) rfl
    rintro ⟨ret, localfree, inside, -⟩
    have same : HandlePc.alloc .head = .alloc (.cas ret localfree) := inside
    cases same
  have links : Reach 2 (fun s act => ¬ s.Stale act) s₃ := by
    refine .step loads (?_ : ¬ s₂.Stale (.run 0)) rfl
    rintro ⟨ret, localfree, inside, -⟩
    have same : HandlePc.alloc (.next 1) = .alloc (.cas ret localfree) := inside
    cases same
  have fresh : ¬ s₃.Stale (.run 0) := by
    rintro ⟨ret, localfree, inside, -, behind⟩
    have same : HandlePc.alloc (.cas 1 (some 2)) = .alloc (.cas ret localfree) := inside
    cases same
    exact behind ⟨[], rfl⟩
  exact ⟨s₃, _, rfl, Nat.zero_lt_one, alloc_exclusive (by decide) links fresh rfl Nat.zero_lt_one⟩

/-- Two threads allocate while a third one is between its loads and its compare-and-swap, and one
of them frees what it got: the third one's compare-and-swap puts handle 2 back on the list. -/
def recycled : List Act :=
  [.alloc 0, .run 0, .run 0,
    .alloc 1, .run 1, .run 1, .run 1,
    .alloc 2, .run 2, .run 2, .run 2,
    .free 1 1, .run 1, .run 1, .run 1, .run 1,
    .run 0,
    .alloc 1, .run 1, .run 1]

theorem recycled_twice : ∃ s s' : Handles, (create 3).run 3 recycled = some s ∧
    s.step 3 (.run 1) = some s' ∧ s.held 2 = 1 ∧ s'.held 2 = 2 := by
  have counts : (((create 3).run 3 recycled).bind fun s =>
      (s.step 3 (.run 1)).map fun s' => (s.held 2, s'.held 2)) = some (1, 2) := by decide
  obtain ⟨s, runs, rest⟩ := Option.bind_eq_some_iff.mp counts
  obtain ⟨s', goes, equal⟩ := Option.map_eq_some_iff.mp rest
  exact ⟨s, s', runs, goes, congrArg Prod.fst equal, congrArg Prod.snd equal⟩

theorem alloc_returns_held :
    ¬ ∀ groupSize, 2 ≤ groupSize → ∀ (s s' : Handles) (act : Act),
      Reach groupSize (fun _ _ => True) s → s.step groupSize act = some s' →
      ∀ h, s.held h < s'.held h → s'.Exclusive groupSize h := by
  intro claim
  obtain ⟨s, s', runs, goes, before, after⟩ := recycled_twice
  have returned := claim 3 (by decide) s s' (.run 1) (Reach.create.run runs) goes 2 (by omega)
  have once := returned.once
  omega

end Handles

end Tmpi.Coll
