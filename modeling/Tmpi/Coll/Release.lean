import Tmpi.Coll.Stepwise

/-! When a thread frees a handle in `tmpi_rdco_reduce`, nobody else uses it, unless the root has
read `avail` while the last thread still held the mutex. -/

namespace Tmpi.Coll.Stepwise

/-- The handle that it is. -/
def Ref.target : Ref → Option Nat
  | .handle h => some h
  | _ => none

namespace Line

/-- Has the mutex of `curitem`. -/
def locked : Line → Bool
  | .publish | .publishBcast | .publishUnlock | .awaitTest | .awaitUnlock | .bumpLoad | .bumpStore
  | .bumpTest | .bumpSignal | .bumpUnlock | .gatherTest | .gatherUnlock => true
  | _ => false

/-- Another thread has been the first. -/
def waiting : Line → Bool
  | .discardMutex | .discardCond | .discard | .awaitLock | .awaitTest | .awaitWait => true
  | _ => false

/-- Has been the first, and `avail` is not set. -/
def publishing : Line → Bool
  | .link | .setData | .testData | .fill | .setCount | .publishLock | .publish => true
  | _ => false

/-- Is in `avail`. -/
def contributed : Line → Bool
  | .publishBcast | .publishUnlock | .bumpTest | .bumpSignal | .bumpUnlock | .peek | .gatherLock
  | .gatherTest | .gatherWait | .gatherUnlock | .copy | .loadNext | .storeFirst | .freeMutex
  | .freeCond | .free => true
  | _ => false

/-- Has found `avail` set, or has set it. -/
def published : Line → Bool
  | .awaitUnlock | .minCount | .checkData | .combine | .cas | .setCursor | .bumpLock | .bumpLoad
  | .bumpStore => true
  | l => l.contributed

/-- Has set its key to the next handle, if it has not been the first. -/
def moved : Line → Bool
  | .bumpLock | .bumpLoad | .bumpStore | .bumpTest | .bumpSignal | .bumpUnlock | .peek
  | .gatherLock | .gatherTest | .gatherWait | .gatherUnlock | .copy | .loadNext | .storeFirst
  | .freeMutex | .freeCond | .free => true
  | _ => false

/-- Only the root gets here. -/
def gathering : Line → Bool
  | .peek | .gatherLock | .gatherTest | .gatherWait | .gatherUnlock | .copy | .loadNext
  | .storeFirst | .freeMutex | .freeCond | .free => true
  | _ => false

/-- The root has seen that all threads are in `avail`. -/
def alone : Line → Bool
  | .gatherUnlock | .copy | .loadNext | .storeFirst | .freeMutex | .freeCond | .free => true
  | _ => false

/-- Has allocated `newitem`, which is not linked. -/
def spare : Line → Bool
  | .initAvail | .initNext | .claim | .link | .discardMutex | .discardCond | .discard => true
  | _ => false

/-- Has the result of its allocation. -/
def prepared : Line → Bool
  | .claim | .link => true
  | _ => false

/-- Has set the `avail` of `newitem`. -/
def reset : Line → Bool
  | .initNext | .claim | .link => true
  | _ => false

/-- Has linked `newitem`. -/
def linked : Line → Bool
  | .setData | .testData | .fill | .setCount | .publishLock | .publish | .publishBcast
  | .publishUnlock => true
  | _ => false

/-- After `l`, nothing new is known at `l'`. -/
def onward (l l' : Line) : Bool :=
  decide (l' ≠ .idle ∧ l' ≠ .bumpStore ∧ l' ≠ .link ∧ l'.contributed = l.contributed ∧
    (l'.waiting → l.waiting) ∧ (l'.publishing → l.publishing) ∧ (l'.published → l.published) ∧
    (l'.moved → l.moved) ∧ (l'.gathering = l.gathering) ∧ (l'.alone → l.alone) ∧
    (l'.spare → l.spare) ∧ (l'.prepared → l.prepared) ∧ (l'.reset → l.reset) ∧
    (l'.linked → l.linked))

end Line

namespace Frame

variable (f : Frame)

/-- Inside a reduce to thread `r`. -/
def On (r : Nat) : Prop := f.line ≠ .idle ∧ f.root = r

/-- The handle that the next step uses, or the data of which. What the allocator does with the
handles that are free is not counted. -/
def touches : Option Nat :=
  match f.line with
  | .idle | .alloc => none
  | .initAvail | .initNext | .discardMutex | .discardCond | .discard => f.newitem.target
  | _ => some f.curitem

/-- Waits on the condition variable of `h`. -/
def Waits (h : Nat) : Prop := (f.line = .awaitWait ∨ f.line = .gatherWait) ∧ f.curitem = h

/-- The handle that is passed to `tmpi_rdch_free`. -/
def frees : Option Nat :=
  match f.line with
  | .discardMutex => f.newitem.target
  | .freeMutex => some f.curitem
  | _ => none

/-- The handle that has been allocated and is not linked. -/
def spare : Option Nat := if f.line.spare then f.newitem.target else none

def contributed (r : Nat) : Bool := decide (f.root = r) && f.line.contributed

end Frame

namespace ReduceObj

variable (n : Nat) (s : ReduceObj)

/-- `tmpi_rdch_alloc` returns a handle that is free. -/
def Fresh : Act → Prop
  | .run t (some h) =>
      (s.frame t).line = .alloc → (s.rdcoArray (s.frame t).root).inUse h = false
  | _ => True

/-- Where the root reads without the lock that all threads are in `avail`, nobody has the mutex. -/
def Unheld : Act → Prop
  | .run t _ =>
      let handle := (s.rdcoArray (s.frame t).root).mem (s.frame t).curitem
      (s.frame t).line = .peek → handle.avail = n → handle.lock = none
  | _ => True

instance : DecidablePred s.Fresh
  | .run _ (some _) => inferInstanceAs (Decidable (_ → _))
  | .run _ none | .enter .. => isTrue trivial

instance : DecidablePred (s.Unheld n)
  | .run .. => inferInstanceAs (Decidable (_ → _ → _))
  | .enter .. => isTrue trivial

/-- `h` is not handed out. -/
def Elsewhere (r h : Nat) (act : Act) : Prop :=
  ∀ t, act = .run t (some h) → (s.frame t).line = .alloc → (s.frame t).root ≠ r

/-- Thread `t` frees a handle `h` of queue `r` that nobody else uses, now or before it is handed out
again. -/
structure Released (allowed : ReduceObj → Act → Prop) (t r h : Nat) : Prop where
  unlocked : ((s.rdcoArray r).mem h).lock = none
  unwaited : ∀ u < n, (s.frame u).On r → ¬ (s.frame u).Waits h
  untouched : ∀ s', s.Leads n (fun s act => allowed s act ∧ s.Elsewhere r h act) s' →
    ∀ u < n, u ≠ t → (s'.frame u).On r → (s'.frame u).touches ≠ some h

end ReduceObj

/-! ## The handles of a queue -/

/-- The handle of the `k`-th reduce; there is none where the allocation of the handle has failed. -/
def refAt (chain : List Nat) (k : Nat) : Ref :=
  match chain[k]? with
  | some h => .handle h
  | none => .failed

/-- `h` is the handle of reduce `k`, which is not freed. -/
def Live (chain : List Nat) (freed : Nat → Prop) (k h : Nat) : Prop :=
  chain[k]? = some h ∧ ¬ freed k

/-- What thread `t` inside the `k`-th reduce knows about its handle. -/
structure Sees (t : Nat) (chain : List Nat) (k : Nat) (f : Frame) (handle : RDCHandle) : Prop where
  waiting : f.line.waiting = true → 0 ≤ handle.avail
  publishing : f.line.publishing = true → handle.avail = 0
  published : f.line.published = true → 0 < handle.avail
  loaded : f.line = .bumpStore → f.avail = handle.avail
  linked : f.line.linked = true → handle.next = refAt chain (k + 1)
  locked : f.line.locked = true → handle.lock = some t

/-- What it has and has set otherwise. -/
structure Placed (r t : Nat) (chain : List Nat) (k : Nat) (f : Frame) (cursor : Ref) : Prop where
  item : chain[k]? = some f.curitem
  unlinked : f.line = .link → k + 1 = chain.length
  prepared : f.line.prepared = true → f.newitem ≠ .null
  newitem : f.line.linked = true ∨ f.isFirst = true → f.newitem = refAt chain (k + 1)
  cursor : f.line.moved = true → f.isFirst = false → cursor = refAt chain (k + 1)
  first : f.isFirst = true → f.line.gathering = true
  root : f.line.gathering = true → t = r

/-- The handle that a thread has allocated. -/
structure Hand (q : RDCQueue) (chain : List Nat) (freed : Nat → Prop) (f : Frame) (b : Nat) :
    Prop where
  used : q.inUse b = true
  apart : ∀ j, ¬ Live chain freed j b
  avail : f.line.reset = true → (q.mem b).avail = -1
  lock : (q.mem b).lock = none

/-- The handle of the `k`-th reduce, in which the threads `passed` are counted. -/
structure Cell (n : Nat) (chain : List Nat) (k : Nat) (handle : RDCHandle) (passed : Nat → Bool)
    (Owns : Nat → Prop) : Prop where
  low : -1 ≤ handle.avail
  unclaimed : handle.avail = -1 → k + 1 = chain.length
  early : handle.avail ≤ 0 → ∀ t < n, passed t = false
  count : 0 < handle.avail → handle.avail = (threads n passed).card
  next : 0 < handle.avail → handle.next = refAt chain (k + 1)
  owner : ∀ u, handle.lock = some u → Owns u

/-- Thread `t` has made `pos t` reduces to thread `r`, and is counted in reduce `k`. -/
def passed (r : Nat) (frame : Nat → Frame) (pos : Nat → Nat) (k t : Nat) : Bool :=
  decide (k < pos t) || decide (pos t = k) && (frame t).contributed r

def Owns (n r : Nat) (frame : Nat → Frame) (pos : Nat → Nat) (k t : Nat) : Prop :=
  t < n ∧ (frame t).On r ∧ pos t = k ∧ (frame t).line.locked = true

/-- The reduces to thread `r`: `chain` are their handles, one after another. -/
structure Inv (n r : Nat) (q : RDCQueue) (frame : Nat → Frame) (chain : List Nat) (pos : Nat → Nat)
    (freed : Nat → Prop) : Prop where
  sees : ∀ t < n, (frame t).On r → Sees t chain (pos t) (frame t) (q.mem (frame t).curitem)
  placed : ∀ t < n, (frame t).On r → Placed r t chain (pos t) (frame t) (q.cursor t)
  hands : ∀ t < n, (frame t).On r → ∀ b, (frame t).spare = some b → Hand q chain freed (frame t) b
  away : ∀ t < n, ¬ (frame t).On r → q.cursor t = refAt chain (pos t) ∨
    q.cursor t = .null ∧ pos t = 0 ∧ q.first = refAt chain 0
  behind : ∀ k, freed k → ∀ t < n, k < pos t
  used : ∀ k h, Live chain freed k h → q.inUse h = true
  distinct : ∀ j k h, Live chain freed j h → Live chain freed k h → j = k
  cells : ∀ k h, Live chain freed k h →
    Cell n chain k (q.mem h) (passed r frame pos k) (Owns n r frame pos k)
  alone : ∀ t < n, (frame t).On r → (frame t).line.alone = true → ∀ u < n, u ≠ t → pos t < pos u
  publishing : ∀ t < n, (frame t).On r → (frame t).line.publishing = true →
    ∀ u < n, (frame u).On r → (frame u).line.publishing = true → pos u = pos t → u = t
  spares : ∀ t < n, (frame t).On r → ∀ u < n, (frame u).On r → ∀ b, (frame t).spare = some b →
    (frame u).spare = some b → u = t

section Rules

variable {n r t k h b : Nat} {q q' : RDCQueue} {frame : Nat → Frame} {chain : List Nat}
  {pos : Nat → Nat} {freed : Nat → Prop} {f f' : Frame}

theorem refAt_eq : refAt chain k = .handle h ↔ chain[k]? = some h := by
  unfold refAt
  cases chain[k]? with
  | none => exact ⟨nofun, nofun⟩
  | some a => rw [Ref.handle.injEq, Option.some.injEq]

theorem refAt_ne_null : refAt chain k ≠ .null := by
  unfold refAt
  cases chain[k]? with
  | none => exact nofun
  | some a => exact nofun

theorem spare_eq : f.spare = some b ↔ f.line.spare = true ∧ f.newitem = .handle b := by
  unfold Frame.spare
  cases f.newitem with
  | null | failed => simp [Ref.target]
  | handle a => simp [Ref.target]

/-- `handle'` differs at most in the data. -/
structure Alike (handle handle' : RDCHandle) : Prop where
  avail : handle'.avail = handle.avail
  next : handle'.next = handle.next
  lock : handle'.lock = handle.lock

theorem Alike.refl (handle : RDCHandle) : Alike handle handle := ⟨rfl, rfl, rfl⟩

theorem Sees.alike {handle handle' : RDCHandle} (sees : Sees t chain k f handle)
    (alike : Alike handle handle') : Sees t chain k f handle' where
  waiting now := alike.avail ▸ sees.waiting now
  publishing now := alike.avail ▸ sees.publishing now
  published now := alike.avail ▸ sees.published now
  loaded now := alike.avail ▸ sees.loaded now
  linked now := alike.next ▸ sees.linked now
  locked now := alike.lock ▸ sees.locked now

theorem Cell.alike {handle handle' : RDCHandle} {passed passed' : Nat → Bool}
    {Owns Owns' : Nat → Prop} (cell : Cell n chain k handle passed Owns)
    (alike : Alike handle handle') (same : ∀ u < n, passed' u = passed u)
    (owns : ∀ u, handle.lock = some u → Owns u → Owns' u) :
    Cell n chain k handle' passed' Owns' where
  low := alike.avail ▸ cell.low
  unclaimed now := cell.unclaimed (alike.avail ▸ now)
  early now u inside := (same u inside).trans (cell.early (alike.avail ▸ now) u inside)
  count now := by
    rw [alike.avail, threads_congr same]
    exact cell.count (alike.avail ▸ now)
  next now := alike.next ▸ cell.next (alike.avail ▸ now)
  owner u now := owns u (alike.lock ▸ now) (cell.owner u (alike.lock ▸ now))

theorem Hand.alike (hand : Hand q chain freed f b) (alike : Alike (q.mem b) (q'.mem b))
    (used : q'.inUse b = true) : Hand q' chain freed f b where
  used := used
  apart := hand.apart
  avail now := alike.avail ▸ hand.avail now
  lock := alike.lock ▸ hand.lock

theorem Inv.live (inv : Inv n r q frame chain pos freed) (inside : t < n) (on : (frame t).On r) :
    Live chain freed (pos t) (frame t).curitem :=
  ⟨(inv.placed t inside on).item, fun gone => Nat.lt_irrefl _ (inv.behind _ gone t inside)⟩

theorem Inv.same_item (inv : Inv n r q frame chain pos freed) {u : Nat} (inside : t < n)
    (on : (frame t).On r) (inside' : u < n) (on' : (frame u).On r) (level : pos u = pos t) :
    (frame u).curitem = (frame t).curitem := by
  have same := (inv.placed u inside' on').item.symm.trans
    (level ▸ (inv.placed t inside on).item)
  exact Option.some.inj same

theorem passed_update_of_ne {pos' : Nat → Nat} {u : Nat} (other : u ≠ t)
    (same : pos' u = pos u) :
    passed r (Function.update frame t f') pos' k u = passed r frame pos k u := by
  rw [passed, passed, Function.update_of_ne other, same]

theorem passed_stay (same : pos t = k → f'.contributed r = (frame t).contributed r) (u : Nat) :
    passed r (Function.update frame t f') pos k u = passed r frame pos k u := by
  by_cases self : u = t
  · subst self
    by_cases now : pos u = k
    · rw [passed, passed, Function.update_self, same now]
    · rw [passed, passed, decide_eq_false now, Bool.false_and, Bool.false_and]
  · exact passed_update_of_ne self rfl

theorem Owns.update_of_ne {u : Nat} (owns : Owns n r frame pos k u) (other : u ≠ t) :
    Owns n r (Function.update frame t f') pos k u := by
  rw [Owns, Function.update_of_ne other]
  exact owns

/-- A step of a thread that stays in its reduce. -/
theorem Inv.stay (inv : Inv n r q frame chain pos freed) (inside : t < n) (on : (frame t).On r)
    (on' : f'.On r)
    (elsewhere : ∀ h, q.inUse h = true → h ≠ (frame t).curitem → (frame t).spare ≠ some h →
      Alike (q.mem h) (q'.mem h))
    (use : ∀ h, q.inUse h = true → (frame t).spare ≠ some h → q'.inUse h = true)
    (cursor : ∀ u, u ≠ t → q'.cursor u = q.cursor u)
    (first : q'.first = q.first ∨ (frame t).line.alone = true)
    (cell : Cell n chain (pos t) (q'.mem (frame t).curitem)
      (passed r (Function.update frame t f') pos (pos t))
      (Owns n r (Function.update frame t f') pos (pos t)))
    (keeps : ∀ u < n, u ≠ t → (frame u).On r → pos u = pos t →
      Sees u chain (pos t) (frame u) (q.mem (frame t).curitem) →
      Sees u chain (pos t) (frame u) (q'.mem (frame t).curitem))
    (sees : Sees t chain (pos t) f' (q'.mem f'.curitem))
    (placed : Placed r t chain (pos t) f' (q'.cursor t))
    (hands : ∀ b, f'.spare = some b →
      Hand q' chain freed f' b ∧ ((frame t).spare = some b ∨ q.inUse b = false))
    (alone : f'.line.alone = true →
      (frame t).line.alone = true ∨ ∀ u < n, u ≠ t → pos t < pos u)
    (publishing : f'.line.publishing = true → (frame t).line.publishing = true ∨
      ∀ u < n, (frame u).On r → pos u = pos t → (frame u).line.publishing = false) :
    Inv n r q' (Function.update frame t f') chain pos freed := by
  have live := inv.live inside on
  -- the handle of another reduce is neither this one's nor allocated by this thread
  have other : ∀ k h, Live chain freed k h → k ≠ pos t → Alike (q.mem h) (q'.mem h) := by
    intro k h live' away
    refine elsewhere h (inv.used k h live') ?_ ?_
    · rintro rfl
      exact away (inv.distinct _ _ _ live' live)
    · intro spare
      exact (inv.hands t inside on h spare).apart k live'
  have on_update : ∀ u, u ≠ t → Function.update frame t f' u = frame u :=
    fun u away => Function.update_of_ne away _ _
  constructor
  · intro u inside' onU
    by_cases self : u = t
    · subst self
      rw [Function.update_self]
      exact sees
    · rw [on_update u self] at onU ⊢
      have seen := inv.sees u inside' onU
      by_cases level : pos u = pos t
      · have same := inv.same_item inside on inside' onU level
        rw [same, level] at seen ⊢
        exact keeps u inside' self onU level seen
      · exact seen.alike (other _ _ (inv.live inside' onU) level)
  · intro u inside' onU
    by_cases self : u = t
    · subst self
      rw [Function.update_self]
      exact placed
    · rw [on_update u self] at onU ⊢
      rw [cursor u self]
      exact inv.placed u inside' onU
  · intro u inside' onU b spare
    by_cases self : u = t
    · subst self
      rw [Function.update_self] at spare ⊢
      exact (hands b spare).1
    · rw [on_update u self] at onU spare ⊢
      have hand := inv.hands u inside' onU b spare
      have apart : b ≠ (frame t).curitem := by
        rintro rfl
        exact hand.apart _ live
      have own : (frame t).spare ≠ some b :=
        fun also => self (inv.spares t inside on u inside' onU b also spare)
      exact hand.alike (elsewhere b hand.used apart own) (use b hand.used own)
  · intro u inside' away
    have self : u ≠ t := by
      rintro rfl
      rw [Function.update_self] at away
      exact away on'
    rw [on_update u self] at away
    rw [cursor u self]
    rcases inv.away u inside' away with there | ⟨unset, zero, front⟩
    · exact .inl there
    · refine .inr ⟨unset, zero, ?_⟩
      rcases first with same | last
      · exact same.trans front
      · have ahead := inv.alone t inside on last u inside' self
        omega
  · exact inv.behind
  · intro k h live'
    refine use h (inv.used k h live') fun spare => ?_
    exact (inv.hands t inside on h spare).apart k live'
  · exact inv.distinct
  · intro k h live'
    by_cases level : k = pos t
    · subst level
      have same : h = (frame t).curitem := Option.some.inj (live'.1.symm.trans live.1)
      exact same ▸ cell
    · refine (inv.cells k h live').alike (other k h live' level)
        (fun u _ => passed_stay (fun now => absurd now.symm level) u) fun u _ owns => ?_
      apply owns.update_of_ne
      rintro rfl
      exact level owns.2.2.1.symm
  · intro u inside' onU last w inside'' away
    by_cases self : u = t
    · subst self
      rw [Function.update_self] at last
      rcases alone last with before | ahead
      · exact inv.alone u inside' on before w inside'' away
      · exact ahead w inside'' away
    · rw [on_update u self] at onU last
      exact inv.alone u inside' onU last w inside'' away
  · intro u insideU onU nowU w insideW onW nowW level
    by_cases selfU : u = t
    · by_cases selfW : w = t
      · exact selfW.trans selfU.symm
      · subst selfU
        rw [Function.update_self] at nowU
        rw [on_update w selfW] at onW nowW
        rcases publishing nowU with before | sole
        · exact inv.publishing u inside on before w insideW onW nowW level
        · rw [sole w insideW onW level] at nowW
          cases nowW
    · rw [on_update u selfU] at onU nowU
      by_cases selfW : w = t
      · subst selfW
        rw [Function.update_self] at nowW
        rcases publishing nowW with before | sole
        · exact inv.publishing u insideU onU nowU w inside on before level
        · rw [sole u insideU onU level.symm] at nowU
          cases nowU
      · rw [on_update w selfW] at onW nowW
        exact inv.publishing u insideU onU nowU w insideW onW nowW level
  · intro u insideU onU w insideW onW b hasU hasW
    by_cases selfU : u = t
    · by_cases selfW : w = t
      · exact selfW.trans selfU.symm
      · subst selfU
        rw [Function.update_self] at hasU
        rw [on_update w selfW] at onW hasW
        rcases (hands b hasU).2 with before | unused
        · exact inv.spares u inside on w insideW onW b before hasW
        · rw [(inv.hands w insideW onW b hasW).used] at unused
          cases unused
    · rw [on_update u selfU] at onU hasU
      by_cases selfW : w = t
      · subst selfW
        rw [Function.update_self] at hasW
        rcases (hands b hasW).2 with before | unused
        · exact inv.spares u insideU onU w inside on b hasU before
        · rw [(inv.hands u insideU onU b hasU).used] at unused
          cases unused
      · rw [on_update w selfW] at onW hasW
        exact inv.spares u insideU onU w insideW onW b hasU hasW

/-- The handle's cell, if a step leaves `avail` and its `next`. -/
theorem Inv.cell_kept (inv : Inv n r q frame chain pos freed) (inside : t < n) (on : (frame t).On r)
    (on' : f'.On r) {handle : RDCHandle} (alike : Alike (q.mem (frame t).curitem) handle)
    (contributed : f'.line.contributed = (frame t).line.contributed)
    (locked : (frame t).line.locked = true → f'.line.locked = true) :
    Cell n chain (pos t) handle (passed r (Function.update frame t f') pos (pos t))
      (Owns n r (Function.update frame t f') pos (pos t)) := by
  refine (inv.cells _ _ (inv.live inside on)).alike alike
    (fun u _ => passed_stay (fun _ => ?_) u) fun u _ owns => ?_
  · rw [Frame.contributed, Frame.contributed, on.2, on'.2, contributed]
  · by_cases self : u = t
    · subst self
      rw [Owns, Function.update_self]
      exact ⟨inside, on', rfl, locked owns.2.2.2⟩
    · exact owns.update_of_ne self

/-- A step that leaves every `avail`, every `next` and every mutex. -/
theorem Inv.quiet (inv : Inv n r q frame chain pos freed) (inside : t < n) (on : (frame t).On r)
    (on' : f'.On r) (alike : ∀ h, Alike (q.mem h) (q'.mem h)) (use : q'.inUse = q.inUse)
    (cursor : ∀ u, u ≠ t → q'.cursor u = q.cursor u)
    (first : q'.first = q.first ∨ (frame t).line.alone = true)
    (contributed : f'.line.contributed = (frame t).line.contributed)
    (locked : f'.line.locked = (frame t).line.locked)
    (item : f'.curitem = (frame t).curitem)
    (sees : Sees t chain (pos t) f' (q.mem (frame t).curitem))
    (placed : Placed r t chain (pos t) f' (q'.cursor t))
    (spare : ∀ b, f'.spare = some b →
      (frame t).spare = some b ∧ (f'.line.reset = true → (frame t).line.reset = true))
    (alone : f'.line.alone = true →
      (frame t).line.alone = true ∨ ∀ u < n, u ≠ t → pos t < pos u)
    (publishing : f'.line.publishing = true → (frame t).line.publishing = true) :
    Inv n r q' (Function.update frame t f') chain pos freed := by
  refine inv.stay inside on on' (fun h _ _ _ => alike h) (fun h used _ => use ▸ used) cursor first
    (inv.cell_kept inside on on' (alike _) contributed fun has => locked.trans has)
    (fun u _ _ _ _ seen => seen.alike (alike _)) (item ▸ sees.alike (alike _)) placed ?_ alone
    fun now => .inl (publishing now)
  intro b has
  obtain ⟨before, reset⟩ := spare b has
  have hand := inv.hands t inside on b before
  refine ⟨⟨?_, hand.apart, fun now => ?_, ?_⟩, .inl before⟩
  · rw [use]
    exact hand.used
  · exact (alike b).avail.trans (hand.avail (reset now))
  · exact (alike b).lock.trans hand.lock

/-- The same variables, as far as they matter. -/
structure Frame.Same (f f' : Frame) : Prop where
  root : f'.root = f.root
  item : f'.curitem = f.curitem
  newitem : f'.newitem = f.newitem
  isFirst : f'.isFirst = f.isFirst

theorem Frame.Same.trans {f'' : Frame} (first : f.Same f') (second : f'.Same f'') : f.Same f'' :=
  ⟨second.root.trans first.root, second.item.trans first.item, second.newitem.trans first.newitem,
    second.isFirst.trans first.isFirst⟩

theorem Frame.On.onward (on : f.On r) (same : f.Same f')
    (onward : f.line.onward f'.line = true) : f'.On r :=
  ⟨(of_decide_eq_true onward).1, same.root.trans on.2⟩

/-- What a thread knows if the mutex is left. -/
theorem Sees.onward {handle : RDCHandle} (sees : Sees t chain k f handle)
    (onward : f.line.onward f'.line = true)
    (locked : f'.line.locked = true → f.line.locked = true) : Sees t chain k f' handle := by
  obtain ⟨-, store, -, -, waiting, publishing, published, -, -, -, -, -, -, linked⟩ :=
    of_decide_eq_true onward
  exact ⟨fun now => sees.waiting (waiting now), fun now => sees.publishing (publishing now),
    fun now => sees.published (published now), fun now => absurd now store,
    fun now => sees.linked (linked now), fun now => sees.locked (locked now)⟩

theorem Placed.onward {cursor : Ref} (placed : Placed r t chain k f cursor) (same : f.Same f')
    (onward : f.line.onward f'.line = true) : Placed r t chain k f' cursor := by
  obtain ⟨-, -, link, -, -, -, -, moved, gathering, -, -, prepared, -, linked⟩ :=
    of_decide_eq_true onward
  refine ⟨?_, fun now => absurd now link, fun now => ?_, fun now => ?_, fun now away => ?_,
    fun now => gathering.trans (placed.first (same.isFirst ▸ now)),
    fun now => placed.root (gathering ▸ now)⟩
  · rw [same.item]
    exact placed.item
  · rw [same.newitem]
    exact placed.prepared (prepared now)
  · rw [same.newitem]
    apply placed.newitem
    exact now.imp linked (same.isFirst ▸ ·)
  · exact placed.cursor (moved now) (same.isFirst ▸ away)

theorem Frame.Same.spare (same : f.Same f') (onward : f.line.onward f'.line = true)
    (has : f'.spare = some b) :
    f.spare = some b ∧ (f'.line.reset = true → f.line.reset = true) := by
  obtain ⟨-, -, -, -, -, -, -, -, -, -, spare, -, reset, -⟩ := of_decide_eq_true onward
  obtain ⟨now, new⟩ := spare_eq.mp has
  exact ⟨spare_eq.mpr ⟨spare now, same.newitem ▸ new⟩, reset⟩

/-- A step that leaves every `avail`, every `next` and every mutex, and tells the thread nothing. -/
theorem Inv.onward (inv : Inv n r q frame chain pos freed) (inside : t < n) (on : (frame t).On r)
    {l : Line} (now : (frame t).line = l) (same : (frame t).Same f')
    (onward : l.onward f'.line = true) (locked : f'.line.locked = l.locked)
    (alike : ∀ h, Alike (q.mem h) (q'.mem h)) (use : q'.inUse = q.inUse)
    (cursor : q'.cursor = q.cursor)
    (first : q'.first = q.first ∨ (frame t).line.alone = true) :
    Inv n r q' (Function.update frame t f') chain pos freed := by
  subst now
  obtain ⟨-, -, -, contributed, -, publishing, -, -, -, alone, -⟩ := of_decide_eq_true onward
  refine inv.quiet inside on (on.onward same onward) alike use (fun u _ => congrFun cursor u) first
    contributed locked same.item ((inv.sees t inside on).onward onward fun now => locked ▸ now) ?_
    (fun b has => same.spare onward has) (fun now => .inl (alone now)) publishing
  rw [cursor]
  exact (inv.placed t inside on).onward same onward

/-! ### The mutex -/

theorem Sees.setLock {handle : RDCHandle} (sees : Sees t chain k f handle)
    (onward : f.line.onward f'.line = true) {lock : Option Nat}
    (locked : f'.line.locked = true → lock = some t) :
    Sees t chain k f' { handle with lock } := by
  obtain ⟨-, store, -, -, waiting, publishing, published, -, -, -, -, -, -, linked⟩ :=
    of_decide_eq_true onward
  exact ⟨fun now => sees.waiting (waiting now), fun now => sees.publishing (publishing now),
    fun now => sees.published (published now), fun now => absurd now store,
    fun now => sees.linked (linked now), locked⟩

/-- A thread takes or gives back the mutex. -/
theorem Inv.setLock (inv : Inv n r q frame chain pos freed) (inside : t < n) (on : (frame t).On r)
    (on' : f'.On r) {lock : Option Nat}
    (before : ∀ u, (q.mem (frame t).curitem).lock = some u → u = t)
    (after : ∀ u, lock = some u → u = t ∧ f'.line.locked = true)
    (contributed : f'.line.contributed = (frame t).line.contributed)
    (item : f'.curitem = (frame t).curitem)
    (sees : Sees t chain (pos t) f' { q.mem (frame t).curitem with lock })
    (placed : Placed r t chain (pos t) f' (q.cursor t))
    (spare : ∀ b, f'.spare = some b →
      (frame t).spare = some b ∧ (f'.line.reset = true → (frame t).line.reset = true))
    (alone : f'.line.alone = true → (frame t).line.alone = true)
    (publishing : f'.line.publishing = true → (frame t).line.publishing = true) :
    Inv n r (q.setLock (frame t).curitem lock) (Function.update frame t f') chain pos freed := by
  have live := inv.live inside on
  have there : (q.setLock (frame t).curitem lock).mem (frame t).curitem =
      { q.mem (frame t).curitem with lock } := Function.update_self ..
  have elsewhere : ∀ h, h ≠ (frame t).curitem →
      Alike (q.mem h) ((q.setLock (frame t).curitem lock).mem h) := by
    intro h away
    have same : (q.setLock (frame t).curitem lock).mem h = q.mem h := Function.update_of_ne away ..
    exact same ▸ .refl _
  refine inv.stay inside on on' (fun h _ away _ => elsewhere h away) (fun h used _ => used)
    (fun u _ => rfl) (.inl rfl) ?_ ?_ ?_ placed ?_ (fun now => .inl (alone now))
    fun now => .inl (publishing now)
  · have cell := inv.cells _ _ live
    have counted : ∀ u, passed r (Function.update frame t f') pos (pos t) u =
        passed r frame pos (pos t) u := by
      refine passed_stay fun _ => ?_
      rw [Frame.contributed, Frame.contributed, on.2, on'.2, contributed]
    rw [there, funext counted]
    refine ⟨cell.low, cell.unclaimed, cell.early, cell.count, cell.next, fun u has => ?_⟩
    obtain ⟨rfl, locked⟩ := after u has
    rw [Owns, Function.update_self]
    exact ⟨inside, on', rfl, locked⟩
  · intro u _ away _ _ seen
    rw [there]
    exact ⟨seen.waiting, seen.publishing, seen.published, seen.loaded, seen.linked,
      fun now => absurd (before u (seen.locked now)) away⟩
  · rw [item, there]
    exact sees
  · intro b has
    obtain ⟨own, reset⟩ := spare b has
    have hand := inv.hands t inside on b own
    have away : b ≠ (frame t).curitem := by
      rintro rfl
      exact hand.apart _ live
    have alike := elsewhere b away
    exact ⟨⟨hand.used, hand.apart, fun now => alike.avail.trans (hand.avail (reset now)),
      alike.lock.trans hand.lock⟩, .inl own⟩

/-- `thr_mtx_lock`, or the end of `thr_cnd_wait`. -/
theorem Inv.acquire (inv : Inv n r q frame chain pos freed) (inside : t < n) (on : (frame t).On r)
    {l : Line} (now : (frame t).line = l) (free : (q.mem (frame t).curitem).lock = none)
    (same : (frame t).Same f') (onward : l.onward f'.line = true) (locked : f'.line.locked = true) :
    Inv n r (q.setLock (frame t).curitem (some t)) (Function.update frame t f') chain pos freed := by
  subst now
  obtain ⟨-, -, -, contributed, -, publishing, -, -, -, alone, -⟩ := of_decide_eq_true onward
  refine inv.setLock inside on (on.onward same onward) (fun u has => ?_) (fun u has => ?_)
    contributed same.item ((inv.sees t inside on).setLock onward fun _ => rfl)
    ((inv.placed t inside on).onward same onward) (fun b has => same.spare onward has) alone
    publishing
  · rw [free] at has
    cases has
  · exact ⟨(Option.some.inj has).symm, locked⟩

/-- `thr_mtx_unlock`, or the begin of `thr_cnd_wait`. -/
theorem Inv.release (inv : Inv n r q frame chain pos freed) (inside : t < n) (on : (frame t).On r)
    {l : Line} (now : (frame t).line = l) (same : (frame t).Same f')
    (onward : l.onward f'.line = true) (locked : l.locked = true) (open' : f'.line.locked = false) :
    Inv n r (q.setLock (frame t).curitem none) (Function.update frame t f') chain pos freed := by
  subst now
  obtain ⟨-, -, -, contributed, -, publishing, -, -, -, alone, -⟩ := of_decide_eq_true onward
  have mine := (inv.sees t inside on).locked locked
  refine inv.setLock inside on (on.onward same onward) (fun u has => ?_) (fun u => nofun)
    contributed same.item ((inv.sees t inside on).setLock onward fun now => ?_)
    ((inv.placed t inside on).onward same onward) (fun b has => same.spare onward has) alone
    publishing
  · rw [mine] at has
    exact (Option.some.inj has).symm
  · rw [open'] at now
    cases now

/-! ### `avail` -/

/-- A step that changes `avail` only, of a thread that then is in `avail` or not. -/
theorem Inv.setAvail (inv : Inv n r q frame chain pos freed) (inside : t < n)
    (on : (frame t).On r) (on' : f'.On r) {avail : Int}
    (locked : (frame t).line.locked = true → f'.line.locked = true)
    (item : f'.curitem = (frame t).curitem) (positive : 0 ≤ avail)
    (early : avail = 0 → (q.mem (frame t).curitem).avail ≤ 0 ∧
      f'.line.contributed = (frame t).line.contributed)
    (count : 0 < avail → avail = (threads n
      (passed r (Function.update frame t f') pos (pos t))).card)
    (next : 0 < avail → (q.mem (frame t).curitem).next = refAt chain (pos t + 1))
    (keeps : ∀ u < n, u ≠ t → (frame u).On r → pos u = pos t →
      Sees u chain (pos t) (frame u) (q.mem (frame t).curitem) →
      Sees u chain (pos t) (frame u) { q.mem (frame t).curitem with avail })
    (sees : Sees t chain (pos t) f' { q.mem (frame t).curitem with avail })
    (placed : Placed r t chain (pos t) f' (q.cursor t))
    (spare : ∀ b, f'.spare = some b →
      (frame t).spare = some b ∧ (f'.line.reset = true → (frame t).line.reset = true))
    (alone : f'.line.alone = true → (frame t).line.alone = true)
    (publishing : f'.line.publishing = true → (frame t).line.publishing = true ∨
      ∀ u < n, (frame u).On r → pos u = pos t → (frame u).line.publishing = false) :
    Inv n r (q.setAvail (frame t).curitem avail) (Function.update frame t f') chain pos freed := by
  have live := inv.live inside on
  have there : (q.setAvail (frame t).curitem avail).mem (frame t).curitem =
      { q.mem (frame t).curitem with avail } := Function.update_self ..
  have elsewhere : ∀ h, h ≠ (frame t).curitem →
      Alike (q.mem h) ((q.setAvail (frame t).curitem avail).mem h) := by
    intro h away
    have same : (q.setAvail (frame t).curitem avail).mem h = q.mem h := Function.update_of_ne away ..
    exact same ▸ .refl _
  refine inv.stay inside on on' (fun h _ away _ => elsewhere h away) (fun h used _ => used)
    (fun u _ => rfl) (.inl rfl) ?_ ?_ ?_ placed ?_ (fun now => .inl (alone now)) publishing
  · have cell := inv.cells _ _ live
    rw [there]
    refine ⟨le_trans (by decide) positive, fun now => ?_, fun now u low => ?_, count, next,
      fun u has => ?_⟩
    · have low : avail = -1 := now
      omega
    · have zero : avail = 0 := le_antisymm now positive
      obtain ⟨before, same⟩ := early zero
      rw [passed_stay fun _ => ?_]
      · exact cell.early before u low
      · rw [Frame.contributed, Frame.contributed, on.2, on'.2, same]
    · have owns := cell.owner u has
      by_cases self : u = t
      · subst self
        rw [Owns, Function.update_self]
        exact ⟨inside, on', rfl, locked owns.2.2.2⟩
      · exact owns.update_of_ne self
  · intro u low away onU level seen
    rw [there]
    exact keeps u low away onU level seen
  · rw [item, there]
    exact sees
  · intro b has
    obtain ⟨own, reset⟩ := spare b has
    have hand := inv.hands t inside on b own
    have away : b ≠ (frame t).curitem := by
      rintro rfl
      exact hand.apart _ live
    have alike := elsewhere b away
    exact ⟨⟨hand.used, hand.apart, fun now => alike.avail.trans (hand.avail (reset now)),
      alike.lock.trans hand.lock⟩, .inl own⟩

/-- A thread comes into `avail`. -/
theorem threads_passed (inside : t < n) (on' : f'.On r)
    (before : (frame t).line.contributed = false) (after : f'.line.contributed = true) :
    (threads n (passed r (Function.update frame t f') pos (pos t))).card =
      (threads n (passed r frame pos (pos t))).card + 1 := by
  refine threads_card_insert inside (fun u _ away => passed_update_of_ne away rfl) ?_ ?_
  · rw [passed, Frame.contributed, Function.update_self, after, decide_eq_true on'.2,
      decide_eq_true rfl, Bool.true_and, Bool.true_and, Bool.or_true]
  · rw [passed, Frame.contributed, before, decide_eq_false (lt_irrefl _), Bool.and_false,
      Bool.and_false]
    rfl

theorem Placed.not_first {cursor : Ref} (placed : Placed r t chain k f cursor)
    (before : f.line.gathering = false) : f.isFirst = false := by
  by_contra first
  rw [placed.first (Bool.eq_true_of_not_eq_false first)] at before
  cases before

/-- Between the claim and the root's part, with `newitem` not linked. -/
theorem Placed.plain {cursor : Ref} (item : chain[k]? = some f.curitem) (first : f.isFirst = false)
    (unlinked : f.line ≠ .link) (prepared : f.line.prepared = false) (linked : f.line.linked = false)
    (moved : f.line.moved = true → cursor = refAt chain (k + 1))
    (gathering : f.line.gathering = true → t = r) : Placed r t chain k f cursor where
  item := item
  unlinked now := absurd now unlinked
  prepared now := by
    rw [prepared] at now
    cases now
  newitem now := by
    rw [linked, first] at now
    exact now.elim nofun nofun
  cursor now _ := moved now
  first now := by
    rw [first] at now
    cases now
  root := gathering

theorem Line.published_of_bumpStore {l : Line} (now : l = .bumpStore) : l.published = true := by
  rw [now]
  rfl

/-- The `cas32`. -/
theorem Inv.claim (inv : Inv n r q frame chain pos freed) (inside : t < n) (on : (frame t).On r)
    (now : (frame t).line = .claim) (free : (q.mem (frame t).curitem).avail = -1) :
    Inv n r (q.setAvail (frame t).curitem 0)
      (Function.update frame t ((frame t).goto .link)) chain pos freed := by
  have placed := inv.placed t inside on
  have cell := inv.cells _ _ (inv.live inside on)
  have waited : ∀ {u}, u < n → (frame u).On r → pos u = pos t →
      (frame u).line.publishing = false := by
    intro u low onU level
    by_contra going
    have sees := (inv.sees u low onU).publishing (Bool.eq_true_of_not_eq_false going)
    rw [inv.same_item inside on low onU level, free] at sees
    cases sees
  have on' : ((frame t).goto .link).On r := ⟨nofun, on.2⟩
  refine inv.setAvail inside on on' (fun has => ?_) rfl le_rfl
    (fun _ => ⟨?_, ?_⟩) (fun low => absurd low (lt_irrefl 0)) (fun low => absurd low (lt_irrefl 0))
    ?_ ⟨nofun, fun _ => rfl, nofun, nofun, nofun, nofun⟩ ?_ ?_ nofun
    fun _ => .inr fun u low onU level => waited low onU level
  · rw [now] at has
    cases has
  · rw [free]
    decide
  · rw [now]
    rfl
  · intro u low away onU level seen
    refine ⟨fun _ => le_rfl, fun _ => rfl, fun going => ?_, fun going => ?_, seen.linked,
      seen.locked⟩
    · have late := seen.published going
      rw [free] at late
      cases late
    · have late := seen.published (Line.published_of_bumpStore going)
      rw [free] at late
      cases late
  · have first := placed.not_first (now ▸ rfl)
    exact ⟨placed.item, fun _ => cell.unclaimed free, fun _ => placed.prepared (now ▸ rfl),
      fun has => placed.newitem (has.imp nofun id), nofun,
      fun has => absurd (first.symm.trans has) Bool.false_ne_true, nofun⟩
  · intro b has
    obtain ⟨-, new⟩ := spare_eq.mp has
    exact ⟨spare_eq.mpr ⟨now ▸ rfl, new⟩, fun _ => now ▸ rfl⟩

/-- The first thread sets `avail`. -/
theorem Inv.publish (inv : Inv n r q frame chain pos freed) (inside : t < n) (on : (frame t).On r)
    (now : (frame t).line = .publish) :
    Inv n r (q.setAvail (frame t).curitem 1)
      (Function.update frame t ((frame t).goto .publishBcast)) chain pos freed := by
  have placed := inv.placed t inside on
  have sees := inv.sees t inside on
  have cell := inv.cells _ _ (inv.live inside on)
  have zero : (q.mem (frame t).curitem).avail = 0 := sees.publishing (now ▸ rfl)
  have linked := sees.linked (now ▸ rfl)
  have mine := sees.locked (now ▸ rfl)
  have on' : ((frame t).goto .publishBcast).On r := ⟨nofun, on.2⟩
  have one : (0 : Int) < 1 := by decide
  refine inv.setAvail inside on on' (fun _ => rfl) rfl one.le (fun zero => absurd zero one.ne')
    (fun _ => ?_) (fun _ => linked) ?_ ⟨nofun, nofun, fun _ => one, nofun, fun _ => linked, fun _ => mine⟩
    ?_ nofun nofun nofun
  · rw [threads_passed inside on' (now ▸ rfl) rfl,
      threads_empty fun u low => cell.early zero.le u low]
    rfl
  · intro u low away onU level seen
    refine ⟨fun _ => one.le, fun going => ?_, fun _ => one, fun going => ?_, seen.linked,
      seen.locked⟩
    · exact absurd (inv.publishing t inside on (now ▸ rfl) u low onU going level) away
    · have late := seen.published (Line.published_of_bumpStore going)
      rw [zero] at late
      exact absurd late (lt_irrefl 0)
  · have first := placed.not_first (now ▸ rfl)
    exact ⟨placed.item, nofun, nofun, fun _ => placed.newitem (.inl (now ▸ rfl)), nofun,
      fun has => absurd (first.symm.trans has) Bool.false_ne_true, nofun⟩

/-- A thread that is not the first adds itself to `avail`. -/
theorem Inv.bumpStore (inv : Inv n r q frame chain pos freed) (inside : t < n)
    (on : (frame t).On r) (now : (frame t).line = .bumpStore) :
    Inv n r (q.setAvail (frame t).curitem ((frame t).avail + 1))
      (Function.update frame t ((frame t).goto .bumpTest)) chain pos freed := by
  have placed := inv.placed t inside on
  have sees := inv.sees t inside on
  have cell := inv.cells _ _ (inv.live inside on)
  have loaded := sees.loaded now
  have late := sees.published (now ▸ rfl)
  have mine := sees.locked (now ▸ rfl)
  have on' : ((frame t).goto .bumpTest).On r := ⟨nofun, on.2⟩
  rw [loaded]
  have rises : 0 < (q.mem (frame t).curitem).avail + 1 := by omega
  refine inv.setAvail inside on on' (fun _ => rfl) rfl rises.le
    (fun zero => absurd zero rises.ne') (fun _ => ?_) (fun _ => cell.next late) ?_
    ⟨nofun, nofun, fun _ => rises, nofun, nofun, fun _ => mine⟩ ?_ nofun nofun nofun
  · rw [threads_passed inside on' (now ▸ rfl) rfl, cell.count late]
    rfl
  · intro u low away onU level seen
    refine ⟨fun _ => rises.le, fun going => ?_, fun _ => rises, fun going => ?_, seen.linked,
      seen.locked⟩
    · rw [seen.publishing going] at late
      exact absurd late (lt_irrefl 0)
    · have other := seen.locked (going ▸ rfl)
      rw [mine] at other
      exact absurd (Option.some.inj other).symm away
  · have first := placed.not_first (now ▸ rfl)
    exact .plain placed.item first nofun rfl rfl (fun _ => placed.cursor (now ▸ rfl) first) nofun

/-! ### The handle that a thread has allocated -/

/-- A step that changes only what the thread has allocated. -/
theorem Inv.hand (inv : Inv n r q frame chain pos freed) (inside : t < n) (on : (frame t).On r)
    (on' : f'.On r)
    (elsewhere : ∀ h, q.inUse h = true → (frame t).spare ≠ some h → Alike (q.mem h) (q'.mem h))
    (use : ∀ h, q.inUse h = true → (frame t).spare ≠ some h → q'.inUse h = true)
    (cursor : q'.cursor = q.cursor) (first : q'.first = q.first)
    (contributed : f'.line.contributed = (frame t).line.contributed)
    (locked : (frame t).line.locked = true → f'.line.locked = true)
    (item : f'.curitem = (frame t).curitem)
    (sees : Sees t chain (pos t) f' (q.mem (frame t).curitem))
    (placed : Placed r t chain (pos t) f' (q.cursor t))
    (hands : ∀ b, f'.spare = some b →
      Hand q' chain freed f' b ∧ ((frame t).spare = some b ∨ q.inUse b = false))
    (alone : f'.line.alone = false) (publishing : f'.line.publishing = false) :
    Inv n r q' (Function.update frame t f') chain pos freed := by
  have live := inv.live inside on
  have alike : Alike (q.mem (frame t).curitem) (q'.mem (frame t).curitem) :=
    elsewhere _ (inv.used _ _ live) fun spare => (inv.hands t inside on _ spare).apart _ live
  refine inv.stay inside on on' (fun h used _ => elsewhere h used) use
    (fun u _ => congrFun cursor u) (.inl first)
    (inv.cell_kept inside on on' alike contributed locked) (fun u _ _ _ _ seen => seen.alike alike)
    (item ▸ sees.alike alike) ?_ hands (fun now => ?_) fun now => ?_
  · rw [cursor]
    exact placed
  · rw [alone] at now
    cases now
  · rw [publishing] at now
    cases now

/-- `tmpi_rdch_alloc` returns `h`. -/
theorem Inv.alloc (inv : Inv n r q frame chain pos freed) (inside : t < n) (on : (frame t).On r)
    (now : (frame t).line = .alloc) (fresh : q.inUse h = false) :
    Inv n r (q.alloc h) (Function.update frame t
      ({ frame t with newitem := .handle h }.goto .initAvail)) chain pos freed := by
  have placed := inv.placed t inside on
  have on' : ({ frame t with newitem := .handle h }.goto .initAvail).On r := ⟨nofun, on.2⟩
  have other : ∀ h', q.inUse h' = true → h' ≠ h := by
    rintro h' used rfl
    rw [fresh] at used
    cases used
  refine inv.hand inside on on' (fun h' used _ => ?_) (fun h' used _ => ?_) rfl rfl (now ▸ rfl)
    (fun has => ?_) rfl ⟨nofun, nofun, nofun, nofun, nofun, nofun⟩
    (.plain placed.item (placed.not_first (now ▸ rfl)) nofun rfl rfl nofun nofun) (fun b has => ?_)
    rfl rfl
  · have same : (q.alloc h).mem h' = q.mem h' := Function.update_of_ne (other h' used) ..
    exact same ▸ .refl _
  · exact (Function.update_of_ne (other h' used) ..).trans used
  · rw [now] at has
    cases has
  · obtain ⟨-, new⟩ := spare_eq.mp has
    cases new
    refine ⟨⟨Function.update_self .., fun j live => ?_, nofun, ?_⟩, .inr fresh⟩
    · exact other h (inv.used j h live) rfl
    · have there : (q.alloc h).mem h = { q.mem h with lock := none } := Function.update_self ..
      rw [there]

/-- `newitem->avail=-1`. -/
theorem Inv.initAvail (inv : Inv n r q frame chain pos freed) (inside : t < n)
    (on : (frame t).On r) (now : (frame t).line = .initAvail)
    (new : (frame t).newitem = .handle h) :
    Inv n r (q.setAvail h (-1)) (Function.update frame t ((frame t).goto .initNext)) chain pos
      freed := by
  have placed := inv.placed t inside on
  have on' : ((frame t).goto .initNext).On r := ⟨nofun, on.2⟩
  have own : (frame t).spare = some h := spare_eq.mpr ⟨now ▸ rfl, new⟩
  refine inv.hand inside on on' (fun h' used away => ?_) (fun h' used _ => used) rfl rfl
    (now ▸ rfl) (fun has => ?_) rfl ⟨nofun, nofun, nofun, nofun, nofun, nofun⟩
    (.plain placed.item (placed.not_first (now ▸ rfl)) nofun rfl rfl nofun nofun) (fun b has => ?_)
    rfl rfl
  · have other : h' ≠ h := by
      rintro rfl
      exact away own
    have same : (q.setAvail h (-1)).mem h' = q.mem h' := Function.update_of_ne other ..
    exact same ▸ .refl _
  · rw [now] at has
    cases has
  · obtain ⟨-, new'⟩ := spare_eq.mp has
    obtain rfl : h = b := Ref.handle.inj (new.symm.trans new')
    have hand := inv.hands t inside on h own
    have there : (q.setAvail h (-1)).mem h = { q.mem h with avail := -1 } :=
      Function.update_self ..
    refine ⟨⟨hand.used, hand.apart, fun _ => ?_, ?_⟩, .inl own⟩
    · rw [there]
    · rw [there]
      exact hand.lock

/-- `newitem->next=NULL`. -/
theorem Inv.initNext (inv : Inv n r q frame chain pos freed) (inside : t < n)
    (on : (frame t).On r) (now : (frame t).line = .initNext)
    (new : (frame t).newitem = .handle h) :
    Inv n r (q.setNext h .null) (Function.update frame t ((frame t).goto .claim)) chain pos
      freed := by
  have placed := inv.placed t inside on
  have on' : ((frame t).goto .claim).On r := ⟨nofun, on.2⟩
  have own : (frame t).spare = some h := spare_eq.mpr ⟨now ▸ rfl, new⟩
  have first := placed.not_first (now ▸ rfl)
  refine inv.hand inside on on' (fun h' used away => ?_) (fun h' used _ => used) rfl rfl
    (now ▸ rfl) (fun has => ?_) rfl ⟨nofun, nofun, nofun, nofun, nofun, nofun⟩
    ⟨placed.item, nofun, fun _ null => ?_, fun has => placed.newitem (has.imp nofun id), nofun,
      fun has => absurd (first.symm.trans has) Bool.false_ne_true, nofun⟩ (fun b has => ?_)
    rfl rfl
  · have other : h' ≠ h := by
      rintro rfl
      exact away own
    have same : (q.setNext h .null).mem h' = q.mem h' := Function.update_of_ne other ..
    exact same ▸ .refl _
  · rw [now] at has
    cases has
  · have null' : (frame t).newitem = .null := null
    rw [new] at null'
    cases null'
  · obtain ⟨-, new'⟩ := spare_eq.mp has
    obtain rfl : h = b := Ref.handle.inj (new.symm.trans new')
    have hand := inv.hands t inside on h own
    have there : (q.setNext h .null).mem h = { q.mem h with next := .null } :=
      Function.update_self ..
    refine ⟨⟨hand.used, hand.apart, fun _ => ?_, ?_⟩, .inl own⟩
    · rw [there]
      exact hand.avail (now ▸ rfl)
    · rw [there]
      exact hand.lock

/-- The end of `tmpi_rdch_free` for `newitem`. -/
theorem Inv.discard (inv : Inv n r q frame chain pos freed) (inside : t < n)
    (on : (frame t).On r) (now : (frame t).line = .discard)
    (new : (frame t).newitem = .handle h) :
    Inv n r (q.setUse h false) (Function.update frame t ((frame t).goto .awaitLock)) chain pos
      freed := by
  have placed := inv.placed t inside on
  have sees := inv.sees t inside on
  have on' : ((frame t).goto .awaitLock).On r := ⟨nofun, on.2⟩
  have own : (frame t).spare = some h := spare_eq.mpr ⟨now ▸ rfl, new⟩
  refine inv.hand inside on on' (fun _ _ _ => .refl _) (fun h' used away => ?_) rfl rfl (now ▸ rfl)
    (fun has => ?_) rfl ⟨fun _ => sees.waiting (now ▸ rfl), nofun, nofun, nofun, nofun, nofun⟩
    (.plain placed.item (placed.not_first (now ▸ rfl)) nofun rfl rfl nofun nofun) nofun rfl rfl
  · have other : h' ≠ h := by
      rintro rfl
      exact away own
    exact (Function.update_of_ne other ..).trans used
  · rw [now] at has
    cases has

/-! ### Keys, links, calls -/

/-- `ukey_setval(q->key_curhandle, curitem->next)`. -/
theorem Inv.setCursor (inv : Inv n r q frame chain pos freed) (inside : t < n)
    (on : (frame t).On r) (now : (frame t).line = .setCursor) :
    Inv n r (q.setCursor t (q.mem (frame t).curitem).next)
      (Function.update frame t ((frame t).goto .bumpLock)) chain pos freed := by
  have placed := inv.placed t inside on
  have sees := inv.sees t inside on
  have cell := inv.cells _ _ (inv.live inside on)
  have late := sees.published (now ▸ rfl)
  have on' : ((frame t).goto .bumpLock).On r := ⟨nofun, on.2⟩
  refine inv.quiet inside on on' (fun _ => .refl _) rfl
    (fun u away => Function.update_of_ne away ..) (.inl rfl) (now ▸ rfl) (now ▸ rfl) rfl
    ⟨nofun, nofun, fun _ => late, nofun, nofun, nofun⟩
    (.plain placed.item (placed.not_first (now ▸ rfl)) nofun rfl rfl (fun _ => ?_) nofun) nofun
    nofun nofun
  exact (Function.update_self ..).trans (cell.next late)

theorem passed_eq_false {u : Nat} (out : passed r frame pos k u = false) :
    pos u ≤ k ∧ (pos u = k → (frame u).contributed r = false) := by
  rw [passed, Bool.or_eq_false_iff, Bool.and_eq_false_iff] at out
  refine ⟨Nat.le_of_not_lt (of_decide_eq_false out.1), fun level => ?_⟩
  exact out.2.resolve_left fun other => of_decide_eq_false other level

theorem Line.publishing_or_published {l : Line} (linked : l.linked = true) :
    l.publishing = true ∨ l.published = true := by
  cases l <;> first | exact .inl rfl | exact .inr rfl | cases linked

theorem Line.published_of_moved {l : Line} (moved : l.moved = true) : l.published = true := by
  cases l <;> first | rfl | cases moved

theorem Line.published_of_gathering {l : Line} (gathering : l.gathering = true) :
    l.published = true := by
  cases l <;> first | rfl | cases gathering

theorem refAt_append {l : List Nat} (below : k < chain.length) :
    refAt (chain ++ l) k = refAt chain k := by
  rw [refAt, List.getElem?_append_left below, refAt]

theorem refAt_target {ref : Ref} (some' : ref ≠ .null) :
    refAt (chain ++ ref.target.toList) chain.length = ref := by
  rw [refAt, List.getElem?_append_right le_rfl, Nat.sub_self]
  cases ref with
  | null => exact absurd rfl some'
  | failed | handle => rfl

/-- What is live after the link was so before it, or has been allocated. -/
theorem Live.append {ref : Ref} (live : Live (chain ++ ref.target.toList) freed k h) :
    Live chain freed k h ∨ k = chain.length ∧ ref = .handle h := by
  obtain ⟨at', kept⟩ := live
  by_cases below : k < chain.length
  · rw [List.getElem?_append_left below] at at'
    exact .inl ⟨at', kept⟩
  · rw [List.getElem?_append_right (Nat.le_of_not_lt below)] at at'
    cases ref with
    | null | failed => cases at'
    | handle b =>
        have zero : k - chain.length = 0 := by
          by_contra more
          have out : [b][k - chain.length]? = none :=
            List.getElem?_eq_none (by simp only [List.length_singleton]; omega)
          cases out.symm.trans at'
        have here : [b][k - chain.length]? = some h := at'
        rw [zero, List.getElem?_cons_zero, Option.some.injEq] at here
        exact .inr ⟨by omega, here ▸ rfl⟩

/-- `curitem->next=newitem`. -/
theorem Inv.link (inv : Inv n r q frame chain pos freed) (inside : t < n) (on : (frame t).On r)
    (now : (frame t).line = .link) :
    Inv n r (q.setNext (frame t).curitem (frame t).newitem)
      (Function.update frame t ((frame t).goto .setData))
      (chain ++ (frame t).newitem.target.toList) pos freed := by
  have placed := inv.placed t inside on
  have live := inv.live inside on
  have cell := inv.cells _ _ live
  have last := placed.unlinked now
  have zero := (inv.sees t inside on).publishing (now ▸ rfl)
  have new := placed.prepared (now ▸ rfl)
  have on' : ((frame t).goto .setData).On r := ⟨nofun, on.2⟩
  have there : (q.setNext (frame t).curitem (frame t).newitem).mem (frame t).curitem =
      { q.mem (frame t).curitem with next := (frame t).newitem } := Function.update_self ..
  have elsewhere : ∀ h, h ≠ (frame t).curitem →
      Alike (q.mem h) ((q.setNext (frame t).curitem (frame t).newitem).mem h) := by
    intro h away
    have same : (q.setNext (frame t).curitem (frame t).newitem).mem h = q.mem h :=
      Function.update_of_ne away ..
    exact same ▸ .refl _
  have on_update : ∀ u, u ≠ t →
      Function.update frame t ((frame t).goto .setData) u = frame u :=
    fun u away => Function.update_of_ne away _ _
  have behind : ∀ u < n, pos u ≤ pos t := fun u low =>
    (passed_eq_false (cell.early zero.le u low)).1
  -- at this handle, the others wait
  have waiting : ∀ u < n, u ≠ t → (frame u).On r → pos u = pos t →
      (frame u).line.publishing = false ∧ (frame u).line.published = false := by
    intro u low away onU level
    constructor
    · by_contra going
      exact away (inv.publishing t inside on (now ▸ rfl) u low onU
        (Bool.eq_true_of_not_eq_false going) level)
    · by_contra late
      have sees := (inv.sees u low onU).published (Bool.eq_true_of_not_eq_false late)
      rw [inv.same_item inside on low onU level, zero] at sees
      exact lt_irrefl _ sees
  have counted : ∀ k u, passed r (Function.update frame t ((frame t).goto .setData)) pos k u =
      passed r frame pos k u := by
    intro k u
    refine passed_stay (fun _ => ?_) u
    rw [Frame.contributed, Frame.contributed, now]
    rfl
  constructor
  · intro u low onU
    by_cases self : u = t
    · subst self
      rw [Function.update_self]
      refine ⟨nofun, fun _ => ?_, nofun, nofun, fun _ => ?_, nofun⟩
      · exact (congrArg RDCHandle.avail there).trans zero
      · rw [last, refAt_target new]
        exact congrArg RDCHandle.next there
    · rw [on_update u self] at onU ⊢
      have seen := inv.sees u low onU
      by_cases level : pos u = pos t
      · obtain ⟨going, late⟩ := waiting u low self onU level
        rw [inv.same_item inside on low onU level, there]
        rw [inv.same_item inside on low onU level] at seen
        refine ⟨seen.waiting, seen.publishing, seen.published, seen.loaded, fun linked => ?_,
          seen.locked⟩
        rcases Line.publishing_or_published linked with also | also
        · rw [going] at also
          cases also
        · rw [late] at also
          cases also
      · have away : (frame u).curitem ≠ (frame t).curitem := by
          intro same
          exact level (inv.distinct _ _ _ (same ▸ inv.live low onU) live)
        have before := seen.alike (elsewhere _ away)
        have low := behind u low
        exact ⟨before.waiting, before.publishing, before.published, before.loaded,
          fun linked => (before.linked linked).trans (refAt_append (by omega)).symm,
          before.locked⟩
  · intro u low onU
    by_cases self : u = t
    · subst self
      rw [Function.update_self]
      have first := placed.not_first (now ▸ rfl)
      refine ⟨?_, nofun, nofun, fun _ => ?_, nofun,
        fun has => absurd (first.symm.trans has) Bool.false_ne_true, nofun⟩
      · exact (List.getElem?_append_left (by omega)).trans placed.item
      · rw [last]
        exact (refAt_target new).symm
    · rw [on_update u self] at onU ⊢
      have kept := inv.placed u low onU
      have below := behind u low
      -- with the next handle in its hands, a thread is not at this one
      have earlier : (frame u).line.published = true ∨ (frame u).line.linked = true →
          pos u + 1 < chain.length := by
        intro has
        by_contra more
        have level : pos u = pos t := by omega
        obtain ⟨going, late⟩ := waiting u low self onU level
        have published := has.elim .inr Line.publishing_or_published
        rw [going, late] at published
        exact published.elim nofun nofun
      refine ⟨?_, fun link => ?_, kept.prepared, fun has => ?_, fun moved first => ?_, kept.first,
        kept.root⟩
      · exact (List.getElem?_append_left (by omega)).trans kept.item
      · have level : pos u = pos t := by
          have := kept.unlinked link
          omega
        have going := (waiting u low self onU level).1
        rw [link] at going
        cases going
      · have short := earlier (has.elim .inr fun first =>
          .inl (Line.published_of_gathering (kept.first first)))
        exact (kept.newitem has).trans (refAt_append short).symm
      · have short := earlier (.inl (Line.published_of_moved moved))
        exact (kept.cursor moved first).trans (refAt_append short).symm
  · intro u low onU b has
    by_cases self : u = t
    · subst self
      rw [Function.update_self] at has
      cases has
    · rw [on_update u self] at onU has ⊢
      have hand := inv.hands u low onU b has
      have away : b ≠ (frame t).curitem := by
        rintro rfl
        exact hand.apart _ live
      have alike := elsewhere b away
      refine ⟨hand.used, fun j lives => ?_, fun reset => alike.avail.trans (hand.avail reset),
        alike.lock.trans hand.lock⟩
      rcases lives.append with before | ⟨-, own⟩
      · exact hand.apart j before
      · exact self (inv.spares t inside on u low onU b (spare_eq.mpr ⟨now ▸ rfl, own⟩) has)
  · intro u low away
    have self : u ≠ t := by
      rintro rfl
      rw [Function.update_self] at away
      exact away on'
    rw [on_update u self] at away
    have below := behind u low
    rw [refAt_append (by omega), refAt_append (by omega)]
    exact inv.away u low away
  · exact inv.behind
  · intro k h lives
    rcases lives.append with before | ⟨-, own⟩
    · exact inv.used k h before
    · exact (inv.hands t inside on h (spare_eq.mpr ⟨now ▸ rfl, own⟩)).used
  · intro j k h livesJ livesK
    rcases livesJ.append with beforeJ | ⟨endJ, ownJ⟩
    · rcases livesK.append with beforeK | ⟨endK, ownK⟩
      · exact inv.distinct j k h beforeJ beforeK
      · exact absurd beforeJ ((inv.hands t inside on h (spare_eq.mpr ⟨now ▸ rfl, ownK⟩)).apart j)
    · rcases livesK.append with beforeK | ⟨endK, ownK⟩
      · exact absurd beforeK ((inv.hands t inside on h (spare_eq.mpr ⟨now ▸ rfl, ownJ⟩)).apart k)
      · exact endJ.trans endK.symm
  · intro k h lives
    have owns : ∀ u, Owns n r frame pos k u →
        Owns n r (Function.update frame t ((frame t).goto .setData)) pos k u := by
      intro u has
      apply has.update_of_ne
      rintro rfl
      have locked := has.2.2.2
      rw [now] at locked
      cases locked
    rw [funext (counted k)]
    rcases lives.append with before | ⟨ends, own⟩
    · have held := inv.cells k h before
      by_cases same : h = (frame t).curitem
      · subst same
        obtain rfl := inv.distinct _ _ _ before live
        rw [there]
        refine ⟨held.low, fun free => ?_, held.early, held.count, fun late => ?_,
          fun u has => owns u (held.owner u has)⟩
        · have free' : (q.mem (frame t).curitem).avail = -1 := free
          rw [zero] at free'
          cases free'
        · have late' : 0 < (q.mem (frame t).curitem).avail := late
          rw [zero] at late'
          exact absurd late' (lt_irrefl 0)
      · have alike := elsewhere h same
        have inside' : k < chain.length := (List.getElem?_eq_some_iff.mp before.1).1
        have other : k ≠ pos t := by
          rintro rfl
          exact same (Option.some.inj (before.1.symm.trans live.1))
        have kept := held.alike alike (fun _ _ => rfl) fun u _ => owns u
        refine ⟨kept.low, fun free => ?_, kept.early, kept.count, fun late => ?_, kept.owner⟩
        · have := kept.unclaimed free
          omega
        · exact (kept.next late).trans (refAt_append (by omega)).symm
    · have hand := inv.hands t inside on h (spare_eq.mpr ⟨now ▸ rfl, own⟩)
      have away : h ≠ (frame t).curitem := by
        rintro rfl
        exact hand.apart _ live
      have alike := elsewhere h away
      have free := alike.avail.trans (hand.avail (now ▸ rfl))
      refine ⟨free.ge, fun _ => ?_, fun _ u low => ?_, fun late => ?_, fun late => ?_,
        fun u has => ?_⟩
      · rw [own, List.length_append, ends]
        rfl
      · have below := behind u low
        rw [passed, decide_eq_false (by omega), decide_eq_false (by omega)]
        rfl
      · rw [free] at late
        exact absurd late (by decide)
      · rw [free] at late
        exact absurd late (by decide)
      · rw [alike.lock, hand.lock] at has
        cases has
  · intro u low onU last'
    by_cases self : u = t
    · subst self
      rw [Function.update_self] at last'
      cases last'
    · rw [on_update u self] at onU last'
      exact inv.alone u low onU last'
  · intro u low onU going w low' onW going' level
    have still : ∀ v, (Function.update frame t ((frame t).goto .setData) v).On r →
        (Function.update frame t ((frame t).goto .setData) v).line.publishing = true →
        (frame v).On r ∧ (frame v).line.publishing = true := by
      intro v onV goes
      by_cases self : v = t
      · subst self
        exact ⟨on, now ▸ rfl⟩
      · rw [on_update v self] at onV goes
        exact ⟨onV, goes⟩
    obtain ⟨onU', goesU⟩ := still u onU going
    obtain ⟨onW', goesW⟩ := still w onW going'
    exact inv.publishing u low onU' goesU w low' onW' goesW level
  · intro u low onU w low' onW b hasU hasW
    by_cases selfU : u = t
    · subst selfU
      rw [Function.update_self] at hasU
      cases hasU
    · by_cases selfW : w = t
      · subst selfW
        rw [Function.update_self] at hasW
        cases hasW
      · rw [on_update u selfU] at onU hasU
        rw [on_update w selfW] at onW hasW
        exact inv.spares u low onU w low' onW b hasU hasW

theorem Line.contributed_not_idle {l : Line} (has : l.contributed = true) : l ≠ .idle := by
  rintro rfl
  cases has

theorem Frame.not_on (off : ¬ f.On r) : f.contributed r = false := by
  rw [Frame.contributed, Bool.and_eq_false_iff]
  by_contra has
  rw [not_or, Bool.not_eq_false, Bool.not_eq_false] at has
  exact off ⟨Line.contributed_not_idle has.2, of_decide_eq_true has.1⟩

/-- A thread returns, with its key at the next handle. -/
theorem Inv.leave (inv : Inv n r q frame chain pos freed) (inside : t < n) (on : (frame t).On r)
    (off : ¬ f'.On r) {freed' : Nat → Prop} (counted : (frame t).line.contributed = true)
    (elsewhere : ∀ h, h ≠ (frame t).curitem → q'.mem h = q.mem h)
    (avail : (q'.mem (frame t).curitem).avail = (q.mem (frame t).curitem).avail)
    (next : (q'.mem (frame t).curitem).next = (q.mem (frame t).curitem).next)
    (lock : ∀ u, (q'.mem (frame t).curitem).lock = some u ↔
      (q.mem (frame t).curitem).lock = some u ∧ u ≠ t)
    (use : ∀ h, q.inUse h = true → h ≠ (frame t).curitem ∨ ¬ freed' (pos t) → q'.inUse h = true)
    (own : q'.cursor t = refAt chain (pos t + 1)) (cursor : ∀ u, u ≠ t → q'.cursor u = q.cursor u)
    (first : q'.first = q.first) (kept : ∀ k, freed k → freed' k)
    (gone : ∀ k, freed' k → freed k ∨ k = pos t ∧ ∀ u < n, u ≠ t → pos t < pos u) :
    Inv n r q' (Function.update frame t f') chain (Function.update pos t (pos t + 1)) freed' := by
  have live := inv.live inside on
  have on_update : ∀ u, u ≠ t → Function.update frame t f' u = frame u :=
    fun u away => Function.update_of_ne away _ _
  have pos_update : ∀ u, u ≠ t → Function.update pos t (pos t + 1) u = pos u :=
    fun u away => Function.update_of_ne away _ _
  have ahead : ∀ u, pos u ≤ Function.update pos t (pos t + 1) u := by
    intro u
    by_cases self : u = t
    · subst self
      rw [Function.update_self]
      exact Nat.le_succ _
    · rw [pos_update u self]
  have staying : ∀ u, (Function.update frame t f' u).On r → u ≠ t := by
    rintro u onU rfl
    rw [Function.update_self] at onU
    exact off onU
  have same : ∀ k u, passed r (Function.update frame t f') (Function.update pos t (pos t + 1)) k u =
      passed r frame pos k u := by
    intro k u
    by_cases self : u = t
    · subst self
      have mine : (frame u).contributed r = true := by
        rw [Frame.contributed, counted, decide_eq_true on.2]
        rfl
      rw [passed, passed, Function.update_self, Function.update_self, Frame.not_on off, mine,
        Bool.and_false, Bool.or_false, Bool.and_true, ← Bool.decide_or]
      exact decide_eq_decide.mpr (by omega)
    · exact passed_update_of_ne self (pos_update u self)
  have lives : ∀ k h, Live chain freed' k h → Live chain freed k h :=
    fun k h has => ⟨has.1, fun before => has.2 (kept k before)⟩
  constructor
  · intro u low onU
    have self := staying u onU
    rw [on_update u self] at onU ⊢
    rw [pos_update u self]
    have seen := inv.sees u low onU
    by_cases item : (frame u).curitem = (frame t).curitem
    · rw [item] at seen ⊢
      exact ⟨fun now => avail ▸ seen.waiting now, fun now => avail ▸ seen.publishing now,
        fun now => avail ▸ seen.published now, fun now => avail ▸ seen.loaded now,
        fun now => next ▸ seen.linked now, fun now => (lock u).mpr ⟨seen.locked now, self⟩⟩
    · rw [elsewhere _ item]
      exact seen
  · intro u low onU
    have self := staying u onU
    rw [on_update u self] at onU ⊢
    rw [pos_update u self, cursor u self]
    exact inv.placed u low onU
  · intro u low onU b has
    have self := staying u onU
    rw [on_update u self] at onU has ⊢
    have hand := inv.hands u low onU b has
    have away : b ≠ (frame t).curitem := by
      rintro rfl
      exact hand.apart _ live
    refine ⟨use b hand.used (.inl away), fun j has => hand.apart j (lives j b has), fun now => ?_, ?_⟩
    · rw [elsewhere b away]
      exact hand.avail now
    · rw [elsewhere b away]
      exact hand.lock
  · intro u low offU
    by_cases self : u = t
    · subst self
      rw [Function.update_self]
      exact .inl own
    · rw [on_update u self] at offU
      rw [pos_update u self, cursor u self, first]
      exact inv.away u low offU
  · intro k has u low
    rcases gone k has with before | ⟨rfl, alone⟩
    · exact lt_of_lt_of_le (inv.behind k before u low) (ahead u)
    · by_cases self : u = t
      · subst self
        rw [Function.update_self]
        exact Nat.lt_succ_self _
      · rw [pos_update u self]
        exact alone u low self
  · intro k h has
    have before := lives k h has
    refine use h (inv.used k h before) ?_
    by_cases item : h = (frame t).curitem
    · subst item
      have level := inv.distinct _ _ _ before live
      exact .inr (level ▸ has.2)
    · exact .inl item
  · exact fun j k h hasJ hasK => inv.distinct j k h (lives j h hasJ) (lives k h hasK)
  · intro k h has
    have cell := inv.cells k h (lives k h has)
    have owns : ∀ u, u ≠ t → Owns n r frame pos k u → Owns n r (Function.update frame t f')
        (Function.update pos t (pos t + 1)) k u := by
      intro u self has
      rw [Owns, on_update u self, pos_update u self]
      exact has
    rw [funext (same k)]
    by_cases item : h = (frame t).curitem
    · subst item
      refine ⟨avail ▸ cell.low, fun now => cell.unclaimed (avail ▸ now),
        fun now => cell.early (avail ▸ now), fun now => avail ▸ cell.count (avail ▸ now),
        fun now => next ▸ cell.next (avail ▸ now), fun u locked => ?_⟩
      obtain ⟨before, self⟩ := (lock u).mp locked
      exact owns u self (cell.owner u before)
    · rw [elsewhere h item]
      refine ⟨cell.low, cell.unclaimed, cell.early, cell.count, cell.next, fun u locked => ?_⟩
      have before := cell.owner u locked
      refine owns u ?_ before
      rintro rfl
      obtain ⟨-, -, level, -⟩ := before
      subst level
      exact item (Option.some.inj ((lives _ h has).1.symm.trans live.1))
  · intro u low onU last w low' away
    have self := staying u onU
    rw [on_update u self] at onU last
    rw [pos_update u self]
    exact lt_of_lt_of_le (inv.alone u low onU last w low' away) (ahead w)
  · intro u low onU going w low' onW going' level
    have selfU := staying u onU
    have selfW := staying w onW
    rw [on_update u selfU] at onU going
    rw [on_update w selfW] at onW going'
    rw [pos_update u selfU, pos_update w selfW] at level
    exact inv.publishing u low onU going w low' onW going' level
  · intro u low onU w low' onW b hasU hasW
    have selfU := staying u onU
    have selfW := staying w onW
    rw [on_update u selfU] at onU hasU
    rw [on_update w selfW] at onW hasW
    exact inv.spares u low onU w low' onW b hasU hasW

/-- A thread comes into a reduce of this queue, or is in one of another queue. -/
theorem Inv.outside (inv : Inv n r q frame chain pos freed) (off : ¬ (frame t).On r)
    (enters : f'.On r →
      f'.line = .look ∧ f'.isFirst = false ∧ chain[pos t]? = some f'.curitem) :
    Inv n r q (Function.update frame t f') chain pos freed := by
  have on_update : ∀ u, u ≠ t → Function.update frame t f' u = frame u :=
    fun u away => Function.update_of_ne away _ _
  have before : ∀ u, u ≠ t → (Function.update frame t f' u).On r → (frame u).On r :=
    fun u away onU => on_update u away ▸ onU
  have self_on : (Function.update frame t f' t).On r → f'.On r :=
    fun onT => by rwa [Function.update_self] at onT
  have same : ∀ k u, passed r (Function.update frame t f') pos k u = passed r frame pos k u := by
    refine fun k u => passed_stay (fun _ => ?_) u
    rw [Frame.not_on off]
    by_cases on' : f'.On r
    · rw [Frame.contributed, (enters on').1]
      exact Bool.and_false _
    · exact Frame.not_on on'
  constructor
  · intro u low onU
    by_cases self : u = t
    · subst self
      rw [Function.update_self]
      obtain ⟨line, -, -⟩ := enters (self_on onU)
      constructor <;> rw [line] <;> nofun
    · rw [on_update u self]
      exact inv.sees u low (before u self onU)
  · intro u low onU
    by_cases self : u = t
    · subst self
      rw [Function.update_self]
      obtain ⟨line, first, item⟩ := enters (self_on onU)
      refine .plain item first ?_ ?_ ?_ ?_ ?_ <;> rw [line]
      all_goals first | rfl | nofun
    · rw [on_update u self]
      exact inv.placed u low (before u self onU)
  · intro u low onU b has
    by_cases self : u = t
    · subst self
      rw [Function.update_self] at has
      have spare := (spare_eq.mp has).1
      rw [(enters (self_on onU)).1] at spare
      cases spare
    · rw [on_update u self] at has ⊢
      exact inv.hands u low (before u self onU) b has
  · intro u low offU
    by_cases self : u = t
    · subst self
      exact inv.away u low off
    · rw [on_update u self] at offU
      exact inv.away u low offU
  · exact inv.behind
  · exact inv.used
  · exact inv.distinct
  · intro k h live
    refine (inv.cells k h live).alike (.refl _) (fun u _ => same k u) fun u _ has => ?_
    apply has.update_of_ne
    rintro rfl
    exact off has.2.1
  · intro u low onU last
    by_cases self : u = t
    · subst self
      rw [Function.update_self, (enters (self_on onU)).1] at last
      cases last
    · rw [on_update u self] at last
      exact inv.alone u low (before u self onU) last
  · intro u low onU going w low' onW going' level
    have away : ∀ v, (Function.update frame t f' v).On r →
        (Function.update frame t f' v).line.publishing = true → v ≠ t := by
      rintro v onV goes rfl
      rw [Function.update_self, (enters (self_on onV)).1] at goes
      cases goes
    have selfU := away u onU going
    have selfW := away w onW going'
    rw [on_update u selfU] at going
    rw [on_update w selfW] at going'
    exact inv.publishing u low (before u selfU onU) going w low' (before w selfW onW) going' level
  · intro u low onU w low' onW b hasU hasW
    have away : ∀ v, (Function.update frame t f' v).On r →
        (Function.update frame t f' v).spare = some b → v ≠ t := by
      rintro v onV has rfl
      have spare := (spare_eq.mp has).1
      rw [Function.update_self, (enters (self_on onV)).1] at spare
      cases spare
    have selfU := away u onU hasU
    have selfW := away w onW hasW
    rw [on_update u selfU] at hasU
    rw [on_update w selfW] at hasW
    exact inv.spares u low (before u selfU onU) w low' (before w selfW onW) b hasU hasW

/-! ### The steps of a reduce -/

theorem Line.gathering_or_locked {l : Line} (counted : l.contributed = true) :
    l.gathering = true ∨ l.locked = true := by
  cases l <;> first | exact .inl rfl | exact .inr rfl | cases counted

/-- When all threads are in `avail` and nobody else has the mutex, the others are behind the root's
reduce. -/
theorem Inv.all_ahead (inv : Inv n r q frame chain pos freed) (inside : t < n)
    (on : (frame t).On r) (root : t = r) (full : (q.mem (frame t).curitem).avail = n)
    (unheld : ∀ u, u ≠ t → (q.mem (frame t).curitem).lock ≠ some u) :
    ∀ u < n, u ≠ t → pos t < pos u := by
  intro u low away
  have cell := inv.cells _ _ (inv.live inside on)
  have late : 0 < (q.mem (frame t).curitem).avail := by
    rw [full]
    exact_mod_cast Nat.zero_lt_of_lt inside
  have whole : (threads n (passed r frame pos (pos t))).card = n := by
    have counted := cell.count late
    rw [full] at counted
    exact_mod_cast counted.symm
  have counted : passed r frame pos (pos t) u = true := threads_all whole u low
  rw [passed, Bool.or_eq_true, Bool.and_eq_true, decide_eq_true_iff, decide_eq_true_iff] at counted
  rcases counted with ahead | ⟨level, contributed⟩
  · exact ahead
  · rw [Frame.contributed, Bool.and_eq_true, decide_eq_true_iff] at contributed
    have onU : (frame u).On r := ⟨Line.contributed_not_idle contributed.2, contributed.1⟩
    rcases Line.gathering_or_locked contributed.2 with gathering | locked
    · exact absurd (((inv.placed u low onU).root gathering).trans root.symm) away
    · have held := (inv.sees u low onU).locked locked
      rw [inv.same_item inside on low onU level] at held
      exact absurd held (unheld u away)

/-- A step to a line where nothing new is known. -/
theorem Inv.goes (inv : Inv n r q frame chain pos freed) (inside : t < n) (on : (frame t).On r)
    {l line : Line} (now : (frame t).line = l) (onward : l.onward line = true)
    (locked : line.locked = l.locked) :
    Inv n r q (Function.update frame t ((frame t).goto line)) chain pos freed :=
  inv.onward inside on now ⟨rfl, rfl, rfl, rfl⟩ onward locked (fun _ => .refl _) rfl rfl (.inl rfl)

theorem alike_setData (q : RDCQueue) (item : Nat) (data : Option Ints) (h : Nat) :
    Alike (q.mem h) ((q.setData item data).mem h) := by
  by_cases same : h = item
  · subst same
    have there : (q.setData h data).mem h = { q.mem h with data } := Function.update_self ..
    exact there ▸ ⟨rfl, rfl, rfl⟩
  · have there : (q.setData item data).mem h = q.mem h := Function.update_of_ne same ..
    exact there ▸ .refl _

theorem alike_setCount (q : RDCQueue) (item count h : Nat) :
    Alike (q.mem h) ((q.setCount item count).mem h) := by
  by_cases same : h = item
  · subst same
    have there : (q.setCount h count).mem h = { q.mem h with count } := Function.update_self ..
    exact there ▸ ⟨rfl, rfl, rfl⟩
  · have there : (q.setCount item count).mem h = q.mem h := Function.update_of_ne same ..
    exact there ▸ .refl _

/-- A thread finds that another one has been the first. -/
theorem Inv.late (inv : Inv n r q frame chain pos freed) (inside : t < n) (on : (frame t).On r)
    {line : Line} (claimed : (q.mem (frame t).curitem).avail ≠ -1)
    (before : (frame t).line = .look ∧ line = .awaitLock ∨
      (frame t).line = .claim ∧ (line = .awaitLock ∨ line = .discardMutex)) :
    Inv n r q (Function.update frame t ((frame t).goto line)) chain pos freed := by
  have placed := inv.placed t inside on
  have low := (inv.cells _ _ (inv.live inside on)).low
  have zero : 0 ≤ (q.mem (frame t).curitem).avail := by omega
  have first : (frame t).isFirst = false := by
    apply placed.not_first
    rcases before with ⟨now, -⟩ | ⟨now, -⟩ <;> rw [now] <;> rfl
  rcases before with ⟨now, rfl⟩ | ⟨now, rfl | rfl⟩
  · have on' : ((frame t).goto .awaitLock).On r := ⟨nofun, on.2⟩
    exact inv.quiet inside on on' (fun _ => .refl _) rfl (fun _ _ => rfl) (.inl rfl) (now ▸ rfl)
      (now ▸ rfl) rfl ⟨fun _ => zero, nofun, nofun, nofun, nofun, nofun⟩
      (.plain placed.item first nofun rfl rfl nofun nofun) nofun nofun nofun
  · have on' : ((frame t).goto .awaitLock).On r := ⟨nofun, on.2⟩
    exact inv.quiet inside on on' (fun _ => .refl _) rfl (fun _ _ => rfl) (.inl rfl) (now ▸ rfl)
      (now ▸ rfl) rfl ⟨fun _ => zero, nofun, nofun, nofun, nofun, nofun⟩
      (.plain placed.item first nofun rfl rfl nofun nofun) nofun nofun nofun
  · have on' : ((frame t).goto .discardMutex).On r := ⟨nofun, on.2⟩
    refine inv.quiet inside on on' (fun _ => .refl _) rfl (fun _ _ => rfl) (.inl rfl) (now ▸ rfl)
      (now ▸ rfl) rfl ⟨fun _ => zero, nofun, nofun, nofun, nofun, nofun⟩
      (.plain placed.item first nofun rfl rfl nofun nofun) (fun b has => ?_) nofun nofun
    exact ⟨spare_eq.mpr ⟨now ▸ rfl, (spare_eq.mp has).2⟩, nofun⟩

/-- `tmpi_rdch_alloc` has no memory. -/
theorem Inv.alloc_fails (inv : Inv n r q frame chain pos freed) (inside : t < n)
    (on : (frame t).On r) (now : (frame t).line = .alloc) :
    Inv n r q (Function.update frame t ({ frame t with newitem := .failed }.goto .claim)) chain pos
      freed := by
  have placed := inv.placed t inside on
  have first := placed.not_first (now ▸ rfl)
  have on' : ({ frame t with newitem := .failed }.goto .claim).On r := ⟨nofun, on.2⟩
  refine inv.quiet inside on on' (fun _ => .refl _) rfl (fun _ _ => rfl) (.inl rfl) (now ▸ rfl)
    (now ▸ rfl) rfl ⟨nofun, nofun, nofun, nofun, nofun, nofun⟩ ?_ (fun b has => ?_) nofun nofun
  · exact ⟨placed.item, nofun, fun _ => nofun,
      fun has => (has.elim nofun fun has => absurd (first.symm.trans has) Bool.false_ne_true), nofun,
      fun has => absurd (first.symm.trans has) Bool.false_ne_true, nofun⟩
  · cases (spare_eq.mp has).2

/-- The wait for the first thread is over. -/
theorem Inv.awaited (inv : Inv n r q frame chain pos freed) (inside : t < n) (on : (frame t).On r)
    (now : (frame t).line = .awaitTest) (set : (q.mem (frame t).curitem).avail ≠ 0) :
    Inv n r q (Function.update frame t ((frame t).goto .awaitUnlock)) chain pos freed := by
  have placed := inv.placed t inside on
  have sees := inv.sees t inside on
  have low := sees.waiting (now ▸ rfl)
  have on' : ((frame t).goto .awaitUnlock).On r := ⟨nofun, on.2⟩
  exact inv.quiet inside on on' (fun _ => .refl _) rfl (fun _ _ => rfl) (.inl rfl) (now ▸ rfl)
    (now ▸ rfl) rfl
    ⟨nofun, nofun, fun _ => lt_of_le_of_ne low set.symm, nofun, nofun,
      fun _ => sees.locked (now ▸ rfl)⟩
    (.plain placed.item (placed.not_first (now ▸ rfl)) nofun rfl rfl nofun nofun) nofun nofun nofun

theorem Inv.bumpLoad (inv : Inv n r q frame chain pos freed) (inside : t < n) (on : (frame t).On r)
    (now : (frame t).line = .bumpLoad) :
    Inv n r q (Function.update frame t
      ({ frame t with avail := (q.mem (frame t).curitem).avail }.goto .bumpStore)) chain pos
      freed := by
  have placed := inv.placed t inside on
  have sees := inv.sees t inside on
  have first := placed.not_first (now ▸ rfl)
  have on' : ({ frame t with avail := (q.mem (frame t).curitem).avail }.goto .bumpStore).On r :=
    ⟨nofun, on.2⟩
  exact inv.quiet inside on on' (fun _ => .refl _) rfl (fun _ _ => rfl) (.inl rfl) (now ▸ rfl)
    (now ▸ rfl) rfl
    ⟨nofun, nofun, fun _ => sees.published (now ▸ rfl), fun _ => rfl, nofun,
      fun _ => sees.locked (now ▸ rfl)⟩
    (.plain placed.item first nofun rfl rfl (fun _ => placed.cursor (now ▸ rfl) first) nofun) nofun
    nofun nofun

/-- The root has seen that all threads are in `avail`. -/
theorem Inv.lastSeen (inv : Inv n r q frame chain pos freed) (inside : t < n) (on : (frame t).On r)
    (same : (frame t).Same f')
    (before : (frame t).line = .peek ∧ (f'.line = .copy ∨ f'.line = .loadNext) ∨
      (frame t).line = .gatherTest ∧ f'.line = .gatherUnlock)
    (full : (q.mem (frame t).curitem).avail = n)
    (unheld : (frame t).line = .peek → (q.mem (frame t).curitem).lock = none) :
    Inv n r q (Function.update frame t f') chain pos freed := by
  have placed := inv.placed t inside on
  have sees := inv.sees t inside on
  have gathering : (frame t).line.gathering = true := by
    rcases before with ⟨now, -⟩ | ⟨now, -⟩ <;> rw [now] <;> rfl
  have root := placed.root gathering
  have ahead := inv.all_ahead inside on root full (by
    rintro u away held
    rcases before with ⟨now, -⟩ | ⟨now, -⟩
    · rw [unheld now] at held
      cases held
    · rw [sees.locked (now ▸ rfl)] at held
      exact away (Option.some.inj held).symm)
  have late := sees.published (Line.published_of_gathering gathering)
  have lines : f'.line = .copy ∨ f'.line = .loadNext ∨ f'.line = .gatherUnlock := by
    rcases before with ⟨-, now | now⟩ | ⟨-, now⟩
    · exact .inl now
    · exact .inr (.inl now)
    · exact .inr (.inr now)
  have on' : f'.On r := by
    refine ⟨?_, same.root.trans on.2⟩
    rcases lines with now | now | now <;> rw [now] <;> nofun
  have gathering' : f'.line.gathering = true := by
    rcases lines with now | now | now <;> rw [now] <;> rfl
  have moved : (frame t).line.moved = true := by
    rcases before with ⟨now, -⟩ | ⟨now, -⟩ <;> rw [now] <;> rfl
  refine inv.quiet inside on on' (fun _ => .refl _) rfl (fun _ _ => rfl) (.inl rfl) ?_ ?_ same.item
    ?_ ?_ (fun b has => ?_) (fun _ => .inr ahead) fun has => ?_
  · rcases before with ⟨now, now' | now'⟩ | ⟨now, now'⟩ <;> rw [now, now'] <;> rfl
  · rcases before with ⟨now, now' | now'⟩ | ⟨now, now'⟩ <;> rw [now, now'] <;> rfl
  · refine ⟨fun has => ?_, fun has => ?_, fun _ => late, fun has => ?_, fun has => ?_,
      fun has => ?_⟩
    · rcases lines with now | now | now <;> rw [now] at has <;> cases has
    · rcases lines with now | now | now <;> rw [now] at has <;> cases has
    · rcases lines with now | now | now <;> rw [now] at has <;> cases has
    · rcases lines with now | now | now <;> rw [now] at has <;> cases has
    · rcases before with ⟨-, now' | now'⟩ | ⟨now, -⟩
      · rw [now'] at has
        cases has
      · rw [now'] at has
        cases has
      · exact sees.locked (now ▸ rfl)
  · refine ⟨same.item ▸ placed.item, fun has => ?_, fun has => ?_, fun has => ?_, fun _ first => ?_,
      fun _ => gathering', fun _ => root⟩
    · rcases lines with now | now | now <;> rw [now] at has <;> cases has
    · rcases lines with now | now | now <;> rw [now] at has <;> cases has
    · rw [same.newitem]
      refine placed.newitem (.inr (has.elim (fun has => ?_) (same.isFirst ▸ ·)))
      rcases lines with now | now | now <;> rw [now] at has <;> cases has
    · exact placed.cursor moved (same.isFirst ▸ first)
  · have spare := (spare_eq.mp has).1
    rcases lines with now | now | now <;> rw [now] at spare <;> cases spare
  · rcases lines with now | now | now <;> rw [now] at has <;> cases has

/-- The root unlocks before its part of the code. -/
theorem Inv.release_root (inv : Inv n r q frame chain pos freed) (inside : t < n)
    (on : (frame t).On r) (root : t = (frame t).root)
    (before : (frame t).line = .bumpUnlock ∧ f' = (frame t).goto .peek ∨
      (frame t).line = .publishUnlock ∧ f' = { frame t with isFirst := true }.goto .gatherLock) :
    Inv n r (q.setLock (frame t).curitem none) (Function.update frame t f') chain pos freed := by
  have placed := inv.placed t inside on
  have sees := inv.sees t inside on
  have mine : (q.mem (frame t).curitem).lock = some t := by
    apply sees.locked
    rcases before with ⟨now, -⟩ | ⟨now, -⟩ <;> rw [now] <;> rfl
  have late : 0 < (q.mem (frame t).curitem).avail := by
    apply sees.published
    rcases before with ⟨now, -⟩ | ⟨now, -⟩ <;> rw [now] <;> rfl
  have only : ∀ u, (q.mem (frame t).curitem).lock = some u → u = t := by
    intro u held
    rw [mine] at held
    exact (Option.some.inj held).symm
  have root' : t = r := root.trans on.2
  rcases before with ⟨now, rfl⟩ | ⟨now, rfl⟩
  · have first := placed.not_first (now ▸ rfl)
    have on' : ((frame t).goto .peek).On r := ⟨nofun, on.2⟩
    exact inv.setLock inside on on' only (fun u => nofun) (now ▸ rfl) rfl
      ⟨nofun, nofun, fun _ => late, nofun, nofun, nofun⟩
      (.plain placed.item first nofun rfl rfl (fun _ => placed.cursor (now ▸ rfl) first)
        fun _ => root') nofun nofun nofun
  · have on' : ({ frame t with isFirst := true }.goto .gatherLock).On r := ⟨nofun, on.2⟩
    exact inv.setLock inside on on' only (fun u => nofun) (now ▸ rfl) rfl
      ⟨nofun, nofun, fun _ => late, nofun, nofun, nofun⟩
      ⟨placed.item, nofun, nofun, fun _ => placed.newitem (.inl (now ▸ rfl)),
        fun _ first => absurd first.symm Bool.false_ne_true, fun _ => rfl, fun _ => root'⟩
      nofun nofun nofun

/-- A thread unlocks and returns. -/
theorem Inv.release_leave (inv : Inv n r q frame chain pos freed) (inside : t < n)
    (on : (frame t).On r) {ref : Ref} {ret : Int}
    (before : (frame t).line = .bumpUnlock ∧ ref = q.cursor t ∨
      (frame t).line = .publishUnlock ∧ ref = (frame t).newitem) :
    Inv n r ((q.setLock (frame t).curitem none).setCursor t ref)
      (Function.update frame t ((frame t).leave ret)) chain (Function.update pos t (pos t + 1))
      freed := by
  have placed := inv.placed t inside on
  have sees := inv.sees t inside on
  have off : ¬ ((frame t).leave ret).On r := fun has => has.1 rfl
  have mine : (q.mem (frame t).curitem).lock = some t := by
    apply sees.locked
    rcases before with ⟨now, -⟩ | ⟨now, -⟩ <;> rw [now] <;> rfl
  have there : ((q.setLock (frame t).curitem none).setCursor t ref).mem (frame t).curitem =
      { q.mem (frame t).curitem with lock := none } := Function.update_self ..
  refine inv.leave inside on off ?_ (fun h away => Function.update_of_ne away ..) ?_ ?_ (fun u => ?_)
    (fun _ used _ => used) ?_ (fun u away => Function.update_of_ne away ..) rfl (fun _ => id)
    fun _ => .inl
  · rcases before with ⟨now, -⟩ | ⟨now, -⟩ <;> rw [now] <;> rfl
  · rw [there]
  · rw [there]
  · rw [there, mine]
    constructor
    · exact nofun
    · rintro ⟨same, away⟩
      exact absurd (Option.some.inj same).symm away
  · refine (Function.update_self ..).trans ?_
    rcases before with ⟨now, rfl⟩ | ⟨now, rfl⟩
    · exact placed.cursor (now ▸ rfl) (placed.not_first (now ▸ rfl))
    · exact placed.newitem (.inl (now ▸ rfl))

/-- The root has freed the handle, and returns. -/
theorem Inv.free (inv : Inv n r q frame chain pos freed) (inside : t < n) (on : (frame t).On r)
    {ret : Int} (now : (frame t).line = .free) :
    Inv n r (if (frame t).isFirst then
        (q.setUse (frame t).curitem false).setCursor t (frame t).newitem
      else q.setUse (frame t).curitem false)
      (Function.update frame t ((frame t).leave ret)) chain (Function.update pos t (pos t + 1))
      (fun k => freed k ∨ k = pos t) := by
  have placed := inv.placed t inside on
  have live := inv.live inside on
  have off : ¬ ((frame t).leave ret).On r := fun has => has.1 rfl
  have ahead := inv.alone t inside on (now ▸ rfl)
  have unheld : (q.mem (frame t).curitem).lock ≠ some t := by
    intro held
    have locked := ((inv.cells _ _ live).owner t held).2.2.2
    rw [now] at locked
    cases locked
  have used : ∀ h, q.inUse h = true → h ≠ (frame t).curitem ∨ ¬ (freed (pos t) ∨ pos t = pos t) →
      Function.update q.inUse (frame t).curitem false h = true := by
    intro h inUse away
    rw [Function.update_of_ne (away.resolve_right fun has => has (.inr rfl))]
    exact inUse
  have same : ∀ u, (q.mem (frame t).curitem).lock = some u ↔
      (q.mem (frame t).curitem).lock = some u ∧ u ≠ t := by
    intro u
    constructor
    · intro held
      refine ⟨held, ?_⟩
      rintro rfl
      exact unheld held
    · exact And.left
  have gone : ∀ k, freed k ∨ k = pos t → freed k ∨ k = pos t ∧ ∀ u < n, u ≠ t → pos t < pos u :=
    fun k has => has.imp id fun level => ⟨level, ahead⟩
  split
  next first =>
    refine inv.leave inside on off (now ▸ rfl) (fun _ _ => rfl) rfl rfl same used ?_
      (fun u away => Function.update_of_ne away ..) rfl (fun _ => .inl) gone
    exact (Function.update_self ..).trans (placed.newitem (.inr first))
  next other =>
    exact inv.leave inside on off (now ▸ rfl) (fun _ _ => rfl) rfl rfl same used
      (placed.cursor (now ▸ rfl) (Bool.eq_false_of_not_eq_true other)) (fun _ _ => rfl) rfl
      (fun _ => .inl) gone

theorem acquire_eq {line : Line} (taken : acquire t q f line = some (q', f')) :
    (q.mem f.curitem).lock = none ∧ q' = q.setLock f.curitem (some t) ∧ f' = f.goto line := by
  unfold Stepwise.acquire at taken
  split at taken
  next free =>
    obtain ⟨rfl, rfl⟩ := Prod.mk.inj (Option.some.inj taken)
    exact ⟨free, rfl, rfl⟩
  next => cases taken

theorem Frame.gathered_same (f : Frame) : f.Same f.gathered := by
  unfold Frame.gathered
  split <;> exact ⟨rfl, rfl, rfl, rfl⟩

theorem Frame.gathered_line (f : Frame) :
    f.gathered.line = .copy ∨ f.gathered.line = .loadNext := by
  unfold Frame.gathered
  split
  next => exact .inl rfl
  next => exact .inr rfl

/-- The steps of the loops over the data. -/
theorem Inv.step_data (inv : Inv n r q frame chain pos freed) (inside : t < n)
    (on : (frame t).On r) {given : Option Nat}
    (loop : (frame t).line = .fill ∨ (frame t).line = .combine ∨ (frame t).line = .cas ∨
      (frame t).line = .copy)
    (taken : tmpiRdcoReduce n t q (frame t) given = some (q', f')) :
    Inv n r q' (Function.update frame t f') chain pos freed := by
  rcases loop with now | now | now | now
  · simp only [tmpiRdcoReduce, now] at taken
    split at taken
    next =>
      obtain ⟨rfl, rfl⟩ := Prod.mk.inj (Option.some.inj taken)
      exact inv.onward inside on now ⟨rfl, rfl, rfl, rfl⟩ rfl rfl (alike_setData q _ _) rfl rfl
        (.inl rfl)
    next =>
      obtain ⟨rfl, rfl⟩ := Prod.mk.inj (Option.some.inj taken)
      exact inv.goes inside on now rfl rfl
  · simp only [tmpiRdcoReduce, now] at taken
    split at taken
    next => cases taken
    next d data =>
      split at taken
      next =>
        split at taken
        next =>
          obtain ⟨rfl, rfl⟩ := Prod.mk.inj (Option.some.inj taken)
          exact inv.onward inside on now ⟨rfl, rfl, rfl, rfl⟩ rfl rfl (alike_setData q _ _) rfl
            rfl (.inl rfl)
        next =>
          split at taken
          next =>
            obtain ⟨rfl, rfl⟩ := Prod.mk.inj (Option.some.inj taken)
            exact inv.onward inside on now ⟨rfl, rfl, rfl, rfl⟩ rfl rfl (fun _ => .refl _) rfl
              rfl (.inl rfl)
          next =>
            obtain ⟨rfl, rfl⟩ := Prod.mk.inj (Option.some.inj taken)
            exact inv.onward inside on now ⟨rfl, rfl, rfl, rfl⟩ rfl rfl
              (fun _ => .refl _) rfl rfl (.inl rfl)
      next =>
        obtain ⟨rfl, rfl⟩ := Prod.mk.inj (Option.some.inj taken)
        exact inv.goes inside on now rfl rfl
  · simp only [tmpiRdcoReduce, now] at taken
    split at taken
    next => cases taken
    next d data =>
      split at taken
      next =>
        obtain ⟨rfl, rfl⟩ := Prod.mk.inj (Option.some.inj taken)
        exact inv.onward inside on now ⟨rfl, rfl, rfl, rfl⟩ rfl rfl (alike_setData q _ _)
          rfl rfl (.inl rfl)
      next =>
        obtain ⟨rfl, rfl⟩ := Prod.mk.inj (Option.some.inj taken)
        exact inv.goes inside on now rfl rfl
  · simp only [tmpiRdcoReduce, now] at taken
    split at taken
    next => cases taken
    next d data =>
      split at taken
      next =>
        obtain ⟨rfl, rfl⟩ := Prod.mk.inj (Option.some.inj taken)
        exact inv.onward inside on now ⟨rfl, rfl, rfl, rfl⟩ (congrArg (Line.onward .copy) now)
          (congrArg Line.locked now) (fun _ => .refl _) rfl rfl (.inl rfl)
      next =>
        obtain ⟨rfl, rfl⟩ := Prod.mk.inj (Option.some.inj taken)
        exact inv.goes inside on now rfl rfl

/-- A step of a thread inside a reduce to thread `r`. -/
theorem Inv.step (inv : Inv n r q frame chain pos freed) (inside : t < n) (on : (frame t).On r)
    {given : Option Nat}
    (fresh : ∀ h, given = some h → (frame t).line = .alloc → q.inUse h = false)
    (unheld : (frame t).line = .peek → (q.mem (frame t).curitem).avail = n →
      (q.mem (frame t).curitem).lock = none)
    (taken : tmpiRdcoReduce n t q (frame t) given = some (q', f')) :
    ∃ chain' pos' freed', Inv n r q' (Function.update frame t f') chain' pos' freed' := by
  cases now : (frame t).line with
  | idle => exact absurd now on.1
  | fill => exact ⟨_, _, _, inv.step_data inside on (.inl now) taken⟩
  | combine => exact ⟨_, _, _, inv.step_data inside on (.inr (.inl now)) taken⟩
  | cas => exact ⟨_, _, _, inv.step_data inside on (.inr (.inr (.inl now))) taken⟩
  | copy => exact ⟨_, _, _, inv.step_data inside on (.inr (.inr (.inr now))) taken⟩
  | look =>
      simp only [tmpiRdcoReduce, now] at taken
      obtain ⟨rfl, rfl⟩ := Prod.mk.inj (Option.some.inj taken)
      split
      next => exact ⟨_, _, _, inv.goes inside on now rfl rfl⟩
      next claimed => exact ⟨_, _, _, inv.late inside on claimed (.inl ⟨now, rfl⟩)⟩
  | alloc =>
      simp only [tmpiRdcoReduce, now] at taken
      split at taken
      next =>
        obtain ⟨rfl, rfl⟩ := Prod.mk.inj (Option.some.inj taken)
        exact ⟨_, _, _, inv.alloc_fails inside on now⟩
      next h =>
        obtain ⟨rfl, rfl⟩ := Prod.mk.inj (Option.some.inj taken)
        exact ⟨_, _, _, inv.alloc inside on now (fresh h rfl now)⟩
  | initAvail =>
      simp only [tmpiRdcoReduce, now] at taken
      split at taken
      next h new =>
        obtain ⟨rfl, rfl⟩ := Prod.mk.inj (Option.some.inj taken)
        exact ⟨_, _, _, inv.initAvail inside on now new⟩
      next => cases taken
  | initNext =>
      simp only [tmpiRdcoReduce, now] at taken
      split at taken
      next h new =>
        obtain ⟨rfl, rfl⟩ := Prod.mk.inj (Option.some.inj taken)
        exact ⟨_, _, _, inv.initNext inside on now new⟩
      next => cases taken
  | claim =>
      simp only [tmpiRdcoReduce, now] at taken
      split at taken
      next free =>
        obtain ⟨rfl, rfl⟩ := Prod.mk.inj (Option.some.inj taken)
        exact ⟨_, _, _, inv.claim inside on now free⟩
      next claimed =>
        obtain ⟨rfl, rfl⟩ := Prod.mk.inj (Option.some.inj taken)
        refine ⟨_, _, _, inv.late inside on claimed (.inr ⟨now, ?_⟩)⟩
        split
        next => exact .inl rfl
        next => exact .inr rfl
  | link =>
      simp only [tmpiRdcoReduce, now] at taken
      obtain ⟨rfl, rfl⟩ := Prod.mk.inj (Option.some.inj taken)
      exact ⟨_, _, _, inv.link inside on now⟩
  | setData =>
      simp only [tmpiRdcoReduce, now] at taken
      obtain ⟨rfl, rfl⟩ := Prod.mk.inj (Option.some.inj taken)
      exact ⟨_, _, _, inv.onward inside on now ⟨rfl, rfl, rfl, rfl⟩ rfl rfl
        (alike_setData q _ _) rfl rfl (.inl rfl)⟩
  | testData =>
      simp only [tmpiRdcoReduce, now] at taken
      split at taken <;>
        · obtain ⟨rfl, rfl⟩ := Prod.mk.inj (Option.some.inj taken)
          exact ⟨_, _, _, inv.onward inside on now ⟨rfl, rfl, rfl, rfl⟩ rfl rfl
            (fun _ => .refl _) rfl rfl (.inl rfl)⟩
  | setCount =>
      simp only [tmpiRdcoReduce, now] at taken
      obtain ⟨rfl, rfl⟩ := Prod.mk.inj (Option.some.inj taken)
      exact ⟨_, _, _, inv.onward inside on now ⟨rfl, rfl, rfl, rfl⟩ rfl rfl
        (alike_setCount q _ _) rfl rfl (.inl rfl)⟩
  | publishLock | awaitLock | awaitWait | bumpLock | gatherLock | gatherWait =>
      simp only [tmpiRdcoReduce, now] at taken
      obtain ⟨free, rfl, rfl⟩ := acquire_eq taken
      exact ⟨_, _, _, inv.acquire inside on now free ⟨rfl, rfl, rfl, rfl⟩ rfl rfl⟩
  | publish =>
      simp only [tmpiRdcoReduce, now] at taken
      obtain ⟨rfl, rfl⟩ := Prod.mk.inj (Option.some.inj taken)
      exact ⟨_, _, _, inv.publish inside on now⟩
  | publishUnlock =>
      simp only [tmpiRdcoReduce, now] at taken
      split at taken
      next root =>
        obtain ⟨rfl, rfl⟩ := Prod.mk.inj (Option.some.inj taken)
        exact ⟨_, _, _, inv.release_root inside on root.2 (.inr ⟨now, rfl⟩)⟩
      next =>
        obtain ⟨rfl, rfl⟩ := Prod.mk.inj (Option.some.inj taken)
        exact ⟨_, _, _, inv.release_leave inside on (.inr ⟨now, rfl⟩)⟩
  | publishBcast | discardMutex | discardCond | bumpSignal | freeMutex | freeCond =>
      simp only [tmpiRdcoReduce, now] at taken
      obtain ⟨rfl, rfl⟩ := Prod.mk.inj (Option.some.inj taken)
      exact ⟨_, _, _, inv.goes inside on now rfl rfl⟩
  | discard =>
      simp only [tmpiRdcoReduce, now] at taken
      split at taken
      next h new =>
        obtain ⟨rfl, rfl⟩ := Prod.mk.inj (Option.some.inj taken)
        exact ⟨_, _, _, inv.discard inside on now new⟩
      next => cases taken
  | awaitTest =>
      simp only [tmpiRdcoReduce, now] at taken
      split at taken
      next =>
        obtain ⟨rfl, rfl⟩ := Prod.mk.inj (Option.some.inj taken)
        exact ⟨_, _, _, inv.release inside on now ⟨rfl, rfl, rfl, rfl⟩ rfl rfl rfl⟩
      next set =>
        obtain ⟨rfl, rfl⟩ := Prod.mk.inj (Option.some.inj taken)
        exact ⟨_, _, _, inv.awaited inside on now set⟩
  | awaitUnlock =>
      simp only [tmpiRdcoReduce, now] at taken
      obtain ⟨rfl, rfl⟩ := Prod.mk.inj (Option.some.inj taken)
      exact ⟨_, _, _, inv.release inside on now ⟨rfl, rfl, rfl, rfl⟩ rfl rfl rfl⟩
  | minCount =>
      simp only [tmpiRdcoReduce, now] at taken
      obtain ⟨rfl, rfl⟩ := Prod.mk.inj (Option.some.inj taken)
      exact ⟨_, _, _, inv.onward inside on now ⟨rfl, rfl, rfl, rfl⟩ rfl rfl
        (fun _ => .refl _) rfl rfl (.inl rfl)⟩
  | checkData =>
      simp only [tmpiRdcoReduce, now] at taken
      split at taken <;>
        · obtain ⟨rfl, rfl⟩ := Prod.mk.inj (Option.some.inj taken)
          exact ⟨_, _, _, inv.onward inside on now ⟨rfl, rfl, rfl, rfl⟩ rfl rfl
            (fun _ => .refl _) rfl rfl (.inl rfl)⟩
  | setCursor =>
      simp only [tmpiRdcoReduce, now] at taken
      obtain ⟨rfl, rfl⟩ := Prod.mk.inj (Option.some.inj taken)
      exact ⟨_, _, _, inv.setCursor inside on now⟩
  | bumpLoad =>
      simp only [tmpiRdcoReduce, now] at taken
      obtain ⟨rfl, rfl⟩ := Prod.mk.inj (Option.some.inj taken)
      exact ⟨_, _, _, inv.bumpLoad inside on now⟩
  | bumpStore =>
      simp only [tmpiRdcoReduce, now] at taken
      obtain ⟨rfl, rfl⟩ := Prod.mk.inj (Option.some.inj taken)
      exact ⟨_, _, _, inv.bumpStore inside on now⟩
  | bumpTest =>
      simp only [tmpiRdcoReduce, now] at taken
      split at taken <;>
        · obtain ⟨rfl, rfl⟩ := Prod.mk.inj (Option.some.inj taken)
          exact ⟨_, _, _, inv.goes inside on now rfl rfl⟩
  | bumpUnlock =>
      simp only [tmpiRdcoReduce, now] at taken
      split at taken
      next root =>
        obtain ⟨rfl, rfl⟩ := Prod.mk.inj (Option.some.inj taken)
        exact ⟨_, _, _, inv.release_root inside on root (.inl ⟨now, rfl⟩)⟩
      next =>
        obtain ⟨rfl, rfl⟩ := Prod.mk.inj (Option.some.inj taken)
        have left : Inv n r ((q.setLock (frame t).curitem none).setCursor t (q.cursor t))
            (Function.update frame t ((frame t).leave (frame t).ret)) chain
            (Function.update pos t (pos t + 1)) freed :=
          inv.release_leave inside on (.inl ⟨now, rfl⟩)
        have same : (q.setLock (frame t).curitem none).setCursor t (q.cursor t) =
            q.setLock (frame t).curitem none := by
          rw [RDCQueue.setCursor]
          exact congrArg (fun c => { q.setLock (frame t).curitem none with cursor := c })
            (Function.update_eq_self t q.cursor)
        exact ⟨_, _, _, same ▸ left⟩
  | peek =>
      simp only [tmpiRdcoReduce, now] at taken
      split at taken
      next full =>
        obtain ⟨rfl, rfl⟩ := Prod.mk.inj (Option.some.inj taken)
        exact ⟨_, _, _, inv.lastSeen inside on (Frame.gathered_same _)
          (.inl ⟨now, Frame.gathered_line _⟩) full fun peek => unheld peek full⟩
      next =>
        obtain ⟨rfl, rfl⟩ := Prod.mk.inj (Option.some.inj taken)
        exact ⟨_, _, _, inv.goes inside on now rfl rfl⟩
  | gatherTest =>
      simp only [tmpiRdcoReduce, now] at taken
      split at taken
      next full =>
        obtain ⟨rfl, rfl⟩ := Prod.mk.inj (Option.some.inj taken)
        exact ⟨_, _, _, inv.lastSeen inside on ⟨rfl, rfl, rfl, rfl⟩ (.inr ⟨now, rfl⟩) full
          fun peek => unheld peek full⟩
      next =>
        obtain ⟨rfl, rfl⟩ := Prod.mk.inj (Option.some.inj taken)
        exact ⟨_, _, _, inv.release inside on now ⟨rfl, rfl, rfl, rfl⟩ rfl rfl rfl⟩
  | gatherUnlock =>
      simp only [tmpiRdcoReduce, now] at taken
      obtain ⟨rfl, rfl⟩ := Prod.mk.inj (Option.some.inj taken)
      have same : (frame t).Same (if (frame t).isFirst = true then (frame t).setRecvbuf
          ((q.mem (frame t).curitem).data.getD (frame t).buffers.recvbuf) else frame t) := by
        split <;> exact ⟨rfl, rfl, rfl, rfl⟩
      have lines := Frame.gathered_line (if (frame t).isFirst = true then (frame t).setRecvbuf
          ((q.mem (frame t).curitem).data.getD (frame t).buffers.recvbuf) else frame t)
      refine ⟨_, _, _, inv.release inside on now (same.trans (Frame.gathered_same _)) ?_ rfl ?_⟩
      · rcases lines with line | line <;> rw [line] <;> rfl
      · rcases lines with line | line <;> rw [line] <;> rfl
  | loadNext =>
      simp only [tmpiRdcoReduce, now] at taken
      obtain ⟨rfl, rfl⟩ := Prod.mk.inj (Option.some.inj taken)
      exact ⟨_, _, _, inv.onward inside on now ⟨rfl, rfl, rfl, rfl⟩ rfl rfl
        (fun _ => .refl _) rfl rfl (.inl rfl)⟩
  | storeFirst =>
      simp only [tmpiRdcoReduce, now] at taken
      obtain ⟨rfl, rfl⟩ := Prod.mk.inj (Option.some.inj taken)
      exact ⟨_, _, _, inv.onward inside on now ⟨rfl, rfl, rfl, rfl⟩ rfl rfl
        (fun _ => .refl _) rfl rfl (.inr (now ▸ rfl))⟩
  | free =>
      simp only [tmpiRdcoReduce, now] at taken
      obtain ⟨rfl, rfl⟩ := Prod.mk.inj (Option.some.inj taken)
      exact ⟨_, _, _, inv.free inside on now⟩

theorem root_kept {given : Option Nat} (taken : tmpiRdcoReduce n t q f given = some (q', f')) :
    f'.root = f.root := by
  unfold tmpiRdcoReduce Stepwise.acquire Stepwise.release Frame.gathered at taken
  grind [Frame.goto, Frame.leave, Frame.setRecvbuf]

/-- What a step does to the use of the handles. -/
theorem use_step {given : Option Nat} (taken : tmpiRdcoReduce n t q f given = some (q', f')) :
    q'.inUse = q.inUse ∨ (∃ b, q'.inUse = Function.update q.inUse b false) ∨
      ∃ b, q'.inUse = Function.update q.inUse b true ∧ given = some b ∧ f.line = .alloc := by
  unfold tmpiRdcoReduce Stepwise.acquire Stepwise.release at taken
  grind [RDCQueue.alloc, RDCQueue.setUse, RDCQueue.setLock, RDCQueue.setAvail, RDCQueue.setNext,
    RDCQueue.setData, RDCQueue.setCount, RDCQueue.setCursor, RDCQueue.set]

/-- A handle comes into use when the allocator returns it. -/
theorem use_kept {given : Option Nat} (taken : tmpiRdcoReduce n t q f given = some (q', f'))
    (used : q'.inUse h = true) : q.inUse h = true ∨ given = some h ∧ f.line = .alloc := by
  rcases use_step taken with same | ⟨b, same⟩ | ⟨b, same, given, line⟩
  · exact .inl (same ▸ used)
  · rw [same, Function.update_apply] at used
    split at used
    next => cases used
    next => exact .inl used
  · rw [same, Function.update_apply] at used
    split at used
    next here => exact .inr ⟨here ▸ given, line⟩
    next => exact .inl used

end Rules

/-! ## Runs -/

namespace ReduceObj

variable {n : Nat} {s s' : ReduceObj} {act : Act}

/-- What holds of the queues at any time. -/
structure Holds (n : Nat) (s : ReduceObj) : Prop where
  root : ∀ t < n, (s.frame t).line ≠ .idle → (s.frame t).root < n
  queue : ∀ r < n, ∃ chain pos freed, Inv n r (s.rdcoArray r) s.frame chain pos freed

theorem create_holds (memory : Nat → Nat → RDCHandle) (frame : Nat → Frame) :
    (create memory frame).Holds n := by
  refine ⟨fun t _ busy => absurd rfl busy, fun r _ => ⟨[0], fun _ => 0, fun _ => False, ?_⟩⟩
  have off : ∀ {P : Prop} t, ((create memory frame).frame t).On r → P :=
    fun t on => absurd rfl on.1
  have only : ∀ {k h}, Live [0] (fun _ => False) k h → k = 0 ∧ h = 0 := by
    intro k h live
    cases k with
    | zero => exact ⟨rfl, (Option.some.inj live.1).symm⟩
    | succ k => cases live.1
  have guard : ((create memory frame).rdcoArray r).mem 0 =
      { memory r 0 with avail := -1, next := .null, lock := none } := by
    simp [create, RDCQueue.create]
  constructor
  · exact fun t _ => off t
  · exact fun t _ => off t
  · exact fun t _ => off t
  · exact fun t _ _ => .inr ⟨rfl, rfl, rfl⟩
  · exact fun k gone => gone.elim
  · intro k h live
    obtain ⟨rfl, rfl⟩ := only live
    rfl
  · intro j k h liveJ liveK
    exact (only liveJ).1.trans (only liveK).1.symm
  · intro k h live
    obtain ⟨rfl, rfl⟩ := only live
    rw [guard]
    refine ⟨le_rfl, fun _ => rfl, fun _ t _ => ?_, fun late => ?_, fun late => ?_, fun _ => nofun⟩
    · rw [passed, Frame.not_on (fun on => on.1 rfl), Bool.and_false]
      rfl
    · have late' : (0 : Int) < -1 := late
      exact absurd late' (by decide)
    · have late' : (0 : Int) < -1 := late
      exact absurd late' (by decide)
  · exact fun t _ => off t
  · exact fun t _ => off t
  · exact fun t _ => off t

theorem enter_holds (holds : s.Holds n) {t : Nat} {c : ReduceCall} {buffers : Buffers}
    (inside : t < n) (taken : s.step n (.enter t c buffers) = some s') : s'.Holds n := by
  simp only [ReduceObj.step] at taken
  split at taken
  next ready =>
    obtain ⟨f', entered, rfl⟩ := Option.map_eq_some_iff.mp taken
    obtain ⟨idle, low⟩ := ready
    have enters : f'.line = .idle ∨ f'.line = .look ∧ f'.isFirst = false ∧ f'.root = c.root ∧
        (if (s.rdcoArray c.root).cursor t = .null then (s.rdcoArray c.root).first
          else (s.rdcoArray c.root).cursor t) = .handle f'.curitem := by
      unfold Stepwise.enter at entered
      split at entered
      next =>
        obtain rfl := Option.some.inj entered
        exact .inl rfl
      next =>
        split at entered
        next => cases entered
        next =>
          obtain rfl := Option.some.inj entered
          exact .inl rfl
        next item here =>
          obtain rfl := Option.some.inj entered
          exact .inr ⟨rfl, rfl, rfl, here⟩
    refine ⟨fun u lowU busy => ?_, fun r lowR => ?_⟩
    · by_cases self : u = t
      · subst self
        simp only [Function.update_self] at busy ⊢
        rcases enters with stays | ⟨-, -, root, -⟩
        · exact absurd stays busy
        · exact root ▸ low
      · simp only [Function.update_of_ne self] at busy ⊢
        exact holds.root u lowU busy
    · obtain ⟨chain, pos, freed, inv⟩ := holds.queue r lowR
      have off : ¬ (s.frame t).On r := fun on => on.1 idle
      refine ⟨chain, pos, freed, inv.outside off fun on' => ?_⟩
      rcases enters with stays | ⟨line, first, root, here⟩
      · exact absurd stays on'.1
      · obtain rfl : c.root = r := root.symm.trans on'.2
        refine ⟨line, first, refAt_eq.mp ?_⟩
        rcases inv.away t inside off with there | ⟨unset, zero, front⟩
        · rw [if_neg (there ▸ refAt_ne_null)] at here
          exact there.symm.trans here
        · rw [if_pos unset, front] at here
          rw [zero]
          exact here
  next => cases taken

theorem run_holds (holds : s.Holds n) {t : Nat} {given : Option Nat} (inside : t < n)
    (fresh : s.Fresh (.run t given)) (unheld : s.Unheld n (.run t given))
    (taken : s.step n (.run t given) = some s') : s'.Holds n := by
  obtain ⟨⟨q', f'⟩, ran, rfl⟩ := Option.map_eq_some_iff.mp taken
  have busy : (s.frame t).line ≠ .idle := by
    intro idle
    simp only [tmpiRdcoReduce, idle] at ran
    cases ran
  have root := root_kept ran
  refine ⟨fun u low busy' => ?_, fun r low => ?_⟩
  · by_cases self : u = t
    · subst self
      simp only [Function.update_self] at busy' ⊢
      exact root ▸ holds.root u low busy
    · simp only [Function.update_of_ne self] at busy' ⊢
      exact holds.root u low busy'
  · obtain ⟨chain, pos, freed, inv⟩ := holds.queue r low
    by_cases here : (s.frame t).root = r
    · subst here
      obtain ⟨chain', pos', freed', inv'⟩ := inv.step inside ⟨busy, rfl⟩
        (fun h given line => by subst given; exact fresh line) unheld ran
      refine ⟨chain', pos', freed', ?_⟩
      simp only [Function.update_self]
      exact inv'
    · have off : ¬ (s.frame t).On r := fun on => here on.2
      refine ⟨chain, pos, freed, ?_⟩
      simp only [Function.update_of_ne (Ne.symm here)]
      exact inv.outside off fun on' => absurd (root.symm.trans on'.2) here

/-- The steps that do not meet a defect: of the allocator, or of the root's read of `avail`. -/
def Admitted (n : Nat) (s : ReduceObj) (act : Act) : Prop := s.Fresh act ∧ s.Unheld n act

theorem step_holds (holds : s.Holds n) (inside : act.thread < n) (admitted : s.Admitted n act)
    (taken : s.step n act = some s') : s'.Holds n := by
  cases act with
  | enter t c buffers => exact enter_holds holds inside taken
  | run t given => exact run_holds holds inside admitted.1 admitted.2 taken

theorem Leads.holds {allowed : ReduceObj → Act → Prop}
    (less : ∀ s act, allowed s act → s.Admitted n act) (holds : s.Holds n)
    (leads : s.Leads n allowed s') : s'.Holds n := by
  induction leads with
  | refl => exact holds
  | step _ inside admitted taken ih => exact step_holds ih inside (less _ _ admitted) taken

end ReduceObj

/-! ## The release -/

/-- Is in `tmpi_rdch_free` with `h`. -/
def Frame.Freeing (f : Frame) (h : Nat) : Prop :=
  ((f.line = .freeMutex ∨ f.line = .freeCond ∨ f.line = .free) ∧ f.curitem = h) ∨
    (f.line = .discardMutex ∨ f.line = .discardCond ∨ f.line = .discard) ∧ f.newitem = .handle h

section Release

variable {n r t u h : Nat} {q : RDCQueue} {frame : Nat → Frame} {chain : List Nat}
  {pos : Nat → Nat} {freed : Nat → Prop} {f : Frame}

theorem Frame.spare_or_item (touches : f.touches = some h) : f.spare = some h ∨ f.curitem = h := by
  rw [Frame.spare]
  unfold Frame.touches at touches
  cases now : f.line <;> rw [now] at touches
  all_goals first | exact .inl touches | exact .inr (Option.some.inj touches)

theorem Frame.Freeing.owns (freeing : f.Freeing h) :
    f.line.alone = true ∧ f.curitem = h ∨ f.spare = some h := by
  rcases freeing with ⟨now | now | now, item⟩ | ⟨now | now | now, new⟩
  · exact .inl ⟨now ▸ rfl, item⟩
  · exact .inl ⟨now ▸ rfl, item⟩
  · exact .inl ⟨now ▸ rfl, item⟩
  · exact .inr (spare_eq.mpr ⟨now ▸ rfl, new⟩)
  · exact .inr (spare_eq.mpr ⟨now ▸ rfl, new⟩)
  · exact .inr (spare_eq.mpr ⟨now ▸ rfl, new⟩)

theorem Frame.freeing_of_frees (frees : f.frees = some h) :
    f.Freeing h ∧ f.line.locked = false ∧ ¬ f.Waits h := by
  unfold Frame.frees at frees
  split at frees
  next now =>
    have new : f.newitem = .handle h := by
      cases new : f.newitem with
      | handle a =>
          rw [new] at frees
          exact congrArg Ref.handle (Option.some.inj frees)
      | null | failed =>
          rw [new] at frees
          cases frees
    refine ⟨.inr ⟨.inl now, new⟩, now ▸ rfl, fun waits => ?_⟩
    rcases waits.1 with also | also <;> exact absurd (now.symm.trans also) nofun
  next now =>
    refine ⟨.inl ⟨.inl now, Option.some.inj frees⟩, now ▸ rfl, fun waits => ?_⟩
    rcases waits.1 with also | also <;> exact absurd (now.symm.trans also) nofun
  next => cases frees

theorem Inv.touches_used (inv : Inv n r q frame chain pos freed) (inside : u < n)
    (on : (frame u).On r) (touches : (frame u).touches = some h) : q.inUse h = true := by
  rcases Frame.spare_or_item touches with spare | rfl
  · exact (inv.hands u inside on h spare).used
  · exact inv.used _ _ (inv.live inside on)

/-- Nobody else uses a handle that a thread frees. -/
theorem Inv.freeing_alone (inv : Inv n r q frame chain pos freed) (inside : t < n)
    (on : (frame t).On r) (freeing : (frame t).Freeing h) (inside' : u < n) (away : u ≠ t)
    (on' : (frame u).On r) : (frame u).touches ≠ some h := by
  intro touches
  have live := inv.live inside' on'
  rcases freeing.owns with ⟨alone, rfl⟩ | own
  · have mine := inv.live inside on
    rcases Frame.spare_or_item touches with spare | item
    · exact (inv.hands u inside' on' _ spare).apart _ mine
    · rw [item] at live
      have ahead := inv.alone t inside on alone u inside' away
      have level := inv.distinct _ _ _ live mine
      omega
  · rcases Frame.spare_or_item touches with spare | rfl
    · exact away (inv.spares t inside on u inside' on' h own spare)
    · exact (inv.hands t inside on _ own).apart _ live

theorem Inv.freeing_unlocked (inv : Inv n r q frame chain pos freed) (inside : t < n)
    (on : (frame t).On r) (freeing : (frame t).Freeing h) (out : (frame t).line.locked = false) :
    (q.mem h).lock = none := by
  rcases freeing.owns with ⟨alone, rfl⟩ | own
  · by_contra held
    obtain ⟨u, held⟩ := Option.ne_none_iff_exists'.mp held
    obtain ⟨inside', -, level, locked⟩ := (inv.cells _ _ (inv.live inside on)).owner u held
    by_cases self : u = t
    · rw [self, out] at locked
      cases locked
    · have ahead := inv.alone t inside on alone u inside' self
      omega
  · exact (inv.hands t inside on h own).lock

end Release

namespace ReduceObj

variable {n r t h : Nat} {s s' : ReduceObj} {act : Act}

/-- Thread `t` is freeing `h`, or has done so. -/
def Gone (s : ReduceObj) (t r h : Nat) : Prop :=
  (s.frame t).On r ∧ (s.frame t).Freeing h ∨ (s.rdcoArray r).inUse h = false

theorem freeing_step {given : Option Nat} (gone : (s.frame t).On r ∧ (s.frame t).Freeing h)
    (taken : s.step n (.run t given) = some s') : s'.Gone t r h := by
  obtain ⟨⟨q', f'⟩, ran, rfl⟩ := Option.map_eq_some_iff.mp taken
  obtain ⟨⟨busy, rfl⟩, freeing⟩ := gone
  have stays : ∀ line, f' = (s.frame t).goto line → line ≠ .idle →
      (∀ f : Frame, f.line = line → f.curitem = (s.frame t).curitem →
        f.newitem = (s.frame t).newitem → f.Freeing h) →
      Gone ⟨Function.update s.rdcoArray (s.frame t).root q', Function.update s.frame t f'⟩ t
        (s.frame t).root h := by
    rintro line rfl going freeing
    left
    simp only [Function.update_self]
    exact ⟨⟨going, rfl⟩, freeing _ rfl rfl rfl⟩
  rcases freeing with ⟨now | now | now, item⟩ | ⟨now | now | now, new⟩
  · simp only [tmpiRdcoReduce, now] at ran
    obtain ⟨rfl, rfl⟩ := Prod.mk.inj (Option.some.inj ran)
    exact stays _ rfl nofun fun f line same _ => .inl ⟨.inr (.inl line), same.trans item⟩
  · simp only [tmpiRdcoReduce, now] at ran
    obtain ⟨rfl, rfl⟩ := Prod.mk.inj (Option.some.inj ran)
    exact stays _ rfl nofun fun f line same _ => .inl ⟨.inr (.inr line), same.trans item⟩
  · simp only [tmpiRdcoReduce, now] at ran
    obtain ⟨rfl, rfl⟩ := Prod.mk.inj (Option.some.inj ran)
    right
    simp only [Function.update_self]
    split <;> exact item ▸ Function.update_self ..
  · simp only [tmpiRdcoReduce, now] at ran
    obtain ⟨rfl, rfl⟩ := Prod.mk.inj (Option.some.inj ran)
    exact stays _ rfl nofun fun f line _ same => .inr ⟨.inr (.inl line), same.trans new⟩
  · simp only [tmpiRdcoReduce, now] at ran
    obtain ⟨rfl, rfl⟩ := Prod.mk.inj (Option.some.inj ran)
    exact stays _ rfl nofun fun f line _ same => .inr ⟨.inr (.inr line), same.trans new⟩
  · simp only [tmpiRdcoReduce, now, new] at ran
    obtain ⟨rfl, rfl⟩ := Prod.mk.inj (Option.some.inj ran)
    right
    simp only [Function.update_self]
    exact Function.update_self ..

/-- A handle that has been freed stays so until it is handed out. -/
theorem unused_step {u : Nat} {given : Option Nat} (unused : (s.rdcoArray r).inUse h = false)
    (elsewhere : s.Elsewhere r h (.run u given)) (taken : s.step n (.run u given) = some s') :
    (s'.rdcoArray r).inUse h = false := by
  obtain ⟨⟨q', f'⟩, ran, rfl⟩ := Option.map_eq_some_iff.mp taken
  by_cases here : (s.frame u).root = r
  · subst here
    simp only [Function.update_self]
    by_contra used
    rcases use_kept ran (Bool.eq_true_of_not_eq_false used) with before | ⟨rfl, line⟩
    · rw [unused] at before
      cases before
    · exact elsewhere u rfl line rfl
  · simp only [Function.update_of_ne (Ne.symm here)]
    exact unused

theorem gone_step (gone : s.Gone t r h) (elsewhere : s.Elsewhere r h act)
    (taken : s.step n act = some s') : s'.Gone t r h := by
  cases act with
  | enter u c buffers =>
      simp only [ReduceObj.step] at taken
      split at taken
      next ready =>
        obtain ⟨f', -, rfl⟩ := Option.map_eq_some_iff.mp taken
        rcases gone with ⟨on, freeing⟩ | unused
        · have away : t ≠ u := by
            rintro rfl
            exact on.1 ready.1
          left
          simp only [Function.update_of_ne away]
          exact ⟨on, freeing⟩
        · exact .inr unused
      next => cases taken
  | run u given =>
      rcases gone with freeing | unused
      · by_cases self : t = u
        · subst self
          exact freeing_step freeing taken
        · obtain ⟨⟨q', f'⟩, -, rfl⟩ := Option.map_eq_some_iff.mp taken
          left
          simp only [Function.update_of_ne self]
          exact freeing
      · exact .inr (unused_step unused elsewhere taken)

theorem Leads.gone {allowed : ReduceObj → Act → Prop}
    (leads : s.Leads n (fun s act => allowed s act ∧ s.Elsewhere r h act) s')
    (gone : s.Gone t r h) : s'.Gone t r h := by
  induction leads with
  | refl => exact gone
  | step _ _ kept taken ih => exact gone_step ih kept.2 taken

theorem release_safe {memory : Nat → Nat → RDCHandle} {frame : Nat → Frame}
    (leads : (create memory frame).Leads n (Admitted n) s) (inside : t < n)
    (frees : (s.frame t).frees = some h) : s.Released n (Admitted n) t (s.frame t).root h := by
  have holds := leads.holds (fun _ _ => id) (create_holds memory frame)
  obtain ⟨freeing, out, waits⟩ := Frame.freeing_of_frees frees
  have busy : (s.frame t).line ≠ .idle := by
    intro idle
    rw [Frame.frees, idle] at frees
    cases frees
  have low := holds.root t inside busy
  obtain ⟨chain, pos, freed, inv⟩ := holds.queue _ low
  have on : (s.frame t).On (s.frame t).root := ⟨busy, rfl⟩
  refine ⟨inv.freeing_unlocked inside on freeing out, fun u low onU waitsU => ?_,
    fun s' later u lowU away onU touches => ?_⟩
  · by_cases self : u = t
    · exact waits (self ▸ waitsU)
    · refine inv.freeing_alone inside on freeing low self onU ?_
      obtain ⟨now | now, rfl⟩ := waitsU <;> rw [Frame.touches, now]
  · have holds' := later.holds (fun _ _ kept => kept.1) holds
    obtain ⟨chain', pos', freed', inv'⟩ := holds'.queue _ low
    rcases later.gone (.inl ⟨on, freeing⟩) with ⟨on', freeing'⟩ | unused
    · exact inv'.freeing_alone inside on' freeing' lowU away onU touches
    · rw [inv'.touches_used lowU onU touches] at unused
      cases unused

instance : DecidablePred (s.Admitted n) :=
  fun act => inferInstanceAs (Decidable (s.Fresh act ∧ s.Unheld n act))

/-- Thread `t` takes `k` steps. -/
def turns (t k : Nat) : List Act := List.replicate k (.run t none)

/-- Thread 1 is the first in a reduce to thread 0, and leaves. -/
def firstArrives : List Act :=
  [.enter 1 ⟨0, .sum, 1⟩ ⟨[], fun _ => 0, fun _ => 0⟩, .run 1 none, .run 1 (some 1)] ++ turns 1 4 ++
    [.run 1 (some 0)] ++ turns 1 8

/-- Thread `t` makes `k` steps of its call. -/
def arrives (t k : Nat) : List Act :=
  .enter t ⟨0, .sum, 1⟩ ⟨[], fun _ => 0, fun _ => 0⟩ :: turns t k

def zeroMemory : RDCHandle := ⟨0, .null, none, 0, none⟩

def zeroFrame : Frame :=
  ⟨.idle, 0, .sum, 0, ⟨[], fun _ => 0, fun _ => 0⟩, 0, .null, false, 0, 0, 0, .null, 0⟩

theorem release_safe_two : ∃ s : ReduceObj, (s.frame 0).frees = some 0 ∧
    s.Released 2 (Admitted 2) 0 (s.frame 0).root 0 := by
  have ends : ((create (fun _ _ => zeroMemory) fun _ => zeroFrame).run 2 (Admitted 2)
      (firstArrives ++ arrives 0 19)).map (fun s => (s.frame 0).frees) = some (some 0) := by
    decide +kernel
  obtain ⟨s, runs, frees⟩ := Option.map_eq_some_iff.mp ends
  exact ⟨s, frees, release_safe (Leads.refl.run runs) (by decide) frees⟩

/-- Thread 2 is between its increment and its unlock where thread 0 reads that all are in. -/
def earlyRead : List Act := firstArrives ++ arrives 0 14 ++ arrives 2 12 ++ turns 0 5

theorem release_held : ¬ ∀ n, 2 ≤ n → ∀ (memory : Nat → Nat → RDCHandle) (frame : Nat → Frame) s,
    (create memory frame).Leads n Fresh s → ∀ t < n, ∀ h, (s.frame t).frees = some h →
    s.Released n Fresh t (s.frame t).root h := by
  intro claim
  have ends : ((create (fun _ _ => zeroMemory) fun _ => zeroFrame).run 3 Fresh earlyRead).map
      (fun s => ((s.frame 0).frees, ((s.rdcoArray (s.frame 0).root).mem 0).lock)) =
        some (some 0, some 2) := by decide +kernel
  obtain ⟨s, runs, equal⟩ := Option.map_eq_some_iff.mp ends
  obtain ⟨frees, held⟩ := Prod.mk.inj equal
  have released := claim 3 (by decide) _ _ s (Leads.refl.run runs) 0 (by decide) 0 frees
  rw [released.unlocked] at held
  cases held

end ReduceObj

end Tmpi.Coll.Stepwise
