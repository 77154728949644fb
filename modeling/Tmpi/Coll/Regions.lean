import Tmpi.Coll.Release

/-! The runs of `Tmpi.Coll.ReduceObj` are runs step by step: each of its regions is what one thread
does by itself, with allocators that do not fail. -/

namespace Tmpi.Coll.Stepwise

section Steps

variable (n t : Nat)

/-- The step may be taken: the allocator returns a handle that is free, and where the root reads
without the lock that all threads are in `avail`, nobody has the mutex. -/
def Open (q : RDCQueue) (f : Frame) (given : Option Nat) : Prop :=
  (f.line = .alloc → ∀ h ∈ given, q.inUse h = false) ∧
    (f.line = .peek → (q.mem f.curitem).avail = n → (q.mem f.curitem).lock = none)

instance decidableOpen (q : RDCQueue) (f : Frame) (given : Option Nat) :
    Decidable (Open n q f given) :=
  inferInstanceAs (Decidable ((_ → ∀ h ∈ given, _) ∧ _))

/-- What thread `t` does when nobody else is running, with what the allocators return. -/
def steps : List (Option Nat) → RDCQueue → Frame → Option (RDCQueue × Frame)
  | [], q, f => some (q, f)
  | given :: rest, q, f =>
      if Open n q f given then
        (tmpiRdcoReduce n t q f given).bind fun next => steps rest next.1 next.2
      else none

/-- Thread `t` gets from one place to the other by itself. -/
def Alone (q : RDCQueue) (f : Frame) (q' : RDCQueue) (f' : Frame) : Prop :=
  ∃ givens, steps n t givens q f = some (q', f')

end Steps

section Alone

variable {n t a count k h : Nat} {avail : Int} {next : Ref} {data : Ints} {q q' q'' : RDCQueue}
  {f f' f'' : Frame}

theorem steps_append (givens givens' : List (Option Nat)) (q : RDCQueue) (f : Frame) :
    steps n t (givens ++ givens') q f =
      (steps n t givens q f).bind fun next => steps n t givens' next.1 next.2 := by
  induction givens generalizing q f with
  | nil => rfl
  | cons given givens ih =>
      rw [List.cons_append, steps, steps]
      split
      · cases tmpiRdcoReduce n t q f given with
        | none => rfl
        | some next => exact ih next.1 next.2
      · rfl

theorem Alone.trans (first : Alone n t q f q' f') (second : Alone n t q' f' q'' f'') :
    Alone n t q f q'' f'' := by
  obtain ⟨givens, first⟩ := first
  obtain ⟨givens', second⟩ := second
  refine ⟨givens ++ givens', ?_⟩
  rw [steps_append, first]
  exact second

@[simp] theorem set_mem (item : Nat) (handle : RDCHandle) : (q.set item handle).mem item = handle :=
  Function.update_self ..

@[simp] theorem set_set (item : Nat) (handle handle' : RDCHandle) :
    (q.set item handle).set item handle' = q.set item handle' := by
  rw [RDCQueue.set, RDCQueue.set, Function.update_idem]
  rfl

theorem set_self (item : Nat) : q.set item (q.mem item) = q := by
  rw [RDCQueue.set, Function.update_eq_self]

theorem Alone.stored {item : Nat} {handle : RDCHandle} (stored : q.mem item = handle)
    (alone : Alone n t (q.set item handle) f q' f') : Alone n t q f q' f' := by
  rwa [← stored, set_self] at alone

@[simp] theorem setUse_mem (used : Bool) : (q.setUse h used).mem = q.mem := rfl

@[simp] theorem setUse_set (used : Bool) (item : Nat) (handle : RDCHandle) :
    (q.setUse h used).set item handle = (q.set item handle).setUse h used := rfl

@[simp] theorem setCursor_mem (ref : Ref) : (q.setCursor t ref).mem = q.mem := rfl

@[simp] theorem setCursor_set (ref : Ref) (item : Nat) (handle : RDCHandle) :
    (q.setCursor t ref).set item handle = (q.set item handle).setCursor t ref := rfl

attribute [simp] RDCQueue.setAvail RDCQueue.setNext RDCQueue.setData RDCQueue.setCount RDCQueue.setLock

theorem look_alone : Alone n t q (f.goto .look) q
    (f.goto (if (q.mem f.curitem).avail = -1 then .alloc else .awaitLock)) := by
  refine ⟨[none], ?_⟩
  by_cases new : (q.mem f.curitem).avail = -1 <;> simp [steps, Open, tmpiRdcoReduce, Frame.goto, new]

/-- `tmpi_rdch_alloc` returns `h`. -/
theorem alloc_alone (free : q.inUse h = false) :
    Alone n t q (f.goto .alloc)
      ((q.set h ⟨-1, .null, (q.mem h).data, (q.mem h).count, none⟩).setUse h true)
      { f.goto .claim with newitem := .handle h } := by
  refine ⟨[some h, none, none], ?_⟩
  simp [steps, Open, tmpiRdcoReduce, Frame.goto, RDCQueue.alloc, free]

theorem claim_alone (unclaimed : avail = -1) :
    Alone n t (q.set f.curitem ⟨avail, next, some data, k, none⟩) (f.goto .claim)
      (q.set f.curitem ⟨0, next, some data, k, none⟩) (f.goto .link) :=
  ⟨[none], by simp [steps, Open, tmpiRdcoReduce, Frame.goto, unclaimed]⟩

theorem late_alone (claimed : (q.mem f.curitem).avail ≠ -1) (new : f.newitem = .handle h) :
    Alone n t q (f.goto .claim) q (f.goto .discardMutex) :=
  ⟨[none], by simp [steps, Open, tmpiRdcoReduce, Frame.goto, claimed, new]⟩

theorem discard_alone (new : f.newitem = .handle h) :
    Alone n t q (f.goto .discardMutex) (q.setUse h false) (f.goto .awaitLock) :=
  ⟨[none, none, none], by simp [steps, Open, tmpiRdcoReduce, Frame.goto, new]⟩

theorem await_alone (set : avail ≠ 0) :
    Alone n t (q.set f.curitem ⟨avail, next, some data, count, none⟩) (f.goto .awaitLock)
      (q.set f.curitem ⟨avail, next, some data, count, none⟩)
      { f.goto .combine with count := min f.count count, ret := 0, i := 0 } :=
  ⟨[none, none, none, none, none], by
    simp [steps, Open, tmpiRdcoReduce, acquire, release, Frame.goto, set]⟩

/-- The elements from `i` on are copied. -/
def copyFrom (dst src : Ints) (i count : Nat) : Ints := fun j =>
  if i ≤ j ∧ j < count then src j else dst j

theorem copyFrom_zero (dst src : Ints) : copyFrom dst src 0 count = copyInts dst src count := by
  funext j
  simp [copyFrom, copyInts]

theorem copyFrom_done (dst src : Ints) {i : Nat} (done : count ≤ i) : copyFrom dst src i count = dst := by
  funext j
  rw [copyFrom, if_neg (by omega)]

theorem copyFrom_update (dst src : Ints) {i : Nat} (more : i < count) :
    copyFrom (Function.update dst i (src i)) src (i + 1) count = copyFrom dst src i count := by
  funext j
  by_cases here : j = i
  · subst here
    simp [copyFrom, more]
  · simp only [copyFrom, Function.update_of_ne here]
    congr 1
    simp only [eq_iff_iff]
    omega

/-- The `memcpy` to the handle. -/
theorem fill_alone (data : Ints) (i : Nat) :
    Alone n t (q.set f.curitem ⟨avail, next, some data, k, none⟩) ({ f with i }.goto .fill)
      (q.set f.curitem ⟨avail, next, some (copyFrom data f.buffers.sendbuf i f.count), k, none⟩)
      ({ f with i := max i f.count }.goto .setCount) := by
  by_cases more : i < f.count
  · have one : Alone n t (q.set f.curitem ⟨avail, next, some data, k, none⟩) ({ f with i }.goto .fill)
        (q.set f.curitem ⟨avail, next, some (Function.update data i (f.buffers.sendbuf i)), k, none⟩)
        ({ f with i := i + 1 }.goto .fill) :=
      ⟨[none], by simp [steps, Open, tmpiRdcoReduce, Frame.goto, more]⟩
    have rest := one.trans (fill_alone _ (i + 1))
    rwa [copyFrom_update _ _ more, show max (i + 1) f.count = max i f.count by omega] at rest
  · rw [copyFrom_done _ _ (not_lt.mp more), max_eq_left (not_lt.mp more)]
    exact ⟨[none], by simp [steps, Open, tmpiRdcoReduce, Frame.goto, more]⟩
termination_by f.count - i

/-- The `memcpy` to the root's `recvbuf`. -/
theorem copy_alone (i : Nat) (recvbuf : Ints) :
    Alone n t (q.set f.curitem ⟨avail, next, some data, k, none⟩)
      ({ f.setRecvbuf recvbuf with i }.goto .copy)
      (q.set f.curitem ⟨avail, next, some data, k, none⟩)
      ({ f.setRecvbuf (copyFrom recvbuf data i f.count) with i := max i f.count }.goto .loadNext) := by
  by_cases more : i < f.count
  · have one : Alone n t (q.set f.curitem ⟨avail, next, some data, k, none⟩)
        ({ f.setRecvbuf recvbuf with i }.goto .copy)
        (q.set f.curitem ⟨avail, next, some data, k, none⟩)
        ({ f.setRecvbuf (Function.update recvbuf i (data i)) with i := i + 1 }.goto .copy) :=
      ⟨[none], by simp [steps, Open, tmpiRdcoReduce, Frame.goto, Frame.setRecvbuf, more]⟩
    have rest := one.trans (copy_alone (i + 1) _)
    rwa [copyFrom_update _ _ more, show max (i + 1) f.count = max i f.count by omega] at rest
  · rw [copyFrom_done _ _ (not_lt.mp more), max_eq_left (not_lt.mp more)]
    exact ⟨[none], by simp [steps, Open, tmpiRdcoReduce, Frame.goto, Frame.setRecvbuf, more]⟩
termination_by f.count - i

/-- The root has been the first. -/
theorem publish_alone_root (root : t = f.root) (ok : f.ret = 0) :
    Alone n t (q.set f.curitem ⟨avail, next, some data, k, none⟩) (f.goto .link)
      (q.set f.curitem
        ⟨1, f.newitem, some (copyInts f.buffers.recvbuf f.buffers.sendbuf f.count), f.count, none⟩)
      ({ f with i := f.count, isFirst := true }.goto .gatherLock) := by
  have begins : Alone n t (q.set f.curitem ⟨avail, next, some data, k, none⟩) (f.goto .link)
      (q.set f.curitem ⟨avail, f.newitem, some f.buffers.recvbuf, k, none⟩)
      ({ f with i := 0 }.goto .fill) :=
    ⟨[none, some 0, none], by simp [steps, Open, tmpiRdcoReduce, Frame.goto, root]⟩
  have ends : Alone n t
      (q.set f.curitem
        ⟨avail, f.newitem, some (copyInts f.buffers.recvbuf f.buffers.sendbuf f.count), k, none⟩)
      ({ f with i := f.count }.goto .setCount)
      (q.set f.curitem
        ⟨1, f.newitem, some (copyInts f.buffers.recvbuf f.buffers.sendbuf f.count), f.count, none⟩)
      ({ f with i := f.count, isFirst := true }.goto .gatherLock) :=
    ⟨[none, none, none, none, none], by
      simp [steps, Open, tmpiRdcoReduce, acquire, release, Frame.goto, root, ok]⟩
  have fills := begins.trans (fill_alone f.buffers.recvbuf 0)
  rw [copyFrom_zero, Nat.zero_max] at fills
  exact fills.trans ends

/-- Another thread has been the first. -/
theorem publish_alone (away : t ≠ f.root) (ok : f.ret = 0) :
    Alone n t (q.set f.curitem ⟨avail, next, some data, k, none⟩) (f.goto .link)
      ((q.set f.curitem
        ⟨1, f.newitem, some (copyInts (fun _ => 0) f.buffers.sendbuf f.count), f.count, none⟩).setCursor t
          f.newitem)
      ({ f with i := f.count }.leave 0) := by
  have begins : Alone n t (q.set f.curitem ⟨avail, next, some data, k, none⟩) (f.goto .link)
      (q.set f.curitem ⟨avail, f.newitem, some fun _ => 0, k, none⟩)
      ({ f with i := 0 }.goto .fill) :=
    ⟨[none, some 0, none], by simp [steps, Open, tmpiRdcoReduce, Frame.goto, away]⟩
  have ends : Alone n t
      (q.set f.curitem
        ⟨avail, f.newitem, some (copyInts (fun _ => 0) f.buffers.sendbuf f.count), k, none⟩)
      ({ f with i := f.count }.goto .setCount)
      ((q.set f.curitem
        ⟨1, f.newitem, some (copyInts (fun _ => 0) f.buffers.sendbuf f.count), f.count, none⟩).setCursor t
          f.newitem)
      ({ f with i := f.count }.leave 0) :=
    ⟨[none, none, none, none, none], by
      simp [steps, Open, tmpiRdcoReduce, acquire, Frame.goto, Frame.leave, away, ok]⟩
  have fills := begins.trans (fill_alone (fun _ => 0) 0)
  rw [copyFrom_zero, Nat.zero_max] at fills
  exact fills.trans ends

/-- `aadd32`. -/
theorem sum_alone (op : f.op = .sum) (more : f.i < f.count) :
    Alone n t (q.set f.curitem ⟨avail, next, some data, k, none⟩) (f.goto .combine)
      (q.set f.curitem ⟨avail, next,
        some (Function.update data f.i (data f.i + f.buffers.sendbuf f.i)), k, none⟩)
      { f.goto .combine with i := f.i + 1 } :=
  ⟨[none], by simp [steps, Open, tmpiRdcoReduce, Frame.goto, op, more]⟩

theorem skip_alone (op : f.op ≠ .sum) (more : f.i < f.count)
    (skips : rdcBreak f.op (data f.i) (f.buffers.sendbuf f.i) = true) :
    Alone n t (q.set f.curitem ⟨avail, next, some data, k, none⟩) (f.goto .combine)
      (q.set f.curitem ⟨avail, next, some data, k, none⟩) { f.goto .combine with i := f.i + 1 } := by
  refine ⟨[none], ?_⟩
  cases which : f.op with
  | sum => exact absurd which op
  | max | min =>
      rw [which] at skips
      simp [steps, Open, tmpiRdcoReduce, Frame.goto, which, more, skips]

theorem load_alone (op : f.op ≠ .sum) (more : f.i < f.count)
    (goes : rdcBreak f.op (data f.i) (f.buffers.sendbuf f.i) = false) :
    Alone n t (q.set f.curitem ⟨avail, next, some data, k, none⟩) (f.goto .combine)
      (q.set f.curitem ⟨avail, next, some data, k, none⟩) { f.goto .cas with tmp1 := data f.i } := by
  refine ⟨[none], ?_⟩
  cases which : f.op with
  | sum => exact absurd which op
  | max | min =>
      rw [which] at goes
      simp [steps, Open, tmpiRdcoReduce, Frame.goto, which, more, goes]

/-- `cas32` succeeds. -/
theorem cas_alone (same : data f.i = f.tmp1) :
    Alone n t (q.set f.curitem ⟨avail, next, some data, k, none⟩) (f.goto .cas)
      (q.set f.curitem ⟨avail, next, some (Function.update data f.i (f.buffers.sendbuf f.i)), k, none⟩)
      { f.goto .combine with i := f.i + 1 } :=
  ⟨[none], by simp [steps, Open, tmpiRdcoReduce, Frame.goto, same]⟩

theorem retry_alone (other : data f.i ≠ f.tmp1) :
    Alone n t (q.set f.curitem ⟨avail, next, some data, k, none⟩) (f.goto .cas)
      (q.set f.curitem ⟨avail, next, some data, k, none⟩) (f.goto .combine) :=
  ⟨[none], by simp [steps, Open, tmpiRdcoReduce, Frame.goto, other]⟩

/-- All elements have been combined. -/
theorem combined_alone (done : f.count ≤ f.i) :
    Alone n t (q.set f.curitem ⟨avail, next, some data, k, none⟩) (f.goto .combine)
      ((q.set f.curitem ⟨avail, next, some data, k, none⟩).setCursor t next) (f.goto .bumpLock) :=
  ⟨[none, none], by simp [steps, Open, tmpiRdcoReduce, Frame.goto, not_lt.mpr done]⟩

theorem bump_alone_root (root : t = f.root) :
    Alone n t (q.set f.curitem ⟨avail, next, some data, k, none⟩) (f.goto .bumpLock)
      (q.set f.curitem ⟨avail + 1, next, some data, k, none⟩) ({ f with avail }.goto .peek) :=
  ⟨[none, none, none, none, none], by
    simp [steps, Open, tmpiRdcoReduce, acquire, release, Frame.goto, root]⟩

/-- Whether it is the last one, and signals, or not. -/
theorem bump_alone (away : t ≠ f.root) :
    Alone n t (q.set f.curitem ⟨avail, next, some data, k, none⟩) (f.goto .bumpLock)
      (q.set f.curitem ⟨avail + 1, next, some data, k, none⟩) ({ f with avail }.leave f.ret) := by
  by_cases last : avail + 1 = n
  · exact ⟨[none, none, none, none, none, none], by
      simp [steps, Open, tmpiRdcoReduce, acquire, Frame.goto, Frame.leave, away, last]⟩
  · exact ⟨[none, none, none, none, none], by
      simp [steps, Open, tmpiRdcoReduce, acquire, Frame.goto, Frame.leave, away, last]⟩

/-- The root, which has not been the first, copies the result. -/
theorem gather_alone (first : f.isFirst = false) (ok : f.ret = 0) :
    Alone n t (q.set f.curitem ⟨n, next, some data, k, none⟩) (f.goto .peek)
      { q.set f.curitem ⟨n, next, some data, k, none⟩ with first := next }
      ({ f.setRecvbuf (copyInts f.buffers.recvbuf data f.count) with
        i := f.count, next }.goto .freeMutex) := by
  have begins : Alone n t (q.set f.curitem ⟨n, next, some data, k, none⟩) (f.goto .peek)
      (q.set f.curitem ⟨n, next, some data, k, none⟩)
      ({ f.setRecvbuf f.buffers.recvbuf with i := 0 }.goto .copy) :=
    ⟨[none], by simp [steps, Open, tmpiRdcoReduce, Frame.goto, Frame.gathered, Frame.setRecvbuf, first, ok]⟩
  have copies := begins.trans (copy_alone 0 f.buffers.recvbuf)
  rw [copyFrom_zero, Nat.zero_max] at copies
  exact copies.trans ⟨[none, none], by simp [steps, Open, tmpiRdcoReduce, Frame.goto, Frame.setRecvbuf]⟩

/-- The root has been the first, and its `recvbuf` is the data. -/
theorem gather_alone_first (first : f.isFirst = true) :
    Alone n t (q.set f.curitem ⟨n, next, some data, k, none⟩) (f.goto .gatherLock)
      { q.set f.curitem ⟨n, next, some data, k, none⟩ with first := next }
      ({ f.setRecvbuf data with next }.goto .freeMutex) :=
  ⟨[none, none, none, none, none], by
    simp [steps, Open, tmpiRdcoReduce, acquire, Frame.goto, Frame.gathered, Frame.setRecvbuf, first]⟩

theorem release_alone (first : f.isFirst = false) :
    Alone n t q (f.goto .freeMutex) (q.setUse f.curitem false) (f.leave f.ret) :=
  ⟨[none, none, none], by simp [steps, Open, tmpiRdcoReduce, Frame.goto, Frame.leave, first]⟩

theorem release_alone_first (first : f.isFirst = true) :
    Alone n t q (f.goto .freeMutex) ((q.setUse f.curitem false).setCursor t f.newitem) (f.leave f.ret) :=
  ⟨[none, none, none], by simp [steps, Open, tmpiRdcoReduce, Frame.goto, Frame.leave, first]⟩

end Alone

/-! ## What the regions rest on -/

namespace ReduceObj

variable {n t item : Nat} {calls : List ReduceCall} {c : Coll.ReduceObj} {d : ReduceCall}

/-- The handle that a thread combines in, or has combined in. -/
def joinedItem : ReducePc → Option Nat
  | .combine item _ | .cas item _ _ | .bump item | .gather item _ => some item
  | _ => none

/-- A handle is published for the count of every thread that combines in it. -/
theorem joined_published (several : 2 ≤ n) (small : ∀ d ∈ calls, d.Small)
    (reach : Coll.ReduceObj.Reach n calls c) (inside : t < n) (call : calls[c.call t]? = some d)
    (joined : joinedItem (c.pc t) = some item) :
    0 < ((c.rdcoArray d.root).mem item).avail ∧ ((c.rdcoArray d.root).mem item).count = d.count := by
  obtain ⟨s, m, addr, follows⟩ := Coll.ReduceObj.reach_followed several small reach
  have busy : c.pc t ≠ .idle := by
    intro idle
    rw [idle] at joined
    cases joined
  have staying : (c.pc t).leaving = false := by
    cases at' : c.pc t <;> rw [at'] at joined <;> first | rfl | cases joined
  have here := follows.here several inside call busy staying
  obtain ⟨a, pc, there, item', past, second, rfl⟩ : ∃ a pc, s.pc t = pc ∧ pc.item = some a ∧
      (Stage.inside pc).waiting = false ∧ (∀ item newitem, pc ≠ .publish item newitem) ∧
      item = addr d.root a := by
    have shows' := here.shows'
    cases at' : c.pc t with
    | combine item i =>
        rw [at'] at joined shows'
        obtain ⟨a, rfl, there⟩ := shows'.of_combine
        exact ⟨a, _, there, rfl, rfl, by simp, (Option.some.inj joined).symm⟩
    | cas item i tmp1 =>
        rw [at'] at joined shows'
        obtain ⟨a, rfl, there⟩ := shows'.of_cas
        exact ⟨a, _, there, rfl, rfl, by simp, (Option.some.inj joined).symm⟩
    | bump item =>
        rw [at'] at joined shows'
        obtain ⟨a, rfl, there⟩ := shows'.of_bump
        exact ⟨a, _, there, rfl, rfl, by simp, (Option.some.inj joined).symm⟩
    | gather item newitem =>
        rw [at'] at joined shows'
        obtain ⟨a, o, rfl, rfl, there⟩ := shows'.of_gather
        exact ⟨a, _, there, rfl, rfl, by simp, (Option.some.inj joined).symm⟩
    | idle | look | alloc | claim | discard | publish | await | release =>
        rw [at'] at joined
        cases joined
  have published := here.published inside there item' past second
  have stores := here.tracks.mirror.mem a (here.used inside (there ▸ item'))
  rw [stores.2 published.avail_pos]
  exact ⟨published.avail_pos, published.length⟩

/-- The first thread publishes a handle that is not published. -/
theorem publish_unpublished (several : 2 ≤ n) (small : ∀ d ∈ calls, d.Small)
    (reach : Coll.ReduceObj.Reach n calls c) (inside : t < n) (call : calls[c.call t]? = some d)
    {newitem : Nat} (at' : c.pc t = .publish item newitem) :
    ((c.rdcoArray d.root).mem item).avail = 0 := by
  obtain ⟨s, m, addr, follows⟩ := Coll.ReduceObj.reach_followed several small reach
  have here := follows.here several inside call (by rw [at']; simp) (by rw [at']; rfl)
  have shows' := here.shows'
  rw [at'] at shows'
  obtain ⟨a, b, rfl, rfl, there⟩ := shows'.of_publish
  have item' : (s.pc t).item = some a := by rw [there]; rfl
  have stage := stage_now there (by simp)
  rw [(here.tracks.mirror.mem a (here.used inside item')).1]
  cases here.cell inside item' with
  | unclaimed cell =>
      have early := cell.stages t inside
      rw [stage] at early
      cases early
  | claimed cell => exact cell.avail
  | published cell =>
      have joined := cell.joined t inside
      rw [Joined, stage] at joined
      exact joined.elim

end ReduceObj

/-! ## The two machines -/

/-- The pointer to a handle. -/
def Ref.of : Option Nat → Ref
  | none => .null
  | some h => .handle h

/-- A handle that nobody has locked, with its data as far as it counts. -/
def RDCHandle.Shows (handle : RDCHandle) (h : Coll.RDCHandle) (next : Option Nat) : Prop :=
  ∃ data, handle = ⟨h.avail, .of next, some data, h.count, none⟩ ∧ ∀ i < h.count, data i = h.data i

structure RDCQueue.Shows (q : RDCQueue) (queue : Coll.RDCQueue) : Prop where
  handle : ∀ h, (q.mem h).Shows (queue.mem h) (queue.next h)
  first : q.first = .of queue.first
  cursor : ∀ t, q.cursor t = .of (queue.cursor t)
  inUse : ∀ h, q.inUse h = queue.allocated h

/-- A thread is inside a call at the begin of a region. -/
structure Frame.At (f : Frame) (d : ReduceCall) (b : Buffers) (item : Nat) (isFirst : Bool) (line : Line) :
    Prop where
  line : f.line = line
  root : f.root = d.root
  op : f.op = d.op
  count : f.count = d.count
  buffers : f.buffers = b
  curitem : f.curitem = item
  isFirst : f.isFirst = isFirst
  ret : f.ret = 0

/-- Where the thread is whose call `d` has been passed `b`. -/
def Frame.Shows (f : Frame) (d : ReduceCall) (b : Buffers) (q : RDCQueue) : ReducePc → Prop
  | .idle => f.line = .idle
  | .look item => f.At d b item false .look
  | .alloc item => f.At d b item false .alloc
  | .claim item newitem => f.At d b item false .claim ∧ f.newitem = .handle newitem
  | .discard item newitem => f.At d b item false .discardMutex ∧ f.newitem = .handle newitem
  | .publish item newitem => f.At d b item false .link ∧ f.newitem = .handle newitem
  | .await item => f.At d b item false .awaitLock
  | .combine item i => f.At d b item false .combine ∧ f.i = i
  | .cas item i tmp1 => f.At d b item false .cas ∧ f.i = i ∧ f.tmp1 = tmp1
  | .bump item => f.At d b item false .bumpLock
  | .gather item none => f.At d b item false .peek
  | .gather item (some newitem) =>
      f.At d b item true .gatherLock ∧ f.newitem = .handle newitem ∧
        -- the data is the `recvbuf` that it has passed
        ∀ data, (q.mem item).data = some data → ∀ i, d.count ≤ i → data i = b.recvbuf i
  | .release item newitem b =>
      f.At d b item newitem.isSome .freeMutex ∧ ∀ h ∈ newitem, f.newitem = .handle h

/-- The threads are at the begin of a region each, and the queues hold the same. A thread that has
returned still has in its frame what its call has left. -/
structure ReduceObj.Shows (n : Nat) (calls : List ReduceCall) (s : ReduceObj) (c : Coll.ReduceObj) :
    Prop where
  queue : ∀ r, (s.rdcoArray r).Shows (c.rdcoArray r)
  idle : ∀ t < n, c.pc t = .idle → (s.frame t).line = .idle ∧ ∀ k, c.call t = k + 1 →
    c.results k t = some (s.frame t).buffers ∧ (s.frame t).ret = 0
  inside : ∀ t < n, c.pc t ≠ .idle → ∃ d, calls[c.call t]? = some d ∧
    (s.frame t).Shows d (c.current t) (s.rdcoArray d.root) (c.pc t)

/-- Single steps lead to the same place. -/
def ReduceObj.Matches (n : Nat) (calls : List ReduceCall) (s : ReduceObj) (c : Coll.ReduceObj) : Prop :=
  ∃ s', s.Leads n (ReduceObj.Admitted n) s' ∧ s'.Shows n calls c

section Simulation

variable {n t : Nat} {calls : List ReduceCall} {s : ReduceObj} {c c' : Coll.ReduceObj} {d : ReduceCall}
  {q q' : RDCQueue} {queue : Coll.RDCQueue} {f f' : Frame} {item : Nat} {b : Buffers} {isFirst : Bool}
  {line : Line}

/-- What a thread does by itself is part of a run. -/
theorem Alone.leads {start : ReduceObj} (alone : Alone n t q f q' f') (inside : t < n)
    (leads : start.Leads n (ReduceObj.Admitted n) s) (array : s.rdcoArray f.root = q)
    (frame : s.frame t = f) :
    start.Leads n (ReduceObj.Admitted n)
      ⟨Function.update s.rdcoArray f.root q', Function.update s.frame t f'⟩ := by
  obtain ⟨givens, alone⟩ := alone
  induction givens generalizing s q f with
  | nil =>
      obtain ⟨rfl, rfl⟩ := Prod.mk.inj (Option.some.inj alone)
      subst array frame
      rw [Function.update_eq_self, Function.update_eq_self]
      exact leads
  | cons given givens ih =>
      subst array frame
      rw [steps] at alone
      split at alone
      next admitted =>
        obtain ⟨⟨q₁, f₁⟩, taken, alone⟩ := Option.bind_eq_some_iff.mp alone
        have root := root_kept taken
        have next : s.step n (.run t given) =
            some ⟨Function.update s.rdcoArray (s.frame t).root q₁, Function.update s.frame t f₁⟩ := by
          rw [ReduceObj.step]
          dsimp only
          rw [taken]
          rfl
        have fresh : s.Fresh (.run t given) := by
          cases given with
          | none => trivial
          | some h => exact fun line => admitted.1 line h rfl
        have low : (Act.run t given).thread < n := inside
        have later := ih (leads.step low ⟨fresh, admitted.2⟩ next)
          (by rw [root]; exact Function.update_self ..) (Function.update_self ..) alone
        rw [root, Function.update_idem, Function.update_idem] at later
        exact later
      next => cases alone

theorem Frame.At.goto (here : f.At d b item isFirst line) :
    f.goto line = f := by
  rw [← here.line]
  rfl

/-- The data behind the elements that count stays as it is where it is published. -/
def Trails (queue : Coll.RDCQueue) (q q' : RDCQueue) : Prop :=
  ∀ item, 0 < (queue.mem item).avail → ∀ data', (q'.mem item).data = some data' →
    ∃ data, (q.mem item).data = some data ∧ ∀ i, (queue.mem item).count ≤ i → data' i = data i

theorem trails_same (same : ∀ item, (q'.mem item).data = (q.mem item).data) : Trails queue q q' := by
  intro item _ data' stored
  exact ⟨data', same item ▸ stored, fun _ _ => rfl⟩

/-- A thread inside a call, in machines that correspond. -/
structure Here (n : Nat) (calls : List ReduceCall) (s : ReduceObj) (c : Coll.ReduceObj) (t : Nat)
    (d : ReduceCall) : Prop where
  shows' : s.Shows n calls c
  inside : t < n
  call : calls[c.call t]? = some d
  joined : ∀ u < n, ∀ d' item, calls[c.call u]? = some d' → ReduceObj.joinedItem (c.pc u) = some item →
    0 < ((c.rdcoArray d'.root).mem item).avail ∧ ((c.rdcoArray d'.root).mem item).count = d'.count

theorem Frame.Shows.trails {b : Buffers} {pc : ReducePc} (shows' : f.Shows d b q pc)
    (trails : Trails queue q q')
    (joined : ∀ item, ReduceObj.joinedItem pc = some item →
      0 < (queue.mem item).avail ∧ (queue.mem item).count = d.count) : f.Shows d b q' pc := by
  cases pc with
  | gather item newitem =>
      cases newitem with
      | none => exact shows'
      | some newitem =>
          obtain ⟨here, new, behind⟩ := shows'
          obtain ⟨avail, length⟩ := joined item rfl
          refine ⟨here, new, fun data' stored i past => ?_⟩
          obtain ⟨data, stored', same⟩ := trails item avail data' stored
          rw [same i (length ▸ past)]
          exact behind data stored' i past
  | _ => exact shows'

/-- A thread takes a region, and the others stay where they are. -/
theorem Here.turn (here : Here n calls s c t d) (turns : Coll.ReduceObj.Turns c c' t d.root queue)
    (leads : s.Leads n (ReduceObj.Admitted n)
      ⟨Function.update s.rdcoArray d.root q', Function.update s.frame t f'⟩) (holds : q'.Shows queue)
    (trails : Trails (c.rdcoArray d.root) (s.rdcoArray d.root) q')
    (idle : c'.pc t = .idle → f'.line = .idle ∧ ∀ k, c'.call t = k + 1 →
      c'.results k t = some f'.buffers ∧ f'.ret = 0)
    (busy : c'.pc t ≠ .idle → c'.call t = c.call t ∧ f'.Shows d (c'.current t) q' (c'.pc t)) :
    s.Matches n calls c' := by
  refine ⟨_, leads, fun r => ?_, fun u low idle' => ?_, fun u low busy' => ?_⟩
  · rw [turns.queues]
    by_cases same : r = d.root
    · subst same
      simpa using holds
    · simpa [same] using here.shows'.queue r
  · by_cases self : u = t
    · subst self
      simpa using idle idle'
    · rw [turns.pc u self] at idle'
      obtain ⟨line, left⟩ := here.shows'.idle u low idle'
      simp only [Function.update_of_ne self]
      refine ⟨line, fun k last => ?_⟩
      rw [turns.call u self] at last
      rw [turns.results k u (.inl self)]
      exact left k last
  · by_cases self : u = t
    · subst self
      obtain ⟨same, now⟩ := busy busy'
      refine ⟨d, same ▸ here.call, ?_⟩
      simpa using now
    · have current : c'.current u = c.current u := by
        rw [Coll.ReduceObj.current, Coll.ReduceObj.current, turns.call u self, turns.args _ u self]
      rw [turns.pc u self] at busy' ⊢
      obtain ⟨d', call, now⟩ := here.shows'.inside u low busy'
      refine ⟨d', turns.call u self ▸ call, ?_⟩
      simp only [Function.update_of_ne self, current]
      by_cases same : d'.root = d.root
      · rw [same] at now ⊢
        rw [Function.update_self]
        exact now.trails trails fun item joined => same ▸ here.joined u low d' item call joined
      · rw [Function.update_of_ne same]
        exact now

theorem Here.leads (here : Here n calls s c t d) (root : (s.frame t).root = d.root)
    (alone : Alone n t (s.rdcoArray d.root) (s.frame t) q' f') : s.Leads n (ReduceObj.Admitted n)
      ⟨Function.update s.rdcoArray d.root q', Function.update s.frame t f'⟩ := by
  have leads := alone.leads here.inside .refl (by rw [root]) rfl
  rwa [root] at leads

theorem Here.goes (here : Here n calls s c t d) {pc : ReducePc} (root : (s.frame t).root = d.root)
    (alone : Alone n t (s.rdcoArray d.root) (s.frame t) q' f') (holds : q'.Shows queue)
    (trails : Trails (c.rdcoArray d.root) (s.rdcoArray d.root) q') (staying : pc ≠ .idle)
    (now : f'.Shows d (c.current t) q' pc) : s.Matches n calls ((c.setQueue d.root queue).goto t pc) := by
  refine here.turn (Coll.ReduceObj.turns_goto ..) (here.leads root alone) holds trails
    (fun idle => ?_) fun _ => ⟨rfl, ?_⟩
  · rw [Coll.ReduceObj.goto_pc] at idle
    exact absurd idle staying
  · rw [Coll.ReduceObj.goto_pc]
    exact now

theorem Here.goes_same (here : Here n calls s c t d) {pc : ReducePc} (root : (s.frame t).root = d.root)
    (alone : Alone n t (s.rdcoArray d.root) (s.frame t) (s.rdcoArray d.root) f') (staying : pc ≠ .idle)
    (now : f'.Shows d (c.current t) (s.rdcoArray d.root) pc) :
    s.Matches n calls (c.goto t pc) := by
  have turned := here.goes root alone (here.shows'.queue d.root) (trails_same fun _ => rfl) staying now
  rwa [Coll.ReduceObj.setQueue_self] at turned

theorem Here.leaves (here : Here n calls s c t d) {b : Buffers} (root : (s.frame t).root = d.root)
    (alone : Alone n t (s.rdcoArray d.root) (s.frame t) q' f') (holds : q'.Shows queue)
    (trails : Trails (c.rdcoArray d.root) (s.rdcoArray d.root) q') (line : f'.line = .idle)
    (left : f'.buffers = b) (ret : f'.ret = 0) : s.Matches n calls ((c.setQueue d.root queue).leave t b) := by
  refine here.turn (Coll.ReduceObj.turns_leave ..) (here.leads root alone) holds trails
    (fun _ => ⟨line, fun k last => ⟨?_, ret⟩⟩)
    fun busy => absurd (Coll.ReduceObj.leave_pc ..) busy
  have same : c.call t = k := by simpa [Coll.ReduceObj.leave, Coll.ReduceObj.setQueue] using last
  simp [Coll.ReduceObj.leave, Coll.ReduceObj.setQueue, left, same]

theorem Here.frame (here : Here n calls s c t d) {pc : ReducePc} (at' : c.pc t = pc) (busy : pc ≠ .idle) :
    (s.frame t).Shows d (c.current t) (s.rdcoArray d.root) pc := by
  obtain ⟨d', call, now⟩ := here.shows'.inside t here.inside (at' ▸ busy)
  rw [here.call, Option.some.injEq] at call
  subst call
  exact at' ▸ now

theorem Frame.At.at (here : f.At d b item isFirst line) (line' : Line) {newitem next : Ref} {i : Nat}
    {tmp1 : BitVec 32} {avail : Int} :
    ({ f with line := line', newitem, i, tmp1, avail, next } : Frame).At d b item isFirst line' :=
  ⟨rfl, here.root, here.op, here.count, here.buffers, here.curitem, here.isFirst, here.ret⟩

theorem RDCHandle.Shows.avail {handle : RDCHandle} {h : Coll.RDCHandle} {next : Option Nat}
    (holds : handle.Shows h next) : handle.avail = h.avail := by
  obtain ⟨data, rfl, -⟩ := holds
  rfl

namespace RDCQueue.Shows

variable {h : Coll.RDCHandle} {handle : RDCHandle} {next : Option Nat}

theorem set (holds : q.Shows queue) (item : Nat) (new : handle.Shows h next) :
    (q.set item handle).Shows { queue with
      mem := Function.update queue.mem item h
      next := Function.update queue.next item next } := by
  refine ⟨fun h' => ?_, holds.first, holds.cursor, holds.inUse⟩
  by_cases same : h' = item
  · subst same
    simpa using new
  · simpa [RDCQueue.set, same] using holds.handle h'

theorem setMem (holds : q.Shows queue) (item : Nat) (new : handle.Shows h (queue.next item)) :
    (q.set item handle).Shows { queue with mem := Function.update queue.mem item h } := by
  have whole := holds.set item new
  rwa [Function.update_eq_self] at whole

theorem setCursor (holds : q.Shows queue) (v : Option Nat) : (q.setCursor t (.of v)).Shows
    { queue with cursor := Function.update queue.cursor t v } := by
  refine ⟨holds.handle, holds.first, fun u => ?_, holds.inUse⟩
  by_cases self : u = t
  · subst self
    simp [RDCQueue.setCursor]
  · simpa [RDCQueue.setCursor, self] using holds.cursor u

theorem setUse (holds : q.Shows queue) (h : Nat) (used : Bool) : (q.setUse h used).Shows
    { queue with allocated := Function.update queue.allocated h used } := by
  refine ⟨holds.handle, holds.first, holds.cursor, fun h' => ?_⟩
  by_cases same : h' = h
  · subst same
    simp [RDCQueue.setUse]
  · simpa [RDCQueue.setUse, same] using holds.inUse h'

end RDCQueue.Shows

theorem trails_set {handle : RDCHandle}
    (same : ∀ data', handle.data = some data' → 0 < (queue.mem item).avail →
      ∃ data, (q.mem item).data = some data ∧ ∀ i, (queue.mem item).count ≤ i → data' i = data i) :
    Trails queue q (q.set item handle) := by
  intro item' avail data' stored
  by_cases here : item' = item
  · subst here
    exact same data' (by simpa using stored) avail
  · exact ⟨data', by simpa [RDCQueue.set, here] using stored, fun _ _ => rfl⟩

theorem trails_data {handle : RDCHandle} (same : handle.data = (q.mem item).data) :
    Trails queue q (q.set item handle) :=
  trails_set fun data' stored _ => ⟨data', same ▸ stored, fun _ _ => rfl⟩

theorem look_shows (here : Here n calls s c t d) {h : Nat} (at' : c.pc t = .look item)
    (taken : c.tmpiRdcoReduce n t h d = some c') :
    s.Matches n calls c' := by
  have now : (s.frame t).At d (c.current t) item false .look := here.frame at' (by simp)
  have alone := look_alone (n := n) (t := t) (q := s.rdcoArray d.root) (f := s.frame t)
  rw [now.goto, now.curitem, ((here.shows'.queue d.root).handle item).avail] at alone
  simp only [Coll.ReduceObj.tmpiRdcoReduce, at'] at taken
  split at taken
  next new =>
    cases taken
    rw [if_pos new] at alone
    exact here.goes_same now.root alone (by simp) (now.at .alloc)
  next claimed =>
    cases taken
    rw [if_neg claimed] at alone
    exact here.goes_same now.root alone (by simp) (now.at .awaitLock)

theorem alloc_shows (here : Here n calls s c t d) {h : Nat} (at' : c.pc t = .alloc item)
    (taken : c.tmpiRdcoReduce n t h d = some c') :
    s.Matches n calls c' := by
  have now : (s.frame t).At d (c.current t) item false .alloc := here.frame at' (by simp)
  have holds := here.shows'.queue d.root
  simp only [Coll.ReduceObj.tmpiRdcoReduce, at'] at taken
  split at taken
  · cases taken
  next free =>
    cases taken
    have unused : (s.rdcoArray d.root).inUse h = false := by
      rw [holds.inUse]
      simpa using free
    have alone := alloc_alone (n := n) (t := t) (f := s.frame t) unused
    rw [now.goto] at alone
    obtain ⟨data, stored, agrees⟩ := holds.handle h
    have new : (⟨-1, .null, ((s.rdcoArray d.root).mem h).data, ((s.rdcoArray d.root).mem h).count, none⟩ :
        RDCHandle).Shows { (c.rdcoArray d.root).mem h with avail := -1 } none :=
      ⟨data, by rw [stored]; rfl, agrees⟩
    exact here.goes now.root alone ((holds.set h new).setUse h true)
      (trails_data rfl) (by simp) ⟨now.at .claim, rfl⟩

theorem claim_shows (here : Here n calls s c t d) {h newitem : Nat} (at' : c.pc t = .claim item newitem)
    (taken : c.tmpiRdcoReduce n t h d = some c') :
    s.Matches n calls c' := by
  obtain ⟨now, new⟩ : (s.frame t).At d (c.current t) item false .claim ∧
    (s.frame t).newitem = .handle newitem := here.frame at' (by simp)
  have holds := here.shows'.queue d.root
  obtain ⟨data, stored, agrees⟩ := holds.handle item
  rw [← now.curitem] at stored
  simp only [Coll.ReduceObj.tmpiRdcoReduce, at'] at taken
  split at taken
  next unclaimed =>
    cases taken
    have alone := Alone.stored stored (claim_alone (n := n) (t := t) (now.curitem ▸ unclaimed))
    rw [now.goto] at alone
    rw [now.curitem] at alone stored
    exact here.goes now.root alone (holds.setMem item ⟨data, rfl, agrees⟩)
      (trails_data (by rw [stored])) (by simp) ⟨now.at .link, new⟩
  next claimed =>
    cases taken
    have alone := late_alone (n := n) (t := t) (q := s.rdcoArray d.root) (f := s.frame t)
      (by rw [stored, now.curitem]; exact claimed) new
    rw [now.goto] at alone
    exact here.goes_same now.root alone (by simp) ⟨now.at .discardMutex, new⟩

theorem discard_shows (here : Here n calls s c t d) {h newitem : Nat} (at' : c.pc t = .discard item newitem)
    (taken : c.tmpiRdcoReduce n t h d = some c') :
    s.Matches n calls c' := by
  obtain ⟨now, new⟩ : (s.frame t).At d (c.current t) item false .discardMutex ∧
    (s.frame t).newitem = .handle newitem := here.frame at' (by simp)
  simp only [Coll.ReduceObj.tmpiRdcoReduce, at'] at taken
  cases taken
  have alone := discard_alone (n := n) (t := t) (q := s.rdcoArray d.root) new
  rw [now.goto] at alone
  exact here.goes now.root alone ((here.shows'.queue d.root).setUse newitem false)
    (trails_same fun _ => rfl) (by simp) (now.at .awaitLock)

theorem publish_shows (here : Here n calls s c t d) (small : d.Small) {h newitem : Nat}
    (at' : c.pc t = .publish item newitem) (unpublished : ((c.rdcoArray d.root).mem item).avail = 0)
    (taken : c.tmpiRdcoReduce n t h d = some c') :
    s.Matches n calls c' := by
  obtain ⟨now, new⟩ : (s.frame t).At d (c.current t) item false .link ∧
    (s.frame t).newitem = .handle newitem := here.frame at' (by simp)
  have holds := here.shows'.queue d.root
  obtain ⟨data, stored, agrees⟩ := holds.handle item
  rw [← now.curitem] at stored
  have trails : ∀ handle, Trails (c.rdcoArray d.root) (s.rdcoArray d.root)
      ((s.rdcoArray d.root).set item handle) := fun handle =>
    trails_set fun _ _ avail => absurd avail (by rw [unpublished]; exact lt_irrefl 0)
  simp only [Coll.ReduceObj.tmpiRdcoReduce, at'] at taken
  split at taken
  next root =>
    rw [memcpyInts_small _ _ small, Option.map_some, Option.some.injEq] at taken
    subst taken
    have alone := Alone.stored stored (publish_alone_root (n := n) (root.trans now.root.symm) now.ret)
    rw [now.goto, now.curitem, new, now.count, now.buffers] at alone
    refine here.goes now.root alone (holds.set item ⟨_, rfl, fun _ _ => rfl⟩) (trails _) (by simp)
      ⟨⟨rfl, now.root, now.op, rfl, rfl, rfl, rfl, now.ret⟩, rfl, fun data' stored' i past => ?_⟩
    simp only [set_mem, Option.some.injEq] at stored'
    rw [← stored', copyInts, if_neg (not_lt.mpr past)]
  next away =>
    have length : intsLen d.count = 4 * d.count := intsLen_eq_iff.mpr small
    rw [length, if_neg (by omega), if_pos rfl, Option.some.injEq] at taken
    subst taken
    have alone := Alone.stored stored (publish_alone (n := n)
      (by rw [now.root]; exact away) now.ret)
    rw [now.goto, now.curitem, new, now.count, now.buffers] at alone
    have data : ∀ i < d.count, copyInts (fun _ => 0) (c.current t).sendbuf d.count i =
        (c.current t).sendbuf i := fun i low => if_pos low
    have posts : (⟨1, .handle newitem, some (copyInts (fun _ => 0) (c.current t).sendbuf d.count), d.count,
        none⟩ : RDCHandle).Shows ⟨1, (c.current t).sendbuf, d.count⟩ (some newitem) := ⟨_, rfl, data⟩
    exact here.leaves now.root alone ((holds.set item posts).setCursor (some newitem)) (trails _) rfl rfl rfl

theorem await_shows (here : Here n calls s c t d) {h : Nat} (at' : c.pc t = .await item)
    (length : ((c.rdcoArray d.root).mem item).count = d.count)
    (taken : c.tmpiRdcoReduce n t h d = some c') :
    s.Matches n calls c' := by
  have now : (s.frame t).At d (c.current t) item false .awaitLock := here.frame at' (by simp)
  obtain ⟨data, stored, -⟩ := (here.shows'.queue d.root).handle item
  rw [← now.curitem] at stored
  simp only [Coll.ReduceObj.tmpiRdcoReduce, at'] at taken
  split at taken
  · cases taken
  next published =>
    cases taken
    have alone := Alone.stored stored (await_alone (n := n) (t := t) (now.curitem ▸ published))
    rw [← stored, set_self, now.goto] at alone
    have count : min (s.frame t).count ((c.rdcoArray d.root).mem (s.frame t).curitem).count = d.count := by
      rw [now.curitem, now.count, length, min_self]
    exact here.goes_same now.root alone (by simp)
      ⟨⟨rfl, now.root, now.op, count, now.buffers, now.curitem, now.isFirst, rfl⟩, rfl⟩

/-- Where a thread combines, an element below the count changes. -/
theorem Here.combines (here : Here n calls s c t d) {data : Ints} {v : BitVec 32} {i : Nat} {pc : ReducePc}
    (joined : ReduceObj.joinedItem (c.pc t) = some item) (more : i < d.count)
    (stored : (s.rdcoArray d.root).mem item = ⟨((c.rdcoArray d.root).mem item).avail,
      .of ((c.rdcoArray d.root).next item), some data, ((c.rdcoArray d.root).mem item).count, none⟩)
    (agrees : ∀ i < ((c.rdcoArray d.root).mem item).count, data i = ((c.rdcoArray d.root).mem item).data i)
    (root : (s.frame t).root = d.root)
    (alone : Alone n t (s.rdcoArray d.root) (s.frame t)
      ((s.rdcoArray d.root).set item ⟨((c.rdcoArray d.root).mem item).avail,
        .of ((c.rdcoArray d.root).next item), some (Function.update data i v),
        ((c.rdcoArray d.root).mem item).count, none⟩) f')
    (staying : pc ≠ .idle) (now : ∀ q', f'.Shows d (c.current t) q' pc) :
    ∃ s', s.Leads n (ReduceObj.Admitted n) s' ∧ s'.Shows n calls
      ((c.setQueue d.root { c.rdcoArray d.root with
        mem := Function.update (c.rdcoArray d.root).mem item { (c.rdcoArray d.root).mem item with
          data := Function.update ((c.rdcoArray d.root).mem item).data i v } }).goto t pc) := by
  have length := (here.joined t here.inside d item here.call joined).2
  refine here.goes root alone ((here.shows'.queue d.root).setMem item ⟨_, rfl, fun j low => ?_⟩)
    (trails_set fun data' stored' _ => ⟨data, by rw [stored], fun j past => ?_⟩) staying (now _)
  · by_cases same : j = i
    · subst same
      simp
    · simpa [same] using agrees j low
  · rw [Option.some.injEq] at stored'
    rw [← stored', Function.update_of_ne (by omega)]

theorem combine_shows (here : Here n calls s c t d) {h i : Nat} (at' : c.pc t = .combine item i)
    (taken : c.tmpiRdcoReduce n t h d = some c') :
    s.Matches n calls c' := by
  obtain ⟨now, rfl⟩ : (s.frame t).At d (c.current t) item false .combine ∧ (s.frame t).i = i :=
    here.frame at' (by simp)
  have holds := here.shows'.queue d.root
  obtain ⟨data, stored, agrees⟩ := holds.handle item
  have joined : ReduceObj.joinedItem (c.pc t) = some item := by rw [at']; rfl
  have length := (here.joined t here.inside d item here.call joined).2
  have stored' := stored
  rw [← now.curitem] at stored'
  simp only [Coll.ReduceObj.tmpiRdcoReduce, at'] at taken
  split at taken
  next more =>
    rw [length, min_self] at more
    have more' : (s.frame t).i < (s.frame t).count := by
      rw [now.count]
      exact more
    split at taken
    next op =>
      cases taken
      have alone := Alone.stored stored' (sum_alone (n := n) (t := t) (now.op.trans op) more')
      rw [now.goto, now.curitem, now.buffers, agrees _ (length ▸ more)] at alone
      exact here.combines joined more stored agrees now.root alone (by simp)
        fun _ => ⟨⟨now.line, now.root, now.op, now.count, now.buffers, now.curitem, now.isFirst, now.ret⟩, rfl⟩
    next op =>
      have other : (s.frame t).op ≠ .sum := by
        rw [now.op]
        exact op
      split at taken
      next skips =>
        cases taken
        have alone := Alone.stored stored' (skip_alone (n := n) (t := t) other more' (by
          rw [now.op, now.buffers, agrees _ (length ▸ more)]
          exact skips))
        rw [now.goto, ← stored', set_self] at alone
        exact here.goes_same now.root alone (by simp)
          ⟨⟨now.line, now.root, now.op, now.count, now.buffers, now.curitem, now.isFirst, now.ret⟩, rfl⟩
      next goes =>
        cases taken
        have alone := Alone.stored stored' (load_alone (n := n) (t := t) other more' (by
          rw [now.op, now.buffers, agrees _ (length ▸ more)]
          simpa using goes))
        rw [now.goto, ← stored', set_self, agrees _ (length ▸ more)] at alone
        exact here.goes_same now.root alone (by simp) ⟨now.at .cas, rfl, rfl⟩
  next done =>
    cases taken
    have done' : (s.frame t).count ≤ (s.frame t).i := by
      rw [length, min_self, ← now.count] at done
      exact not_lt.mp done
    have alone := Alone.stored stored' (combined_alone (n := n) (t := t) done')
    rw [now.goto, ← stored', set_self, now.curitem] at alone
    exact here.goes now.root alone (holds.setCursor _) (trails_same fun _ => rfl) (by simp) (now.at .bumpLock)

theorem cas_shows (here : Here n calls s c t d) {h i : Nat} {tmp1 : BitVec 32}
    (at' : c.pc t = .cas item i tmp1) (more : i < d.count)
    (taken : c.tmpiRdcoReduce n t h d = some c') :
    s.Matches n calls c' := by
  obtain ⟨now, rfl, rfl⟩ : (s.frame t).At d (c.current t) item false .cas ∧ (s.frame t).i = i ∧
    (s.frame t).tmp1 = tmp1 := here.frame at' (by simp)
  obtain ⟨data, stored, agrees⟩ := (here.shows'.queue d.root).handle item
  have joined : ReduceObj.joinedItem (c.pc t) = some item := by rw [at']; rfl
  have length := (here.joined t here.inside d item here.call joined).2
  have stored' := stored
  rw [← now.curitem] at stored'
  simp only [Coll.ReduceObj.tmpiRdcoReduce, at'] at taken
  split at taken
  next same =>
    cases taken
    have alone := Alone.stored stored' (cas_alone (n := n) (t := t)
      ((agrees _ (length ▸ more)).trans same))
    rw [now.goto, now.curitem, now.buffers] at alone
    exact here.combines joined more stored agrees now.root alone (by simp)
      fun _ => ⟨⟨rfl, now.root, now.op, now.count, now.buffers, now.curitem, now.isFirst, now.ret⟩, rfl⟩
  next other =>
    cases taken
    have alone := Alone.stored stored' (retry_alone (n := n) (t := t)
      fun same => other ((agrees _ (length ▸ more)).symm.trans same))
    rw [now.goto, ← stored', set_self] at alone
    exact here.goes_same now.root alone (by simp) ⟨now.at .combine, rfl⟩

theorem bump_shows (here : Here n calls s c t d) {h : Nat} (at' : c.pc t = .bump item)
    (taken : c.tmpiRdcoReduce n t h d = some c') :
    s.Matches n calls c' := by
  have now : (s.frame t).At d (c.current t) item false .bumpLock := here.frame at' (by simp)
  have holds := here.shows'.queue d.root
  obtain ⟨data, stored, agrees⟩ := holds.handle item
  have stored' := stored
  rw [← now.curitem] at stored'
  simp only [Coll.ReduceObj.tmpiRdcoReduce, at'] at taken
  split at taken
  next root =>
    cases taken
    have alone := Alone.stored stored' (bump_alone_root (n := n) (root.trans now.root.symm))
    rw [now.goto, now.curitem] at alone
    exact here.goes now.root alone (holds.setMem item ⟨data, rfl, agrees⟩) (trails_data (by rw [stored]))
      (by simp) ⟨rfl, now.root, now.op, now.count, now.buffers, rfl, now.isFirst, now.ret⟩
  next away =>
    cases taken
    have alone := Alone.stored stored' (bump_alone (n := n) (by rw [now.root]; exact away))
    rw [now.goto, now.curitem] at alone
    exact here.leaves now.root alone (holds.setMem item ⟨data, rfl, agrees⟩) (trails_data (by rw [stored]))
      rfl now.buffers now.ret

theorem copyInts_congr {dst src src' : Ints} {count : Nat} (same : ∀ i < count, src i = src' i) :
    copyInts dst src count = copyInts dst src' count := by
  funext i
  by_cases low : i < count
  · rw [copyInts, copyInts, if_pos low, if_pos low, same i low]
  · rw [copyInts, copyInts, if_neg low, if_neg low]

theorem gather_shows (here : Here n calls s c t d) (small : d.Small) {h : Nat} {newitem : Option Nat}
    (at' : c.pc t = .gather item newitem) (taken : c.tmpiRdcoReduce n t h d = some c') :
    s.Matches n calls c' := by
  have holds := here.shows'.queue d.root
  obtain ⟨data, stored, agrees⟩ := holds.handle item
  have length := (here.joined t here.inside d item here.call (by rw [at']; rfl)).2
  have first : ({ s.rdcoArray d.root with first := .of ((c.rdcoArray d.root).next item) } : RDCQueue).Shows
      { c.rdcoArray d.root with first := (c.rdcoArray d.root).next item } :=
    ⟨holds.handle, rfl, holds.cursor, holds.inUse⟩
  rw [length] at agrees
  simp only [Coll.ReduceObj.tmpiRdcoReduce, at', length, min_self] at taken
  split at taken
  · cases taken
  next all =>
    rw [not_not.mp all] at stored
    cases newitem with
    | none =>
        have now : (s.frame t).At d (c.current t) item false .peek := here.frame at' (by simp)
        simp only [Option.isSome_none, Bool.false_eq_true, if_false, memcpyInts_small _ _ small,
          Option.map_some, Option.some.injEq] at taken
        subst taken
        rw [← now.curitem] at stored
        have alone := Alone.stored stored (gather_alone (t := t) now.isFirst now.ret)
        rw [← stored, set_self, now.goto, now.curitem] at alone
        have copied : copyInts (s.frame t).buffers.recvbuf data (s.frame t).count =
            copyInts (c.current t).recvbuf ((c.rdcoArray d.root).mem item).data d.count := by
          rw [now.buffers, now.count, copyInts_congr agrees]
        rw [copied] at alone
        exact here.goes now.root alone first (trails_same fun _ => rfl) (by simp)
          ⟨⟨rfl, now.root, now.op, now.count, by rw [← now.buffers]; rfl, now.curitem, now.isFirst, now.ret⟩,
            fun _ none => absurd none (by simp)⟩
    | some newitem =>
        obtain ⟨now, new, behind⟩ : (s.frame t).At d (c.current t) item true .gatherLock ∧
          (s.frame t).newitem = .handle newitem ∧ ∀ data, ((s.rdcoArray d.root).mem item).data = some data →
            ∀ i, d.count ≤ i → data i = (c.current t).recvbuf i := here.frame at' (by simp)
        simp only [Option.isSome_some, if_true, Option.map_some, Option.some.injEq] at taken
        subst taken
        have same : data = copyInts (c.current t).recvbuf ((c.rdcoArray d.root).mem item).data d.count := by
          funext i
          by_cases low : i < d.count
          · rw [copyInts, if_pos low, agrees i low]
          · rw [copyInts, if_neg low, behind data (by rw [stored]) i (not_lt.mp low)]
        rw [← now.curitem] at stored
        have alone := Alone.stored stored (gather_alone_first (t := t) now.isFirst)
        rw [← stored, set_self, now.goto, now.curitem, same] at alone
        exact here.goes now.root alone first (trails_same fun _ => rfl) (by simp)
          ⟨⟨rfl, now.root, now.op, now.count, by rw [← now.buffers]; rfl, now.curitem, now.isFirst, now.ret⟩,
            fun _ some' => Option.some.inj some' ▸ new⟩

theorem release_shows (here : Here n calls s c t d) {h : Nat} {newitem : Option Nat} {b : Buffers}
    (at' : c.pc t = .release item newitem b) (taken : c.tmpiRdcoReduce n t h d = some c') :
    s.Matches n calls c' := by
  obtain ⟨now, new⟩ : (s.frame t).At d b item newitem.isSome .freeMutex ∧
    ∀ h ∈ newitem, (s.frame t).newitem = .handle h := here.frame at' (by simp)
  have holds := (here.shows'.queue d.root).setUse item false
  simp only [Coll.ReduceObj.tmpiRdcoReduce, at'] at taken
  cases newitem with
  | none =>
      cases taken
      have alone := release_alone (n := n) (t := t) (q := s.rdcoArray d.root) now.isFirst
      rw [now.goto, now.curitem] at alone
      exact here.leaves now.root alone holds (trails_same fun _ => rfl) rfl now.buffers now.ret
  | some newitem =>
      cases taken
      have alone := release_alone_first (n := n) (t := t) (q := s.rdcoArray d.root) now.isFirst
      rw [now.goto, now.curitem, new newitem rfl] at alone
      exact here.leaves now.root alone (holds.setCursor (some newitem)) (trails_same fun _ => rfl) rfl
        now.buffers now.ret

theorem enter_shows (several : 2 ≤ n) (here : Here n calls s c t d) (low : d.root < n) {b : Buffers}
    (idle : c.pc t = .idle) (taken : c.enter n t b d = some c') :
    s.Matches n calls c' := by
  have holds := here.shows'.queue d.root
  rw [Coll.ReduceObj.enter, if_neg (by omega)] at taken
  obtain ⟨item, has, rfl⟩ := Option.map_eq_some_iff.mp taken
  have first : (if (s.rdcoArray d.root).cursor t = .null then (s.rdcoArray d.root).first
      else (s.rdcoArray d.root).cursor t) = .handle item := by
    rw [holds.cursor, holds.first]
    cases cursor : (c.rdcoArray d.root).cursor t with
    | none =>
        rw [cursor, Option.none_or] at has
        rw [has]
        rfl
    | some h =>
        rw [cursor, Option.some_or, Option.some.injEq] at has
        subst has
        rfl
  obtain ⟨f', entered, now⟩ : ∃ f', Stepwise.enter n t (s.rdcoArray d.root) (s.frame t) d b = some f' ∧
      f'.At d b item false .look := by
    rw [Stepwise.enter, if_neg (by omega)]
    dsimp only
    rw [first]
    exact ⟨_, rfl, rfl, rfl, rfl, rfl, rfl, rfl, rfl, rfl⟩
  have taken' : s.step n (.enter t d b) = some { s with frame := Function.update s.frame t f' } := by
    rw [ReduceObj.step, if_pos ⟨(here.shows'.idle t here.inside idle).1, low⟩, entered]
    rfl
  have inside : (Act.enter t d b).thread < n := here.inside
  have leads : s.Leads n (ReduceObj.Admitted n) { s with frame := Function.update s.frame t f' } :=
    ReduceObj.Leads.refl.step inside ⟨trivial, trivial⟩ taken'
  rw [← Function.update_eq_self d.root s.rdcoArray] at leads
  refine here.turn (Coll.ReduceObj.turns_enter ..) leads holds (trails_same fun _ => rfl) (fun gone => ?_)
    fun _ => ⟨rfl, ?_⟩
  · rw [Coll.ReduceObj.goto_pc] at gone
    cases gone
  · have current : ((c.pass t b).goto t (.look item)).current t = b := by
      simp [Coll.ReduceObj.current, Coll.ReduceObj.goto, Coll.ReduceObj.pass]
    rw [Coll.ReduceObj.goto_pc, current]
    exact now

theorem create_shows (memory : Nat → Nat → Coll.RDCHandle) :
    (ReduceObj.create
      (fun r h => ⟨(memory r h).avail, .null, some (memory r h).data, (memory r h).count, none⟩)
      fun _ => ReduceObj.zeroFrame).Shows n calls (Coll.ReduceObj.create memory) := by
  refine ⟨fun r => ⟨fun h => ?_, rfl, fun _ => rfl, fun _ => rfl⟩, fun t _ _ => ⟨rfl, fun k last => ?_⟩,
    fun t _ busy => absurd rfl busy⟩
  · refine ⟨(memory r h).data, ?_, fun _ _ => ?_⟩
    · by_cases guard : h = 0
      · subst guard
        rfl
      · simp [ReduceObj.create, RDCQueue.create, Coll.ReduceObj.create, Coll.RDCQueue.create, guard, Ref.of]
    · by_cases guard : h = 0
      · subst guard
        rfl
      · simp [Coll.ReduceObj.create, Coll.RDCQueue.create, guard]
  · cases last

theorem step_shows (several : 2 ≤ n) (small : ∀ d ∈ calls, d.Small) (roots : ∀ d ∈ calls, d.root < n)
    (reach : Coll.ReduceObj.Reach n calls c) (shows' : s.Shows n calls c) {act : Coll.ReduceObj.Act}
    (inside : act.thread < n) (taken : c.step n calls act = some c') :
    s.Matches n calls c' := by
  have here : ∀ t < n, ∀ d, calls[c.call t]? = some d → Here n calls s c t d := fun t inside d call =>
    ⟨shows', inside, call, fun u low d' item call' =>
      ReduceObj.joined_published several small reach low call'⟩
  cases act with
  | enter t b =>
      rw [Coll.ReduceObj.step] at taken
      split at taken
      next idle =>
        obtain ⟨d, call, entered⟩ := Option.bind_eq_some_iff.mp taken
        exact enter_shows several (here t inside d call) (roots d (List.mem_of_getElem? call)) idle entered
      next => cases taken
  | run t h =>
      obtain ⟨d, call, ran⟩ := Option.bind_eq_some_iff.mp taken
      have low : t < n := inside
      have now := here t low d call
      have short := small d (List.mem_of_getElem? call)
      cases at' : c.pc t with
      | idle => simp [Coll.ReduceObj.tmpiRdcoReduce, at'] at ran
      | look item => exact look_shows now at' ran
      | alloc item => exact alloc_shows now at' ran
      | claim item newitem => exact claim_shows now at' ran
      | discard item newitem => exact discard_shows now at' ran
      | publish item newitem =>
          exact publish_shows now short at'
            (ReduceObj.publish_unpublished several small reach low call at') ran
      | await item =>
          refine await_shows now at' ?_ ran
          have awaited : c' = c.goto t (.combine item 0) := by
            simp only [Coll.ReduceObj.tmpiRdcoReduce, at'] at ran
            split at ran
            · cases ran
            · exact (Option.some.inj ran).symm
          subst awaited
          exact (ReduceObj.joined_published several small (reach.step inside taken) low call
            (by rw [Coll.ReduceObj.goto_pc]; rfl)).2
      | combine item i => exact combine_shows now at' ran
      | cas item i tmp1 =>
          obtain ⟨_, _, _, follows⟩ := Coll.ReduceObj.reach_followed several small reach
          exact cas_shows now at' (follows.cas t low item i tmp1 d at' call).1 ran
      | bump item => exact bump_shows now at' ran
      | gather item newitem => exact gather_shows now short at' ran
      | release item newitem b => exact release_shows now at' ran

/-- Every run of regions is a run of single steps. -/
theorem reach_leads (several : 2 ≤ n) (small : ∀ d ∈ calls, d.Small) (roots : ∀ d ∈ calls, d.root < n)
    (reach : Coll.ReduceObj.Reach n calls c) : ∃ memory frame s,
    (ReduceObj.create memory frame).Leads n (ReduceObj.Admitted n) s ∧ s.Shows n calls c := by
  induction reach with
  | create memory => exact ⟨_, _, _, .refl, create_shows memory⟩
  | step before inside taken ih =>
      obtain ⟨memory, frame, s, leads, shows'⟩ := ih
      obtain ⟨s', later, shows''⟩ := step_shows several small roots before shows' inside taken
      exact ⟨memory, frame, s', leads.trans later, shows''⟩

end Simulation

end Tmpi.Coll.Stepwise
