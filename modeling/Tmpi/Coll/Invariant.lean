import Tmpi.Coll.Queues

/-! Every step of a thread keeps what the queues and their handles hold. -/

namespace Tmpi.Coll

open Chain

/-- The queue of the broadcasts from thread `r`. -/
def bcastKind (n r : Nat) : Kind n BCHandle where
  on c := match c with
    | .bcast root _ => root == r
    | .reduce .. => false
  Blank h := h.avail = 0
  Cell c p h next := match c with
    | .bcast root len => BcastCell n root len p h next
    | .reduce .. => True
  new c p h blank untouched := by
    cases c with
    | bcast root len =>
        obtain ⟨avail, data, length⟩ := h
        cases blank
        exact BcastCell.new untouched data length
    | reduce => trivial

/-- The queue of the reduces to thread `r`. -/
def reduceKind (n r : Nat) : Kind n RDCHandle where
  on c := match c with
    | .bcast .. => false
    | .reduce root _ _ => root == r
  Blank h := h.avail = -1
  Cell c p h next := match c with
    | .bcast .. => True
    | .reduce root op count => ReduceCell n root op count p h next
  new c p h blank untouched := by
    cases c with
    | bcast => trivial
    | reduce root op count =>
        obtain ⟨avail, data, length⟩ := h
        cases blank
        exact ReduceCell.new untouched data length

structure Invariant (n : Nat) (calls : List Collective) (s : Objects) : Prop where
  bco : ∀ r, QueueInv (bcastKind n r) calls s (s.bco r)
  rdco : ∀ r, QueueInv (reduceKind n r) calls s (s.rdco r)

section Moves

variable (s : Objects) (t root : Nat)

theorem party_setBco_goto (q : HandleQueue BCHandle) {pc : Pc} (busy : pc ≠ .idle) :
    ((s.setBco root q).goto t pc).party (s.call t) = (s.party (s.call t)).goto t pc :=
  party_goto (s := s.setBco root q) busy

theorem party_setBco_leave (q : HandleQueue BCHandle) (b : Buffers) :
    ((s.setBco root q).leave t b).party (s.call t) = (s.party (s.call t)).leave t b :=
  party_leave (s := s.setBco root q) b

theorem party_setRdco_goto (q : HandleQueue RDCHandle) {pc : Pc} (busy : pc ≠ .idle) :
    ((s.setRdco root q).goto t pc).party (s.call t) = (s.party (s.call t)).goto t pc :=
  party_goto (s := s.setRdco root q) busy

theorem party_setRdco_leave (q : HandleQueue RDCHandle) (b : Buffers) :
    ((s.setRdco root q).leave t b).party (s.call t) = (s.party (s.call t)).leave t b :=
  party_leave (s := s.setRdco root q) b

theorem moves_setBco_goto (q : HandleQueue BCHandle) (pc : Pc) :
    Moves s ((s.setBco root q).goto t pc) t :=
  let moves := moves_goto (s := s) (t := t) pc
  ⟨moves.pc, moves.call, moves.own, moves.others⟩

theorem moves_setBco_leave (q : HandleQueue BCHandle) (b : Buffers) :
    Moves s ((s.setBco root q).leave t b) t :=
  let moves := moves_leave (s := s) (t := t) b
  ⟨moves.pc, moves.call, moves.own, moves.others⟩

theorem moves_setRdco_goto (q : HandleQueue RDCHandle) (pc : Pc) :
    Moves s ((s.setRdco root q).goto t pc) t :=
  let moves := moves_goto (s := s) (t := t) pc
  ⟨moves.pc, moves.call, moves.own, moves.others⟩

theorem moves_setRdco_leave (q : HandleQueue RDCHandle) (b : Buffers) :
    Moves s ((s.setRdco root q).leave t b) t :=
  let moves := moves_leave (s := s) (t := t) b
  ⟨moves.pc, moves.call, moves.own, moves.others⟩

end Moves

theorem create_invariant (n : Nat) (calls : List Collective) : Invariant n calls create := by
  have queue : ∀ {Handle : Type} (kind : Kind n Handle) (guard : Handle), kind.Blank guard →
      QueueInv kind calls create (.create guard) := by
    intro Handle kind guard blank
    have start : ∀ t, moved kind.on calls create t = 0 := fun t => rfl
    refine ⟨Nat.one_pos, nofun, fun _ _ => rfl, fun t _ => .inl ⟨rfl, start t⟩, fun _ => rfl,
      fun t _ _ => ⟨nofun, nofun, nofun⟩, fun t _ u _ _ _ _ a has => (nomatch has),
      fun k c _ _ a _ => ?_⟩
    refine kind.new c _ guard blank fun t _ => ?_
    exact Objects.stage_idle (s := create) (Nat.zero_le k) rfl
  exact ⟨fun r => queue _ _ rfl, fun r => queue _ _ rfl⟩

namespace Invariant

variable {n : Nat} {calls : List Collective} {s s' : Objects} {t root len : Nat}

/-- A step in a broadcast concerns one queue. -/
theorem of_bcast (inv : Invariant n calls s) (inside : t < n)
    (call : calls[s.call t]? = some (.bcast root len)) (moves : Moves s s' t)
    {q : HandleQueue BCHandle} (bco : s'.bco = Function.update s.bco root q)
    (rdco : s'.rdco = s.rdco) (queue : QueueInv (bcastKind n root) calls s' q) :
    Invariant n calls s' := by
  refine ⟨fun r => ?_, fun r => ?_⟩
  · rw [bco]
    by_cases same : r = root
    · subst same
      rw [Function.update_self]
      exact queue
    · rw [Function.update_of_ne same]
      refine (inv.bco r).other inside moves ?_
      simpa [onCall, call, bcastKind] using Ne.symm same
  · rw [rdco]
    refine (inv.rdco r).other inside moves ?_
    simp [onCall, call, reduceKind]

theorem of_reduce (inv : Invariant n calls s) (inside : t < n) {op : Option RdcOp} {count : Nat}
    (call : calls[s.call t]? = some (.reduce root op count)) (moves : Moves s s' t)
    {q : HandleQueue RDCHandle} (rdco : s'.rdco = Function.update s.rdco root q)
    (bco : s'.bco = s.bco) (queue : QueueInv (reduceKind n root) calls s' q) :
    Invariant n calls s' := by
  refine ⟨fun r => ?_, fun r => ?_⟩
  · rw [bco]
    refine (inv.bco r).other inside moves ?_
    simp [onCall, call, bcastKind]
  · rw [rdco]
    by_cases same : r = root
    · subst same
      rw [Function.update_self]
      exact queue
    · rw [Function.update_of_ne same]
      refine (inv.rdco r).other inside moves ?_
      simpa [onCall, call, reduceKind] using Ne.symm same

end Invariant

theorem stage_now {s : Objects} {t : Nat} {pc : Pc} (at' : s.pc t = pc) (busy : pc ≠ .idle) :
    (s.party (s.call t)).stage t = .inside pc := by
  subst at'
  exact Objects.stage_inside rfl busy

theorem setRdco_self (s : Objects) (root : Nat) : s.setRdco root (s.rdco root) = s := by
  rw [Objects.setRdco, Function.update_eq_self]

theorem setRdco_current (s : Objects) (root t : Nat) (q : HandleQueue RDCHandle) :
    (s.setRdco root q).current t = s.current t := rfl

theorem party_args (s : Objects) (t : Nat) : (s.party (s.call t)).args t = s.current t := rfl

/-! ## Broadcasts -/

section Bcast

variable {n : Nat} {calls : List Collective} {s s' : Objects} {t root len item : Nat}

theorem bcast_user (n root len : Nat) : (bcastKind n root).on (.bcast root len) = true := by
  simp [bcastKind]

theorem bcast_on (call : calls[s.call t]? = some (.bcast root len)) :
    onCall (bcastKind n root).on calls (s.call t) = true := by
  simp [onCall, call, bcastKind]

variable (inv : Invariant n calls s) (inside : t < n)
  (call : calls[s.call t]? = some (.bcast root len))

include inv inside call

theorem bcast_slot (has : (s.pc t).item = some item) :
    nth (s.bco root).next 0 (turn (bcastKind n root).on calls (s.call t)) = some item :=
  ((inv.bco root).thread t inside (bcast_on call)).item item has

omit inside in
theorem bcast_cell
    (slot : nth (s.bco root).next 0 (turn (bcastKind n root).on calls (s.call t)) = some item) :
    BcastCell n root len (s.party (s.call t)) ((s.bco root).mem item) ((s.bco root).next item) :=
  (inv.bco root).cell _ _ call (bcast_user n root len) item slot

theorem enter_bcast (idle : s.pc t = .idle) (b : Buffers)
    (taken : ((s.bco root).curitem t).map (fun item =>
      (s.pass t b).goto t (if t = root then .post item else .await item)) = some s') :
    Invariant n calls s' := by
  have here := bcast_on (n := n) call
  obtain ⟨item, found, slot⟩ := (inv.bco root).curitem inside
  rw [found, Option.map_some, Option.some.injEq] at taken
  rw [moved_stays here rfl, idle] at slot
  change nth _ _ (turn _ _ _) = _ at slot
  have cell := (bcast_cell inv call slot).enter inside (Objects.stage_idle le_rfl idle) item b
  set pc : Pc := if t = root then .post item else .await item with which
  have plain : pc ≠ .idle ∧ pc.Plain item ∧ pc.advanced = false := by
    rw [which]
    split <;> exact ⟨nofun, ⟨rfl, rfl, nofun⟩, rfl⟩
  subst taken
  refine inv.of_bcast inside call (moves_enter pc b) (Function.update_eq_self ..).symm rfl ?_
  refine (inv.bco root).goes inside call (bcast_user n root len) slot (moves_enter pc b) ?_
    (Change.same (inv.bco root) rfl le_rfl (fun _ _ _ => rfl) (s.bco root).fresh) (.inr le_rfl) rfl
    (Function.update_self ..) (plain.2.1.holds slot) ?_ ?_ rfl rfl
  · change BcastCell n root len _ _ _
    rw [party_enter plain.1]
    exact cell
  · rw [plain.2.1.spare]
    exact nofun
  · rw [plain.2.2, idle]
    rfl

theorem post_bcast (at' : s.pc t = .post item)
    (taken : tmpiBcoBcast n s t root len = some s') : Invariant n calls s' := by
  simp only [tmpiBcoBcast, at', Option.some.injEq] at taken
  subst taken
  have slot := bcast_slot inv inside call (by rw [at']; rfl)
  have queue := inv.bco root
  have stage := stage_now at' nofun
  have cell := bcast_cell inv call slot
  set q := s.bco root
  have low := nth_below queue.rising queue.pos slot
  have links : Function.update (Function.update q.next q.fresh none) item (some q.fresh) =
      Function.update q.next item (some q.fresh) := by
    rw [← queue.beyond _ le_rfl, Function.update_eq_self]
  refine inv.of_bcast inside call (moves_setBco_leave s t root _ _) rfl rfl ?_
  refine queue.leaves inside call (bcast_user n root len) slot (moves_setBco_leave s t root _ _) ?_
    ?_ (.inr le_rfl) (Function.update_self ..) (Function.update_self ..)
    (fun u other => Function.update_of_ne other ..)
    (.inr ⟨q.fresh, Function.update_self .., Function.update_self ..⟩) (.inl rfl)
  · have posted := (cell.post inside stage q.fresh).2
    rw [party_setBco_leave]
    simpa [bcastKind, HandleQueue.setCursor, HandleQueue.set, HandleQueue.link, party_args]
      using posted
  · refine Change.link queue slot (cell.ends inside stage) (queue.beyond _ le_rfl) low
      (Nat.lt_succ_self _) ?_ links (Nat.le_succ _) fun a other below => ?_
    · simp [HandleQueue.setCursor, HandleQueue.set, HandleQueue.link, HandleQueue.alloc, low.ne',
        bcastKind]
    · simp [HandleQueue.setCursor, HandleQueue.set, HandleQueue.link, HandleQueue.alloc, other,
        below.ne]

theorem copy_bcast (at' : s.pc t = .await item)
    (taken : tmpiBcoBcast n s t root len = some s') : Invariant n calls s' := by
  simp only [tmpiBcoBcast, at'] at taken
  split at taken
  next => cases taken
  next avail =>
    rw [Option.some.injEq] at taken
    subst taken
    have slot := bcast_slot inv inside call (by rw [at']; rfl)
    have copied := (bcast_cell inv call slot).copy inside (stage_now at' nofun) avail
    obtain ⟨a, link⟩ := Option.ne_none_iff_exists'.mp copied.1
    refine inv.of_bcast inside call (moves_setBco_goto s t root _ _) rfl rfl ?_
    refine (inv.bco root).advances inside call (bcast_user n root len) slot
      (moves_setBco_goto s t root _ _) ?_ rfl (Function.update_self ..) ⟨rfl, rfl, nofun⟩ rfl link
      (by rw [link])
    rw [party_setBco_goto]
    · exact copied.2
    · exact nofun

theorem depart_bcast {data : Buffer} (at' : s.pc t = .depart item data)
    (taken : tmpiBcoBcast n s t root len = some s') : Invariant n calls s' := by
  simp only [tmpiBcoBcast, at', Option.some.injEq] at taken
  subst taken
  have slot := bcast_slot inv inside call (by rw [at']; rfl)
  have departed := (bcast_cell inv call slot).depart inside (stage_now at' nofun)
  have gone : ∀ q, ((s.setBco root q).leave t { s.current t with data }).stage (s.call t) =
      ((s.party (s.call t)).leave t { s.current t with data }).stage := by
    intro q
    rw [← party_setBco_leave s t root q]
    rfl
  refine inv.of_bcast inside call (moves_setBco_leave s t root _ _) rfl rfl ?_
  refine (inv.bco root).leaves inside call (bcast_user n root len) slot
    (moves_setBco_leave s t root _ _) ?_ (Change.same (inv.bco root) ?_ ?_ ?_ (s.bco root).fresh)
    (.inr le_rfl) (Function.update_self ..) (Function.update_self ..) ?_
    (.inl ⟨by rw [at']; rfl, ?_⟩) ?_
  · rw [party_setBco_leave]
    have cell := departed.1
    split <;> simpa [bcastKind, HandleQueue.set, HandleQueue.retire, HandleQueue.free, party_args]
      using cell
  · split <;> rfl
  · split <;> exact le_rfl
  · intro a other _
    split <;> exact Function.update_of_ne other ..
  · intro u _
    split <;> rfl
  · split <;> rfl
  · split
    next full =>
      refine .inr fun u member => ?_
      rw [gone]
      exact departed.2 full u member
    next => exact .inl rfl

end Bcast

/-! ## Reduces -/

section Reduce

variable {n : Nat} {calls : List Collective} {s s' : Objects} {t root count item newitem : Nat}
  {op : Option RdcOp}

theorem reduce_user (n root count : Nat) (op : Option RdcOp) :
    (reduceKind n root).on (.reduce root op count) = true := by
  simp [reduceKind]

theorem reduce_on (call : calls[s.call t]? = some (.reduce root op count)) :
    onCall (reduceKind n root).on calls (s.call t) = true := by
  simp [onCall, call, reduceKind]

variable (inv : Invariant n calls s) (inside : t < n)
  (call : calls[s.call t]? = some (.reduce root op count))

include inv inside call

theorem reduce_slot (has : (s.pc t).item = some item) :
    nth (s.rdco root).next 0 (turn (reduceKind n root).on calls (s.call t)) = some item :=
  ((inv.rdco root).thread t inside (reduce_on call)).item item has

omit inside in
theorem reduce_cell
    (slot : nth (s.rdco root).next 0 (turn (reduceKind n root).on calls (s.call t)) = some item) :
    ReduceCell n root op count (s.party (s.call t)) ((s.rdco root).mem item)
      ((s.rdco root).next item) :=
  (inv.rdco root).cell _ _ call (reduce_user n root count op) item slot

theorem enter_reduce (idle : s.pc t = .idle) (b : Buffers)
    (taken : ((s.rdco root).curitem t).map (fun item => (s.pass t b).goto t (.look item)) =
      some s') : Invariant n calls s' := by
  have here := reduce_on (n := n) call
  obtain ⟨item, found, slot⟩ := (inv.rdco root).curitem inside
  rw [found, Option.map_some, Option.some.injEq] at taken
  subst taken
  rw [moved_stays here rfl, idle] at slot
  change nth _ _ (turn _ _ _) = _ at slot
  have cell := (reduce_cell inv call slot).enter inside (Objects.stage_idle le_rfl idle) item b
  refine inv.of_reduce inside call (moves_enter _ b) (Function.update_eq_self ..).symm rfl ?_
  refine (inv.rdco root).goes inside call (reduce_user n root count op) slot (moves_enter _ b) ?_
    (Change.same (inv.rdco root) rfl le_rfl (fun _ _ _ => rfl) (s.rdco root).fresh) (.inr le_rfl)
    rfl (Function.update_self ..) ?_ ?_ ?_ rfl rfl
  · rw [party_enter]
    · exact cell
    · exact nofun
  · have plain : (Pc.look item).Plain item := ⟨rfl, rfl, nofun⟩
    exact plain.holds slot
  · exact nofun
  · rw [idle]
    rfl

/-- A thread stays in its call. -/
theorem goes_reduce {pc pc' : Pc} {q : HandleQueue RDCHandle} (at' : s.pc t = pc)
    (has : pc.item = some item) (change : Change (reduceKind n root) (s.rdco root) q item newitem)
    (mine : pc.spare = some newitem ∨ (s.rdco root).fresh ≤ newitem) (busy : pc' ≠ .idle)
    (holds : Holds (reduceKind n root) q (turn (reduceKind n root).on calls (s.call t)) pc')
    (spare : ∀ a, pc'.spare = some a → pc.spare = some a ∨ (s.rdco root).fresh ≤ a)
    (level : pc'.advanced = pc.advanced) (cursors : q.cursor = (s.rdco root).cursor)
    (first : q.first = (s.rdco root).first)
    (cell : ReduceCell n root op count ((s.party (s.call t)).goto t pc') (q.mem item) (q.next item)) :
    Invariant n calls ((s.setRdco root q).goto t pc') := by
  subst at'
  refine inv.of_reduce inside call (moves_setRdco_goto s t root _ _) rfl rfl ?_
  refine (inv.rdco root).goes inside call (reduce_user n root count op)
    (reduce_slot inv inside call has) (moves_setRdco_goto s t root _ _) ?_ change mine rfl
    (Function.update_self ..) holds spare level cursors first
  rw [party_setRdco_goto s t root q busy]
  exact cell

theorem plain_reduce {pc pc' : Pc} {q : HandleQueue RDCHandle} (at' : s.pc t = pc)
    (has : pc.item = some item) (links : q.next = (s.rdco root).next)
    (fresh : (s.rdco root).fresh ≤ q.fresh)
    (mem : ∀ a, a ≠ item → a < (s.rdco root).fresh → q.mem a = (s.rdco root).mem a)
    (plain : pc'.Plain item) (level : pc'.advanced = pc.advanced)
    (cursors : q.cursor = (s.rdco root).cursor) (first : q.first = (s.rdco root).first)
    (cell : ReduceCell n root op count ((s.party (s.call t)).goto t pc') (q.mem item) (q.next item)) :
    Invariant n calls ((s.setRdco root q).goto t pc') := by
  have slot := reduce_slot inv inside call (by rw [at']; exact has)
  refine goes_reduce inv inside call at' has
    (Change.same (inv.rdco root) links fresh mem (s.rdco root).fresh) (.inr le_rfl) ?_
    (plain.holds (by rw [links]; exact slot)) ?_ level cursors first cell
  · rintro rfl
    cases plain.item
  · rw [plain.spare]
    exact nofun

theorem wait_reduce {pc : Pc} {q : HandleQueue RDCHandle} (at' : s.pc t = pc)
    (has : pc.item = some item) (early : (Stage.inside pc).early = true)
    (level : pc.advanced = false) (avail : ((s.rdco root).mem item).avail ≠ -1)
    (same : q = { s.rdco root with freed := q.freed }) :
    Invariant n calls ((s.setRdco root q).goto t (.await item)) := by
  have slot := reduce_slot inv inside call (by rw [at']; exact has)
  have busy : pc ≠ .idle := by
    rintro rfl
    cases has
  have stage := stage_now at' busy
  have cell := (reduce_cell inv call slot).wait inside stage (by rw [stage]; exact early) avail item
  rw [same]
  exact plain_reduce inv inside call at' has rfl le_rfl (fun _ _ _ => rfl) ⟨rfl, rfl, nofun⟩
    level.symm rfl rfl cell

theorem look_reduce (at' : s.pc t = .look item)
    (taken : tmpiRdcoReduce n s t root op count = some s') : Invariant n calls s' := by
  simp only [tmpiRdcoReduce, at'] at taken
  have slot := reduce_slot inv inside call (by rw [at']; rfl)
  have queue := inv.rdco root
  split at taken
  next avail =>
    rw [Option.some.injEq] at taken
    subst taken
    have cell := (reduce_cell inv call slot).look avail item (s.rdco root).fresh (t := t)
    have low := nth_below queue.rising queue.pos slot
    have links : ((s.rdco root).alloc ⟨-1, fun _ => 0, 0⟩).next = (s.rdco root).next := by
      rw [HandleQueue.alloc, ← queue.beyond _ le_rfl, Function.update_eq_self]
    have mem : ∀ a, a ≠ item → a < (s.rdco root).fresh →
        ((s.rdco root).alloc ⟨-1, fun _ => 0, 0⟩).mem a = (s.rdco root).mem a :=
      fun a _ below => Function.update_of_ne below.ne ..
    have unchained : ∀ i, nth (s.rdco root).next 0 i ≠ some (s.rdco root).fresh := fun i chained =>
      lt_irrefl _ (nth_below queue.rising queue.pos chained)
    have spare : Spare (reduceKind n root) ((s.rdco root).alloc ⟨-1, fun _ => 0, 0⟩) item
        (s.rdco root).fresh := by
      refine ⟨?_, ?_, by rw [links]; exact unchained, low, Nat.lt_succ_self _⟩
      · simp [HandleQueue.alloc, reduceKind]
      · rw [links]
        exact queue.beyond _ le_rfl
    refine goes_reduce inv inside call at' rfl
      (Change.same queue links (Nat.le_succ _) mem (s.rdco root).fresh) (.inr le_rfl) nofun
      ⟨fun a is => ?_, fun a b has is => ?_, nofun⟩ (fun a is => ?_) rfl rfl rfl ?_
    · cases is
      rw [links]
      exact slot
    · cases has
      cases is
      exact spare
    · cases is
      exact .inr le_rfl
    · rw [links, HandleQueue.alloc]
      simpa [Function.update_of_ne low.ne] using cell
  next avail =>
    rw [Option.some.injEq] at taken
    have waits := wait_reduce inv inside call (q := s.rdco root) at' rfl rfl rfl avail rfl
    rw [setRdco_self, taken] at waits
    exact waits

theorem claim_reduce (at' : s.pc t = .claim item newitem)
    (taken : tmpiRdcoReduce n s t root op count = some s') : Invariant n calls s' := by
  simp only [tmpiRdcoReduce, at'] at taken
  have slot := reduce_slot inv inside call (by rw [at']; rfl)
  have queue := inv.rdco root
  split at taken
  next avail =>
    rw [Option.some.injEq] at taken
    subst taken
    have cell := (reduce_cell inv call slot).claim inside avail item newitem
    have held := (queue.thread t inside (reduce_on call)).spare item newitem (by rw [at']; rfl)
      (by rw [at']; rfl)
    have apart : newitem ≠ item := fun same => held.unchained _ (same ▸ slot)
    set q := (s.rdco root).set item { (s.rdco root).mem item with avail := 0 } with which
    have mem : ∀ a, a ≠ item → q.mem a = (s.rdco root).mem a :=
      fun a other => Function.update_of_ne other ..
    have spare : Spare (reduceKind n root) q item newitem := by
      refine ⟨?_, held.next, held.unchained, held.above, held.below⟩
      rw [mem newitem apart]
      exact held.blank
    have change : Change (reduceKind n root) (s.rdco root) q item newitem := by
      refine Change.same queue ?_ ?_ (fun a other _ => mem a other) newitem
      · rfl
      · exact le_rfl
    refine goes_reduce inv inside call at' rfl change (.inl rfl) nofun
      ⟨fun a is => ?_, fun a b has is => ?_, nofun⟩ (fun a is => ?_) rfl rfl rfl ?_
    · cases is
      exact slot
    · cases has
      cases is
      exact spare
    · exact .inl is
    · simpa [which, HandleQueue.set] using cell
  next avail =>
    rw [Option.some.injEq] at taken
    subst taken
    exact wait_reduce inv inside call at' rfl rfl rfl avail rfl

theorem publish_reduce (at' : s.pc t = .publish item newitem)
    (taken : tmpiRdcoReduce n s t root op count = some s') : Invariant n calls s' := by
  simp only [tmpiRdcoReduce, at'] at taken
  have slot := reduce_slot inv inside call (by rw [at']; rfl)
  have queue := inv.rdco root
  have cell := (reduce_cell inv call slot).publish inside (stage_now at' nofun)
  have ends := ((reduce_cell inv call slot).claimed_of inside (stage_now at' nofun)).1
  have held := (queue.thread t inside (reduce_on call)).spare item newitem (by rw [at']; rfl)
    (by rw [at']; rfl)
  set q := ((s.rdco root).link item newitem).set item
    ⟨1, (s.current t).firstData (t = root) count, count⟩ with which
  have links : q.next = Function.update (s.rdco root).next item (some newitem) := rfl
  have mem : ∀ a, a ≠ item → q.mem a = (s.rdco root).mem a :=
    fun a other => Function.update_of_ne other ..
  have blank : (reduceKind n root).Blank (q.mem newitem) := by
    rw [mem newitem held.above.ne']
    exact held.blank
  have handle : q.mem item = ⟨1, (s.current t).firstData (t = root) count, count⟩ :=
    Function.update_self ..
  have link : q.next item = some newitem := Function.update_self ..
  have change : Change (reduceKind n root) (s.rdco root) q item newitem :=
    Change.link queue slot ends held.next held.above held.below blank links le_rfl
      fun a other _ => mem a other
  split at taken
  next => cases taken
  split at taken
  next atRoot =>
    rw [Option.some.injEq] at taken
    subst taken
    rw [if_pos atRoot] at cell
    refine goes_reduce inv inside call at' rfl change (.inl rfl) nofun
      ⟨fun a is => ?_, fun a b _ is => ?_, fun a b is => ?_⟩ nofun rfl rfl rfl ?_
    · cases is
      exact change.keeps _ item slot
    · cases is
    · cases is
      exact link
    · rw [handle, link]
      exact cell
  next away =>
    rw [Option.some.injEq] at taken
    subst taken
    rw [if_neg away] at cell
    have cursors : Change (reduceKind n root) (s.rdco root) (q.setCursor t (some newitem)) item
        newitem := ⟨change.rising, change.fresh, change.beyond, change.keeps, change.brings,
      change.next, change.mem⟩
    refine inv.of_reduce inside call (moves_setRdco_leave s t root _ _) rfl rfl ?_
    refine queue.leaves inside call (reduce_user n root count op) slot
      (moves_setRdco_leave s t root _ _) ?_ cursors (.inl (by rw [at']; rfl))
      (Function.update_self ..) (Function.update_self ..)
      (fun u other => Function.update_of_ne other ..)
      (.inr ⟨newitem, Function.update_self .., link⟩) (.inl rfl)
    rw [party_setRdco_leave]
    change ReduceCell n root op count _ (q.mem item) (q.next item)
    rw [handle, link]
    exact cell

theorem await_reduce (at' : s.pc t = .await item)
    (taken : tmpiRdcoReduce n s t root op count = some s') : Invariant n calls s' := by
  simp only [tmpiRdcoReduce, at'] at taken
  have slot := reduce_slot inv inside call (by rw [at']; rfl)
  split at taken
  next => cases taken
  next avail =>
    rw [Option.some.injEq] at taken
    have cell := (reduce_cell inv call slot).join inside (stage_now at' nofun) avail
    have joins : Invariant n calls ((s.setRdco root (s.rdco root)).goto t (.combine item 0)) :=
      plain_reduce inv inside call at' rfl rfl le_rfl (fun _ _ _ => rfl) ⟨rfl, rfl, nofun⟩ rfl rfl
        rfl cell
    rw [setRdco_self, taken] at joins
    exact joins

theorem combine_reduce {i : Nat} (at' : s.pc t = .combine item i)
    (taken : tmpiRdcoReduce n s t root op count = some s') : Invariant n calls s' := by
  simp only [tmpiRdcoReduce, at'] at taken
  have slot := reduce_slot inv inside call (by rw [at']; rfl)
  have stage := stage_now at' nofun
  split at taken
  next more =>
    rw [Option.some.injEq] at taken
    subst taken
    have cell := (reduce_cell inv call slot).combine inside stage
    refine plain_reduce inv inside call at' rfl rfl le_rfl
      (fun a other _ => Function.update_of_ne other ..) ⟨rfl, rfl, nofun⟩ rfl rfl rfl ?_
    simpa [HandleQueue.set, party_args] using cell
  next done =>
    rw [Option.some.injEq] at taken
    subst taken
    have cell := (reduce_cell inv call slot).combined inside stage done
    obtain ⟨a, link⟩ := Option.ne_none_iff_exists'.mp cell.1
    refine inv.of_reduce inside call (moves_setRdco_goto s t root _ _) rfl rfl ?_
    refine (inv.rdco root).advances inside call (reduce_user n root count op) slot
      (moves_setRdco_goto s t root _ _) ?_ rfl (Function.update_self ..) ⟨rfl, rfl, nofun⟩ rfl link
      (by rw [link])
    rw [party_setRdco_goto]
    · exact cell.2
    · exact nofun

theorem bump_reduce (at' : s.pc t = .bump item)
    (taken : tmpiRdcoReduce n s t root op count = some s') : Invariant n calls s' := by
  simp only [tmpiRdcoReduce, at'] at taken
  have slot := reduce_slot inv inside call (by rw [at']; rfl)
  have cell := (reduce_cell inv call slot).bump inside (stage_now at' nofun)
  split at taken
  next atRoot =>
    rw [Option.some.injEq] at taken
    subst taken
    rw [if_pos atRoot] at cell
    refine plain_reduce inv inside call at' rfl rfl le_rfl
      (fun a other _ => Function.update_of_ne other ..) ⟨rfl, rfl, nofun⟩ rfl rfl rfl ?_
    simpa [HandleQueue.set] using cell
  next away =>
    rw [Option.some.injEq] at taken
    subst taken
    rw [if_neg away] at cell
    refine inv.of_reduce inside call (moves_setRdco_leave s t root _ _) rfl rfl ?_
    refine (inv.rdco root).leaves inside call (reduce_user n root count op) slot
      (moves_setRdco_leave s t root _ _) ?_ (Change.same (inv.rdco root) ?_ ?_ ?_ (s.rdco root).fresh)
      (.inr le_rfl) (Function.update_self ..) (Function.update_self ..) (fun _ _ => rfl)
      (.inl ⟨by rw [at']; rfl, rfl⟩) (.inl rfl)
    · rw [party_setRdco_leave]
      simpa [HandleQueue.set, reduceKind, party_args, setRdco_current] using cell
    · rfl
    · exact le_rfl
    · exact fun a other _ => Function.update_of_ne other ..

theorem gather_reduce {newitem : Option Nat} (at' : s.pc t = .gather item newitem)
    (taken : tmpiRdcoReduce n s t root op count = some s') : Invariant n calls s' := by
  simp only [tmpiRdcoReduce, at'] at taken
  have slot := reduce_slot inv inside call (by rw [at']; rfl)
  split at taken
  next => cases taken
  next full =>
    rw [Option.some.injEq] at taken
    subst taken
    have cell := (reduce_cell inv call slot).gather inside (stage_now at' nofun) (not_not.mp full)
    obtain ⟨-, cell, all⟩ := cell
    rw [party_args] at cell all
    set b : Buffers := { s.current t with
      recvbuf := copyInts (s.current t).recvbuf ((s.rdco root).mem item).data
        (min count ((s.rdco root).mem item).count) }
    have linked := ((inv.rdco root).thread t inside (reduce_on call)).linked
    refine inv.of_reduce inside call (moves_setRdco_leave s t root _ _) rfl rfl ?_
    refine (inv.rdco root).leaves inside call (reduce_user n root count op) slot
      (moves_setRdco_leave s t root _ _) ?_ (Change.same (inv.rdco root) ?_ ?_ ?_ (s.rdco root).fresh)
      (.inr le_rfl) (Function.update_self ..) (Function.update_self ..) ?_ ?_ (.inr ?_)
    · rw [party_setRdco_leave]
      cases newitem <;> exact cell
    · cases newitem <;> rfl
    · cases newitem <;> exact le_rfl
    · intro a _ _
      cases newitem <;> rfl
    · intro u other
      cases newitem with
      | none => rfl
      | some newitem => exact Function.update_of_ne other ..
    · cases newitem with
      | none => exact .inl ⟨by rw [at']; rfl, rfl⟩
      | some newitem => exact .inr ⟨newitem, Function.update_self .., linked item newitem at'⟩
    · intro u member
      have gone := all u member
      rw [← party_setRdco_leave s t root] at gone
      exact gone

end Reduce

section Runs

variable {n : Nat} {calls : List Collective} {s s' : Objects}

theorem enter_invariant (inv : Invariant n calls s) (several : 2 ≤ n) {t : Nat} (inside : t < n)
    (idle : s.pc t = .idle) (b : Buffers) {c : Collective} (call : calls[s.call t]? = some c)
    (taken : enter n s t b c = some s') : Invariant n calls s' := by
  cases c with
  | bcast root len =>
      rw [enter, if_neg (by omega)] at taken
      exact enter_bcast inv inside call idle b taken
  | reduce root op count =>
      rw [enter, if_neg (by omega)] at taken
      exact enter_reduce inv inside call idle b taken

theorem bcast_invariant (inv : Invariant n calls s) {t root len : Nat} (inside : t < n)
    (call : calls[s.call t]? = some (.bcast root len))
    (taken : tmpiBcoBcast n s t root len = some s') : Invariant n calls s' := by
  cases at' : s.pc t with
  | post => exact post_bcast inv inside call at' taken
  | await => exact copy_bcast inv inside call at' taken
  | depart => exact depart_bcast inv inside call at' taken
  | _ => simp [tmpiBcoBcast, at'] at taken

theorem reduce_invariant (inv : Invariant n calls s) {t root count : Nat} {op : Option RdcOp}
    (inside : t < n) (call : calls[s.call t]? = some (.reduce root op count))
    (taken : tmpiRdcoReduce n s t root op count = some s') : Invariant n calls s' := by
  cases at' : s.pc t with
  | look => exact look_reduce inv inside call at' taken
  | claim => exact claim_reduce inv inside call at' taken
  | publish => exact publish_reduce inv inside call at' taken
  | await => exact await_reduce inv inside call at' taken
  | combine => exact combine_reduce inv inside call at' taken
  | bump => exact bump_reduce inv inside call at' taken
  | gather => exact gather_reduce inv inside call at' taken
  | _ => simp [tmpiRdcoReduce, at'] at taken

theorem step_invariant (inv : Invariant n calls s) (several : 2 ≤ n) {act : Act}
    (inside : act.thread < n) (taken : step n s calls act = some s') : Invariant n calls s' := by
  cases act with
  | enter t b =>
      rw [step] at taken
      split at taken
      next => cases taken
      next idle =>
        obtain ⟨c, call, entered⟩ := Option.bind_eq_some_iff.mp taken
        exact enter_invariant inv several inside (not_not.mp idle) b call entered
  | run t =>
      rw [step] at taken
      split at taken
      next => cases taken
      next root len call => exact bcast_invariant inv inside call taken
      next root op count call => exact reduce_invariant inv inside call taken

theorem reach_invariant (several : 2 ≤ n) (reach : Reach n calls s) : Invariant n calls s := by
  induction reach with
  | create => exact create_invariant n calls
  | step _ inside taken ih => exact step_invariant ih several inside taken

/-- What a call may leave with thread `t`. -/
def Collective.Leaves (n : Nat) (args : Nat → Buffers) (t : Nat) : Collective → Buffers → Prop
  | .bcast root len, b => b = bcastResult root len args t
  | .reduce root op count, b => Reduced n root op count args t b

theorem reach_past (several : 2 ≤ n) (reach : Reach n calls s) {k t : Nat} {c : Collective}
    (call : calls[k]? = some c) (inside : t < n) (past : k < s.call t) :
    ∃ b, s.results k t = some b ∧ c.Leaves n (s.args k) t b := by
  have inv := reach_invariant several reach
  have stage : (s.party k).stage t = .after := Objects.stage_past past
  cases c with
  | bcast root len =>
      have on : onCall (bcastKind n root).on calls k = true := by simp [onCall, call, bcastKind]
      cases slot : nth (s.bco root).next 0 (turn (bcastKind n root).on calls k) with
      | none =>
          have before := (inv.bco root).untouched on slot inside
          exact absurd (before.symm.trans stage) (by simp)
      | some a =>
          have cell := (inv.bco root).cell k _ call (bcast_user n root len) a slot
          exact ⟨_, (BcastCell.left cell inside stage).1, rfl⟩
  | reduce root op count =>
      have on : onCall (reduceKind n root).on calls k = true := by simp [onCall, call, reduceKind]
      cases slot : nth (s.rdco root).next 0 (turn (reduceKind n root).on calls k) with
      | none =>
          have before := (inv.rdco root).untouched on slot inside
          exact absurd (before.symm.trans stage) (by simp)
      | some a =>
          have cell := (inv.rdco root).cell k _ call (reduce_user n root count op) a slot
          exact (ReduceCell.left cell inside stage).1

end Runs

end Tmpi.Coll
