import Tmpi.Intra.Places

/-! The invariant, one side of the state at a time, and how each side takes an update. -/

namespace Tmpi.Intra

open Function (update)

/-- The send handles against the places of their requests. -/
structure SendSide (cfg : Config) (live : Addr → Prop) (smem : Addr → SCell) (job : Addr → Job)
    (send : Addr → SPlace) : Prop where
  ok : ∀ a, SendOk cfg a (smem a) (job a) (send a)
  live : ∀ a, SendUsed (smem a) (send a) → live a

/-- The receive handles against the places of their requests. -/
structure RecvSide (live : Addr → Prop) (rmem : Addr → RHandle) (want : Addr → Want)
    (recv : Addr → RPlace) (job : Addr → Job) (log : List Event) (trace : Int → Trace) : Prop where
  handle : ∀ b, RHandleOk b (rmem b)
  ok : ∀ b, RPlaceOk (rmem b) (want b) job log (trace b.owner) (recv b)
  live : ∀ b, RecvUsed (rmem b) (recv b) → live b

/-- A channel against the places of the requests it holds. -/
structure ChanOk (c : Int) (ch : Channel) (smem : Addr → SCell) (job : Addr → Job)
    (send : Addr → SPlace) (recv : Addr → RPlace) : Prop where
  sq : ∀ x ∈ ch.sq, Linked c x (smem x) job send
  rq : ∀ b ∈ ch.rq, recv b = .queue ∧ b.owner = c
  busy : ∀ b a, ch.busy = some (b, a) → send a = .found b ∧ (job a).dest = c ∧ b.owner = c
  sqNodup : ch.sq.Nodup
  rqNodup : ch.rq.Nodup
  queued : ∀ a, send a = .queue → (job a).dest = c → a ∈ ch.sq
  taken : ∀ a b, send a = .found b → (job a).dest = c → ch.busy = some (b, a)
  parked : ∀ a q, send a = .parked q → (job a).dest = c → q ∈ ch.sq ∧ (smem q).origin q = a
  waiting : ∀ b, recv b = .queue → b.owner = c → b ∈ ch.rq

/-- The links and the receiver threads: a request has at most one message under way, and none of them
gets lost. -/
structure WireSide (link : Nat → Nat → List Frame) (answer : Nat → Option Answer)
    (send : Addr → SPlace) : Prop where
  frames : ∀ m m', ∀ frame ∈ link m m', send frame.send = .wire m m' frame
  nodup : ∀ m m', ((link m m').map Frame.send).Nodup
  answers : ∀ m ans, answer m = some ans → ∃ a, send a = .answering m ans
  sent : ∀ a m m' frame, send a = .wire m m' frame → frame ∈ link m m' ∧ frame.send = a
  asked : ∀ a m ans, send a = .answering m ans → answer m = some ans ∧ ans.send = a

/-- Sends and receives name each other. -/
structure PairSide (job : Addr → Job) (want : Addr → Want) (send : Addr → SPlace)
    (recv : Addr → RPlace) : Prop where
  agree : ∀ a b k, (send a).engaged = some (b, k) ↔ (recv b).engaged = some (a, k)
  carries : ∀ a b k, (send a).engaged = some (b, k) →
    (send a).carries (job a).data (shared (job a) (want b))
  owner : ∀ a b k, (send a).engaged = some (b, k) → b.owner = (job a).dest

def postOf (smem : Addr → SCell) (job : Addr → Job) (x : Addr) : Post :=
  (job ((smem x).origin x)).post

/-- Each channel's trace is one of the first-come matcher, and its queues are what waits. -/
structure MatchSide (chan : Int → Channel) (trace : Int → Trace) (clock : Nat)
    (smem : Addr → SCell) (job : Addr → Job) (want : Addr → Want) (send : Addr → SPlace) : Prop where
  run : ∀ c, Matching.Run postFits (trace c) ((chan c).sq.map (postOf smem job))
    ((chan c).rq.map fun b => (want b).post)
  sendsDiffer : ∀ c, ((Matching.sendsOf (trace c)).map Post.inst).Nodup
  recvsDiffer : ∀ c, ((Matching.recvsOf (trace c)).map Post.inst).Nodup
  sendsOld : ∀ c, ∀ post ∈ Matching.sendsOf (trace c), post.inst < clock
  recvsOld : ∀ c, ∀ post ∈ Matching.recvsOf (trace c), post.inst < clock
  jobsOld : ∀ a, send a ≠ .off → (job a).inst < clock
  jobsDiffer : ∀ a a', send a ≠ .off → send a' ≠ .off → (job a).inst = (job a').inst → a = a'
  unposted : ∀ a, (send a).arriving = true →
    ∀ post ∈ Matching.sendsOf (trace (job a).dest), post.inst ≠ (job a).inst

/-- What the log says. -/
structure LogSide (log : List Event) (clock : Nat) (trace : Int → Trace) (job : Addr → Job)
    (want : Addr → Want) (send : Addr → SPlace) (recv : Addr → RPlace) : Prop where
  sendStarted : ∀ a, send a ≠ .off →
    .sendStarted (job a).inst (job a).envelope.src (job a).envelope.tag (job a).data ∈ log
  recvStarted : ∀ b, recv b ≠ .off → .recvStarted (want b).inst (want b).data ∈ log
  sendsOld : ∀ inst src tag data, .sendStarted inst src tag data ∈ log → inst < clock
  recvsOld : ∀ inst data, .recvStarted inst data ∈ log → inst < clock
  sendsDiffer : ∀ inst src tag data src' tag' data', .sendStarted inst src tag data ∈ log →
    .sendStarted inst src' tag' data' ∈ log → src = src' ∧ tag = tag' ∧ data = data'
  recvsDiffer : ∀ inst data data', .recvStarted inst data ∈ log →
    .recvStarted inst data' ∈ log → data = data'
  received : ∀ inst peer status data, .received inst peer status data ∈ log →
    ∃ c, Delivered log (trace c) inst peer status data
  noFault : ∀ what, .fault what ∉ log

structure PoolOk (pool : Pool) : Prop where
  nodup : pool.allocate.Nodup
  bound : ∀ idx ∈ pool.allocate, idx < pool.carved

/-- The pools, and that what a queue links has been handed out. -/
structure PoolSide (chan : Int → Channel) : Prop where
  spool : ∀ c, PoolOk (chan c).spool
  rpool : ∀ c, PoolOk (chan c).rpool
  linked : ∀ c, ∀ x ∈ (chan c).sq, (chan x.owner).spool.Live x.idx

/-- A local send that is matched has its receive in the trace of its destination. -/
def MetSide (smem : Addr → SCell) (trace : Int → Trace) : Prop :=
  ∀ a h, smem a = .send h → h.isRemote = false → h.stat = .matched →
    ∃ recv, Paired (trace h.dest) h.inst recv

structure Inv (cfg : Config) (s : Sys) (g : Ghost) : Prop where
  sends : SendSide cfg s.LiveS s.smem g.job g.send
  recvs : RecvSide s.LiveR s.rmem g.want g.recv g.job s.log s.trace
  chans : ∀ c, ChanOk c (s.chan c) s.smem g.job g.send g.recv
  wires : WireSide s.link s.answer g.send
  pairs : PairSide g.job g.want g.send g.recv
  posts : MatchSide s.chan s.trace s.clock s.smem g.job g.want g.send
  logs : LogSide s.log s.clock s.trace g.job g.want g.send g.recv
  met : MetSide s.smem s.trace
  pools : PoolSide s.chan
  stray : ∀ m m', s.stray m m' = 0

section Sends

variable {cfg : Config} {live live' : Addr → Prop} {smem : Addr → SCell} {job : Addr → Job}
  {send : Addr → SPlace} {a : Addr} {cell : SCell} {j : Job} {p : SPlace}

theorem SendSide.update (side : SendSide cfg live smem job send) (ok : SendOk cfg a cell j p)
    (used : SendUsed cell p → live a) :
    SendSide cfg live (update smem a cell) (update job a j) (update send a p) := by
  constructor
  all_goals
    intro a'
    by_cases same : a' = a
    · subst same
      simpa using by assumption
    · simpa [Function.update_of_ne same] using by first | exact side.ok a' | exact side.live a'

theorem SendSide.move (side : SendSide cfg live smem job send) (ok : SendOk cfg a cell (job a) p)
    (used : SendUsed cell p → live a) :
    SendSide cfg live (Function.update smem a cell) job (Function.update send a p) := by
  simpa using side.update ok used

theorem SendSide.rewrite (side : SendSide cfg live smem job send)
    (ok : SendOk cfg a cell (job a) (send a)) (used : SendUsed cell (send a) → live a) :
    SendSide cfg live (Function.update smem a cell) job send := by
  simpa using side.move ok used

theorem SendSide.relocate (side : SendSide cfg live smem job send)
    (ok : SendOk cfg a (smem a) (job a) p) (used : SendUsed (smem a) p → live a) :
    SendSide cfg live smem job (Function.update send a p) := by
  simpa using side.move ok used

theorem SendSide.relive (side : SendSide cfg live smem job send)
    (keep : ∀ a, live a → SendUsed (smem a) (send a) → live' a) :
    SendSide cfg live' smem job send :=
  ⟨side.ok, fun a used => keep a (side.live a used) used⟩

end Sends

section Receives

variable {live live' : Addr → Prop} {rmem : Addr → RHandle} {want : Addr → Want}
  {recv : Addr → RPlace} {job job' : Addr → Job} {log log' : List Event} {trace trace' : Int → Trace}
  {a b : Addr} {r : RHandle} {w : Want} {p : RPlace} {j : Job}

theorem Paired.mono {front back : Trace} {send recv : Nat} (paired : Paired front send recv)
    (sub : front ⊆ back) : Paired back send recv := by
  obtain ⟨e, e', member⟩ := paired
  exact ⟨e, e', sub member⟩

theorem MetSide.grow {smem : Addr → SCell} (side : MetSide smem trace)
    (traces : ∀ c, trace c ⊆ trace' c) : MetSide smem trace' := by
  intro a h cell near stat
  obtain ⟨recv, paired⟩ := side a h cell near stat
  exact ⟨recv, paired.mono (traces h.dest)⟩

theorem MetSide.put {smem : Addr → SCell} (side : MetSide smem trace) (cell : SCell)
    (ok : ∀ h, cell = .send h → h.isRemote = false → h.stat = .matched →
      ∃ recv, Paired (trace h.dest) h.inst recv) : MetSide (update smem a cell) trace := by
  intro x h there near stat
  by_cases here : x = a
  · subst here
    rw [Function.update_self] at there
    exact ok h there near stat
  · rw [Function.update_of_ne here] at there
    exact side x h there near stat

/-- A handle that is matched afterwards was so before. -/
theorem MetSide.keep {smem : Addr → SCell} {h h' : SHandle} (side : MetSide smem trace)
    (cell : smem a = .send h) (same : h'.stat = .matched →
      h.stat = .matched ∧ h'.inst = h.inst ∧ h'.dest = h.dest ∧ h'.isRemote = h.isRemote) :
    MetSide (update smem a (.send h')) trace := by
  refine side.put _ fun h'' here near stat => ?_
  obtain rfl := SCell.send.inj here
  obtain ⟨before, inst, dest, remote⟩ := same stat
  rw [inst, dest]
  exact side a h cell (remote ▸ near) before

theorem MetSide.away {smem : Addr → SCell} {h' : SHandle} (side : MetSide smem trace)
    (far : h'.stat = .matched → h'.isRemote = true) : MetSide (update smem a (.send h')) trace := by
  refine side.put _ fun h'' here near stat => ?_
  obtain rfl := SCell.send.inj here
  rw [far stat] at near
  cases near

theorem Delivered.mono {front back : Trace} {inst peer : Nat} {status : Status} {data : Buffer}
    (done : Delivered log front inst peer status data) (logs : log ⊆ log')
    (traces : front ⊆ back) : Delivered log' back inst peer status data := by
  obtain ⟨paired, src, tag, sent, before, filled⟩ := done
  exact ⟨paired.mono traces, src, tag, sent, before,
    { filled with
      sendStarted := logs filled.sendStarted
      recvStarted := logs filled.recvStarted }⟩

theorem RPlaceOk.mono {front back : Trace} (ok : RPlaceOk r w job log front p) (logs : log ⊆ log')
    (traces : front ⊆ back) : RPlaceOk r w job log' back p := by
  cases p with
  | off =>
      obtain ⟨pc, state⟩ := ok
      exact ⟨pc, state.imp_right fun rest => rest.imp_right fun done =>
        ⟨done.1, done.2.mono logs traces⟩⟩
  | queue => exact ok
  | starting a =>
      obtain ⟨pc, stat, agrees, paired⟩ := ok
      exact ⟨pc, stat, agrees, paired.mono traces⟩
  | awaiting a =>
      obtain ⟨pc, stat, awaits⟩ := ok
      exact ⟨pc, stat, { awaits with paired := awaits.paired.mono traces }⟩

theorem RecvSide.update (side : RecvSide live rmem want recv job log trace)
    (handle : RHandleOk b r) (ok : RPlaceOk r w job log (trace b.owner) p)
    (used : RecvUsed r p → live b) :
    RecvSide live (update rmem b r) (update want b w) (update recv b p) job log trace := by
  constructor
  all_goals
    intro b'
    by_cases same : b' = b
    · subst same
      simpa using by assumption
    · simpa [Function.update_of_ne same] using
        by first | exact side.handle b' | exact side.ok b' | exact side.live b'

theorem RecvSide.move (side : RecvSide live rmem want recv job log trace)
    (handle : RHandleOk b r) (ok : RPlaceOk r (want b) job log (trace b.owner) p)
    (used : RecvUsed r p → live b) :
    RecvSide live (Function.update rmem b r) want (Function.update recv b p) job log trace := by
  simpa using side.update handle ok used

theorem RecvSide.rewrite (side : RecvSide live rmem want recv job log trace)
    (handle : RHandleOk b r) (ok : RPlaceOk r (want b) job log (trace b.owner) (recv b))
    (used : RecvUsed r (recv b) → live b) :
    RecvSide live (Function.update rmem b r) want recv job log trace := by
  simpa using side.move handle ok used

theorem RecvSide.grow (side : RecvSide live rmem want recv job log trace) (logs : log ⊆ log')
    (traces : ∀ c, trace c ⊆ trace' c) : RecvSide live rmem want recv job log' trace' :=
  ⟨side.handle, fun b => (side.ok b).mono logs (traces b.owner), side.live⟩

/-- Only a receive that is engaged with a send looks at what the send was started with. -/
theorem RecvSide.rejob (side : RecvSide live rmem want recv job log trace)
    (apart : ∀ b, recv b ≠ .starting a ∧ recv b ≠ .awaiting a) :
    RecvSide live rmem want recv (Function.update job a j) log trace := by
  refine ⟨side.handle, fun b => ?_, side.live⟩
  have ok := side.ok b
  cases place : recv b with
  | off | queue => simpa [place, RPlaceOk] using ok
  | starting a' =>
      have other : a' ≠ a := fun same => (apart b).1 (same ▸ place)
      simpa [place, RPlaceOk, Function.update_of_ne other] using ok
  | awaiting a' =>
      have other : a' ≠ a := fun same => (apart b).2 (same ▸ place)
      simpa [place, RPlaceOk, Function.update_of_ne other] using ok

theorem RecvSide.relive (side : RecvSide live rmem want recv job log trace)
    (keep : ∀ b, live b → RecvUsed (rmem b) (recv b) → live' b) :
    RecvSide live' rmem want recv job log trace :=
  ⟨side.handle, side.ok, fun b used => keep b (side.live b used) used⟩

end Receives

section Channels

variable {c : Int} {ch : Channel} {chan : Int → Channel} {smem : Addr → SCell} {job : Addr → Job}
  {send : Addr → SPlace} {recv : Addr → RPlace} {a b x q : Addr} {cell : SCell} {h h' : SHandle}
  {j : Job} {p : SPlace} {p' : RPlace} {front back : List Addr}

theorem chans_update (side : ∀ c', c' ≠ c → ChanOk c' (chan c') smem job send recv)
    (changed : ChanOk c ch smem job send recv) :
    ∀ c', ChanOk c' (update chan c ch c') smem job send recv := by
  intro c'
  by_cases same : c' = c
  · subst same
    simpa using changed
  · simpa [Function.update_of_ne same] using side c' same

theorem Linked.place (linked : Linked c x cell job send) :
    (send (cell.origin x)).linked = true ∧ (job (cell.origin x)).dest = c := by
  obtain ⟨dest, rest⟩ := linked
  cases cell with
  | send h => exact ⟨by simp [SCell.origin, rest, SPlace.linked], dest⟩
  | remote r => exact ⟨by simp [SCell.origin, rest.1, SPlace.linked], dest⟩

theorem Linked.congr (linked : Linked c x cell job send) (other : cell.origin x ≠ a) :
    Linked c x cell (Function.update job a j) (Function.update send a p) := by
  cases cell with
  | send h =>
      have other : x ≠ a := other
      simpa [Linked, SCell.origin, Function.update_of_ne other] using linked
  | remote r =>
      have other : r.remoteSendHandle ≠ a := other
      simpa [Linked, SCell.origin, Function.update_of_ne other] using linked

theorem Linked.move (linked : Linked c x cell job send) (other : cell.origin x ≠ a) :
    Linked c x cell job (Function.update send a p) := by
  simpa using linked.congr (j := job a) (p := p) other

theorem ChanOk.notLinked (ok : ChanOk c ch smem job send recv) (cell : smem a = .send h)
    (place : send a = .queue → (job a).dest ≠ c) : a ∉ ch.sq := by
  intro member
  have linked := ok.sq a member
  rw [cell] at linked
  exact place linked.2 linked.1

/-- A request that is not in this channel, before or after. -/
theorem ChanOk.elsewhere (ok : ChanOk c ch smem job send recv) (apart : a ∉ ch.sq)
    (old : (send a).linked = true → (job a).dest ≠ c) (new : p.linked = true → j.dest ≠ c) :
    ChanOk c ch (update smem a cell) (update job a j) (update send a p) recv where
  sq x member := by
    have linked := ok.sq x member
    have other : x ≠ a := fun same => apart (same ▸ member)
    rw [Function.update_of_ne other]
    refine linked.congr fun same => ?_
    have place := linked.place
    rw [same] at place
    exact old place.1 place.2
  rq := ok.rq
  busy b x busy := by
    obtain ⟨place, dest, owner⟩ := ok.busy b x busy
    have other : x ≠ a := by
      intro same
      subst same
      exact old (by simp [place, SPlace.linked]) dest
    exact ⟨by rwa [Function.update_of_ne other], by rwa [Function.update_of_ne other], owner⟩
  sqNodup := ok.sqNodup
  rqNodup := ok.rqNodup
  queued x place dest := by
    by_cases same : x = a
    · subst same
      simp only [Function.update_self] at place dest
      exact absurd dest (new (by simp [place, SPlace.linked]))
    · rw [Function.update_of_ne same] at place dest
      exact ok.queued x place dest
  taken x b place dest := by
    by_cases same : x = a
    · subst same
      simp only [Function.update_self] at place dest
      exact absurd dest (new (by simp [place, SPlace.linked]))
    · rw [Function.update_of_ne same] at place dest
      exact ok.taken x b place dest
  parked x q place dest := by
    by_cases same : x = a
    · subst same
      simp only [Function.update_self] at place dest
      exact absurd dest (new (by simp [place, SPlace.linked]))
    · rw [Function.update_of_ne same] at place dest
      obtain ⟨member, origin⟩ := ok.parked x q place dest
      have other : q ≠ a := fun same => apart (same ▸ member)
      exact ⟨member, by rwa [Function.update_of_ne other]⟩
  waiting := ok.waiting

theorem ChanOk.moveElsewhere (ok : ChanOk c ch smem job send recv) (apart : a ∉ ch.sq)
    (old : (send a).linked = true → (job a).dest ≠ c)
    (new : p.linked = true → (job a).dest ≠ c) :
    ChanOk c ch (update smem a cell) job (update send a p) recv := by
  simpa using ok.elsewhere (j := job a) apart old new

theorem ChanOk.relocate (ok : ChanOk c ch smem job send recv) (apart : a ∉ ch.sq)
    (old : (send a).linked = true → (job a).dest ≠ c)
    (new : p.linked = true → (job a).dest ≠ c) :
    ChanOk c ch smem job (update send a p) recv := by
  have moved : ChanOk c ch (update smem a (smem a)) job (update send a p) recv :=
    ok.moveElsewhere apart old new
  simpa using moved

/-- A send handle changes and its place does not. -/
theorem ChanOk.rewrite (ok : ChanOk c ch smem job send recv) (cell : smem a = .send h) :
    ChanOk c ch (update smem a (.send h')) job send recv where
  sq x member := by
    by_cases same : x = a
    · subst same
      have linked := ok.sq x member
      rw [cell] at linked
      rw [Function.update_self]
      exact linked
    · rw [Function.update_of_ne same]
      exact ok.sq x member
  rq := ok.rq
  busy := ok.busy
  sqNodup := ok.sqNodup
  rqNodup := ok.rqNodup
  queued := ok.queued
  taken := ok.taken
  parked x q place dest := by
    obtain ⟨member, origin⟩ := ok.parked x q place dest
    refine ⟨member, ?_⟩
    by_cases same : q = a
    · subst same
      rw [cell] at origin
      rw [Function.update_self]
      exact origin
    · rwa [Function.update_of_ne same]
  waiting := ok.waiting

theorem ChanOk.recvElsewhere (ok : ChanOk c ch smem job send recv)
    (old : recv b = .queue → b.owner ≠ c) (new : p' = .queue → b.owner ≠ c) :
    ChanOk c ch smem job send (update recv b p') where
  sq := ok.sq
  rq b' member := by
    obtain ⟨place, owner⟩ := ok.rq b' member
    have other : b' ≠ b := by
      intro same
      subst same
      exact old place owner
    exact ⟨by rwa [Function.update_of_ne other], owner⟩
  busy := ok.busy
  sqNodup := ok.sqNodup
  rqNodup := ok.rqNodup
  queued := ok.queued
  taken := ok.taken
  parked := ok.parked
  waiting b' place owner := by
    by_cases same : b' = b
    · subst same
      rw [Function.update_self] at place
      exact absurd owner (new place)
    · rw [Function.update_of_ne same] at place
      exact ok.waiting b' place owner

theorem ChanOk.origin_ne (ok : ChanOk c ch smem job send recv) (out : (send a).linked = false) :
    ∀ x ∈ ch.sq, (smem x).origin x ≠ a := by
  intro x member same
  have place := (ok.sq x member).place.1
  rw [same, out] at place
  cases place

theorem mem_of_mem_rest {items : List Addr} (split : items = front ++ x :: back) {y : Addr}
    (member : y ∈ front ++ back) : y ∈ items := by
  rw [split]
  rcases List.mem_append.mp member with old | old <;> simp [old]

/-- The other elements of the queue belong to other requests. -/
theorem ChanOk.others (ok : ChanOk c ch smem job send recv) (split : ch.sq = front ++ x :: back) :
    ∀ y ∈ front ++ back, y ≠ x ∧ (smem y).origin y ≠ (smem x).origin x := by
  have nodup := ok.sqNodup
  rw [split] at nodup
  have here := ok.sq x (by rw [split]; simp)
  intro y member
  have out : x ∉ front ++ back := (List.nodup_cons.mp (List.nodup_middle.mp nodup)).1
  have other : y ≠ x := fun same => out (same ▸ member)
  have there := ok.sq y (mem_of_mem_rest split member)
  refine ⟨other, fun same => ?_⟩
  have dest := there.2
  have dest' := here.2
  cases cell : smem y <;> cases cell' : smem x <;>
    simp only [cell, cell', SCell.origin] at same dest dest' there
  case send.send => exact other same
  case send.remote =>
      rw [← same, dest] at dest'
      cases dest'.1
  case remote.send =>
      rw [same, dest'] at dest
      cases dest.1
  case remote.remote =>
      have places := dest.1
      rw [same, dest'.1] at places
      exact other (SPlace.parked.inj places).symm

theorem ChanOk.enqueue (ok : ChanOk c ch smem job send recv) (out : (send a).linked = false)
    (cell : smem a = .send h) (dest : j.dest = c) :
    ChanOk c { ch with sq := ch.sq ++ [a] } (update smem a (.send h')) (update job a j)
      (update send a .queue) recv where
  sq x member := by
    rcases List.mem_append.mp member with old | new
    · have other : x ≠ a := by
        intro same
        subst same
        exact ok.notLinked cell (fun place => by simp [place, SPlace.linked] at out) old
      rw [Function.update_of_ne other]
      exact (ok.sq x old).congr (ok.origin_ne out x old)
    · obtain rfl := List.mem_singleton.mp new
      simp [Linked, SCell.origin, dest]
  rq := ok.rq
  busy b x busy := by
    obtain ⟨place, dest, owner⟩ := ok.busy b x busy
    have other : x ≠ a := by
      intro same
      simp [← same, place, SPlace.linked] at out
    exact ⟨by rwa [Function.update_of_ne other], by rwa [Function.update_of_ne other], owner⟩
  sqNodup := by
    refine Matching.nodup_concat ok.sqNodup (ok.notLinked cell fun place => ?_)
    simp [place, SPlace.linked] at out
  rqNodup := ok.rqNodup
  queued x place dest := by
    by_cases same : x = a
    · simp [same]
    · rw [Function.update_of_ne same] at place dest
      exact List.mem_append_left _ (ok.queued x place dest)
  taken x b place dest := by
    by_cases same : x = a
    · simp [same] at place
    · rw [Function.update_of_ne same] at place dest
      exact ok.taken x b place dest
  parked x q place dest := by
    by_cases same : x = a
    · simp [same] at place
    · rw [Function.update_of_ne same] at place dest
      obtain ⟨member, origin⟩ := ok.parked x q place dest
      have other : q ≠ a := by
        rintro rfl
        rw [cell] at origin
        exact same origin.symm
      exact ⟨List.mem_append_left _ member, by rwa [Function.update_of_ne other]⟩
  waiting := ok.waiting

theorem ChanOk.take (ok : ChanOk c ch smem job send recv) (split : ch.sq = front ++ a :: back)
    (cell : smem a = .send h) (idle : ch.busy = none) (owner : b.owner = c)
    (off : recv b ≠ .queue) (out : p' ≠ .queue) :
    ChanOk c { ch with sq := front ++ back, busy := some (b, a) } smem job
      (update send a (.found b)) (update recv b p') where
  sq x member := by
    have other := (ok.others split x member).2
    rw [cell] at other
    exact (ok.sq x (mem_of_mem_rest split member)).move other
  rq b' member := by
    obtain ⟨place, owner⟩ := ok.rq b' member
    have other : b' ≠ b := by
      intro same
      subst same
      exact off place
    exact ⟨by rwa [Function.update_of_ne other], owner⟩
  busy b' x busy := by
    obtain ⟨rfl, rfl⟩ := Prod.mk.inj (Option.some.inj busy)
    have linked := (ok.sq a (by rw [split]; simp)).1
    rw [cell] at linked
    exact ⟨by simp, linked, owner⟩
  sqNodup := by
    have nodup := ok.sqNodup
    rw [split] at nodup
    exact (List.nodup_cons.mp (List.nodup_middle.mp nodup)).2
  rqNodup := ok.rqNodup
  queued x place dest := by
    by_cases same : x = a
    · simp [same] at place
    · rw [Function.update_of_ne same] at place
      have old := ok.queued x place dest
      rw [split] at old
      simpa [same] using old
  taken x b' place dest := by
    by_cases same : x = a
    · subst same
      simpa [eq_comm] using place
    · rw [Function.update_of_ne same] at place
      simp [ok.taken x b' place dest] at idle
  parked x q place dest := by
    by_cases same : x = a
    · simp [same] at place
    · rw [Function.update_of_ne same] at place
      obtain ⟨member, origin⟩ := ok.parked x q place dest
      have other : q ≠ a := by
        rintro rfl
        rw [cell] at origin
        exact same origin.symm
      rw [split] at member
      exact ⟨by simpa [other] using member, origin⟩
  waiting b' place owner := by
    by_cases same : b' = b
    · rw [same, Function.update_self] at place
      exact absurd place out
    · rw [Function.update_of_ne same] at place
      exact ok.waiting b' place owner

theorem ChanOk.release (ok : ChanOk c ch smem job send recv) (busy : ch.busy = some (b, a)) :
    ChanOk c { ch with busy := none } smem job (update send a .off) recv where
  sq x member := by
    have other : (smem x).origin x ≠ a := by
      intro same
      have linked := ok.sq x member
      have place := (ok.busy b a busy).1
      rw [← same] at place
      cases cell : smem x <;> rw [cell] at linked place
      · cases place.symm.trans linked.2
      · cases place.symm.trans linked.2.1
    exact (ok.sq x member).move other
  rq := ok.rq
  busy b' x busy := by cases busy
  sqNodup := ok.sqNodup
  rqNodup := ok.rqNodup
  queued x place dest := by
    by_cases same : x = a
    · simp [same] at place
    · rw [Function.update_of_ne same] at place
      exact ok.queued x place dest
  taken x b' place dest := by
    by_cases same : x = a
    · simp [same] at place
    · rw [Function.update_of_ne same] at place
      have holder := (ok.taken x b' place dest).symm.trans busy
      exact absurd (Prod.mk.inj (Option.some.inj holder)).2 same
  parked x q place dest := by
    by_cases same : x = a
    · simp [same] at place
    · rw [Function.update_of_ne same] at place
      exact ok.parked x q place dest
  waiting := ok.waiting

theorem ChanOk.unpark (ok : ChanOk c ch smem job send recv) (split : ch.sq = front ++ q :: back)
    {r : RMSHandle} (cell : smem q = .remote r) (off : send q = .off) (out : p.linked = false) :
    ChanOk c { ch with sq := front ++ back } smem job (update send r.remoteSendHandle p) recv where
  sq x member := by
    have other := (ok.others split x member).2
    rw [cell] at other
    exact (ok.sq x (mem_of_mem_rest split member)).move other
  rq := ok.rq
  busy b x busy := by
    obtain ⟨place, dest, owner⟩ := ok.busy b x busy
    have parked := (ok.sq q (by rw [split]; simp)).2
    rw [cell] at parked
    have other : x ≠ r.remoteSendHandle := by
      intro same
      rw [same, parked.1] at place
      cases place
    exact ⟨by rwa [Function.update_of_ne other], dest, owner⟩
  sqNodup := by
    have nodup := ok.sqNodup
    rw [split] at nodup
    exact (List.nodup_cons.mp (List.nodup_middle.mp nodup)).2
  rqNodup := ok.rqNodup
  queued x place dest := by
    by_cases same : x = r.remoteSendHandle
    · subst same
      simp only [Function.update_self] at place
      simp [place, SPlace.linked] at out
    · rw [Function.update_of_ne same] at place
      have old := ok.queued x place dest
      rw [split] at old
      have other : x ≠ q := by
        intro same
        rw [same, off] at place
        cases place
      simpa [other] using old
  taken x b place dest := by
    by_cases same : x = r.remoteSendHandle
    · subst same
      simp only [Function.update_self] at place
      simp [place, SPlace.linked] at out
    · rw [Function.update_of_ne same] at place
      exact ok.taken x b place dest
  parked x q' place dest := by
    by_cases same : x = r.remoteSendHandle
    · subst same
      simp only [Function.update_self] at place
      simp [place, SPlace.linked] at out
    · rw [Function.update_of_ne same] at place
      obtain ⟨member, origin⟩ := ok.parked x q' place dest
      have other : q' ≠ q := by
        rintro rfl
        rw [cell] at origin
        exact same origin.symm
      rw [split] at member
      exact ⟨by simpa [other] using member, origin⟩
  waiting := ok.waiting

theorem ChanOk.park (ok : ChanOk c ch smem job send recv) (out : (send a).linked = false)
    (apart : q ∉ ch.sq) {r : RMSHandle}
    (linked : Linked c q (.remote r) job (update send a (.parked q))) :
    ChanOk c { ch with sq := ch.sq ++ [q] } (update smem q (.remote r)) job
      (update send a (.parked q)) recv where
  sq x member := by
    rcases List.mem_append.mp member with old | new
    · have other : x ≠ q := fun same => apart (same ▸ old)
      rw [Function.update_of_ne other]
      exact (ok.sq x old).move (ok.origin_ne out x old)
    · obtain rfl := List.mem_singleton.mp new
      simpa using linked
  rq := ok.rq
  busy b x busy := by
    obtain ⟨place, dest, owner⟩ := ok.busy b x busy
    have other : x ≠ a := by
      intro same
      simp [← same, place, SPlace.linked] at out
    exact ⟨by rwa [Function.update_of_ne other], dest, owner⟩
  sqNodup := Matching.nodup_concat ok.sqNodup apart
  rqNodup := ok.rqNodup
  queued x place dest := by
    by_cases same : x = a
    · simp [same] at place
    · rw [Function.update_of_ne same] at place
      exact List.mem_append_left _ (ok.queued x place dest)
  taken x b place dest := by
    by_cases same : x = a
    · simp [same] at place
    · rw [Function.update_of_ne same] at place
      exact ok.taken x b place dest
  parked x q' place dest := by
    by_cases same : x = a
    · subst same
      rw [Function.update_self] at place
      obtain rfl := SPlace.parked.inj place
      refine ⟨by simp, ?_⟩
      rw [Function.update_self]
      by_contra away
      change r.remoteSendHandle ≠ x at away
      have old := linked.2.1
      rw [Function.update_of_ne away] at old
      exact apart (ok.parked _ q old linked.1).1
    · rw [Function.update_of_ne same] at place
      obtain ⟨member, origin⟩ := ok.parked x q' place dest
      have other : q' ≠ q := fun same => apart (same ▸ member)
      exact ⟨List.mem_append_left _ member, by rwa [Function.update_of_ne other]⟩
  waiting := ok.waiting

theorem ChanOk.enqueueRecv (ok : ChanOk c ch smem job send recv) (off : recv b ≠ .queue)
    (owner : b.owner = c) :
    ChanOk c { ch with rq := ch.rq ++ [b] } smem job send (update recv b .queue) where
  sq := ok.sq
  rq b' member := by
    by_cases same : b' = b
    · subst same
      simp [owner]
    · rw [Function.update_of_ne same]
      exact ok.rq b' (by simpa [same] using member)
  busy := ok.busy
  sqNodup := ok.sqNodup
  rqNodup := Matching.nodup_concat ok.rqNodup fun member => off (ok.rq b member).1
  queued := ok.queued
  taken := ok.taken
  parked := ok.parked
  waiting b' place owner := by
    by_cases same : b' = b
    · simp [same]
    · rw [Function.update_of_ne same] at place
      exact List.mem_append_left _ (ok.waiting b' place owner)

theorem ChanOk.takeRecv (ok : ChanOk c ch smem job send recv) (split : ch.rq = front ++ b :: back)
    (out : p' ≠ .queue) :
    ChanOk c { ch with rq := front ++ back } smem job send (update recv b p') where
  sq := ok.sq
  rq b' member := by
    have nodup := ok.rqNodup
    rw [split] at nodup
    have out : b ∉ front ++ back := (List.nodup_cons.mp (List.nodup_middle.mp nodup)).1
    have other : b' ≠ b := fun same => out (same ▸ member)
    rw [Function.update_of_ne other]
    exact ok.rq b' (mem_of_mem_rest split member)
  busy := ok.busy
  sqNodup := ok.sqNodup
  rqNodup := by
    have nodup := ok.rqNodup
    rw [split] at nodup
    exact (List.nodup_cons.mp (List.nodup_middle.mp nodup)).2
  queued := ok.queued
  taken := ok.taken
  parked := ok.parked
  waiting b' place owner := by
    by_cases same : b' = b
    · rw [same, Function.update_self] at place
      exact absurd place out
    · rw [Function.update_of_ne same] at place
      have member := ok.waiting b' place owner
      rw [split] at member
      simpa [same] using member

end Channels

section Wires

variable {link : Nat → Nat → List Frame} {answer : Nat → Option Answer} {send : Addr → SPlace}
  {a : Addr} {p : SPlace} {m m' : Nat} {frame : Frame} {frames : List Frame} {ans : Answer}

theorem WireSide.apart (side : WireSide link answer send) (home : (send a).away = false)
    (member : frame ∈ link m m') : frame.send ≠ a := by
  intro same
  rw [← same, side.frames m m' frame member] at home
  cases home

theorem WireSide.other (side : WireSide link answer send) (home : (send a).away = false)
    (here : answer m = some ans) : ∃ x, x ≠ a ∧ send x = .answering m ans := by
  obtain ⟨x, place⟩ := side.answers m ans here
  refine ⟨x, fun same => ?_, place⟩
  rw [← same, place] at home
  cases home

theorem WireSide.move (side : WireSide link answer send) (home : (send a).away = false)
    (stays : p.away = false) : WireSide link answer (update send a p) where
  frames m m' frame member := by
    rw [Function.update_of_ne (side.apart home member)]
    exact side.frames m m' frame member
  nodup := side.nodup
  answers m ans here := by
    obtain ⟨x, other, place⟩ := side.other home here
    exact ⟨x, by rwa [Function.update_of_ne other]⟩
  sent x m m' frame place := by
    by_cases same : x = a
    · rw [same, Function.update_self] at place
      simp [place, SPlace.away] at stays
    · rw [Function.update_of_ne same] at place
      exact side.sent x m m' frame place
  asked x m ans place := by
    by_cases same : x = a
    · rw [same, Function.update_self] at place
      simp [place, SPlace.away] at stays
    · rw [Function.update_of_ne same] at place
      exact side.asked x m ans place

theorem WireSide.push (side : WireSide link answer send) (frame : Frame) (m m' : Nat)
    (home : (send frame.send).away = false) :
    WireSide (fun i j => if i = m ∧ j = m' then link i j ++ [frame] else link i j) answer
      (update send frame.send (.wire m m' frame)) where
  frames i j f member := by
    split at member
    next here =>
      obtain ⟨rfl, rfl⟩ := here
      rcases List.mem_append.mp member with old | new
      · rw [Function.update_of_ne (side.apart home old)]
        exact side.frames i j f old
      · obtain rfl := List.mem_singleton.mp new
        simp
    next =>
      rw [Function.update_of_ne (side.apart home member)]
      exact side.frames i j f member
  nodup i j := by
    split
    next here =>
      obtain ⟨rfl, rfl⟩ := here
      rw [List.map_append, List.map_singleton]
      refine Matching.nodup_concat (side.nodup i j) fun member => ?_
      obtain ⟨f, old, same⟩ := List.mem_map.mp member
      exact side.apart home old same
    next => exact side.nodup i j
  answers i ans here := by
    obtain ⟨x, other, place⟩ := side.other home here
    exact ⟨x, by rwa [Function.update_of_ne other]⟩
  sent x i j f place := by
    by_cases same : x = frame.send
    · subst same
      rw [Function.update_self] at place
      obtain ⟨rfl, rfl, rfl⟩ := SPlace.wire.inj place
      simp
    · rw [Function.update_of_ne same] at place
      obtain ⟨member, mine⟩ := side.sent x i j f place
      refine ⟨?_, mine⟩
      split
      next => exact List.mem_append_left _ member
      next => exact member
  asked x i ans place := by
    by_cases same : x = frame.send
    · rw [same, Function.update_self] at place
      cases place
    · rw [Function.update_of_ne same] at place
      exact side.asked x i ans place

theorem WireSide.pop (side : WireSide link answer send) (first : link m m' = frame :: frames)
    (stays : p.away = false) :
    WireSide (fun i j => if i = m ∧ j = m' then frames else link i j) answer
      (update send frame.send p) where
  frames i j f member := by
    have here := side.frames m m' frame (by simp [first])
    have nodup := side.nodup m m'
    rw [first, List.map_cons, List.nodup_cons] at nodup
    split at member
    next same =>
      obtain ⟨rfl, rfl⟩ := same
      have other : f.send ≠ frame.send := fun same =>
        nodup.1 (same ▸ List.mem_map_of_mem member)
      rw [Function.update_of_ne other]
      exact side.frames i j f (by simp [first, member])
    next differ =>
      have place := side.frames i j f member
      have other : f.send ≠ frame.send := by
        intro same
        rw [same, here] at place
        obtain ⟨rfl, rfl, -⟩ := SPlace.wire.inj place
        exact differ ⟨rfl, rfl⟩
      rwa [Function.update_of_ne other]
  nodup i j := by
    have nodup := side.nodup m m'
    rw [first, List.map_cons, List.nodup_cons] at nodup
    split
    next => exact nodup.2
    next => exact side.nodup i j
  answers i ans here := by
    obtain ⟨x, place⟩ := side.answers i ans here
    have other : x ≠ frame.send := by
      intro same
      rw [same, side.frames m m' frame (by simp [first])] at place
      cases place
    exact ⟨x, by rwa [Function.update_of_ne other]⟩
  sent x i j f place := by
    by_cases same : x = frame.send
    · rw [same, Function.update_self] at place
      simp [place, SPlace.away] at stays
    · rw [Function.update_of_ne same] at place
      obtain ⟨member, mine⟩ := side.sent x i j f place
      refine ⟨?_, mine⟩
      split
      next here =>
        obtain ⟨rfl, rfl⟩ := here
        rw [first, List.mem_cons] at member
        refine member.resolve_left fun same' => same ?_
        rw [← mine, same']
      next => exact member
  asked x i ans place := by
    by_cases same : x = frame.send
    · rw [same, Function.update_self] at place
      simp [place, SPlace.away] at stays
    · rw [Function.update_of_ne same] at place
      exact side.asked x i ans place

theorem WireSide.ask (side : WireSide link answer send) (m : Nat) (ans : Answer)
    (home : (send a).away = false) (idle : answer m = none) (mine : ans.send = a) :
    WireSide link (update answer m (some ans)) (update send a (.answering m ans)) where
  frames i j f member := by
    rw [Function.update_of_ne (side.apart home member)]
    exact side.frames i j f member
  nodup := side.nodup
  answers i other here := by
    by_cases same : i = m
    · subst same
      simp only [Function.update_self, Option.some.injEq] at here
      exact ⟨a, by simp [here]⟩
    · rw [Function.update_of_ne same] at here
      obtain ⟨x, other, place⟩ := side.other home here
      exact ⟨x, by rwa [Function.update_of_ne other]⟩
  sent x i j f place := by
    by_cases same : x = a
    · rw [same, Function.update_self] at place
      cases place
    · rw [Function.update_of_ne same] at place
      exact side.sent x i j f place
  asked x i other place := by
    by_cases same : x = a
    · subst same
      rw [Function.update_self] at place
      obtain ⟨rfl, rfl⟩ := SPlace.answering.inj place
      exact ⟨Function.update_self .., mine⟩
    · rw [Function.update_of_ne same] at place
      obtain ⟨here, send⟩ := side.asked x i other place
      have differ : i ≠ m := by
        rintro rfl
        rw [idle] at here
        cases here
      exact ⟨by rwa [Function.update_of_ne differ], send⟩

theorem WireSide.reply (side : WireSide link answer send) (here : send a = .answering m ans)
    (stays : p.away = false) : WireSide link (update answer m none) (update send a p) where
  frames i j f member := by
    have place := side.frames i j f member
    have other : f.send ≠ a := by
      intro same
      rw [same, here] at place
      cases place
    rwa [Function.update_of_ne other]
  nodup := side.nodup
  answers i other there := by
    by_cases same : i = m
    · simp [same] at there
    · rw [Function.update_of_ne same] at there
      obtain ⟨x, place⟩ := side.answers i other there
      have other : x ≠ a := by
        intro eq
        rw [eq, here] at place
        exact same (SPlace.answering.inj place).1.symm
      exact ⟨x, by rwa [Function.update_of_ne other]⟩
  sent x i j f place := by
    by_cases same : x = a
    · rw [same, Function.update_self] at place
      simp [place, SPlace.away] at stays
    · rw [Function.update_of_ne same] at place
      exact side.sent x i j f place
  asked x i other place := by
    by_cases same : x = a
    · rw [same, Function.update_self] at place
      simp [place, SPlace.away] at stays
    · rw [Function.update_of_ne same] at place
      obtain ⟨there, send⟩ := side.asked x i other place
      obtain ⟨now, mine⟩ := side.asked a m ans here
      have differ : i ≠ m := by
        rintro rfl
        rw [now] at there
        cases there
        exact same (send.symm.trans mine)
      exact ⟨by rwa [Function.update_of_ne differ], send⟩

end Wires

section Pairs

variable {job : Addr → Job} {want : Addr → Want} {send : Addr → SPlace} {recv : Addr → RPlace}
  {a b : Addr} {p : SPlace} {p' : RPlace} {j : Job} {w : Want} {k : Bool}

theorem PairSide.sendAlone (side : PairSide job want send recv) (old : (send a).engaged = none)
    (new : p.engaged = none) : PairSide (update job a j) want (update send a p) recv where
  agree x b k := by
    by_cases same : x = a
    · subst same
      have none : (recv b).engaged ≠ some (x, k) := by
        rw [Ne, ← side.agree, old]
        simp
      simp [new, none]
    · rw [Function.update_of_ne same]
      exact side.agree x b k
  carries x b k tied := by
    by_cases same : x = a
    · subst same
      simp [new] at tied
    · rw [Function.update_of_ne same] at tied ⊢
      rw [Function.update_of_ne same]
      exact side.carries x b k tied
  owner x b k tied := by
    by_cases same : x = a
    · subst same
      simp [new] at tied
    · rw [Function.update_of_ne same] at tied ⊢
      exact side.owner x b k tied

theorem PairSide.recvAlone (side : PairSide job want send recv) (old : (recv b).engaged = none)
    (new : p'.engaged = none) : PairSide job (update want b w) send (update recv b p') where
  agree a x k := by
    by_cases same : x = b
    · subst same
      rw [side.agree, old, Function.update_self, new]
    · rw [Function.update_of_ne same]
      exact side.agree a x k
  carries a x k tied := by
    by_cases same : x = b
    · subst same
      rw [side.agree, old] at tied
      cases tied
    · rw [Function.update_of_ne same]
      exact side.carries a x k tied
  owner := side.owner

theorem PairSide.recvMove (side : PairSide job want send recv) (old : (recv b).engaged = none)
    (new : p'.engaged = none) : PairSide job want send (update recv b p') := by
  simpa using side.recvAlone (w := want b) old new

theorem PairSide.sendMove (side : PairSide job want send recv) (old : (send a).engaged = none)
    (new : p.engaged = none) : PairSide job want (update send a p) recv := by
  simpa using side.sendAlone (j := job a) old new

/-- The request moves on, tied to the receive it was tied to. -/
theorem PairSide.keep (side : PairSide job want send recv) (kept : p.engaged = (send a).engaged)
    (carries : ∀ b k, p.engaged = some (b, k) → p.carries (job a).data (shared (job a) (want b))) :
    PairSide job want (update send a p) recv where
  agree x b k := by
    by_cases same : x = a
    · subst same
      rw [Function.update_self, kept]
      exact side.agree x b k
    · rw [Function.update_of_ne same]
      exact side.agree x b k
  carries x b k tied := by
    by_cases same : x = a
    · subst same
      rw [Function.update_self] at tied ⊢
      exact carries b k tied
    · rw [Function.update_of_ne same] at tied ⊢
      exact side.carries x b k tied
  owner x b k tied := by
    by_cases same : x = a
    · subst same
      rw [Function.update_self, kept] at tied
      exact side.owner x b k tied
    · rw [Function.update_of_ne same] at tied
      exact side.owner x b k tied

theorem PairSide.meet (side : PairSide job want send recv) (oldS : (send a).engaged = none)
    (oldR : (recv b).engaged = none) (newS : p.engaged = some (b, k))
    (newR : p'.engaged = some (a, k)) (carries : p.carries (job a).data (shared (job a) w))
    (owner : b.owner = (job a).dest) :
    PairSide job (update want b w) (update send a p) (update recv b p') where
  agree x y l := by
    have none : (recv y).engaged ≠ some (a, l) := by
      rw [Ne, ← side.agree, oldS]
      simp
    have none' : (send x).engaged ≠ some (b, l) := by
      rw [Ne, side.agree, oldR]
      simp
    by_cases same : x = a <;> by_cases same' : y = b
    · subst same same'
      simp [newS, newR]
    · subst same
      rw [Function.update_self, Function.update_of_ne same', newS]
      simp [none, Ne.symm same']
    · subst same'
      rw [Function.update_self, Function.update_of_ne same, newR]
      simp [none', Ne.symm same]
    · rw [Function.update_of_ne same, Function.update_of_ne same']
      exact side.agree x y l
  carries x y l tied := by
    by_cases same : x = a
    · subst same
      rw [Function.update_self] at tied ⊢
      obtain ⟨rfl, -⟩ := Prod.mk.inj (Option.some.inj (newS.symm.trans tied))
      rwa [Function.update_self]
    · rw [Function.update_of_ne same] at tied ⊢
      have other : y ≠ b := by
        intro eq
        rw [side.agree, eq, oldR] at tied
        cases tied
      rw [Function.update_of_ne other]
      exact side.carries x y l tied
  owner x y l tied := by
    by_cases same : x = a
    · subst same
      rw [Function.update_self] at tied
      obtain ⟨rfl, -⟩ := Prod.mk.inj (Option.some.inj (newS.symm.trans tied))
      exact owner
    · rw [Function.update_of_ne same] at tied
      exact side.owner x y l tied

theorem PairSide.engage (side : PairSide job want send recv) (oldS : (send a).engaged = none)
    (oldR : (recv b).engaged = none) (newS : p.engaged = some (b, k))
    (newR : p'.engaged = some (a, k)) (carries : p.carries (job a).data (shared (job a) (want b)))
    (owner : b.owner = (job a).dest) : PairSide job want (update send a p) (update recv b p') := by
  simpa using side.meet oldS oldR newS newR carries owner

theorem PairSide.part (side : PairSide job want send recv) (tied : (send a).engaged = some (b, k))
    (newS : p.engaged = none) (newR : p'.engaged = none) :
    PairSide job want (update send a p) (update recv b p') where
  agree x y l := by
    have back := (side.agree a b k).mp tied
    by_cases same : x = a <;> by_cases same' : y = b
    · subst same same'
      simp [newS, newR]
    · subst same
      rw [Function.update_self, Function.update_of_ne same', newS, ← side.agree, tied]
      simp [Ne.symm same']
    · subst same'
      rw [Function.update_self, Function.update_of_ne same, newR, side.agree, back]
      simp [Ne.symm same]
    · rw [Function.update_of_ne same, Function.update_of_ne same']
      exact side.agree x y l
  carries x y l tied := by
    by_cases same : x = a
    · subst same
      simp [newS] at tied
    · rw [Function.update_of_ne same] at tied ⊢
      exact side.carries x y l tied
  owner x y l tied := by
    by_cases same : x = a
    · subst same
      simp [newS] at tied
    · rw [Function.update_of_ne same] at tied
      exact side.owner x y l tied

end Pairs

end Tmpi.Intra
