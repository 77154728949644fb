import Tmpi.Mpi.Reporting

/-! What a call leaves behind that could not make or start its request. -/

namespace Tmpi.Mpi

open Intra (Mode Pool Stat)
open Netq (netqTransLocalRank tmpiGrankToLrank)
open Tiling (Block)
open Utils (Arenas Mbuffer)

/-- A pool whose handles in use are the same: it is the same pool, or it was empty and has a new chunk, all of
it free. -/
def PoolKept (group : Nat) (p p' : Pool) : Prop :=
  p' = p ∨ (p.allocate = [] ∧ p' = ⟨p.carved + group, List.range' p.carved group⟩)

/-- The queues of a channel are the same, and its handles in use. -/
structure ChannelKept (ch ch' : Channel) : Prop where
  sq : ch'.sq = ch.sq
  rq : ch'.rq = ch.rq
  spool : PoolKept ch.group ch.spool ch'.spool
  rpool : PoolKept ch.group ch.rpool ch'.rpool

/-- A machine as before: `arena` has the message buffers of the thread `lid`, in blocks `rows`. -/
structure Untouched (m : Machine) (lid : Int) (arena : Arenas) (rows : List Utils.Row) (m' : Machine) : Prop where
  info : m'.info = m.info
  commWorld : m'.commWorld = m.commWorld
  channel : ∀ ch, m.tmpiIntraGetChannel lid = some ch →
    ∃ ch', m'.tmpiIntraGetChannel lid = some ch' ∧ ChannelKept ch ch'
  channels : ∀ id, id ≠ lid ∨ m.tmpiIntraGetChannel lid = none →
    m'.tmpiIntraGetChannel id = m.tmpiIntraGetChannel id
  buffer : Utils.Inv { arena with mb := m'.buffers lid } rows
  buffers : ∀ id, id ≠ lid → m'.buffers id = m.buffers id

theorem PoolKept.refl {group : Nat} (p : Pool) : PoolKept group p p := .inl rfl

/-- A handle that is taken and given back. -/
theorem poolKept_of_newElem {luck : Luck} {group idx : Nat} {p p' : Pool} (pos : 0 < group)
    (element : Machine.newElem luck group p = some (idx, p')) : PoolKept group p (Intra.qFreeElem p' idx) := by
  unfold Machine.newElem at element
  split at element
  case isTrue => cases element
  case isFalse =>
      unfold Intra.qNewElem at element
      split at element
      case h_1 empty =>
        cases element
        refine .inr ⟨empty, ?_⟩
        obtain ⟨n, rfl⟩ : ∃ n, group = n + 1 := ⟨group - 1, by omega⟩
        rfl
      case h_2 idx' rest shape =>
        cases element
        refine .inl ?_
        rw [Intra.qFreeElem]
        dsimp only
        rw [← shape]

theorem ChannelKept.refl (ch : Channel) : ChannelKept ch ch := ⟨rfl, rfl, .refl _, .refl _⟩

variable {m m' : Machine} {myid me : Int} {luck : Luck} {c : CallArgs} {mode : Mode} {persistent immediate : Bool}
  {arena : Arenas} {rows : List Utils.Row}

theorem Untouched.refl {lid : Int} (here : arena.mb = m.buffers lid) (inv : Utils.Inv arena rows) :
    Untouched m lid arena rows m := by
  refine ⟨rfl, rfl, fun ch channel => ⟨ch, channel, .refl ch⟩, fun _ _ => rfl, ?_, fun _ _ => rfl⟩
  rw [← here]
  exact inv

/-- A channel that was changed, and changed back but for its pools. -/
theorem Untouched.of_channel {lid : Int} {ch first last : Channel} (channel : m.tmpiIntraGetChannel lid = some ch)
    (kept : ChannelKept ch last) (info : m'.info = m.info) (commWorld : m'.commWorld = m.commWorld)
    (channels : m'.channels = ((m.setChannel lid first).setChannel lid last).channels)
    {mb : Mbuffer} (now : m'.buffers lid = mb) (buffer : Utils.Inv { arena with mb } rows)
    (buffers : ∀ id, id ≠ lid → m'.buffers id = m.buffers id) : Untouched m lid arena rows m' := by
  have same : ∀ id, m'.tmpiIntraGetChannel id = ((m.setChannel lid first).setChannel lid last).tmpiIntraGetChannel id := by
    intro id
    rw [Machine.tmpiIntraGetChannel, channels]
    rfl
  have between : (m.setChannel lid first).tmpiIntraGetChannel lid = some first := getChannel_setChannel_self channel
  refine ⟨info, commWorld, fun ch' channel' => ?_, fun id other => ?_, now ▸ buffer, buffers⟩
  · rw [channel] at channel'
    obtain rfl := Option.some.inj channel'
    exact ⟨last, (same lid).trans (getChannel_setChannel_self between), kept⟩
  · have ne : id ≠ lid := other.resolve_right fun missing => by
      rw [channel] at missing
      cases missing
    rw [same id, getChannel_setChannel_of_ne between ne, getChannel_setChannel_of_ne channel ne]

/-! ## Sends -/

/-- What `tmpi_intra_init_sh` leaves: nothing, or a new handle. -/
theorem tmpiIntraInitSh_left {ret : Ret} {req : Option SendHandle}
    (init : m.tmpiIntraInitSh luck me mode persistent immediate c = some (ret, req, m')) :
    (req = none ∧ m' = m ∧ ret ≠ .success) ∨
    ∃ ch sh spool mb, req = some sh ∧ m.tmpiIntraGetChannel (tmpiGrankToLrank m.info me) = some ch ∧
      0 ≤ (m.len c).toInt ∧ Machine.newElem luck ch.group ch.spool = some (sh.idx, spool) ∧
      sh.src = me ∧ sh.stat = .create ∧
      m' = (m.setChannel (tmpiGrankToLrank m.info me) { ch with spool }).setBuffers (tmpiGrankToLrank m.info me) mb ∧
      ((mb = m.buffers (tmpiGrankToLrank m.info me) ∧ sh.sysBuf = none) ∨ luck.mbAlloc = (mb, sh.sysBuf)) := by
  unfold Machine.tmpiIntraInitSh at init
  dsimp only at init
  obtain ⟨tcomm, -, left⟩ := Option.map_eq_some_iff.mp init
  cases channel : m.tmpiIntraGetChannel (tmpiGrankToLrank m.info me) with
  | none =>
      rw [channel] at left
      cases left
      exact .inl ⟨rfl, rfl, by simp⟩
  | some ch =>
      rw [channel] at left
      dsimp only at left
      split at left
      case isTrue =>
        cases left
        exact .inl ⟨rfl, rfl, by simp⟩
      case isFalse length =>
        cases tcomm with
        | none =>
            cases left
            exact .inl ⟨rfl, rfl, by simp⟩
        | some context =>
            dsimp only at left
            cases element : Machine.newElem luck ch.group ch.spool with
            | none =>
                rw [element] at left
                cases left
                exact .inl ⟨rfl, rfl, by simp⟩
            | some found =>
                rw [element] at left
                cases left
                refine .inr ⟨ch, _, found.2, _, rfl, rfl, by omega, element, rfl, rfl, rfl, ?_⟩
                dsimp only
                split
                · exact .inr rfl
                · exact .inl ⟨rfl, rfl⟩

/-- A handle that was made and not started is given back with its buffer. -/
theorem tmpiRequestFreeSh_made {ret : Ret} {req : Option SendHandle}
    (init : m.tmpiIntraInitSh luck me mode persistent immediate c = some (ret, req, m'))
    (here : arena.mb = m.buffers (tmpiGrankToLrank m.info me)) (inv : Utils.Inv arena rows)
    (found : ∃ fuel, arena.mb.mbAlloc fuel (m.len c) = some luck.mbAlloc) :
    ∃ m'', m'.tmpiRequestFreeSh req = some m'' ∧ Untouched m (tmpiGrankToLrank m.info me) arena rows m'' := by
  rcases tmpiIntraInitSh_left init with ⟨rfl, rfl, -⟩ |
    ⟨ch, sh, spool, mb, rfl, channel, length, element, src, stat, rfl, buffer⟩
  · exact ⟨m', rfl, .refl here inv⟩
  · obtain ⟨lid, isLid⟩ : ∃ lid, tmpiGrankToLrank m.info me = lid := ⟨_, rfl⟩
    rw [isLid] at channel here buffer ⊢
    have inside := setChannel_inside channel
    have between : ((m.setChannel lid { ch with spool }).setBuffers lid mb).tmpiIntraGetChannel lid =
        some { ch with spool } := getChannel_setChannel_self channel
    have kept : ChannelKept ch { ch with spool := Intra.qFreeElem spool sh.idx } :=
      ⟨rfl, rfl, poolKept_of_newElem ch.group_pos element, .refl _⟩
    have unused : sh.stat.any [.free, .create] = true := by
      rw [stat]
      decide
    have owner : tmpiGrankToLrank ((m.setChannel lid { ch with spool }).setBuffers lid mb).info sh.src = lid := by
      rw [src]
      exact isLid
    refine ⟨Machine.tmpiIntraFreeSh ((m.setChannel lid { ch with spool }).setBuffers lid mb) lid { ch with spool } sh,
      ?_, ?_⟩
    · unfold Machine.tmpiRequestFreeSh
      dsimp only
      rw [unused, if_pos rfl, owner, between]
    · unfold Machine.tmpiIntraFreeSh
      rw [owner]
      cases sysBuf : sh.sysBuf with
      | none =>
          rw [sysBuf] at buffer
          have idle : mb = arena.mb := by
            rcases buffer with ⟨same, -⟩ | alloc
            · rw [same, here]
            · obtain ⟨fuel, returned⟩ := found
              rw [alloc] at returned
              exact inv.alloc_none returned
          have now : ((m.setChannel lid { ch with spool }).setBuffers lid mb).buffers lid = arena.mb :=
            (Function.update_self ..).trans idle
          exact .of_channel channel kept rfl rfl rfl now inv fun id other => Function.update_of_ne other ..
      | some item =>
          rw [sysBuf] at buffer
          obtain ⟨fuel, returned⟩ := found
          rw [buffer.resolve_left fun both => nomatch both.2] at returned
          have given : ((m.setChannel lid { ch with spool }).setBuffers lid mb).buffers lid = mb := Function.update_self ..
          have low : 0 ≤ lid := by omega
          dsimp only
          rw [if_pos low, given]
          have now : (((m.setChannel lid { ch with spool }).setBuffers lid mb).setBuffers lid (mb.mbFree item)).buffers
              lid = mb.mbFree item := Function.update_self ..
          refine .of_channel channel kept rfl rfl rfl now (inv.alloc_free length returned) fun id other => ?_
          exact (Function.update_of_ne other ..).trans (Function.update_of_ne other ..)

/-- A start that fails returns an error. -/
theorem tmpiIntraStartSh_error {psh : Option SendHandle} {ret : Ret}
    (failed : m.tmpiIntraStartSh luck psh = .failed ret) : ret ≠ .success := by
  rintro rfl
  unfold Machine.tmpiIntraStartSh Machine.tmpiInterStartSh at failed
  cases psh with
  | none => cases failed
  | some sh =>
      dsimp only at failed
      repeat' split at failed
      all_goals cases failed

/-! ## Receives -/

theorem tmpiIntraInitRh_left {ret : Ret} {req : Option RecvHandle}
    (init : m.tmpiIntraInitRh luck me persistent immediate c = some (ret, req, m')) :
    (req = none ∧ m' = m) ∨
    ∃ ch rh rpool, req = some rh ∧ m.tmpiIntraGetChannel (tmpiGrankToLrank m.info me) = some ch ∧
      Machine.newElem luck ch.group ch.rpool = some (rh.idx, rpool) ∧ rh.dest = me ∧ rh.stat = .create ∧
      m' = m.setChannel (tmpiGrankToLrank m.info me) { ch with rpool } := by
  unfold Machine.tmpiIntraInitRh at init
  dsimp only at init
  obtain ⟨tcomm, -, left⟩ := Option.map_eq_some_iff.mp init
  cases channel : m.tmpiIntraGetChannel (tmpiGrankToLrank m.info me) with
  | none =>
      rw [channel] at left
      cases left
      exact .inl ⟨rfl, rfl⟩
  | some ch =>
      rw [channel] at left
      dsimp only at left
      split at left
      case isTrue =>
        cases left
        exact .inl ⟨rfl, rfl⟩
      case isFalse length =>
        cases tcomm with
        | none =>
            cases left
            exact .inl ⟨rfl, rfl⟩
        | some context =>
            dsimp only at left
            cases element : Machine.newElem luck ch.group ch.rpool with
            | none =>
                rw [element] at left
                cases left
                exact .inl ⟨rfl, rfl⟩
            | some found =>
                rw [element] at left
                cases left
                exact .inr ⟨ch, _, found.2, rfl, rfl, element, rfl, rfl, rfl⟩

theorem tmpiRequestFreeRh_made {ret : Ret} {req : Option RecvHandle}
    (init : m.tmpiIntraInitRh luck me persistent immediate c = some (ret, req, m'))
    (here : arena.mb = m.buffers (tmpiGrankToLrank m.info me)) (inv : Utils.Inv arena rows) :
    ∃ m'', m'.tmpiRequestFreeRh req = some m'' ∧ Untouched m (tmpiGrankToLrank m.info me) arena rows m'' := by
  rcases tmpiIntraInitRh_left init with ⟨rfl, rfl⟩ | ⟨ch, rh, rpool, rfl, channel, element, dest, stat, rfl⟩
  · exact ⟨m', rfl, .refl here inv⟩
  · obtain ⟨lid, isLid⟩ : ∃ lid, tmpiGrankToLrank m.info me = lid := ⟨_, rfl⟩
    rw [isLid] at channel here ⊢
    have between : (m.setChannel lid { ch with rpool }).tmpiIntraGetChannel lid = some { ch with rpool } :=
      getChannel_setChannel_self channel
    have kept : ChannelKept ch { ch with rpool := Intra.qFreeElem rpool rh.idx } :=
      ⟨rfl, rfl, .refl _, poolKept_of_newElem ch.group_pos element⟩
    have unused : rh.stat.any [.free, .create] = true := by
      rw [stat]
      decide
    have owner : tmpiGrankToLrank (m.setChannel lid { ch with rpool }).info rh.dest = lid := by
      rw [dest]
      exact isLid
    refine ⟨(m.setChannel lid { ch with rpool }).tmpiIntraFreeRh lid { ch with rpool } rh, ?_, ?_⟩
    · unfold Machine.tmpiRequestFreeRh
      dsimp only
      rw [unused, if_pos rfl, owner, between]
    · exact .of_channel channel kept rfl rfl rfl here.symm inv fun _ _ => rfl

theorem tmpiIntraStartRh_error {prh : Option RecvHandle} {ret : Ret}
    (failed : m.tmpiIntraStartRh prh = .failed ret) : ret ≠ .success := by
  rintro rfl
  unfold Machine.tmpiIntraStartRh at failed
  cases prh with
  | none => cases failed
  | some rh =>
      dsimp only at failed
      repeat' split at failed
      all_goals cases failed

/-! ## The calls -/

section

variable {H : Type}

/-- The error that a step of a call returned. -/
def StepError (init : Option (Ret × Option H × Machine)) (start : Machine → Option H → Begun H) (ret : Ret) : Prop :=
  (∃ req m', init = some (ret, req, m')) ∨ ∃ req m', init = some (.success, req, m') ∧ start m' req = .failed ret

/-- A call that returns, and when it fails returns the error of its step, writes `written` to `*request` and
leaves the machine as it was. -/
def Traceless (m : Machine) (lid : Int) (arena : Arenas) (rows : List Utils.Row) (step : Ret → Prop)
    (written : Option (Option H)) (e : Ended H) : Prop :=
  e ≠ .crashed ∧ ∀ ret request left, e = .failed ret request left →
    ret ≠ .success ∧ step ret ∧ request = written ∧ ∃ m', left = some m' ∧ Untouched m lid arena rows m'

variable {init : Int → Option (Ret × Option H × Machine)} {start : Machine → Option H → Begun H}
  {free : Machine → Option H → Option Machine} {written : Option (Option H)} {lid : Int}

theorem startCall_traceless (rank : netqTransLocalRank m.info myid = some me) (reads : init me ≠ none)
    (freed : ∀ ret req m', init me = some (ret, req, m') → ∃ m'', free m' req = some m'' ∧
      Untouched m lid arena rows m'')
    (errors : ∀ m req ret, start m req = .failed ret → ret ≠ .success) :
    Traceless m lid arena rows (StepError (init me) start) written (startCall m myid init start free written) := by
  obtain ⟨⟨ret, req, m'⟩, made⟩ := Option.ne_none_iff_exists'.mp reads
  obtain ⟨m'', isFreed, untouched⟩ := freed ret req m' made
  unfold startCall
  rw [rank]
  dsimp only
  rw [made]
  dsimp only
  by_cases error : ret ≠ .success
  · rw [if_pos error]
    refine ⟨nofun, fun ret' request left same => ?_⟩
    cases same
    exact ⟨error, .inl ⟨req, m', rfl⟩, rfl, m'', isFreed, untouched⟩
  · rw [if_neg error]
    obtain rfl := not_not.mp error
    cases started : start m' req with
    | failed ret' =>
        refine ⟨nofun, fun ret'' request left same => ?_⟩
        cases same
        exact ⟨errors m' req ret' started, .inr ⟨req, m', rfl, started⟩, rfl, m'', isFreed, untouched⟩
    | started req' sent m3 => exact ⟨nofun, nofun⟩

theorem initCall_traceless (rank : netqTransLocalRank m.info myid = some me) (reads : init me ≠ none)
    (freed : ∀ ret req m', init me = some (ret, req, m') → ∃ m'', free m' req = some m'' ∧
      Untouched m lid arena rows m'') :
    Traceless m lid arena rows (fun ret => ∃ req m', init me = some (ret, req, m')) (some none)
      (initCall m myid init free) := by
  obtain ⟨⟨ret, req, m'⟩, made⟩ := Option.ne_none_iff_exists'.mp reads
  obtain ⟨m'', isFreed, untouched⟩ := freed ret req m' made
  unfold initCall
  rw [rank]
  dsimp only
  rw [made]
  dsimp only
  by_cases error : ret ≠ .success
  · rw [if_pos error]
    refine ⟨nofun, fun ret' request left same => ?_⟩
    cases same
    exact ⟨error, ⟨req, m', rfl⟩, rfl, m'', isFreed, untouched⟩
  · rw [if_neg error]
    exact ⟨nofun, nofun⟩

end

theorem initSh_reads (readable : c.comm.Readable) : m.tmpiIntraInitSh luck me mode persistent immediate c ≠ none := by
  unfold Machine.tmpiIntraInitSh
  dsimp only
  rw [ne_eq, Option.map_eq_none_iff, tmpiCommVerify_eq_none_iff]
  exact not_not.mpr readable

theorem initRh_reads (readable : c.comm.Readable) : m.tmpiIntraInitRh luck me persistent immediate c ≠ none := by
  unfold Machine.tmpiIntraInitRh
  dsimp only
  rw [ne_eq, Option.map_eq_none_iff, tmpiCommVerify_eq_none_iff]
  exact not_not.mpr readable

/-- A call that cannot make or start its request returns the error of the step that failed and a null request, and
leaves all queues, the handles in use and the message buffers as they were. `mb_alloc` is that of the buffers. -/
theorem refused_calls_traceless (rank : netqTransLocalRank m.info myid = some me) (readable : c.comm.Readable)
    (here : arena.mb = m.buffers (tmpiGrankToLrank m.info me)) (reach : Utils.Reach arena)
    (found : ∃ fuel, arena.mb.mbAlloc fuel (m.len c) = some luck.mbAlloc) :
    ∃ rows, Utils.Inv arena rows ∧
    (∀ mode, Traceless m (tmpiGrankToLrank m.info me) arena rows
      (StepError (m.tmpiIntraInitSh luck me mode false false c) (fun m => m.tmpiIntraStartSh luck)) none
      (sendCall m myid luck c mode)) ∧
    (∀ mode, Traceless m (tmpiGrankToLrank m.info me) arena rows
      (StepError (m.tmpiIntraInitSh luck me mode false true c) (fun m => m.tmpiIntraStartSh luck)) (some none)
      (isendCall m myid luck c mode)) ∧
    (∀ mode, Traceless m (tmpiGrankToLrank m.info me) arena rows
      (fun ret => ∃ req m', m.tmpiIntraInitSh luck me mode true false c = some (ret, req, m')) (some none)
      (sendInitCall m myid luck c mode)) ∧
    Traceless m (tmpiGrankToLrank m.info me) arena rows
      (StepError (m.tmpiIntraInitRh luck me false false c) Machine.tmpiIntraStartRh) none (tmpiRecv m myid luck c) ∧
    Traceless m (tmpiGrankToLrank m.info me) arena rows
      (StepError (m.tmpiIntraInitRh luck me false true c) Machine.tmpiIntraStartRh) (some none)
      (tmpiIrecv m myid luck c) ∧
    Traceless m (tmpiGrankToLrank m.info me) arena rows
      (fun ret => ∃ req m', m.tmpiIntraInitRh luck me false true c = some (ret, req, m')) (some none)
      (tmpiRecvInit m myid luck c) := by
  obtain ⟨rows, inv⟩ := reach.inv
  refine ⟨rows, inv, fun mode => ?_, fun mode => ?_, fun mode => ?_, ?_, ?_, ?_⟩
  · apply startCall_traceless rank (initSh_reads readable)
    · exact fun _ _ _ init => tmpiRequestFreeSh_made init here inv found
    · exact fun _ _ _ => tmpiIntraStartSh_error
  · apply startCall_traceless rank (initSh_reads readable)
    · exact fun _ _ _ init => tmpiRequestFreeSh_made init here inv found
    · exact fun _ _ _ => tmpiIntraStartSh_error
  · apply initCall_traceless rank (initSh_reads readable)
    exact fun _ _ _ init => tmpiRequestFreeSh_made init here inv found
  · apply startCall_traceless rank (initRh_reads readable)
    · exact fun _ _ _ init => tmpiRequestFreeRh_made init here inv
    · exact fun _ _ _ => tmpiIntraStartRh_error
  · apply startCall_traceless rank (initRh_reads readable)
    · exact fun _ _ _ init => tmpiRequestFreeRh_made init here inv
    · exact fun _ _ _ => tmpiIntraStartRh_error
  · apply initCall_traceless rank (initRh_reads readable)
    exact fun _ _ _ init => tmpiRequestFreeRh_made init here inv

/-- One rank on one machine whose send handles are all in use. -/
def exhausted : Machine := { lonely with channels := [some ⟨2, Nat.two_pos, ⟨2, []⟩, ⟨2, [0, 1]⟩, [], []⟩] }

/-- Its buffer is too small for 8192 bytes. -/
def tightLuck : Luck := { fairLuck with mbAlloc := (exhausted.buffers 0, none) }

theorem refused_calls_traceless_bsend : ∃ rows m', tmpiBsend exhausted 0 tightLuck ⟨.world, 0, 5, .int, 2048⟩ =
      .failed .errBuffer none (some m') ∧
    Untouched exhausted 0 ⟨exhausted.buffers 0, [], (0, 4096), none⟩ rows m' := by
  have full : ∃ fuel, (exhausted.buffers 0).mbAlloc fuel (exhausted.len ⟨.world, 0, 5, .int, 2048⟩) =
      some tightLuck.mbAlloc := ⟨2, rfl⟩
  obtain ⟨rows, -, sends, -⟩ := @refused_calls_traceless exhausted 0 0 tightLuck ⟨.world, 0, 5, .int, 2048⟩
    ⟨exhausted.buffers 0, [], (0, 4096), none⟩ rfl ⟨nofun, nofun⟩ rfl
    (.init (fun _ => ⟨none, none, true, 0⟩) 0 4096 (by decide)) full
  obtain ⟨m', call⟩ : ∃ m', tmpiBsend exhausted 0 tightLuck ⟨.world, 0, 5, .int, 2048⟩ =
      .failed .errBuffer none (some m') := ⟨_, rfl⟩
  obtain ⟨-, -, -, m'', same, untouched⟩ := (sends .buffered).2 _ _ _ call
  obtain rfl := Option.some.inj same
  exact ⟨rows, m', call, untouched⟩

/-- The free list is not what it was: the handle that was given back stands on it with the rest of its chunk. -/
theorem refused_bsend_keeps_chunk :
    (exhausted.tmpiIntraGetChannel 0).map (fun ch => ch.spool.allocate) = some [] ∧
    ∃ m', tmpiBsend exhausted 0 tightLuck ⟨.world, 0, 5, .int, 2048⟩ = .failed .errBuffer none (some m') ∧
      (m'.tmpiIntraGetChannel 0).map (fun ch => ch.spool.allocate) = some [2, 3] :=
  ⟨rfl, _, rfl, rfl⟩

end Tmpi.Mpi
