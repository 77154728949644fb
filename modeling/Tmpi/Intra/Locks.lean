import Tmpi.Intra.Requests
import Tmpi.Lib.Locking

/-! The channel and handle mutexes in the calls on requests and in the message handlers: every
return path as the list of its operations on them.

A call reads its handle before it locks it and again under the lock; the two need not agree. The
state that a waiting call finds at each wake-up is an argument, and the call has a path only when
it returns. -/

namespace Tmpi.Intra.Locks

open Locking (Op)

inductive Mutex where
  | channel (rank : Int)
  | send (a : Addr)
  | recv (b : Addr)
  deriving DecidableEq

abbrev Path := List (Op Mutex)

structure Env where
  /-- `tmpi_intra_get_channel(tmpi_grank_to_lrank(rank))` is not null. -/
  channel : Int → Bool
  /-- `tmpi_inter_new_msg` returns an object. -/
  message : Bool

/-! ## Start -/

/-- `tmpi_intra_free_sh` and `tmpi_intra_free_rh`, if there is a channel. -/
def free (env : Env) (rank : Int) (m : Mutex) : Path := if env.channel rank then [.destroy m] else []

/-- `tmpi_inter_start_sh`. -/
def tmpiInterStartSh : Path := []

/-- `found` is what `tmpi_rq_find` returns. -/
def tmpiIntraStartSh (env : Env) (sh : Option SHandle) (found : Option Addr) : Path :=
  match sh with
  | none => []
  | some h =>
      if h.errval ≠ .success then []
      else if h.isRemote then tmpiInterStartSh
      else if !h.startable then []
      else if !env.channel h.dest then []
      else
        let inner : Path :=
          match found with
          | none => []
          | some b => [.lock (.recv b), .unlock (.recv b)]
        .lock (.channel h.dest) :: inner ++ [.unlock (.channel h.dest)]

/-- `found` is what `tmpi_sq_find` returns. -/
def tmpiIntraStartRh (env : Env) (rh : Option RHandle) (found : Option (Addr × SCell)) : Path :=
  match rh with
  | none => []
  | some r =>
      if r.errval ≠ .success then []
      else if !r.startable then []
      else if !env.channel r.dest then []
      else
        let inner : Path :=
          match found with
          | none => []
          | some (a, .send sh) =>
              .lock (.send a) ::
                if sh.stat = .pendRels then
                  if sh.handleType = .persistent then [.unlock (.send a)]
                  else .unlock (.send a) :: free env sh.src (.send a)
                else [.unlock (.send a)]
          | some (_, .remote _) => []
        .lock (.channel r.dest) :: inner ++ [.unlock (.channel r.dest)]

/-! ## Wait -/

/-- The end of a completing call on a send. -/
def finishSh (env : Env) (a : Addr) (h : SHandle) : Path :=
  if h.handleType ≠ .persistent then .unlock (.send a) :: free env h.src (.send a)
  else [.unlock (.send a)]

def finishRh (env : Env) (b : Addr) (r : RHandle) : Path :=
  if r.handleType ≠ .persistent then .unlock (.recv b) :: free env r.dest (.recv b)
  else [.unlock (.recv b)]

/-- `do thr_cnd_wait(..) while (again)`: the operations, what the last wake-up found and the
wake-ups to come. -/
def condLoop {H : Type} (m : Mutex) (again : H → Bool) : List H → Option (Path × H × List H)
  | [] => none
  | h :: wakes =>
      if again h then (condLoop m again wakes).map fun rest => (.wait m :: rest.1, rest.2)
      else some ([.wait m], h, wakes)

/-- `_INTER_SYNC` -/
def interSync (env : Env) (a : Addr) (wakes : List SHandle) : Option Path :=
  (condLoop (.send a) (fun h => h.stat ≠ .matched) wakes).map fun (waits, h, _) =>
    waits ++ finishSh env a h

/-- `tmpi_inter_wait_sh` from the end of its first loop. -/
def interWaitRest (env : Env) (a : Addr) (h : SHandle) (wakes : List SHandle) : Option Path :=
  if h.stat = .matched then some (finishSh env a h)
  else if h.stat = .pendNrdy then some (finishSh env a h)
  else
    match h.mode with
    | .sync | .ready => interSync env a wakes
    | .buffered => some [.unlock (.send a)]
    | .standard => if h.sysBuf.isSome then some [.unlock (.send a)] else interSync env a wakes

def tmpiInterWaitSh (env : Env) (a : Addr) (seen : Stat) (h : SHandle) (wakes : List SHandle) :
    Option Path :=
  if !seen.any [.pendStrt, .matched, .pendNrdy, .pendData] then some []
  else if h.stat = .pendStrt ∧ h.mode = .ready then
    (condLoop (.send a) (fun h => h.stat = .pendStrt) wakes).bind fun (waits, h, wakes) =>
      (interWaitRest env a h wakes).map fun rest => .lock (.send a) :: (waits ++ rest)
  else (interWaitRest env a h wakes).map fun rest => .lock (.send a) :: rest

/-- `_INTRA_SYNC` -/
def intraSync (env : Env) (a : Addr) (wakes : List SHandle) : Option Path :=
  (condLoop (.send a) (fun h => h.stat = .pendWait) wakes).map fun (waits, h, _) =>
    waits ++ finishSh env a h

/-- `seen` is the state before the lock, `h` the handle under it. -/
def tmpiIntraWaitSh (env : Env) (sh : Option Addr) (seen : Stat) (h : SHandle) (wakes : List SHandle) :
    Option Path :=
  match sh with
  | none => some []
  | some a =>
      if h.isRemote then tmpiInterWaitSh env a seen h wakes
      else if !seen.any [.pendStrt, .matched] then some []
      else
        let rest : Option Path :=
          if h.stat = .matched then some (finishSh env a h)
          else
            match h.mode with
            | .sync => intraSync env a wakes
            | .buffered => some [.unlock (.send a)]
            | .ready => some (finishSh env a h)
            | .standard => if h.sysBuf.isSome then some [.unlock (.send a)] else intraSync env a wakes
        rest.map fun rest => .lock (.send a) :: rest

def tmpiIntraWaitRh (env : Env) (rh : Option Addr) (seen : Stat) (r : RHandle) (wakes : List RHandle) :
    Option Path :=
  match rh with
  | none => some []
  | some b =>
      if !seen.any [.pendStrt, .matched, .pendData] then some []
      else if r.stat = .matched then some (.lock (.recv b) :: finishRh env b r)
      else
        (condLoop (.recv b) (fun r => r.stat ≠ .matched) wakes).map fun (waits, r, _) =>
          .lock (.recv b) :: (waits ++ finishRh env b r)

/-! ## Cancel -/

def tmpiInterCancelSh (env : Env) (a : Addr) (seen : Stat) (h : SHandle) : Path :=
  if !seen.any [.pendStrt, .matched, .pendNrdy, .pendData] then []
  else
    .lock (.send a) ::
      if h.stat = .matched then finishSh env a h
      else if h.stat = .pendNrdy then finishSh env a h
      else [.unlock (.send a)]

def tmpiIntraCancelSh (env : Env) (sh : Option Addr) (seen : Stat) (h : SHandle) : Path :=
  match sh with
  | none => []
  | some a =>
      if h.isRemote then tmpiInterCancelSh env a seen h
      else if !seen.any [.pendStrt, .matched] then []
      else .lock (.send a) :: finishSh env a h

def tmpiIntraCancelRh (env : Env) (rh : Option Addr) (seen : Stat) (r : RHandle) : Path :=
  match rh with
  | none => []
  | some b =>
      if !seen.any [.pendStrt, .matched, .pendData] then []
      else
        .lock (.recv b) ::
          if r.stat.any [.matched, .pendStrt] then finishRh env b r else [.unlock (.recv b)]

/-! ## Test and `MPI_Request_free` -/

/-- What a test does to its mutex, what it writes to `flag` and whether its caller still has the
handle. -/
structure Tested where
  path : Path
  flag : Option Bool
  kept : Bool

def tmpiIntraTestSh (env : Env) (sh : Option Addr) (seen : Stat) (h : SHandle) : Tested :=
  match sh with
  | none => ⟨[], some false, false⟩
  | some a =>
      if !seen.any [.pendStrt, .matched, .pendNrdy, .pendData] then ⟨[], none, true⟩
      else
        let done : Tested := ⟨.lock (.send a) :: finishSh env a h, some true, h.handleType = .persistent⟩
        let left : Tested :=
          ⟨[.lock (.send a), .unlock (.send a)], some true, h.handleType = .persistent⟩
        -- `_TEST_SYNC` returns without an unlock
        let unready : Tested := ⟨[.lock (.send a)], some false, true⟩
        if h.stat = .matched then done
        else if h.stat = .pendNrdy then done
        else
          match h.mode with
          | .sync | .ready => unready
          | .buffered => left
          | .standard => if h.sysBuf.isSome then left else unready

def tmpiIntraTestRh (env : Env) (rh : Option Addr) (seen : Stat) (r : RHandle) : Tested :=
  match rh with
  | none => ⟨[], some false, false⟩
  | some b =>
      if !seen.any [.pendStrt, .matched, .pendData] then ⟨[], none, true⟩
      else if r.stat = .matched then
        ⟨.lock (.recv b) :: finishRh env b r, some true, r.handleType = .persistent⟩
      else ⟨[.lock (.recv b), .unlock (.recv b)], some false, true⟩

/-- `first` is the state under the first lock, `junk` the value that `flag` has before it is
written. -/
def tmpiRequestFreeSh (env : Env) (sh : Option Addr) (first seen : Stat) (h : SHandle) (junk : Bool) :
    Path :=
  match sh with
  | none => []
  | some a =>
      if first.any [.free, .create] then
        .lock (.send a) :: .unlock (.send a) :: free env h.src (.send a)
      else
        let test := tmpiIntraTestSh env (some a) seen h
        .lock (.send a) :: .unlock (.send a) :: (test.path ++
          if test.flag.getD junk && test.kept then free env h.src (.send a) else [])

def tmpiRequestFreeRh (env : Env) (rh : Option Addr) (first seen : Stat) (r : RHandle) (junk : Bool) :
    Path :=
  match rh with
  | none => []
  | some b =>
      if first.any [.free, .create] then
        .lock (.recv b) :: .unlock (.recv b) :: free env r.dest (.recv b)
      else
        let test := tmpiIntraTestRh env (some b) seen r
        .lock (.recv b) :: .unlock (.recv b) :: (test.path ++
          if test.flag.getD junk && test.kept then free env r.dest (.recv b) else [])

/-! ## The handlers -/

/-- `found` is what `tmpi_rq_find` returns. -/
def tmpiRmsHandle (env : Env) (handle : RMSHandle) (found : Option Addr) : Path :=
  if !env.channel handle.dest then []
  else if !env.message then []
  else
    let inner : Path :=
      match found with
      | some b => [.lock (.recv b), .unlock (.recv b)]
      | none => []
    .lock (.channel handle.dest) :: inner ++ [.unlock (.channel handle.dest)]

/-- It has the same locked regions as `tmpi_rms_handle`. -/
def tmpiRmdsHandle (env : Env) (handle : RMSHandle) (found : Option Addr) : Path :=
  if !env.channel handle.dest then []
  else if !env.message then []
  else
    let inner : Path :=
      match found with
      | some b => [.lock (.recv b), .unlock (.recv b)]
      | none => []
    .lock (.channel handle.dest) :: inner ++ [.unlock (.channel handle.dest)]

def tmpiRdsHandle (env : Env) (localRecv : Option Addr) (r : RHandle) : Path :=
  if !env.message then []
  else
    match localRecv with
    | none => []
    | some b =>
        .lock (.recv b) ::
          if r.stat = .pendData then [.unlock (.recv b)]
          else if r.stat = .pendDwat then [.unlock (.recv b)]
          else if r.stat = .cancel then
            if r.handleType = .persistent then [.unlock (.recv b)]
            else .unlock (.recv b) :: free env r.dest (.recv b)
          else [.unlock (.recv b)]

def tmpiRmrHandle (env : Env) (localSend : Option Addr) : Path :=
  if !env.message then []
  else
    match localSend with
    | none => []
    | some a => [.lock (.send a), .unlock (.send a)]

/-- `tmpi_rdr_handle` and `tmpi_rmdr_handle`, which differ in the two states that a sender still has
when the answer comes. -/
def answerHandle (env : Env) (localSend : Option Addr) (h : SHandle) (pending blocked : Stat) : Path :=
  match localSend with
  | none => []
  | some a =>
      .lock (.send a) ::
        if h.stat = pending then [.unlock (.send a)]
        else if h.stat = blocked then [.unlock (.send a)]
        else if h.stat ≠ .cancel ∧ h.stat ≠ .pendRels then [.unlock (.send a)]
        else if h.handleType = .persistent then [.unlock (.send a)]
        else .unlock (.send a) :: free env h.src (.send a)

def tmpiRdrHandle (env : Env) (localSend : Option Addr) (h : SHandle) : Path :=
  answerHandle env localSend h .pendData .pendDwat

def tmpiRmdrHandle (env : Env) (localSend : Option Addr) (h : SHandle) : Path :=
  answerHandle env localSend h .pendStrt .pendWait

def tmpiRndyHandle (localSend : Option Addr) : Path :=
  match localSend with
  | none => []
  | some a => [.lock (.send a), .unlock (.send a)]

end Tmpi.Intra.Locks
