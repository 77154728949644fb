import Mathlib.Data.List.Basic
import Mathlib.Tactic

/-! The tables of `netd_info` that say over which descriptor a machine reaches another. -/

namespace Tmpi.Netd.Pt2pt

/-- What `poll` reports on a descriptor: nothing, `POLLIN|POLLRDNORM`, or something else. -/
inductive Revents where
  | none | readable | other
  deriving DecidableEq, Repr

structure Pollfd where
  fd : Int
  revents : Revents
  deriving DecidableEq, Repr

/-- `netd_info`, its connections. `none` is a table that is `NULL`. -/
structure NetdLinks where
  size : Int
  myid : Int
  pt2ptfd : Option (List Int)
  groupfd : Option (List Int)
  fdtorank : Option (List Int)
  maxmsg : Int
  pt2ptset : Option (List Pollfd)
  deriving DecidableEq, Repr

/-- `MAX_MSG_DEFAULT` -/
def maxMsgDefault : Int := 1024

/-- `netd_info` as it is initialized. -/
def netdLinksInit : NetdLinks := ⟨0, -1, none, none, none, maxMsgDefault, none⟩

namespace NetdLinks

variable (info : NetdLinks)

/-- The checks with which a transfer begins, and the descriptor it then uses. -/
def pt2pt (rank : Int) : Option Int :=
  match info.pt2ptfd with
  | none => none
  | some fds =>
      if rank < 0 ∨ info.size ≤ rank then none
      else if fds.getD rank.toNat (-1) = -1 then none
      else some (fds.getD rank.toNat (-1))

/-- What the tables of the machine `me` are for: `socket j` is its connection to machine `j`. -/
structure Meshed (size me : Nat) (socket : Nat → Int) : Prop where
  large : 2 ≤ size
  sized : info.size = size
  there : ∀ j, j < size → j ≠ me → info.pt2pt j = some (socket j)
  ranks : ∃ ranks, info.fdtorank = some ranks ∧ ∀ j, j < size → j ≠ me → ranks.getD (socket j).toNat (-1) = j
  set : ∃ set, info.pt2ptset = some set ∧ set.length = size - 1 ∧
    ∀ fd, fd ∈ set.map Pollfd.fd ↔ ∃ j, j < size ∧ j ≠ me ∧ fd = socket j

end NetdLinks

end Tmpi.Netd.Pt2pt
