import Tmpi.Lib.Sockets
import Tmpi.Netd.Links
import Mathlib.Logic.Relation

/-! How the machines of a group get connected: `netd_start` on the master from where the
slaves have been started, and `netd_initEnv` on the slaves.

Each call of the sock layer is one step. A connection that would be refused, a read of a
different kind of data than was written and a call on a bad descriptor have no step, so
that a node that came to one would stay where it is. Every socket listens with a backlog of 1024,
and no more than `NETQ_MAX_NODES`, which is 256, machines ask for it. -/

namespace Tmpi.Netd.Bootstrap

open Sockets
open Pt2pt (NetdLinks Pollfd maxMsgDefault)

/-- `pt` stands for `ptlisfd`, `ptport`, `ptports` and `pt2ptfd`, `bc` for `bclisfd`, `bcport`,
`bcports` and `groupfd`. On the master `rootlisfd` and `rootlisport` are those of `pt`. -/
@[grind cases]
inductive Net where
  | pt | bc
  deriving DecidableEq, Repr

/-- What goes over a connection: an `int`, or a host name of 1024 bytes. -/
inductive Word where
  | int (value : Nat)
  | host (name : String)
  deriving DecidableEq, Repr

abbrev Addr := String × Nat

inductive Pc where
  -- only a slave is at these
  | connRoot
  | listen (net : Net)
  | writePort (net : Net)
  | writeHost
  | readInfo
  | readPorts (net : Net)
  | readHosts (i : Nat)
  | conn (net : Net) (i : Nat)
  | writeId (net : Net) (i : Nat)
  -- only the master is at these
  | listenGroup
  | acceptRoot (i : Nat)
  | readPort (i : Nat) (net : Net)
  | readHost (i : Nat)
  | writeInfo (i : Nat)
  | writePorts (i : Nat) (net : Net)
  | writeHosts (i j : Nat)
  -- the same code on both
  | accept (net : Net) (i : Nat)
  | readId (net : Net) (i newfd : Nat)
  | tables
  | done
  deriving DecidableEq, Repr

namespace Pc

def afterListen : Net → Pc
  | .pt => listen .bc
  | .bc => writePort .pt

def afterWritePort : Net → Pc
  | .pt => writePort .bc
  | .bc => writeHost

def afterReadPorts : Net → Pc
  | .pt => readPorts .bc
  | .bc => readHosts 0

def afterReadPort (i : Nat) : Net → Pc
  | .pt => readPort i .bc
  | .bc => readHost i

def afterWritePorts (i : Nat) : Net → Pc
  | .pt => writePorts i .bc
  | .bc => writeHosts i 0

def afterAccept : Net → Pc
  | .pt => conn .bc 0
  | .bc => tables

end Pc

/-- `netd_info` and the locals of the two functions. -/
structure Node where
  pc : Pc
  size : Nat
  myid : Nat
  lisfd : Net → Nat
  port : Net → Nat
  ports : Net → Nat → Nat
  hostnames : Nat → String
  fds : Net → Nat → Int
  links : NetdLinks

namespace Node

variable (n : Node)

def fd (net : Net) (i : Nat) : Nat := (n.fds net i).toNat

def setFd (net : Net) (i : Nat) (fd : Int) : Node :=
  { n with fds := Function.update n.fds net (Function.update (n.fds net) i fd) }

def setPort (net : Net) (i port : Nat) : Node :=
  { n with ports := Function.update n.ports net (Function.update (n.ports net) i port) }

def setHost (i : Nat) (name : String) : Node :=
  { n with hostnames := Function.update n.hostnames i name }

def setListening (net : Net) (fd port : Nat) : Node :=
  { n with lisfd := Function.update n.lisfd net fd, port := Function.update n.port net port }

@[simp] theorem setFd_self (net : Net) (i : Nat) (fd : Int) :
    (n.setFd net i fd).fds net i = fd := by
  simp [setFd]

variable {n} in
theorem setFd_other {net net' : Net} {i j : Nat} (fd : Int) (different : ¬ (net' = net ∧ j = i)) :
    (n.setFd net i fd).fds net' j = n.fds net' j := by
  by_cases same : net' = net
  · subst same
    have apart : j ≠ i := fun equal => different ⟨rfl, equal⟩
    simp [setFd, apart]
  · simp [setFd, same]

/-! ## The tables in the end -/

/-- The loops over all nodes but this one; on the master they begin with 1. -/
def others : List Nat := (List.range n.size).filter (· ≠ n.myid)

def maxfd : Int :=
  n.others.foldl (fun maxfd i => max (max maxfd (n.fds .pt i)) (n.fds .bc i)) 0

def fdtorank : List Int :=
  n.others.foldl (fun table i => (table.set (n.fd .pt i) i).set (n.fd .bc i) i)
    (List.replicate (n.maxfd + 1).toNat (-1))

def pt2ptset : List Pollfd :=
  n.others.foldl
    (fun set i => set.set (if n.myid < i then i - 1 else i) ⟨n.fds .pt i, .none⟩)
    (List.replicate (n.size - 1) ⟨0, .none⟩)

def finish : Node :=
  { n with
    links := {
      size := n.size
      myid := n.myid
      pt2ptfd := some ((List.range n.size).map (n.fds .pt))
      groupfd := some ((List.range n.size).map (n.fds .bc))
      fdtorank := some n.fdtorank
      maxmsg := maxMsgDefault
      pt2ptset := some n.pt2ptset } }

end Node

/-- One step of the process `p`. `host` says on which machine a process runs, and the slaves
have got `rootport` in their arguments. -/
inductive Act (host : Nat → String) (rootport p : Nat) :
    Node → World Addr Word → Node → World Addr Word → Prop
  | connRoot {n w w'} (fd : Nat) (here : n.pc = .connRoot) (positive : 0 < rootport)
      (call : w.Connects w' p fd (host 0, rootport)) :
      Act host rootport p n w { n.setFd .pt 0 fd with pc := .listen .pt } w'
  | listen {n w w'} (net : Net) (fd port : Nat) (here : n.pc = .listen net) (positive : 0 < port)
      (call : w.Listens w' p fd (host p, port)) :
      Act host rootport p n w { n.setListening net fd port with pc := .afterListen net } w'
  | writePort {n w w'} (net : Net) (here : n.pc = .writePort net)
      (call : w.Writes w' p (n.fd .pt 0) [.int (n.port net)]) :
      Act host rootport p n w { n with pc := .afterWritePort net } w'
  | writeHost {n w w'} (here : n.pc = .writeHost)
      (call : w.Writes w' p (n.fd .pt 0) [.host (host p)]) :
      Act host rootport p n w { n with pc := .readInfo } w'
  | readInfo {n w w'} (size myid : Nat) (here : n.pc = .readInfo)
      (call : w.Reads w' p (n.fd .pt 0) [.int size, .int myid]) :
      Act host rootport p n w { n with size := size, myid := myid, pc := .readPorts .pt } w'
  | readPorts {n w w'} (net : Net) (table : List Nat) (here : n.pc = .readPorts net)
      (length : table.length = n.size) (call : w.Reads w' p (n.fd .pt 0) (table.map .int)) :
      Act host rootport p n w
        { n with
          ports := Function.update n.ports net (fun i => table.getD i 0)
          pc := .afterReadPorts net } w'
  | readHosts {n w w'} (i : Nat) (name : String) (here : n.pc = .readHosts i)
      (more : i < n.size) (call : w.Reads w' p (n.fd .pt 0) [.host name]) :
      Act host rootport p n w { n.setHost i name with pc := .readHosts (i + 1) } w'
  | readHostsEnd {n w} (i : Nat) (here : n.pc = .readHosts i) (last : ¬ i < n.size) :
      Act host rootport p n w { n with pc := .conn .pt 1 } w
  | conn {n w w'} (net : Net) (i fd : Nat) (here : n.pc = .conn net i) (more : i < n.myid)
      (positive : 0 < n.ports net i)
      (call : w.Connects w' p fd (n.hostnames i, n.ports net i)) :
      Act host rootport p n w { n.setFd net i fd with pc := .writeId net i } w'
  | writeId {n w w'} (net : Net) (i : Nat) (here : n.pc = .writeId net i)
      (call : w.Writes w' p (n.fd net i) [.int n.myid]) :
      Act host rootport p n w { n with pc := .conn net (i + 1) } w'
  -- `i` goes on from there in the loop that accepts
  | connEnd {n w} (net : Net) (i : Nat) (here : n.pc = .conn net i) (last : ¬ i < n.myid) :
      Act host rootport p n w { n.setFd net n.myid (-1) with pc := .accept net (i + 1) } w
  | listenGroup {n w w'} (fd port : Nat) (here : n.pc = .listenGroup) (positive : 0 < port)
      (call : w.Listens w' p fd (host p, port)) :
      Act host rootport p n w
        { (((n.setListening .bc fd port).setPort .pt 0 (n.port .pt)).setPort .bc 0 port).setHost 0
            (host p) with pc := .acceptRoot 1 } w'
  | acceptRoot {n w w'} (i cfd : Nat) (c : Conn) (here : n.pc = .acceptRoot i) (more : i < n.size)
      (call : w.Accepts w' p (n.lisfd .pt) cfd c) :
      Act host rootport p n w { n.setFd .pt i cfd with pc := .readPort i .pt } w'
  | readPort {n w w'} (i port : Nat) (net : Net) (here : n.pc = .readPort i net)
      (call : w.Reads w' p (n.fd .pt i) [.int port]) :
      Act host rootport p n w { n.setPort net i port with pc := .afterReadPort i net } w'
  | readHost {n w w'} (i : Nat) (name : String) (here : n.pc = .readHost i)
      (call : w.Reads w' p (n.fd .pt i) [.host name]) :
      Act host rootport p n w { n.setHost i name with pc := .writeInfo i } w'
  | writeInfo {n w w'} (i : Nat) (here : n.pc = .writeInfo i)
      (call : w.Writes w' p (n.fd .pt i) [.int n.size, .int i]) :
      Act host rootport p n w { n with pc := .acceptRoot (i + 1) } w'
  | acceptRootEnd {n w} (i : Nat) (here : n.pc = .acceptRoot i) (last : ¬ i < n.size) :
      Act host rootport p n w { n with pc := .writePorts 1 .pt } w
  | writePorts {n w w'} (i : Nat) (net : Net) (here : n.pc = .writePorts i net) (more : i < n.size)
      (call : w.Writes w' p (n.fd .pt i) ((List.range n.size).map fun j => .int (n.ports net j))) :
      Act host rootport p n w { n with pc := .afterWritePorts i net } w'
  | writeHosts {n w w'} (i j : Nat) (here : n.pc = .writeHosts i j) (more : j < n.size)
      (call : w.Writes w' p (n.fd .pt i) [.host (n.hostnames j)]) :
      Act host rootport p n w { n with pc := .writeHosts i (j + 1) } w'
  | writeHostsEnd {n w} (i j : Nat) (here : n.pc = .writeHosts i j) (last : ¬ j < n.size) :
      Act host rootport p n w { n with pc := .writePorts (i + 1) .pt } w
  | writePortsEnd {n w} (i : Nat) (here : n.pc = .writePorts i .pt) (last : ¬ i < n.size) :
      Act host rootport p n w { n with pc := .accept .bc 1 } w
  | accept {n w w'} (net : Net) (i newfd : Nat) (c : Conn) (here : n.pc = .accept net i)
      (more : i < n.size) (call : w.Accepts w' p (n.lisfd net) newfd c) :
      Act host rootport p n w { n with pc := .readId net i newfd } w'
  | readId {n w w'} (net : Net) (i newfd newid : Nat) (here : n.pc = .readId net i newfd)
      (call : w.Reads w' p newfd [.int newid]) :
      Act host rootport p n w { n.setFd net newid newfd with pc := .accept net (i + 1) } w'
  | acceptEnd {n w} (net : Net) (i : Nat) (here : n.pc = .accept net i) (last : ¬ i < n.size) :
      Act host rootport p n w { n with pc := .afterAccept net } w
  | tables {n w w' w''} (here : n.pc = .tables) (close : w.Closes w' p (n.lisfd .pt))
      (close' : w'.Closes w'' p (n.lisfd .bc)) :
      Act host rootport p n w { n.finish with pc := .done } w''

structure State where
  node : Nat → Node
  world : World Addr Word

def State.put (s : State) (p : Nat) (n : Node) (w : World Addr Word) : State :=
  ⟨Function.update s.node p n, w⟩

@[simp] theorem State.put_self (s : State) (p : Nat) (n : Node) (w : World Addr Word) :
    (s.put p n w).node p = n := by
  simp [State.put]

theorem State.put_other (s : State) {p q : Nat} (n : Node) (w : World Addr Word)
    (different : q ≠ p) : (s.put p n w).node q = s.node q := by
  simp [State.put, different]

@[simp] theorem State.put_world (s : State) (p : Nat) (n : Node) (w : World Addr Word) :
    (s.put p n w).world = w := rfl

@[simp] theorem State.put_port (s : State) (p q : Nat) (pc : Pc) (fds : Net → Nat → Int)
    (links : NetdLinks) (w : World Addr Word) :
    ((s.put p { s.node p with pc := pc, fds := fds, links := links } w).node q).port =
      (s.node q).port := by
  by_cases same : q = p
  · rw [same, put_self]
  · rw [put_other s _ w same]

/-- What holds of the new node and of the others holds of all nodes. -/
theorem State.put_all (s : State) {p : Nat} {n : Node} {w : World Addr Word}
    (holds : Nat → Node → Prop) (self : holds p n) (others : ∀ q, q ≠ p → holds q (s.node q)) :
    ∀ q, holds q ((s.put p n w).node q) := by
  intro q
  by_cases same : q = p
  · rw [same, put_self]
    exact self
  · rw [put_other s n w same]
    exact others q same

inductive Step (size : Nat) (host : Nat → String) (rootport : Nat) (s : State) : State → Prop
  | act {n w} (p : Nat) (member : p < size) (act : Act host rootport p (s.node p) s.world n w) :
      Step size host rootport s (s.put p n w)

/-- The slaves have been started and know the port of `rootlisfd`. -/
def boot (size : Nat) (host : Nat → String) (rootlisfd rootport : Nat) : State where
  node p := {
    pc := if p = 0 then .listenGroup else .connRoot
    size := if p = 0 then size else 0
    myid := 0
    lisfd := fun _ => if p = 0 then rootlisfd else 0
    port := fun _ => if p = 0 then rootport else 0
    ports := fun _ _ => 0
    hostnames := fun _ => ""
    fds := fun _ i => if p = 0 ∧ i = 0 then -1 else 0
    links := Pt2pt.netdLinksInit }
  world := {
    file := setFile (fun _ _ => none) 0 rootlisfd (some (.listening (host 0, rootport)))
    queue := Function.update (fun _ => none) (host 0, rootport) (some [])
    up := fun _ => []
    down := fun _ => [] }

abbrev Reaches (size : Nat) (host : Nat → String) (rootport : Nat) :=
  Relation.ReflTransGen (Step size host rootport)

end Tmpi.Netd.Bootstrap
