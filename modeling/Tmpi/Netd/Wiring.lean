import Tmpi.Netd.Bootstrap

/-! What is true of the nodes and their sockets while they connect to one another.

The master hands out ids in the order in which it accepts, so the id of a process is known
to nobody before that. `rank p` is the id that the process `p` has been given, and the
number of the nodes before there is one. -/

namespace Tmpi.Netd.Bootstrap

open Sockets

theorem Net.forall_iff {holds : Net → Prop} : (∀ net, holds net) ↔ holds .pt ∧ holds .bc := by
  constructor
  · intro all
    exact ⟨all .pt, all .bc⟩
  · rintro ⟨pt, bc⟩ net
    cases net with
    | pt => exact pt
    | bc => exact bc

/-- A listening socket: the net that it is for, and the process. -/
abbrev Socket := Net × Nat

/-- `rootlisfd` -/
def root : Socket := (.pt, 0)

/-! ## What a place in the code says

A process of rank `r` in a group of `N` nodes. -/

namespace Pc

def opened (net : Net) : Pc → Prop
  | connRoot => False
  | listen .pt => False
  | listen .bc => net = .pt
  | listenGroup => net = .pt
  | _ => True

/-- The nodes below that have been called. -/
def asked (r : Nat) : Net → Pc → Nat
  | _, connRoot => 0
  | .pt, listen _ => 1
  | .pt, writePort _ => 1
  | .pt, writeHost => 1
  | .pt, readInfo => 1
  | .pt, readPorts _ => 1
  | .pt, readHosts _ => 1
  | .pt, conn .pt i => i
  | .pt, conn .bc _ => r
  | .bc, conn .bc i => i
  | .pt, writeId .pt i => i + 1
  | .pt, writeId .bc _ => r
  | .bc, writeId .bc i => i + 1
  | .pt, accept _ _ => r
  | .pt, readId _ _ _ => r
  | .bc, accept .bc _ => r
  | .bc, readId .bc _ _ => r
  | _, tables => r
  | _, done => r
  | _, _ => 0

/-- The nodes below that have been sent the id. -/
def told (r : Nat) (net : Net) : Pc → Nat
  | writeId other i => if net = other then i else asked r net (writeId other i)
  | pc => asked r net pc

/-- How many callers have been accepted and have a place in the table. -/
def count (N r : Nat) : Net → Pc → Nat
  | .pt, acceptRoot i => i - 1
  | .pt, readPort i _ => i
  | .pt, readHost i => i
  | .pt, writeInfo i => i
  | .pt, writePorts _ _ => N - 1
  | .pt, writeHosts _ _ => N - 1
  | .pt, accept .pt i => i - (r + 1)
  | .pt, readId .pt i _ => i - (r + 1)
  | .pt, conn .bc _ => N - 1 - r
  | .pt, writeId .bc _ => N - 1 - r
  | .pt, accept .bc _ => N - 1 - r
  | .pt, readId .bc _ _ => N - 1 - r
  | .bc, accept .bc i => i - (r + 1)
  | .bc, readId .bc i _ => i - (r + 1)
  | _, tables => N - 1 - r
  | _, done => N - 1 - r
  | _, _ => 0

/-- The descriptor of a caller that has been accepted and has no place yet. -/
def holding (net : Net) : Pc → Option Nat
  | readId other _ newfd => if net = other then some newfd else none
  | _ => none

/-- What a slave has written to the master. -/
def greeted : Pc → Nat
  | connRoot => 0
  | listen _ => 0
  | writePort .pt => 0
  | writePort .bc => 1
  | writeHost => 2
  | _ => 3

/-- What a slave has read from the master. -/
def got (N : Nat) : Pc → Nat
  | connRoot => 0
  | listen _ => 0
  | writePort _ => 0
  | writeHost => 0
  | readInfo => 0
  | readPorts .pt => 2
  | readPorts .bc => 2 + N
  | readHosts i => 2 + 2 * N + i
  | _ => 2 + 3 * N

/-- What the master has read from the slave with the id `id`. -/
def welcomed (N id : Nat) : Pc → Nat
  | listenGroup => 0
  | acceptRoot i => if id < i then 3 else 0
  | readPort i .pt => if id < i then 3 else 0
  | readPort i .bc => if id < i then 3 else if id = i then 1 else 0
  | readHost i => if id < i then 3 else if id = i then 2 else 0
  | writeInfo i => if id ≤ i then 3 else 0
  | _ => if id < N then 3 else 0

/-- What the master has written to the slave with the id `id`. -/
def announced (N id : Nat) : Pc → Nat
  | listenGroup => 0
  | acceptRoot i => if id < i then 2 else 0
  | readPort i _ => if id < i then 2 else 0
  | readHost i => if id < i then 2 else 0
  | writeInfo i => if id < i then 2 else 0
  | writePorts i .pt => if id < i then 2 + 3 * N else if id < N then 2 else 0
  | writePorts i .bc =>
      if id < i then 2 + 3 * N else if id = i then 2 + N else if id < N then 2 else 0
  | writeHosts i j =>
      if id < i then 2 + 3 * N else if id = i then 2 + 2 * N + j else if id < N then 2 else 0
  | _ => if id < N then 2 + 3 * N else 0

/-- The ids below that are known to have their ports in `ports`. -/
def knownPorts (N : Nat) : Net → Pc → Nat
  | .pt, readPorts .bc => N
  | _, readHosts _ => N
  | _, conn _ _ => N
  | _, writeId _ _ => N
  | _, acceptRoot i => i
  | _, readPort i .pt => i
  | .pt, readPort i .bc => i + 1
  | .bc, readPort i .bc => i
  | _, readHost i => i + 1
  | _, writeInfo i => i + 1
  | _, writePorts _ _ => N
  | _, writeHosts _ _ => N
  | _, accept _ _ => N
  | _, readId _ _ _ => N
  | _, tables => N
  | _, done => N
  | _, _ => 0

/-- The ids below that are known to have their machines in `hostnames`. -/
def knownHosts (N : Nat) : Pc → Nat
  | readHosts i => i
  | conn _ _ => N
  | writeId _ _ => N
  | acceptRoot i => i
  | readPort i _ => i
  | readHost i => i
  | writeInfo i => i + 1
  | writePorts _ _ => N
  | writeHosts _ _ => N
  | accept _ _ => N
  | readId _ _ _ => N
  | tables => N
  | done => N
  | _ => 0

/-- Where the loops over `pt2ptfd` and `groupfd` begin. -/
def first : Net → Nat
  | .pt => 1
  | .bc => 0

/-- Where the process `p` can be. -/
def Fits (N p r : Nat) : Pc → Prop
  | connRoot => p ≠ 0
  | listen _ => p ≠ 0
  | writePort _ => p ≠ 0
  | writeHost => p ≠ 0
  | readInfo => p ≠ 0
  | readPorts _ => p ≠ 0 ∧ r < N
  | readHosts i => p ≠ 0 ∧ r < N ∧ i ≤ N
  | conn net i => p ≠ 0 ∧ r < N ∧ first net ≤ i ∧ i ≤ r
  | writeId net i => p ≠ 0 ∧ r < N ∧ first net ≤ i ∧ i < r
  | listenGroup => p = 0
  | acceptRoot i => p = 0 ∧ 1 ≤ i ∧ i ≤ N
  | readPort i _ => p = 0 ∧ 1 ≤ i ∧ i < N
  | readHost i => p = 0 ∧ 1 ≤ i ∧ i < N
  | writeInfo i => p = 0 ∧ 1 ≤ i ∧ i < N
  | writePorts i .pt => p = 0 ∧ 1 ≤ i ∧ i ≤ N
  | writePorts i .bc => p = 0 ∧ 1 ≤ i ∧ i < N
  | writeHosts i j => p = 0 ∧ 1 ≤ i ∧ i < N ∧ j ≤ N
  | accept net i => (p = 0 → net = .bc) ∧ r < i ∧ i ≤ N
  | readId net i _ => (p = 0 → net = .bc) ∧ r < i ∧ i < N
  | tables => r < N
  | done => r < N

/-- The process knows its id and the size of the group. -/
def informed : Pc → Prop
  | connRoot => False
  | listen _ => False
  | writePort _ => False
  | writeHost => False
  | readInfo => False
  | _ => True

attribute [simp] opened asked told count holding greeted got welcomed announced knownPorts
  knownHosts first Fits informed afterListen afterWritePort afterReadPorts afterReadPort
  afterWritePorts afterAccept

end Pc

/-! ## What all nodes say together -/

abbrev Board := Switchboard Socket Addr

/-- What the code of one process, at its place, says about its calls and its callers. -/
structure Shows (host : Nat → String) (N : Nat) (v : Board) (rank : Nat → Nat) (p : Nat)
    (n : Node) : Prop where
  opened : ∀ net, v.opened (net, p) ↔ n.pc.opened net
  closed : ∀ net, v.closed (net, p) ↔ n.pc = .done
  lis : ∀ net, n.pc.opened net → v.lis (net, p) = n.lisfd net
  addr : ∀ net, n.pc.opened net → v.addr (net, p) = (host p, n.port net) ∧ 0 < n.port net
  heard : ∀ net, (v.heard (net, p)).length = n.pc.count N (rank p) net
  held : ∀ net, (v.held (net, p)).map (v.answer (net, p)) = n.pc.holding net
  called : ∀ a, v.called p a ↔ rank a.2 < n.pc.asked (rank p) a.1
  lines : ∀ a, v.called p a → n.fds a.1 (rank a.2) = v.line p a
  answers : ∀ net q, q ∈ v.heard (net, p) → n.fds net (rank q) = v.answer (net, p) q

/-- `order` are the slaves in the order in which the master has accepted them. -/
structure Ranks (N : Nat) (rank : Nat → Nat) (order : List Nat) : Prop where
  zero : rank 0 = 0
  nth : ∀ i p, order[i]? = some p → rank p = i + 1
  stray : ∀ p, p ≠ 0 → p ∉ order → rank p = N
  small : order.length < N

/-- What a slave writes to the master. -/
def greeting (host : Nat → String) (p : Nat) (n : Node) : List Word :=
  [.int (n.port .pt), .int (n.port .bc), .host (host p)]

/-- What the master writes to a slave. -/
def announcement (N : Nat) (master : Node) (id : Nat) : List Word :=
  [.int N, .int id] ++ (List.range N).map (fun i => .int (master.ports .pt i)) ++
    (List.range N).map (fun i => .int (master.ports .bc i)) ++
    (List.range N).map (fun i => .host (master.hostnames i))

section

variable (N : Nat) (master : Node) (id : Nat)

/-- The first two words do not depend on the tables of the master. -/
theorem announcement_early (other : Node) {written read : Nat} (early : written ≤ 2) :
    onTheWay (announcement N master id) written read =
      onTheWay (announcement N other id) written read := by
  have front : ∀ node, (announcement N node id).take written =
      [Word.int N, Word.int id].take written := by
    intro node
    rw [announcement, List.append_assoc, List.append_assoc]
    exact List.take_append_of_le_length early
  rw [onTheWay, onTheWay, front, front]

theorem announcement_ports (net : Net) :
    (List.range N).map (fun i => Word.int (master.ports net i)) <+:
      (announcement N master id).drop ((Pc.readPorts net).got N) := by
  cases net with
  | pt =>
      apply List.prefix_append_of_prefix
      apply List.prefix_append_of_prefix
      exact List.prefix_rfl
  | bc =>
      have front : (announcement N master id).drop (2 + N) =
          (List.range N).map (fun i => Word.int (master.ports .bc i)) ++
            (List.range N).map (fun i => Word.host (master.hostnames i)) := by
        rw [announcement, List.append_assoc, List.drop_left']
        simp only [List.length_append, List.length_map, List.length_range, List.length_cons,
          List.length_nil]
      rw [Pc.got, front]
      exact List.prefix_append _ _

theorem announcement_hosts {i : Nat} (small : i < N) :
    [.host (master.hostnames i)] <+:
      (announcement N master id).drop ((Pc.readHosts i).got N) := by
  have front : (announcement N master id).drop (2 + 2 * N) =
      (List.range N).map (fun i => Word.host (master.hostnames i)) := by
    rw [announcement, List.drop_left']
    simp only [List.length_append, List.length_map, List.length_range, List.length_cons,
      List.length_nil]
    omega
  rw [Pc.got, ← List.drop_drop, front, List.drop_eq_getElem_cons (by simpa using small)]
  simp

end

/-- What the slave `p` and the master have written to each other and not yet read. -/
structure Talks (host : Nat → String) (N p r : Nat) (up down : List Word) (n master : Node) :
    Prop where
  welcomed : master.pc.welcomed N r ≤ n.pc.greeted
  up : up = onTheWay (greeting host p n) n.pc.greeted (master.pc.welcomed N r)
  got : n.pc.got N ≤ master.pc.announced N r
  down : down = onTheWay (announcement N master r) (master.pc.announced N r) (n.pc.got N)

theorem Talks.alike {host : Nat → String} {N p r : Nat} {up down : List Word} {n n' master : Node}
    (talk : Talks host N p r up down n master) (port : n'.port = n.port)
    (greeted : n'.pc.greeted = n.pc.greeted) (got : n'.pc.got N = n.pc.got N) :
    Talks host N p r up down n' master := by
  refine ⟨?_, ?_, ?_, ?_⟩
  · rw [greeted]
    exact talk.welcomed
  · rw [greeted, greeting, port]
    exact talk.up
  · rw [got]
    exact talk.got
  · rw [got]
    exact talk.down

structure Inv (N : Nat) (host : Nat → String) (rootport : Nat) (s : State) (v : Board)
    (rank : Nat → Nat) : Prop where
  kept : v.Kept s.world
  owner : v.owner = Prod.snd
  shows : ∀ p, Shows host N v rank p (s.node p)
  fits : ∀ p, (s.node p).pc.Fits N p (rank p)
  members : ∀ p, N ≤ p → (s.node p).pc = .connRoot
  ranks : Ranks N rank (v.heard root)
  informed : ∀ p, (s.node p).pc.informed → (s.node p).size = N ∧ (s.node p).myid = rank p
  rootport : (s.node 0).port .pt = rootport
  ports : ∀ p q net, rank q < (s.node p).pc.knownPorts N net →
    (s.node p).ports net (rank q) = (s.node q).port net
  hosts : ∀ p q, rank q < (s.node p).pc.knownHosts N → (s.node p).hostnames (rank q) = host q
  talks : ∀ p, v.called p root →
    Talks host N p (rank p) (s.world.up (p, v.line p root)) (s.world.down (p, v.line p root))
      (s.node p) (s.node 0)
  introduces : ∀ p a, v.called p a → a ≠ root →
    (p ∈ v.heard a → rank a.2 < (s.node p).pc.told (rank p) a.1) ∧
      s.world.up (p, v.line p a) =
        (if rank a.2 < (s.node p).pc.told (rank p) a.1 ∧ p ∉ v.heard a
          then [.int (rank p)] else []) ∧
      s.world.down (p, v.line p a) = []

/-! ## Ranks -/

namespace Ranks

variable {N : Nat} {rank : Nat → Nat} {order : List Nat}

theorem lt_of_mem (ranks : Ranks N rank order) {p : Nat} (member : p ∈ order) :
    1 ≤ rank p ∧ rank p < N := by
  obtain ⟨i, bound, rfl⟩ := List.getElem_of_mem member
  have rank := ranks.nth i order[i] (List.getElem?_eq_getElem bound)
  have small := ranks.small
  omega

theorem mem_of_lt (ranks : Ranks N rank order) {p : Nat} (slave : p ≠ 0) (small : rank p < N) :
    p ∈ order := by
  by_contra stray
  have same := ranks.stray p slave stray
  omega

theorem pos (ranks : Ranks N rank order) {p : Nat} (slave : p ≠ 0) : 1 ≤ rank p := by
  have small := ranks.small
  by_cases member : p ∈ order
  · exact (ranks.lt_of_mem member).1
  · rw [ranks.stray p slave member]
    omega

theorem eq_zero_iff (ranks : Ranks N rank order) {p : Nat} : rank p = 0 ↔ p = 0 := by
  constructor
  · intro none
    by_contra slave
    have positive := ranks.pos slave
    omega
  · rintro rfl
    exact ranks.zero

theorem inj (ranks : Ranks N rank order) {p q : Nat} (small : rank p < N)
    (same : rank p = rank q) : p = q := by
  by_cases master : p = 0
  · subst master
    rw [ranks.zero] at same
    exact (ranks.eq_zero_iff.mp same.symm).symm
  · have other : q ≠ 0 := by
      rintro rfl
      rw [ranks.zero] at same
      exact master (ranks.eq_zero_iff.mp same)
    obtain ⟨i, _, first⟩ := List.getElem_of_mem (ranks.mem_of_lt master small)
    obtain ⟨j, _, second⟩ := List.getElem_of_mem (ranks.mem_of_lt other (same ▸ small))
    have rankP := ranks.nth i p (by rw [← first]; exact List.getElem?_eq_getElem _)
    have rankQ := ranks.nth j q (by rw [← second]; exact List.getElem?_eq_getElem _)
    have index : i = j := by omega
    subst index
    exact first.symm.trans second

end Ranks

/-! ## Places -/

namespace Pc

variable {N p r : Nat} {pc : Pc} {net : Net}

/-- As far as callers and calls are concerned the two places are the same. -/
structure Alike (N r : Nat) (pc pc' : Pc) : Prop where
  opened : ∀ net, pc'.opened net ↔ pc.opened net
  done : pc' = .done ↔ pc = .done
  asked : ∀ net, pc'.asked r net = pc.asked r net
  told : ∀ net, pc'.told r net = pc.told r net
  count : ∀ net, pc'.count N r net = pc.count N r net
  holding : ∀ net, pc'.holding net = pc.holding net

/-- As far as the talk of the master with the slaves is concerned the two places are the same. -/
structure Level (N : Nat) (pc pc' : Pc) : Prop where
  informed : pc'.informed → pc.informed
  knownPorts : ∀ net, pc'.knownPorts N net = pc.knownPorts N net
  knownHosts : pc'.knownHosts N = pc.knownHosts N
  greeted : pc'.greeted = pc.greeted
  got : pc'.got N = pc.got N
  welcomed : ∀ id, pc'.welcomed N id = pc.welcomed N id
  announced : ∀ id, 1 ≤ id → pc'.announced N id = pc.announced N id

theorem alike_iff {pc' : Pc} : pc.Alike N r pc' ↔
    (pc' = .done ↔ pc = .done) ∧
      ∀ net, (pc'.opened net ↔ pc.opened net) ∧ pc'.asked r net = pc.asked r net ∧
        pc'.told r net = pc.told r net ∧ pc'.count N r net = pc.count N r net ∧
        pc'.holding net = pc.holding net := by
  constructor
  · intro alike
    exact ⟨alike.done, fun net => ⟨alike.opened net, alike.asked net, alike.told net,
      alike.count net, alike.holding net⟩⟩
  · rintro ⟨done, alike⟩
    exact ⟨fun net => (alike net).1, done, fun net => (alike net).2.1,
      fun net => (alike net).2.2.1, fun net => (alike net).2.2.2.1,
      fun net => (alike net).2.2.2.2⟩

/-- The master is through with its first loop. -/
def past : Pc → Prop
  | writePorts _ _ => True
  | writeHosts _ _ => True
  | accept _ _ => True
  | readId _ _ _ => True
  | tables => True
  | done => True
  | _ => False

theorem Fits.asked_le (fits : pc.Fits N p r) (positive : p ≠ 0 → 1 ≤ r) : pc.asked r net ≤ r := by
  cases pc <;> cases net <;> simp_all [Fits, asked]
  all_goals grind [Pc.asked, Pc.first]

theorem Fits.asked_of_got (fits : pc.Fits N p r) (slave : p ≠ 0) (positive : 1 ≤ r)
    (more : 0 < pc.got N) : 0 < pc.asked r .pt := by
  cases pc <;> grind [Pc.Fits, Pc.asked, Pc.got, Pc.first]

theorem Fits.lt_of_asked (fits : pc.Fits N p r) (calls : first net < pc.asked r net) : r < N := by
  cases pc <;> cases net <;> simp_all [Fits, asked, first] <;> omega

theorem Fits.holding_master (fits : pc.Fits N 0 r) : pc.holding .pt = none := by
  cases pc <;> grind [Pc.Fits, Pc.holding]

theorem Fits.past_of_announced {id : Nat} (fits : pc.Fits N 0 0) (more : 2 < pc.announced N id) :
    pc.past := by
  cases pc <;> grind [Pc.Fits, Pc.announced, Pc.past]

theorem Fits.small_of_announced {id : Nat} (fits : pc.Fits N 0 0) (some : 0 < pc.announced N id) :
    id < N := by
  cases pc <;> grind [Pc.Fits, Pc.announced]

/-- Whose ports the master knows has written them. -/
theorem Fits.welcomed_of_known {id : Nat} (fits : pc.Fits N 0 0) (positive : 1 ≤ id)
    (known : id < pc.knownPorts N net) : 1 ≤ pc.welcomed N id := by
  cases pc <;> grind [Pc.Fits, Pc.knownPorts, Pc.welcomed]

theorem Fits.got_of_known (fits : pc.Fits N p r) (slave : p ≠ 0)
    (known : 0 < pc.knownPorts N net) : 2 < pc.got N := by
  cases pc <;> grind [Pc.Fits, Pc.knownPorts, Pc.got]

/-- A slave that has got at most its id has called the master only, and nobody has called it. -/
theorem Fits.asked_early (fits : pc.Fits N p r) (slave : p ≠ 0) (some : 0 < N)
    (few : pc.got N ≤ 2) (r' : Nat) :
    pc.asked r' .bc = 0 ∧ pc.asked r' .pt ≤ 1 ∧ pc.asked r' .pt = pc.asked r .pt := by
  cases pc <;> grind [Pc.Fits, Pc.asked, Pc.got]

theorem Fits.count_early (fits : pc.Fits N p r) (slave : p ≠ 0) (some : 0 < N)
    (few : pc.got N ≤ 2) (r' : Nat) :
    pc.count N r' net = 0 ∧ pc.knownPorts N net = 0 ∧ pc.knownHosts N = 0 := by
  cases pc <;> grind [Pc.Fits, Pc.count, Pc.knownPorts, Pc.knownHosts, Pc.got]

/-- A slave that has got nothing is where it is whatever its id will be. -/
theorem Fits.unranked (fits : pc.Fits N p r) (slave : p ≠ 0) (nothing : pc.got N = 0) (r' : Nat) :
    pc.Fits N p r' ∧ ¬ pc.informed := by
  cases pc <;> grind [Pc.Fits, Pc.informed, Pc.got]

/-- The master has no dealings with a slave that it has not accepted. -/
theorem Fits.stray (fits : pc.Fits N 0 0) : pc.welcomed N N = 0 ∧ pc.announced N N = 0 := by
  cases pc <;> grind [Pc.Fits, Pc.announced, Pc.welcomed]

/-- Past its first loop the master knows all ports and machines. -/
theorem Fits.known_of_past (fits : pc.Fits N 0 0) (past : pc.past) :
    pc.knownPorts N net = N ∧ pc.knownHosts N = N := by
  cases pc <;> grind [Pc.Fits, Pc.knownPorts, Pc.knownHosts, Pc.past]

theorem opened_of_past (past : pc.past) : pc.opened net := by
  cases pc <;> grind [Pc.opened, Pc.past]

theorem Fits.opened_of_greeted (fits : pc.Fits N p r) (slave : p ≠ 0) (greeted : 3 ≤ pc.greeted) :
    pc.opened net := by
  cases pc <;> grind [Pc.Fits, Pc.opened, Pc.greeted]

theorem Fits.opened_master (fits : pc.Fits N 0 r) : pc.opened .pt := by
  cases pc <;> grind [Pc.Fits, Pc.opened]

theorem Fits.count_of_past (fits : pc.Fits N 0 0) (past : pc.past) :
    pc.count N 0 .pt = N - 1 := by
  cases pc <;> grind [Pc.Fits, Pc.count, Pc.past]

theorem welcomed_of_past {id : Nat} (past : pc.past) (small : id < N) :
    pc.welcomed N id = 3 := by
  cases pc <;> grind [Pc.welcomed, Pc.past]

end Pc

/-- A list without repetitions that is as long as an interval it lies in is all of it. -/
theorem mem_of_full {l : List Nat} {low high x : Nat} (once : l.Nodup)
    (inside : ∀ y ∈ l, low < y ∧ y < high) (full : l.length = high - 1 - low) (above : low < x)
    (below : x < high) : x ∈ l := by
  have subset : l.toFinset ⊆ Finset.Ioo low high :=
    fun y member => Finset.mem_Ioo.mpr (inside y (List.mem_toFinset.mp member))
  have same : l.toFinset = Finset.Ioo low high := by
    apply Finset.eq_of_subset_of_card_le subset
    rw [List.toFinset_card_of_nodup once, full, Nat.card_Ioo]
    omega
  have member : x ∈ l.toFinset := by
    rw [same]
    exact Finset.mem_Ioo.mpr ⟨above, below⟩
  exact List.mem_toFinset.mp member

/-! ## First consequences -/

section

variable {N : Nat} {host : Nat → String} {rootport : Nat} {s : State} {v : Board}
  {rank : Nat → Nat}

namespace Inv

variable (inv : Inv N host rootport s v rank)

include inv

theorem rank_zero_iff {p : Nat} : rank p = 0 ↔ p = 0 := inv.ranks.eq_zero_iff

theorem asked_le (p : Nat) (net : Net) : (s.node p).pc.asked (rank p) net ≤ rank p :=
  (inv.fits p).asked_le inv.ranks.pos

theorem slave_of_called {p : Nat} {a : Socket} (called : v.called p a) : p ≠ 0 := by
  rintro rfl
  have asked := ((inv.shows 0).called a).mp called
  have most := inv.asked_le 0 a.1
  rw [inv.ranks.zero] at asked most
  omega

theorem member_of_called {p : Nat} {a : Socket} (called : v.called p a) : p < N := by
  by_contra outside
  have asked := ((inv.shows p).called a).mp called
  rw [inv.members p (not_lt.mp outside)] at asked
  obtain ⟨net, q⟩ := a
  cases net <;> simp [Pc.asked] at asked

theorem lt_of_called {p : Nat} {a : Socket} (called : v.called p a) : rank a.2 < rank p :=
  lt_of_lt_of_le (((inv.shows p).called a).mp called) (inv.asked_le p a.1)

/-- Who has called another node than the master knows its own id. -/
theorem small_of_called {p : Nat} {a : Socket} (called : v.called p a) (other : a ≠ root) :
    rank p < N := by
  have asked := ((inv.shows p).called a).mp called
  have begins : Pc.first a.1 ≤ rank a.2 := by
    obtain ⟨net, q⟩ := a
    cases net with
    | bc => exact Nat.zero_le _
    | pt =>
        apply inv.ranks.pos
        rintro rfl
        exact other rfl
  exact (inv.fits p).lt_of_asked (lt_of_le_of_lt begins asked)

theorem small_of_taken {p : Nat} {a : Socket} (taken : v.Taken a p) (free : v.held root = none) :
    rank p < N := by
  by_cases master : a = root
  · subst master
    rcases taken with heard | held
    · exact (inv.ranks.lt_of_mem heard).2
    · simp [free] at held
  · exact inv.small_of_called (inv.kept.answered a p taken).1 master

theorem held_root : v.held root = none := by
  have held := (inv.shows 0).held .pt
  rw [(inv.fits 0).holding_master] at held
  exact Option.map_eq_none_iff.mp held

/-- A node that has accepted as many callers as there are nodes above has accepted them all. -/
theorem heard_all {a : Socket} (full : (v.heard a).length = N - 1 - rank a.2) {p : Nat}
    (above : rank a.2 < rank p) (small : rank p < N) : p ∈ v.heard a := by
  have once : (v.heard a).Nodup := (List.nodup_append.mp (inv.kept.once a)).1
  have small_heard : ∀ q ∈ v.heard a, rank q < N :=
    fun q member => inv.small_of_taken (.inl member) inv.held_root
  have ranks_once : ((v.heard a).map rank).Nodup :=
    once.map_on fun q member other _ same => inv.ranks.inj (small_heard q member) same
  have inside : ∀ r ∈ (v.heard a).map rank, rank a.2 < r ∧ r < N := by
    intro r member
    obtain ⟨q, heard, rfl⟩ := List.mem_map.mp member
    exact ⟨inv.lt_of_called (inv.kept.answered a q (.inl heard)).1, small_heard q heard⟩
  have member : rank p ∈ (v.heard a).map rank :=
    mem_of_full ranks_once inside (by rw [List.length_map, full]) above small
  obtain ⟨q, heard, equal⟩ := List.mem_map.mp member
  have found : q = p := inv.ranks.inj (small_heard q heard) equal
  exact found ▸ heard

/-- Once the master is through with its first loop it has read what every slave had to say. -/
theorem all_heard (past : (s.node 0).pc.past) {p : Nat} (slave : p ≠ 0) (member : p < N) :
    p ∈ v.heard root := by
  have once : (v.heard root).Nodup := (List.nodup_append.mp (inv.kept.once root)).1
  have inside : ∀ q ∈ v.heard root, 0 < q ∧ q < N := by
    intro q heard
    have called := (inv.kept.answered root q (.inl heard)).1
    exact ⟨Nat.pos_of_ne_zero (inv.slave_of_called called), inv.member_of_called called⟩
  have fits := inv.fits 0
  rw [inv.ranks.zero] at fits
  have full : (v.heard root).length = N - 1 - 0 := by
    have count := (inv.shows 0).heard .pt
    rw [inv.ranks.zero, fits.count_of_past past] at count
    exact count
  exact mem_of_full once inside full (Nat.pos_of_ne_zero slave) member

theorem all_small (past : (s.node 0).pc.past) {p : Nat} (member : p < N) : rank p < N := by
  by_cases master : p = 0
  · rw [master, inv.ranks.zero]
    exact lt_of_le_of_lt (Nat.zero_le _) inv.ranks.small
  · exact (inv.ranks.lt_of_mem (inv.all_heard past master member)).2

theorem all_greeted (past : (s.node 0).pc.past) {p : Nat} (slave : p ≠ 0) (member : p < N) :
    3 ≤ (s.node p).pc.greeted := by
  have called := (inv.kept.answered root p (.inl (inv.all_heard past slave member))).1
  have welcomed := (inv.talks p called).welcomed
  rw [Pc.welcomed_of_past past (inv.all_small past member)] at welcomed
  exact welcomed

/-- No slave is told more than its id before. -/
theorem past_of_got {p : Nat} (slave : p ≠ 0) (more : 2 < (s.node p).pc.got N) :
    (s.node 0).pc.past := by
  have called : v.called p root := by
    rw [(inv.shows p).called, root, inv.ranks.zero]
    exact (inv.fits p).asked_of_got slave (inv.ranks.pos slave) (Nat.zero_lt_of_lt more)
  have fits := inv.fits 0
  rw [inv.ranks.zero] at fits
  exact fits.past_of_announced (lt_of_lt_of_le more (inv.talks p called).got)

end Inv

end

end Tmpi.Netd.Bootstrap
