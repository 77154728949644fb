import Tmpi.Netd.Countdown

/-! What the tables of the nodes say in the end: over which descriptor every other node is
reached, and who is at the other end of it. -/

namespace Tmpi.Netd.Bootstrap

open Sockets
open Pt2pt (NetdLinks Pollfd)

/-! ## Filling a table -/

section

variable {ι β : Type} {place : ι → Nat} {value : ι → β}

theorem length_fill (l : List ι) (table : List β) :
    (l.foldl (fun table i => table.set (place i) (value i)) table).length = table.length := by
  induction l generalizing table with
  | nil => rfl
  | cons i l ih => rw [List.foldl_cons, ih, List.length_set]

theorem fill_other {l : List ι} {k : Nat} (table : List β) (elsewhere : ∀ i ∈ l, place i ≠ k) :
    (l.foldl (fun table i => table.set (place i) (value i)) table)[k]? = table[k]? := by
  induction l generalizing table with
  | nil => rfl
  | cons i l ih =>
      rw [List.foldl_cons, ih _ fun j member => elsewhere j (List.mem_cons_of_mem _ member),
        List.getElem?_set_ne (elsewhere i List.mem_cons_self)]

/-- A place that is written, and only with one value, has it in the end. -/
theorem fill_get {l : List ι} {table : List β} {k : Nat} {x : β} (inside : k < table.length)
    (written : ∃ i ∈ l, place i = k) (once : ∀ i ∈ l, place i = k → value i = x) :
    (l.foldl (fun table i => table.set (place i) (value i)) table)[k]? = some x := by
  induction l generalizing table with
  | nil =>
      obtain ⟨i, member, -⟩ := written
      cases member
  | cons j l ih =>
      rw [List.foldl_cons]
      by_cases again : ∃ i ∈ l, place i = k
      · exact ih (by rwa [List.length_set]) again fun i member => once i (List.mem_cons_of_mem _ member)
      · have last : ∀ i ∈ l, place i ≠ k := fun i member same => again ⟨i, member, same⟩
        obtain ⟨i, member, here⟩ := written
        have same : i = j := by
          rcases List.mem_cons.mp member with same | later
          · exact same
          · exact absurd here (last i later)
        subst same
        rw [fill_other _ last, here, List.getElem?_set_self inside, once i List.mem_cons_self here]

end

/-! ## The tables of a node -/

namespace Node

variable {n : Node}

theorem mem_others {i : Nat} : i ∈ n.others ↔ i < n.size ∧ i ≠ n.myid := by
  simp [others]

/-- The descriptors for the other nodes, all of them different ones. -/
structure Apart (n : Node) (fd : Net → Nat → Nat) : Prop where
  entry : ∀ net i, i ∈ n.others → n.fds net i = fd net i
  once : ∀ net net' i i', i ∈ n.others → i' ∈ n.others → fd net i = fd net' i' →
    net = net' ∧ i = i'

variable {fd : Net → Nat → Nat}

theorem le_maxfd {net : Net} {i : Nat} (member : i ∈ n.others) : n.fds net i ≤ n.maxfd := by
  have grows : ∀ (l : List Nat) (start : Int),
      start ≤ l.foldl (fun maxfd i => max (max maxfd (n.fds .pt i)) (n.fds .bc i)) start ∧
        ∀ i ∈ l, ∀ net, n.fds net i ≤
          l.foldl (fun maxfd i => max (max maxfd (n.fds .pt i)) (n.fds .bc i)) start := by
    intro l
    induction l with
    | nil =>
        intro start
        exact ⟨le_rfl, fun i member => absurd member List.not_mem_nil⟩
    | cons j l ih =>
        intro start
        obtain ⟨above, all⟩ := ih (max (max start (n.fds .pt j)) (n.fds .bc j))
        rw [List.foldl_cons]
        refine ⟨by omega, ?_⟩
        intro i member net
        rcases List.mem_cons.mp member with rfl | later
        · cases net <;> omega
        · exact all i later net
  exact (grows n.others 0).2 i member net

/-- `fdtorank` leads from a descriptor of either net to the node. -/
theorem fdtorank_get (apart : n.Apart fd) {net : Net} {i : Nat} (member : i ∈ n.others) :
    n.fdtorank[fd net i]? = some (i : Int) := by
  have both : n.fdtorank =
      (n.others.flatMap fun i => [(Net.pt, i), (Net.bc, i)]).foldl
        (fun table a => table.set (n.fd a.1 a.2) (a.2 : Int))
        (List.replicate (n.maxfd + 1).toNat (-1)) := by
    rw [List.foldl_flatMap]
    rfl
  have entries : ∀ net i, i ∈ n.others → n.fd net i = fd net i := by
    intro net i member
    rw [Node.fd, apart.entry net i member]
    rfl
  have within : n.fds net i ≤ n.maxfd := le_maxfd member
  rw [apart.entry net i member] at within
  rw [both]
  apply fill_get
  · rw [List.length_replicate]
    omega
  · refine ⟨(net, i), ?_, entries net i member⟩
    cases net <;> simpa using member
  · rintro ⟨net', j⟩ there same
    have memberJ : j ∈ n.others := by
      simp only [List.mem_flatMap, List.mem_cons, Prod.mk.injEq, List.not_mem_nil, or_false] at there
      obtain ⟨k, memberK, ⟨-, rfl⟩ | ⟨-, rfl⟩⟩ := there
      · exact memberK
      · exact memberK
    rw [entries net' j memberJ] at same
    rw [(apart.once net' net j i memberJ member same).2]

/-- `pt2ptset` has the descriptors of all other nodes in the order of their ids. -/
theorem pt2ptset_get {k : Nat} (inside : k < n.size - 1) (own : n.myid < n.size) :
    n.pt2ptset[k]? = some ⟨n.fds .pt (if k < n.myid then k else k + 1), .none⟩ := by
  apply fill_get
  · rwa [List.length_replicate]
  · refine ⟨if k < n.myid then k else k + 1, ?_, ?_⟩
    · rw [mem_others]
      split <;> omega
    · split <;> split <;> omega
  · intro i member same
    have other := (mem_others.mp member).2
    have index : i = if k < n.myid then k else k + 1 := by
      split at same <;> split <;> omega
    rw [index]

theorem pt2ptset_length : n.pt2ptset.length = n.size - 1 := by
  rw [pt2ptset, length_fill, List.length_replicate]

theorem mem_pt2ptset (own : n.myid < n.size) (fd : Int) :
    fd ∈ n.pt2ptset.map Pollfd.fd ↔ ∃ j, j < n.size ∧ j ≠ n.myid ∧ fd = n.fds .pt j := by
  rw [List.mem_map]
  constructor
  · rintro ⟨entry, member, rfl⟩
    obtain ⟨k, inside, rfl⟩ := List.getElem_of_mem member
    have there := List.getElem?_eq_getElem inside
    rw [pt2ptset_length] at inside
    rw [pt2ptset_get inside own] at there
    refine ⟨if k < n.myid then k else k + 1, ?_, ?_, ?_⟩
    · split <;> omega
    · split <;> omega
    · rw [← Option.some.inj there]
  · rintro ⟨j, below, other, rfl⟩
    obtain ⟨k, inside, back⟩ : ∃ k, k < n.size - 1 ∧ (if k < n.myid then k else k + 1) = j := by
      by_cases low : j < n.myid
      · exact ⟨j, by omega, if_pos low⟩
      · exact ⟨j - 1, by omega, by rw [if_neg (by omega)]; omega⟩
    have there := pt2ptset_get inside own
    rw [back] at there
    exact ⟨_, List.mem_of_getElem? there, rfl⟩

end Node

/-! ## Entries that nobody has a connection for -/

/-- The process has made the entry for itself. -/
def Pc.Marked : Net → Pc → Prop
  | _, connRoot => False
  | _, listen _ => False
  | _, writePort _ => False
  | _, writeHost => False
  | _, readInfo => False
  | _, readPorts _ => False
  | _, readHosts _ => False
  | net, conn other _ => net = .pt ∧ other = .bc
  | net, writeId other _ => net = .pt ∧ other = .bc
  | net, accept other _ => net = .pt ∨ other = .bc
  | net, readId other _ _ => net = .pt ∨ other = .bc
  | _, _ => True

variable {N : Nat} {host : Nat → String} {rootlisfd rootport : Nat} {s s' : State} {v : Board}
  {rank : Nat → Nat} {p : Nat} {n n' : Node} {w w' : World Addr Word}

/-- What a process knows of its own connections, whatever the others do. -/
structure Node.Sealed (n : Node) : Prop where
  own : ∀ net, n.pc.Marked net → n.fds net n.myid = -1
  links : n.pc = .done → n.links = n.finish.links

theorem Act.own (act : Act host rootport p n w n' w') (zero : rank 0 = 0)
    (fits : n.pc.Fits N p (rank p)) (info : n.pc.informed → n.size = N ∧ n.myid = rank p)
    (ids : ∀ net i newfd newid, n.pc = .readId net i newfd → w.Reads w' p newfd [.int newid] →
      newid ≠ n.myid) (own : ∀ net, n.pc.Marked net → n.fds net n.myid = -1) (net' : Net)
    (marked : n'.pc.Marked net') : n'.fds net' n'.myid = -1 := by
  cases act with
  | connRoot | readInfo | writeHost | readHosts => cases marked
  | readHostsEnd => cases marked.2
  | listen net | writePort net | readPorts net => cases net <;> cases marked
  | conn net i fd here _ _ _ =>
      obtain ⟨rfl, rfl⟩ := marked
      have kept : (n.setFd .bc i fd).fds .pt n.myid = n.fds .pt n.myid :=
        Node.setFd_other fd fun both => by cases both.1
      apply kept.trans
      apply own
      rw [here]
      exact ⟨rfl, rfl⟩
  | writeId net i here _ =>
      apply own
      rw [here]
      exact marked
  | connEnd net i here _ =>
      by_cases same : net' = net
      · subst same
        exact Node.setFd_self n _ _ _
      · refine (Node.setFd_other (-1) fun both => same both.1).trans (own net' ?_)
        rw [here]
        cases net <;> cases net' <;> simp_all [Pc.Marked]
  | acceptRoot i cfd c here _ _ =>
      rw [here] at fits info
      obtain ⟨rfl, positive, -⟩ := fits
      have apart : n.myid ≠ i := by
        rw [(info trivial).2, zero]
        omega
      exact (Node.setFd_other cfd fun both => apart both.2).trans (own net' (by rw [here]; trivial))
  | listenGroup fd port here _ _ | readPort i port net here _ | readHost i name here _
  | writeInfo i here _ | acceptRootEnd i here _ | writePorts i net here _ _ | writeHosts i j here _ _
  | writeHostsEnd i j here _ | writePortsEnd i here _ | tables here _ _ =>
      apply own
      rw [here]
      trivial
  | accept net i newfd c here _ _ =>
      apply own
      rw [here]
      exact marked
  | readId net i newfd newid here call =>
      have apart := ids net i newfd newid here call
      refine (Node.setFd_other newfd fun both => apart both.2.symm).trans (own net' ?_)
      rw [here]
      exact marked
  | acceptEnd net i here _ =>
      apply own
      rw [here]
      cases net with
      | pt => exact .inl marked.1
      | bc => exact .inr rfl

theorem Act.links (act : Act host rootport p n w n' w') (done : n'.pc = .done) :
    n'.links = n'.finish.links := by
  cases act with
  | tables => rfl
  | listen net | writePort net | readPorts net | acceptEnd net => cases net <;> cases done
  | readPort _ _ net | writePorts _ net => cases net <;> cases done
  | _ => cases done

theorem Inv.seal (inv : Inv N host rootport s v rank) (step : Step N host rootport s s')
    (before : ∀ q, (s.node q).Sealed) (q : Nat) : (s'.node q).Sealed := by
  obtain ⟨p, member, act⟩ := step
  apply State.put_all s (fun _ new => new.Sealed)
  · refine ⟨act.own inv.ranks.zero (inv.fits p) (inv.informed p) ?_ (before p).own, act.links⟩
    intro net i newfd newid here call
    obtain ⟨other, q, -, -, called, unheard, file⟩ := inv.holder here
    have below := inv.lt_of_called called
    rw [(inv.introduced called other unheard file call).1,
      (inv.informed p (by rw [here]; trivial)).2]
    exact below.ne'
  · intro r _
    exact before r

theorem reaches_sealed (some : 0 < N) (positive : 0 < rootport)
    (run : Reaches N host rootport (boot N host rootlisfd rootport) s) (p : Nat) :
    (s.node p).Sealed := by
  induction run generalizing p with
  | refl =>
      by_cases master : p = 0
      · subst master
        exact ⟨fun net _ => rfl, fun done => by cases done⟩
      · constructor
        · intro net marked
          simp [Bootstrap.boot, master, Pc.Marked] at marked
        · intro done
          simp [Bootstrap.boot, master] at done
  | tail run step ih =>
      obtain ⟨v, rank, inv⟩ := reaches_inv some positive run
      exact inv.seal step ih p

/-! ## The two ends -/

namespace Inv

variable (inv : Inv N host rootport s v rank) (member : p < N) (done : (s.node p).pc = .done)

include inv

include done in
theorem past_of_done (some : 0 < N) : (s.node 0).pc.past := by
  by_cases master : p = 0
  · rw [← master, done]
    trivial
  · apply inv.past_of_got master
    rw [done, Pc.got]
    · omega
    all_goals simp

include done in
theorem called_of_done {q : Nat} {net : Net} (below : rank q < rank p) : v.called p (net, q) := by
  rw [(inv.shows p).called, done]
  cases net <;> exact below

include done in
theorem heard_of_done {q : Nat} {net : Net} (above : rank p < rank q) (small : rank q < N) :
    q ∈ v.heard (net, p) := by
  have length := (inv.shows p).heard net
  rw [done] at length
  apply inv.heard_all _ above small
  cases net <;> exact length

/-- The descriptor over which `p` reaches `q`. -/
def Wire (v : Board) (rank : Nat → Nat) (p : Nat) (net : Net) (q fd : Nat) : Prop :=
  (rank q < rank p ∧ v.called p (net, q) ∧ fd = v.line p (net, q)) ∨
    (rank p < rank q ∧ q ∈ v.heard (net, p) ∧ fd = v.answer (net, p) q)

include member done in
theorem wire_of_done {q : Nat} (memberQ : q < N) (different : p ≠ q) (net : Net) :
    ∃ fd : Nat, (s.node p).fds net (rank q) = fd ∧ Wire v rank p net q fd := by
  have past := inv.past_of_done done (Nat.zero_lt_of_lt member)
  rcases lt_trichotomy (rank q) (rank p) with below | same | above
  · have called : v.called p (net, q) := inv.called_of_done done below
    exact ⟨_, (inv.shows p).lines (net, q) called, .inl ⟨below, called, rfl⟩⟩
  · exact absurd (inv.ranks.inj (inv.all_small past memberQ) same).symm different
  · have heard : q ∈ v.heard (net, p) := inv.heard_of_done done above (inv.all_small past memberQ)
    exact ⟨_, (inv.shows p).answers net q heard, .inr ⟨above, heard, rfl⟩⟩

theorem wire_apart {q q' fd : Nat} {net net' : Net} (wire : Wire v rank p net q fd)
    (wire' : Wire v rank p net' q' fd) : net = net' ∧ q = q' := by
  have owner : ∀ net, v.owner (net, p) = p := fun net => by rw [inv.owner]
  have mixed : ∀ {q q' net net'}, v.called p (net, q) → q' ∈ v.heard (net', p) →
      v.line p (net, q) ≠ v.answer (net', p) q' := by
    intro q q' net net' called heard same
    have calling : v.called (v.owner (net', p)) (net, q) := by rwa [owner]
    apply inv.kept.line_ne_answer calling (.inl heard)
    rw [owner]
    exact same
  rcases wire with ⟨-, called, rfl⟩ | ⟨-, heard, rfl⟩
  · rcases wire' with ⟨-, called', same⟩ | ⟨-, heard', same⟩
    · exact Prod.mk.inj (inv.kept.line_apart called called' same)
    · exact absurd same (mixed called heard')
  · rcases wire' with ⟨-, called', same⟩ | ⟨-, heard', same⟩
    · exact absurd same.symm (mixed called' heard)
    · have apart := inv.kept.answer_apart ((owner net).trans (owner net').symm) (.inl heard)
        (.inl heard') same
      exact ⟨(Prod.mk.inj apart.1).1, apart.2⟩

/-- Where both ends have come to their tables, what they said has been read. -/
theorem silent_of_done {q : Nat} (net : Net) (doneP : (s.node p).pc = .done)
    (doneQ : (s.node q).pc = .done) (below : rank q < rank p) (small : rank p < N) :
    s.world.up (p, v.line p (net, q)) = [] ∧ s.world.down (p, v.line p (net, q)) = [] := by
  have called : v.called p (net, q) := inv.called_of_done doneP below
  have heard : p ∈ v.heard (net, q) := inv.heard_of_done doneQ below small
  by_cases same : (net, q) = root
  · obtain ⟨rfl, rfl⟩ := Prod.mk.inj same
    have up := (inv.talks p called).up
    have down := (inv.talks p called).down
    rw [doneP, doneQ] at up down
    have welcomed : Pc.done.welcomed N (rank p) = Pc.done.greeted := if_pos small
    have announced : Pc.done.announced N (rank p) = Pc.done.got N := if_pos small
    rw [welcomed, onTheWay_self] at up
    rw [announced, onTheWay_self] at down
    exact ⟨up, down⟩
  · have introduces := inv.introduces p (net, q) called same
    exact ⟨by rw [introduces.2.1, if_neg fun both => both.2 heard], introduces.2.2⟩

/-- The end that has asked and the end that has accepted. -/
theorem ends {q : Nat} (net : Net) (doneP : (s.node p).pc = .done) (doneQ : (s.node q).pc = .done)
    (below : rank q < rank p) (small : rank p < N) :
    ∃ fd fd' : Nat, (s.node p).fds net (rank q) = fd ∧ (s.node q).fds net (rank p) = fd' ∧
      s.world.Joins p fd q fd' ∧ s.world.incoming p fd = [] ∧ s.world.incoming q fd' = [] := by
  have called : v.called p (net, q) := inv.called_of_done doneP below
  have heard : p ∈ v.heard (net, q) := inv.heard_of_done doneQ below small
  have asking := inv.kept.requested p (net, q) called
  have taking := (inv.kept.answered (net, q) p (.inl heard)).2
  have silent := inv.silent_of_done net doneP doneQ below small
  rw [inv.owner] at taking
  refine ⟨_, _, (inv.shows p).lines (net, q) called, (inv.shows q).answers net p heard,
    ⟨_, .inl ⟨asking, taking⟩⟩, ?_, ?_⟩
  · rw [World.incoming, asking]
    exact silent.2
  · rw [World.incoming, taking]
    exact silent.1

include member done in
theorem apart_of_done : ∃ fd : Net → Nat → Nat, (s.node p).Apart fd ∧
    ∀ net q, q < N → p ≠ q → Wire v rank p net q (fd net (rank q)) := by
  have past := inv.past_of_done done (Nat.zero_lt_of_lt member)
  have info := inv.informed p (by rw [done]; trivial)
  have other : ∀ i, i ∈ (s.node p).others → ∃ q, q < N ∧ p ≠ q ∧ rank q = i := by
    intro i there
    rw [Node.mem_others, info.1, info.2] at there
    obtain ⟨q, memberQ, id⟩ := inv.node_of_id past there.1
    refine ⟨q, memberQ, ?_, id⟩
    rintro rfl
    exact there.2 id.symm
  have wires : ∀ net q, q < N → p ≠ q → (s.node p).fds net (rank q) = (s.node p).fd net (rank q) ∧
      Wire v rank p net q ((s.node p).fd net (rank q)) := by
    intro net q memberQ different
    obtain ⟨fd, entry, wire⟩ := inv.wire_of_done member done memberQ different net
    rw [Node.fd, entry]
    exact ⟨rfl, wire⟩
  refine ⟨(s.node p).fd, ⟨?_, ?_⟩, fun net q memberQ different => (wires net q memberQ different).2⟩
  · intro net i there
    obtain ⟨q, memberQ, different, rfl⟩ := other i there
    exact (wires net q memberQ different).1
  · intro net net' i i' there there' same
    obtain ⟨q, memberQ, different, rfl⟩ := other i there
    obtain ⟨q', memberQ', different', rfl⟩ := other i' there'
    have wire := (wires net q memberQ different).2
    rw [same] at wire
    have apart := inv.wire_apart wire (wires net' q' memberQ' different').2
    exact ⟨apart.1, congrArg rank apart.2⟩

end Inv

/-! ## What the tables say -/

def tableOf (info : NetdLinks) : Net → Option (List Int)
  | .pt => info.pt2ptfd
  | .bc => info.groupfd

/-- The descriptor for a node on a net, as `netd_info` has it. -/
def entryOf (info : NetdLinks) (net : Net) (id : Int) : Int :=
  ((tableOf info net).getD []).getD id.toNat (-1)

theorem entryOf_finish {net : Net} {i : Nat} (inside : i < n.size) :
    entryOf n.finish.links net i = n.fds net i := by
  cases net <;> simp [entryOf, tableOf, Node.finish, inside]

/-- The tables of the node `id` lead to every other node and back, over descriptors that are all
different. -/
structure Tables (N id : Nat) (info : NetdLinks) : Prop where
  small : id < N
  myid : info.myid = id
  own : ∀ net, entryOf info net id = -1
  meshed : info.Meshed N id fun j => entryOf info .pt j
  ranks : ∃ ranks, info.fdtorank = some ranks ∧
    ∀ net j, j < N → j ≠ id → ranks[(entryOf info net j).toNat]? = some (j : Int)
  apart : ∀ net net' j j', j < N → j ≠ id → j' < N → j' ≠ id →
    entryOf info net j = entryOf info net' j' → net = net' ∧ j = j'

theorem Node.Apart.tables {fd : Net → Nat → Nat} (apart : n.Apart fd) (large : 2 ≤ n.size)
    (small : n.myid < n.size) (own : ∀ net, n.fds net n.myid = -1) :
    Tables n.size n.myid n.finish.links := by
  have entries : ∀ net j, j < n.size → j ≠ n.myid → entryOf n.finish.links net j = fd net j := by
    intro net j below other
    rw [entryOf_finish below, apart.entry net j (mem_others.mpr ⟨below, other⟩)]
  have ranks : ∀ net j, j < n.size → j ≠ n.myid →
      n.fdtorank[(entryOf n.finish.links net j).toNat]? = some (j : Int) := by
    intro net j below other
    rw [entries net j below other]
    exact fdtorank_get apart (mem_others.mpr ⟨below, other⟩)
  refine ⟨small, rfl, ?_, ⟨large, rfl, ?_, ?_, ?_⟩, ⟨n.fdtorank, rfl, ranks⟩, ?_⟩
  · intro net
    rw [entryOf_finish small, own]
  · intro j below other
    have value := entries .pt j below other
    have valid : ¬ ((j : Int) < 0 ∨ (n.size : Int) ≤ j) := by omega
    have open' : entryOf n.finish.links .pt j ≠ -1 := by omega
    calc
      n.finish.links.pt2pt j =
          if (j : Int) < 0 ∨ (n.size : Int) ≤ j then none
          else if entryOf n.finish.links .pt j = -1 then none
          else some (entryOf n.finish.links .pt j) := rfl
      _ = some (entryOf n.finish.links .pt j) := by rw [if_neg valid, if_neg open']
  · refine ⟨n.fdtorank, rfl, ?_⟩
    intro j below other
    rw [List.getD_eq_getElem?_getD, ranks .pt j below other]
    rfl
  · refine ⟨n.pt2ptset, rfl, pt2ptset_length, ?_⟩
    intro fd
    rw [mem_pt2ptset small]
    constructor
    · rintro ⟨j, below, other, rfl⟩
      exact ⟨j, below, other, (entryOf_finish below).symm⟩
    · rintro ⟨j, below, other, rfl⟩
      exact ⟨j, below, other, entryOf_finish below⟩
  · intro net net' j j' below other below' other' same
    rw [entries net j below other, entries net' j' below' other'] at same
    exact apart.once net net' j j' (mem_others.mpr ⟨below, other⟩) (mem_others.mpr ⟨below', other'⟩)
      (Int.ofNat.inj same)

/-- A node that is done has tables that lead to all others. The master has the id 0. -/
theorem bootstrap_tables (large : 2 ≤ N) (positive : 0 < rootport)
    (reached : Reaches N host rootport (boot N host rootlisfd rootport) s) (member : p < N)
    (done : (s.node p).pc = .done) :
    ∃ id, (id = 0 ↔ p = 0) ∧ Tables N id (s.node p).links := by
  obtain ⟨v, rank, inv⟩ := reaches_inv (by omega) positive reached
  have closed := reaches_sealed (by omega) positive reached p
  have info := inv.informed p (by rw [done]; trivial)
  have small := inv.all_small (inv.past_of_done done (Nat.zero_lt_of_lt member)) member
  obtain ⟨fd, apart, -⟩ := inv.apart_of_done member done
  have tables := apart.tables (by omega) (by omega) fun net => closed.own net (by rw [done]; trivial)
  rw [info.1, info.2, ← closed.links done] at tables
  exact ⟨rank p, inv.rank_zero_iff, tables⟩

theorem bootstrap_tables_two : ∃ s,
    Reaches 2 (fun p => if p = 0 then "master" else "slave") 7000
      (boot 2 (fun p => if p = 0 then "master" else "slave") 3 7000) s ∧
        Tables 2 0 (s.node 0).links ∧ ∃ id, id ≠ 0 ∧ Tables 2 id (s.node 1).links := by
  obtain ⟨s, reached, done⟩ := exists_finish (N := 2) Nat.two_pos (by decide : 0 < 7000) .refl
  obtain ⟨master, zero, tables⟩ :=
    bootstrap_tables le_rfl (by decide) reached Nat.two_pos (done 0 Nat.two_pos)
  obtain ⟨slave, other, tables'⟩ :=
    bootstrap_tables le_rfl (by decide) reached Nat.one_lt_two (done 1 Nat.one_lt_two)
  obtain rfl := zero.mpr rfl
  exact ⟨s, reached, tables, slave, fun none => Nat.one_ne_zero (other.mp none), tables'⟩

/-- Two nodes that are done have different ids, and what their tables have for each other are the
two ends of one connection, for each net another one, on which nothing is left to be read. -/
theorem bootstrap_pairs (some : 0 < N) (positive : 0 < rootport)
    (reached : Reaches N host rootport (boot N host rootlisfd rootport) s) {q : Nat}
    (member : p < N) (memberQ : q < N) (different : p ≠ q) (done : (s.node p).pc = .done)
    (doneQ : (s.node q).pc = .done) :
    (s.node p).links.myid ≠ (s.node q).links.myid ∧ ∀ net,
      let fd := (entryOf (s.node p).links net (s.node q).links.myid).toNat
      let fd' := (entryOf (s.node q).links net (s.node p).links.myid).toNat
      s.world.Joins p fd q fd' ∧ s.world.incoming p fd = [] ∧ s.world.incoming q fd' = [] := by
  obtain ⟨v, rank, inv⟩ := reaches_inv some positive reached
  have closed := reaches_sealed some positive reached
  have past := inv.past_of_done done some
  have info : ∀ q, (s.node q).pc = .done →
      (s.node q).links.myid = rank q ∧ ∀ net r, r < N →
        entryOf (s.node q).links net (rank r) = (s.node q).fds net (rank r) := by
    intro q done
    have info := inv.informed q (by rw [done]; trivial)
    rw [(closed q).links done]
    refine ⟨by rw [← info.2]; rfl, ?_⟩
    intro net r memberR
    exact entryOf_finish (by rw [info.1]; exact inv.all_small past memberR)
  rw [(info p done).1, (info q doneQ).1]
  have apart : rank p ≠ rank q :=
    fun same => different (inv.ranks.inj (inv.all_small past member) same)
  refine ⟨by exact_mod_cast apart, ?_⟩
  intro net
  rw [(info p done).2 net q memberQ, (info q doneQ).2 net p member]
  rcases lt_or_gt_of_ne apart with above | below
  · obtain ⟨fd, fd', here, there, joins, silent⟩ :=
      inv.ends net doneQ done above (inv.all_small past memberQ)
    rw [here, there]
    exact ⟨joins.symm, silent.2, silent.1⟩
  · obtain ⟨fd, fd', here, there, joins, silent⟩ :=
      inv.ends net done doneQ below (inv.all_small past member)
    rw [here, there]
    exact ⟨joins, silent⟩

theorem bootstrap_pairs_two : ∃ s,
    Reaches 2 (fun p => if p = 0 then "master" else "slave") 7000
      (boot 2 (fun p => if p = 0 then "master" else "slave") 3 7000) s ∧
        s.world.Joins 0 (entryOf (s.node 0).links .pt (s.node 1).links.myid).toNat 1
          (entryOf (s.node 1).links .pt (s.node 0).links.myid).toNat := by
  obtain ⟨s, reached, done⟩ := exists_finish (N := 2) Nat.two_pos (by decide : 0 < 7000) .refl
  exact ⟨s, reached, ((bootstrap_pairs Nat.two_pos (by decide) reached Nat.two_pos Nat.one_lt_two
    Nat.zero_ne_one (done 0 Nat.two_pos) (done 1 Nat.one_lt_two)).2 .pt).1⟩

end Tmpi.Netd.Bootstrap
