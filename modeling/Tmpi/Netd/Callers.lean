import Tmpi.Netd.Wired

/-! The steps with which nodes call one another and take each other's calls. -/

namespace Tmpi.Netd.Bootstrap

open Sockets

variable {N : Nat} {host : Nat → String} {rootport : Nat} {s : State} {v : Board}
  {rank : Nat → Nat} {p : Nat} {n : Node} {w' : World Addr Word}

namespace Inv

/-! ## Listening -/

/-- Nobody knows the ports of a slave that has written nothing. -/
theorem unknown (inv : Inv N host rootport s v rank) (member : p < N) (slave : p ≠ 0)
    (called : v.called p root) (silent : (s.node p).pc.greeted = 0) (q : Nat) (net : Net) :
    ¬ rank p < (s.node q).pc.knownPorts N net := by
  intro known
  have positive := inv.ranks.pos slave
  by_cases master : q = 0
  · subst master
    have welcomed := inv.fits_master.welcomed_of_known positive known
    have talk := (inv.talks p called).welcomed
    omega
  · have got := (inv.fits q).got_of_known master (Nat.zero_lt_of_lt known)
    have greeted := inv.all_greeted (inv.past_of_got master got) slave member
    omega

/-- Nobody is through while a node has yet to begin. -/
theorem all_live (inv : Inv N host rootport s v rank) (early : ¬ (s.node 0).pc.past) (b : Socket) :
    ¬ v.closed b := by
  intro closed
  have done := ((inv.shows b.2).closed b.1).mp closed
  apply early
  by_cases master : b.2 = 0
  · rw [← master, done]
    trivial
  · apply inv.past_of_got master
    rw [done]
    have some := inv.ranks.small
    simp
    omega

theorem opens (inv : Inv N host rootport s v rank) (member : p < N) {net : Net} {fd port : Nat}
    (early : ¬ (s.node 0).pc.past) (positive : 0 < port)
    (call : s.world.Listens w' p fd (host p, port))
    (lisfd : n.lisfd = Function.update (s.node p).lisfd net fd)
    (ports_new : n.port = Function.update (s.node p).port net port)
    (fds : n.fds = (s.node p).fds) (before : ¬ (s.node p).pc.opened net)
    (opened : ∀ net', n.pc.opened net' ↔ (s.node p).pc.opened net' ∨ net' = net)
    (live : n.pc ≠ .done) (live' : (s.node p).pc ≠ .done)
    (asked : ∀ net, n.pc.asked (rank p) net = (s.node p).pc.asked (rank p) net)
    (told : ∀ net, n.pc.told (rank p) net = (s.node p).pc.told (rank p) net)
    (count : ∀ net, n.pc.count N (rank p) net = (s.node p).pc.count N (rank p) net)
    (holding : ∀ net, n.pc.holding net = (s.node p).pc.holding net)
    (fits : n.pc.Fits N p (rank p)) (informed : n.pc.informed → n.size = N ∧ n.myid = rank p)
    (notRoot : p = 0 → net ≠ .pt)
    (unknown : ∀ q, ¬ rank p < (s.node q).pc.knownPorts N net)
    (ports : ∀ q net, rank q < n.pc.knownPorts N net →
      n.ports net (rank q) = ((s.put p n w').node q).port net)
    (hosts : ∀ q, rank q < n.pc.knownHosts N → n.hostnames (rank q) = host q)
    (talks : ∀ q, v.called q root →
      Talks host N q (rank q) (s.world.up (q, v.line q root)) (s.world.down (q, v.line q root))
        ((s.put p n w').node q) ((s.put p n w').node 0)) :
    ∃ v', Inv N host rootport (s.put p n w') v' rank := by
  obtain ⟨free, unbound, after⟩ := call
  subst after
  have shows := inv.shows p
  have owner : v.owner (net, p) = p := by rw [inv.owner]
  have fresh : ¬ v.opened (net, p) := by
    rw [shows.opened]
    exact before
  have kept := inv.kept.listen fresh (inv.all_live early) (by rw [owner]; exact free) unbound
  rw [owner] at kept
  refine ⟨v.listen (net, p) fd (host p, port), inv.renew member kept rfl inv.ranks ?_ ?_ fits
    informed ?_ ports hosts talks ?_⟩
  · refine ⟨?_, ?_, ?_, ?_, ?_, ?_, ?_, ?_, ?_⟩
    · intro net'
      rw [opened, ← shows.opened]
      simp [Switchboard.listen]
    · intro net'
      have old := shows.closed net'
      show v.closed (net', p) ↔ _
      rw [old]
      exact ⟨fun done => absurd done live', fun done => absurd done live⟩
    · intro net' isOpen
      rw [lisfd]
      by_cases same : net' = net
      · subst same
        simp [Switchboard.listen]
      · have old := shows.lis net' (((opened net').mp isOpen).resolve_right same)
        simpa [Switchboard.listen, same] using old
    · intro net' isOpen
      rw [ports_new]
      by_cases same : net' = net
      · subst same
        simpa [Switchboard.listen] using positive
      · have old := shows.addr net' (((opened net').mp isOpen).resolve_right same)
        simpa [Switchboard.listen, same] using old
    · intro net'
      rw [count]
      exact shows.heard net'
    · intro net'
      rw [holding]
      exact shows.held net'
    · intro b
      rw [asked]
      exact shows.called b
    · intro b called
      rw [fds]
      exact shows.lines b called
    · intro net' q heard
      rw [fds]
      exact shows.answers net' q heard
  · intro q different
    have same := inv.shows q
    refine ⟨?_, same.closed, ?_, ?_, same.heard, same.held, same.called, same.lines, same.answers⟩
    · intro net'
      rw [← same.opened]
      simp [Switchboard.listen, different]
    · intro net' isOpen
      have old := same.lis net' isOpen
      simpa [Switchboard.listen, different] using old
    · intro net' isOpen
      have old := same.addr net' isOpen
      simpa [Switchboard.listen, different] using old
  · rintro net' (⟨q, known⟩ | ⟨master, rfl⟩)
    · have other : net' ≠ net := by
        rintro rfl
        exact unknown q known
      rw [ports_new, Function.update_of_ne other]
    · rw [ports_new, Function.update_of_ne (notRoot master).symm]
  · intro q b called other
    have told_same := s.put_all (w := s.world.listen p fd (host p, port)) (p := p) (n := n)
      (fun r new => new.pc.told (rank r) b.1 = (s.node r).pc.told (rank r) b.1) (told b.1)
      (fun _ _ => rfl) q
    rw [told_same]
    exact inv.introduces q b called other

theorem listen (inv : Inv N host rootport s v rank) (member : p < N) {net : Net} {fd port : Nat}
    (here : (s.node p).pc = .listen net) (positive : 0 < port)
    (call : s.world.Listens w' p fd (host p, port)) :
    ∃ v', Inv N host rootport
      (s.put p { (s.node p).setListening net fd port with pc := .afterListen net } w') v' rank := by
  have fits := inv.fits p
  rw [here] at fits
  have slave : p ≠ 0 := fits
  have called : v.called p root := by
    rw [inv.called_root, here]
    exact Nat.one_pos
  have silent : (s.node p).pc.greeted = 0 := by rw [here]; rfl
  have early : ¬ (s.node 0).pc.past := by
    intro past
    have greeted := inv.all_greeted past slave member
    omega
  refine inv.opens member early positive call rfl rfl rfl ?_ ?_ ?_ ?_ ?_ ?_ ?_ ?_ ?_ ?_
    (fun master => absurd master slave) (fun q => inv.unknown member slave called silent q net) ?_
    ?_ ?_
  case refine_3 => cases net <;> simp
  case refine_8 =>
    intro net'
    rw [here]
    cases net <;> rfl
  case refine_9 => cases net <;> exact slave
  case refine_10 => cases net <;> exact fun known => absurd known (by simp)
  case refine_11 =>
    intro q net' known
    cases net <;> cases net' <;> simp at known
  case refine_12 =>
    intro q known
    cases net <;> simp at known
  case refine_13 =>
    intro q calledQ
    have talk := inv.talks q calledQ
    rw [State.put_other _ _ _ slave.symm]
    by_cases same : q = p
    · subst same
      rw [State.put_self]
      have greeted : (Pc.afterListen net).greeted = 0 := by cases net <;> rfl
      have got : (Pc.afterListen net).got N = (s.node q).pc.got N := by
        rw [here]
        cases net <;> rfl
      obtain ⟨welcomed, up, -, down⟩ := talk
      rw [silent, Nat.le_zero] at welcomed
      refine ⟨?_, ?_, ?_, ?_⟩
      · rw [welcomed]
        exact Nat.zero_le _
      · rw [up, silent, greeted, welcomed]
        rfl
      · rw [got]
        exact (inv.talks q calledQ).got
      · rw [got]
        exact down
    · rw [State.put_other _ _ _ same]
      exact talk
  all_goals rw [here]
  all_goals cases net <;> simp [Net.forall_iff]

theorem listenGroup (inv : Inv N host rootport s v rank) (member : 0 < N) {fd port : Nat}
    (here : (s.node 0).pc = .listenGroup) (positive : 0 < port)
    (call : s.world.Listens w' 0 fd (host 0, port)) :
    ∃ v', Inv N host rootport
      (s.put 0
        { ((((s.node 0).setListening .bc fd port).setPort .pt 0 ((s.node 0).port .pt)).setPort .bc 0
            port).setHost 0 (host 0) with pc := .acceptRoot 1 } w') v' rank := by
  have fits := inv.fits_master
  have info := inv.informed 0 (by rw [here]; trivial)
  have zero := inv.ranks.zero
  have early : ¬ (s.node 0).pc.past := by
    rw [here]
    exact id
  have unknown : ∀ q net, ¬ rank 0 < (s.node q).pc.knownPorts N net := by
    intro q net known
    by_cases master : q = 0
    · subst master
      rw [here] at known
      cases net <;> simp at known
    · have got := (inv.fits q).got_of_known master (Nat.zero_lt_of_lt known)
      exact early (inv.past_of_got master got)
  refine inv.opens member early positive call rfl rfl rfl ?_ ?_ ?_ ?_ ?_ ?_ ?_ ?_ ?_
    (fun _ => info) (by simp) (fun q => unknown q _) ?_ ?_ ?_
  case refine_3 => simp
  case refine_8 =>
    intro net
    rw [here]
    rfl
  case refine_9 => exact ⟨rfl, le_rfl, member⟩
  case refine_10 =>
    intro q net known
    have master : q = 0 := by
      cases net <;> exact inv.rank_zero_iff.mp (Nat.lt_one_iff.mp known)
    subst master
    rw [State.put_self, zero]
    cases net <;> simp [Node.setHost, Node.setPort, Node.setListening]
  case refine_11 =>
    intro q known
    have master : q = 0 := inv.rank_zero_iff.mp (Nat.lt_one_iff.mp known)
    subst master
    rw [zero]
    simp [Node.setHost]
  case refine_12 =>
    intro q called
    have slave := inv.slave_of_called called
    have id := inv.ranks.pos slave
    obtain ⟨-, up, got, down⟩ := inv.talks q called
    rw [here] at up got down
    rw [State.put_self, State.put_other _ _ _ slave]
    have unwelcomed : (Pc.acceptRoot 1).welcomed N (rank q) = 0 := by
      simp
      omega
    have untold : (Pc.acceptRoot 1).announced N (rank q) = 0 := by
      simp
      omega
    refine ⟨?_, ?_, ?_, ?_⟩
    · rw [unwelcomed]
      exact Nat.zero_le _
    · rw [unwelcomed]
      exact up
    · rw [untold]
      exact got
    · rw [untold, down]
      rfl
  all_goals rw [here]
  all_goals simp [Net.forall_iff]

/-! ## Calls -/

/-- A descriptor that is not in use is the end of no call. -/
theorem fresh_conn (inv : Inv N host rootport s v rank) {p fd q : Nat} {b : Socket}
    (free : s.world.file p fd = none) (called : v.called q b) : (q, v.line q b) ≠ (p, fd) := by
  intro same
  obtain ⟨rfl, rfl⟩ := Prod.mk.inj same
  rw [inv.kept.requested q b called] at free
  cases free

theorem call (inv : Inv N host rootport s v rank) (member : p < N) (slave : p ≠ 0) {a : Socket}
    {fd : Nat} {pc' : Pc} (opened : v.opened a) (live : ¬ v.closed a) (small : rank a.2 < N)
    (fresh : ¬ v.called p a)
    (connects : s.world.Connects w' p fd (v.addr a))
    (asked : ∀ b, rank b.2 < pc'.asked (rank p) b.1 ↔
      rank b.2 < (s.node p).pc.asked (rank p) b.1 ∨ b = a)
    (told : ∀ b, b ≠ root → (rank b.2 < pc'.told (rank p) b.1 ↔
      rank b.2 < (s.node p).pc.told (rank p) b.1))
    (untold : a ≠ root → ¬ rank a.2 < pc'.told (rank p) a.1)
    (opens : ∀ net, pc'.opened net ↔ (s.node p).pc.opened net)
    (done : pc' = .done ↔ (s.node p).pc = .done)
    (count : ∀ net, pc'.count N (rank p) net = (s.node p).pc.count N (rank p) net)
    (holding : ∀ net, pc'.holding net = (s.node p).pc.holding net)
    (fits : pc'.Fits N p (rank p)) (informed : pc'.informed → (s.node p).pc.informed)
    (knownPorts : ∀ net, pc'.knownPorts N net = (s.node p).pc.knownPorts N net)
    (knownHosts : pc'.knownHosts N = (s.node p).pc.knownHosts N)
    (greeted : pc'.greeted = (s.node p).pc.greeted) (got : pc'.got N = (s.node p).pc.got N)
    (silent : a = root → pc'.greeted = 0 ∧ pc'.got N = 0 ∧ rank p = N) :
    Inv N host rootport
      (s.put p { (s.node p).setFd a.1 (rank a.2) fd with pc := pc' } w') (v.call p a fd) rank := by
  obtain ⟨free, front, back, queue, after⟩ := connects
  subst after
  have shows := inv.shows p
  have below : rank a.2 < rank p := by
    apply lt_of_lt_of_le ((asked a).mpr (.inr rfl))
    exact fits.asked_le inv.ranks.pos
  have old : ∀ q b, v.called q b → ¬ (q = p ∧ b = a) := by
    rintro q b called ⟨rfl, rfl⟩
    exact fresh called
  have line : ∀ q b, v.called q b → (v.call p a fd).line q b = v.line q b :=
    fun q b called => if_neg (old q b called)
  have line_new : (v.call p a fd).line p a = fd := if_pos ⟨rfl, rfl⟩
  have up : ∀ q b, v.called q b →
      (s.world.connect p fd (v.addr a) (front ++ (p, fd) :: back)).up (q, v.line q b) =
        s.world.up (q, v.line q b) :=
    fun q b called => Function.update_of_ne (inv.fresh_conn free called) _ _
  have down : ∀ q b, v.called q b →
      (s.world.connect p fd (v.addr a) (front ++ (p, fd) :: back)).down (q, v.line q b) =
        s.world.down (q, v.line q b) :=
    fun q b called => Function.update_of_ne (inv.fresh_conn free called) _ _
  have entry : ∀ net i, ¬ (net = a.1 ∧ i = rank a.2) →
      ((s.node p).setFd a.1 (rank a.2) fd).fds net i = (s.node p).fds net i :=
    fun net i different => Node.setFd_other fd different
  have shows_new : Shows host N (v.call p a fd) rank p
      { (s.node p).setFd a.1 (rank a.2) fd with pc := pc' } := by
    refine ⟨?_, ?_, ?_, ?_, ?_, ?_, ?_, ?_, ?_⟩
    · intro net
      rw [opens]
      exact shows.opened net
    · intro net
      rw [done]
      exact shows.closed net
    · intro net opened
      exact shows.lis net ((opens net).mp opened)
    · intro net opened
      exact shows.addr net ((opens net).mp opened)
    · intro net
      rw [count]
      exact shows.heard net
    · intro net
      rw [holding]
      exact shows.held net
    · intro b
      rw [asked, ← shows.called]
      simp [Switchboard.call]
    · rintro b (called | ⟨-, rfl⟩)
      · rw [line p b called, ← shows.lines b called]
        apply entry
        rintro ⟨net, same⟩
        have owner := inv.ranks.inj (same ▸ small) same
        exact old p b called ⟨rfl, Prod.ext net owner⟩
      · rw [line_new]
        simp [Node.setFd]
    · intro net q heard
      have above := inv.lt_of_called (inv.kept.answered (net, p) q (.inl heard)).1
      refine (entry net (rank q) ?_).trans (shows.answers net q heard)
      rintro ⟨-, same⟩
      rw [same] at above
      exact absurd above (not_lt.mpr below.le)
  have ports_same := s.put_all (w := s.world.connect p fd (v.addr a) (front ++ (p, fd) :: back))
    (fun q new => new.port = (s.node q).port) (p := p)
    (n := { (s.node p).setFd a.1 (rank a.2) fd with pc := pc' }) rfl fun q _ => rfl
  refine inv.renew member (inv.kept.connect opened live fresh free queue) rfl inv.ranks shows_new ?_
    fits (fun known => inv.informed p (informed known)) (fun _ _ => rfl) ?_ ?_ ?_ ?_
  · intro q different
    have same := inv.shows q
    have others : ∀ b, (v.call p a fd).called q b ↔ v.called q b := by
      intro b
      simp [Switchboard.call, different]
    refine ⟨same.opened, same.closed, same.lis, same.addr, same.heard, same.held, ?_, ?_,
      same.answers⟩
    · intro b
      rw [others]
      exact same.called b
    · intro b called
      rw [others] at called
      rw [line q b called]
      exact same.lines b called
  · intro r net known
    rw [knownPorts] at known
    rw [ports_same]
    exact inv.ports p r net known
  · intro r known
    rw [knownHosts] at known
    exact inv.hosts p r known
  · rintro q (called | ⟨rfl, rfl⟩)
    · rw [line q root called, State.put_other _ _ _ slave.symm, up q root called,
        down q root called]
      have talk := inv.talks q called
      by_cases same : q = p
      · subst same
        rw [State.put_self]
        exact talk.alike rfl greeted got
      · rw [State.put_other _ _ _ same]
        exact talk
    · obtain ⟨noGreeting, nothing, stray⟩ := silent rfl
      obtain ⟨unseen, untold⟩ := inv.fits_master.stray
      rw [stray]
      rw [line_new, State.put_other _ _ _ slave.symm, State.put_self]
      refine ⟨?_, ?_, ?_, ?_⟩
      · rw [unseen]
        exact Nat.zero_le _
      · rw [noGreeting, unseen]
        exact Function.update_self _ _ _
      · rw [nothing]
        exact Nat.zero_le _
      · rw [nothing, untold]
        exact Function.update_self _ _ _
  · intro q b called other
    have told_new := s.put_all (w := s.world.connect p fd (v.addr a) (front ++ (p, fd) :: back))
      (fun q new => ∀ b, b ≠ root → (rank b.2 < new.pc.told (rank q) b.1 ↔
        rank b.2 < (s.node q).pc.told (rank q) b.1)) (p := p)
      (n := { (s.node p).setFd a.1 (rank a.2) fd with pc := pc' }) told (fun q _ b _ => Iff.rfl)
    rcases called with called | ⟨rfl, rfl⟩
    · have introduction := inv.introduces q b called other
      rw [line q b called, up q b called, down q b called]
      simp only [told_new q b other]
      exact introduction
    · have unheard : q ∉ v.heard b := fun heard => fresh (inv.kept.answered b q (.inl heard)).1
      rw [line_new, State.put_self]
      refine ⟨fun heard => absurd heard unheard, ?_, Function.update_self _ _ _⟩
      rw [if_neg fun both => untold other both.1]
      exact Function.update_self _ _ _

/-- What a slave past its first steps relies on: whoever has an id has both sockets open. -/
theorem opened_all (inv : Inv N host rootport s v rank) (past : (s.node 0).pc.past) {q : Nat}
    (member : q < N) (net : Net) : v.opened (net, q) := by
  rw [(inv.shows q).opened]
  by_cases master : q = 0
  · subst master
    exact Pc.opened_of_past past
  · exact (inv.fits q).opened_of_greeted master (inv.all_greeted past master member)

/-- A socket is closed when all have called. -/
theorem live_of_calling (inv : Inv N host rootport s v rank) {a : Socket} (small : rank p < N)
    (above : rank a.2 < rank p) (fresh : ¬ v.called p a) : ¬ v.closed a := by
  intro closed
  have done := ((inv.shows a.2).closed a.1).mp closed
  have length := (inv.shows a.2).heard a.1
  have full : (s.node a.2).pc.count N (rank a.2) a.1 = N - 1 - rank a.2 := by
    rw [done]
    obtain ⟨net, q⟩ := a
    cases net <;> rfl
  rw [full] at length
  exact fresh (inv.kept.answered a p (.inl (inv.heard_all length above small))).1

/-- The master waits for a slave that has not called. -/
theorem root_ready (inv : Inv N host rootport s v rank) (member : p < N) (slave : p ≠ 0)
    (fresh : ¬ v.called p root) :
    v.opened root ∧ ¬ v.closed root ∧ v.addr root = (host 0, rootport) := by
  have opened : (s.node 0).pc.opened .pt := (inv.fits 0).opened_master
  refine ⟨((inv.shows 0).opened .pt).mpr opened, ?_, ?_⟩
  · intro closed
    have done := ((inv.shows 0).closed .pt).mp closed
    have past : (s.node 0).pc.past := by
      rw [done]
      trivial
    exact fresh (inv.kept.answered root p (.inl (inv.all_heard past slave member))).1
  · rw [← inv.rootport]
    exact ((inv.shows 0).addr .pt opened).1

theorem connRoot (inv : Inv N host rootport s v rank) (member : p < N) {fd : Nat}
    (here : (s.node p).pc = .connRoot) (call : s.world.Connects w' p fd (host 0, rootport)) :
    ∃ v', Inv N host rootport (s.put p { (s.node p).setFd .pt 0 fd with pc := .listen .pt } w') v'
      rank := by
  have fits := inv.fits p
  rw [here] at fits
  have slave : p ≠ 0 := fits
  have fresh : ¬ v.called p root := by
    rw [inv.called_root, here]
    simp
  obtain ⟨opened, live, addr⟩ := inv.root_ready member slave fresh
  have stray : rank p = N := by
    apply inv.ranks.stray p slave
    intro heard
    exact fresh (inv.kept.answered root p (.inl heard)).1
  rw [← addr] at call
  have zero : rank root.2 = 0 := inv.ranks.zero
  have entry : (s.node p).setFd .pt 0 fd = (s.node p).setFd root.1 (rank root.2) fd := by
    rw [zero]
    rfl
  rw [entry]
  refine ⟨v.call p root fd, inv.call member slave opened live ?_ fresh call ?_ ?_ ?_ ?_ ?_ ?_ ?_
    fits ?_ ?_ ?_ ?_ ?_ fun _ => ⟨rfl, rfl, stray⟩⟩
  · rw [zero]
    exact lt_of_le_of_lt (Nat.zero_le _) member
  · rintro ⟨net, q⟩
    rw [here]
    cases net <;> simp [root, inv.rank_zero_iff]
  · rintro ⟨net, q⟩ other
    have positive : net = .pt → rank q ≠ 0 := by
      rintro rfl none
      rw [inv.rank_zero_iff] at none
      exact other (by rw [none]; rfl)
    rw [here]
    cases net <;> simp_all
  · exact fun other => absurd rfl other
  all_goals
    rw [here]
    simp

/-- Every id below the size is that of a node. -/
theorem node_of_id (inv : Inv N host rootport s v rank) (past : (s.node 0).pc.past) {i : Nat}
    (small : i < N) : ∃ q, q < N ∧ rank q = i := by
  rcases Nat.eq_zero_or_pos i with rfl | positive
  · exact ⟨0, small, inv.ranks.zero⟩
  · obtain ⟨q, called, id, -, -, -⟩ := inv.root_caller positive
      (by rw [inv.fits_master.count_of_past past]; omega)
    exact ⟨q, inv.member_of_called called, id⟩

/-- Whom a slave calls with the id `i`. -/
theorem target (inv : Inv N host rootport s v rank) {net : Net} {i : Nat} (slave : p ≠ 0)
    (small : rank p < N) (begun : Pc.first net ≤ i) (more : i < rank p)
    (got : (s.node p).pc.got N = 2 + 3 * N) :
    ∃ q, rank q = i ∧ (∀ r, rank r = i ↔ r = q) ∧ (net, q) ≠ root ∧ v.opened (net, q) := by
  have past := inv.past_of_got slave (by omega)
  obtain ⟨q, member, id⟩ := inv.node_of_id past (more.trans small)
  refine ⟨q, id, ?_, ?_, inv.opened_all past member net⟩
  · intro r
    constructor
    · intro same
      exact inv.ranks.inj (by omega) (same.trans id.symm)
    · rintro rfl
      exact id
  · intro same
    obtain ⟨rfl, rfl⟩ := Prod.mk.inj same
    rw [inv.ranks.zero] at id
    rw [← id] at begun
    exact absurd begun (by simp)

theorem target_addr (inv : Inv N host rootport s v rank) {net : Net} {q : Nat}
    (opened : v.opened (net, q)) (port : rank q < (s.node p).pc.knownPorts N net)
    (name : rank q < (s.node p).pc.knownHosts N) :
    v.addr (net, q) = ((s.node p).hostnames (rank q), (s.node p).ports net (rank q)) ∧
      0 < (s.node p).ports net (rank q) := by
  rw [inv.ports p q net port, inv.hosts p q name]
  exact (inv.shows q).addr net (((inv.shows q).opened net).mp opened)

theorem conn (inv : Inv N host rootport s v rank) (member : p < N) {net : Net} {i fd : Nat}
    (here : (s.node p).pc = .conn net i) (more : i < (s.node p).myid)
    (call : s.world.Connects w' p fd ((s.node p).hostnames i, (s.node p).ports net i)) :
    ∃ v', Inv N host rootport
      (s.put p { (s.node p).setFd net i fd with pc := .writeId net i } w') v' rank := by
  have fits := inv.fits p
  have info := inv.informed p
  rw [here] at fits info
  rw [(info trivial).2] at more
  obtain ⟨slave, small, begun, -⟩ := fits
  have bound : i < N := more.trans small
  obtain ⟨q, id, only, other, opened⟩ := inv.target slave small begun more (by rw [here]; rfl)
  have addr := (inv.target_addr (p := p) opened (by rw [here, id]; simpa using bound)
    (by rw [here, id]; exact bound)).1
  rw [id] at addr
  have fresh : ¬ v.called p (net, q) := by
    rw [(inv.shows p).called, here, id]
    cases net <;> simp
  have live := inv.live_of_calling small (a := (net, q)) (by rw [id]; exact more) fresh
  rw [← addr] at call
  have entry : (s.node p).setFd net i fd = (s.node p).setFd (net, q).1 (rank (net, q).2) fd := by
    rw [id]
  rw [entry]
  refine ⟨v.call p (net, q) fd, inv.call member slave opened live ?_ fresh call ?_ ?_ ?_ ?_ ?_ ?_ ?_
    ⟨slave, small, begun, more⟩ ?_ ?_ ?_ ?_ ?_ fun same => absurd same other⟩
  · rw [id]
    exact bound
  · rintro ⟨net', r⟩
    rw [here]
    cases net <;> cases net' <;> simp [← only] <;> omega
  · rintro ⟨net', r⟩ -
    rw [here]
    cases net <;> cases net' <;> simp
  · intro _
    cases net <;> simp [id]
  all_goals
    rw [here]
    cases net <;> simp [Net.forall_iff]

theorem writeId (inv : Inv N host rootport s v rank) (member : p < N) {net : Net} {i : Nat}
    (here : (s.node p).pc = .writeId net i)
    (call : s.world.Writes w' p ((s.node p).fd net i) [.int (s.node p).myid]) :
    Inv N host rootport (s.put p { s.node p with pc := .conn net (i + 1) } w') v rank := by
  have fits := inv.fits p
  have info := inv.informed p
  rw [here] at fits info
  rw [(info trivial).2] at call
  obtain ⟨slave, small, begun, more⟩ := fits
  have bound : i < N := more.trans small
  obtain ⟨q, id, only, other, -⟩ := inv.target slave small begun more (by rw [here]; rfl)
  have called : v.called p (net, q) := by
    rw [(inv.shows p).called, here, id]
    cases net <;> simp
  have line : (s.node p).fd net i = v.line p (net, q) := by
    have entry := (inv.shows p).lines (net, q) called
    rw [id] at entry
    rw [Node.fd, entry]
    rfl
  rw [line] at call
  have after := call.of_requested (inv.kept.requested p (net, q) called)
  subst after
  have shows := inv.shows p
  refine inv.renew member (inv.kept.congr rfl rfl) rfl inv.ranks ?_ (fun r _ => inv.shows r)
    ⟨slave, small, begun.trans (Nat.le_succ i), more⟩ (fun _ => inv.informed p (by rw [here]; trivial))
    (fun _ _ => rfl) ?_ ?_ ?_ ?_
  · refine ⟨?_, ?_, ?_, ?_, ?_, ?_, ?_, shows.lines, shows.answers⟩
    · intro net'
      rw [shows.opened, here]
      simp
    · intro net'
      rw [shows.closed, here]
      simp
    · intro net' _
      exact shows.lis net' (by rw [here]; trivial)
    · intro net' _
      exact shows.addr net' (by rw [here]; trivial)
    · intro net'
      rw [shows.heard, here]
      cases net <;> cases net' <;> simp
    · intro net'
      rw [shows.held, here]
      simp
    · rintro ⟨net', r⟩
      rw [shows.called, here]
      cases net <;> cases net' <;> simp
  · intro r net' known
    rw [State.put_port]
    apply inv.ports p r net'
    rw [here]
    cases net' <;> simpa using known
  · intro r known
    apply inv.hosts p r
    rw [here]
    simpa using known
  · intro r calledR
    have talk := inv.talks r calledR
    have apart := inv.kept.conn_apart calledR called fun both => other both.2.symm
    rw [State.put_other _ _ _ slave.symm, World.setUp_up_other _ _ apart, World.setUp_down]
    by_cases same : r = p
    · subst same
      rw [State.put_self]
      exact talk.alike rfl (by rw [here]; rfl) (by rw [here]; rfl)
    · rw [State.put_other _ _ _ same]
      exact talk
  · intro r b calledR otherB
    have introduction := inv.introduces r b calledR otherB
    by_cases same : r = p ∧ b = (net, q)
    · obtain ⟨rfl, rfl⟩ := same
      rw [here] at introduction
      have untold : ¬ rank q < Pc.told (rank r) net (.writeId net i) := by simp [id]
      obtain ⟨unheard, up, down⟩ := introduction
      have new : r ∉ v.heard (net, q) := fun heard => untold (unheard heard)
      have told : rank q < Pc.told (rank r) net (.conn net (i + 1)) := by
        cases net <;> simp [id]
      rw [if_neg fun both => untold both.1] at up
      rw [State.put_self]
      refine ⟨fun _ => told, ?_, down⟩
      rw [if_pos ⟨told, new⟩, World.setUp_up_self, up]
      rfl
    · have apart := inv.kept.conn_apart calledR called same
      have told : rank b.2 < ((s.put p { s.node p with pc := .conn net (i + 1) }
            (s.world.setUp (p, v.line p (net, q))
              (s.world.up (p, v.line p (net, q)) ++ [.int (rank p)]))).node r).pc.told (rank r) b.1 ↔
          rank b.2 < (s.node r).pc.told (rank r) b.1 := by
        by_cases self : r = p
        · subst self
          rw [State.put_self, here]
          obtain ⟨net', t⟩ := b
          have different : net' = net → rank t ≠ i := by
            rintro rfl equal
            exact same ⟨rfl, by rw [(only t).mp equal]⟩
          cases net <;> cases net' <;> simp at different ⊢ <;> omega
        · rw [State.put_other _ _ _ self]
      rw [World.setUp_up_other _ _ apart, World.setUp_down]
      simp only [told]
      exact introduction

/-! ## Taking calls -/

/-- What the process at the head of the queue has done. -/
theorem first_waiting (inv : Inv N host rootport s v rank) {a : Socket} {fd : Nat} {c : Conn}
    (opened : v.opened a) (live : ¬ v.closed a)
    (call : s.world.Accepts w' a.2 ((s.node a.2).lisfd a.1) fd c) :
    v.called c.1 a ∧ ¬ v.Taken a c.1 ∧ c = (c.1, v.line c.1 a) ∧
      s.world.file a.2 fd = none ∧ ∃ rest, s.world.queue (v.addr a) = some (c :: rest) ∧
        w' = s.world.accept a.2 fd (v.addr a) c rest := by
  obtain ⟨free, addr, rest, file, queue, after⟩ := call
  have lis := (inv.shows a.2).lis a.1 (((inv.shows a.2).opened a.1).mp opened)
  have listening := inv.kept.socket a opened live
  rw [inv.owner] at listening
  rw [← lis, listening] at file
  have same : v.addr a = addr := File.listening.inj (Option.some.inj file)
  subst same
  obtain ⟨l, queueL, -, members⟩ := inv.kept.waiting a opened live
  rw [queue] at queueL
  obtain rfl := Option.some.inj queueL
  obtain ⟨q, called, untaken, rfl⟩ := (members c).mp List.mem_cons_self
  exact ⟨called, untaken, rfl, free, rest, queue, after⟩

theorem accept (inv : Inv N host rootport s v rank) (member : p < N) {net : Net} {i newfd : Nat}
    {c : Conn} (here : (s.node p).pc = .accept net i) (more : i < (s.node p).size)
    (call : s.world.Accepts w' p ((s.node p).lisfd net) newfd c) :
    ∃ v', Inv N host rootport (s.put p { s.node p with pc := .readId net i newfd } w') v' rank := by
  have fits := inv.fits p
  have info := inv.informed p
  have shows := inv.shows p
  rw [here] at fits info
  rw [(info trivial).1] at more
  have opened : v.opened (net, p) := by
    rw [shows.opened, here]
    trivial
  have live : ¬ v.closed (net, p) := by
    rw [shows.closed, here]
    simp
  have idle : v.held (net, p) = none := by
    have held := shows.held net
    rw [here] at held
    exact Option.map_eq_none_iff.mp held
  have level : (s.node p).pc.Level N (.readId net i newfd) := by
    rw [here]
    constructor <;> simp
  obtain ⟨called, untaken, conn, free, rest, queue, after⟩ := inv.first_waiting opened live call
  subst after
  have owner : v.owner (net, p) = p := by rw [inv.owner]
  have kept := inv.kept.accept opened live idle (by rw [owner]; exact free) queue
  rw [owner] at kept
  have answer : ∀ b q, q ∈ v.heard b →
      (v.take (net, p) c.1 newfd).answer b q = v.answer b q := by
    intro b q heard
    apply if_neg
    rintro ⟨rfl, rfl⟩
    exact untaken (.inl heard)
  refine ⟨v.take (net, p) c.1 newfd, inv.renew member kept rfl inv.ranks ?_ ?_
    ⟨fits.1, fits.2.1, more⟩ (fun _ => info trivial) (fun _ _ => rfl) ?_ ?_ ?_ ?_⟩
  · refine ⟨?_, ?_, ?_, ?_, ?_, ?_, ?_, shows.lines, ?_⟩
    · intro net'
      have old := shows.opened net'
      rw [here] at old
      exact old
    · intro net'
      have old := shows.closed net'
      rw [here] at old
      show v.closed (net', p) ↔ _
      rw [old]
      simp
    · intro net' _
      exact shows.lis net' (by rw [here]; trivial)
    · intro net' _
      exact shows.addr net' (by rw [here]; trivial)
    · intro net'
      have old := shows.heard net'
      rw [here] at old
      cases net <;> cases net' <;> exact old
    · intro net'
      by_cases same : net' = net
      · subst same
        simp [Switchboard.take]
      · have old := shows.held net'
        rw [here] at old
        simpa [Switchboard.take, same] using old
    · rintro ⟨net', r⟩
      have old := shows.called (net', r)
      rw [here] at old
      cases net <;> cases net' <;> exact old
    · intro net' q heard
      rw [answer _ q heard]
      exact shows.answers net' q heard
  · intro q different
    have same := inv.shows q
    refine ⟨same.opened, same.closed, same.lis, same.addr, same.heard, ?_, same.called, same.lines,
      ?_⟩
    · intro net'
      have old := same.held net'
      simpa [Switchboard.take, different] using old
    · intro net' r heard
      rw [answer _ r heard]
      exact same.answers net' r heard
  · intro q net' known
    rw [State.put_port]
    exact inv.ports_level level q net' known
  · exact inv.hosts_level level
  · intro q calledQ
    exact inv.talks_level level calledQ
  · intro q b calledQ other
    have introduction := inv.introduces q b calledQ other
    have told := s.put_all (w := s.world.accept p newfd (v.addr (net, p)) c rest) (p := p)
      (n := { s.node p with pc := .readId net i newfd })
      (fun r new => new.pc.told (rank r) b.1 = (s.node r).pc.told (rank r) b.1)
      (by rw [here]; obtain ⟨net', r⟩ := b; cases net <;> cases net' <;> simp)
      (fun r _ => rfl) q
    rw [told]
    exact introduction

/-- Who has been accepted and has not yet said who it is. -/
theorem holder (inv : Inv N host rootport s v rank) {net : Net} {i newfd : Nat}
    (here : (s.node p).pc = .readId net i newfd) :
    (net, p) ≠ root ∧ ∃ q, v.held (net, p) = some q ∧ v.answer (net, p) q = newfd ∧
      v.called q (net, p) ∧ q ∉ v.heard (net, p) ∧
        s.world.file p newfd = some (.accepted (q, v.line q (net, p))) := by
  have fits := inv.fits p
  have map := (inv.shows p).held net
  rw [here] at fits map
  rw [Pc.holding, if_pos rfl] at map
  obtain ⟨q, held, answer⟩ := Option.map_eq_some_iff.mp map
  obtain ⟨called, file⟩ := inv.kept.answered (net, p) q (.inr held)
  rw [inv.owner, answer] at file
  refine ⟨?_, q, held, answer, called, ?_, file⟩
  · intro same
    obtain ⟨rfl, rfl⟩ := Prod.mk.inj same
    cases fits.1 rfl
  · intro heard
    have once := inv.kept.once (net, p)
    rw [held] at once
    exact (List.nodup_append.mp once).2.2 q heard q (by simp) rfl

/-- What it says is its id. -/
theorem introduced (inv : Inv N host rootport s v rank) {net : Net} {q fd newid : Nat}
    (called : v.called q (net, p)) (other : (net, p) ≠ root) (unheard : q ∉ v.heard (net, p))
    (file : s.world.file p fd = some (.accepted (q, v.line q (net, p))))
    (call : s.world.Reads w' p fd [.int newid]) :
    newid = rank q ∧ rank p < (s.node q).pc.told (rank q) net ∧
      w' = s.world.setUp (q, v.line q (net, p)) [] := by
  obtain ⟨rest, split, after⟩ := call.of_accepted file
  have up := (inv.introduces q (net, p) called other).2.1
  have told : rank p < (s.node q).pc.told (rank q) net := by
    by_contra untold
    rw [if_neg fun both => untold both.1, split] at up
    cases up
  rw [if_pos ⟨told, unheard⟩, split] at up
  obtain ⟨id, none⟩ : newid = rank q ∧ rest = [] := by simpa using up
  exact ⟨id, told, none ▸ after⟩

theorem readId (inv : Inv N host rootport s v rank) (member : p < N) {net : Net}
    {i newfd newid : Nat} (here : (s.node p).pc = .readId net i newfd)
    (call : s.world.Reads w' p newfd [.int newid]) :
    ∃ v', Inv N host rootport
      (s.put p { (s.node p).setFd net newid newfd with pc := .accept net (i + 1) } w') v' rank := by
  have fits := inv.fits p
  have info := inv.informed p
  have shows := inv.shows p
  rw [here] at fits info
  obtain ⟨which, above, more⟩ := fits
  obtain ⟨other, q, held, answer, called, unheard, file⟩ := inv.holder here
  obtain ⟨id, told, after⟩ := inv.introduced called other unheard file call
  obtain ⟨-, up, down⟩ := inv.introduces q (net, p) called other
  subst id after
  have below : rank p < rank q := inv.lt_of_called called
  have level : (s.node p).pc.Level N (.accept net (i + 1)) := by
    rw [here]
    constructor <;> simp
  have line : (v.hear (net, p)).line = v.line := rfl
  have heard_other : ∀ b, b ≠ (net, p) → (v.hear (net, p)).heard b = v.heard b :=
    fun b different => Function.update_of_ne different _ _
  have heard_here : (v.hear (net, p)).heard (net, p) = v.heard (net, p) ++ [q] := by
    simp [Switchboard.hear, held]
  have entry : ∀ net' j, ¬ (net' = net ∧ j = rank q) →
      ((s.node p).setFd net (rank q) newfd).fds net' j = (s.node p).fds net' j :=
    fun net' j different => Node.setFd_other newfd different
  refine ⟨v.hear (net, p), inv.renew member ((inv.kept.hear _).congr rfl rfl) rfl ?_ ?_ ?_
    ⟨which, above.trans (Nat.lt_succ_self i), more⟩ (fun _ => info trivial) (fun _ _ => rfl) ?_ ?_ ?_
    ?_⟩
  · rw [heard_other root (Ne.symm other)]
    exact inv.ranks
  · refine ⟨?_, ?_, ?_, ?_, ?_, ?_, ?_, ?_, ?_⟩
    · intro net'
      have old := shows.opened net'
      rw [here] at old
      exact old
    · intro net'
      have old := shows.closed net'
      rw [here] at old
      show v.closed (net', p) ↔ _
      rw [old]
      simp
    · intro net' _
      exact shows.lis net' (by rw [here]; trivial)
    · intro net' _
      exact shows.addr net' (by rw [here]; trivial)
    · intro net'
      have old := shows.heard net'
      rw [here] at old
      by_cases same : net' = net
      · subst same
        rw [heard_here, List.length_append, old]
        cases net' <;> simp <;> omega
      · rw [heard_other _ (by simpa using same), old]
        cases net <;> cases net' <;> simp at same ⊢
    · intro net'
      by_cases same : net' = net
      · subst same
        simp [Switchboard.hear]
      · have old := shows.held net'
        rw [here] at old
        simpa [Switchboard.hear, same] using old
    · rintro ⟨net', r⟩
      have old := shows.called (net', r)
      rw [here] at old
      cases net <;> cases net' <;> exact old
    · intro b calledB
      refine (entry b.1 (rank b.2) ?_).trans (shows.lines b calledB)
      rintro ⟨-, same⟩
      have lower := inv.lt_of_called calledB
      omega
    · intro net' r heard
      by_cases same : net' = net ∧ rank r = rank q
      · obtain ⟨rfl, equal⟩ := same
        have small : rank q < N := inv.small_of_taken (.inr held) inv.held_root
        have found : q = r := inv.ranks.inj small equal.symm
        subst found
        show ((s.node p).setFd net' (rank q) newfd).fds net' (rank q) = v.answer (net', p) q
        simp [Node.setFd, answer]
      · refine (entry net' (rank r) same).trans (shows.answers net' r ?_)
        by_cases here' : net' = net
        · subst here'
          rw [heard_here, List.mem_append, List.mem_singleton] at heard
          rcases heard with old | rfl
          · exact old
          · exact absurd ⟨rfl, rfl⟩ same
        · rwa [heard_other _ (by simpa using here')] at heard
  · intro r different
    have same := inv.shows r
    have apart : ∀ net', (net', r) ≠ (net, p) := fun net' equal => different (Prod.mk.inj equal).2
    refine ⟨same.opened, same.closed, same.lis, same.addr, ?_, ?_, same.called, same.lines, ?_⟩
    · intro net'
      rw [heard_other _ (apart net')]
      exact same.heard net'
    · intro net'
      have old := same.held net'
      simpa [Switchboard.hear, different] using old
    · intro net' t heard
      rw [heard_other _ (apart net')] at heard
      exact same.answers net' t heard
  · intro r net' known
    rw [Node.setFd, State.put_port]
    exact inv.ports_level level r net' known
  · exact inv.hosts_level level
  · intro r calledR
    have apart := inv.kept.conn_apart calledR called fun both => other both.2.symm
    rw [line, World.setUp_up_other _ _ apart]
    exact inv.talks_level level calledR
  · intro r b calledR otherB
    have introduction := inv.introduces r b calledR otherB
    have told_same := s.put_all (w := s.world.setUp (q, v.line q (net, p)) []) (p := p)
      (n := { (s.node p).setFd net (rank q) newfd with pc := .accept net (i + 1) })
      (fun t new => new.pc.told (rank t) b.1 = (s.node t).pc.told (rank t) b.1)
      (by rw [here]; obtain ⟨net', t⟩ := b; cases net <;> cases net' <;> simp)
      (fun t _ => rfl) r
    rw [told_same]
    by_cases same : r = q ∧ b = (net, p)
    · obtain ⟨rfl, rfl⟩ := same
      have heard : r ∈ (v.hear (net, p)).heard (net, p) := by simp [heard_here]
      refine ⟨fun _ => told, ?_, introduction.2.2⟩
      rw [if_neg fun both => both.2 heard]
      exact World.setUp_up_self _ _ _
    · have apart := inv.kept.conn_apart calledR called same
      have heard_iff : r ∈ (v.hear (net, p)).heard b ↔ r ∈ v.heard b := by
        by_cases here' : b = (net, p)
        · subst here'
          have different : r ≠ q := fun equal => same ⟨equal, rfl⟩
          simp [heard_here, different]
        · rw [heard_other b here']
      rw [line, World.setUp_up_other _ _ apart]
      simp only [heard_iff]
      exact introduction

/-! ## The master gives out ids -/

theorem acceptRoot (inv : Inv N host rootport s v rank) {i cfd : Nat} {c : Conn}
    (here : (s.node 0).pc = .acceptRoot i) (more : i < (s.node 0).size)
    (call : s.world.Accepts w' 0 ((s.node 0).lisfd .pt) cfd c) :
    ∃ v' rank', Inv N host rootport
      (s.put 0 { (s.node 0).setFd .pt i cfd with pc := .readPort i .pt } w') v' rank' := by
  have fits := inv.fits_master
  have info := inv.info_master
  have shows := inv.shows 0
  rw [here] at fits info
  rw [(info trivial).1] at more
  obtain ⟨-, positive, -⟩ := fits
  have some : 0 < N := by omega
  have opened : v.opened root := (shows.opened .pt).mpr (by rw [here]; trivial)
  have live : ¬ v.closed root := by
    rw [root, shows.closed, here]
    simp
  obtain ⟨called, untaken, conn, free, rest, queue, after⟩ := inv.first_waiting opened live call
  generalize c.1 = q at called untaken conn
  subst conn after
  have slave := inv.slave_of_called called
  have unheard : q ∉ v.heard root := fun heard => untaken (.inl heard)
  have stray : rank q = N := inv.ranks.stray q slave unheard
  have length : (v.heard root).length = i - 1 := by
    have count := shows.heard .pt
    rw [here] at count
    exact count
  -- nobody has got more than its id
  have few : ∀ r, r ≠ 0 → (s.node r).pc.got N ≤ 2 := by
    intro r slaveR
    by_contra got
    have past := inv.past_of_got slaveR (not_le.mp got)
    rw [here] at past
    exact past
  have nothing : (s.node q).pc.got N = 0 := by
    have got := (inv.talks q called).got
    rw [stray, inv.fits_master.stray.2] at got
    exact Nat.le_zero.mp got
  let rank' := Function.update rank q i
  have rank_new : rank' q = i := Function.update_self _ _ _
  have rank_old : ∀ r, r ≠ q → rank' r = rank r := fun r different =>
    Function.update_of_ne different _ _
  have zero : rank' 0 = 0 := by rw [rank_old 0 slave.symm, inv.ranks.zero]
  have zero_iff : ∀ r, rank' r = 0 ↔ r = 0 := by
    intro r
    by_cases same : r = q
    · rw [same, rank_new]
      exact ⟨fun none => absurd none (by omega), fun none => absurd none slave⟩
    · rw [rank_old r same]
      exact inv.rank_zero_iff
  have kept := (inv.kept.accept opened live inv.held_root
    (by rw [inv.owner]; exact free) queue).hear root
  have owner : v.owner root = 0 := by rw [inv.owner]; rfl
  rw [owner] at kept
  have heard_root : ((v.take root q cfd).hear root).heard root = v.heard root ++ [q] := by
    simp [Switchboard.hear, Switchboard.take]
  have heard_other : ∀ b, b ≠ root → ((v.take root q cfd).hear root).heard b = v.heard b :=
    fun b different => Function.update_of_ne different _ _
  have ranks : Ranks N rank' (((v.take root q cfd).hear root).heard root) := by
    rw [heard_root]
    refine ⟨zero, ?_, ?_, ?_⟩
    · intro j p entry
      by_cases old : j < (v.heard root).length
      · rw [List.getElem?_append_left old] at entry
        have different : p ≠ q := by
          rintro rfl
          exact unheard (List.mem_of_getElem? entry)
        rw [rank_old p different]
        exact inv.ranks.nth j p entry
      · rw [List.getElem?_append_right (not_lt.mp old), List.getElem?_singleton] at entry
        split at entry
        next first =>
          obtain rfl := Option.some.inj entry
          rw [rank_new]
          omega
        next => cases entry
    · intro p slaveP missing
      obtain ⟨missing, different⟩ : p ∉ v.heard root ∧ p ≠ q := by simpa using missing
      rw [rank_old p different]
      exact inv.ranks.stray p slaveP missing
    · rw [List.length_append, length, List.length_singleton]
      omega
  have calls_master : ∀ r b, v.called r b → b = root := by
    rintro r ⟨net, t⟩ calledR
    have asked : rank t < (s.node r).pc.asked (rank r) net :=
      ((inv.shows r).called (net, t)).mp calledR
    obtain ⟨bc, pt, -⟩ := (inv.fits r).asked_early (inv.slave_of_called calledR) some
      (few r (inv.slave_of_called calledR)) (rank r)
    cases net with
    | pt =>
        have none : rank t = 0 := by omega
        rw [inv.rank_zero_iff.mp none, root]
    | bc => omega
  have called_iff : ∀ r b, v.called r b ↔ rank' b.2 < (s.node r).pc.asked (rank' r) b.1 := by
    rintro r ⟨net, t⟩
    rw [(inv.shows r).called]
    by_cases master : r = 0
    · subst master
      rw [here, zero, inv.ranks.zero]
      cases net <;> simp
    · obtain ⟨bc, pt, same⟩ := (inv.fits r).asked_early master some (few r master) (rank' r)
      obtain ⟨bc', pt', -⟩ := (inv.fits r).asked_early master some (few r master) (rank r)
      cases net with
      | pt =>
          have either : rank t = 0 ↔ rank' t = 0 := by rw [zero_iff, inv.rank_zero_iff]
          simp only
          omega
      | bc =>
          simp only
          omega
  have heard_slave : ∀ r net, r ≠ 0 → v.heard (net, r) = [] := by
    intro r net slaveR
    apply List.eq_nil_of_length_eq_zero
    rw [(inv.shows r).heard]
    exact ((inv.fits r).count_early slaveR some (few r slaveR) (rank r)).1
  have new_other : ∀ net r, r ≠ 0 → ((net, r) : Socket) ≠ root :=
    fun net r slaveR same => slaveR (Prod.mk.inj same).2
  refine ⟨(v.take root q cfd).hear root, rank', ⟨kept, inv.owner, ?_, ?_, ?_, ranks, ?_, ?_, ?_,
    ?_, ?_, ?_⟩⟩
  · refine s.put_all (Shows host N _ rank') ?_ ?_
    · refine ⟨?_, ?_, ?_, ?_, ?_, ?_, ?_, ?_, ?_⟩
      · intro net
        have old := shows.opened net
        rw [here] at old
        exact old
      · intro net
        have old := shows.closed net
        rw [here] at old
        show v.closed (net, 0) ↔ _
        rw [old]
        simp
      · intro net _
        exact shows.lis net (by rw [here]; trivial)
      · intro net _
        exact shows.addr net (by rw [here]; trivial)
      · intro net
        cases net with
        | pt =>
            rw [show ((.pt, 0) : Socket) = root from rfl, heard_root, List.length_append, length,
              List.length_singleton]
            simp
            omega
        | bc =>
            have old := shows.heard .bc
            rw [here] at old
            rw [heard_other _ (by simp [root]), old]
            rfl
      · intro net
        cases net with
        | pt =>
            have empty : ((v.take root q cfd).hear root).held (.pt, 0) = none := by
              simp [Switchboard.hear, root]
            rw [empty]
            rfl
        | bc =>
            have old := shows.held .bc
            rw [here] at old
            simpa [Switchboard.hear, Switchboard.take, root] using old
      · intro b
        have old := called_iff 0 b
        rw [here] at old
        show v.called 0 b ↔ _
        rw [old]
        obtain ⟨net, t⟩ := b
        cases net <;> simp
      · intro b calledB
        exact absurd rfl (inv.slave_of_called calledB)
      · intro net t heard
        cases net with
        | pt =>
            rw [show ((.pt, 0) : Socket) = root from rfl, heard_root, List.mem_append,
              List.mem_singleton] at heard
            by_cases new : t = q
            · subst new
              rw [rank_new]
              simp [Node.setFd, Switchboard.hear, Switchboard.take, root]
            · have old := heard.resolve_right new
              have index : rank t ≠ i := by
                obtain ⟨j, bound, entry⟩ := List.getElem_of_mem old
                have nth := inv.ranks.nth j t (by rw [← entry]; exact List.getElem?_eq_getElem _)
                omega
              rw [rank_old t new]
              have answer := shows.answers .pt t old
              simpa [Node.setFd, Switchboard.hear, Switchboard.take, root, index, new] using answer
        | bc =>
            have empty := shows.heard .bc
            rw [here] at empty
            rw [heard_other _ (by simp [root]), List.eq_nil_of_length_eq_zero empty] at heard
            cases heard
    · intro r slaveR
      have same := inv.shows r
      refine ⟨same.opened, same.closed, same.lis, same.addr, ?_, ?_, called_iff r, ?_, ?_⟩
      · intro net
        rw [heard_other _ (new_other net r slaveR), heard_slave r net slaveR]
        exact ((inv.fits r).count_early slaveR some (few r slaveR) _).1.symm
      · intro net
        have old := same.held net
        have other := new_other net r slaveR
        simpa [Switchboard.hear, Switchboard.take, other] using old
      · intro b calledB
        have isRoot := calls_master r b calledB
        subst isRoot
        have line := same.lines root calledB
        rw [root, inv.ranks.zero] at line
        rw [root, zero]
        exact line
      · intro net t heard
        rw [heard_other _ (new_other net r slaveR), heard_slave r net slaveR] at heard
        cases heard
  · refine s.put_all (fun r new => new.pc.Fits N r (rank' r)) ⟨rfl, positive, more⟩ ?_
    intro r slaveR
    by_cases same : r = q
    · rw [same]
      exact ((inv.fits q).unranked slave nothing _).1
    · rw [rank_old r same]
      exact inv.fits r
  · exact s.put_all (fun r new => N ≤ r → new.pc = .connRoot)
      (fun outside => absurd some (not_lt.mpr outside)) fun r _ => inv.members r
  · refine s.put_all (fun r new => new.pc.informed → new.size = N ∧ new.myid = rank' r) ?_ ?_
    · intro _
      rw [zero]
      exact info trivial
    · intro r slaveR informed
      by_cases same : r = q
      · subst same
        exact absurd informed ((inv.fits r).unranked slave nothing 0).2
      · rw [rank_old r same]
        exact inv.informed r informed
  · rw [State.put_self]
    exact inv.rootport
  · intro r
    refine s.put_all (fun _ new => ∀ t net, rank' t < new.pc.knownPorts N net →
      new.ports net (rank' t) = ((s.put 0 _ _).node t).port net) ?_ ?_ r
    · intro t net known
      have below : rank' t < i := by cases net <;> exact known
      have different : t ≠ q := by
        rintro rfl
        omega
      rw [rank_old t different] at below ⊢
      rw [Node.setFd, State.put_port]
      apply inv.ports 0 t net
      rw [here]
      cases net <;> exact below
    · intro r slaveR t net known
      rw [((inv.fits r).count_early slaveR some (few r slaveR) 0).2.1] at known
      exact absurd known (Nat.not_lt_zero _)
  · refine s.put_all (fun _ new => ∀ t, rank' t < new.pc.knownHosts N →
      new.hostnames (rank' t) = host t) ?_ ?_
    · intro t known
      have below : rank' t < i := known
      have different : t ≠ q := by
        rintro rfl
        omega
      rw [rank_old t different] at below ⊢
      apply inv.hosts 0 t
      rw [here]
      exact below
    · intro r slaveR t known
      have early := @Pc.Fits.count_early N r (rank r) _ .pt (inv.fits r) slaveR some
        (few r slaveR) 0
      have none := early.2.2
      rw [none] at known
      exact absurd known (Nat.not_lt_zero _)
  · intro r calledR
    have slaveR := inv.slave_of_called calledR
    have talk := inv.talks r calledR
    have line : ((v.take root q cfd).hear root).line = v.line := rfl
    rw [line, State.put_self, State.put_other _ _ _ slaveR]
    obtain ⟨welcomed, up, got, down⟩ := talk
    rw [here] at welcomed up got down
    by_cases same : r = q
    · subst same
      rw [stray] at welcomed up got down
      rw [rank_new]
      have unseen : (Pc.acceptRoot i).welcomed N N = 0 := by
        simp
        omega
      have unseen' : (Pc.readPort i .pt).welcomed N i = 0 := by simp
      have untold : (Pc.acceptRoot i).announced N N = 0 := by
        simp
        omega
      refine ⟨?_, ?_, ?_, ?_⟩
      · rw [unseen']
        exact Nat.zero_le _
      · rw [unseen']
        rw [unseen] at up
        exact up
      · rw [nothing]
        exact Nat.zero_le _
      · rw [untold, nothing] at down
        have untold' : (Pc.readPort i .pt).announced N i = 0 := by simp
        show s.world.down (r, v.line r root) = _
        rw [down, nothing, untold']
        rfl
    · rw [rank_old r same]
      exact ⟨welcomed, up, got, down⟩
  · intro r b calledR other
    exact absurd (calls_master r b calledR) other

/-! ## The end -/

theorem tables (inv : Inv N host rootport s v rank) (member : p < N) {w w' : World Addr Word}
    (here : (s.node p).pc = .tables) (close : s.world.Closes w p ((s.node p).lisfd .pt))
    (close' : w.Closes w' p ((s.node p).lisfd .bc)) :
    ∃ v', Inv N host rootport (s.put p { (s.node p).finish with pc := .done } w') v' rank := by
  have fits := inv.fits p
  have info := inv.informed p
  have shows := inv.shows p
  rw [here] at fits info
  have opened : ∀ net, v.opened (net, p) := by
    intro net
    rw [shows.opened, here]
    trivial
  have live : ∀ net, ¬ v.closed (net, p) := by
    intro net
    rw [shows.closed, here]
    simp
  have lis : ∀ net, v.lis (net, p) = (s.node p).lisfd net :=
    fun net => shows.lis net (by rw [here]; trivial)
  have owner : ∀ net, v.owner (net, p) = p := fun net => by rw [inv.owner]
  have first : w = s.world.close p (v.lis (.pt, p)) (v.addr (.pt, p)) := by
    obtain ⟨addr, file, after⟩ := close
    have listening := inv.kept.socket (.pt, p) (opened .pt) (live .pt)
    rw [owner, lis, file] at listening
    have same : addr = v.addr (.pt, p) := File.listening.inj (Option.some.inj listening)
    rw [after, lis, same]
  have kept := inv.kept.close (opened .pt) (live .pt)
  rw [owner, ← first] at kept
  have live' : ¬ (v.close (.pt, p)).closed (.bc, p) := by
    rintro (closed | same)
    · exact live .bc closed
    · cases same
  have second : w' = w.close p (v.lis (.bc, p)) (v.addr (.bc, p)) := by
    obtain ⟨addr, file, after⟩ := close'
    have listening := kept.socket (.bc, p) (opened .bc) live'
    have owner' : (v.close (.pt, p)).owner (.bc, p) = p := owner .bc
    have lis' : (v.close (.pt, p)).lis (.bc, p) = (s.node p).lisfd .bc := lis .bc
    rw [owner', lis', file] at listening
    have same : addr = v.addr (.bc, p) := File.listening.inj (Option.some.inj listening)
    rw [after, lis, same]
  have kept' := kept.close (opened .bc) live'
  have owner' : (v.close (.pt, p)).owner (.bc, p) = p := owner .bc
  rw [owner'] at kept'
  have level : (s.node p).pc.Level N .done := by
    rw [here]
    constructor <;> simp
  subst second
  refine ⟨(v.close (.pt, p)).close (.bc, p), inv.renew member kept' rfl inv.ranks ?_ ?_
    fits (fun _ => info trivial) (fun _ _ => rfl) ?_ ?_ ?_ ?_⟩
  · refine ⟨?_, ?_, ?_, ?_, ?_, ?_, ?_, shows.lines, shows.answers⟩
    · intro net
      exact ⟨fun _ => trivial, fun _ => opened net⟩
    · intro net
      refine ⟨fun _ => rfl, fun _ => ?_⟩
      cases net with
      | pt => exact .inl (.inr rfl)
      | bc => exact .inr rfl
    · intro net _
      exact lis net
    · intro net _
      exact shows.addr net (by rw [here]; trivial)
    · intro net
      have old := shows.heard net
      rw [here] at old
      cases net <;> exact old
    · intro net
      have old := shows.held net
      rw [here] at old
      exact old
    · rintro ⟨net, r⟩
      have old := shows.called (net, r)
      rw [here] at old
      cases net <;> exact old
  · intro q different
    have same := inv.shows q
    have still : ∀ net, ((v.close (.pt, p)).close (.bc, p)).closed (net, q) ↔ v.closed (net, q) := by
      intro net
      simp [Switchboard.close, different]
    refine ⟨same.opened, ?_, same.lis, same.addr, same.heard, same.held, same.called, same.lines,
      same.answers⟩
    intro net
    rw [still]
    exact same.closed net
  · intro q net known
    rw [Node.finish, State.put_port]
    exact inv.ports_level level q net known
  · exact inv.hosts_level level
  · intro q called
    subst first
    exact inv.talks_level level called
  · intro q b called other
    subst first
    have told := s.put_all (p := p) (n := { (s.node p).finish with pc := .done })
      (w := s.world.close p (v.lis (.pt, p)) (v.addr (.pt, p)))
      (fun r new => new.pc.told (rank r) b.1 = (s.node r).pc.told (rank r) b.1)
      (by rw [here]; obtain ⟨net', r⟩ := b; cases net' <;> simp) (fun r _ => rfl) q
    have introduction := inv.introduces q b called other
    rw [← told] at introduction
    exact introduction

end Inv

end Tmpi.Netd.Bootstrap
