import Tmpi.Netd.Wiring

/-! Every step of every node keeps the wiring. -/

namespace Tmpi.Netd.Bootstrap

open Sockets

variable {N : Nat} {host : Nat → String} {rootport : Nat} {s : State} {v : Board}
  {rank : Nat → Nat} {p : Nat} {n : Node} {w' : World Addr Word}

namespace Inv

/-- What a step of one node has to see to. -/
theorem renew (inv : Inv N host rootport s v rank) {v' : Board} (member : p < N)
    (kept : v'.Kept w') (owner : v'.owner = v.owner) (ranks : Ranks N rank (v'.heard root))
    (shows : Shows host N v' rank p n)
    (others : ∀ q, q ≠ p → Shows host N v' rank q (s.node q))
    (fits : n.pc.Fits N p (rank p)) (informed : n.pc.informed → n.size = N ∧ n.myid = rank p)
    (port : ∀ net, ((∃ q, rank p < (s.node q).pc.knownPorts N net) ∨ (p = 0 ∧ net = .pt)) →
      n.port net = (s.node p).port net)
    (ports : ∀ q net, rank q < n.pc.knownPorts N net →
      n.ports net (rank q) = ((s.put p n w').node q).port net)
    (hosts : ∀ q, rank q < n.pc.knownHosts N → n.hostnames (rank q) = host q)
    (talks : ∀ q, v'.called q root →
      Talks host N q (rank q) (w'.up (q, v'.line q root)) (w'.down (q, v'.line q root))
        ((s.put p n w').node q) ((s.put p n w').node 0))
    (introduces : ∀ q a, v'.called q a → a ≠ root →
      (q ∈ v'.heard a → rank a.2 < ((s.put p n w').node q).pc.told (rank q) a.1) ∧
        w'.up (q, v'.line q a) =
          (if rank a.2 < ((s.put p n w').node q).pc.told (rank q) a.1 ∧ q ∉ v'.heard a
            then [.int (rank q)] else []) ∧
        w'.down (q, v'.line q a) = []) :
    Inv N host rootport (s.put p n w') v' rank := by
  refine ⟨kept, owner.trans inv.owner, ?_, ?_, ?_, ranks, ?_, ?_, ?_, ?_, talks, introduces⟩
  · exact s.put_all (Shows host N v' rank) shows others
  · exact s.put_all (fun q new => new.pc.Fits N q (rank q)) fits fun q _ => inv.fits q
  · exact s.put_all (fun q new => N ≤ q → new.pc = .connRoot)
      (fun outside => absurd member (not_lt.mpr outside)) fun q _ => inv.members q
  · exact s.put_all (fun q new => new.pc.informed → new.size = N ∧ new.myid = rank q)
      informed fun q _ => inv.informed q
  · refine s.put_all (fun q new => q = 0 → new.port .pt = rootport) ?_ ?_ 0 rfl
    · rintro rfl
      rw [port .pt (.inr ⟨rfl, rfl⟩)]
      exact inv.rootport
    · rintro q - rfl
      exact inv.rootport
  · intro q
    by_cases same : q = p
    · subst same
      rw [State.put_self]
      exact ports
    · rw [State.put_other s n w' same]
      intro r net known
      rw [inv.ports q r net known]
      by_cases self : r = p
      · subst self
        rw [State.put_self, port net (.inl ⟨q, known⟩)]
      · rw [State.put_other s n w' self]
  · exact s.put_all (fun _ new => ∀ r, rank r < new.pc.knownHosts N →
      new.hostnames (rank r) = host r) hosts fun q _ => inv.hosts q

/-! ## Steps that neither call nor accept -/

theorem stay (inv : Inv N host rootport s v rank) (member : p < N)
    (alike : (s.node p).pc.Alike N (rank p) n.pc) (lisfd : n.lisfd = (s.node p).lisfd)
    (port : n.port = (s.node p).port)
    (fds : ∀ net i, i ≠ rank p → n.fds net i = (s.node p).fds net i)
    (fits : n.pc.Fits N p (rank p)) (informed : n.pc.informed → n.size = N ∧ n.myid = rank p)
    (ports : ∀ q net, rank q < n.pc.knownPorts N net → n.ports net (rank q) = (s.node q).port net)
    (hosts : ∀ q, rank q < n.pc.knownHosts N → n.hostnames (rank q) = host q)
    (file : w'.file = s.world.file) (queue : w'.queue = s.world.queue)
    (plain : ∀ q a, v.called q a → a ≠ root →
      w'.up (q, v.line q a) = s.world.up (q, v.line q a) ∧
        w'.down (q, v.line q a) = s.world.down (q, v.line q a))
    (talks : ∀ q, v.called q root →
      Talks host N q (rank q) (w'.up (q, v.line q root)) (w'.down (q, v.line q root))
        ((s.put p n w').node q) ((s.put p n w').node 0)) :
    Inv N host rootport (s.put p n w') v rank := by
  have shows := inv.shows p
  have ports_same := s.put_all (w := w') (fun q new => new.port = (s.node q).port) port
    fun q _ => rfl
  have shows_new : Shows host N v rank p n := by
    refine ⟨?_, ?_, ?_, ?_, ?_, ?_, ?_, ?_, ?_⟩
    · intro net
      rw [shows.opened, alike.opened]
    · intro net
      rw [shows.closed, alike.done]
    · intro net opened
      rw [lisfd]
      exact shows.lis net ((alike.opened net).mp opened)
    · intro net opened
      rw [port]
      exact shows.addr net ((alike.opened net).mp opened)
    · intro net
      rw [shows.heard, alike.count]
    · intro net
      rw [shows.held, alike.holding]
    · intro a
      rw [shows.called, alike.asked]
    · intro a called
      rw [fds _ _ (ne_of_lt (inv.lt_of_called called))]
      exact shows.lines a called
    · intro net q heard
      have above := inv.lt_of_called (inv.kept.answered (net, p) q (.inl heard)).1
      rw [fds _ _ (ne_of_gt above)]
      exact shows.answers net q heard
  refine inv.renew member (inv.kept.congr file queue) rfl inv.ranks shows_new
    (fun q _ => inv.shows q) fits informed (fun net _ => congrFun port net) ?_ hosts talks ?_
  · intro q net known
    rw [ports_same]
    exact ports q net known
  · intro q a called other
    obtain ⟨up, down⟩ := plain q a called other
    have told := s.put_all (w := w')
      (fun q new => new.pc.told (rank q) a.1 = (s.node q).pc.told (rank q) a.1)
      (alike.told a.1) (fun q _ => rfl) q
    rw [up, down, told]
    exact inv.introduces q a called other

theorem stay_slave (inv : Inv N host rootport s v rank) (member : p < N) (slave : p ≠ 0)
    (alike : (s.node p).pc.Alike N (rank p) n.pc) (lisfd : n.lisfd = (s.node p).lisfd)
    (port : n.port = (s.node p).port)
    (fds : ∀ net i, i ≠ rank p → n.fds net i = (s.node p).fds net i)
    (fits : n.pc.Fits N p (rank p)) (informed : n.pc.informed → n.size = N ∧ n.myid = rank p)
    (ports : ∀ q net, rank q < n.pc.knownPorts N net → n.ports net (rank q) = (s.node q).port net)
    (hosts : ∀ q, rank q < n.pc.knownHosts N → n.hostnames (rank q) = host q)
    (file : w'.file = s.world.file) (queue : w'.queue = s.world.queue)
    (streams : ∀ q a, v.called q a → ¬ (q = p ∧ a = root) →
      w'.up (q, v.line q a) = s.world.up (q, v.line q a) ∧
        w'.down (q, v.line q a) = s.world.down (q, v.line q a))
    (talk : v.called p root →
      Talks host N p (rank p) (w'.up (p, v.line p root)) (w'.down (p, v.line p root)) n
        (s.node 0)) :
    Inv N host rootport (s.put p n w') v rank := by
  apply inv.stay member alike lisfd port fds fits informed ports hosts file queue
  · intro q a called other
    exact streams q a called fun same => other same.2
  · intro q called
    rw [State.put_other s n w' slave.symm]
    by_cases same : q = p
    · subst same
      rw [State.put_self]
      exact talk called
    · obtain ⟨up, down⟩ := streams q root called fun equal => same equal.1
      rw [State.put_other s n w' same, up, down]
      exact inv.talks q called

theorem stay_master (inv : Inv N host rootport s v rank)
    (alike : (s.node 0).pc.Alike N 0 n.pc) (lisfd : n.lisfd = (s.node 0).lisfd)
    (port : n.port = (s.node 0).port)
    (fds : ∀ net i, i ≠ 0 → n.fds net i = (s.node 0).fds net i)
    (fits : n.pc.Fits N 0 0) (informed : n.pc.informed → n.size = N ∧ n.myid = 0)
    (ports : ∀ q net, rank q < n.pc.knownPorts N net → n.ports net (rank q) = (s.node q).port net)
    (hosts : ∀ q, rank q < n.pc.knownHosts N → n.hostnames (rank q) = host q)
    (file : w'.file = s.world.file) (queue : w'.queue = s.world.queue)
    (plain : ∀ q a, v.called q a → a ≠ root →
      w'.up (q, v.line q a) = s.world.up (q, v.line q a) ∧
        w'.down (q, v.line q a) = s.world.down (q, v.line q a))
    (talks : ∀ q, v.called q root →
      Talks host N q (rank q) (w'.up (q, v.line q root)) (w'.down (q, v.line q root)) (s.node q)
        n) :
    Inv N host rootport (s.put 0 n w') v rank := by
  have zero := inv.ranks.zero
  apply inv.stay (lt_of_le_of_lt (Nat.zero_le _) inv.ranks.small) (by rwa [zero]) lisfd port
    (by rwa [zero]) (by rwa [zero]) (by rwa [zero]) ports hosts file queue plain
  intro q called
  rw [State.put_self, State.put_other s n w' (inv.slave_of_called called)]
  exact talks q called

/-! ## A slave and the master -/

theorem called_root (inv : Inv N host rootport s v rank) :
    v.called p root ↔ 0 < (s.node p).pc.asked (rank p) .pt := by
  rw [(inv.shows p).called, root, inv.ranks.zero]

theorem root_line (inv : Inv N host rootport s v rank) (called : v.called p root) :
    (s.node p).fd .pt 0 = v.line p root := by
  have line := (inv.shows p).lines root called
  rw [root, inv.ranks.zero] at line
  rw [Node.fd, line]
  rfl

/-- A write of a slave changes nothing on the other connections. -/
theorem other_lines (inv : Inv N host rootport s v rank) {p : Nat} {a : Socket}
    (called : v.called p a) (x y : List Word) : ∀ q b, v.called q b → ¬ (q = p ∧ b = a) →
      Function.update s.world.up (p, v.line p a) x (q, v.line q b) =
          s.world.up (q, v.line q b) ∧
        Function.update s.world.down (p, v.line p a) y (q, v.line q b) =
          s.world.down (q, v.line q b) := by
  intro q b calledB different
  have apart := inv.kept.conn_apart calledB called different
  exact ⟨Function.update_of_ne apart _ _, Function.update_of_ne apart _ _⟩

/-- The writes with which a slave introduces itself to the master. -/
theorem greet (inv : Inv N host rootport s v rank) (member : p < N) (called : v.called p root)
    {pc' : Pc} {word : Word} (alike : (s.node p).pc.Alike N (rank p) pc')
    (fits : pc'.Fits N p (rank p)) (uninformed : ¬ pc'.informed)
    (knownPorts : ∀ net, pc'.knownPorts N net = 0) (knownHosts : pc'.knownHosts N = 0)
    (got : pc'.got N = (s.node p).pc.got N) (greeted : pc'.greeted = (s.node p).pc.greeted + 1)
    (next : [word] <+: (greeting host p (s.node p)).drop (s.node p).pc.greeted)
    (call : s.world.Writes w' p ((s.node p).fd .pt 0) [word]) :
    Inv N host rootport (s.put p { s.node p with pc := pc' } w') v rank := by
  have talk := inv.talks p called
  rw [inv.root_line called] at call
  have after := call.of_requested (inv.kept.requested p root called)
  subst after
  refine inv.stay_slave member (inv.slave_of_called called) alike rfl rfl (fun _ _ _ => rfl) fits
    (fun informed => absurd informed uninformed) ?_ ?_ rfl rfl ?_ ?_
  · intro q net known
    rw [knownPorts] at known
    exact absurd known (Nat.not_lt_zero _)
  · intro q known
    rw [knownHosts] at known
    exact absurd known (Nat.not_lt_zero _)
  · intro q b calledB different
    exact ⟨(inv.other_lines called _ [] q b calledB different).1, rfl⟩
  · intro _
    refine ⟨?_, ?_, ?_, ?_⟩
    · rw [greeted]
      exact talk.welcomed.trans (Nat.le_succ _)
    · simp only [World.setUp, Function.update_self, greeted]
      rw [talk.up]
      exact onTheWay_append talk.welcomed next
    · rw [got]
      exact talk.got
    · simp only [World.setUp, got]
      exact talk.down

theorem writePort (inv : Inv N host rootport s v rank) (member : p < N) {net : Net}
    (here : (s.node p).pc = .writePort net)
    (call : s.world.Writes w' p ((s.node p).fd .pt 0) [.int ((s.node p).port net)]) :
    Inv N host rootport (s.put p { s.node p with pc := .afterWritePort net } w') v rank := by
  have fits := inv.fits p
  rw [here] at fits
  have called : v.called p root := by
    rw [inv.called_root, here]
    exact Nat.one_pos
  refine inv.greet member called ?_ ?_ ?_ ?_ ?_ ?_ ?_ ?_ call
  all_goals
    cases net <;> simp_all [Pc.alike_iff, Net.forall_iff, greeting]

theorem writeHost (inv : Inv N host rootport s v rank) (member : p < N)
    (here : (s.node p).pc = .writeHost)
    (call : s.world.Writes w' p ((s.node p).fd .pt 0) [.host (host p)]) :
    Inv N host rootport (s.put p { s.node p with pc := .readInfo } w') v rank := by
  have fits := inv.fits p
  rw [here] at fits
  have called : v.called p root := by
    rw [inv.called_root, here]
    exact Nat.one_pos
  refine inv.greet member called ?_ ?_ ?_ ?_ ?_ ?_ ?_ ?_ call
  all_goals
    simp_all [Pc.alike_iff, Net.forall_iff, greeting]

/-- What a slave reads is what the master had to say next. -/
theorem read_next (inv : Inv N host rootport s v rank) (called : v.called p root)
    {words : List Word} (call : s.world.Reads w' p ((s.node p).fd .pt 0) words) :
    (s.node p).pc.got N + words.length ≤ (s.node 0).pc.announced N (rank p) ∧
      words <+: (announcement N (s.node 0) (rank p)).drop ((s.node p).pc.got N) := by
  have talk := inv.talks p called
  rw [inv.root_line called] at call
  obtain ⟨rest, split, _⟩ := call.of_requested (inv.kept.requested p root called)
  rw [talk.down] at split
  obtain ⟨more, next, _⟩ := onTheWay_split talk.got split
  exact ⟨more, next⟩

theorem attend (inv : Inv N host rootport s v rank) (member : p < N) (called : v.called p root)
    (alike : (s.node p).pc.Alike N (rank p) n.pc) (lisfd : n.lisfd = (s.node p).lisfd)
    (port : n.port = (s.node p).port) (fds : n.fds = (s.node p).fds)
    (fits : n.pc.Fits N p (rank p)) (informed : n.size = N ∧ n.myid = rank p)
    (ports : ∀ q net, rank q < n.pc.knownPorts N net → n.ports net (rank q) = (s.node q).port net)
    (hosts : ∀ q, rank q < n.pc.knownHosts N → n.hostnames (rank q) = host q) {words : List Word}
    (greeted : n.pc.greeted = (s.node p).pc.greeted)
    (got : n.pc.got N = (s.node p).pc.got N + words.length)
    (call : s.world.Reads w' p ((s.node p).fd .pt 0) words) :
    Inv N host rootport (s.put p n w') v rank := by
  have talk := inv.talks p called
  have more := (inv.read_next called call).1
  rw [inv.root_line called] at call
  obtain ⟨rest, split, after⟩ := call.of_requested (inv.kept.requested p root called)
  rw [talk.down] at split
  have left := (onTheWay_split talk.got split).2.2
  subst after
  refine inv.stay_slave member (inv.slave_of_called called) alike lisfd port
    (fun net i _ => by rw [fds]) fits (fun _ => informed) ports hosts rfl rfl ?_ ?_
  · intro q b calledB different
    exact ⟨rfl, (inv.other_lines called [] _ q b calledB different).2⟩
  · intro _
    refine ⟨?_, ?_, ?_, ?_⟩
    · rw [greeted]
      exact talk.welcomed
    · simp only [World.setDown, greeted]
      rw [talk.up, greeting, greeting, port]
    · rw [got]
      exact more
    · simp only [World.setDown, Function.update_self, got]
      exact left

theorem readInfo (inv : Inv N host rootport s v rank) (member : p < N) {size myid : Nat}
    (here : (s.node p).pc = .readInfo)
    (call : s.world.Reads w' p ((s.node p).fd .pt 0) [.int size, .int myid]) :
    Inv N host rootport
      (s.put p { s.node p with size := size, myid := myid, pc := .readPorts .pt } w') v rank := by
  have fits := inv.fits p
  rw [here] at fits
  have called : v.called p root := by
    rw [inv.called_root, here]
    exact Nat.one_pos
  obtain ⟨more, next⟩ := inv.read_next called call
  have info : size = N ∧ myid = rank p := by
    rw [here] at next
    simpa [announcement] using next
  have small : rank p < N := by
    have first := inv.fits 0
    rw [inv.ranks.zero] at first
    exact first.small_of_announced (lt_of_lt_of_le (by simp) more)
  refine inv.attend member called ?_ rfl rfl rfl ⟨fits, small⟩ info ?_ ?_ ?_ ?_ call
  · rw [here]
    simp [Pc.alike_iff, Net.forall_iff]
  · intro q net known
    cases net <;> simp at known
  · intro q known
    simp at known
  · rw [here]
    rfl
  · rw [here]
    rfl

/-- More than the first two words come only when the master is through with its first loop. -/
theorem past_of_read (inv : Inv N host rootport s v rank) (called : v.called p root)
    {words : List Word} (call : s.world.Reads w' p ((s.node p).fd .pt 0) words)
    (more : 2 < (s.node p).pc.got N + words.length) :
    (∀ net, (s.node 0).pc.knownPorts N net = N) ∧ (s.node 0).pc.knownHosts N = N := by
  have first := inv.fits 0
  rw [inv.ranks.zero] at first
  have past := first.past_of_announced (lt_of_lt_of_le more (inv.read_next called call).1)
  have known : ∀ net, (s.node 0).pc.knownPorts N net = N ∧ (s.node 0).pc.knownHosts N = N :=
    fun net => first.known_of_past past
  exact ⟨fun net => (known net).1, (known .pt).2⟩

theorem readPorts (inv : Inv N host rootport s v rank) (member : p < N) {net : Net}
    {table : List Nat} (here : (s.node p).pc = .readPorts net)
    (length : table.length = (s.node p).size)
    (call : s.world.Reads w' p ((s.node p).fd .pt 0) (table.map .int)) :
    Inv N host rootport
      (s.put p
        { s.node p with
          ports := Function.update (s.node p).ports net (fun i => table.getD i 0)
          pc := .afterReadPorts net } w') v rank := by
  have fits := inv.fits p
  have info := inv.informed p
  rw [here] at fits info
  have info := info trivial
  rw [info.1] at length
  have called : v.called p root := by
    rw [inv.called_root, here]
    exact Nat.one_pos
  have more : 2 < (s.node p).pc.got N + (table.map Word.int).length := by
    rw [here, List.length_map, length]
    cases net <;> simp <;> omega
  have knownPorts := (inv.past_of_read called call more).1
  have next := (inv.read_next called call).2
  have same : table = (List.range N).map ((s.node 0).ports net) := by
    have script := announcement_ports N (s.node 0) (rank p) net
    rw [here] at next
    have equal := (List.prefix_of_prefix_length_le next script (by simp [length])).eq_of_length
      (by simp [length])
    apply List.map_injective_iff.mpr (fun _ _ same => Word.int.inj same)
    rw [equal, List.map_map]
    rfl
  have entries : ∀ q, rank q < N → table.getD (rank q) 0 = (s.node q).port net := by
    intro q small
    rw [← inv.ports 0 q net (by rw [knownPorts]; exact small), same]
    simp [small]
  refine inv.attend member called ?_ rfl rfl rfl ?_ info ?_ ?_ ?_ ?_ call
  · rw [here]
    cases net <;> simp [Pc.alike_iff, Net.forall_iff]
  · cases net with
    | pt => exact fits
    | bc => exact ⟨fits.1, fits.2, Nat.zero_le _⟩
  · intro q other known
    dsimp only
    by_cases here' : other = net
    · subst here'
      rw [Function.update_self]
      apply entries
      cases other <;> exact known
    · rw [Function.update_of_ne here']
      apply inv.ports p q other
      rw [here]
      cases net <;> cases other <;> simp_all
  · intro q known
    cases net <;> simp at known
  · rw [here]
    cases net <;> rfl
  · rw [here, List.length_map, length]
    cases net with
    | pt => simp
    | bc =>
        simp
        omega

theorem readHosts (inv : Inv N host rootport s v rank) (member : p < N) {i : Nat} {name : String}
    (here : (s.node p).pc = .readHosts i) (more : i < (s.node p).size)
    (call : s.world.Reads w' p ((s.node p).fd .pt 0) [.host name]) :
    Inv N host rootport
      (s.put p { (s.node p).setHost i name with pc := .readHosts (i + 1) } w') v rank := by
  have fits := inv.fits p
  have info := inv.informed p
  rw [here] at fits info
  have info := info trivial
  rw [info.1] at more
  have called : v.called p root := by
    rw [inv.called_root, here]
    exact Nat.one_pos
  have knownHosts := (inv.past_of_read called call (by rw [here]; simp; omega)).2
  have same : name = (s.node 0).hostnames i := by
    have next := (inv.read_next called call).2
    have script := announcement_hosts N (s.node 0) (rank p) more
    rw [here] at next
    have equal := (List.prefix_of_prefix_length_le next script (by simp)).eq_of_length (by simp)
    simpa using equal
  refine inv.attend member called ?_ rfl rfl rfl ⟨fits.1, fits.2.1, more⟩ info ?_ ?_ ?_ ?_ call
  · rw [here]
    simp [Pc.alike_iff, Net.forall_iff]
  · intro q other known
    apply inv.ports p q other
    rw [here]
    cases other <;> exact known
  · intro q known
    by_cases new : rank q = i
    · have entry := inv.hosts 0 q (by rw [knownHosts, new]; exact more)
      rw [new] at entry
      simp only [Node.setHost, new, Function.update_self, same, entry]
    · have old := inv.hosts p q (by rw [here]; exact lt_of_le_of_ne (Nat.lt_succ_iff.mp known) new)
      simp only [Node.setHost, Function.update_of_ne new, old]
  · rw [here]
    rfl
  · rw [here]
    rfl

/-! ## The ends of the loops -/

section

variable {pc' : Pc} {fds' : Net → Nat → Int} {links' : Pt2pt.NetdLinks}

theorem ports_level (inv : Inv N host rootport s v rank) (level : (s.node p).pc.Level N pc') :
    ∀ q net, rank q < pc'.knownPorts N net →
      (s.node p).ports net (rank q) = (s.node q).port net := by
  intro q net known
  rw [level.knownPorts] at known
  exact inv.ports p q net known

theorem hosts_level (inv : Inv N host rootport s v rank) (level : (s.node p).pc.Level N pc') :
    ∀ q, rank q < pc'.knownHosts N → (s.node p).hostnames (rank q) = host q := by
  intro q known
  rw [level.knownHosts] at known
  exact inv.hosts p q known

theorem talks_level (inv : Inv N host rootport s v rank) (level : (s.node p).pc.Level N pc')
    {q : Nat} (called : v.called q root) :
    Talks host N q (rank q) (s.world.up (q, v.line q root)) (s.world.down (q, v.line q root))
      ((s.put p { s.node p with pc := pc', fds := fds', links := links' } w').node q)
      ((s.put p { s.node p with pc := pc', fds := fds', links := links' } w').node 0) := by
  have talk := inv.talks q called
  have slave := inv.slave_of_called called
  have positive := inv.ranks.pos slave
  by_cases master : p = 0
  · subst master
    rw [State.put_self, State.put_other _ _ _ slave]
    refine ⟨?_, ?_, ?_, ?_⟩
    · rw [level.welcomed]
      exact talk.welcomed
    · rw [level.welcomed]
      exact talk.up
    · rw [level.announced _ positive]
      exact talk.got
    · rw [level.announced _ positive]
      exact talk.down
  · rw [State.put_other _ _ _ (Ne.symm master)]
    by_cases self : q = p
    · subst self
      rw [State.put_self]
      exact talk.alike rfl level.greeted level.got
    · rw [State.put_other _ _ _ self]
      exact talk

theorem silent (inv : Inv N host rootport s v rank) (member : p < N)
    (alike : (s.node p).pc.Alike N (rank p) pc') (level : (s.node p).pc.Level N pc')
    (fds : ∀ net i, i ≠ rank p → fds' net i = (s.node p).fds net i)
    (fits : pc'.Fits N p (rank p)) :
    Inv N host rootport (s.put p { s.node p with pc := pc', fds := fds' } s.world) v rank :=
  inv.stay member alike rfl rfl fds fits (fun known => inv.informed p (level.informed known))
    (inv.ports_level level) (inv.hosts_level level) rfl rfl (fun _ _ _ _ => ⟨rfl, rfl⟩)
    fun _ called => inv.talks_level level called

end

theorem readHostsEnd (inv : Inv N host rootport s v rank) (member : p < N) {i : Nat}
    (here : (s.node p).pc = .readHosts i) (last : ¬ i < (s.node p).size) :
    Inv N host rootport (s.put p { s.node p with pc := .conn .pt 1 } s.world) v rank := by
  have fits := inv.fits p
  have info := inv.informed p
  rw [here] at fits info
  rw [(info trivial).1] at last
  obtain ⟨slave, small, bound⟩ := fits
  have all : i = N := le_antisymm bound (not_lt.mp last)
  subst all
  refine inv.silent member ?_ ?_ (fun _ _ _ => rfl)
    ⟨slave, small, le_rfl, inv.ranks.pos slave⟩
  · rw [here]
    simp [Pc.alike_iff, Net.forall_iff]
  · rw [here]
    constructor <;> simp
    omega

theorem connEnd (inv : Inv N host rootport s v rank) (member : p < N) {net : Net} {i : Nat}
    (here : (s.node p).pc = .conn net i) (last : ¬ i < (s.node p).myid) :
    Inv N host rootport
      (s.put p { (s.node p).setFd net (s.node p).myid (-1) with pc := .accept net (i + 1) }
        s.world) v rank := by
  have fits := inv.fits p
  have info := inv.informed p
  rw [here] at fits info
  obtain ⟨-, myid⟩ := info trivial
  rw [myid] at last ⊢
  obtain ⟨slave, small, -, bound⟩ := fits
  have all : i = rank p := le_antisymm bound (not_lt.mp last)
  subst all
  refine inv.silent member ?_ ?_ ?_
    ⟨fun master => absurd master slave, Nat.lt_succ_self _, small⟩
  · rw [here]
    cases net <;> simp [Pc.alike_iff, Net.forall_iff]
  · rw [here]
    constructor <;> simp
  · intro other i different
    by_cases same : other = net
    · subst same
      simp [Node.setFd, different]
    · simp [Node.setFd, same]

theorem acceptEnd (inv : Inv N host rootport s v rank) (member : p < N) {net : Net} {i : Nat}
    (here : (s.node p).pc = .accept net i) (last : ¬ i < (s.node p).size) :
    Inv N host rootport (s.put p { s.node p with pc := .afterAccept net } s.world) v rank := by
  have fits := inv.fits p
  have info := inv.informed p
  rw [here] at fits info
  rw [(info trivial).1] at last
  obtain ⟨which, above, bound⟩ := fits
  have all : i = N := le_antisymm bound (not_lt.mp last)
  subst all
  refine inv.silent member ?_ ?_ (fun _ _ _ => rfl) ?_
  · rw [here]
    cases net <;> simp [Pc.alike_iff, Net.forall_iff]
    all_goals omega
  · rw [here]
    cases net <;> constructor <;> simp
  · cases net with
    | pt => exact ⟨fun master => by simpa using which master, above, Nat.zero_le _, Nat.zero_le _⟩
    | bc => exact above

/-! ## The master and a slave -/

theorem fits_master (inv : Inv N host rootport s v rank) : (s.node 0).pc.Fits N 0 0 := by
  have fits := inv.fits 0
  rwa [inv.ranks.zero] at fits

theorem info_master (inv : Inv N host rootport s v rank) (informed : (s.node 0).pc.informed) :
    (s.node 0).size = N ∧ (s.node 0).myid = 0 := by
  have info := inv.informed 0 informed
  rwa [inv.ranks.zero] at info

/-- The slave with the id `i`, as the master sees it. -/
theorem root_caller (inv : Inv N host rootport s v rank) {i : Nat} (positive : 1 ≤ i)
    (reached : i ≤ (s.node 0).pc.count N 0 .pt) :
    ∃ q, v.called q root ∧ rank q = i ∧ rank q < N ∧
      (s.node 0).fd .pt i = v.answer root q ∧
        s.world.file 0 (v.answer root q) = some (.accepted (q, v.line q root)) := by
  have shows := inv.shows 0
  have length := shows.heard .pt
  rw [inv.ranks.zero] at length
  have bound : i - 1 < (v.heard root).length := by
    rw [root, length]
    omega
  have entry := List.getElem?_eq_getElem bound
  generalize (v.heard root)[i - 1] = q at entry
  have member := List.mem_of_getElem? entry
  have id : rank q = i := by
    rw [inv.ranks.nth _ _ entry]
    omega
  obtain ⟨called, file⟩ := inv.kept.answered root q (.inl member)
  have answer := shows.answers .pt q member
  rw [id] at answer
  rw [inv.owner] at file
  refine ⟨q, called, id, (inv.ranks.lt_of_mem member).2, ?_, file⟩
  rw [Node.fd, answer]
  rfl

theorem tell (inv : Inv N host rootport s v rank) {i : Nat} (positive : 1 ≤ i)
    (reached : i ≤ (s.node 0).pc.count N 0 .pt) {pc' : Pc} {words : List Word}
    (alike : (s.node 0).pc.Alike N 0 pc') (fits : pc'.Fits N 0 0)
    (informed : (s.node 0).pc.informed)
    (knownPorts : ∀ net, pc'.knownPorts N net = (s.node 0).pc.knownPorts N net)
    (knownHosts : pc'.knownHosts N = (s.node 0).pc.knownHosts N)
    (welcomed : ∀ id, pc'.welcomed N id = (s.node 0).pc.welcomed N id)
    (told : pc'.announced N i = (s.node 0).pc.announced N i + words.length)
    (elsewhere : ∀ id, id ≠ i → pc'.announced N id = (s.node 0).pc.announced N id)
    (next : words <+: (announcement N (s.node 0) i).drop ((s.node 0).pc.announced N i))
    (call : s.world.Writes w' 0 ((s.node 0).fd .pt i) words) :
    Inv N host rootport (s.put 0 { s.node 0 with pc := pc' } w') v rank := by
  obtain ⟨q, called, id, small, answer, file⟩ := inv.root_caller positive reached
  rw [answer] at call
  have after := call.of_accepted file
  subst after
  refine inv.stay_master alike rfl rfl (fun _ _ _ => rfl) fits
    (fun _ => inv.info_master informed) ?_ ?_ rfl rfl ?_ ?_
  · intro r net known
    rw [knownPorts] at known
    exact inv.ports 0 r net known
  · intro r known
    rw [knownHosts] at known
    exact inv.hosts 0 r known
  · intro r a calledR other
    have different : ¬ (r = q ∧ a = root) := fun same => other same.2
    exact ⟨rfl, (inv.other_lines called [] _ r a calledR different).2⟩
  · intro r calledR
    have talk := inv.talks r calledR
    by_cases same : r = q
    · subst same
      rw [id] at talk ⊢
      refine ⟨?_, ?_, ?_, ?_⟩
      · rw [welcomed]
        exact talk.welcomed
      · rw [welcomed]
        exact talk.up
      · rw [told]
        exact talk.got.trans (Nat.le_add_right _ _)
      · simp only [World.setDown, Function.update_self, told]
        rw [talk.down]
        exact onTheWay_append talk.got next
    · have other : rank r ≠ i := by
        intro equal
        apply same
        exact (inv.ranks.inj small (id.trans equal.symm)).symm
      have streams := inv.other_lines called [] (s.world.down (q, v.line q root) ++ words) r root
        calledR fun both => same both.1
      refine ⟨?_, ?_, ?_, ?_⟩
      · rw [welcomed]
        exact talk.welcomed
      · rw [welcomed]
        exact talk.up
      · rw [elsewhere _ other]
        exact talk.got
      · rw [elsewhere _ other]
        exact streams.2.trans talk.down

theorem writeInfo (inv : Inv N host rootport s v rank) {i : Nat}
    (here : (s.node 0).pc = .writeInfo i)
    (call : s.world.Writes w' 0 ((s.node 0).fd .pt i) [.int (s.node 0).size, .int i]) :
    Inv N host rootport (s.put 0 { s.node 0 with pc := .acceptRoot (i + 1) } w') v rank := by
  have fits := inv.fits_master
  have info := inv.info_master
  rw [here] at fits info
  have size := (info trivial).1
  rw [size] at call
  obtain ⟨master, positive, small⟩ := fits
  refine inv.tell positive ?_ ?_ ⟨master, by omega, small⟩ ?_ ?_ ?_ ?_ ?_ ?_ ?_ call
  all_goals rw [here]
  all_goals simp [Pc.alike_iff, Net.forall_iff, announcement]
  all_goals intros
  all_goals grind

theorem writePorts (inv : Inv N host rootport s v rank) {i : Nat} {net : Net}
    (here : (s.node 0).pc = .writePorts i net) (more : i < (s.node 0).size)
    (call : s.world.Writes w' 0 ((s.node 0).fd .pt i)
      ((List.range (s.node 0).size).map fun j => .int ((s.node 0).ports net j))) :
    Inv N host rootport (s.put 0 { s.node 0 with pc := .afterWritePorts i net } w') v rank := by
  have fits := inv.fits_master
  have info := inv.info_master
  rw [here] at fits info
  have size := (info trivial).1
  rw [size] at call more
  have positive : 1 ≤ i := by cases net <;> exact fits.2.1
  refine inv.tell positive ?_ ?_ ?_ ?_ ?_ ?_ ?_ ?_ ?_ ?_ call
  case refine_3 =>
    cases net with
    | pt => exact ⟨fits.1, positive, more⟩
    | bc => exact ⟨fits.1, positive, more, Nat.zero_le _⟩
  case refine_10 =>
    have script := announcement_ports N (s.node 0) i net
    rw [here]
    cases net <;> simpa [more] using script
  all_goals rw [here]
  all_goals cases net <;> simp [Pc.alike_iff, Net.forall_iff]
  all_goals intros
  all_goals grind

theorem writeHosts (inv : Inv N host rootport s v rank) {i j : Nat}
    (here : (s.node 0).pc = .writeHosts i j) (more : j < (s.node 0).size)
    (call : s.world.Writes w' 0 ((s.node 0).fd .pt i) [.host ((s.node 0).hostnames j)]) :
    Inv N host rootport (s.put 0 { s.node 0 with pc := .writeHosts i (j + 1) } w') v rank := by
  have fits := inv.fits_master
  have info := inv.info_master
  rw [here] at fits info
  have size := (info trivial).1
  rw [size] at more
  obtain ⟨master, positive, small, bound⟩ := fits
  refine inv.tell positive ?_ ?_ ⟨master, positive, small, more⟩ ?_ ?_ ?_ ?_ ?_ ?_ ?_ call
  case refine_9 =>
    have script := announcement_hosts N (s.node 0) i more
    rw [here]
    simpa using script
  all_goals rw [here]
  all_goals simp [Pc.alike_iff, Net.forall_iff]
  all_goals intros
  all_goals grind

/-- What the master reads from a slave is what that had to say next. -/
theorem ask_next (inv : Inv N host rootport s v rank) {i : Nat} (positive : 1 ≤ i)
    (reached : i ≤ (s.node 0).pc.count N 0 .pt) {words : List Word}
    (call : s.world.Reads w' 0 ((s.node 0).fd .pt i) words) :
    ∃ q, rank q = i ∧ words <+: (greeting host q (s.node q)).drop
      ((s.node 0).pc.welcomed N i) := by
  obtain ⟨q, called, id, -, answer, file⟩ := inv.root_caller positive reached
  rw [answer] at call
  have talk := inv.talks q called
  obtain ⟨rest, split, -⟩ := call.of_accepted file
  rw [talk.up] at split
  refine ⟨q, id, ?_⟩
  rw [← id]
  exact (onTheWay_split talk.welcomed split).2.1

theorem ask (inv : Inv N host rootport s v rank) {i : Nat} (positive : 1 ≤ i)
    (reached : i ≤ (s.node 0).pc.count N 0 .pt) {words : List Word}
    (alike : (s.node 0).pc.Alike N 0 n.pc) (lisfd : n.lisfd = (s.node 0).lisfd)
    (port : n.port = (s.node 0).port) (fds : n.fds = (s.node 0).fds) (fits : n.pc.Fits N 0 0)
    (info : n.size = N ∧ n.myid = 0)
    (ports : ∀ q net, rank q < n.pc.knownPorts N net → n.ports net (rank q) = (s.node q).port net)
    (hosts : ∀ q, rank q < n.pc.knownHosts N → n.hostnames (rank q) = host q)
    (heard : n.pc.welcomed N i = (s.node 0).pc.welcomed N i + words.length)
    (elsewhere : ∀ id, id ≠ i → n.pc.welcomed N id = (s.node 0).pc.welcomed N id)
    (announced : ∀ id, n.pc.announced N id = (s.node 0).pc.announced N id)
    (early : ∀ id, (s.node 0).pc.announced N id ≤ 2)
    (call : s.world.Reads w' 0 ((s.node 0).fd .pt i) words) :
    Inv N host rootport (s.put 0 n w') v rank := by
  obtain ⟨q, called, id, small, answer, file⟩ := inv.root_caller positive reached
  rw [answer] at call
  obtain ⟨rest, split, after⟩ := call.of_accepted file
  have talkQ := inv.talks q called
  rw [talkQ.up] at split
  obtain ⟨more, -, left⟩ := onTheWay_split talkQ.welcomed split
  subst after
  refine inv.stay_master alike lisfd port (fun net i _ => by rw [fds]) fits (fun _ => info) ports
    hosts rfl rfl ?_ ?_
  · intro r a calledR other
    have different : ¬ (r = q ∧ a = root) := fun same => other same.2
    exact ⟨(inv.other_lines called _ [] r a calledR different).1, rfl⟩
  · intro r calledR
    have talk := inv.talks r calledR
    have down : s.world.down (r, v.line r root) =
        onTheWay (announcement N n (rank r)) (n.pc.announced N (rank r)) ((s.node r).pc.got N) := by
      rw [announced, talk.down]
      exact announcement_early N _ _ n (early _)
    have got : (s.node r).pc.got N ≤ n.pc.announced N (rank r) := by
      rw [announced]
      exact talk.got
    by_cases same : r = q
    · subst same
      refine ⟨?_, ?_, got, down⟩
      · rw [id, heard, ← id]
        exact more
      · simp only [World.setUp, Function.update_self]
        rw [left, id, heard]
    · have other : rank r ≠ i := by
        intro equal
        apply same
        exact (inv.ranks.inj small (id.trans equal.symm)).symm
      have streams := inv.other_lines called rest [] r root calledR fun both => same both.1
      refine ⟨?_, ?_, got, down⟩
      · rw [elsewhere _ other]
        exact talk.welcomed
      · rw [elsewhere _ other]
        exact streams.1.trans talk.up

theorem readPort (inv : Inv N host rootport s v rank) {i port : Nat} {net : Net}
    (here : (s.node 0).pc = .readPort i net)
    (call : s.world.Reads w' 0 ((s.node 0).fd .pt i) [.int port]) :
    Inv N host rootport
      (s.put 0 { (s.node 0).setPort net i port with pc := .afterReadPort i net } w') v rank := by
  have fits := inv.fits_master
  have info := inv.info_master
  rw [here] at fits info
  obtain ⟨master, positive, small⟩ := fits
  have reached : i ≤ (s.node 0).pc.count N 0 .pt := by
    rw [here]
    exact le_rfl
  have entry : ∃ q, rank q = i ∧ port = (s.node q).port net := by
    obtain ⟨q, id, next⟩ := inv.ask_next positive reached call
    rw [here] at next
    refine ⟨q, id, ?_⟩
    cases net <;> simpa [greeting] using next
  refine inv.ask positive reached ?_ rfl rfl rfl ?_ (info trivial) ?_ ?_ ?_ ?_ ?_ ?_ call
  case refine_3 =>
    intro q other known
    by_cases new : other = net ∧ rank q = i
    · obtain ⟨rfl, id⟩ := new
      obtain ⟨r, idR, same⟩ := entry
      have equal : q = r := inv.ranks.inj (by omega) (id.trans idR.symm)
      simp only [Node.setPort, equal, idR, Function.update_self, same]
    · have old := inv.ports 0 q other
      rw [here] at old
      have unchanged : ((s.node 0).setPort net i port).ports other (rank q) =
          (s.node 0).ports other (rank q) := by
        by_cases here' : other = net
        · subst here'
          have different : rank q ≠ i := fun id => new ⟨rfl, id⟩
          simp [Node.setPort, different]
        · simp [Node.setPort, here']
      refine unchanged.trans (old ?_)
      cases net <;> cases other <;> simp at known new ⊢ <;> omega
  case refine_4 =>
    intro q known
    have old := inv.hosts 0 q
    rw [here] at old
    cases net <;> exact old known
  case refine_2 => cases net <;> exact ⟨master, positive, small⟩
  all_goals rw [here]
  all_goals cases net <;> simp [Pc.alike_iff, Net.forall_iff]
  all_goals intros
  all_goals grind

theorem readHost (inv : Inv N host rootport s v rank) {i : Nat} {name : String}
    (here : (s.node 0).pc = .readHost i)
    (call : s.world.Reads w' 0 ((s.node 0).fd .pt i) [.host name]) :
    Inv N host rootport
      (s.put 0 { (s.node 0).setHost i name with pc := .writeInfo i } w') v rank := by
  have fits := inv.fits_master
  have info := inv.info_master
  rw [here] at fits info
  obtain ⟨master, positive, small⟩ := fits
  have reached : i ≤ (s.node 0).pc.count N 0 .pt := by
    rw [here]
    exact le_rfl
  have entry : ∃ q, rank q = i ∧ name = host q := by
    obtain ⟨q, id, next⟩ := inv.ask_next positive reached call
    rw [here] at next
    exact ⟨q, id, by simpa [greeting] using next⟩
  refine inv.ask positive reached ?_ rfl rfl rfl ?_ (info trivial) ?_ ?_ ?_ ?_ ?_ ?_ call
  case refine_3 =>
    intro q other known
    have old := inv.ports 0 q other
    rw [here] at old
    cases other <;> exact old known
  case refine_4 =>
    intro q known
    by_cases new : rank q = i
    · obtain ⟨r, idR, same⟩ := entry
      have equal : q = r := inv.ranks.inj (by omega) (new.trans idR.symm)
      simp only [Node.setHost, equal, idR, Function.update_self, same]
    · have old := inv.hosts 0 q
      rw [here] at old
      simp only [Node.setHost, Function.update_of_ne new]
      exact old (lt_of_le_of_ne (Nat.lt_succ_iff.mp known) new)
  case refine_2 => exact ⟨master, positive, small⟩
  all_goals rw [here]
  all_goals simp [Pc.alike_iff, Net.forall_iff]
  all_goals intros
  all_goals grind

theorem acceptRootEnd (inv : Inv N host rootport s v rank) {i : Nat}
    (here : (s.node 0).pc = .acceptRoot i) (last : ¬ i < (s.node 0).size) :
    Inv N host rootport (s.put 0 { s.node 0 with pc := .writePorts 1 .pt } s.world) v rank := by
  have fits := inv.fits_master
  have info := inv.info_master
  rw [here] at fits info
  rw [(info trivial).1] at last
  obtain ⟨master, positive, bound⟩ := fits
  have all : i = N := le_antisymm bound (not_lt.mp last)
  subst all
  refine inv.silent (by omega) ?_ ?_ (fun _ _ _ => rfl) ⟨rfl, le_rfl, positive⟩
  · rw [here]
    simp [Pc.alike_iff, Net.forall_iff]
  · rw [here]
    constructor <;> simp
    intros
    grind

theorem writeHostsEnd (inv : Inv N host rootport s v rank) {i j : Nat}
    (here : (s.node 0).pc = .writeHosts i j) (last : ¬ j < (s.node 0).size) :
    Inv N host rootport (s.put 0 { s.node 0 with pc := .writePorts (i + 1) .pt } s.world) v
      rank := by
  have fits := inv.fits_master
  have info := inv.info_master
  rw [here] at fits info
  rw [(info trivial).1] at last
  obtain ⟨master, positive, small, bound⟩ := fits
  have all : j = N := le_antisymm bound (not_lt.mp last)
  subst all
  refine inv.silent (by omega) ?_ ?_ (fun _ _ _ => rfl) ⟨rfl, by omega, small⟩
  · rw [here]
    simp [Pc.alike_iff, Net.forall_iff]
  · rw [here]
    constructor <;> simp
    intros
    grind

theorem writePortsEnd (inv : Inv N host rootport s v rank) {i : Nat}
    (here : (s.node 0).pc = .writePorts i .pt) (last : ¬ i < (s.node 0).size) :
    Inv N host rootport (s.put 0 { s.node 0 with pc := .accept .bc 1 } s.world) v rank := by
  have fits := inv.fits_master
  have info := inv.info_master
  rw [here] at fits info
  rw [(info trivial).1] at last
  obtain ⟨master, positive, bound⟩ := fits
  have all : i = N := le_antisymm bound (not_lt.mp last)
  subst all
  refine inv.silent (by omega) ?_ ?_ (fun _ _ _ => rfl) ⟨fun _ => rfl, ?_, positive⟩
  · rw [here, inv.ranks.zero]
    simp [Pc.alike_iff, Net.forall_iff]
  · rw [here]
    constructor <;> simp
    intros
    grind
  · rw [inv.ranks.zero]
    exact Nat.one_pos

end Inv

end Tmpi.Netd.Bootstrap
