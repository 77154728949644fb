import Tmpi.Netd.Callers

/-! `netd_start` and `netd_initEnv` connect every two nodes twice, and no node waits for ever. -/

namespace Tmpi.Netd.Bootstrap

open Sockets

variable {N : Nat} {host : Nat → String} {rootlisfd rootport : Nat} {s s' : State} {v : Board}
  {rank : Nat → Nat}

/-! ## Runs -/

def bootBoard (host : Nat → String) (rootlisfd rootport : Nat) : Board where
  owner := Prod.snd
  lis _ := rootlisfd
  addr _ := (host 0, rootport)
  opened a := a = root
  closed _ := False
  called _ _ := False
  line _ _ := 0
  answer _ _ := 0
  heard _ := []
  held _ := none

theorem Inv.boot (some : 0 < N) (positive : 0 < rootport) :
    Inv N host rootport (boot N host rootlisfd rootport) (bootBoard host rootlisfd rootport)
      (fun p => if p = 0 then 0 else N) := by
  refine ⟨⟨?_, ?_, ?_, ?_, ?_, ?_, ?_⟩, rfl, ?_, ?_, ?_, ⟨rfl, ?_, ?_, some⟩, ?_, rfl, ?_, ?_, ?_, ?_⟩
  · rintro a b rfl rfl -
    rfl
  · rintro a rfl -
    simp [Bootstrap.boot, bootBoard, root]
  · rintro p a ⟨⟩
  · rintro p a ⟨⟩
  · rintro a p (heard | held)
    · cases heard
    · cases held
  · intro a
    exact List.nodup_nil
  · rintro a rfl -
    refine ⟨[], by simp [Bootstrap.boot, bootBoard], List.nodup_nil, ?_⟩
    intro c
    constructor
    · rintro ⟨⟩
    · rintro ⟨p, called, -⟩
      exact called.elim
  · intro p
    by_cases master : p = 0
    · subst master
      refine ⟨?_, ?_, ?_, ?_, ?_, ?_, ?_, ?_, ?_⟩
      · intro net
        simp [Bootstrap.boot, bootBoard, root]
      · intro net
        simp [Bootstrap.boot, bootBoard]
      · intro net _
        simp [Bootstrap.boot, bootBoard]
      · intro net _
        simp [Bootstrap.boot, bootBoard, positive]
      · intro net
        cases net <;> rfl
      · intro net
        rfl
      · rintro ⟨net, q⟩
        cases net <;> simp [Bootstrap.boot, bootBoard]
      · rintro a ⟨⟩
      · rintro net q ⟨⟩
    · refine ⟨?_, ?_, ?_, ?_, ?_, ?_, ?_, ?_, ?_⟩
      · intro net
        simp [Bootstrap.boot, bootBoard, root, master]
      · intro net
        simp [Bootstrap.boot, bootBoard, master]
      · intro net opened
        simp [Bootstrap.boot, master] at opened
      · intro net opened
        simp [Bootstrap.boot, master] at opened
      · intro net
        cases net <;> simp [Bootstrap.boot, bootBoard, master]
      · intro net
        simp [Bootstrap.boot, bootBoard, master]
      · rintro ⟨net, q⟩
        cases net <;> simp [Bootstrap.boot, bootBoard, master]
      · rintro a ⟨⟩
      · rintro net q ⟨⟩
  · intro p
    by_cases master : p = 0 <;> simp [Bootstrap.boot, master]
  · intro p outside
    have slave : p ≠ 0 := by omega
    simp [Bootstrap.boot, slave]
  · intro i p entry
    cases entry
  · intro p slave _
    exact if_neg slave
  · intro p
    by_cases master : p = 0 <;> simp [Bootstrap.boot, master]
  · intro p q net known
    by_cases master : p = 0 <;> cases net <;> simp [Bootstrap.boot, master] at known
  · intro p q known
    by_cases master : p = 0 <;> simp [Bootstrap.boot, master] at known
  · rintro p ⟨⟩
  · rintro p a ⟨⟩

theorem Inv.step (inv : Inv N host rootport s v rank) (step : Step N host rootport s s') :
    ∃ v' rank', Inv N host rootport s' v' rank' := by
  obtain ⟨p, member, act⟩ := step
  have fits := inv.fits p
  cases act with
  | connRoot fd here positive call =>
      obtain ⟨v', inv'⟩ := inv.connRoot member here call
      exact ⟨v', rank, inv'⟩
  | listen net fd port here positive call =>
      obtain ⟨v', inv'⟩ := inv.listen member here positive call
      exact ⟨v', rank, inv'⟩
  | writePort net here call => exact ⟨v, rank, inv.writePort member here call⟩
  | writeHost here call => exact ⟨v, rank, inv.writeHost member here call⟩
  | readInfo size myid here call => exact ⟨v, rank, inv.readInfo member here call⟩
  | readPorts net table here length call =>
      exact ⟨v, rank, inv.readPorts member here length call⟩
  | readHosts i name here more call => exact ⟨v, rank, inv.readHosts member here more call⟩
  | readHostsEnd i here last => exact ⟨v, rank, inv.readHostsEnd member here last⟩
  | conn net i fd here more positive call =>
      obtain ⟨v', inv'⟩ := inv.conn member here more call
      exact ⟨v', rank, inv'⟩
  | writeId net i here call => exact ⟨v, rank, inv.writeId member here call⟩
  | connEnd net i here last => exact ⟨v, rank, inv.connEnd member here last⟩
  | listenGroup fd port here positive call =>
      rw [here] at fits
      obtain rfl : p = 0 := fits
      obtain ⟨v', inv'⟩ := inv.listenGroup member here positive call
      exact ⟨v', rank, inv'⟩
  | acceptRoot i cfd c here more call =>
      rw [here] at fits
      obtain rfl : p = 0 := fits.1
      exact inv.acceptRoot here more call
  | readPort i port net here call =>
      rw [here] at fits
      obtain rfl : p = 0 := fits.1
      exact ⟨v, rank, inv.readPort here call⟩
  | readHost i name here call =>
      rw [here] at fits
      obtain rfl : p = 0 := fits.1
      exact ⟨v, rank, inv.readHost here call⟩
  | writeInfo i here call =>
      rw [here] at fits
      obtain rfl : p = 0 := fits.1
      exact ⟨v, rank, inv.writeInfo here call⟩
  | acceptRootEnd i here last =>
      rw [here] at fits
      obtain rfl : p = 0 := fits.1
      exact ⟨v, rank, inv.acceptRootEnd here last⟩
  | writePorts i net here more call =>
      rw [here] at fits
      obtain rfl : p = 0 := by cases net <;> exact fits.1
      exact ⟨v, rank, inv.writePorts here more call⟩
  | writeHosts i j here more call =>
      rw [here] at fits
      obtain rfl : p = 0 := fits.1
      exact ⟨v, rank, inv.writeHosts here more call⟩
  | writeHostsEnd i j here last =>
      rw [here] at fits
      obtain rfl : p = 0 := fits.1
      exact ⟨v, rank, inv.writeHostsEnd here last⟩
  | writePortsEnd i here last =>
      rw [here] at fits
      obtain rfl : p = 0 := fits.1
      exact ⟨v, rank, inv.writePortsEnd here last⟩
  | accept net i newfd c here more call =>
      obtain ⟨v', inv'⟩ := inv.accept member here more call
      exact ⟨v', rank, inv'⟩
  | readId net i newfd newid here call =>
      obtain ⟨v', inv'⟩ := inv.readId member here call
      exact ⟨v', rank, inv'⟩
  | acceptEnd net i here last => exact ⟨v, rank, inv.acceptEnd member here last⟩
  | tables here close close' =>
      obtain ⟨v', inv'⟩ := inv.tables member here close close'
      exact ⟨v', rank, inv'⟩

theorem reaches_inv (some : 0 < N) (positive : 0 < rootport)
    (run : Reaches N host rootport (boot N host rootlisfd rootport) s) :
    ∃ v rank, Inv N host rootport s v rank := by
  induction run with
  | refl => exact ⟨_, _, Inv.boot some positive⟩
  | tail run step ih =>
      obtain ⟨v, rank, inv⟩ := ih
      exact inv.step step

theorem step_small (small : s.world.Small) (step : Step N host rootport s s') :
    s'.world.Small := by
  obtain ⟨p, -, act⟩ := step
  cases act with
  | connRoot _ _ _ call => exact small.connects call
  | conn _ _ _ _ _ _ call => exact small.connects call
  | listen _ _ _ _ _ call => exact small.listens call
  | listenGroup _ _ _ _ call => exact small.listens call
  | writePort _ _ call => exact small.writes call
  | writeHost _ call => exact small.writes call
  | writeId _ _ _ call => exact small.writes call
  | writeInfo _ _ call => exact small.writes call
  | writePorts _ _ _ _ call => exact small.writes call
  | writeHosts _ _ _ _ call => exact small.writes call
  | readInfo _ _ _ call => exact small.reads call
  | readPorts _ _ _ _ call => exact small.reads call
  | readHosts _ _ _ _ call => exact small.reads call
  | readPort _ _ _ _ call => exact small.reads call
  | readHost _ _ _ call => exact small.reads call
  | readId _ _ _ _ _ call => exact small.reads call
  | acceptRoot _ _ _ _ _ call => exact small.accepts call
  | accept _ _ _ _ _ _ call => exact small.accepts call
  | tables _ close close' => exact (small.closes close).closes close'
  | readHostsEnd | connEnd | acceptRootEnd | writeHostsEnd | writePortsEnd | acceptEnd => exact small

theorem reaches_small (run : Reaches N host rootport (boot N host rootlisfd rootport) s) :
    s.world.Small := by
  induction run with
  | refl =>
      have empty : (⟨fun _ _ => none, fun _ => none, fun _ => [], fun _ => []⟩ :
          World Addr Word).Small := ⟨fun _ => by simp, by simp⟩
      exact ⟨World.Small.setFile empty.files _ _ _, World.Small.queue empty.queues _ _⟩
  | tail _ step ih => exact step_small ih step

/-! ## No node waits for ever -/

/-- A place where a process may have to wait. -/
def Pc.Waits (N : Nat) : Pc → Prop
  | readInfo => True
  | readPorts _ => True
  | readHosts i => i < N
  | acceptRoot i => i < N
  | readPort _ _ => True
  | readHost _ => True
  | accept _ i => i < N
  | readId _ _ _ => True
  | done => True
  | _ => False

namespace Inv

variable {p : Nat}

theorem write_root (inv : Inv N host rootport s v rank) (called : v.called p root)
    (words : List Word) : ∃ w', s.world.Writes w' p ((s.node p).fd .pt 0) words := by
  rw [inv.root_line called]
  exact ⟨_, .inl ⟨_, inv.kept.requested p root called, rfl⟩⟩

theorem write_slave (inv : Inv N host rootport s v rank) {i : Nat} (positive : 1 ≤ i)
    (reached : i ≤ (s.node 0).pc.count N 0 .pt) (words : List Word) :
    ∃ w', s.world.Writes w' 0 ((s.node 0).fd .pt i) words := by
  obtain ⟨q, -, -, -, answer, file⟩ := inv.root_caller positive reached
  rw [answer]
  exact ⟨_, .inr ⟨_, file, rfl⟩⟩

theorem can_connect (inv : Inv N host rootport s v rank) {a : Socket} {fd : Nat}
    (free : s.world.file p fd = none) (opened : v.opened a) (live : ¬ v.closed a) :
    ∃ w', s.world.Connects w' p fd (v.addr a) := by
  obtain ⟨l, queue, -⟩ := inv.kept.waiting a opened live
  exact ⟨_, free, [], l, queue, rfl⟩

theorem can_close (inv : Inv N host rootport s v rank) (here : (s.node p).pc = .tables)
    (net : Net) : s.world.file p ((s.node p).lisfd net) = some (.listening (v.addr (net, p))) := by
  have shows := inv.shows p
  have opened : (s.node p).pc.opened net := by
    rw [here]
    trivial
  have live : ¬ v.closed (net, p) := by
    rw [shows.closed, here]
    simp
  have file := inv.kept.socket (net, p) ((shows.opened net).mpr opened) live
  rwa [inv.owner, shows.lis net opened] at file

theorem lisfd_apart (inv : Inv N host rootport s v rank) (here : (s.node p).pc = .tables) :
    (s.node p).lisfd .bc ≠ (s.node p).lisfd .pt := by
  intro same
  have bc := inv.can_close here .bc
  rw [same, inv.can_close here .pt] at bc
  have addr : v.addr (.pt, p) = v.addr (.bc, p) := File.listening.inj (Option.some.inj bc)
  have opened : ∀ net, v.opened (net, p) := by
    intro net
    rw [(inv.shows p).opened, here]
    trivial
  cases inv.kept.apart _ _ (opened .pt) (opened .bc) addr

/-- Wherever a process does not have to wait it can go on. -/
theorem goes_on (inv : Inv N host rootport s v rank) (small : s.world.Small)
    (positive : 0 < rootport) (member : p < N) (busy : ¬ (s.node p).pc.Waits N) :
    ∃ n w', Act host rootport p (s.node p) s.world n w' := by
  have fits := inv.fits p
  have info := inv.informed p
  obtain ⟨fd, free⟩ := small.exists_fd p
  have different : Function.Injective fun n => (host p, n + 1) := by
    intro m n same
    simpa using same
  obtain ⟨port, unbound⟩ := small.exists_addr different
  cases here : (s.node p).pc with
  | connRoot =>
      rw [here] at fits
      have fresh : ¬ v.called p root := by
        rw [inv.called_root, here]
        simp
      obtain ⟨opened, live, addr⟩ := inv.root_ready member fits fresh
      obtain ⟨w', call⟩ := inv.can_connect free opened live
      rw [addr] at call
      exact ⟨_, _, .connRoot fd here positive call⟩
  | listen net =>
      exact ⟨_, _, .listen net fd (port + 1) here (Nat.succ_pos _) ⟨free, unbound, rfl⟩⟩
  | listenGroup =>
      exact ⟨_, _, .listenGroup fd (port + 1) here (Nat.succ_pos _) ⟨free, unbound, rfl⟩⟩
  | writePort net =>
      have called : v.called p root := by
        rw [inv.called_root, here]
        exact Nat.one_pos
      obtain ⟨w', call⟩ := inv.write_root called [.int ((s.node p).port net)]
      exact ⟨_, _, .writePort net here call⟩
  | writeHost =>
      have called : v.called p root := by
        rw [inv.called_root, here]
        exact Nat.one_pos
      obtain ⟨w', call⟩ := inv.write_root called [.host (host p)]
      exact ⟨_, _, .writeHost here call⟩
  | readHosts i =>
      rw [here] at busy info
      exact ⟨_, _, .readHostsEnd i here (by rw [(info trivial).1]; exact busy)⟩
  | conn net i =>
      rw [here] at fits info
      have myid := (info trivial).2
      by_cases more : i < (s.node p).myid
      · rw [myid] at more
        obtain ⟨slave, below, begun, -⟩ := fits
        obtain ⟨q, id, -, -, opened⟩ := inv.target slave below begun more (by rw [here]; rfl)
        have fresh : ¬ v.called p (net, q) := by
          rw [(inv.shows p).called, here, id]
          cases net <;> simp
        have live := inv.live_of_calling below (a := (net, q)) (by rw [id]; exact more) fresh
        obtain ⟨addr, open'⟩ := inv.target_addr (p := p) opened
          (by rw [here, id]; exact (by simpa using more.trans below))
          (by rw [here, id]; exact more.trans below)
        rw [id] at addr open'
        obtain ⟨w', call⟩ := inv.can_connect free opened live
        rw [addr] at call
        exact ⟨_, _, .conn net i fd here (by rw [myid]; exact more) open' call⟩
      · exact ⟨_, _, .connEnd net i here more⟩
  | writeId net i =>
      rw [here] at fits
      obtain ⟨slave, below, begun, more⟩ := fits
      obtain ⟨q, id, -, -, opened⟩ := inv.target slave below begun more (by rw [here]; rfl)
      have called : v.called p (net, q) := by
        rw [(inv.shows p).called, here, id]
        cases net <;> simp
      have line : (s.node p).fd net i = v.line p (net, q) := by
        have entry := (inv.shows p).lines (net, q) called
        rw [id] at entry
        rw [Node.fd, entry]
        rfl
      exact ⟨_, _, .writeId net i here (.inl ⟨_, by
        rw [line]; exact inv.kept.requested p (net, q) called, rfl⟩)⟩
  | acceptRoot i =>
      rw [here] at busy info
      exact ⟨_, _, .acceptRootEnd i here (by rw [(info trivial).1]; exact busy)⟩
  | writeInfo i =>
      rw [here] at fits
      obtain ⟨rfl, one, -⟩ := fits
      obtain ⟨w', call⟩ := inv.write_slave one (by rw [here]; exact le_rfl)
        [.int (s.node 0).size, .int i]
      exact ⟨_, _, .writeInfo i here call⟩
  | writePorts i net =>
      rw [here] at fits info
      by_cases more : i < (s.node p).size
      · obtain ⟨rfl, one⟩ : p = 0 ∧ 1 ≤ i := by
          cases net
          · exact ⟨fits.1, fits.2.1⟩
          · exact ⟨fits.1, fits.2.1⟩
        rw [(info trivial).1] at more
        obtain ⟨w', call⟩ := inv.write_slave one (by rw [here]; exact Nat.le_pred_of_lt more)
          ((List.range (s.node 0).size).map fun j => .int ((s.node 0).ports net j))
        exact ⟨_, _, .writePorts i net here (by rw [(info trivial).1]; exact more) call⟩
      · cases net with
        | pt => exact ⟨_, _, .writePortsEnd i here more⟩
        | bc =>
            rw [(info trivial).1] at more
            exact absurd fits.2.2 more
  | writeHosts i j =>
      rw [here] at fits info
      by_cases more : j < (s.node p).size
      · obtain ⟨rfl, one, below, -⟩ := fits
        obtain ⟨w', call⟩ := inv.write_slave one (by rw [here]; exact Nat.le_pred_of_lt below)
          [.host ((s.node 0).hostnames j)]
        exact ⟨_, _, .writeHosts i j here more call⟩
      · exact ⟨_, _, .writeHostsEnd i j here more⟩
  | accept net i =>
      rw [here] at busy info
      exact ⟨_, _, .acceptEnd net i here (by rw [(info trivial).1]; exact busy)⟩
  | tables =>
      have pt := inv.can_close here .pt
      have bc := inv.can_close here .bc
      exact ⟨_, _, .tables here ⟨_, pt, rfl⟩ ⟨v.addr (.bc, p),
        (setFile_other none fun same => inv.lisfd_apart here same.2).trans bc, rfl⟩⟩
  | readInfo | readPorts | readPort | readHost | readId | done =>
      rw [here] at busy
      exact absurd trivial busy

end Inv

end Tmpi.Netd.Bootstrap
