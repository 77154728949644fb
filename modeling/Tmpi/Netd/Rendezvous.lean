import Tmpi.Netd.Mesh

/-! Until every node has its tables, one of them can go on. -/

namespace Tmpi.Netd.Bootstrap

open Sockets

variable {N : Nat} {host : Nat → String} {rootport : Nat} {s : State} {v : Board}
  {rank : Nat → Nat} {p : Nat}

/-- A list that is shorter than an interval leaves something of it out. -/
theorem exists_missing {l : List Nat} {low high : Nat} (short : l.length < high - 1 - low) :
    ∃ x, low < x ∧ x < high ∧ x ∉ l := by
  by_contra none
  have subset : Finset.Ioo low high ⊆ l.toFinset := by
    intro x inside
    obtain ⟨above, below⟩ := Finset.mem_Ioo.mp inside
    by_contra outside
    exact none ⟨x, above, below, fun member => outside (List.mem_toFinset.mpr member)⟩
  have most : high - low - 1 ≤ l.length := by
    calc
      high - low - 1 = (Finset.Ioo low high).card := (Nat.card_Ioo low high).symm
      _ ≤ l.toFinset.card := Finset.card_le_card subset
      _ ≤ l.length := List.toFinset_card_le l
  omega

/-! ## Slaves that wait -/

namespace Pc

variable {r : Nat} {pc : Pc}

theorem Fits.called_of_waits (fits : pc.Fits N p r) (slave : p ≠ 0) (positive : 1 ≤ r)
    (waits : pc.Waits N) : 3 ≤ pc.greeted ∧ 0 < pc.asked r .pt := by
  cases pc <;> simp_all [Fits, Waits, greeted, asked] <;> omega

/-- The process knows all there is to know, and is not about to call. -/
def Late : Pc → Prop
  | accept _ _ => True
  | readId _ _ _ => True
  | done => True
  | _ => False

theorem Fits.late_or (fits : pc.Fits N p r) (slave : p ≠ 0) (waits : pc.Waits N) :
    pc = .readInfo ∨ (∃ net, pc = .readPorts net) ∨ (∃ i, pc = .readHosts i ∧ i < N) ∨ pc.Late := by
  cases pc <;> simp_all [Fits, Waits, Late]

theorem Fits.late_or_asks (fits : pc.Fits N 0 r) (waits : pc.Waits N) :
    (∃ i, pc = .acceptRoot i ∧ i < N) ∨ (∃ i net, pc = .readPort i net) ∨
      (∃ i, pc = .readHost i) ∨ pc.Late := by
  cases pc <;> simp_all [Fits, Waits, Late]

theorem Late.past (late : pc.Late) : pc.past := by
  cases pc <;> simp_all [Late, Pc.past]

theorem Late.told_eq (late : pc.Late) (net : Net) : pc.told r net = pc.asked r net := by
  cases pc <;> simp_all [Late]

theorem Late.asked_pt (late : pc.Late) : pc.asked r .pt = r := by
  cases pc <;> simp_all [Late]

theorem Late.announced (late : pc.Late) {id : Nat} (small : id < N) :
    pc.announced N id = 2 + 3 * N := by
  cases pc <;> simp_all [Late]

end Pc

namespace Inv

/-! ## What is there to be taken -/

theorem can_accept (inv : Inv N host rootport s v rank) (small : s.world.Small) {a : Socket}
    (opened : v.opened a) (live : ¬ v.closed a) (called : v.called p a) (untaken : ¬ v.Taken a p) :
    ∃ fd c w', s.world.Accepts w' a.2 ((s.node a.2).lisfd a.1) fd c := by
  obtain ⟨fd, free⟩ := small.exists_fd a.2
  obtain ⟨l, queue, -, members⟩ := inv.kept.waiting a opened live
  have listening := inv.kept.socket a opened live
  rw [inv.owner, (inv.shows a.2).lis a.1 (((inv.shows a.2).opened a.1).mp opened)] at listening
  have waiting := (members _).mpr ⟨p, called, untaken, rfl⟩
  cases l with
  | nil => cases waiting
  | cons c rest => exact ⟨fd, c, _, free, v.addr a, rest, listening, queue, rfl⟩

theorem can_hear (inv : Inv N host rootport s v rank) (called : v.called p root)
    {words : List Word}
    (more : (s.node p).pc.got N + words.length ≤ (s.node 0).pc.announced N (rank p))
    (next : words <+: (announcement N (s.node 0) (rank p)).drop ((s.node p).pc.got N)) :
    ∃ w', s.world.Reads w' p ((s.node p).fd .pt 0) words := by
  obtain ⟨rest, split⟩ := onTheWay_next more next
  rw [inv.root_line called]
  exact ⟨_, .inl ⟨_, rest, inv.kept.requested p root called, by rw [(inv.talks p called).down, split],
    rfl⟩⟩

theorem can_ask (inv : Inv N host rootport s v rank) {i : Nat} (positive : 1 ≤ i)
    (reached : i ≤ (s.node 0).pc.count N 0 .pt) :
    ∃ q, v.called q root ∧ ∀ words,
      (s.node 0).pc.welcomed N i + words.length ≤ (s.node q).pc.greeted →
        words <+: (greeting host q (s.node q)).drop ((s.node 0).pc.welcomed N i) →
          ∃ w', s.world.Reads w' 0 ((s.node 0).fd .pt i) words := by
  obtain ⟨q, called, rfl, -, answer, file⟩ := inv.root_caller positive reached
  refine ⟨q, called, ?_⟩
  intro words more next
  obtain ⟨rest, split⟩ := onTheWay_next more next
  rw [answer]
  exact ⟨_, .inr ⟨_, rest, file, by rw [(inv.talks q called).up, split], rfl⟩⟩

theorem can_meet (inv : Inv N host rootport s v rank) {net : Net} {i newfd : Nat}
    (here : (s.node p).pc = .readId net i newfd) :
    ∃ q, v.called q (net, p) ∧ ((s.node q).pc.Late →
      ∃ w', s.world.Reads w' p newfd [.int (rank q)]) := by
  obtain ⟨other, q, -, -, called, unheard, file⟩ := inv.holder here
  refine ⟨q, called, ?_⟩
  intro late
  have up := (inv.introduces q (net, p) called other).2.1
  have told : rank p < (s.node q).pc.told (rank q) net := by
    rw [late.told_eq]
    exact ((inv.shows q).called (net, p)).mp called
  rw [if_pos ⟨told, unheard⟩] at up
  exact ⟨_, .inr ⟨_, [], file, up, rfl⟩⟩

/-! ## A state that nobody can leave -/

section

variable (inv : Inv N host rootport s v rank) (small : s.world.Small)
  (waits : ∀ p, p < N → (s.node p).pc.Waits N) (stuck : ∀ s', ¬ Step N host rootport s s')

include inv waits in
theorem called_of_waits {q : Nat} (member : q < N) (slave : q ≠ 0) :
    3 ≤ (s.node q).pc.greeted ∧ v.called q root := by
  have waiting := (inv.fits q).called_of_waits slave (inv.ranks.pos slave) (waits q member)
  exact ⟨waiting.1, inv.called_root.mpr waiting.2⟩

include inv small waits stuck

theorem master_late : (s.node 0).pc.Late := by
  have member : 0 < N := lt_of_le_of_lt (Nat.zero_le _) inv.ranks.small
  have fits := inv.fits_master
  rcases fits.late_or_asks (waits 0 member) with ⟨i, here, more⟩ | ⟨i, net, here⟩ | ⟨i, here⟩ | late
  · exfalso
    have length := (inv.shows 0).heard .pt
    rw [here] at fits length
    rw [Pc.count] at length
    have few : (v.heard root).length < N - 1 - 0 := by
      have one := fits.2.1
      rw [root, length]
      omega
    obtain ⟨q, positive, below, unheard⟩ := exists_missing few
    have slave := Nat.pos_iff_ne_zero.mp positive
    have called := (inv.called_of_waits waits below slave).2
    have opened : v.opened root := inv.kept.reached q root called
    have live : ¬ v.closed root := by
      rw [root, (inv.shows 0).closed, here]
      simp
    have untaken : ¬ v.Taken root q := by
      rw [Switchboard.Taken, inv.held_root]
      simpa using unheard
    obtain ⟨fd, c, w', call⟩ := inv.can_accept small opened live called untaken
    have size := (inv.info_master (by rw [here]; trivial)).1
    exact stuck _ ⟨0, member, .acceptRoot i fd c here (by rw [size]; exact more) call⟩
  · exfalso
    rw [here] at fits
    obtain ⟨q, called, reads⟩ := inv.can_ask fits.2.1 (by rw [here]; exact le_rfl)
    have greeted := (inv.called_of_waits waits (inv.member_of_called called)
      (inv.slave_of_called called)).1
    have early : (Pc.readPort i net).welcomed N i ≤ 1 := by
      cases net <;> simp
    obtain ⟨w', call⟩ := reads [.int ((s.node q).port net)]
      (by rw [here, List.length_singleton]; omega)
      (by rw [here]; cases net <;> simp [greeting])
    exact stuck _ ⟨0, member, .readPort i _ net here call⟩
  · exfalso
    rw [here] at fits
    obtain ⟨q, called, reads⟩ := inv.can_ask fits.2.1 (by rw [here]; exact le_rfl)
    have greeted := (inv.called_of_waits waits (inv.member_of_called called)
      (inv.slave_of_called called)).1
    have two : (Pc.readHost i).welcomed N i = 2 := by
      simp
    obtain ⟨w', call⟩ := reads [.host (host q)]
      (by rw [here, two, List.length_singleton]; exact greeted)
      (by rw [here]; simp [greeting])
    exact stuck _ ⟨0, member, .readHost i _ here call⟩
  · exact late

theorem slave_late {q : Nat} (member : q < N) (slave : q ≠ 0) : (s.node q).pc.Late := by
  have called := (inv.called_of_waits waits member slave).2
  have master := inv.master_late small waits stuck
  have all := master.announced (inv.all_small master.past member)
  rcases (inv.fits q).late_or slave (waits q member) with here | ⟨net, here⟩ | ⟨i, here, more⟩ | late
  · exfalso
    have next : [.int N, .int (rank q)] <+:
        (announcement N (s.node 0) (rank q)).drop ((s.node q).pc.got N) := by
      rw [here]
      simp [announcement]
    obtain ⟨w', call⟩ := inv.can_hear called (by rw [here, all]; simp) next
    exact stuck _ ⟨q, member, .readInfo N (rank q) here call⟩
  · exfalso
    have next := announcement_ports N (s.node 0) (rank q) net
    rw [← here] at next
    obtain ⟨w', call⟩ := inv.can_hear called (by
      rw [here, all, List.length_map, List.length_range]
      cases net <;> simp <;> omega) next
    have size := (inv.informed q (by rw [here]; trivial)).1
    have words : (List.range N).map (fun i => Word.int ((s.node 0).ports net i)) =
        ((List.range N).map ((s.node 0).ports net)).map .int := by simp
    rw [words] at call
    exact stuck _ ⟨q, member, .readPorts net _ here (by simp [size]) call⟩
  · exfalso
    have next := announcement_hosts N (s.node 0) (rank q) more
    rw [← here] at next
    obtain ⟨w', call⟩ := inv.can_hear called (by
      rw [here, all, List.length_singleton, Pc.got]
      omega) next
    have size := (inv.informed q (by rw [here]; trivial)).1
    exact stuck _ ⟨q, member, .readHosts i _ here (by rw [size]; exact more) call⟩
  · exact late

theorem all_late {q : Nat} (member : q < N) : (s.node q).pc.Late := by
  by_cases master : q = 0
  · subst master
    exact inv.master_late small waits stuck
  · exact inv.slave_late small waits stuck member master

theorem not_readId (member : p < N) {net : Net} {i newfd : Nat} :
    (s.node p).pc ≠ .readId net i newfd := by
  intro here
  obtain ⟨q, called, reads⟩ := inv.can_meet here
  obtain ⟨w', call⟩ := reads (inv.all_late small waits stuck (inv.member_of_called called))
  exact stuck _ ⟨p, member, .readId net i newfd _ here call⟩

/-- Where all nodes have called all below them on a net, nobody waits for a call. -/
theorem not_accept {net : Net} (asked : ∀ q, q < N → (s.node q).pc.asked (rank q) net = rank q)
    (member : p < N) {i : Nat} : (s.node p).pc ≠ .accept net i := by
  intro here
  have more : i < N := by
    have waiting := waits p member
    rwa [here] at waiting
  have past := (inv.master_late small waits stuck).past
  have shows := inv.shows p
  have fits := inv.fits p
  have length := shows.heard net
  have held := shows.held net
  rw [here] at fits length held
  have few : ((v.heard (net, p)).map rank).length < N - 1 - rank p := by
    rw [List.length_map, length]
    have above := fits.2.1
    cases net <;> simp <;> omega
  obtain ⟨id, above, below, missing⟩ := exists_missing few
  obtain ⟨q, memberQ, rfl⟩ := inv.node_of_id past below
  have called : v.called q (net, p) := by
    rw [(inv.shows q).called, asked q memberQ]
    exact above
  have untaken : ¬ v.Taken (net, p) q := by
    have idle : v.held (net, p) = none := Option.map_eq_none_iff.mp held
    rw [Switchboard.Taken, idle]
    rintro (heard | ⟨⟨⟩⟩)
    exact missing (List.mem_map_of_mem heard)
  have live : ¬ v.closed (net, p) := by
    rw [shows.closed, here]
    simp
  obtain ⟨fd, c, w', call⟩ := inv.can_accept small (inv.kept.reached q _ called) live called untaken
  have size := (inv.informed p (by rw [here]; trivial)).1
  exact stuck _ ⟨p, member, .accept net i fd c here (by rw [size]; exact more) call⟩

/-- The calls of the first net have been taken before anyone waits for those of the second. -/
theorem all_asked {q : Nat} (member : q < N) (net : Net) :
    (s.node q).pc.asked (rank q) net = rank q := by
  have first : ∀ q, q < N → (s.node q).pc.asked (rank q) .pt = rank q :=
    fun q member => (inv.all_late small waits stuck member).asked_pt
  cases net with
  | pt => exact first q member
  | bc =>
      have late := inv.all_late small waits stuck member
      cases here : (s.node q).pc with
      | accept net i =>
          cases net with
          | pt => exact absurd here (inv.not_accept small waits stuck first member)
          | bc => rfl
      | readId net i newfd => exact absurd here (inv.not_readId small waits stuck member)
      | done => rfl
      | _ => simp [here, Pc.Late] at late

theorem all_done (member : p < N) : (s.node p).pc = .done := by
  have late := inv.all_late small waits stuck member
  cases here : (s.node p).pc with
  | accept net i =>
      have asked := fun q (member : q < N) => inv.all_asked small waits stuck member net
      exact absurd here (inv.not_accept small waits stuck asked member)
  | readId net i newfd => exact absurd here (inv.not_readId small waits stuck member)
  | done => rfl
  | _ => simp [here, Pc.Late] at late

end

theorem exists_step (inv : Inv N host rootport s v rank) (small : s.world.Small)
    (positive : 0 < rootport) (member : p < N) (busy : (s.node p).pc ≠ .done) :
    ∃ s', Step N host rootport s s' := by
  by_contra stuck
  have still : ∀ s', ¬ Step N host rootport s s' := fun s' step => stuck ⟨s', step⟩
  apply busy
  apply inv.all_done small _ still member
  intro q memberQ
  by_contra free
  obtain ⟨n, w', act⟩ := inv.goes_on small positive memberQ free
  exact still _ ⟨q, memberQ, act⟩

end Inv

end Tmpi.Netd.Bootstrap
