import Tmpi.Intra.Sides

/-! How the recorded sides of the invariant take an update: traces, log and pools. -/

namespace Tmpi.Intra

open Function (update)

section Posts

variable {chan chan' : Int → Channel} {trace : Int → Trace} {clock : Nat} {smem smem' : Addr → SCell}
  {job : Addr → Job} {want : Addr → Want} {send : Addr → SPlace} {a b : Addr} {p : SPlace} {j : Job}
  {w : Want} {c : Int} {ch : Channel} {events : Trace}

theorem MatchSide.later (side : MatchSide chan trace clock smem job want send) :
    MatchSide chan trace (clock + 1) smem job want send where
  run := side.run
  sendsDiffer := side.sendsDiffer
  recvsDiffer := side.recvsDiffer
  sendsOld c post member := Nat.lt_succ_of_lt (side.sendsOld c post member)
  recvsOld c post member := Nat.lt_succ_of_lt (side.recvsOld c post member)
  jobsOld a active := Nat.lt_succ_of_lt (side.jobsOld a active)
  jobsDiffer := side.jobsDiffer
  unposted := side.unposted

theorem MatchSide.move (side : MatchSide chan trace clock smem job want send)
    (active : p ≠ .off → send a ≠ .off) (seen : p.arriving = false) :
    MatchSide chan trace clock smem job want (update send a p) where
  run := side.run
  sendsDiffer := side.sendsDiffer
  recvsDiffer := side.recvsDiffer
  sendsOld := side.sendsOld
  recvsOld := side.recvsOld
  jobsOld x on := by
    refine side.jobsOld x ?_
    by_cases same : x = a
    · subst same
      exact active (by simpa using on)
    · rwa [Function.update_of_ne same] at on
  jobsDiffer x y on on' := by
    refine side.jobsDiffer x y ?_ ?_
    · by_cases same : x = a
      · subst same
        exact active (by simpa using on)
      · rwa [Function.update_of_ne same] at on
    · by_cases same : y = a
      · subst same
        exact active (by simpa using on')
      · rwa [Function.update_of_ne same] at on'
  unposted x arriving := by
    by_cases same : x = a
    · subst same
      simp [seen] at arriving
    · rw [Function.update_of_ne same] at arriving
      exact side.unposted x arriving

/-- The queues hold what they held. -/
theorem MatchSide.rechan (side : MatchSide chan trace clock smem job want send)
    (sq : ∀ c, (chan' c).sq = (chan c).sq) (rq : ∀ c, (chan' c).rq = (chan c).rq) :
    MatchSide chan' trace clock smem job want send :=
  { side with
    run := fun c => by
      rw [sq, rq]
      exact side.run c }

/-- The queue elements belong to the requests they belonged to. -/
theorem MatchSide.recell (side : MatchSide chan trace clock smem job want send)
    (smem' : Addr → SCell) (same : ∀ c, ∀ x ∈ (chan c).sq, (smem' x).origin x = (smem x).origin x) :
    MatchSide chan trace clock smem' job want send :=
  { side with
    run := fun c => by
      have posts : (chan c).sq.map (postOf smem' job) = (chan c).sq.map (postOf smem job) :=
        List.map_congr_left fun x member => by rw [postOf, postOf, same c x member]
      rw [posts]
      exact side.run c }

theorem MatchSide.begin (side : MatchSide chan trace clock smem job want send)
    (off : send a = .off) (apart : ∀ c, ∀ x ∈ (chan c).sq, (smem x).origin x ≠ a)
    (inst : j.inst = clock) :
    MatchSide chan trace (clock + 1) smem (update job a j) want (update send a p) where
  run c := by
    have posts : (chan c).sq.map (postOf smem (update job a j)) =
        (chan c).sq.map (postOf smem job) :=
      List.map_congr_left fun x member => by
        rw [postOf, postOf, Function.update_of_ne (apart c x member)]
    rw [posts]
    exact side.run c
  sendsDiffer := side.sendsDiffer
  recvsDiffer := side.recvsDiffer
  sendsOld := side.later.sendsOld
  recvsOld := side.later.recvsOld
  jobsOld x on := by
    by_cases same : x = a
    · subst same
      simp [inst]
    · rw [Function.update_of_ne same] at on ⊢
      exact side.later.jobsOld x on
  jobsDiffer x y on on' insts := by
    by_cases same : x = a <;> by_cases same' : y = a
    · rw [same, same']
    · rw [Function.update_of_ne same'] at on' insts
      rw [same, Function.update_self, inst] at insts
      exact absurd insts.symm (side.jobsOld y on').ne
    · rw [Function.update_of_ne same] at on insts
      rw [same', Function.update_self, inst] at insts
      exact absurd insts (side.jobsOld x on).ne
    · rw [Function.update_of_ne same] at on
      rw [Function.update_of_ne same'] at on'
      rw [Function.update_of_ne same, Function.update_of_ne same'] at insts
      exact side.jobsDiffer x y on on' insts
  unposted x arriving post member := by
    by_cases same : x = a
    · subst same
      rw [Function.update_self, inst]
      exact (side.sendsOld _ post member).ne
    · rw [Function.update_of_ne same] at arriving member ⊢
      exact side.unposted x arriving post member

theorem MatchSide.rewant (side : MatchSide chan trace clock smem job want send)
    (apart : ∀ c, b ∉ (chan c).rq) : MatchSide chan trace clock smem job (update want b w) send :=
  { side with
    run := fun c => by
      have posts : ((chan c).rq.map fun x => (update want b w x).post) =
          (chan c).rq.map fun x => (want x).post :=
        List.map_congr_left fun x member => by
          have other : x ≠ b := fun same => apart c (same ▸ member)
          rw [Function.update_of_ne other]
      rw [posts]
      exact side.run c }

/-- New events on one channel. -/
theorem MatchSide.post (side : MatchSide chan trace clock smem job want send)
    (run : Matching.Run postFits (trace c ++ events) (ch.sq.map (postOf smem job))
      (ch.rq.map fun b => (want b).post))
    (sendsDiffer : ((Matching.sendsOf (trace c ++ events)).map Post.inst).Nodup)
    (recvsDiffer : ((Matching.recvsOf (trace c ++ events)).map Post.inst).Nodup)
    (sends : ∀ post ∈ Matching.sendsOf events, post.inst < clock ∧
      ∀ a, (send a).arriving = true → post.inst ≠ (job a).inst)
    (recvs : ∀ post ∈ Matching.recvsOf events, post.inst < clock) :
    MatchSide (update chan c ch) (update trace c (trace c ++ events)) clock smem job want send where
  run c' := by
    by_cases same : c' = c
    · subst same
      simpa using run
    · simpa [Function.update_of_ne same] using side.run c'
  sendsDiffer c' := by
    by_cases same : c' = c
    · subst same
      rwa [Function.update_self]
    · rw [Function.update_of_ne same]
      exact side.sendsDiffer c'
  recvsDiffer c' := by
    by_cases same : c' = c
    · subst same
      rwa [Function.update_self]
    · rw [Function.update_of_ne same]
      exact side.recvsDiffer c'
  sendsOld c' post member := by
    by_cases same : c' = c
    · subst same
      rw [Function.update_self, Matching.sendsOf_append, List.mem_append] at member
      exact member.elim (side.sendsOld c' post) fun new => (sends post new).1
    · rw [Function.update_of_ne same] at member
      exact side.sendsOld c' post member
  recvsOld c' post member := by
    by_cases same : c' = c
    · subst same
      rw [Function.update_self, Matching.recvsOf_append, List.mem_append] at member
      exact member.elim (side.recvsOld c' post) (recvs post)
    · rw [Function.update_of_ne same] at member
      exact side.recvsOld c' post member
  jobsOld := side.jobsOld
  jobsDiffer := side.jobsDiffer
  unposted a arriving post member := by
    by_cases same : (job a).dest = c
    · rw [same, Function.update_self, Matching.sendsOf_append, List.mem_append] at member
      refine member.elim (fun old => ?_) fun new => (sends post new).2 a arriving
      exact side.unposted a arriving post (same ▸ old)
    · rw [Function.update_of_ne same] at member
      exact side.unposted a arriving post member

theorem insts_concat {posts : List Post} {post : Post} (nodup : (posts.map Post.inst).Nodup)
    (fresh : ∀ old ∈ posts, old.inst ≠ post.inst) : ((posts ++ [post]).map Post.inst).Nodup := by
  rw [List.map_append]
  refine Matching.nodup_concat nodup fun member => ?_
  obtain ⟨old, present, same⟩ := List.mem_map.mp member
  exact fresh old present same

/-- A send is posted, and perhaps matched. -/
theorem MatchSide.sendPosted (side : MatchSide chan trace clock smem job want send) {post : Post}
    (posted : Matching.sendsOf events = [post]) (none : Matching.recvsOf events = [])
    (old : post.inst < clock) (fresh : ∀ old ∈ Matching.sendsOf (trace c), old.inst ≠ post.inst)
    (differ : ∀ a, (send a).arriving = true → post.inst ≠ (job a).inst)
    (run : Matching.Run postFits (trace c ++ events) (ch.sq.map (postOf smem job))
      (ch.rq.map fun b => (want b).post)) :
    MatchSide (update chan c ch) (update trace c (trace c ++ events)) clock smem job want send := by
  refine side.post run ?_ ?_ ?_ (by simp [none])
  · rw [Matching.sendsOf_append, posted]
    exact insts_concat (side.sendsDiffer c) fresh
  · rw [Matching.recvsOf_append, none, List.append_nil]
    exact side.recvsDiffer c
  · intro other member
    obtain rfl : other = post := by simpa [posted] using member
    exact ⟨old, differ⟩

/-- A receive is posted, and perhaps matched. -/
theorem MatchSide.recvPosted (side : MatchSide chan trace clock smem job want send) {post : Post}
    (posted : Matching.recvsOf events = [post]) (none : Matching.sendsOf events = [])
    (old : post.inst < clock) (fresh : ∀ old ∈ Matching.recvsOf (trace c), old.inst ≠ post.inst)
    (run : Matching.Run postFits (trace c ++ events) (ch.sq.map (postOf smem job))
      (ch.rq.map fun b => (want b).post)) :
    MatchSide (update chan c ch) (update trace c (trace c ++ events)) clock smem job want send := by
  refine side.post run ?_ ?_ (by simp [none]) ?_
  · rw [Matching.sendsOf_append, none, List.append_nil]
    exact side.sendsDiffer c
  · rw [Matching.recvsOf_append, posted]
    exact insts_concat (side.recvsDiffer c) fresh
  · intro other member
    obtain rfl : other = post := by simpa [posted] using member
    exact old

end Posts

section Logs

variable {log : List Event} {clock : Nat} {trace trace' : Int → Trace} {job : Addr → Job}
  {want : Addr → Want} {send : Addr → SPlace} {recv : Addr → RPlace} {a b : Addr} {p : SPlace}
  {p' : RPlace} {j : Job} {w : Want} {e : Event}

theorem LogSide.later (side : LogSide log clock trace job want send recv) :
    LogSide log (clock + 1) trace job want send recv :=
  { side with
    sendsOld := fun inst src tag data member =>
      Nat.lt_succ_of_lt (side.sendsOld inst src tag data member)
    recvsOld := fun inst data member => Nat.lt_succ_of_lt (side.recvsOld inst data member) }

theorem LogSide.move (side : LogSide log clock trace job want send recv)
    (active : p ≠ .off → send a ≠ .off) :
    LogSide log clock trace job want (update send a p) recv :=
  { side with
    sendStarted := fun x on => by
      refine side.sendStarted x ?_
      by_cases same : x = a
      · subst same
        exact active (by simpa using on)
      · rwa [Function.update_of_ne same] at on }

theorem LogSide.moveRecv (side : LogSide log clock trace job want send recv)
    (active : p' ≠ .off → recv b ≠ .off) :
    LogSide log clock trace job want send (update recv b p') :=
  { side with
    recvStarted := fun x on => by
      refine side.recvStarted x ?_
      by_cases same : x = b
      · subst same
        exact active (by simpa using on)
      · rwa [Function.update_of_ne same] at on }

theorem LogSide.grow (side : LogSide log clock trace job want send recv)
    (traces : ∀ c, trace c ⊆ trace' c) : LogSide log clock trace' job want send recv :=
  { side with
    received := fun inst peer status data member => by
      obtain ⟨c, done⟩ := side.received inst peer status data member
      exact ⟨c, done.mono (List.Subset.refl _) (traces c)⟩ }

/-- The event is the return of a call and says nothing about a message. -/
def Event.plain : Event → Bool
  | .sendReturned .. | .recvReturned .. => true
  | _ => false

theorem LogSide.say (side : LogSide log clock trace job want send recv)
    (plain : e.plain = true ∨ ∃ inst peer status data, e = .received inst peer status data ∧
      ∃ c, Delivered log (trace c) inst peer status data) :
    LogSide (log ++ [e]) clock trace job want send recv where
  sendStarted a on := List.mem_append_left _ (side.sendStarted a on)
  recvStarted b on := List.mem_append_left _ (side.recvStarted b on)
  sendsOld inst src tag data member := by
    refine side.sendsOld inst src tag data ?_
    rcases List.mem_append.mp member with old | new
    · exact old
    · rw [← List.mem_singleton.mp new] at plain
      simp [Event.plain] at plain
  recvsOld inst data member := by
    refine side.recvsOld inst data ?_
    rcases List.mem_append.mp member with old | new
    · exact old
    · rw [← List.mem_singleton.mp new] at plain
      simp [Event.plain] at plain
  sendsDiffer inst src tag data src' tag' data' := by
    have old : ∀ s t d, .sendStarted inst s t d ∈ log ++ [e] → .sendStarted inst s t d ∈ log := by
      intro s t d member
      rcases List.mem_append.mp member with old | new
      · exact old
      · rw [← List.mem_singleton.mp new] at plain
        simp [Event.plain] at plain
    exact fun one two => side.sendsDiffer _ _ _ _ _ _ _ (old _ _ _ one) (old _ _ _ two)
  recvsDiffer inst data data' := by
    have old : ∀ d, .recvStarted inst d ∈ log ++ [e] → .recvStarted inst d ∈ log := by
      intro d member
      rcases List.mem_append.mp member with old | new
      · exact old
      · rw [← List.mem_singleton.mp new] at plain
        simp [Event.plain] at plain
    exact fun one two => side.recvsDiffer _ _ _ (old _ one) (old _ two)
  received inst peer status data member := by
    have done : ∃ c, Delivered log (trace c) inst peer status data := by
      rcases List.mem_append.mp member with old | new
      · exact side.received inst peer status data old
      · rw [← List.mem_singleton.mp new] at plain
        simpa [Event.plain] using plain
    obtain ⟨c, done⟩ := done
    exact ⟨c, done.mono (List.subset_append_left _ _) (List.Subset.refl _)⟩
  noFault what member := by
    rcases List.mem_append.mp member with old | new
    · exact side.noFault what old
    · rw [← List.mem_singleton.mp new] at plain
      simp [Event.plain] at plain

theorem LogSide.beginSend (side : LogSide log clock trace job want send recv)
    (inst : j.inst = clock) :
    LogSide (log ++ [.sendStarted clock j.envelope.src j.envelope.tag j.data]) (clock + 1) trace
      (update job a j) want (update send a p) recv where
  sendStarted x on := by
    by_cases same : x = a
    · simp [same, inst]
    · rw [Function.update_of_ne same] at on ⊢
      exact List.mem_append_left _ (side.sendStarted x on)
  recvStarted b on := List.mem_append_left _ (side.recvStarted b on)
  sendsOld i src tag data member := by
    rcases List.mem_append.mp member with old | new
    · exact side.later.sendsOld i src tag data old
    · simp only [List.mem_singleton, Event.sendStarted.injEq] at new
      omega
  recvsOld i data member := by
    rcases List.mem_append.mp member with old | new
    · exact side.later.recvsOld i data old
    · simp at new
  sendsDiffer i src tag data src' tag' data' one two := by
    have old := side.sendsOld i
    simp only [List.mem_append, List.mem_singleton, Event.sendStarted.injEq] at one two
    rcases one with one | one <;> rcases two with two | two
    · exact side.sendsDiffer _ _ _ _ _ _ _ one two
    · have := old _ _ _ one
      omega
    · have := old _ _ _ two
      omega
    · exact ⟨one.2.1.trans two.2.1.symm, one.2.2.1.trans two.2.2.1.symm,
        one.2.2.2.trans two.2.2.2.symm⟩
  recvsDiffer i data data' one two := by
    simp only [List.mem_append, List.mem_singleton, reduceCtorEq, or_false] at one two
    exact side.recvsDiffer _ _ _ one two
  received i peer status data member := by
    simp only [List.mem_append, List.mem_singleton, reduceCtorEq, or_false] at member
    obtain ⟨c, done⟩ := side.received i peer status data member
    exact ⟨c, done.mono (List.subset_append_left _ _) (List.Subset.refl _)⟩
  noFault what member := by
    simp only [List.mem_append, List.mem_singleton, reduceCtorEq, or_false] at member
    exact side.noFault what member

theorem LogSide.beginRecv (side : LogSide log clock trace job want send recv)
    (inst : w.inst = clock) :
    LogSide (log ++ [.recvStarted clock w.data]) (clock + 1) trace job (update want b w) send
      (update recv b p') where
  sendStarted a on := List.mem_append_left _ (side.sendStarted a on)
  recvStarted x on := by
    by_cases same : x = b
    · simp [same, inst]
    · rw [Function.update_of_ne same] at on ⊢
      exact List.mem_append_left _ (side.recvStarted x on)
  sendsOld i src tag data member := by
    rcases List.mem_append.mp member with old | new
    · exact side.later.sendsOld i src tag data old
    · simp at new
  recvsOld i data member := by
    rcases List.mem_append.mp member with old | new
    · exact side.later.recvsOld i data old
    · simp only [List.mem_singleton, Event.recvStarted.injEq] at new
      omega
  sendsDiffer i src tag data src' tag' data' one two := by
    simp only [List.mem_append, List.mem_singleton, reduceCtorEq, or_false] at one two
    exact side.sendsDiffer _ _ _ _ _ _ _ one two
  recvsDiffer i data data' one two := by
    have old := side.recvsOld i
    simp only [List.mem_append, List.mem_singleton, Event.recvStarted.injEq] at one two
    rcases one with one | one <;> rcases two with two | two
    · exact side.recvsDiffer _ _ _ one two
    · have := old _ one
      omega
    · have := old _ two
      omega
    · exact one.2.trans two.2.symm
  received i peer status data member := by
    simp only [List.mem_append, List.mem_singleton, reduceCtorEq, or_false] at member
    obtain ⟨c, done⟩ := side.received i peer status data member
    exact ⟨c, done.mono (List.subset_append_left _ _) (List.Subset.refl _)⟩
  noFault what member := by
    simp only [List.mem_append, List.mem_singleton, reduceCtorEq, or_false] at member
    exact side.noFault what member

end Logs

section Pools

variable {pool : Pool} {group idx other : Nat}

theorem qNewElem_ok (ok : PoolOk pool) (pos : 0 < group) : PoolOk (qNewElem group pool).2 := by
  unfold qNewElem
  split
  next =>
    refine ⟨List.nodup_range' .., fun idx member => ?_⟩
    have := List.mem_range'_1.mp member
    simp only
    omega
  next first rest split =>
    exact ⟨(split ▸ ok.nodup).of_cons, fun idx member => ok.bound idx (by simp [split, member])⟩

theorem qNewElem_fresh : ¬ pool.Live (qNewElem group pool).1 := by
  unfold qNewElem
  split
  next => simp [Pool.Live]
  next first rest split => simp [Pool.Live, split]

theorem qNewElem_live (ok : PoolOk pool) (pos : 0 < group) :
    (qNewElem group pool).2.Live idx ↔ pool.Live idx ∨ idx = (qNewElem group pool).1 := by
  unfold qNewElem
  split
  next empty =>
    simp only [Pool.Live, empty, List.not_mem_nil, not_false_eq_true, and_true, List.mem_range'_1]
    omega
  next first rest split =>
    have nodup := split ▸ ok.nodup
    have bound := ok.bound first (by simp [split])
    have out : first ∉ rest := (List.nodup_cons.mp nodup).1
    simp only [Pool.Live, split, List.mem_cons, not_or]
    constructor
    · rintro ⟨small, absent⟩
      by_cases same : idx = first
      · exact .inr same
      · exact .inl ⟨small, same, absent⟩
    · rintro (⟨small, -, absent⟩ | rfl)
      · exact ⟨small, absent⟩
      · exact ⟨bound, out⟩

theorem qFreeElem_ok (ok : PoolOk pool) (live : pool.Live idx) : PoolOk (qFreeElem pool idx) where
  nodup := List.nodup_cons.mpr ⟨live.2, ok.nodup⟩
  bound other member := by
    rcases List.mem_cons.mp member with rfl | old
    · exact live.1
    · exact ok.bound other old

theorem qFreeElem_live : (qFreeElem pool idx).Live other ↔ pool.Live other ∧ other ≠ idx := by
  simp only [qFreeElem, Pool.Live, List.mem_cons, not_or]
  tauto

theorem PoolSide.relink {chan : Int → Channel} (side : PoolSide chan) {c : Int} {ch : Channel}
    (spool : ch.spool = (chan c).spool) (rpool : ch.rpool = (chan c).rpool)
    (linked : ∀ x ∈ ch.sq, (chan x.owner).spool.Live x.idx) : PoolSide (update chan c ch) := by
  have spools : ∀ c', (update chan c ch c').spool = (chan c').spool := by
    intro c'
    by_cases here : c' = c
    · subst here
      simpa using spool
    · rw [Function.update_of_ne here]
  refine ⟨fun c' => ?_, fun c' => ?_, fun c' x member => ?_⟩
  · rw [spools]
    exact side.spool c'
  · by_cases here : c' = c
    · subst here
      simpa [rpool] using side.rpool c'
    · rw [Function.update_of_ne here]
      exact side.rpool c'
  · rw [spools]
    by_cases here : c' = c
    · subst here
      exact linked x (by simpa using member)
    · rw [Function.update_of_ne here] at member
      exact side.linked c' x member

end Pools

section Searches

variable {accepts : Addr → Bool} {items rest : List Addr} {x : Addr}

theorem qFind_some (found : qFind accepts items = some (x, rest)) :
    ∃ front back, items = front ++ x :: back ∧ rest = front ++ back ∧ accepts x = true ∧
      ∀ y ∈ front, accepts y = false := by
  induction items generalizing rest with
  | nil => cases found
  | cons y items ih =>
      rw [qFind] at found
      split at found
      next here =>
        cases found
        exact ⟨[], items, rfl, rfl, here, by simp⟩
      next other =>
        obtain ⟨⟨z, rest'⟩, found', pair⟩ := Option.map_eq_some_iff.mp found
        obtain ⟨rfl, rfl⟩ := Prod.mk.inj pair
        obtain ⟨front, back, rfl, rfl, here, apart⟩ := ih found'
        exact ⟨y :: front, back, rfl, rfl, here, List.forall_mem_cons.mpr ⟨by simpa using other, apart⟩⟩

theorem qFind_none (missing : qFind accepts items = none) : ∀ y ∈ items, accepts y = false := by
  induction items with
  | nil => simp
  | cons y items ih =>
      rw [qFind] at missing
      split at missing
      next => cases missing
      next other =>
        exact List.forall_mem_cons.mpr ⟨by simpa using other, ih (Option.map_eq_none_iff.mp missing)⟩

theorem trace_grows (trace : Int → Trace) (c : Int) (events : Trace) (c' : Int) :
    trace c' ⊆ update trace c (trace c ++ events) c' := by
  by_cases same : c' = c
  · subst same
    simp
  · rw [Function.update_of_ne same]
    exact List.Subset.refl _

end Searches

end Tmpi.Intra
