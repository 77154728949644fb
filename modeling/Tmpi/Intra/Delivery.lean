import Tmpi.Intra.Evolution

/-! What a completed receive has, whichever way the data took. -/

namespace Tmpi.Intra

variable {cfg : Config} {s : Sys} {g : Ghost}

/-- A posted receive that would accept the send. -/
def posted (s : Sys) (h : SHandle) : Bool :=
  (s.chan h.dest).rq.any fun b => rqCmp (s.rmem b) h.context h.tag h.src

/-- Requests are neither cancelled nor freed, message objects do not run out, and a local
ready send is started only when a receive for it has been posted. -/
def readied (s : Sys) : Act → Bool
  | .startSh a _ => !(s.smem a).sendAnd fun h => !h.isRemote && h.mode = .ready && !posted s h
  | act => act.keeps

/-- Not a local ready send that waits to be taken. -/
def SHandle.taken (h : SHandle) : Prop :=
  ¬ (h.isRemote = false ∧ h.mode = .ready ∧ h.stat = .pendStrt)

theorem readied_lasts (cfg : Config) :
    Lasts cfg SHandle.taken fun s act => readied s act = true where
  descends h h' holds descends := by
    rintro ⟨near, mode, stat⟩
    exact holds ⟨descends.isRemote ▸ near, descends.mode ▸ mode, descends.starts stat⟩
  starts s a message h may cell _ _ missing := by
    rintro ⟨near, mode, -⟩
    have near : h.isRemote = false := near
    have mode : h.mode = .ready := mode
    have found : posted s h = true := by
      simpa [readied, SCell.sendAnd, cell, near, mode] using may
    obtain ⟨b, member, accepted⟩ := List.any_eq_true.mp found
    rw [missing near b member] at accepted
    cases accepted
  creates s context src dest tag data mode isPersistent isImmediate room _ h _ _ created := by
    rintro ⟨-, -, stat⟩
    rw [created] at stat
    cases stat

theorem readied_keeps (s : Sys) (act : Act) (may : readied s act = true) : act.keeps = true := by
  cases act <;> first | rfl | exact may

theorem readied_inv (reach : Reach cfg (fun s act => readied s act = true) s) :
    ∃ g, Inv cfg s g := by
  refine reach.inv fun s act before may => ?_
  have keeps := readied_keeps s act may
  cases act with
  | waitSh a =>
      cases cell : s.smem a with
      | remote => simp [breaks, SCell.sendAnd, cell]
      | send h =>
          have taken := before.lasts (readied_lasts cfg) readied_keeps a h cell
          simp only [breaks, SCell.sendAnd, cell]
          by_contra broken
          simp only [Bool.not_eq_false, Bool.and_eq_true, decide_eq_true_eq, Bool.not_eq_true'] at broken
          exact taken ⟨broken.1.1, broken.1.2, broken.2⟩
  | cancelSh | cancelRh | freeSh => cases keeps
  | startRh b message | deliver from_ m room message => simpa [breaks, Act.keeps] using keeps
  | _ => rfl

/-- A receive has completed with the bytes of the send it was matched with, as far as they
fit, and with that send's source and tag. -/
structure Completes (s : Sys) (inst peer : Nat) (status : Status) (data : Buffer) : Prop where
  paired : ∃ c, Paired (s.trace c) peer inst
  sendStarted : ∃ src tag sent, .sendStarted peer src tag sent ∈ s.log
  recvStarted : ∃ before, .recvStarted inst before ∈ s.log
  exact : ∀ src tag sent before, .sendStarted peer src tag sent ∈ s.log →
    .recvStarted inst before ∈ s.log →
    status = ⟨min sent.length before.length, src, tag, .success⟩ ∧
    data = sent.take (min sent.length before.length) ++ before.drop (min sent.length before.length)

theorem Inv.completes (inv : Inv cfg s g) {inst peer : Nat} {status : Status} {data : Buffer}
    {c : Int} (done : Delivered s.log (s.trace c) inst peer status data) :
    Completes s inst peer status data := by
  obtain ⟨paired, src, tag, sent, before, filled⟩ := done
  refine ⟨⟨c, paired⟩, ⟨src, tag, sent, filled.sendStarted⟩, ⟨before, filled.recvStarted⟩, ?_⟩
  intro src' tag' sent' before' started posted
  obtain ⟨rfl, rfl, rfl⟩ := inv.logs.sendsDiffer _ _ _ _ _ _ _ filled.sendStarted started
  obtain rfl := inv.logs.recvsDiffer _ _ _ filled.recvStarted posted
  exact ⟨filled.status, filled.data⟩

/-- The call that ends a receive whose data has come. -/
theorem completeRh_received (s : Sys) (b : Addr) (r : RHandle) :
    .received r.inst r.peer r.status r.data ∈ (completeRh s b r).log := by
  unfold completeRh finishRh Sys.freeElemR
  dsimp only
  split
  · exact List.mem_append_left _ (by simp [Sys.record, Sys.setR])
  · simp [Sys.record, Sys.setR]

/-- Every completed receive has what was sent; a matched one has it too, and the next
`tmpi_intra_wait_rh` or `tmpi_intra_test_rh`, or the end of the blocked one, reports it. -/
theorem delivery (reach : Reach cfg (fun s act => readied s act = true) s) :
    (∀ inst peer status data, .received inst peer status data ∈ s.log →
      Completes s inst peer status data) ∧
    ∀ b, (s.rmem b).stat = .matched →
      Completes s (s.rmem b).inst (s.rmem b).peer (s.rmem b).status (s.rmem b).data ∧
      ((s.rmem b).pc = .waiting → ∃ s', step cfg s (.wakeRh b) = some s' ∧
        .received (s.rmem b).inst (s.rmem b).peer (s.rmem b).status (s.rmem b).data ∈ s'.log) ∧
      ((s.rmem b).held = true → (s.rmem b).pc = .idle →
        ∀ act, act = .waitRh b ∨ act = .testRh b → ∃ s', step cfg s act = some s' ∧
          .received (s.rmem b).inst (s.rmem b).peer (s.rmem b).status (s.rmem b).data ∈ s'.log) := by
  obtain ⟨g, inv⟩ := readied_inv reach
  refine ⟨fun inst peer status data happened => ?_, fun b matched => ⟨?_, ?_, ?_⟩⟩
  · obtain ⟨c, done⟩ := inv.logs.received inst peer status data happened
    exact inv.completes done
  · exact inv.completes (inv.off_of_matched matched).2
  · intro waiting
    refine ⟨_, ?_, completeRh_received s b (s.rmem b)⟩
    simp [step, wakeRh, waiting, matched]
  · intro held idle act which
    refine ⟨_, ?_, completeRh_received s b (s.rmem b)⟩
    rcases which with rfl | rfl
    · simp [step, onRecv, held, idle, tmpiIntraWaitRh, Stat.any_posted, matched]
    · simp [step, onRecv, held, idle, tmpiIntraTestRh, Stat.any_posted, matched]

/-- The message of a buffered sender that has left, cut to what the receive asked for. -/
theorem delivery_short : ∃ s, Reach ⟨Int.toNat, 4, by decide⟩
    (fun s act => readied s act = true) s ∧
    .received 1 0 ⟨2, 0, 5, .success⟩ [1, 2] ∈ s.log ∧
    Completes s 1 0 ⟨2, 0, 5, .success⟩ [1, 2] := by
  obtain ⟨s, run, facts⟩ : ∃ s, follow ⟨Int.toNat, 4, by decide⟩ readied
      (boot ⟨Int.toNat, 4, by decide⟩)
      [.initSh 7 0 1 5 [1, 2, 3] .buffered false false true, .startSh ⟨0, 0⟩ true, .waitSh ⟨0, 0⟩,
        .initRh 7 0 1 anyTag [9, 9] false false, .startRh ⟨1, 0⟩ true, .deliver 0 1 true true, .respond 1,
        .waitRh ⟨1, 0⟩, .deliver 1 0 true true] = some s ∧
      .received 1 0 ⟨2, 0, 5, .success⟩ [1, 2] ∈ s.log := ⟨_, rfl, by decide +kernel⟩
  have reach := Reach.boot.follow run
  exact ⟨s, reach, facts, (delivery reach).1 _ _ _ _ facts⟩

end Tmpi.Intra
