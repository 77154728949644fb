import Tmpi.Intra.Completion

/-! `mpi_sr.c`: `tmpi_Waitany` and `tmpi_Waitsome` over an array of requests. -/

namespace Tmpi.Intra

/-- `MPI_Request`. -/
inductive Request where
  | null
  | send (a : Addr)
  | recv (b : Addr)
  deriving DecidableEq, Repr

/-- The code a call on the request returns with, as the run remembers it. -/
def Sys.code (s : Sys) (req : Request) : Event → Option Err
  | .sendReturned a _ ret _ => if req = .send a then some ret else none
  | .recvReturned b _ ret => if req = .recv b then some ret else none
  | .received inst _ _ _ =>
      match req with
      | .recv b => if inst = (s.rmem b).inst then some .success else none
      | _ => none
  | _ => none

/-- The code that a call from `s` to `s'` has returned with on the request. -/
def Sys.answered (s s' : Sys) (req : Request) : Option Err :=
  (s'.log.drop s.log.length).findSome? (s.code req)

/-- A request that was started and whose completion its owner has not been told of. -/
def Request.underway (s : Sys) : Request → Prop
  | .null => False
  | .send a => ∃ h, s.smem a = .send h ∧ (h.stat.pend || h.stat = .matched) = true ∧
      h.stat ≠ .pendRels
  | .recv b => ((s.rmem b).stat.pend || (s.rmem b).stat = .matched) = true

/-- A persistent send that its owner has been told of and whose receiver has not come yet. -/
def Request.behind (s : Sys) : Request → Prop
  | .send a => ∃ h, s.smem a = .send h ∧ h.stat = .pendRels
  | _ => False

/-! ## One request -/

/-- `tmpi_Test` with the value of `flag`, which is 0 before. -/
def tmpiTest (s : Sys) : Request → Option (Sys × Bool)
  | .null => some (s, false)
  | .send a =>
      match s.smem a with
      | .send h => tmpiIntraTestSh s a h
      | .remote _ => none
  | .recv b => some (tmpiIntraTestRh s b (s.rmem b))

/-- `tmpi_Wait` until it returns or blocks. -/
def tmpiWait (s : Sys) : Request → Option Sys
  | .null => some s
  | .send a =>
      match s.smem a with
      | .send h => tmpiIntraWaitSh s a h
      | .remote _ => none
  | .recv b => some (tmpiIntraWaitRh s b (s.rmem b))

/-- A blocked `tmpi_Wait` that wakes up. -/
def tmpiWake (s : Sys) : Request → Option Sys
  | .null => none
  | .send a =>
      match s.smem a with
      | .send h => wakeSh s a h
      | .remote _ => none
  | .recv b => wakeRh s b (s.rmem b)

/-! ## The two functions -/

/-- What an unsuccessful call leaves in `ret`. -/
def keepRet (ret code : Err) : Err := if code ≠ .success then code else ret

/-- Where the caller is: `completed` are the places whose requests its calls have completed. -/
structure Caller where
  completed : List Nat
  ret : Err
  deriving DecidableEq, Repr

/-- A call on the request at place `i` has returned with `code`, or nothing was logged of it. -/
def Caller.returns (caller : Caller) (i : Nat) (code : Option Err) : Caller where
  completed := if code = some .success then caller.completed ++ [i] else caller.completed
  ret := keepRet caller.ret (code.getD .success)

/-- `tmpi_Waitany`: in the loop at `i`, blocked in the wait, or back with `*index`. -/
inductive AnyPlace where
  | poll (i : Nat)
  | blocked
  | done (index : Nat)
  deriving DecidableEq, Repr

/-- The wait of `tmpi_Waitany` and its return: its own code is the code of the call. -/
def anyWaited (s s' : Sys) (req : Request) (caller : Caller) : Caller × AnyPlace :=
  match s.answered s' req with
  | some code => ({ caller.returns 0 (some code) with ret := code }, .done 0)
  | none => if req = .null then ({ caller with ret := .success }, .done 0) else (caller, .blocked)

/-- The next step of `tmpi_Waitany`. -/
def tmpiWaitany (reqs : List Request) (s : Sys) (caller : Caller) :
    AnyPlace → Option (Sys × Caller × AnyPlace)
  | .poll i =>
      if i < reqs.length then do
        let req ← reqs[i]?
        let (s', flag) ← tmpiTest s req
        return (s', caller.returns i (s.answered s' req), if flag then .done i else .poll (i + 1))
      else do
        let req ← reqs[0]?
        let s' ← tmpiWait s req
        return (s', anyWaited s s' req caller)
  | .blocked => do
      let req ← reqs[0]?
      let s' ← tmpiWake s req
      return (s', anyWaited s s' req caller)
  | .done _ => none

/-- `tmpi_Waitsome`: in its first loop or its second, blocked between them, or back. -/
inductive SomePlace where
  | poll (i : Nat) (indice : List Nat)
  | blocked
  | again (i : Nat) (indice : List Nat)
  | done (indice : List Nat)
  deriving DecidableEq, Repr

/-- The wait of `tmpi_Waitsome`; place 0 is reported whatever became of it. -/
def someWaited (s s' : Sys) (req : Request) (caller : Caller) : Caller × SomePlace :=
  match s.answered s' req with
  | some code => (caller.returns 0 (some code), .again 1 [0])
  | none => if req = .null then (caller, .again 1 [0]) else (caller, .blocked)

/-- The next step of `tmpi_Waitsome`. -/
def tmpiWaitsome (reqs : List Request) (s : Sys) (caller : Caller) :
    SomePlace → Option (Sys × Caller × SomePlace)
  | .poll i indice =>
      if i < reqs.length then do
        let req ← reqs[i]?
        let (s', flag) ← tmpiTest s req
        return (s', caller.returns i (s.answered s' req),
          .poll (i + 1) (if flag then indice ++ [i] else indice))
      else if indice ≠ [] then some (s, caller, .done indice)
      else do
        let req ← reqs[0]?
        let s' ← tmpiWait s req
        return (s', someWaited s s' req caller)
  | .blocked => do
      let req ← reqs[0]?
      let s' ← tmpiWake s req
      return (s', someWaited s s' req caller)
  | .again i indice =>
      if i < reqs.length then do
        let req ← reqs[i]?
        let (s', flag) ← tmpiTest s req
        return (s', caller.returns i (s.answered s' req),
          .again (i + 1) (if flag then indice ++ [i] else indice))
      else some (s, caller, .done indice)
  | .done _ => none

/-- What the others do meanwhile: they start no request of the array. -/
def Elsewhere (reqs : List Request) (s s' : Sys) : Prop :=
  ∀ req ∈ reqs, req.underway s' → req.underway s

/-- Runs of a call, whose own steps are `regular`, among steps of the others. -/
inductive CallRun {Place : Type} (reqs : List Request)
    (next : Sys → Caller → Place → Option (Sys × Caller × Place)) (regular : Sys → Place → Prop)
    (start : Place) (s₀ : Sys) : Sys → Caller → Place → Prop where
  | begin : CallRun reqs next regular start s₀ s₀ ⟨[], .success⟩ start
  | own {s s' : Sys} {caller caller' : Caller} {place place' : Place} :
      CallRun reqs next regular start s₀ s caller place → regular s place →
      next s caller place = some (s', caller', place') →
      CallRun reqs next regular start s₀ s' caller' place'
  | elsewhere {s s' : Sys} {caller : Caller} {place : Place} :
      CallRun reqs next regular start s₀ s caller place → Elsewhere reqs s s' →
      CallRun reqs next regular start s₀ s' caller place

/-- The request is not one that was left behind, and when it is waited for it is not null. -/
def regularAt (reqs : List Request) (s : Sys) (i : Nat) (waits : Bool) : Prop :=
  ∀ req, reqs[i]? = some req → ¬ req.behind s ∧ (waits = true → req ≠ .null)

def anyRegular (reqs : List Request) (s : Sys) : AnyPlace → Prop
  | .poll i => if i < reqs.length then regularAt reqs s i false else regularAt reqs s 0 true
  | _ => True

def someRegular (reqs : List Request) (s : Sys) : SomePlace → Prop
  | .poll i indice =>
      if i < reqs.length then regularAt reqs s i false
      else indice ≠ [] ∨ regularAt reqs s 0 true
  | .again i _ => regularAt reqs s i false
  | _ => True

/-! ## What a call touches -/

/-- Only the handle of the request is written. -/
structure Touches (req : Request) (s s' : Sys) : Prop where
  smem : ∀ a, req ≠ .send a → s'.smem a = s.smem a
  rmem : ∀ b, req ≠ .recv b → s'.rmem b = s.rmem b

variable {s s' s₁ : Sys} {a b : Addr} {h h' : SHandle} {r r' : RHandle} {req req' : Request}

namespace Touches

theorem refl (req : Request) (s : Sys) : Touches req s s := ⟨fun _ _ => rfl, fun _ _ => rfl⟩

theorem trans (first : Touches req s s₁) (second : Touches req s₁ s') : Touches req s s' :=
  ⟨fun a other => (second.smem a other).trans (first.smem a other),
    fun b other => (second.rmem b other).trans (first.rmem b other)⟩

theorem record (req : Request) (s : Sys) (e : Event) : Touches req s (s.record e) :=
  ⟨fun _ _ => rfl, fun _ _ => rfl⟩

theorem setS (s : Sys) (a : Addr) (cell : SCell) : Touches (.send a) s (s.setS a cell) :=
  ⟨fun _ other => Function.update_of_ne (fun same => other (congrArg _ same.symm)) _ _,
    fun _ _ => rfl⟩

theorem setR (s : Sys) (b : Addr) (r : RHandle) : Touches (.recv b) s (s.setR b r) :=
  ⟨fun _ _ => rfl,
    fun _ other => Function.update_of_ne (fun same => other (congrArg _ same.symm)) _ _⟩

theorem finishSh (s : Sys) (a : Addr) (h : SHandle) : Touches (.send a) s (finishSh s a h) := by
  unfold Intra.finishSh
  dsimp only
  split
  · exact (setS s a _).trans ⟨fun _ _ => rfl, fun _ _ => rfl⟩
  · exact setS s a _

theorem finishRh (s : Sys) (b : Addr) (r : RHandle) : Touches (.recv b) s (finishRh s b r) := by
  unfold Intra.finishRh
  dsimp only
  split
  · exact (setR s b _).trans ⟨fun _ _ => rfl, fun _ _ => rfl⟩
  · exact setR s b _

theorem leaveSh (s : Sys) (a : Addr) (h : SHandle) (copies : Bool) :
    Touches (.send a) s (leaveSh s a h copies) := by
  unfold Intra.leaveSh
  dsimp only
  split
  · split
    · split
      · exact (setS s a _).trans (record _ _ _)
      · exact (setS s a _).trans (record _ _ _)
    · exact (setS s a _).trans (record _ _ _)
  · exact (setS s a _).trans (record _ _ _)

/-- A request is as much under way as before if the call was on another one. -/
theorem underway_iff (touches : Touches req s s') (other : req' ≠ req) :
    req'.underway s' ↔ req'.underway s := by
  cases req' with
  | null => rfl
  | send a => rw [Request.underway, Request.underway, touches.smem a other.symm]
  | recv b => rw [Request.underway, Request.underway, touches.rmem b other.symm]

end Touches

/-! ## What a call is remembered by -/

theorem answered_of_log (added : List Event) (log : s'.log = s.log ++ added) :
    s.answered s' req = added.findSome? (s.code req) := by
  rw [Sys.answered, log, List.drop_left]

theorem answered_finishSh {ret : Err} {status : Option Status} (front : List Event)
    (log : s₁.log = s.log ++ front) (quiet : front.findSome? (s.code (.send a)) = none) (inst : Nat) :
    s.answered (finishSh (s₁.record (.sendReturned a inst ret status)) a h) (.send a) = some ret := by
  obtain ⟨rest, after⟩ := finishSh_records s₁ a h (.sendReturned a inst ret status)
  rw [log, List.append_assoc] at after
  rw [answered_of_log _ after, List.findSome?_append, quiet, List.findSome?_cons]
  simp [Sys.code]

theorem answered_leaveSh (s : Sys) (a : Addr) (h : SHandle) (copies : Bool) :
    ∃ code, s.answered (leaveSh s a h copies) (.send a) = some code := by
  have logged (cell : SCell) (ret : Err) (status : Option Status) : s.answered
      ((s.setS a cell).record (.sendReturned a h.inst ret status)) (.send a) = some ret := by
    rw [answered_of_log [.sendReturned a h.inst ret status] rfl]
    simp [Sys.code]
  unfold leaveSh
  dsimp only
  split
  · split
    · split
      · exact ⟨_, logged _ _ _⟩
      · exact ⟨_, logged _ _ _⟩
    · exact ⟨_, logged _ _ _⟩
  · exact ⟨_, logged _ _ _⟩

theorem answered_refused (s : Sys) (a : Addr) (inst : Nat) (ret : Err) (status : Option Status) :
    s.answered (s.record (.sendReturned a inst ret status)) (.send a) = some ret := by
  rw [answered_of_log [.sendReturned a inst ret status] rfl]
  simp [Sys.code]

theorem answered_same (log : s'.log = s.log) : s.answered s' req = none := by
  rw [answered_of_log [] (log.trans (List.append_nil _).symm)]
  rfl

/-! ## One call on a request -/

/-- A call on a request that is not left behind: it is under way, or the call is refused. -/
structure Called (s s' : Sys) (req : Request) : Prop where
  touches : Touches req s s'
  place : req.underway s ∨ (s.answered s' req = some .errIntern ∧
    ∀ other : Request, other.underway s' ↔ other.underway s)

/-- The flag is set when the call reports the completion, or fails to. -/
structure CalledTest (s s' : Sys) (req : Request) (flag : Bool) : Prop extends Called s s' req where
  told : flag = true → s.answered s' req ≠ none
  sets : s.answered s' req = some .success → flag = true

theorem underway_record (req : Request) (s : Sys) (e : Event) :
    req.underway (s.record e) ↔ req.underway s := by
  cases req <;> rfl

theorem underway_of_started (cell : s.smem a = .send h) (ahead : ¬ Request.behind s (.send a))
    (started : (h.stat.pend || h.stat = .matched) = true) : Request.underway s (.send a) :=
  ⟨h, cell, started, fun left => ahead ⟨h, cell, left⟩⟩

theorem called_refused (s : Sys) (a : Addr) (inst : Nat) (status : Option Status) :
    Called s (s.record (.sendReturned a inst .errIntern status)) (.send a) :=
  ⟨.record _ _ _, .inr ⟨answered_refused s a inst _ _, fun _ => underway_record _ _ _⟩⟩

theorem quiet_fault (s : Sys) (a : Addr) (what : Fault) :
    [Event.fault what].findSome? (s.code (.send a)) = none := rfl

/-- The end of a call that completes a send, after a complaint perhaps. -/
theorem answered_finishSh_complains {p : Prop} [Decidable p] (s : Sys) (a : Addr) (h : SHandle)
    (what : Fault) (inst : Nat) (ret : Err) (status : Option Status) :
    Touches (.send a) s (finishSh ((if p then s.record (.fault what) else s).record
      (.sendReturned a inst ret status)) a h) ∧
    s.answered (finishSh ((if p then s.record (.fault what) else s).record
      (.sendReturned a inst ret status)) a h) (.send a) = some ret := by
  split
  · exact ⟨((Touches.record _ _ _).trans (.record _ _ _)).trans (.finishSh _ a h),
      answered_finishSh [.fault what] rfl (quiet_fault s a _) inst⟩
  · exact ⟨(Touches.record _ _ _).trans (.finishSh _ a h),
      answered_finishSh [] (List.append_nil _).symm rfl inst⟩

section Tests

variable (underway : Request.underway s (.send a))
include underway

theorem calledTest_locks (cell : SCell) : CalledTest s (s.setS a cell) (.send a) false where
  touches := .setS s a cell
  place := .inl underway
  told := nofun
  sets success := by
    have silent : s.answered (s.setS a cell) (.send a) = none := answered_same rfl
    rw [silent] at success
    cases success

theorem calledTest_leaves (copies : Bool) : CalledTest s (leaveSh s a h copies) (.send a) true where
  touches := .leaveSh s a h copies
  place := .inl underway
  told _ := by
    obtain ⟨code, answered⟩ := answered_leaveSh s a h copies
    rw [answered]
    exact Option.some_ne_none code
  sets _ := rfl

theorem calledTest_finishes (p : Prop) [Decidable p] (what : Fault) (inst : Nat) (ret : Err)
    (status : Option Status) : CalledTest s (finishSh ((if p then s.record (.fault what) else s).record
      (.sendReturned a inst ret status)) a h) (.send a) true where
  touches := (answered_finishSh_complains s a h what inst ret status).1
  place := .inl underway
  told _ := by
    rw [(answered_finishSh_complains s a h what inst ret status).2]
    exact Option.some_ne_none ret
  sets _ := rfl

end Tests

theorem testSh_spec {flag : Bool} (cell : s.smem a = .send h)
    (ahead : ¬ Request.behind s (.send a)) (call : tmpiIntraTestSh s a h = some (s', flag)) :
    CalledTest s s' (.send a) flag := by
  unfold tmpiIntraTestSh at call
  split at call
  next =>
    cases call
    refine ⟨called_refused s a _ _, nofun, fun success => ?_⟩
    rw [answered_refused] at success
    cases success
  next called =>
    rw [Stat.any_started, Bool.not_eq_true', Bool.not_eq_false] at called
    have underway := underway_of_started cell ahead called
    split at call
    next => cases call
    next =>
      split at call
      next =>
        cases call
        exact calledTest_finishes underway False .protocolError _ _ _
      next =>
        split at call
        next =>
          cases call
          exact calledTest_finishes underway _ .protocolError _ _ _
        next =>
          split at call
          next =>
            cases call
            exact calledTest_locks underway _
          next =>
            cases call
            exact calledTest_locks underway _
          next =>
            cases call
            exact calledTest_leaves underway _
          next =>
            split at call
            next =>
              cases call
              exact calledTest_leaves underway _
            next =>
              cases call
              exact calledTest_locks underway _

/-! ## Receives -/

theorem answered_completeRh (s : Sys) (b : Addr) :
    s.answered (completeRh s b (s.rmem b)) (.recv b) = some .success := by
  have record : ∃ rest, (completeRh s b (s.rmem b)).log = s.log ++ .received (s.rmem b).inst
      (s.rmem b).peer (s.rmem b).status (s.rmem b).data :: rest := by
    unfold completeRh finishRh
    dsimp only
    split
    · exact ⟨_, List.append_assoc _ _ _⟩
    · exact ⟨[], rfl⟩
  obtain ⟨rest, log⟩ := record
  rw [answered_of_log _ log, List.findSome?_cons]
  simp [Sys.code]

theorem touches_completeRh (s : Sys) (b : Addr) (r : RHandle) :
    Touches (.recv b) s (completeRh s b r) :=
  (Touches.record _ _ _).trans (.finishRh _ b r)

theorem answered_refused_recv (s : Sys) (b : Addr) (inst : Nat) (ret : Err) :
    s.answered (s.record (.recvReturned b inst ret)) (.recv b) = some ret := by
  rw [answered_of_log [.recvReturned b inst ret] rfl]
  simp [Sys.code]

theorem called_refused_recv (s : Sys) (b : Addr) (inst : Nat) :
    Called s (s.record (.recvReturned b inst .errIntern)) (.recv b) :=
  ⟨.record _ _ _, .inr ⟨answered_refused_recv s b inst _, fun _ => underway_record _ _ _⟩⟩

theorem testRh_spec {flag : Bool} (call : tmpiIntraTestRh s b (s.rmem b) = (s', flag)) :
    CalledTest s s' (.recv b) flag := by
  unfold tmpiIntraTestRh at call
  split at call
  next =>
    cases call
    refine ⟨called_refused_recv s b _, nofun, fun success => ?_⟩
    rw [answered_refused_recv] at success
    cases success
  next called =>
    rw [Stat.any_posted, Bool.not_eq_true', Bool.not_eq_false] at called
    split at call
    next =>
      cases call
      refine ⟨⟨touches_completeRh _ _ _, .inl called⟩, fun _ => ?_, fun _ => rfl⟩
      rw [answered_completeRh]
      exact Option.some_ne_none _
    next =>
      cases call
      refine ⟨⟨.refl _ s, .inl called⟩, nofun, fun success => ?_⟩
      rw [answered_same rfl] at success
      cases success

theorem tmpiTest_spec {flag : Bool} (ahead : ¬ req.behind s) (present : req ≠ .null)
    (call : tmpiTest s req = some (s', flag)) : CalledTest s s' req flag := by
  cases req with
  | null => exact absurd rfl present
  | recv b => exact testRh_spec (Option.some.inj call)
  | send a =>
      unfold tmpiTest at call
      dsimp only at call
      split at call
      next h cell => exact testSh_spec cell ahead call
      next => cases call

/-! ## The wait -/

theorem touches_interWaitRest (s : Sys) (a : Addr) (h : SHandle) :
    Touches (.send a) s (interWaitRest s a h) := by
  unfold interWaitRest blockSh
  split
  · exact (Touches.record _ _ _).trans (.finishSh _ a h)
  · split
    · exact (answered_finishSh_complains s a h .protocolError _ _ _).1
    · split
      · exact .setS s a _
      · exact .setS s a _
      · exact .leaveSh s a h true
      · split
        · exact .leaveSh s a h true
        · exact .setS s a _

theorem waitSh_spec (cell : s.smem a = .send h) (ahead : ¬ Request.behind s (.send a))
    (call : tmpiIntraWaitSh s a h = some s') : Called s s' (.send a) := by
  unfold tmpiIntraWaitSh at call
  split at call
  next =>
    unfold tmpiInterWaitSh at call
    split at call
    next =>
      cases call
      exact called_refused s a _ _
    next called =>
      rw [Stat.any_started, Bool.not_eq_true', Bool.not_eq_false] at called
      have underway := underway_of_started cell ahead called
      split at call
      next => cases call
      next =>
        split at call
        · cases call
          exact ⟨.setS s a _, .inl underway⟩
        · cases call
          exact ⟨touches_interWaitRest s a h, .inl underway⟩
  next =>
    split at call
    next =>
      cases call
      exact called_refused s a _ _
    next called =>
      rw [Stat.any_linked, Bool.not_eq_true', Bool.not_eq_false] at called
      have underway := underway_of_started cell ahead called
      split at call
      next => cases call
      next =>
        split at call
        next =>
          cases call
          exact ⟨(Touches.record _ _ _).trans (.finishSh _ a h), .inl underway⟩
        next =>
          split at call
          next =>
            cases call
            exact ⟨.setS s a _, .inl underway⟩
          next =>
            cases call
            exact ⟨.leaveSh s a h true, .inl underway⟩
          next =>
            cases call
            exact ⟨(Touches.record _ _ _).trans (.finishSh _ a h), .inl underway⟩
          next =>
            split at call
            · cases call
              exact ⟨.leaveSh s a h true, .inl underway⟩
            · cases call
              exact ⟨.setS s a _, .inl underway⟩

theorem waitRh_spec (s : Sys) (b : Addr) :
    Called s (tmpiIntraWaitRh s b (s.rmem b)) (.recv b) := by
  unfold tmpiIntraWaitRh
  split
  next => exact called_refused_recv s b _
  next called =>
    rw [Stat.any_posted, Bool.not_eq_true', Bool.not_eq_false] at called
    split
    · exact ⟨touches_completeRh _ _ _, .inl called⟩
    · exact ⟨.setR s b _, .inl called⟩

theorem tmpiWait_spec (ahead : ¬ req.behind s) (present : req ≠ .null)
    (call : tmpiWait s req = some s') : Called s s' req := by
  cases req with
  | null => exact absurd rfl present
  | recv b =>
      cases call
      exact waitRh_spec s b
  | send a =>
      unfold tmpiWait at call
      dsimp only at call
      split at call
      next h cell => exact waitSh_spec cell ahead call
      next => cases call

theorem tmpiWake_touches (call : tmpiWake s req = some s') : Touches req s s' := by
  cases req with
  | null => cases call
  | recv b =>
      unfold tmpiWake wakeRh at call
      dsimp only at call
      split at call
      · cases call
        exact touches_completeRh _ _ _
      · cases call
  | send a =>
      unfold tmpiWake at call
      dsimp only at call
      split at call
      next h cell =>
        unfold wakeSh at call
        split at call
        next => cases call
        next =>
          split at call
          next =>
            split at call
            · cases call
            · cases call
              exact touches_interWaitRest s a _
          next =>
            split at call
            next =>
              split at call
              next =>
                split at call
                · cases call
                · cases call
                  exact (Touches.record _ _ _).trans (.finishSh _ a h)
              next =>
                split at call
                · cases call
                · cases call
                  exact (answered_finishSh_complains s a h .protocolError _ _ _).1
            next => cases call
      next => cases call

/-! ## What is reported -/

variable {reqs : List Request} {s₀ : Sys} {caller caller' : Caller} {i j : Nat}
  {indice : List Nat}

/-- Place `i` has a request that was under way at the call and that the call has completed. -/
def Completed (reqs : List Request) (s₀ : Sys) (caller : Caller) (i : Nat) : Prop :=
  ∃ req, reqs[i]? = some req ∧ req.underway s₀ ∧ i ∈ caller.completed

/-- Nothing in the array has come under way since the call. -/
def Still (reqs : List Request) (s₀ s : Sys) : Prop :=
  ∀ req ∈ reqs, req.underway s → req.underway s₀

theorem Still.called (still : Still reqs s₀ s) (called : Called s s' req) (member : req ∈ reqs) :
    Still reqs s₀ s' := by
  intro other inside underway
  by_cases same : other = req
  · subst same
    rcases called.place with before | ⟨-, unchanged⟩
    · exact still other member before
    · exact still other member ((unchanged other).mp underway)
  · exact still other inside ((called.touches.underway_iff same).mp underway)

theorem Still.woken (still : Still reqs s₀ s) (touches : Touches req s s')
    (underway : req.underway s₀) : Still reqs s₀ s' := by
  intro other inside after
  by_cases same : other = req
  · exact same ▸ underway
  · exact still other inside ((touches.underway_iff same).mp after)

theorem keepRet_success {ret code : Err} (success : keepRet ret code = .success) :
    ret = .success ∧ code = .success := by
  unfold keepRet at success
  split at success
  next other => exact absurd success other
  next same => exact ⟨success, not_not.mp same⟩

theorem Called.underway_of_success (called : Called s s' req)
    (success : s.answered s' req = some .success) : req.underway s := by
  rcases called.place with underway | ⟨refused, -⟩
  · exact underway
  · rw [success] at refused
    cases refused

theorem Called.underway_of_inside (called : Called s s' req)
    (inside : s.answered s' req = none) : req.underway s := by
  rcases called.place with underway | ⟨refused, -⟩
  · exact underway
  · rw [inside] at refused
    cases refused

theorem mem_returns (i : Nat) : i ∈ (caller.returns i (some .success)).completed := by
  simp [Caller.returns]

theorem completed_subset (i : Nat) (code : Option Err) :
    caller.completed ⊆ (caller.returns i code).completed := by
  unfold Caller.returns
  intro j member
  dsimp only
  split
  · exact List.mem_append_left _ member
  · exact member

/-! ## `tmpi_Waitany` -/

def AnyOk (reqs : List Request) (s₀ : Sys) (caller : Caller) : AnyPlace → Prop
  | .poll _ => True
  | .blocked => ∃ req, reqs[0]? = some req ∧ req.underway s₀
  | .done i => caller.ret = .success → Completed reqs s₀ caller i

theorem anyWaited_ok {place : AnyPlace} (here : reqs[0]? = some req) (present : req ≠ .null)
    (result : anyWaited s s' req caller = (caller', place))
    (underway : s.answered s' req = some .success ∨ s.answered s' req = none → req.underway s₀) :
    AnyOk reqs s₀ caller' place := by
  unfold anyWaited at result
  cases answer : s.answered s' req with
  | none =>
      simp only [answer, if_neg present] at result
      cases result
      exact ⟨req, here, underway (.inr answer)⟩
  | some code =>
      simp only [answer] at result
      cases result
      intro success
      have done : code = .success := success
      subst done
      exact ⟨req, here, underway (.inl answer), mem_returns 0⟩

theorem tmpiWaitany_step {place place' : AnyPlace} (still : Still reqs s₀ s)
    (ok : AnyOk reqs s₀ caller place) (regular : anyRegular reqs s place)
    (call : tmpiWaitany reqs s caller place = some (s', caller', place')) :
    Still reqs s₀ s' ∧ AnyOk reqs s₀ caller' place' := by
  cases place with
  | done i => cases call
  | blocked =>
      obtain ⟨req, here, rest⟩ := Option.bind_eq_some_iff.mp call
      obtain ⟨s'', woken, result⟩ := Option.bind_eq_some_iff.mp rest
      obtain ⟨req', here', underway⟩ := ok
      rw [here, Option.some.injEq] at here'
      subst here'
      obtain ⟨rfl, returned⟩ := Prod.mk.inj (Option.some.inj result)
      have present : req ≠ .null := by
        rintro rfl
        exact underway
      exact ⟨still.woken (tmpiWake_touches woken) underway,
        anyWaited_ok here present returned fun _ => underway⟩
  | poll i =>
      unfold tmpiWaitany at call
      unfold anyRegular at regular
      dsimp only at call regular
      split at call
      next inside =>
        rw [if_pos inside] at regular
        obtain ⟨req, here, rest⟩ := Option.bind_eq_some_iff.mp call
        obtain ⟨⟨s'', flag⟩, test, result⟩ := Option.bind_eq_some_iff.mp rest
        cases result
        have member := List.mem_of_getElem? here
        by_cases null : req = .null
        · subst null
          cases test
          exact ⟨still, trivial⟩
        · have called := tmpiTest_spec (regular req here).1 null test
          refine ⟨still.called called.toCalled member, ?_⟩
          cases flag with
          | false => exact trivial
          | true =>
              intro success
              obtain ⟨code, answer⟩ := Option.ne_none_iff_exists'.mp (called.told rfl)
              have done : code = .success := by
                have kept := (keepRet_success success).2
                rw [answer] at kept
                exact kept
              subst done
              refine ⟨req, here, still req member (called.underway_of_success answer), ?_⟩
              rw [answer]
              exact mem_returns i
      next beyond =>
        rw [if_neg beyond] at regular
        obtain ⟨req, here, rest⟩ := Option.bind_eq_some_iff.mp call
        obtain ⟨s'', waited, result⟩ := Option.bind_eq_some_iff.mp rest
        obtain ⟨rfl, returned⟩ := Prod.mk.inj (Option.some.inj result)
        have member := List.mem_of_getElem? here
        obtain ⟨ahead, present⟩ := regular req here
        have called := tmpiWait_spec ahead (present rfl) waited
        refine ⟨still.called called member, anyWaited_ok here (present rfl) returned fun outcome => ?_⟩
        exact still req member (outcome.elim called.underway_of_success called.underway_of_inside)

theorem waitany_run {place : AnyPlace}
    (run : CallRun reqs (tmpiWaitany reqs) (anyRegular reqs) (.poll 0) s₀ s caller place) :
    Still reqs s₀ s ∧ AnyOk reqs s₀ caller place := by
  induction run with
  | begin => exact ⟨fun _ _ underway => underway, trivial⟩
  | own _ regular call ih => exact tmpiWaitany_step ih.1 ih.2 regular call
  | elsewhere _ others ih =>
      exact ⟨fun req member underway => ih.1 req member (others req member underway), ih.2⟩

/-! ## `tmpi_Waitsome` -/

/-- The places reported so far, all below `bound`. -/
structure Listed (reqs : List Request) (s₀ : Sys) (caller : Caller) (indice : List Nat)
    (bound : Nat) : Prop where
  real : caller.ret = .success → ∀ j ∈ indice, Completed reqs s₀ caller j
  below : ∀ j ∈ indice, j < bound
  nodup : indice.Nodup
  all : ∀ j ∈ caller.completed, j ∈ indice

def SomeOk (reqs : List Request) (s₀ : Sys) (caller : Caller) : SomePlace → Prop
  | .poll i indice | .again i indice => Listed reqs s₀ caller indice i
  | .blocked => caller.completed = [] ∧ ∃ req, reqs[0]? = some req ∧ req.underway s₀
  | .done indice => ∃ bound, Listed reqs s₀ caller indice bound

theorem Completed.returns (completed : Completed reqs s₀ caller j) (i : Nat) (code : Option Err) :
    Completed reqs s₀ (caller.returns i code) j := by
  obtain ⟨req, here, underway, member⟩ := completed
  exact ⟨req, here, underway, completed_subset i code member⟩

/-- A test adds its place if it sets the flag. -/
theorem Listed.test (listed : Listed reqs s₀ caller indice i) {code : Option Err} {flag : Bool}
    (told : flag = true → code ≠ none) (sets : code = some .success → flag = true)
    (here : flag = true → code = some .success → Completed reqs s₀ (caller.returns i code) i) :
    Listed reqs s₀ (caller.returns i code) (if flag then indice ++ [i] else indice) (i + 1) := by
  have fresh : i ∉ indice := fun member => Nat.lt_irrefl _ (listed.below i member)
  constructor
  case real =>
    intro success j member
    obtain ⟨before, now⟩ := keepRet_success success
    have old : j ∈ indice → Completed reqs s₀ (caller.returns i code) j := fun inside =>
      (listed.real before j inside).returns i code
    cases flag with
    | false => exact old member
    | true =>
        rcases List.mem_append.mp member with inside | last
        · exact old inside
        · rw [List.mem_singleton.mp last]
          obtain ⟨c, answer⟩ := Option.ne_none_iff_exists'.mp (told rfl)
          rw [answer] at now
          exact here rfl (answer.trans (congrArg some now))
  case below =>
    intro j member
    cases flag with
    | false => exact Nat.lt_succ_of_lt (listed.below j member)
    | true =>
        rcases List.mem_append.mp member with inside | last
        · exact Nat.lt_succ_of_lt (listed.below j inside)
        · rw [List.mem_singleton.mp last]
          exact Nat.lt_succ_self i
  case nodup =>
    cases flag with
    | false => exact listed.nodup
    | true => exact List.nodup_append'.mpr ⟨listed.nodup, List.nodup_singleton i,
        fun j inside last => fresh (List.mem_singleton.mp last ▸ inside)⟩
  case all =>
    intro j member
    unfold Caller.returns at member
    dsimp only at member
    split at member
    next success =>
      rw [sets success]
      rcases List.mem_append.mp member with before | last
      · exact List.mem_append_left _ (listed.all j before)
      · exact List.mem_append_right _ last
    next =>
      cases flag with
      | false => exact listed.all j member
      | true => exact List.mem_append_left _ (listed.all j member)

/-- One round of either loop. -/
theorem someTest {flag : Bool} (still : Still reqs s₀ s) (listed : Listed reqs s₀ caller indice i)
    (here : reqs[i]? = some req) (regular : regularAt reqs s i false)
    (test : tmpiTest s req = some (s', flag)) :
    Still reqs s₀ s' ∧ Listed reqs s₀ (caller.returns i (s.answered s' req))
      (if flag then indice ++ [i] else indice) (i + 1) := by
  have member := List.mem_of_getElem? here
  by_cases null : req = .null
  · subst null
    cases test
    have silent : s.answered s .null = none := answered_same rfl
    rw [silent]
    exact ⟨still, listed.test nofun nofun nofun⟩
  · have called := tmpiTest_spec (regular req here).1 null test
    refine ⟨still.called called.toCalled member,
      listed.test called.told called.sets fun _ answer => ?_⟩
    refine ⟨req, here, still req member (called.underway_of_success answer), ?_⟩
    rw [answer]
    exact mem_returns i

theorem someWaited_ok {place : SomePlace} (nothing : caller.completed = [])
    (here : reqs[0]? = some req) (present : req ≠ .null)
    (result : someWaited s s' req caller = (caller', place))
    (underway : s.answered s' req = some .success ∨ s.answered s' req = none → req.underway s₀) :
    SomeOk reqs s₀ caller' place := by
  unfold someWaited at result
  cases answer : s.answered s' req with
  | none =>
      simp only [answer, if_neg present] at result
      cases result
      exact ⟨nothing, req, here, underway (.inr answer)⟩
  | some code =>
      simp only [answer] at result
      cases result
      have first : Listed reqs s₀ caller [] 0 :=
        ⟨fun _ _ => nofun, nofun, List.nodup_nil, by simp [nothing]⟩
      exact first.test (fun _ : true = true => Option.some_ne_none code) (fun _ => rfl)
        fun _ success => ⟨req, here, underway (.inl (answer.trans success)), by
          rw [success]
          exact mem_returns 0⟩

theorem tmpiWaitsome_step {place place' : SomePlace} (still : Still reqs s₀ s)
    (ok : SomeOk reqs s₀ caller place) (regular : someRegular reqs s place)
    (call : tmpiWaitsome reqs s caller place = some (s', caller', place')) :
    Still reqs s₀ s' ∧ SomeOk reqs s₀ caller' place' := by
  cases place with
  | done indice => cases call
  | blocked =>
      obtain ⟨req, here, rest⟩ := Option.bind_eq_some_iff.mp call
      obtain ⟨s'', woken, result⟩ := Option.bind_eq_some_iff.mp rest
      obtain ⟨nothing, req', here', underway⟩ := ok
      rw [here, Option.some.injEq] at here'
      subst here'
      obtain ⟨rfl, returned⟩ := Prod.mk.inj (Option.some.inj result)
      have present : req ≠ .null := by
        rintro rfl
        exact underway
      exact ⟨still.woken (tmpiWake_touches woken) underway,
        someWaited_ok nothing here present returned fun _ => underway⟩
  | again i indice =>
      unfold tmpiWaitsome at call
      dsimp only at call
      split at call
      next =>
        obtain ⟨req, here, rest⟩ := Option.bind_eq_some_iff.mp call
        obtain ⟨⟨s'', flag⟩, test, result⟩ := Option.bind_eq_some_iff.mp rest
        cases result
        exact someTest still ok here regular test
      next =>
        cases call
        exact ⟨still, i, ok⟩
  | poll i indice =>
      unfold tmpiWaitsome at call
      unfold someRegular at regular
      dsimp only at call regular
      split at call
      next inside =>
        rw [if_pos inside] at regular
        obtain ⟨req, here, rest⟩ := Option.bind_eq_some_iff.mp call
        obtain ⟨⟨s'', flag⟩, test, result⟩ := Option.bind_eq_some_iff.mp rest
        cases result
        exact someTest still ok here regular test
      next beyond =>
        rw [if_neg beyond] at regular
        split at call
        next =>
          cases call
          exact ⟨still, i, ok⟩
        next unreported =>
          have empty : indice = [] := not_not.mp unreported
          obtain ⟨req, here, rest⟩ := Option.bind_eq_some_iff.mp call
          obtain ⟨s'', waited, result⟩ := Option.bind_eq_some_iff.mp rest
          obtain ⟨rfl, returned⟩ := Prod.mk.inj (Option.some.inj result)
          have member := List.mem_of_getElem? here
          obtain ⟨ahead, present⟩ := regular.resolve_left unreported req here
          have called := tmpiWait_spec ahead (present rfl) waited
          have nothing : caller.completed = [] := List.eq_nil_iff_forall_not_mem.mpr
            fun j completed => List.not_mem_nil (empty ▸ ok.all j completed)
          refine ⟨still.called called member,
            someWaited_ok nothing here (present rfl) returned fun outcome => ?_⟩
          exact still req member (outcome.elim called.underway_of_success called.underway_of_inside)

theorem waitsome_run {place : SomePlace}
    (run : CallRun reqs (tmpiWaitsome reqs) (someRegular reqs) (.poll 0 []) s₀ s caller place) :
    Still reqs s₀ s ∧ SomeOk reqs s₀ caller place := by
  induction run with
  | begin =>
      exact ⟨fun _ _ underway => underway, fun _ _ => nofun, nofun, List.nodup_nil, nofun⟩
  | own _ regular call ih => exact tmpiWaitsome_step ih.1 ih.2 regular call
  | elsewhere _ others ih =>
      exact ⟨fun req member underway => ih.1 req member (others req member underway), ih.2⟩

/-! ## Both -/

/-- Every run in which no request of the array was left behind and the blocking wait is not for a
null request reports what it has completed, once each, and nothing else. -/
theorem waitany_waitsome_report (reqs : List Request) (s₀ : Sys) :
    (∀ s caller i, CallRun reqs (tmpiWaitany reqs) (anyRegular reqs) (.poll 0) s₀ s caller (.done i) →
      caller.ret = .success → Completed reqs s₀ caller i) ∧
    ∀ s caller indice,
      CallRun reqs (tmpiWaitsome reqs) (someRegular reqs) (.poll 0 []) s₀ s caller (.done indice) →
      caller.ret = .success → (∀ i ∈ indice, Completed reqs s₀ caller i) ∧ indice.Nodup ∧
        ∀ i ∈ caller.completed, i ∈ indice := by
  refine ⟨fun s caller i run success => (waitany_run run).2 success,
    fun s caller indice run success => ?_⟩
  obtain ⟨bound, listed⟩ := (waitsome_run run).2
  exact ⟨listed.real success, listed.nodup, listed.all⟩

/-- A receive that finds its message before it is tested. -/
theorem waitany_waitsome_report_one : ∃ s₀ s caller,
    follow ⟨fun _ => 0, 4, by decide⟩ (fun _ _ => true) (boot ⟨fun _ => 0, 4, by decide⟩)
      [.initRh 7 0 1 5 [0, 0] false true, .startRh ⟨1, 0⟩ true,
        .initSh 7 0 1 5 [1, 2] .buffered false false true, .startSh ⟨0, 0⟩ true] = some s₀ ∧
    CallRun [.null, .recv ⟨1, 0⟩] (tmpiWaitany [.null, .recv ⟨1, 0⟩])
      (anyRegular [.null, .recv ⟨1, 0⟩]) (.poll 0) s₀ s caller (.done 1) ∧
    Completed [.null, .recv ⟨1, 0⟩] s₀ caller 1 := by
  have regular (s : Sys) (i : Nat) (inside : i < 2) :
      anyRegular [.null, .recv ⟨1, 0⟩] s (.poll i) := by
    unfold anyRegular regularAt
    interval_cases i <;> simp [Request.behind]
  have run : ∃ s₀ s caller, follow ⟨fun _ => 0, 4, by decide⟩ (fun _ _ => true)
      (boot ⟨fun _ => 0, 4, by decide⟩)
      [.initRh 7 0 1 5 [0, 0] false true, .startRh ⟨1, 0⟩ true,
        .initSh 7 0 1 5 [1, 2] .buffered false false true, .startSh ⟨0, 0⟩ true] = some s₀ ∧
      CallRun [.null, .recv ⟨1, 0⟩] (tmpiWaitany [.null, .recv ⟨1, 0⟩])
        (anyRegular [.null, .recv ⟨1, 0⟩]) (.poll 0) s₀ s caller (.done 1) ∧ caller.ret = .success :=
    ⟨_, _, _, rfl, .own (.own .begin (regular _ 0 (by decide)) rfl) (regular _ 1 (by decide)) rfl, rfl⟩
  obtain ⟨s₀, s, caller, state, run, success⟩ := run
  exact ⟨s₀, s, caller, state, run, (waitany_waitsome_report _ _).1 s caller 1 run success⟩

/-- A null request before a receive that nothing was sent to: place 0 is reported. -/
theorem waitany_null_first : ∃ s₀ s caller,
    follow ⟨fun _ => 0, 4, by decide⟩ (fun _ _ => true) (boot ⟨fun _ => 0, 4, by decide⟩)
      [.initRh 7 0 1 5 [0, 0] false true, .startRh ⟨1, 0⟩ true] = some s₀ ∧
    (Request.recv ⟨1, 0⟩).underway s₀ ∧
    CallRun [.null, .recv ⟨1, 0⟩] (tmpiWaitany [.null, .recv ⟨1, 0⟩]) (fun _ _ => True) (.poll 0)
      s₀ s caller (.done 0) ∧
    caller.ret = .success ∧ ¬ Completed [.null, .recv ⟨1, 0⟩] s₀ caller 0 := by
  refine ⟨_, _, _, rfl, rfl,
    .own (.own (.own .begin trivial rfl) trivial rfl) trivial rfl, rfl, ?_⟩
  rintro ⟨req, here, underway, -⟩
  cases here
  exact underway

end Tmpi.Intra
