import Tmpi.Netq.Tables

/-! How the machines get their ids when the program is started.

`netd_start` on the master starts one process for every machine of the list but the
first, and then hands out ids to the processes in the order in which it accepts their
connections. Process `j` runs on the host of entry `j`; the master is process 0. -/

namespace Tmpi.Netq

/-- `rootlisfd`'s requests that wait, and what the processes know. `arrived` records the
order of the requests and is read by nobody. -/
structure Startup where
  backlog : List Nat
  arrived : List Nat
  accepted : Nat
  myid : Nat → Option Nat

inductive StartStep where
  /-- `sock_conn` in `netd_initEnv` of a slave. -/
  | connect (process : Nat)
  /-- One turn of the accepting loop of `netd_start`. -/
  | accept
  deriving DecidableEq, Repr

def Startup.init : Startup where
  backlog := []
  arrived := []
  accepted := 0
  myid := fun process => if process = 0 then some 0 else none

/-- `none` is a step that cannot be made: the process has connected before, or the master
waits in `sock_accept`, or it has accepted everybody. -/
def Startup.step (size : Nat) (st : Startup) : StartStep → Option Startup
  | .connect process =>
      if process = 0 ∨ size ≤ process ∨ process ∈ st.arrived then none
      else some { st with
        backlog := st.backlog ++ [process], arrived := st.arrived ++ [process] }
  | .accept =>
      if st.accepted + 1 < size then
        match st.backlog with
        | [] => none
        | process :: backlog =>
            -- `info[1]=i`
            some { st with
              backlog, accepted := st.accepted + 1
              myid := Function.update st.myid process (some (st.accepted + 1)) }
      else none

def Startup.run (size : Nat) : Startup → List StartStep → Option Startup
  | st, [] => some st
  | st, act :: rest => (st.step size act).bind (Startup.run size · rest)

/-- The host a process runs on. -/
def hostOf (macs : List MacEntry) (process : Nat) : Option (List UInt8) :=
  macs[process]?.map MacEntry.szHost

/-- Every process has the id of an entry with its own host. -/
def Placed (macs : List MacEntry) (st : Startup) : Prop :=
  ∀ process < macs.length, ∃ id, st.myid process = some id ∧ hostOf macs id = hostOf macs process

/-- The requests reach the master in the order of the machine list, as far as the hosts
can be told apart. -/
def InListOrder (macs : List MacEntry) (arrived : List Nat) : Prop :=
  ∀ k < arrived.length, hostOf macs (arrived.getD k 0) = hostOf macs (k + 1)

instance (macs : List MacEntry) (arrived : List Nat) : Decidable (InListOrder macs arrived) :=
  inferInstanceAs (Decidable (∀ k < _, _))

structure Startup.Ok (size : Nat) (st : Startup) : Prop where
  backlog : st.backlog = st.arrived.drop st.accepted
  bound : st.accepted ≤ st.arrived.length
  last : st.accepted + 1 ≤ size ∨ st.accepted = 0
  slaves : ∀ process ∈ st.arrived, process ≠ 0 ∧ process < size
  nodup : st.arrived.Nodup
  ids : ∀ k < st.accepted, st.myid (st.arrived.getD k 0) = some (k + 1)
  rest : ∀ process ∉ st.arrived.take st.accepted, st.myid process = Startup.init.myid process

theorem Startup.Ok.init (size : Nat) : Startup.Ok size .init := by
  constructor
  all_goals simp [Startup.init]

theorem Startup.Ok.step {size : Nat} {st st' : Startup} {act : StartStep} (ok : st.Ok size)
    (run : st.step size act = some st') : st'.Ok size := by
  cases act with
  | connect process =>
      simp only [Startup.step] at run
      split at run
      next => cases run
      next new =>
        push Not at new
        cases run
        exact
          { backlog := by
              rw [List.drop_append_of_le_length ok.bound, ok.backlog]
            bound := by
              rw [List.length_append]
              exact ok.bound.trans (Nat.le_add_right _ _)
            last := ok.last
            slaves := fun other member => by
              rcases List.mem_append.mp member with old | same
              · exact ok.slaves other old
              · rw [List.mem_singleton.mp same]
                exact ⟨new.1, new.2.1⟩
            nodup := by
              rw [List.nodup_append]
              refine ⟨ok.nodup, List.nodup_singleton _, fun other old last same => ?_⟩
              rw [List.mem_singleton.mp same]
              rintro rfl
              exact new.2.2 old
            ids := fun k before => by
              have inside := before.trans_le ok.bound
              have same := ok.ids k before
              rwa [List.getD_append _ _ _ _ inside]
            rest := fun other outside => by
              rw [List.take_append_of_le_length ok.bound] at outside
              exact ok.rest other outside }
  | accept =>
      simp only [Startup.step] at run
      split at run
      next room =>
        split at run
        next => cases run
        next process backlog waiting =>
          cases run
          have split := ok.backlog
          rw [waiting] at split
          have inside : st.accepted < st.arrived.length := by
            by_contra past
            rw [List.drop_of_length_le (Nat.le_of_not_lt past)] at split
            cases split
          rw [List.drop_eq_getElem_cons inside, List.cons.injEq] at split
          have here : st.arrived.getD st.accepted 0 = process := by
            rw [List.getD_eq_getElem _ _ inside, split.1]
          exact
            { backlog := split.2
              bound := inside
              last := .inl room
              slaves := ok.slaves
              nodup := ok.nodup
              ids := fun k before => by
                by_cases last : k = st.accepted
                · subst last
                  change Function.update _ _ _ (st.arrived.getD st.accepted 0) = _
                  rw [here, Function.update_self]
                · have older : k < st.accepted := Nat.lt_of_le_of_ne (Nat.le_of_lt_succ before) last
                  have other : st.arrived.getD k 0 ≠ process := by
                    intro same
                    rw [List.getD_eq_getElem _ _ (older.trans inside), split.1] at same
                    exact last ((ok.nodup.getElem_inj_iff).mp same)
                  change Function.update _ _ _ (st.arrived.getD k 0) = _
                  rw [Function.update_of_ne other]
                  exact ok.ids k older
              rest := fun other outside => by
                rw [List.take_succ_eq_append_getElem inside, List.mem_append, not_or] at outside
                have apart : other ≠ process := by
                  intro same
                  exact outside.2 (by simp [same, split.1])
                simpa [Function.update_of_ne apart] using ok.rest other outside.1 }
      next => cases run

theorem Startup.Ok.run {size : Nat} {st st' : Startup} {acts : List StartStep} (ok : st.Ok size)
    (run : st.run size acts = some st') : st'.Ok size := by
  induction acts generalizing st with
  | nil =>
      cases run
      exact ok
  | cons act rest ih =>
      obtain ⟨next, one, others⟩ := Option.bind_eq_some_iff.mp run
      exact ih (ok.step one) others

/-- At the end everybody has connected. -/
theorem Startup.Ok.everybody {size : Nat} {st : Startup} (ok : st.Ok size)
    (complete : st.accepted + 1 = size) : st.arrived.length = st.accepted ∧
      ∀ process, process ≠ 0 → process < size →
        ∃ k < st.accepted, st.arrived.getD k 0 = process := by
  have inside : st.arrived.toFinset ⊆ Finset.Ico 1 size := by
    intro process member
    have slave := ok.slaves process (List.mem_toFinset.mp member)
    exact Finset.mem_Ico.mpr ⟨Nat.one_le_iff_ne_zero.mpr slave.1, slave.2⟩
  have count := List.toFinset_card_of_nodup ok.nodup
  have most := Finset.card_le_card inside
  rw [count, Nat.card_Ico] at most
  have full : st.arrived.length = st.accepted := by
    have bound := ok.bound
    omega
  have same : st.arrived.toFinset = Finset.Ico 1 size :=
    Finset.eq_of_subset_of_card_le inside (by rw [count, Nat.card_Ico]; omega)
  refine ⟨full, fun process slave bound => ?_⟩
  have member : process ∈ st.arrived := by
    rw [← List.mem_toFinset, same]
    exact Finset.mem_Ico.mpr ⟨Nat.one_le_iff_ne_zero.mpr slave, bound⟩
  obtain ⟨k, place, here⟩ := List.getElem_of_mem member
  exact ⟨k, by rwa [full] at place, by rw [List.getD_eq_getElem _ _ place, here]⟩

/-- When everybody has been accepted, the ids are right exactly if the requests came in
the order of the machine list. -/
theorem placed_iff (macs : List MacEntry) (acts : List StartStep)
    (st : Startup) (run : Startup.init.run macs.length acts = some st)
    (complete : st.accepted + 1 = macs.length) :
    Placed macs st ↔ InListOrder macs st.arrived := by
  have ok := (Startup.Ok.init macs.length).run run
  obtain ⟨full, all⟩ := ok.everybody complete
  constructor
  · intro placed k bound
    have inside : k < st.accepted := by rwa [full] at bound
    have slave := ok.slaves (st.arrived.getD k 0) (by rw [List.getD_eq_getElem _ _ bound]; exact List.getElem_mem bound)
    obtain ⟨id, mine, host⟩ := placed _ slave.2
    rw [ok.ids k inside] at mine
    cases mine
    exact host.symm
  · intro order process bound
    by_cases master : process = 0
    · subst master
      refine ⟨0, ?_, rfl⟩
      rw [ok.rest 0 fun member => (ok.slaves 0 (List.mem_of_mem_take member)).1 rfl]
      rfl
    · obtain ⟨k, inside, here⟩ := all process master bound
      refine ⟨k + 1, by rw [← here]; exact ok.ids k inside, ?_⟩
      rw [← order k (by rw [full]; exact inside), here]

theorem placed_iff_in_order : Placed [⟨[97], [0]⟩, ⟨[98], [1]⟩, ⟨[99], [2]⟩]
    ((Startup.init.run 3 [.connect 1, .accept, .connect 2, .accept]).getD .init) :=
  (placed_iff [⟨[97], [0]⟩, ⟨[98], [1]⟩, ⟨[99], [2]⟩]
    [.connect 1, .accept, .connect 2, .accept] _ rfl rfl).mpr (by decide)

/-- Three machines: the process on the third host connects first and becomes machine 1, so that
it runs rank 1, which is listed for the second host. -/
theorem placed_swapped : ∃ st, Startup.init.run 3 [.connect 2, .connect 1, .accept, .accept] = some st ∧
    st.accepted + 1 = 3 ∧ st.myid 2 = some 1 ∧
    (netqStart [⟨[97], [0]⟩, ⟨[98], [1]⟩, ⟨[99], [2]⟩] 1).lTable = [1] ∧
    ¬ Placed [⟨[97], [0]⟩, ⟨[98], [1]⟩, ⟨[99], [2]⟩] st := by
  refine ⟨_, rfl, rfl, rfl, rfl, fun placed => ?_⟩
  obtain ⟨id, mine, host⟩ := placed 2 (by decide)
  cases mine
  exact absurd host (by decide)

end Tmpi.Netq
