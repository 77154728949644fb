import Tmpi.Netd.Rendezvous
import Mathlib.Algebra.BigOperators.Group.Finset.Basic
import Mathlib.Algebra.Order.BigOperators.Group.Finset

/-! How many calls there are until every node has its tables. -/

namespace Tmpi.Netd.Bootstrap

open Sockets

variable {N : Nat} {host : Nat → String} {rootlisfd rootport : Nat} {s s' : State} {v : Board}
  {rank : Nat → Nat} {p : Nat} {n n' : Node} {w w' : World Addr Word}

/-- At most so many steps are left for a process at this place. -/
def Pc.left (N : Nat) : Pc → Nat
  | connRoot => 9 * N + 15
  | listen .pt => 9 * N + 14
  | listen .bc => 9 * N + 13
  | writePort .pt => 9 * N + 12
  | writePort .bc => 9 * N + 11
  | writeHost => 9 * N + 10
  | readInfo => 9 * N + 9
  | readPorts .pt => 9 * N + 8
  | readPorts .bc => 9 * N + 7
  | readHosts i => N - i + (8 * N + 6)
  | conn .pt i => 2 * (N - i) + (6 * N + 5)
  | writeId .pt i => 2 * (N - i) + (6 * N + 4)
  | accept .pt i => 2 * (N - i) + (4 * N + 4)
  | readId .pt i _ => 2 * (N - i) + (4 * N + 3)
  | conn .bc i => 2 * (N - i) + (2 * N + 3)
  | writeId .bc i => 2 * (N - i) + (2 * N + 2)
  | accept .bc i => 2 * (N - i) + 2
  | readId .bc i _ => 2 * (N - i) + 1
  | tables => 1
  | done => 0
  | listenGroup => 5 * N + N * (N + 3) + (2 * N + 5)
  | acceptRoot i => 5 * (N - i) + N * (N + 3) + (2 * N + 4)
  | readPort i .pt => 5 * (N - i) + N * (N + 3) + (2 * N + 3)
  | readPort i .bc => 5 * (N - i) + N * (N + 3) + (2 * N + 2)
  | readHost i => 5 * (N - i) + N * (N + 3) + (2 * N + 1)
  | writeInfo i => 5 * (N - i) + N * (N + 3) + 2 * N
  | writePorts i .pt => (N - i) * (N + 3) + (2 * N + 3)
  | writePorts i .bc => (N - i) * (N + 3) + (2 * N + 2)
  | writeHosts i j => (N - (i + 1)) * (N + 3) + (N - j) + (2 * N + 4)

/-- One round of the loop in which the master sends its tables. -/
theorem round_left {i : Nat} (more : i < N) :
    (N - i) * (N + 3) = (N - (i + 1)) * (N + 3) + (N + 3) := by
  have one : N - i = N - (i + 1) + 1 := by omega
  rw [one, Nat.succ_mul]

theorem Act.left (act : Act host rootport p n w n' w') (fits : n.pc.Fits N p (rank p))
    (info : n.pc.informed → n.size = N ∧ n.myid = rank p) : n'.pc.left N < n.pc.left N := by
  cases act with
  | connRoot fd here _ _ | readInfo size myid here _ | writeHost here _ | tables here _ _ =>
      rw [here]
      simp [Pc.left]
  | listen net fd port here _ _ | writePort net here _ =>
      rw [here]
      cases net <;> simp [Pc.left]
  | readPorts net table here _ _ =>
      rw [here]
      cases net <;> simp [Pc.left]
      omega
  | listenGroup fd port here _ _ =>
      rw [here]
      simp only [Pc.left]
      omega
  | readHosts i name here more _ | acceptRoot i cfd c here more _ =>
      rw [here] at info ⊢
      rw [(info trivial).1] at more
      simp only [Pc.left]
      omega
  | writeHosts i j here more _ =>
      rw [here] at info ⊢
      rw [(info trivial).1] at more
      simp only [Pc.left]
      omega
  | accept net i newfd c here more _ =>
      rw [here] at info ⊢
      rw [(info trivial).1] at more
      cases net <;> simp only [Pc.left] <;> omega
  | writePorts i net here more _ =>
      rw [here] at info ⊢
      rw [(info trivial).1] at more
      have round := round_left more
      cases net <;> simp only [Pc.left, Pc.afterWritePorts] <;> omega
  | readHostsEnd i here _ | writePortsEnd i here _ =>
      rw [here]
      simp only [Pc.left]
      omega
  | acceptRootEnd i here _ =>
      have fewer : (N - 1) * (N + 3) ≤ N * (N + 3) := Nat.mul_le_mul_right _ (Nat.sub_le N 1)
      rw [here]
      simp only [Pc.left]
      omega
  | acceptEnd net i here _ | connEnd net i here _ =>
      rw [here]
      cases net <;> simp only [Pc.left, Pc.afterAccept] <;> omega
  | conn net i fd here _ _ _ | writeId net i here _ | readId net i newfd newid here _ =>
      rw [here] at fits ⊢
      cases net <;> simp only [Pc.left] <;> simp at fits <;> omega
  | readPort i port net here _ =>
      rw [here]
      cases net <;> simp only [Pc.left, Pc.afterReadPort] <;> omega
  | readHost i name here _ =>
      rw [here]
      simp only [Pc.left]
      omega
  | writeInfo i here _ =>
      rw [here] at fits ⊢
      have small := fits.2.2
      simp only [Pc.left]
      omega
  | writeHostsEnd i j here last =>
      rw [here]
      simp only [Pc.left]
      omega

/-! ## All nodes -/

def State.left (N : Nat) (s : State) : Nat := ∑ p ∈ Finset.range N, (s.node p).pc.left N

theorem Inv.step_left (inv : Inv N host rootport s v rank) (step : Step N host rootport s s') :
    s'.left N < s.left N := by
  obtain ⟨p, member, act⟩ := step
  have less := act.left (inv.fits p) (inv.informed p)
  apply Finset.sum_lt_sum
  · intro q _
    by_cases same : q = p
    · rw [same, State.put_self]
      exact less.le
    · rw [State.put_other s _ _ same]
  · refine ⟨p, Finset.mem_range.mpr member, ?_⟩
    rw [State.put_self]
    exact less

theorem boot_left : (boot N host rootlisfd rootport).left N ≤ 10 * N * N + 16 * N := by
  cases N with
  | zero => exact le_rfl
  | succ m =>
      have slaves : ∑ p ∈ Finset.range m,
          ((boot (m + 1) host rootlisfd rootport).node (p + 1)).pc.left (m + 1) =
            m * (9 * (m + 1) + 15) := by
        calc
          _ = ∑ p ∈ Finset.range m, (9 * (m + 1) + 15) := Finset.sum_congr rfl fun p _ => rfl
          _ = m * (9 * (m + 1) + 15) := by
            rw [Finset.sum_const, Finset.card_range, smul_eq_mul]
      rw [State.left, Finset.sum_range_succ', slaves]
      have master : ((boot (m + 1) host rootlisfd rootport).node 0).pc.left (m + 1) =
          5 * (m + 1) + (m + 1) * (m + 1 + 3) + (2 * (m + 1) + 5) := rfl
      rw [master]
      nlinarith

/-- A run, step by step. -/
structure Run (N : Nat) (host : Nat → String) (rootlisfd rootport : Nat) (run : Nat → State)
    (length : Nat) : Prop where
  start : run 0 = boot N host rootlisfd rootport
  steps : ∀ i, i < length → Step N host rootport (run i) (run (i + 1))

namespace Run

variable {run : Nat → State} {length : Nat}

theorem reaches (steps : Run N host rootlisfd rootport run length) {i : Nat} (within : i ≤ length) :
    Reaches N host rootport (boot N host rootlisfd rootport) (run i) := by
  induction i with
  | zero => rw [steps.start]
  | succ i ih => exact (ih (Nat.le_of_succ_le within)).tail (steps.steps i within)

theorem left_le (steps : Run N host rootlisfd rootport run length) (some : 0 < N)
    (positive : 0 < rootport) {i : Nat} (within : i ≤ length) :
    (run i).left N + i ≤ 10 * N * N + 16 * N := by
  induction i with
  | zero =>
      rw [steps.start]
      exact boot_left
  | succ i ih =>
      obtain ⟨v, rank, inv⟩ := reaches_inv some positive (steps.reaches (Nat.le_of_succ_le within))
      have less := inv.step_left (steps.steps i within)
      have before := ih (Nat.le_of_succ_le within)
      omega

theorem of_reaches (reached : Reaches N host rootport (boot N host rootlisfd rootport) s) :
    ∃ run length, Run N host rootlisfd rootport run length ∧ run length = s := by
  induction reached with
  | refl => exact ⟨fun _ => boot N host rootlisfd rootport, 0, ⟨rfl, fun i none => by omega⟩, rfl⟩
  | @tail t u _ step ih =>
      obtain ⟨run, length, steps, last⟩ := ih
      refine ⟨fun i => if i ≤ length then run i else u, length + 1, ⟨?_, ?_⟩, if_neg (by omega)⟩
      · exact steps.start
      · intro i within
        rcases Nat.lt_succ_iff_lt_or_eq.mp within with before | rfl
        · simpa only [if_pos before.le, if_pos (Nat.succ_le_of_lt before)] using steps.steps i before
        · simpa only [if_pos le_rfl, if_neg (Nat.not_succ_le_self i), last] using step

end Run

/-- From wherever the nodes have come to, they can all come to their tables. -/
theorem exists_finish (some : 0 < N) (positive : 0 < rootport)
    (reached : Reaches N host rootport (boot N host rootlisfd rootport) s) :
    ∃ s', Reaches N host rootport s s' ∧ ∀ p, p < N → (s'.node p).pc = .done := by
  induction left : s.left N using Nat.strong_induction_on generalizing s with
  | _ k ih =>
      obtain ⟨v, rank, inv⟩ := reaches_inv some positive reached
      by_cases busy : ∃ p, p < N ∧ (s.node p).pc ≠ .done
      · obtain ⟨p, member, busy⟩ := busy
        obtain ⟨t, step⟩ := inv.exists_step (reaches_small reached) positive member busy
        obtain ⟨s', rest, done⟩ := ih (t.left N) (left ▸ inv.step_left step) (reached.tail step) rfl
        exact ⟨s', rest.head step, done⟩
      · refine ⟨s, .refl, ?_⟩
        intro p member
        by_contra other
        exact busy ⟨p, member, other⟩

/-- However the calls of the nodes follow one another, there are at most so many of them, and as
long as a node is without its tables some node can make its next call. -/
theorem bootstrap_completes (some : 0 < N) (positive : 0 < rootport) {run : Nat → State}
    {length : Nat} (steps : Run N host rootlisfd rootport run length) :
    length ≤ 10 * N * N + 16 * N ∧
      ∀ p, p < N → ((run length).node p).pc ≠ .done →
        ∃ s', Step N host rootport (run length) s' := by
  have reached := steps.reaches le_rfl
  obtain ⟨v, rank, inv⟩ := reaches_inv some positive reached
  constructor
  · have left := steps.left_le some positive le_rfl
    omega
  · intro p member busy
    exact inv.exists_step (reaches_small reached) positive member busy

theorem bootstrap_completes_two : ∃ run length,
    Run 2 (fun p => if p = 0 then "master" else "slave") 3 7000 run length ∧ length ≤ 72 ∧
      ∀ p, p < 2 → ((run length).node p).pc = .done := by
  obtain ⟨s, reached, done⟩ := exists_finish (N := 2) Nat.two_pos (by decide : 0 < 7000) .refl
  obtain ⟨run, length, steps, last⟩ := Run.of_reaches reached
  exact ⟨run, length, steps, (bootstrap_completes Nat.two_pos (by decide) steps).1,
    by rw [last]; exact done⟩

end Tmpi.Netd.Bootstrap
