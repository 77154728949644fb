import Tmpi.Coll.Progress
import Tmpi.Netd.Collective
import Tmpi.Netq.Tables

/-! `tmpi_Bcast` and `tmpi_Reduce` when all ranks run on one machine. -/

namespace Tmpi.Mpi

open Coll Netq

/-- A call on `MPI_COMM_WORLD`; the root is a global rank. `len` is `count` times the size of the
data type, and a reduce is one of `int`s. -/
inductive MpiCall where
  | bcast (root : Int) (len : Nat)
  | reduce (root : Int) (op : Option RdcOp) (count : Nat)
  deriving DecidableEq, Repr

def MpiCall.root : MpiCall → Int
  | .bcast root _ => root
  | .reduce root _ _ => root

/-- `local_root` of `tmpi_Bcast` and of `tmpi_Reduce`. -/
def localRoot (info : Info) (root : Int) : Int :=
  if netqIsLocalNode info root then tmpiGrankToLrank info root else 0

/-- What `tmpi_Bcast` passes to `tmpi_bco_bcast`, and `tmpi_Reduce` to `tmpi_rdco_reduce`. The
`int buflen` of a broadcast goes on as an `unsigned int`. -/
def MpiCall.collective (macSize : Nat) (info : Info) : MpiCall → Collective
  | .bcast root len => .bcast (localRoot info root).toNat (len % 2^32)
  | .reduce root op count =>
      if macSize > 1 then .reduce (localRoot info root).toNat op count
      else .reduce root.toNat op count

/-- `tmpi_Reduce` returns `MPI_ERR_INTERN` without a `tmp_buf`, and `malloc` has none of a negative
`buflen`. -/
def MpiCall.enters : MpiCall → Bool
  | .bcast .. => true
  | .reduce _ _ count => 0 ≤ intsLen count

/-- The collectives that the threads of a machine get to. -/
def collectives (macSize : Nat) (info : Info) (calls : List MpiCall) : List Collective :=
  (calls.filter MpiCall.enters).map (MpiCall.collective macSize info)

/-- The bytes fit the lengths of the code: an `unsigned int` for a broadcast, an `int` for a
reduce. -/
def MpiCall.Small : MpiCall → Prop
  | .bcast _ len => len < 2^32
  | .reduce _ _ count => 4 * count < 2^31

instance (c : MpiCall) : Decidable c.Small := by
  cases c <;> exact inferInstanceAs (Decidable (_ < _))

theorem MpiCall.Small.enters {c : MpiCall} (small : c.Small) : c.enters = true := by
  cases c with
  | bcast => rfl
  | reduce root op count =>
      have exact := intsLen_eq_iff.mpr small
      rw [MpiCall.enters, exact]
      exact decide_eq_true (by omega)

theorem MpiCall.Small.fits {c : MpiCall} (small : c.Small) (macSize : Nat) (info : Info) :
    (c.collective macSize info).Fits := by
  cases c with
  | bcast => trivial
  | reduce root op count =>
      have fit : ∀ r, (Collective.reduce r op count).Fits := fun _ => small
      rw [MpiCall.collective]
      split
      · exact fit _
      · exact fit _

/-- Where everything fits, the threads get to every collective. -/
theorem collectives_small {calls : List MpiCall} (small : ∀ c ∈ calls, c.Small) (macSize : Nat)
    (info : Info) : collectives macSize info calls = calls.map (MpiCall.collective macSize info) := by
  rw [collectives, List.filter_eq_self.mpr fun c member => (small c member).enters]

/-! ## Ranks and threads -/

/-- The thread of a rank. -/
def lrank (info : Info) (g : Nat) : Nat := (tmpiGrankToLrank info g).toNat

section OneMachine

variable {mac : MacEntry} (accepted : Accepted [mac])

include accepted

theorem local_of_rank {g : Nat} (rank : g < mac.nNodes) : ∃ l < mac.nNodes,
    tmpiGrankToLrank (netqStart [mac] 0) g = l ∧ ((g : Int), (⟨0, l⟩ : IdEntry)) ∈ places [mac] := by
  obtain ⟨⟨i, l⟩, mac', member, place, node⟩ := accepted.exists_place (Int.natCast_nonneg g)
    (by simpa using rank)
  obtain ⟨rfl, rfl⟩ : mac = mac' ∧ i = 0 := by
    cases i with
    | zero => exact ⟨by simpa using place, rfl⟩
    | succ i => simp at place
  have inside := (List.getElem?_eq_some_iff.mp node).1
  exact ⟨l, inside, (accepted.local_iff 0 g l).mpr member, member⟩

theorem lrank_lt {g : Nat} (rank : g < mac.nNodes) : lrank (netqStart [mac] 0) g < mac.nNodes := by
  obtain ⟨l, inside, known, -⟩ := local_of_rank accepted rank
  rw [lrank, known]
  exact inside

theorem lrank_injOn : Set.InjOn (lrank (netqStart [mac] 0)) (Finset.range mac.nNodes) := by
  intro g rank g' rank' same
  obtain ⟨l, -, known, here⟩ := local_of_rank accepted (Finset.mem_range.mp rank)
  obtain ⟨l', -, known', there⟩ := local_of_rank accepted (Finset.mem_range.mp rank')
  rw [lrank, lrank, known, known', Int.toNat_natCast, Int.toNat_natCast] at same
  rw [same] at here
  exact_mod_cast rank_unique here there

theorem lrank_image :
    (Finset.range mac.nNodes).image (lrank (netqStart [mac] 0)) = Finset.range mac.nNodes := by
  refine Finset.eq_of_subset_of_card_le ?_ ?_
  · intro l member
    obtain ⟨g, rank, rfl⟩ := Finset.mem_image.mp member
    exact Finset.mem_range.mpr (lrank_lt accepted (Finset.mem_range.mp rank))
  · rw [Finset.card_image_of_injOn (lrank_injOn accepted)]

/-- A reduction over the ranks is one over the threads. -/
theorem combined_lrank (op : RdcOp) (value : Nat → BitVec 32) :
    combined op (Finset.range mac.nNodes) (fun g => value (lrank (netqStart [mac] 0) g)) =
      combined op (Finset.range mac.nNodes) value := by
  calc combined op (Finset.range mac.nNodes) (fun g => value (lrank (netqStart [mac] 0) g))
      = combined op ((Finset.range mac.nNodes).image (lrank (netqStart [mac] 0))) value :=
        (Finset.fold_image (lrank_injOn accepted)).symm
    _ = combined op (Finset.range mac.nNodes) value := by rw [lrank_image accepted]

theorem totals_lrank (op : Option RdcOp) (value : Nat → BitVec 32) (x : BitVec 32) :
    Totals op (Finset.range mac.nNodes) (fun g => value (lrank (netqStart [mac] 0) g)) x ↔
      Totals op (Finset.range mac.nNodes) value x := by
  cases op with
  | some op =>
      have same := combined_lrank accepted op value
      unfold Totals
      simp only [same]
  | none =>
      constructor
      · rintro ⟨g, rank, here⟩
        exact ⟨_, Finset.mem_range.mpr (lrank_lt accepted (Finset.mem_range.mp rank)), here⟩
      · rintro ⟨t, thread, here⟩
        rw [← lrank_image accepted] at thread
        obtain ⟨g, rank, rfl⟩ := Finset.mem_image.mp thread
        exact ⟨g, rank, here⟩

theorem localRoot_eq {root : Int} (nonneg : 0 ≤ root) (rank : root < mac.nNodes) :
    localRoot (netqStart [mac] 0) root = lrank (netqStart [mac] 0) root.toNat := by
  obtain ⟨l, -, known, -⟩ := local_of_rank accepted (show root.toNat < mac.nNodes by omega)
  rw [Int.toNat_of_nonneg nonneg] at known
  have here : netqIsLocalNode (netqStart [mac] 0) root = true := by
    rw [isLocalNode_iff, known]
    exact Int.natCast_nonneg l
  rw [localRoot, if_pos here, lrank, Int.toNat_of_nonneg nonneg, known, Int.toNat_natCast]

end OneMachine

/-! ## Who is served -/

/-- What a call is to leave with rank `g` of `n`, from what the ranks have passed. -/
def MpiCall.Serves (n : Nat) (args : Nat → Buffers) (g : Nat) : MpiCall → Buffers → Prop
  | .bcast root len, b => b = bcastResult root.toNat len args g
  | .reduce root op count, b => Reduced n root.toNat op count args g b

/-- Every rank that has returned from a call has what the call is to leave with it. -/
def Served (n : Nat) (info : Info) (calls : List MpiCall) (s : Objects) : Prop :=
  ∀ k c, calls[k]? = some c → ∀ g < n, k < s.call (lrank info g) →
    ∃ b, s.results k (lrank info g) = some b ∧
      c.Serves n (fun h => s.args k (lrank info h)) g b

/-- A call whose root is the same in both numberings, or that has nothing to reduce. -/
def MpiCall.Straight (info : Info) : MpiCall → Prop
  | .bcast .. => True
  | .reduce root _ count => count = 0 ∨ tmpiGrankToLrank info root = root

theorem reduced_zero (n root : Nat) (op : Option RdcOp) (args : Nat → Buffers) (t : Nat)
    (b : Buffers) : Reduced n root op 0 args t b ↔ b = args t := by
  have nothing : ∀ dst src : Ints, copyInts dst src 0 = dst := fun dst src => by
    funext i
    simp [copyInts]
  unfold Reduced
  simp only [nothing]
  split
  · exact ⟨fun ⟨_, _, same⟩ => same, fun same => ⟨fun _ => 0, nofun, same⟩⟩
  · exact Iff.rfl

theorem totals_zero {op : Option RdcOp} {n : Nat} (positive : 0 < n) {value : Nat → BitVec 32}
    (zeros : ∀ u < n, value u = 0) {x : BitVec 32} (total : Totals op (Finset.range n) value x) :
    x = 0 := by
  have constant : Totals op (Finset.range n) (fun _ => 0) x :=
    total.congr fun u member => (zeros u (Finset.mem_range.mp member)).symm
  cases op with
  | none =>
      obtain ⟨u, -, same⟩ := constant
      exact same
  | some op => exact constant.trans (combined_zero op positive)

section Service

variable {mac : MacEntry} (accepted : Accepted [mac])

include accepted

theorem collective_root {c : MpiCall} (nonneg : 0 ≤ c.root) (rank : c.root < mac.nNodes) :
    (c.collective 1 (netqStart [mac] 0)).root < mac.nNodes := by
  have low : c.root.toNat < mac.nNodes := by omega
  cases c with
  | bcast root len =>
      have known := localRoot_eq accepted nonneg rank
      simp only [MpiCall.root] at known low
      simp only [MpiCall.collective, Collective.root, known, Int.toNat_natCast]
      exact lrank_lt accepted low
  | reduce root op count =>
      simpa [MpiCall.collective, Collective.root, MpiCall.root] using low

/-- A call whose root is the same in both numberings serves the ranks. -/
theorem straight_served {c : MpiCall} (nonneg : 0 ≤ c.root) (rank : c.root < mac.nNodes)
    (small : c.Small) (straight : c.Straight (netqStart [mac] 0)) (args : Nat → Buffers) {g : Nat}
    (inside : g < mac.nNodes) {b : Buffers} (left : (c.collective 1 (netqStart [mac] 0)).Leaves mac.nNodes args
      (lrank (netqStart [mac] 0) g) b) :
    c.Serves mac.nNodes (fun h => args (lrank (netqStart [mac] 0) h)) g b := by
  have low : c.root.toNat < mac.nNodes := by omega
  have same : ∀ r < mac.nNodes, lrank (netqStart [mac] 0) g = lrank (netqStart [mac] 0) r ↔ g = r :=
    fun r below => ⟨fun equal => lrank_injOn accepted (Finset.mem_coe.mpr (Finset.mem_range.mpr inside))
      (Finset.mem_coe.mpr (Finset.mem_range.mpr below)) equal, fun equal => by rw [equal]⟩
  cases c with
  | bcast root len =>
      have known := localRoot_eq accepted nonneg rank
      simp only [MpiCall.root] at known low
      have whole : len % 2^32 = len := Nat.mod_eq_of_lt small
      simp only [MpiCall.collective, Collective.Leaves, known, Int.toNat_natCast, bcastResult,
        same root.toNat low, whole] at left
      exact left
  | reduce root op count =>
      simp only [MpiCall.collective, lt_irrefl, if_false, Collective.Leaves] at left
      change Reduced mac.nNodes root.toNat op count _ g b
      rcases straight with rfl | kept
      · rw [reduced_zero] at left ⊢
        exact left
      · have at' : lrank (netqStart [mac] 0) root.toNat = root.toNat := by
          have known : (0 : Int) ≤ root := nonneg
          rw [lrank, Int.toNat_of_nonneg known, kept]
        have isRoot := same root.toNat low
        rw [at'] at isRoot
        unfold Reduced at left ⊢
        simp only [isRoot] at left
        split at left
        next here =>
          obtain ⟨total, each, same⟩ := left
          rw [if_pos here]
          refine ⟨total, fun i below => ?_, same⟩
          exact (totals_lrank accepted op (fun u => (args u).sendbuf i) _).mpr (each i below)
        next away =>
          rw [if_neg away]
          exact left

/-- A reduce with another root than the rank it is for leaves that rank without the result. -/
theorem crooked_served {root : Int} {op : Option RdcOp} {count : Nat} (nonneg : 0 ≤ root)
    (rank : root < mac.nNodes) (more : count ≠ 0)
    (crooked : tmpiGrankToLrank (netqStart [mac] 0) root ≠ root) {args : Nat → Buffers}
    (passed : ∀ u < mac.nNodes, args u = ⟨[], fun _ => 0, fun _ => 1⟩) {b : Buffers}
    (left : ((MpiCall.reduce root op count).collective 1 (netqStart [mac] 0)).Leaves mac.nNodes args
      (lrank (netqStart [mac] 0) root.toNat) b) :
    ¬ (MpiCall.reduce root op count).Serves mac.nNodes
        (fun h => args (lrank (netqStart [mac] 0) h)) root.toNat b := by
  have low : root.toNat < mac.nNodes := by omega
  obtain ⟨l, -, known, -⟩ := local_of_rank accepted low
  have away : lrank (netqStart [mac] 0) root.toNat ≠ root.toNat := by
    rw [Int.toNat_of_nonneg nonneg] at known
    rw [lrank, Int.toNat_of_nonneg nonneg]
    omega
  intro served
  obtain ⟨total, each, same⟩ := reduced_root.mp served
  have positive : 0 < mac.nNodes := by omega
  have zero : total 0 = 0 := by
    refine totals_zero positive (fun u below => ?_) (each 0 (Nat.pos_of_ne_zero more))
    rw [passed _ (lrank_lt accepted below)]
  simp only [MpiCall.collective, lt_irrefl, if_false, Collective.Leaves, reduced_ne away,
      passed _ (lrank_lt accepted low)] at left same
  rw [left] at same
  have first := congrArg (fun b : Buffers => b.recvbuf 0) same
  simp only [copyInts, Nat.pos_of_ne_zero more, if_true, zero] at first
  exact absurd first (by decide)

end Service

/-- Where the lengths fit, the collectives of a machine that has all ranks serve the ranks in every
run exactly if the reduces have roots that are the same in both numberings; and no run gets stuck. -/
theorem single_machine_served (mac : MacEntry) (accepted : Accepted [mac]) (calls : List MpiCall)
    (ranks : ∀ c ∈ calls, 0 ≤ c.root ∧ c.root < mac.nNodes) (small : ∀ c ∈ calls, c.Small) :
    let info := netqStart [mac] 0
    let made := collectives 1 info calls
    ((∀ s, Reach mac.nNodes made s → Served mac.nNodes info calls s) ↔
      ∀ c ∈ calls, c.Straight info) ∧
    ∀ s, Reach mac.nNodes made s → ∀ t < mac.nNodes, s.call t < calls.length →
      ∃ u < mac.nNodes, Enabled mac.nNodes made s u := by
  intro info made
  have all : made = calls.map (MpiCall.collective 1 info) := collectives_small small 1 info
  have roots : ∀ c ∈ made, c.root < mac.nNodes := by
    intro c member
    rw [all] at member
    obtain ⟨call, listed, rfl⟩ := List.mem_map.mp member
    obtain ⟨nonneg, rank⟩ := ranks call listed
    exact collective_root accepted nonneg rank
  have fits : ∀ c ∈ made, c.Fits := by
    intro c member
    rw [all] at member
    obtain ⟨call, listed, rfl⟩ := List.mem_map.mp member
    exact (small call listed).fits 1 info
  have at' : ∀ {k : Nat} {c : MpiCall}, calls[k]? = some c → made[k]? = some (c.collective 1 info) := by
    intro k c call
    rw [all, List.getElem?_map, call]
    rfl
  have long : made.length = calls.length := by rw [all, List.length_map]
  refine ⟨⟨fun served => ?_, fun straight s reach k c call g inside past => ?_⟩,
    fun s reach t inside short => ?_⟩
  · intro c member
    obtain ⟨nonneg, rank⟩ := ranks c member
    cases c with
    | bcast => trivial
    | reduce root op count =>
        by_contra crooked
        unfold MpiCall.Straight at crooked
        push Not at crooked
        obtain ⟨s, reach, done, given⟩ := run_ends roots fits
          (fun _ _ => ⟨[], fun _ => 0, fun _ => 1⟩) .create fun t k begun => by
            simp [create] at begun
        obtain ⟨k, call⟩ := List.mem_iff_getElem?.mp member
        have low : root.toNat < mac.nNodes := by
          change root < _ at rank
          change 0 ≤ root at nonneg
          omega
        have thread : lrank info root.toNat < mac.nNodes := lrank_lt accepted low
        have before : k < calls.length := (List.getElem?_eq_some_iff.mp call).1
        have past : k < s.call (lrank info root.toNat) := by
          have every := done _ thread
          omega
        have passed : ∀ u < mac.nNodes, s.args k u = ⟨[], fun _ => 0, fun _ => 1⟩ := by
          intro u below
          have every := done u below
          exact given u k (.inl (by omega))
        obtain ⟨b, result, left⟩ := reach_results roots reach (at' call) thread past
        obtain ⟨b', result', right⟩ := served s reach k _ call root.toNat low past
        rw [result, Option.some.injEq] at result'
        subst result'
        exact crooked_served accepted nonneg rank crooked.1 crooked.2 passed left right
  · obtain ⟨b, result, left⟩ := reach_results roots reach (at' call) (lrank_lt accepted inside) past
    obtain ⟨nonneg, rank⟩ := ranks c (List.mem_of_getElem? call)
    have member := List.mem_of_getElem? call
    exact ⟨b, result, straight_served accepted nonneg rank (small c member) (straight c member) _
      inside left⟩
  · have short' : s.call t < made.length := by omega
    exact reach_goes roots fits reach inside short'

/-- Three ranks, with the last two the other way round. -/
theorem single_machine_served_three :
    let info := netqStart [⟨[97], [0, 2, 1]⟩] 0
    let calls : List MpiCall := [.bcast 2 4, .reduce 0 (some .sum) 2, .reduce 1 (some .max) 0]
    Accepted [⟨[97], [0, 2, 1]⟩] ∧
    ∀ s, Reach 3 (collectives 1 info calls) s → Served 3 info calls s :=
  ⟨by decide, (single_machine_served ⟨[97], [0, 2, 1]⟩ (by decide) _ (by decide) (by decide)).1.mpr (by
    intro c member
    simp only [List.mem_cons, List.not_mem_nil, or_false] at member
    rcases member with rfl | rfl | rfl
    · trivial
    · exact .inr (by decide)
    · exact .inl rfl)⟩

/-- Two ranks in reverse order: the result of a reduce to rank 0 ends with rank 1. -/
theorem reduce_misplaced :
    let info := netqStart [⟨[97], [1, 0]⟩] 0
    let calls : List MpiCall := [.reduce 0 (some .sum) 1]
    Accepted [⟨[97], [1, 0]⟩] ∧
    ¬ ∀ s, Reach 2 (collectives 1 info calls) s → Served 2 info calls s := by
  intro info calls
  refine ⟨by decide, fun all => ?_⟩
  let acts : List Act := [.enter 0 ⟨[], fun _ => 1, fun _ => 9⟩, .run 0, .run 0, .run 0,
    .enter 1 ⟨[], fun _ => 2, fun _ => 9⟩, .run 1, .run 1, .run 1, .run 1, .run 1, .run 0]
  have goes : (run 2 (collectives 1 info calls) create acts).isSome = true := rfl
  have inside : ∀ act ∈ acts, act.thread < 2 := by
    intro act member
    simp only [acts, List.mem_cons, List.not_mem_nil, or_false] at member
    rcases member with rfl | rfl | rfl | rfl | rfl | rfl | rfl | rfl | rfl | rfl | rfl <;> decide
  have reach := run_reach .create inside (Option.some_get goes).symm
  obtain ⟨b, result, served⟩ := all _ reach 0 _ rfl 0 Nat.two_pos Nat.one_pos
  -- rank 0 has the second thread
  have kept := congrArg (fun b : Option Buffers => b.map fun b => b.recvbuf 0) result
  change some (9 : BitVec 32) = some (b.recvbuf 0) at kept
  obtain ⟨total, each, same⟩ := reduced_root.mp served
  have sum : total 0 = 3 := each 0 Nat.one_pos
  rw [same] at kept
  change some (9 : BitVec 32) = some (total 0) at kept
  rw [sum] at kept
  exact absurd kept (by decide)

end Tmpi.Mpi
