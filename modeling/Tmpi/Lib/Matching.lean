import Mathlib.Data.List.Nodup
import Mathlib.Tactic

/-! First-come matching of two kinds of posts.

A post takes the earliest waiting post of the other kind that it fits, or waits
behind all posts of its own kind. -/

namespace Tmpi.Matching

inductive Event (σ ρ : Type) where
  | postSend (send : σ)
  | postRecv (recv : ρ)
  | matched (send : σ) (recv : ρ)

variable {σ ρ : Type}

def sendsOf (trace : List (Event σ ρ)) : List σ :=
  trace.filterMap fun
    | .postSend send => some send
    | _ => none

def recvsOf (trace : List (Event σ ρ)) : List ρ :=
  trace.filterMap fun
    | .postRecv recv => some recv
    | _ => none

/-- The traces of a matcher, with the posts that wait at their end. Every post is new. -/
inductive Run (fits : σ → ρ → Bool) : List (Event σ ρ) → List σ → List ρ → Prop where
  | start : Run fits [] [] []
  | sendWaits {trace sends recvs send} : Run fits trace sends recvs → send ∉ sendsOf trace →
      (∀ recv ∈ recvs, fits send recv = false) →
      Run fits (trace ++ [.postSend send]) (sends ++ [send]) recvs
  | sendMatches {trace sends front recv back send} :
      Run fits trace sends (front ++ recv :: back) → send ∉ sendsOf trace →
      (∀ other ∈ front, fits send other = false) → fits send recv = true →
      Run fits (trace ++ [.postSend send, .matched send recv]) sends (front ++ back)
  | recvWaits {trace sends recvs recv} : Run fits trace sends recvs → recv ∉ recvsOf trace →
      (∀ send ∈ sends, fits send recv = false) →
      Run fits (trace ++ [.postRecv recv]) sends (recvs ++ [recv])
  | recvMatches {trace front send back recvs recv} :
      Run fits trace (front ++ send :: back) recvs → recv ∉ recvsOf trace →
      (∀ other ∈ front, fits other recv = false) → fits send recv = true →
      Run fits (trace ++ [.postRecv recv, .matched send recv]) (front ++ back) recvs

/-- The sends of the matches, in the order of the matches. -/
def matchedSends (trace : List (Event σ ρ)) : List σ :=
  trace.filterMap fun
    | .matched send _ => some send
    | _ => none

def matchedRecvs (trace : List (Event σ ρ)) : List ρ :=
  trace.filterMap fun
    | .matched _ recv => some recv
    | _ => none

section Traces

variable (send : σ) (recv : ρ) (front back rest : List (Event σ ρ))

@[simp] theorem sendsOf_append : sendsOf (front ++ back) = sendsOf front ++ sendsOf back :=
  List.filterMap_append

@[simp] theorem recvsOf_append : recvsOf (front ++ back) = recvsOf front ++ recvsOf back :=
  List.filterMap_append

@[simp] theorem matchedSends_append :
    matchedSends (front ++ back) = matchedSends front ++ matchedSends back :=
  List.filterMap_append

@[simp] theorem sendsOf_nil : sendsOf ([] : List (Event σ ρ)) = [] := rfl
@[simp] theorem recvsOf_nil : recvsOf ([] : List (Event σ ρ)) = [] := rfl
@[simp] theorem matchedSends_nil : matchedSends ([] : List (Event σ ρ)) = [] := rfl

@[simp] theorem sendsOf_postSend :
    sendsOf (.postSend send :: rest) = send :: sendsOf rest := rfl

@[simp] theorem sendsOf_postRecv : sendsOf (.postRecv recv :: rest) = sendsOf rest := rfl

@[simp] theorem sendsOf_matched : sendsOf (.matched send recv :: rest) = sendsOf rest := rfl

@[simp] theorem recvsOf_postSend : recvsOf (.postSend send :: rest) = recvsOf rest := rfl

@[simp] theorem recvsOf_postRecv :
    recvsOf (.postRecv recv :: rest) = recv :: recvsOf rest := rfl

@[simp] theorem recvsOf_matched : recvsOf (.matched send recv :: rest) = recvsOf rest := rfl

@[simp] theorem matchedSends_postSend :
    matchedSends (.postSend send :: rest) = matchedSends rest := rfl

@[simp] theorem matchedSends_postRecv :
    matchedSends (.postRecv recv :: rest) = matchedSends rest := rfl

@[simp] theorem matchedSends_matched :
    matchedSends (.matched send recv :: rest) = send :: matchedSends rest := rfl

end Traces

theorem mem_matchedSends {trace : List (Event σ ρ)} {send : σ} {recv : ρ}
    (happened : .matched send recv ∈ trace) : send ∈ matchedSends trace :=
  List.mem_filterMap.mpr ⟨_, happened, rfl⟩

/-! ## Duality -/

def Event.swap : Event σ ρ → Event ρ σ
  | .postSend send => .postRecv send
  | .postRecv recv => .postSend recv
  | .matched send recv => .matched recv send

variable {fits : σ → ρ → Bool} {trace : List (Event σ ρ)} {sends : List σ} {recvs : List ρ}

theorem sendsOf_map_swap (trace : List (Event σ ρ)) :
    sendsOf (trace.map Event.swap) = recvsOf trace := by
  induction trace with
  | nil => rfl
  | cons event trace ih => cases event <;> simp [Event.swap, ih]

theorem recvsOf_map_swap (trace : List (Event σ ρ)) :
    recvsOf (trace.map Event.swap) = sendsOf trace := by
  induction trace with
  | nil => rfl
  | cons event trace ih => cases event <;> simp [Event.swap, ih]

theorem matchedSends_map_swap (trace : List (Event σ ρ)) :
    matchedSends (trace.map Event.swap) = matchedRecvs trace := by
  rw [matchedSends, List.filterMap_map, matchedRecvs]
  congr
  funext event
  cases event <;> rfl

/-- Sends and receives play the same part. -/
theorem Run.swap (run : Run fits trace sends recvs) :
    Run (fun recv send => fits send recv) (trace.map Event.swap) recvs sends := by
  induction run with
  | start => exact .start
  | sendWaits _ fresh apart ih =>
      rw [List.map_append]
      exact .recvWaits ih (by rwa [recvsOf_map_swap]) apart
  | sendMatches _ fresh before here ih =>
      rw [List.map_append]
      exact .recvMatches ih (by rwa [recvsOf_map_swap]) before here
  | recvWaits _ fresh apart ih =>
      rw [List.map_append]
      exact .sendWaits ih (by rwa [sendsOf_map_swap]) apart
  | recvMatches _ fresh before here ih =>
      rw [List.map_append]
      exact .sendMatches ih (by rwa [sendsOf_map_swap]) before here

/-! ## Invariants -/

/-- No waiting send fits a waiting receive. -/
theorem Run.no_pair (run : Run fits trace sends recvs) :
    ∀ send ∈ sends, ∀ recv ∈ recvs, fits send recv = false := by
  induction run with
  | start => simp
  | sendWaits _ _ apart ih =>
      intro send member recv present
      rcases List.mem_append.mp member with old | new
      · exact ih send old recv present
      · rw [List.mem_singleton.mp new]
        exact apart recv present
  | @sendMatches _ _ front recv back _ _ _ _ _ ih =>
      intro send member other present
      exact ih send member other ((List.sublist_cons_self recv back).append_left front |>.subset present)
  | recvWaits _ _ apart ih =>
      intro send member recv present
      rcases List.mem_append.mp present with old | new
      · exact ih send member recv old
      · rw [List.mem_singleton.mp new]
        exact apart send member
  | @recvMatches _ front send back _ _ _ _ _ _ ih =>
      intro other member recv present
      exact ih other ((List.sublist_cons_self send back).append_left front |>.subset member) recv present

theorem nodup_concat {α : Type} {items : List α} {item : α} (nodup : items.Nodup)
    (fresh : item ∉ items) : (items ++ [item]).Nodup := by
  rw [← List.concat_eq_append]
  exact nodup.concat fresh

theorem Run.sends_nodup (run : Run fits trace sends recvs) : (sendsOf trace).Nodup := by
  induction run with
  | start => simp
  | sendWaits _ fresh _ ih => simpa using nodup_concat ih fresh
  | sendMatches _ fresh _ _ ih => simpa using nodup_concat ih fresh
  | recvWaits _ _ _ ih => simpa using ih
  | recvMatches _ _ _ _ ih => simpa using ih

theorem Run.sends_posted (run : Run fits trace sends recvs) : sends ⊆ sendsOf trace := by
  induction run with
  | start => simp
  | sendWaits _ _ _ ih =>
      intro send member
      rcases List.mem_append.mp member with old | new
      · simp [ih old]
      · simp [List.mem_singleton.mp new]
  | sendMatches _ _ _ _ ih =>
      intro send member
      simp [ih member]
  | recvWaits _ _ _ ih => simpa using ih
  | @recvMatches _ front send back _ _ _ _ _ _ ih =>
      intro other member
      simpa using ih ((List.sublist_cons_self send back).append_left front |>.subset member)

theorem Run.matchedSends_posted (run : Run fits trace sends recvs) :
    matchedSends trace ⊆ sendsOf trace := by
  induction run with
  | start => simp
  | sendWaits _ _ _ ih =>
      intro send member
      simp only [matchedSends_append, matchedSends_postSend, matchedSends_nil,
        List.append_nil] at member
      simp [ih member]
  | sendMatches _ _ _ _ ih =>
      intro send member
      simp only [matchedSends_append, matchedSends_postSend, matchedSends_matched,
        matchedSends_nil, List.mem_append, List.mem_singleton] at member
      rcases member with old | new
      · simp [ih old]
      · simp [new]
  | recvWaits _ _ _ ih => simpa using ih
  | recvMatches run _ _ _ ih =>
      intro send member
      simp only [matchedSends_append, matchedSends_postRecv, matchedSends_matched,
        matchedSends_nil, List.mem_append, List.mem_singleton] at member
      rcases member with old | new
      · simpa using ih old
      · simpa [new] using run.sends_posted (by simp : _ ∈ _)

theorem filter_ne_of_nodup {α : Type} [DecidableEq α] {front back : List α} {item : α}
    (nodup : (front ++ item :: back).Nodup) :
    (front ++ item :: back).filter (fun other => other ≠ item) = front ++ back := by
  have parts := List.nodup_append.mp nodup
  have outFront : ∀ other ∈ front, other ≠ item := fun other member =>
    parts.2.2 other member item (by simp)
  have outBack : ∀ other ∈ back, other ≠ item := by
    intro other member same
    exact (List.nodup_cons.mp parts.2.1).1 (same ▸ member)
  rw [List.filter_append, List.filter_cons_of_neg (by simp),
    List.filter_eq_self.mpr (by simpa using outFront),
    List.filter_eq_self.mpr (by simpa using outBack)]

open Classical in
/-- The waiting sends are those posted and not matched, in the order of their posts. -/
theorem Run.sends_eq (run : Run fits trace sends recvs) :
    sends = (sendsOf trace).filter fun send => send ∉ matchedSends trace := by
  induction run with
  | start => rfl
  | @sendWaits trace sends recvs send run fresh _ ih =>
      have unmatched : send ∉ matchedSends trace := fun happened =>
        fresh (run.matchedSends_posted happened)
      simpa [List.filter_append, unmatched] using ih
  | @sendMatches trace sends front recv back send run fresh _ _ ih =>
      have others : (sendsOf trace).filter (fun other => other ∉ matchedSends trace ++ [send]) =
          (sendsOf trace).filter fun other => other ∉ matchedSends trace := by
        apply List.filter_congr
        intro other member
        have apart : other ≠ send := fun same => fresh (same ▸ member)
        simp [apart]
      simp only [sendsOf_append, sendsOf_postSend, sendsOf_matched, sendsOf_nil,
        matchedSends_append, matchedSends_postSend, matchedSends_matched, matchedSends_nil,
        List.filter_append, others, ← ih]
      simp
  | recvWaits _ _ _ ih => simpa using ih
  | @recvMatches trace front send back recvs recv run fresh _ _ ih =>
      have nodup : (front ++ send :: back).Nodup := by
        rw [ih]
        exact run.sends_nodup.filter _
      rw [← filter_ne_of_nodup nodup, ih, List.filter_filter]
      simp only [sendsOf_append, sendsOf_postRecv, sendsOf_matched, sendsOf_nil, List.append_nil,
        matchedSends_append, matchedSends_postRecv, matchedSends_matched, matchedSends_nil]
      apply List.filter_congr
      intro other _
      simp [and_comm]

theorem Run.waiting_nodup (run : Run fits trace sends recvs) : sends.Nodup := by
  classical
  rw [run.sends_eq]
  exact run.sends_nodup.filter _

theorem Run.waiting_unmatched (run : Run fits trace sends recvs) {send : σ}
    (member : send ∈ sends) : send ∉ matchedSends trace := by
  classical
  rw [run.sends_eq] at member
  simpa using (List.mem_filter.mp member).2

/-- Every send is matched at most once. -/
theorem Run.matchedSends_nodup (run : Run fits trace sends recvs) :
    (matchedSends trace).Nodup := by
  induction run with
  | start => simp
  | sendWaits _ _ _ ih => simpa using ih
  | sendMatches run fresh _ _ ih =>
      simpa using nodup_concat ih (fun happened => fresh (run.matchedSends_posted happened))
  | recvWaits _ _ _ ih => simpa using ih
  | recvMatches run _ _ _ ih =>
      simpa using nodup_concat ih (run.waiting_unmatched (by simp))

theorem Run.matchedRecvs_nodup (run : Run fits trace sends recvs) :
    (matchedRecvs trace).Nodup := by
  have dual := run.swap.matchedSends_nodup
  rwa [matchedSends_map_swap] at dual

/-- A send is matched with one receive. -/
theorem Run.matched_once (run : Run fits trace sends recvs) {send : σ} {recv recv' : ρ}
    (first : .matched send recv ∈ trace) (second : .matched send recv' ∈ trace) : recv = recv' := by
  obtain ⟨front, back, rfl⟩ := List.append_of_mem first
  have nodup := run.matchedSends_nodup
  rw [matchedSends_append, matchedSends_matched] at nodup
  have alone := (List.nodup_middle.mp nodup).notMem
  rcases List.mem_append.mp second with before | here
  · exact absurd (List.mem_append_left _ (mem_matchedSends before)) alone
  rcases List.mem_cons.mp here with same | after
  · cases same
    rfl
  · exact absurd (List.mem_append_right _ (mem_matchedSends after)) alone

theorem mem_front_of_sublist {α : Type} {front back : List α} {first second : α}
    (nodup : (front ++ second :: back).Nodup) (order : List.Sublist [first, second] (front ++ second :: back)) :
    first ∈ front := by
  have parts := List.nodup_append.mp nodup
  obtain ⟨inFront, rest, split, subFront, subRest⟩ := List.sublist_append_iff.mp order
  cases inFront with
  | nil =>
      -- then `second` would stand behind `first` in `second :: back`
      simp only [List.nil_append] at split
      subst split
      have behind : second ∈ back := by
        cases subRest with
        | cons _ sub => exact sub.subset (by simp)
        | cons_cons _ sub => exact sub.subset (by simp)
      exact absurd behind (List.nodup_cons.mp parts.2.1).1
  | cons x inFront =>
      rw [List.cons_append, List.cons.injEq] at split
      rw [split.1]
      exact subFront.subset (by simp)

/-- Non-overtaking: when a send is matched, every earlier send that fits the same
receive has been matched before. -/
theorem Run.first_come (run : Run fits trace sends recvs) {before : List (Event σ ρ)} {send : σ}
    {recv : ρ} (happened : before ++ [.matched send recv] <+: trace) {earlier : σ}
    (order : List.Sublist [earlier, send] (sendsOf before)) (would : fits earlier recv = true) :
    earlier ∈ matchedSends before := by
  induction run with
  | start => simp at happened
  | sendWaits _ _ _ ih =>
      rcases List.prefix_concat_iff.mp happened with last | inside
      · exact absurd (List.append_inj' last rfl).2 (by simp)
      · exact ih inside
  | @sendMatches trace sends front recv' back send' run fresh _ _ ih =>
      rw [show [Event.postSend send', .matched send' recv'] =
        [.postSend send'] ++ [.matched send' recv'] from rfl, ← List.append_assoc] at happened
      rcases List.prefix_concat_iff.mp happened with last | inside
      · obtain ⟨same, pair⟩ := List.append_inj' last rfl
        cases pair
        subst same
        simp only [sendsOf_append, sendsOf_postSend, sendsOf_nil] at order
        have posted : earlier ∈ sendsOf trace := by
          have nodup := nodup_concat run.sends_nodup fresh
          exact mem_front_of_sublist nodup order
        by_contra unmatched
        have waiting : earlier ∈ sends := by
          classical
          rw [run.sends_eq]
          exact List.mem_filter.mpr ⟨posted, by simpa using unmatched⟩
        rw [run.no_pair earlier waiting recv (by simp)] at would
        cases would
      · rcases List.prefix_concat_iff.mp inside with last | deeper
        · exact absurd (List.append_inj' last rfl).2 (by simp)
        · exact ih deeper
  | recvWaits _ _ _ ih =>
      rcases List.prefix_concat_iff.mp happened with last | inside
      · exact absurd (List.append_inj' last rfl).2 (by simp)
      · exact ih inside
  | @recvMatches trace front send' back recvs recv' run _ apart _ ih =>
      rw [show [Event.postRecv recv', .matched send' recv'] =
        [.postRecv recv'] ++ [.matched send' recv'] from rfl, ← List.append_assoc] at happened
      rcases List.prefix_concat_iff.mp happened with last | inside
      · obtain ⟨same, pair⟩ := List.append_inj' last rfl
        cases pair
        subst same
        by_contra unmatched
        simp only [sendsOf_append, sendsOf_postRecv, sendsOf_nil, List.append_nil,
          matchedSends_append, matchedSends_postRecv, matchedSends_nil] at order unmatched
        have inQueue : List.Sublist [earlier, send] (front ++ send :: back) := by
          classical
          rw [run.sends_eq]
          have kept := order.filter fun other => other ∉ matchedSends trace
          rwa [List.filter_eq_self.mpr] at kept
          intro other member
          rcases List.mem_pair.mp member with rfl | rfl
          · simpa using unmatched
          · simpa using run.waiting_unmatched (by simp)
        rw [apart earlier (mem_front_of_sublist run.waiting_nodup inQueue)] at would
        cases would
      · rcases List.prefix_concat_iff.mp inside with last | deeper
        · exact absurd (List.append_inj' last rfl).2 (by simp)
        · exact ih deeper

/-- The same for receives: a send takes the earliest receive that it fits. -/
theorem Run.first_served (run : Run fits trace sends recvs) {before : List (Event σ ρ)} {send : σ}
    {recv : ρ} (happened : before ++ [.matched send recv] <+: trace) {earlier : ρ}
    (order : List.Sublist [earlier, recv] (recvsOf before)) (would : fits send earlier = true) :
    earlier ∈ matchedRecvs before := by
  have happened' : before.map Event.swap ++ [.matched recv send] <+: trace.map Event.swap := by
    simpa [Event.swap] using happened.map Event.swap
  have dual := run.swap.first_come happened' (by rwa [sendsOf_map_swap]) would
  rwa [matchedSends_map_swap] at dual

open Classical in
theorem Run.recvs_eq (run : Run fits trace sends recvs) :
    recvs = (recvsOf trace).filter fun recv => recv ∉ matchedRecvs trace := by
  have dual := run.swap.sends_eq
  rwa [sendsOf_map_swap, matchedSends_map_swap] at dual

theorem Run.fits_of_matched (run : Run fits trace sends recvs) {send : σ} {recv : ρ}
    (happened : .matched send recv ∈ trace) : fits send recv = true := by
  induction run with
  | start => cases happened
  | sendWaits _ _ _ ih | recvWaits _ _ _ ih =>
      rcases List.mem_append.mp happened with old | new
      · exact ih old
      · simp at new
  | sendMatches _ _ _ here ih | recvMatches _ _ _ here ih =>
      rcases List.mem_append.mp happened with old | new
      · exact ih old
      · simp only [List.mem_cons, reduceCtorEq, Event.matched.injEq, List.not_mem_nil, or_false,
          false_or] at new
        obtain ⟨rfl, rfl⟩ := new
        exact here

/-- A send is posted before it is matched. -/
theorem Run.posted_before (run : Run fits trace sends recvs) {before : List (Event σ ρ)} {send : σ}
    {recv : ρ} (happened : before ++ [.matched send recv] <+: trace) : send ∈ sendsOf before := by
  induction run with
  | start => simp at happened
  | sendWaits _ _ _ ih | recvWaits _ _ _ ih =>
      rcases List.prefix_concat_iff.mp happened with last | inside
      · exact absurd (List.append_inj' last rfl).2 (by simp)
      · exact ih inside
  | @sendMatches trace sends front recv' back send' run fresh _ _ ih =>
      rw [show [Event.postSend send', .matched send' recv'] =
        [.postSend send'] ++ [.matched send' recv'] from rfl, ← List.append_assoc] at happened
      rcases List.prefix_concat_iff.mp happened with last | inside
      · obtain ⟨same, pair⟩ := List.append_inj' last rfl
        cases pair
        simp [same]
      · rcases List.prefix_concat_iff.mp inside with last | deeper
        · exact absurd (List.append_inj' last rfl).2 (by simp)
        · exact ih deeper
  | @recvMatches trace front send' back recvs recv' run _ apart _ ih =>
      rw [show [Event.postRecv recv', .matched send' recv'] =
        [.postRecv recv'] ++ [.matched send' recv'] from rfl, ← List.append_assoc] at happened
      rcases List.prefix_concat_iff.mp happened with last | inside
      · obtain ⟨same, pair⟩ := List.append_inj' last rfl
        cases pair
        rw [same, sendsOf_append, List.mem_append]
        exact .inl (run.sends_posted (by simp))
      · rcases List.prefix_concat_iff.mp inside with last | deeper
        · exact absurd (List.append_inj' last rfl).2 (by simp)
        · exact ih deeper

theorem sublist_front {α : Type} {front back : List α} {first second : α}
    (nodup : (front ++ back).Nodup) (order : List.Sublist [first, second] (front ++ back))
    (here : second ∈ front) : List.Sublist [first, second] front := by
  obtain ⟨inFront, rest, split, subFront, subRest⟩ := List.sublist_append_iff.mp order
  rcases List.eq_nil_or_concat rest with rfl | ⟨rest', last, rfl⟩
  · rwa [split, List.append_nil]
  · rw [List.concat_eq_append, ← List.append_assoc] at split
    have ends : [second] = [last] := (List.append_inj' (show [first] ++ [second] = _ from split) rfl).2
    cases ends
    have there : second ∈ back := subRest.subset (by simp)
    exact absurd rfl ((List.nodup_append.mp nodup).2.2 second here second there)

/-- Of two sends that fit a receive, the later is not matched with it before the earlier
is matched. -/
theorem Run.no_overtaking (run : Run fits trace sends recvs) {before : List (Event σ ρ)}
    {earlier later : σ} {recv : ρ} (happened : before ++ [.matched later recv] <+: trace)
    (order : List.Sublist [earlier, later] (sendsOf trace)) (would : fits earlier recv = true) :
    earlier ∈ matchedSends before := by
  have posted := run.posted_before happened
  refine run.first_come happened ?_ would
  obtain ⟨rest, split⟩ := happened
  have nodup := run.sends_nodup
  rw [← split, List.append_assoc, sendsOf_append] at order nodup
  exact sublist_front nodup order posted

end Tmpi.Matching
