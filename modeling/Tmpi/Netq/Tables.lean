import Mathlib.Data.List.Nodup
import Mathlib.Data.List.GetD
import Mathlib.Tactic

/-! `netq.c`: the translation between global ranks, machines and local ids. -/

namespace Tmpi.Netq

/-- `MAC_ENTRY`, with the part of `nodeIDs` below `nNodes`. -/
structure MacEntry where
  szHost : List UInt8
  nodeIDs : List Int
  deriving DecidableEq, Repr

def MacEntry.nNodes (mac : MacEntry) : Nat := mac.nodeIDs.length

/-- `ID_ENTRY`, as `netq_start` fills it in. -/
structure IdEntry where
  macID : Nat
  localID : Nat
  deriving DecidableEq, Repr

/-- The tables of `NETQ_INFO`, and the machine's own id. -/
structure Info where
  gTable : List IdEntry
  lTable : List Int
  myID : Nat
  deriving DecidableEq, Repr

/-- The inner loop of `netq_start`: the ranks of machine `i`. -/
def enterNodes (i : Nat) (gTable : List IdEntry) (nodeIDs : List Int) : List IdEntry :=
  nodeIDs.zipIdx.foldl (fun table (id, j) => table.set id.toNat ⟨i, j⟩) gTable

/-- The tables as `netq_start` builds them on machine `myID`. -/
def netqStart (macs : List MacEntry) (myID : Nat) : Info :=
  let total := (macs.map MacEntry.nNodes).sum
  { gTable := macs.zipIdx.foldl (fun table (mac, i) => enterNodes i table mac.nodeIDs)
      (List.replicate total ⟨0, 0⟩)
    lTable := (macs.getD myID ⟨[], []⟩).nodeIDs
    myID }

/-! ## Translations -/

def netqGetMacID (info : Info) (grank : Int) : Option Nat :=
  if grank < 0 ∨ info.gTable.length ≤ grank then none
  else (info.gTable[grank.toNat]?).map IdEntry.macID

def netqTransGlobalRank (info : Info) (grank : Int) : Option IdEntry :=
  if grank < 0 ∨ info.gTable.length ≤ grank then none
  else info.gTable[grank.toNat]?

/-- The first rank with the entry that the caller passes, whatever numbers it has. -/
def netqFindGlobalRank (info : Info) (macID localID : Int) : Option Int :=
  (info.gTable.findIdx? fun e => e.macID = macID ∧ e.localID = localID).map Int.ofNat

def netqTransLocalRank (info : Info) (lrank : Int) : Option Int :=
  if lrank < 0 ∨ info.lTable.length ≤ lrank then none
  else info.lTable[lrank.toNat]?

def netqIsLocalNode (info : Info) (grank : Int) : Bool :=
  match netqTransGlobalRank info grank with
  | none => false
  | some entry => entry.macID = info.myID

def tmpiGrankToLrank (info : Info) (grank : Int) : Int :=
  match netqTransGlobalRank info grank with
  | none => -1
  | some entry => if entry.macID ≠ info.myID then -1 else entry.localID

/-- A machine list that gives every rank one place. -/
def Accepted (macs : List MacEntry) : Prop :=
  (macs.flatMap MacEntry.nodeIDs).Perm
    ((List.range (macs.map MacEntry.nNodes).sum).map Int.ofNat)

instance (macs : List MacEntry) : Decidable (Accepted macs) := inferInstanceAs (Decidable (List.Perm _ _))

/-! ## The global table -/

/-- The assignments that the loops of `netq_start` make, in their order. -/
def places (macs : List MacEntry) : List (Int × IdEntry) :=
  macs.zipIdx.flatMap fun (mac, i) => mac.nodeIDs.zipIdx.map fun (id, j) => (id, ⟨i, j⟩)

theorem gTable_eq (macs : List MacEntry) (myID : Nat) : (netqStart macs myID).gTable =
    (places macs).foldl (fun table place => table.set place.1.toNat place.2)
      (List.replicate (macs.map MacEntry.nNodes).sum ⟨0, 0⟩) := by
  simp [netqStart, places, enterNodes, List.foldl_flatMap, List.foldl_map]

theorem gTable_length (macs : List MacEntry) (myID : Nat) :
    (netqStart macs myID).gTable.length = (macs.map MacEntry.nNodes).sum := by
  suffices sets : ∀ (writes : List (Int × IdEntry)) (table : List IdEntry),
      (writes.foldl (fun table write => table.set write.1.toNat write.2) table).length =
        table.length by
    rw [gTable_eq, sets, List.length_replicate]
  intro writes
  induction writes with
  | nil => exact fun table => rfl
  | cons write writes ih => simp [ih]

theorem mem_places {macs : List MacEntry} {id : Int} {entry : IdEntry} :
    (id, entry) ∈ places macs ↔
      ∃ mac, macs[entry.macID]? = some mac ∧ mac.nodeIDs[entry.localID]? = some id := by
  obtain ⟨i, j⟩ := entry
  simp only [places, List.mem_flatMap, List.mem_map, Prod.exists, Prod.mk.injEq, IdEntry.mk.injEq,
    List.mem_zipIdx_iff_getElem?]
  constructor
  · rintro ⟨mac, _, here, _, _, there, rfl, rfl, rfl⟩
    exact ⟨mac, here, there⟩
  · rintro ⟨mac, here, there⟩
    exact ⟨mac, i, here, id, j, there, rfl, rfl, rfl⟩

theorem places_ranks (macs : List MacEntry) :
    (places macs).map Prod.fst = macs.flatMap MacEntry.nodeIDs := by
  have ranks : ∀ (offset : Nat), ((macs.zipIdx offset).flatMap fun (mac, i) =>
      (mac.nodeIDs.zipIdx.map fun (id, j) => (id, (⟨i, j⟩ : IdEntry)))).map Prod.fst =
        macs.flatMap MacEntry.nodeIDs := by
    induction macs with
    | nil => simp
    | cons mac macs ih =>
        intro offset
        have first : (mac.nodeIDs.zipIdx.map fun (id, j) => (id, (⟨offset, j⟩ : IdEntry))).map
            Prod.fst = mac.nodeIDs := by
          rw [List.map_map]
          exact List.zipIdx_map_fst 0 mac.nodeIDs
        rw [List.zipIdx_cons, List.flatMap_cons, List.map_append, first, ih, List.flatMap_cons]
  exact ranks 0

section Sets

variable {α : Type} {writes : List (Int × α)} {table : List α}

theorem foldl_set_getElem_of_notMem {k : Nat} (apart : ∀ write ∈ writes, write.1.toNat ≠ k) :
    (writes.foldl (fun table write => table.set write.1.toNat write.2) table)[k]? = table[k]? := by
  induction writes generalizing table with
  | nil => rfl
  | cons write writes ih =>
      rw [List.foldl_cons, ih fun later member => apart later (by simp [member]),
        List.getElem?_set_ne (apart write (by simp))]

/-- Writes to different places do not disturb each other. -/
theorem foldl_set_getElem (differ : (writes.map fun write => write.1.toNat).Nodup) {k : Int} {v : α}
    (member : (k, v) ∈ writes) (bound : k.toNat < table.length) :
    (writes.foldl (fun table write => table.set write.1.toNat write.2) table)[k.toNat]? = some v := by
  induction writes generalizing table with
  | nil => cases member
  | cons write writes ih =>
      rw [List.map_cons, List.nodup_cons] at differ
      rcases List.mem_cons.mp member with rfl | later
      · rw [List.foldl_cons, foldl_set_getElem_of_notMem]
        · exact List.getElem?_set_self bound
        · intro other present same
          exact differ.1 (List.mem_map.mpr ⟨other, present, same⟩)
      · exact ih differ.2 later (by simpa using bound)

end Sets

section Accepted

variable {macs : List MacEntry}

theorem Accepted.mem_iff (accepted : Accepted macs) (g : Int) :
    g ∈ macs.flatMap MacEntry.nodeIDs ↔ 0 ≤ g ∧ g < (macs.map MacEntry.nNodes).sum := by
  rw [List.Perm.mem_iff accepted, List.mem_map]
  constructor
  · rintro ⟨n, member, rfl⟩
    have bound := List.mem_range.mp member
    exact ⟨Int.natCast_nonneg n, Int.ofNat_lt.mpr bound⟩
  · rintro ⟨nonneg, bound⟩
    exact ⟨g.toNat, List.mem_range.mpr (by omega), Int.toNat_of_nonneg nonneg⟩

theorem Accepted.differ (accepted : Accepted macs) :
    ((places macs).map fun place => place.1.toNat).Nodup := by
  have ranks : (places macs).map (fun place => place.1.toNat) =
      (macs.flatMap MacEntry.nodeIDs).map Int.toNat := by
    rw [← places_ranks, List.map_map]
    rfl
  have perm := accepted.map Int.toNat
  rw [List.map_map] at perm
  rw [ranks, perm.nodup_iff]
  simpa [Function.comp_def] using List.nodup_range

/-- `netq_transGlobalRank` gives the place of a rank, and nothing for what is no rank. -/
theorem Accepted.trans_iff (accepted : Accepted macs) (myID : Nat) (g : Int) (entry : IdEntry) :
    netqTransGlobalRank (netqStart macs myID) g = some entry ↔ (g, entry) ∈ places macs := by
  have rank : ∀ e, (g, e) ∈ places macs → 0 ≤ g ∧ g < (macs.map MacEntry.nNodes).sum := by
    intro e member
    rw [← accepted.mem_iff, ← places_ranks]
    exact List.mem_map_of_mem member
  have written : ∀ e, (g, e) ∈ places macs →
      (netqStart macs myID).gTable[g.toNat]? = some e := by
    intro e member
    have := rank e member
    rw [gTable_eq]
    exact foldl_set_getElem accepted.differ member (by rw [List.length_replicate]; omega)
  unfold netqTransGlobalRank
  rw [gTable_length]
  constructor
  · intro found
    split at found
    next => cases found
    next inside =>
      push Not at inside
      have listed : g ∈ (places macs).map Prod.fst := by
        rw [places_ranks, accepted.mem_iff]
        exact inside
      obtain ⟨⟨g', e⟩, member, rfl⟩ := List.mem_map.mp listed
      rw [written e member] at found
      cases found
      exact member
  · intro member
    have inside := rank entry member
    rw [if_neg (by push Not; exact inside), written entry member]

theorem Accepted.entry_unique (accepted : Accepted macs) {g : Int} {entry other : IdEntry}
    (here : (g, entry) ∈ places macs) (there : (g, other) ∈ places macs) : entry = other := by
  rw [← accepted.trans_iff 0] at here there
  exact Option.some.inj (here.symm.trans there)

theorem rank_unique {g g' : Int} {entry : IdEntry} (here : (g, entry) ∈ places macs)
    (there : (g', entry) ∈ places macs) : g = g' := by
  obtain ⟨mac, place, node⟩ := mem_places.mp here
  obtain ⟨mac', place', node'⟩ := mem_places.mp there
  rw [place] at place'
  cases place'
  rw [node] at node'
  exact Option.some.inj node'

/-- `netq_findGlobalRank` is the inverse of `netq_transGlobalRank`. -/
theorem Accepted.find_iff (accepted : Accepted macs) (myID : Nat) (entry : IdEntry) (g : Int) :
    netqFindGlobalRank (netqStart macs myID) entry.macID entry.localID = some g ↔
      (g, entry) ∈ places macs := by
  have same : (fun e : IdEntry =>
      decide ((e.macID : Int) = entry.macID ∧ (e.localID : Int) = entry.localID)) =
      fun e => decide (e = entry) := by
    funext e
    cases e
    cases entry
    simp
  have listed : ∀ i : Nat, (netqStart macs myID).gTable[i]? = some entry ↔
      ((i : Int), entry) ∈ places macs := by
    intro i
    rw [← accepted.trans_iff myID, netqTransGlobalRank]
    split
    next outside =>
      have past : (netqStart macs myID).gTable.length ≤ i := by omega
      simp [List.getElem?_eq_none past]
    next => simp
  unfold netqFindGlobalRank
  rw [same, Option.map_eq_some_iff]
  constructor
  · rintro ⟨i, found, rfl⟩
    obtain ⟨bound, hit, -⟩ := List.findIdx?_eq_some_iff_getElem.mp found
    refine (listed i).mp ?_
    rw [List.getElem?_eq_getElem bound, of_decide_eq_true hit]
  · intro member
    have rank : 0 ≤ g := by
      have range := (accepted.mem_iff g).mp (by rw [← places_ranks]; exact List.mem_map_of_mem member)
      exact range.1
    refine ⟨g.toNat, ?_, Int.toNat_of_nonneg rank⟩
    have here := (listed g.toNat).mpr (by rwa [Int.toNat_of_nonneg rank])
    obtain ⟨bound, value⟩ := List.getElem?_eq_some_iff.mp here
    refine List.findIdx?_eq_some_iff_getElem.mpr ⟨bound, by simp [value], fun j before => ?_⟩
    -- an earlier hit would be a second rank at the same place
    intro hit
    have early := (listed j).mp (by
      rw [List.getElem?_eq_getElem (before.trans bound), of_decide_eq_true hit])
    have clash := rank_unique early member
    omega

/-- Every rank has a place. -/
theorem Accepted.exists_place (accepted : Accepted macs) {g : Int} (nonneg : 0 ≤ g)
    (bound : g < (macs.map MacEntry.nNodes).sum) :
    ∃ entry mac, (g, entry) ∈ places macs ∧ macs[entry.macID]? = some mac ∧
      mac.nodeIDs[entry.localID]? = some g := by
  have listed : g ∈ (places macs).map Prod.fst := by
    rw [places_ranks, accepted.mem_iff]
    exact ⟨nonneg, bound⟩
  obtain ⟨⟨g', entry⟩, member, rfl⟩ := List.mem_map.mp listed
  obtain ⟨mac, place, node⟩ := mem_places.mp member
  exact ⟨entry, mac, member, place, node⟩

/-- The local id that a machine knows a rank by. -/
theorem Accepted.local_iff (accepted : Accepted macs) (myID : Nat) (g : Int) (l : Nat) :
    tmpiGrankToLrank (netqStart macs myID) g = l ↔ (g, ⟨myID, l⟩) ∈ places macs := by
  unfold tmpiGrankToLrank
  constructor
  · intro found
    split at found
    next => omega
    next entry known =>
      split at found
      next => omega
      next mine =>
        obtain ⟨i, j⟩ := entry
        have here : i = myID := by simpa [netqStart] using mine
        have id : j = l := by simpa using found
        rw [here, id] at known
        exact (accepted.trans_iff myID g _).mp known
  · intro member
    rw [(accepted.trans_iff myID g _).mpr member]
    simp [netqStart]

end Accepted

/-- What `netq_findGlobalRank` finds are numbers of a machine and of a place on it. -/
theorem findGlobalRank_some {info : Info} {macID localID g : Int}
    (found : netqFindGlobalRank info macID localID = some g) :
    ∃ entry : IdEntry, macID = entry.macID ∧ localID = entry.localID := by
  obtain ⟨i, hit, -⟩ := Option.map_eq_some_iff.mp found
  obtain ⟨bound, here, -⟩ := List.findIdx?_eq_some_iff_getElem.mp hit
  obtain ⟨mac, place⟩ := of_decide_eq_true here
  exact ⟨info.gTable[i], mac.symm, place.symm⟩

theorem getMacID_eq (info : Info) (g : Int) :
    netqGetMacID info g = (netqTransGlobalRank info g).map IdEntry.macID := by
  unfold netqGetMacID netqTransGlobalRank
  split <;> rfl

theorem isLocalNode_iff (info : Info) (g : Int) :
    netqIsLocalNode info g = true ↔ 0 ≤ tmpiGrankToLrank info g := by
  unfold netqIsLocalNode tmpiGrankToLrank
  split
  next => simp
  next entry _ =>
    by_cases mine : entry.macID = info.myID
    · simp [mine]
    · simp [mine]

theorem trans_out_of_range {macs : List MacEntry} (myID : Nat) {g : Int}
    (outside : g < 0 ∨ (macs.map MacEntry.nNodes).sum ≤ g) :
    netqTransGlobalRank (netqStart macs myID) g = none := by
  unfold netqTransGlobalRank
  rw [gTable_length, if_pos outside]

/-- The tables are inverse to each other, and no function accepts what is out of range. -/
theorem rank_tables (macs : List MacEntry) (myID : Nat) (accepted : Accepted macs)
    (mine : myID < macs.length) :
    let info := netqStart macs myID
    let total := (macs.map MacEntry.nNodes).sum
    (∀ g : Int, 0 ≤ g → g < total → ∃ entry mac, netqTransGlobalRank info g = some entry ∧
      netqGetMacID info g = some entry.macID ∧ macs[entry.macID]? = some mac ∧
      mac.nodeIDs[entry.localID]? = some g ∧
      netqFindGlobalRank info entry.macID entry.localID = some g) ∧
    (∀ entry : IdEntry, (∃ mac, macs[entry.macID]? = some mac ∧ entry.localID < mac.nNodes) →
      ∃ g, netqFindGlobalRank info entry.macID entry.localID = some g ∧
        netqTransGlobalRank info g = some entry) ∧
    (∀ macID localID : Int, (∀ entry : IdEntry, macID = entry.macID → localID = entry.localID →
      ∀ mac, macs[entry.macID]? = some mac → mac.nNodes ≤ entry.localID) →
      netqFindGlobalRank info macID localID = none) ∧
    (∀ l : Nat, l < (macs[myID]).nNodes → ∀ g : Int,
      netqTransLocalRank info l = some g ↔ tmpiGrankToLrank info g = l) ∧
    (∀ g : Int, netqIsLocalNode info g = true ↔ 0 ≤ tmpiGrankToLrank info g) ∧
    (∀ g : Int, g < 0 ∨ total ≤ g → netqTransGlobalRank info g = none ∧
      netqGetMacID info g = none ∧ netqIsLocalNode info g = false ∧
      tmpiGrankToLrank info g = -1) ∧
    ∀ l : Int, l < 0 ∨ (macs[myID]).nNodes ≤ l → netqTransLocalRank info l = none := by
  intro info total
  have table : info.lTable = macs[myID].nodeIDs := by
    simp [info, netqStart, List.getD_eq_getElem?_getD, mine]
  refine ⟨fun g nonneg bound => ?_, fun entry there => ?_, fun macID localID absent => ?_,
    fun l bound g => ?_, isLocalNode_iff info, fun g outside => ?_, fun l outside => ?_⟩
  · obtain ⟨entry, mac, member, place, node⟩ := accepted.exists_place nonneg bound
    have known := (accepted.trans_iff myID g entry).mpr member
    exact ⟨entry, mac, known, by rw [getMacID_eq, known]; rfl, place, node,
      (accepted.find_iff myID entry g).mpr member⟩
  · obtain ⟨mac, place, bound⟩ := there
    have member : (mac.nodeIDs[entry.localID], entry) ∈ places macs :=
      mem_places.mpr ⟨mac, place, List.getElem?_eq_getElem bound⟩
    exact ⟨_, (accepted.find_iff myID entry _).mpr member, (accepted.trans_iff myID _ entry).mpr member⟩
  · by_contra found
    obtain ⟨g, rank⟩ := Option.ne_none_iff_exists'.mp found
    obtain ⟨entry, rfl, rfl⟩ := findGlobalRank_some rank
    obtain ⟨mac, place, node⟩ := mem_places.mp ((accepted.find_iff myID entry g).mp rank)
    have bound := (List.getElem?_eq_some_iff.mp node).1
    have past := absent entry rfl rfl mac place
    exact absurd bound (Nat.not_lt.mpr past)
  · rw [accepted.local_iff, mem_places, netqTransLocalRank, table, if_neg]
    · simp [List.getElem?_eq_getElem mine]
    · have within : l < macs[myID].nodeIDs.length := bound
      push Not
      exact ⟨Int.natCast_nonneg l, Int.ofNat_lt.mpr within⟩
  · have unknown := trans_out_of_range myID outside
    refine ⟨unknown, by rw [getMacID_eq, unknown]; rfl, ?_, ?_⟩
    · simp [netqIsLocalNode, info, unknown]
    · simp [tmpiGrankToLrank, info, unknown]
  · rw [netqTransLocalRank, table]
    exact if_pos outside

/-- Four ranks on two machines, in no particular order, and a machine with none. -/
theorem rank_tables_three :
    netqFindGlobalRank (netqStart [⟨[97], [2, 0]⟩, ⟨[98], []⟩, ⟨[99], [3, 1]⟩] 2) 0 1 = some 0 ∧
    ∃ g, netqFindGlobalRank (netqStart [⟨[97], [2, 0]⟩, ⟨[98], []⟩, ⟨[99], [3, 1]⟩] 2) 2 0 = some g ∧
      netqTransGlobalRank (netqStart [⟨[97], [2, 0]⟩, ⟨[98], []⟩, ⟨[99], [3, 1]⟩] 2) g = some ⟨2, 0⟩ :=
  ⟨by decide, (rank_tables [⟨[97], [2, 0]⟩, ⟨[98], []⟩, ⟨[99], [3, 1]⟩] 2 (by decide) (by decide)).2.1
    ⟨2, 0⟩ ⟨⟨[99], [3, 1]⟩, rfl, by decide⟩⟩

end Tmpi.Netq
