import Tmpi.Netd.Framing

/-! What the calls of `netd_recvmsg` hand on of the messages that were written. -/

namespace Tmpi.Netd.Pt2pt

open Transfer

namespace Receiver

variable {sys : System} {r : Receiver} {fd : Int}

/-- After `k` reads that leave `rest` on a connection. -/
def after (r : Receiver) (fd : Int) (k : Nat) (rest : Buffer) : Receiver :=
  { r with streams := Function.update r.streams fd rest, reads := r.reads + k }

@[simp]
theorem after_stream (k : Nat) (rest : Buffer) : (r.after fd k rest).streams fd = rest := by
  dsimp only [after]
  rw [Function.update_self]

theorem after_after (k k' : Nat) (rest rest' : Buffer) :
    (r.after fd k rest).after fd k' rest' = r.after fd (k + k') rest' := by
  simp only [after, Function.update_idem, Nat.add_assoc]

theorem read_eq (fair : ∀ k, Fair maxRetry (sys.reads k)) {len : Int} (there : len.toNat ≤ (r.streams fd).length) :
    r.read sys fd len =
      some (0, (r.streams fd).take len.toNat, r.after fd 1 ((r.streams fd).drop len.toNat)) := by
  rw [read, sockRead_reads (fair r.reads) there]
  rfl

/-- What is left of a message is read and dropped. -/
theorem dump_eq (fair : ∀ k, Fair maxRetry (sys.reads k)) {n : Nat} (there : n ≤ (r.streams fd).length) :
    ∃ k, dump sys fd n r = some (r.after fd k ((r.streams fd).drop n)) := by
  induction n using Nat.strong_induction_on generalizing r with
  | _ n ih =>
      by_cases done : n = 0
      · refine ⟨0, ?_⟩
        rw [dump, if_pos done, done, List.drop_zero, after, Function.update_eq_self]
        rfl
      · have part : ((min n 128 : Nat) : Int).toNat ≤ (r.streams fd).length := by
          rw [Int.toNat_natCast]
          exact (Nat.min_le_left n 128).trans there
        rw [dump, if_neg done, read_eq fair part, Option.bind_some, Int.toNat_natCast]
        obtain ⟨k, rest⟩ := @ih (n - min n 128) (by omega) (r.after fd 1 ((r.streams fd).drop (min n 128)))
          (by rw [after_stream, List.length_drop]; omega)
        refine ⟨1 + k, rest.trans ?_⟩
        rw [after_after, after_stream, List.drop_drop]
        congr 3
        omega

/-- The bytes of a header that are over the limit are dropped. -/
theorem truncate_eq (fair : ∀ k, Fair maxRetry (sys.reads k)) {m : Nat} {header rest : Buffer}
    (within : m ≤ header.length) (k : Nat) :
    ∃ k', (if (m : Int) < header.length then
        dump sys fd ((header.length : Int) - m).toNat (r.after fd k (header.drop m ++ rest))
      else some (r.after fd k (header.drop m ++ rest))) = some (r.after fd k' rest) := by
  have left : (header.drop m).length = header.length - m := List.length_drop
  split_ifs with more
  · have amount : ((header.length : Int) - m).toNat = (header.drop m).length := by omega
    rw [amount]
    have there : (header.drop m).length ≤ ((r.after fd k (header.drop m ++ rest)).streams fd).length := by
      rw [after_stream, List.length_append]
      exact Nat.le_add_right _ _
    obtain ⟨k', dumped⟩ := dump_eq fair there
    refine ⟨k + k', dumped.trans ?_⟩
    rw [after_after, after_stream, List.drop_left]
  · refine ⟨k, ?_⟩
    rw [List.drop_eq_nil_of_le (by omega), List.nil_append]

/-- A message that is in front of a connection is handed on, cut off at the limit. -/
theorem readMsg_eq (fair : ∀ k, Fair maxRetry (sys.reads k)) {limit : Int} (some_size : 0 ≤ limit) {msg : Message}
    {rest : Buffer} (stream : r.streams fd = msg.frame ++ rest) :
    ∃ k, r.readMsg sys fd limit =
      some (some (msg.header.take limit.toNat), r.after fd k (msg.data ++ rest)) := by
  have long := msg.longEnough
  have short := msg.notTooLong
  have number : (loadInt (storeInt (.ofNat 32 msg.header.length))).toInt = msg.header.length := by
    rw [loadInt_storeInt, BitVec.toInt_eq_toNat_of_lt (by rw [BitVec.toNat_ofNat]; omega), BitVec.toNat_ofNat]
    omega
  have frame : r.streams fd = storeInt (.ofNat 32 msg.header.length) ++ (msg.header ++ (msg.data ++ rest)) := by
    rw [stream, Message.frame]
    simp only [List.append_assoc]
  have first : r.read sys fd 4 =
      some (0, storeInt (.ofNat 32 msg.header.length), r.after fd 1 (msg.header ++ (msg.data ++ rest))) := by
    rw [read_eq fair (by rw [frame, List.length_append]; exact Nat.le_add_right 4 _), frame]
    rfl
  obtain ⟨m, size, within, taken⟩ : ∃ m : Nat, (if limit < (msg.header.length : Int) then limit else msg.header.length) = m ∧
      m ≤ msg.header.length ∧ msg.header.take limit.toNat = msg.header.take m := by
    split_ifs with longer
    · exact ⟨limit.toNat, by omega, by omega, rfl⟩
    · exact ⟨msg.header.length, rfl, le_rfl, by rw [List.take_length, List.take_of_length_le (by omega)]⟩
  unfold readMsg
  rw [first]
  simp only [Option.bind_eq_bind, Option.bind_some, number, size, lt_irrefl, if_false,
    if_neg (not_lt.mpr (Int.natCast_nonneg msg.header.length))]
  rw [taken]
  by_cases wanted : (0 : Int) < m
  · have second : (r.after fd 1 (msg.header ++ (msg.data ++ rest))).read sys fd m =
        some (0, msg.header.take m, r.after fd 2 (msg.header.drop m ++ (msg.data ++ rest))) := by
      rw [read_eq fair (by rw [after_stream, List.length_append, Int.toNat_natCast]; omega), after_after, after_stream,
        Int.toNat_natCast, List.take_append_of_le_length within, List.drop_append_of_le_length within]
    obtain ⟨k, rest_dumped⟩ := @truncate_eq sys r fd fair m msg.header (msg.data ++ rest) within 2
    refine ⟨k, ?_⟩
    rw [if_pos wanted, second, Option.bind_some]
    simp only [lt_irrefl, if_false]
    split_ifs at rest_dumped ⊢ with longer
    · rw [rest_dumped]
      rfl
    · rw [Option.some.inj rest_dumped]
      rfl
  · obtain rfl : m = 0 := by omega
    obtain ⟨k, rest_dumped⟩ := @truncate_eq sys r fd fair 0 msg.header (msg.data ++ rest) within 1
    refine ⟨k, ?_⟩
    rw [if_neg wanted, List.take_zero]
    rw [List.drop_zero] at rest_dumped
    split_ifs at rest_dumped ⊢ with longer
    · rw [rest_dumped]
      rfl
    · rw [Option.some.inj rest_dumped]
      rfl

/-! ## The next connection -/

/-- The receiver with another set, and with what is remembered of it. -/
def seen (r : Receiver) (set : List Pollfd) (idx nset : Int) (polls : Nat) : Receiver :=
  { r with idx := idx, nset := nset, polls := polls, info := { r.info with pt2ptset := some set } }

theorem look_eq (set : List Pollfd) (idx : Int) :
    ∃ idx' nset, r.look set idx =
      ((scan ((set.take (r.info.size - 1).toNat).drop idx.toNat) idx r.nset).1, r.seen set idx' nset r.polls) :=
  ⟨_, _, rfl⟩

/-- Where nothing will come any more, the call waits for ever. -/
theorem select_waits {set : List Pollfd} (silent : ∀ p ∈ set, r.streams p.fd = []) : r.select sys set = none := by
  obtain ⟨idx, nset, looked⟩ := @look_eq r set (r.idx + 1)
  unfold select
  by_cases cached : 0 < r.nset
  · have unread : (r.seen set idx nset r.polls).sockCanread sys
        (scan ((set.take (r.info.size - 1).toNat).drop (r.idx + 1).toNat) (r.idx + 1) r.nset).1 ≠ 1 := by
      unfold sockCanread
      split_ifs with readable
      · cases scan_cases ((set.take (r.info.size - 1).toNat).drop (r.idx + 1).toNat) (r.idx + 1) r.nset with
        | inl missing =>
            rw [missing] at readable
            exact absurd readable.1 (by decide)
        | inr found =>
            obtain ⟨p, member, -, same⟩ := found
            rw [same] at readable
            exact absurd (silent p (List.mem_of_mem_take (List.mem_of_mem_drop member))) readable.2.1
      · exact nofun
    have nothing : (r.seen set idx nset (r.polls + 1)).poll sys set = none := poll_waits silent
    rw [if_pos cached, looked]
    dsimp only
    rw [if_pos unread, if_pos rfl]
    exact congrArg (Option.map _) nothing
  · rw [if_neg cached]
    dsimp only
    rw [if_pos rfl, poll_waits silent, Option.map_none]

/-- The descriptor that the scan of a fresh report gives. -/
theorem look_finds {set : List Pollfd} (length : set.length = (r.info.size - 1).toNat)
    (reported : ∃ p ∈ set, p.revents = .readable) :
    ∃ p ∈ set, p.revents = .readable ∧ ∃ idx nset, r.look set 0 = (p.fd, r.seen set idx nset r.polls) := by
  obtain ⟨idx, nset, looked⟩ := @look_eq r set 0
  rw [← length, List.take_length] at looked
  obtain ⟨p, member, readable, found⟩ := scan_finds reported 0 r.nset
  refine ⟨p, member, readable, idx, nset, ?_⟩
  rw [← found]
  exact looked

theorem seen_self {set : List Pollfd} (same : r.info.pt2ptset = some set) : r.seen set r.idx r.nset r.polls = r := by
  obtain ⟨info, nset, idx, streams, reads, polls⟩ := r
  obtain ⟨size, myid, pt2ptfd, groupfd, fdtorank, maxmsg, pt2ptset⟩ := info
  obtain rfl : pt2ptset = some set := same
  rfl

theorem select_finds {set : List Pollfd} (here : r.info.pt2ptset = some set) (length : set.length = (r.info.size - 1).toNat)
    (data : ∃ p ∈ set, r.streams p.fd ≠ []) :
    ∃ fd set' idx nset polls, r.select sys set = some (fd, r.seen set' idx nset polls) ∧
      set'.map Pollfd.fd = set.map Pollfd.fd ∧ fd ∈ set.map Pollfd.fd ∧ r.streams fd ≠ [] := by
  have polled : ∀ idx nset polls, ∃ fd set' idx' nset' polls',
      ((r.seen set idx nset polls).poll sys set).map (fun set' =>
          { r.seen set idx nset polls with nset := reported set', polls := polls + 1 }.look set' 0) =
        some (fd, r.seen set' idx' nset' polls') ∧
      set'.map Pollfd.fd = set.map Pollfd.fd ∧ fd ∈ set.map Pollfd.fd ∧ r.streams fd ≠ [] := by
    intro idx nset polls
    obtain ⟨set', told, same, some_reported, only⟩ := @poll_reports sys (r.seen set idx nset polls) set data
    have lengths := congrArg List.length same
    rw [List.length_map, List.length_map] at lengths
    obtain ⟨p, member, readable, idx', nset', looked⟩ := @look_finds
      { r.seen set idx nset polls with nset := reported set', polls := polls + 1 } set' (lengths.trans length) some_reported
    refine ⟨p.fd, set', idx', nset', polls + 1, ?_, same, ?_, only p member readable⟩
    · rw [told, Option.map_some, looked]
      rfl
    · rw [← same]
      exact List.mem_map_of_mem member
  unfold select
  by_cases cached : 0 < r.nset
  · obtain ⟨idx, nset, looked⟩ := @look_eq r set (r.idx + 1)
    rw [if_pos cached, looked]
    dsimp only
    by_cases readable : (r.seen set idx nset r.polls).sockCanread sys
        (scan ((set.take (r.info.size - 1).toNat).drop (r.idx + 1).toNat) (r.idx + 1) r.nset).1 = 1
    · rw [if_neg (not_not.mpr readable)]
      obtain ⟨valid, filled, -⟩ : _ ∧ _ ∧ _ := by
        unfold sockCanread at readable
        split_ifs at readable with come
        · exact come
        · exact absurd readable nofun
      rw [if_neg (by omega)]
      cases scan_cases ((set.take (r.info.size - 1).toNat).drop (r.idx + 1).toNat) (r.idx + 1) r.nset with
      | inl missing => omega
      | inr found =>
          obtain ⟨p, member, -, same⟩ := found
          refine ⟨_, set, idx, nset, r.polls + 1, rfl, rfl, ?_, filled⟩
          rw [same]
          exact List.mem_map_of_mem (List.mem_of_mem_take (List.mem_of_mem_drop member))
    · rw [if_pos readable, if_pos rfl]
      exact polled idx nset (r.polls + 1)
  · rw [if_neg cached]
    dsimp only
    rw [if_pos rfl]
    have again := polled r.idx r.nset r.polls
    rw [seen_self here] at again
    exact again

/-! ## One message -/

section

variable {size me : Nat} {socket : Nat → Int} {pending : Nat → List Message}

/-- What has still to come from each machine. -/
structure Waiting (r : Receiver) (size me : Nat) (socket : Nat → Int) (pending : Nat → List Message) : Prop where
  meshed : r.info.Meshed size me socket
  streams : ∀ j, j < size → j ≠ me → r.streams (socket j) = (pending j).flatMap Message.frame

theorem Waiting.empty_iff (waiting : r.Waiting size me socket pending) {j : Nat} (inside : j < size) (other : j ≠ me) :
    r.streams (socket j) = [] ↔ pending j = [] := by
  rw [waiting.streams j inside other]
  cases pending j with
  | nil => exact ⟨fun _ => rfl, fun _ => rfl⟩
  | cons msg msgs => exact iff_of_false nofun nofun

theorem clear_map (set : List Pollfd) (i : Nat) :
    (set.modify i ({ · with revents := .none })).map Pollfd.fd = set.map Pollfd.fd := by
  apply List.ext_getElem?
  intro k
  rw [List.getElem?_map, List.getElem?_map, List.getElem?_modify]
  cases set[k]? with
  | none => rfl
  | some p =>
      simp only [Option.map_some]
      split_ifs <;> rfl

theorem Waiting.select (waiting : r.Waiting size me socket pending)
    (come : ∃ j, j < size ∧ j ≠ me ∧ pending j ≠ []) {set : List Pollfd} (here : r.info.pt2ptset = some set) :
    ∃ j msg rest r', j < size ∧ j ≠ me ∧ pending j = msg :: rest ∧ r.select sys set = some (socket j, r') ∧
      ∃ set' idx nset polls, r'.clear = r.seen set' idx nset polls ∧ set'.map Pollfd.fd = set.map Pollfd.fd := by
  obtain ⟨set₀, is_set, length, members⟩ := waiting.meshed.set
  obtain rfl := Option.some.inj (here.symm.trans is_set)
  have data : ∃ p ∈ set, r.streams p.fd ≠ [] := by
    obtain ⟨j, inside, other, filled⟩ := come
    obtain ⟨p, member, same⟩ := List.mem_map.mp ((members (socket j)).mpr ⟨j, inside, other, rfl⟩)
    refine ⟨p, member, ?_⟩
    rw [same]
    exact fun empty => filled ((waiting.empty_iff inside other).mp empty)
  have sized : set.length = (r.info.size - 1).toNat := by
    rw [length, waiting.meshed.sized]
    omega
  obtain ⟨fd, set', idx, nset, polls, selected, same, member, filled⟩ := @select_finds sys r set here sized data
  obtain ⟨j, inside, other, rfl⟩ := (members fd).mp member
  obtain ⟨msg, rest, split⟩ := List.exists_cons_of_ne_nil fun empty =>
    filled ((waiting.empty_iff inside other).mpr empty)
  refine ⟨j, msg, rest, _, inside, other, split, selected, set'.modify idx.toNat ({ · with revents := .none }), idx,
    nset, polls, rfl, ?_⟩
  rw [clear_map, same]

variable {announced : Buffer → Int} {limit : Int}

/-- The handler reads the payload of the message that is handed to it. -/
theorem readPayload_eq (fair : ∀ k, Fair maxRetry (sys.reads k)) (meshed : r.info.Meshed size me socket) {j : Nat}
    (inside : j < size) (other : j ≠ me) {msg : Message} {rest : Buffer}
    (announces : announced (msg.header.take limit.toNat) = msg.data.length)
    (stream : r.streams (socket j) = msg.data ++ rest) :
    readPayload sys announced j (msg.header.take limit.toNat) r =
      some (msg.delivery limit j, r.after (socket j) 1 rest) := by
  have there : (msg.data.length : Int).toNat ≤ (r.streams (socket j)).length := by
    rw [stream, List.length_append, Int.toNat_natCast]
    exact Nat.le_add_right _ _
  rw [readPayload, netdRecvdat, meshed.there j inside other, announces]
  dsimp only
  rw [read_eq fair there, Option.map_some, stream, Int.toNat_natCast, List.take_left, List.drop_left]
  rfl

/-- Nothing but the message is taken off its connection. -/
theorem Waiting.took (waiting : r.Waiting size me socket pending) {j : Nat} (inside : j < size) (other : j ≠ me)
    (rest : List Message) {set set' : List Pollfd}
    (here : r.info.pt2ptset = some set) (same : set'.map Pollfd.fd = set.map Pollfd.fd) (idx nset : Int)
    (polls k : Nat) :
    ((r.seen set' idx nset polls).after (socket j) k (rest.flatMap Message.frame)).Waiting size me socket
      (Function.update pending j rest) := by
  refine ⟨waiting.meshed.report here same, fun i insideI otherI => ?_⟩
  dsimp only [after, seen]
  by_cases equal : i = j
  · rw [equal, Function.update_self, Function.update_self]
  · have apart : socket i ≠ socket j := fun same =>
      equal (waiting.meshed.injective insideI otherI inside other same)
    rw [Function.update_of_ne apart, Function.update_of_ne equal, waiting.streams i insideI otherI]

/-- Of one machine the first message is handed on. -/
theorem Waiting.receives (fair : ∀ k, Fair maxRetry (sys.reads k)) (waiting : r.Waiting size me socket pending)
    (some_size : 0 ≤ limit) (room : limit ≤ r.info.maxmsg)
    (announces : ∀ j, j < size → j ≠ me → ∀ msg ∈ pending j,
      announced (msg.header.take limit.toNat) = msg.data.length)
    (come : ∃ j, j < size ∧ j ≠ me ∧ pending j ≠ []) :
    ∃ j msg rest r', j < size ∧ j ≠ me ∧ pending j = msg :: rest ∧
      r.netdRecvmsg sys limit (readPayload sys announced) = some (some (msg.delivery limit j), r') ∧
      r'.Waiting size me socket (Function.update pending j rest) ∧ r'.info.maxmsg = r.info.maxmsg := by
  obtain ⟨set, here, -, -⟩ := waiting.meshed.set
  obtain ⟨ranks, ranked, rank⟩ := waiting.meshed.ranks
  obtain ⟨j, msg, rest, r₁, inside, other, split, selected, set', idx, nset, polls, cleared, same⟩ :=
    @Waiting.select sys r size me socket pending waiting come set here
  have stream : (r.seen set' idx nset polls).streams (socket j) = msg.frame ++ rest.flatMap Message.frame := by
    show r.streams (socket j) = _
    rw [waiting.streams j inside other, split, List.flatMap_cons]
  obtain ⟨k, message⟩ := readMsg_eq fair some_size stream
  have meshed : ((r.seen set' idx nset polls).after (socket j) k (msg.data ++ rest.flatMap Message.frame)).info.Meshed
      size me socket := waiting.meshed.report here same
  have handled := readPayload_eq fair meshed inside other
    (announces j inside other msg (split ▸ List.mem_cons_self)) (after_stream k _)
  rw [after_after] at handled
  have real : socket j ≠ -1 := NetdLinks.pt2pt_ne (waiting.meshed.there j inside other)
  have large := waiting.meshed.large
  have sized := waiting.meshed.sized
  refine ⟨j, msg, rest, _, inside, other, split, ?_, waiting.took inside other rest here same idx nset polls (k + 1), rfl⟩
  unfold netdRecvmsg
  rw [here, ranked]
  dsimp only
  rw [if_neg (by omega), selected]
  simp only [Option.bind_eq_bind, Option.bind_some, real, if_false, cleared]
  have roomy : ¬ (r.seen set' idx nset polls).info.maxmsg < limit := not_lt.mpr room
  rw [if_neg roomy, message]
  simp only [Option.bind_some, rank j inside other, handled]
  rfl

theorem Waiting.waits (waiting : r.Waiting size me socket pending)
    (nothing : ∀ j, j < size → j ≠ me → pending j = []) :
    r.netdRecvmsg sys limit (readPayload sys announced) = none := by
  obtain ⟨set, here, -, members⟩ := waiting.meshed.set
  obtain ⟨ranks, ranked, -⟩ := waiting.meshed.ranks
  have large := waiting.meshed.large
  have sized := waiting.meshed.sized
  have silent : ∀ p ∈ set, r.streams p.fd = [] := by
    intro p member
    obtain ⟨j, inside, other, same⟩ := (members p.fd).mp (List.mem_map_of_mem member)
    rw [same]
    exact (waiting.empty_iff inside other).mpr (nothing j inside other)
  unfold netdRecvmsg
  rw [here, ranked]
  dsimp only
  rw [if_neg (by omega), select_waits silent]
  rfl

/-! ## All messages -/

/-- How many messages have still to come. -/
def total (size me : Nat) (pending : Nat → List Message) : Nat :=
  ((Finset.range size).erase me).sum fun j => (pending j).length

theorem total_update {j : Nat} (inside : j < size) (other : j ≠ me) {msg : Message} {rest : List Message}
    (split : pending j = msg :: rest) :
    total size me pending = total size me (Function.update pending j rest) + 1 := by
  have member : j ∈ (Finset.range size).erase me := Finset.mem_erase.mpr ⟨other, Finset.mem_range.mpr inside⟩
  have rest_same : (((Finset.range size).erase me).erase j).sum (fun i => (Function.update pending j rest i).length) =
      (((Finset.range size).erase me).erase j).sum fun i => (pending i).length := by
    apply Finset.sum_congr rfl
    intro i away
    rw [Function.update_of_ne (Finset.ne_of_mem_erase away)]
  unfold total
  rw [← Finset.add_sum_erase _ (fun i => (pending i).length) member,
    ← Finset.add_sum_erase _ (fun i => (Function.update pending j rest i).length) member, rest_same,
    Function.update_self, split, List.length_cons]
  omega

/-- Of every machine all its messages are handed on, in their order. -/
theorem Waiting.delivers (fair : ∀ k, Fair maxRetry (sys.reads k)) (waiting : r.Waiting size me socket pending)
    (some_size : 0 ≤ limit) (room : limit ≤ r.info.maxmsg)
    (announces : ∀ j, j < size → j ≠ me → ∀ msg ∈ pending j,
      announced (msg.header.take limit.toNat) = msg.data.length)
    {n : Nat} (enough : total size me pending ≤ n) {j : Nat} (inside : j < size) (other : j ≠ me) :
    (receive sys announced limit n r).filter (fun delivery => delivery.sender = (j : Int)) =
      (pending j).map (Message.delivery limit j) := by
  -- Each call takes one message off those that have to come.
  induction n generalizing r pending with
  | zero =>
      have member : j ∈ (Finset.range size).erase me := Finset.mem_erase.mpr ⟨other, Finset.mem_range.mpr inside⟩
      have none_left := Finset.sum_eq_zero_iff.mp (Nat.le_zero.mp enough) j member
      rw [List.eq_nil_of_length_eq_zero none_left]
      rfl
  | succ n ih =>
      by_cases come : ∃ j, j < size ∧ j ≠ me ∧ pending j ≠ []
      · obtain ⟨i, msg, rest, r', insideI, otherI, split, received, waiting', same⟩ :=
          waiting.receives fair some_size room announces come
        have left := total_update insideI otherI split
        have later : ∀ k, k < size → k ≠ me → ∀ msg ∈ Function.update pending i rest k,
            announced (msg.header.take limit.toNat) = msg.data.length := by
          intro k insideK otherK msg' member
          by_cases equal : k = i
          · rw [equal, Function.update_self] at member
            exact announces i insideI otherI msg' (split ▸ List.mem_cons_of_mem msg member)
          · rw [Function.update_of_ne equal] at member
            exact announces k insideK otherK msg' member
        have rest_delivered := ih waiting' (same ▸ room) later (by omega)
        rw [receive, received]
        dsimp only
        rw [List.filter_cons, rest_delivered]
        by_cases equal : j = i
        · have sender : (Message.delivery limit i msg).sender = i := rfl
          rw [equal, Function.update_self, split, List.map_cons, if_pos (decide_eq_true sender)]
        · have sender : (Message.delivery limit i msg).sender ≠ j := fun same =>
            equal (Int.natCast_inj.mp same).symm
          rw [if_neg (by simpa using sender), Function.update_of_ne equal]
      · have nothing : ∀ j, j < size → j ≠ me → pending j = [] := fun j insideJ otherJ =>
          not_not.mp fun filled => come ⟨j, insideJ, otherJ, filled⟩
        rw [receive, waiting.waits nothing, nothing j inside other]
        rfl

end

end Receiver

open Receiver

section

variable {sys : System} {r : Receiver} {announced : Buffer → Int} {limit : Int} {size me : Nat} {socket : Nat → Int}
  {infos : Nat → NetdLinks} {writes : Nat → Nat → Nat → Call} {sent : Nat → List Message} {n : Nat}

/-- The machines send, and the tables of `me` are for their connections. -/
structure Connected (r : Receiver) (size me : Nat) (socket : Nat → Int) (infos : Nat → NetdLinks)
    (writes : Nat → Nat → Nat → Call) (sent : Nat → List Message) : Prop where
  meshed : r.info.Meshed size me socket
  senders : ∀ j, j < size → j ≠ me → (infos j).pt2pt me ≠ none
  wired : ∀ j, j < size → j ≠ me → transmit (infos j) me (writes j) (sent j) = some (r.streams (socket j))

/-- The messages that fit are what has to come. -/
theorem Connected.waiting (connected : Connected r size me socket infos writes sent)
    (fair : ∀ j k, Fair maxRetry (writes j k)) :
    r.Waiting size me socket fun j => (sent j).filter fun msg => msg.Fits := by
  refine ⟨connected.meshed, fun j inside other => ?_⟩
  obtain ⟨fd, there⟩ := Option.ne_none_iff_exists'.mp (connected.senders j inside other)
  have written := connected.wired j inside other
  rw [transmit_eq there (fair j)] at written
  exact (Option.some.inj written).symm

theorem total_filter_le (size me : Nat) (sent : Nat → List Message) :
    total size me (fun j => (sent j).filter fun msg => msg.Fits) ≤ total size me sent :=
  Finset.sum_le_sum fun _ _ => List.length_filter_le _ _

theorem Connected.delivers_iff (connected : Connected r size me socket infos writes sent)
    (fairWrites : ∀ j k, Fair maxRetry (writes j k)) (fairReads : ∀ k, Fair maxRetry (sys.reads k))
    (some_size : 0 ≤ limit) (room : limit ≤ r.info.maxmsg)
    (announces : ∀ j, j < size → j ≠ me → ∀ msg ∈ sent j, announced (msg.header.take limit.toNat) = msg.data.length)
    (enough : total size me sent ≤ n) :
    (∀ j, j < size → j ≠ me →
        (receive sys announced limit n r).filter (fun delivery => delivery.sender = (j : Int)) =
          (sent j).map (Message.delivery limit j)) ↔
      ∀ j, j < size → j ≠ me → ∀ msg ∈ sent j, msg.Fits := by
  have delivered : ∀ j, j < size → j ≠ me →
      (receive sys announced limit n r).filter (fun delivery => delivery.sender = (j : Int)) =
        ((sent j).filter fun msg => msg.Fits).map (Message.delivery limit j) := by
    intro j inside other
    apply (connected.waiting fairWrites).delivers fairReads some_size room ?_ ((total_filter_le size me sent).trans enough)
      inside other
    exact fun j inside other msg member => announces j inside other msg (List.mem_of_mem_filter member)
  apply forall_congr' fun j => forall_congr' fun inside => forall_congr' fun other => ?_
  rw [delivered j inside other]
  constructor
  · intro same msg member
    have lengths := congrArg List.length same
    rw [List.length_map, List.length_map, List.length_filter_eq_length_iff] at lengths
    exact of_decide_eq_true (lengths msg member)
  · intro fit
    rw [List.filter_eq_self.mpr fun msg member => decide_eq_true (fit msg member)]

/-- Whatever parts the system moves, buffers are written whole when an `int` holds their length, and no others are; so
every machine's messages are handed on, each cut off at the limit, when an `int` holds the length of every frame. -/
theorem framing_round_trip_iff (connected : Connected r size me socket infos writes sent)
    (fairWrites : ∀ j k, Fair maxRetry (writes j k)) (fairReads : ∀ k, Fair maxRetry (sys.reads k))
    (some_size : 0 ≤ limit) (room : limit ≤ r.info.maxmsg)
    (announces : ∀ j, j < size → j ≠ me → ∀ msg ∈ sent j, announced (msg.header.take limit.toNat) = msg.data.length)
    (enough : total size me sent ≤ n) :
    (∀ iov : List Buffer, (∀ calls, Fair maxRetry calls → sockWritev calls iov = some (0, iov.flatten)) ↔
        iov.flatten.length < 2^31) ∧
      ((∀ j, j < size → j ≠ me →
          (receive sys announced limit n r).filter (fun delivery => delivery.sender = (j : Int)) =
            (sent j).map (Message.delivery limit j)) ↔
        ∀ j, j < size → j ≠ me → ∀ msg ∈ sent j, msg.Fits) :=
  ⟨fun _ => sockWritev_writes_iff,
    connected.delivers_iff fairWrites fairReads some_size room announces enough⟩

/-! ## Two machines -/

/-- Machine 0 reads machine 1 on descriptor 7. -/
def reader (stream : Buffer) : Receiver where
  info := ⟨2, 0, some [-1, 7], none, some [-1, -1, -1, -1, -1, -1, -1, 1], maxMsgDefault, some [⟨7, .none⟩]⟩
  nset := 0
  idx := -1
  streams _ := stream
  reads := 0
  polls := 0

/-- Machine 1 writes to machine 0 on descriptor 5. -/
def writer : NetdLinks := ⟨2, 1, some [5, -1], none, none, maxMsgDefault, none⟩

theorem reader_meshed (stream : Buffer) : (reader stream).info.Meshed 2 0 fun _ => 7 where
  large := le_rfl
  sized := rfl
  there := by
    intro j inside other
    obtain rfl : j = 1 := by omega
    rfl
  ranks := by
    refine ⟨_, rfl, fun j inside other => ?_⟩
    obtain rfl : j = 1 := by omega
    rfl
  set := by
    refine ⟨_, rfl, rfl, fun fd => ⟨fun member => ⟨1, by decide, by decide, List.mem_singleton.mp member⟩, ?_⟩⟩
    rintro ⟨j, -, -, rfl⟩
    exact List.mem_singleton.mpr rfl

theorem reader_connected {stream : Buffer} {writes : Nat → Nat → Nat → Call} {sent : Nat → List Message}
    (wired : transmit writer 0 (writes 1) (sent 1) = some stream) :
    Connected (reader stream) 2 0 (fun _ => 7) (fun _ => writer) writes sent := by
  refine ⟨reader_meshed stream, fun _ _ _ => by decide, fun j inside other => ?_⟩
  obtain rfl : j = 1 := by omega
  exact wired

/-- A header alone, and one that announces two bytes and is longer than the limit of 18 bytes. -/
def twoMessages : List Message :=
  [⟨List.replicate 16 0, none, by decide, by decide, by decide⟩,
    ⟨List.replicate 20 2, some [8, 9], by decide, by decide, by decide⟩]

/-- The system moves 3 bytes when it writes, and 2 when it reads. -/
theorem framing_round_trip_two :
    (receive ⟨fun _ _ => .moved 1, fun _ _ => true⟩ (fun header => (header.headD 0).toNat) 18 2
        (reader (twoMessages.flatMap Message.frame))).filter (fun delivery => delivery.sender = ((1 : Nat) : Int)) =
      twoMessages.map (Message.delivery 18 1) := by
  have fit : ∀ msg ∈ twoMessages, msg.Fits := by decide
  have wired : transmit writer 0 (fun _ _ => .moved 2) twoMessages = some (twoMessages.flatMap Message.frame) := by
    rw [transmit_eq rfl fun _ => Fair.moved (by decide) 2,
      List.filter_eq_self.mpr fun msg member => decide_eq_true (fit msg member)]
  have connected : Connected (reader (twoMessages.flatMap Message.frame)) 2 0 (fun _ => 7) (fun _ => writer)
      (fun _ _ _ => .moved 2) (fun _ => twoMessages) := reader_connected wired
  have writes : ∀ _ _ : Nat, Fair maxRetry fun _ => .moved 2 := fun _ _ => Fair.moved (by decide) 2
  have reads : ∀ k, Fair maxRetry ((⟨fun _ _ => .moved 1, fun _ _ => true⟩ : System).reads k) := fun _ =>
    Fair.moved (by decide) 1
  have announces : ∀ msg ∈ twoMessages,
      (((msg.header.take (18 : Int).toNat).headD 0).toNat : Int) = msg.data.length := by decide
  have trip := @framing_round_trip_iff _ _ (fun header => (header.headD 0).toNat) 18 _ _ _ _ _ _ 2 connected writes
    reads (by decide) (by decide) (fun _ _ _ => announces) (le_refl 2)
  exact (trip.2.mpr fun _ _ _ => fit) 1 (by decide) (by decide)

/-- With its length and a header of 16 bytes the message is `2^31` bytes long. -/
def longMessage : Message where
  header := List.replicate 16 0
  payload := some (List.replicate (2^31 - 20) 0)
  longEnough := by decide
  notTooLong := by decide
  datlen := by
    rw [Option.getD_some, List.length_replicate]
    decide

theorem longMessage_misfit : ¬ longMessage.Fits := by
  have length : longMessage.data.length = 2^31 - 20 := List.length_replicate
  rw [Message.Fits, length]
  decide

/-- Nothing is written of it, so nothing is handed on. -/
theorem framing_long :
    transmit writer 0 (fun _ _ => .moved 2) [longMessage] = some [] ∧
      (receive ⟨fun _ _ => .moved 1, fun _ _ => true⟩ (fun _ => 2^31 - 20) 1024 1 (reader [])).filter
        (fun delivery => delivery.sender = ((1 : Nat) : Int)) ≠ [longMessage].map (Message.delivery 1024 1) := by
  have wired : transmit writer 0 (fun _ _ => .moved 2) [longMessage] = some [] := by
    rw [transmit_eq rfl fun _ => Fair.moved (by decide) 2, List.filter_cons_of_neg (by simpa using longMessage_misfit)]
    rfl
  have connected : Connected (reader []) 2 0 (fun _ => 7) (fun _ => writer) (fun _ _ _ => .moved 2)
      (fun _ => [longMessage]) := reader_connected wired
  have writes : ∀ _ _ : Nat, Fair maxRetry fun _ => .moved 2 := fun _ _ => Fair.moved (by decide) 2
  have reads : ∀ k, Fair maxRetry ((⟨fun _ _ => .moved 1, fun _ _ => true⟩ : System).reads k) := fun _ =>
    Fair.moved (by decide) 1
  have announces : ∀ msg ∈ [longMessage], (2^31 - 20 : Int) = msg.data.length := by
    intro msg member
    rw [List.mem_singleton.mp member]
    exact (congrArg Int.ofNat List.length_replicate).symm
  have delivers := @Connected.delivers_iff _ _ (fun _ => 2^31 - 20) 1024 _ _ _ _ _ _ 1 connected writes reads
    (by decide) (by decide) (fun _ _ _ => announces) (le_refl 1)
  refine ⟨wired, fun same => ?_⟩
  have all : ∀ j, j < 2 → j ≠ 0 → ∀ msg ∈ [longMessage], msg.Fits := by
    apply delivers.mp
    intro j inside other
    obtain rfl : j = 1 := by omega
    exact same
  exact longMessage_misfit (all 1 (by decide) (by decide) longMessage List.mem_cons_self)

end

end Tmpi.Netd.Pt2pt
