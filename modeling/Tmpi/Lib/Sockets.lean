import Mathlib.Data.List.Nodup
import Mathlib.Data.Set.Finite.Basic
import Mathlib.Logic.Function.Basic
import Mathlib.Tactic

/-! Stream sockets between processes, and who is connected to whom.

Listening sockets queue the requests for them, and a process that connects does not wait
until it is accepted. A queue is as long as it gets, so a program that asks for a bounded backlog
keeps within it. In what order requests reach a socket is left open. -/

namespace Tmpi.Sockets

/-- A connection goes by the end that asked for it: a process and its descriptor. -/
abbrev Conn := Nat × Nat

inductive File (α : Type) where
  | listening (addr : α)
  | requested (addr : α)
  | accepted (conn : Conn)
  deriving DecidableEq, Repr

/-- `up c` is on its way to the process that accepted `c`, `down c` to the one that asked. -/
structure World (α β : Type) where
  file : Nat → Nat → Option (File α)
  queue : α → Option (List Conn)
  up : Conn → List β
  down : Conn → List β

variable {σ α β : Type}

def setFile (file : Nat → Nat → Option (File α)) (p fd : Nat) (entry : Option (File α)) :
    Nat → Nat → Option (File α) :=
  Function.update file p (Function.update (file p) fd entry)

@[simp] theorem setFile_self (file : Nat → Nat → Option (File α)) (p fd : Nat)
    (entry : Option (File α)) : setFile file p fd entry p fd = entry := by
  simp [setFile]

theorem setFile_other {file : Nat → Nat → Option (File α)} {p fd q other : Nat}
    (entry : Option (File α)) (different : ¬ (q = p ∧ other = fd)) :
    setFile file p fd entry q other = file q other := by
  by_cases same : q = p
  · subst same
    have apart : other ≠ fd := fun equal => different ⟨rfl, equal⟩
    simp [setFile, apart]
  · simp [setFile, same]

theorem setFile_keeps {file : Nat → Nat → Option (File α)} {p fd q other : Nat} {there : File α}
    (entry : Option (File α)) (free : file p fd = none) (known : file q other = some there) :
    setFile file p fd entry q other = some there := by
  rw [setFile_other, known]
  rintro ⟨rfl, rfl⟩
  simp [free] at known

namespace World

section

variable (w : World α β)

def setUp (c : Conn) (tokens : List β) : World α β :=
  { w with up := Function.update w.up c tokens }

def setDown (c : Conn) (tokens : List β) : World α β :=
  { w with down := Function.update w.down c tokens }

variable (c : Conn) (tokens : List β)

@[simp] theorem setUp_up_self : (w.setUp c tokens).up c = tokens := Function.update_self _ _ _

theorem setUp_up_other {c d : Conn} (different : d ≠ c) : (w.setUp c tokens).up d = w.up d :=
  Function.update_of_ne different _ _

@[simp] theorem setUp_down : (w.setUp c tokens).down = w.down := rfl

@[simp] theorem setDown_down_self : (w.setDown c tokens).down c = tokens :=
  Function.update_self _ _ _

@[simp] theorem setDown_up : (w.setDown c tokens).up = w.up := rfl

end

/-! ## The calls -/

variable {w w' : World α β} {p fd : Nat} {addr : α}

def Writes (w w' : World α β) (p fd : Nat) (tokens : List β) : Prop :=
  (∃ addr, w.file p fd = some (.requested addr) ∧
      w' = w.setUp (p, fd) (w.up (p, fd) ++ tokens)) ∨
    ∃ c, w.file p fd = some (.accepted c) ∧ w' = w.setDown c (w.down c ++ tokens)

/-- A read waits until all of its tokens have come. -/
def Reads (w w' : World α β) (p fd : Nat) (tokens : List β) : Prop :=
  (∃ addr rest, w.file p fd = some (.requested addr) ∧ w.down (p, fd) = tokens ++ rest ∧
      w' = w.setDown (p, fd) rest) ∨
    ∃ c rest, w.file p fd = some (.accepted c) ∧ w.up c = tokens ++ rest ∧ w' = w.setUp c rest

theorem Writes.of_requested {tokens : List β} (writes : w.Writes w' p fd tokens)
    (known : w.file p fd = some (.requested addr)) :
    w' = w.setUp (p, fd) (w.up (p, fd) ++ tokens) := by
  rcases writes with ⟨_, _, after⟩ | ⟨c, file, _⟩
  · exact after
  · simp [known] at file

theorem Writes.of_accepted {tokens : List β} {c : Conn} (writes : w.Writes w' p fd tokens)
    (known : w.file p fd = some (.accepted c)) : w' = w.setDown c (w.down c ++ tokens) := by
  rcases writes with ⟨_, file, _⟩ | ⟨d, file, after⟩
  · simp [known] at file
  · have same : c = d := by simpa [known] using file
    rw [same, after]

theorem Reads.of_requested {tokens : List β} (reads : w.Reads w' p fd tokens)
    (known : w.file p fd = some (.requested addr)) :
    ∃ rest, w.down (p, fd) = tokens ++ rest ∧ w' = w.setDown (p, fd) rest := by
  rcases reads with ⟨_, rest, _, split, after⟩ | ⟨c, _, file, _⟩
  · exact ⟨rest, split, after⟩
  · simp [known] at file

theorem Reads.of_accepted {tokens : List β} {c : Conn} (reads : w.Reads w' p fd tokens)
    (known : w.file p fd = some (.accepted c)) :
    ∃ rest, w.up c = tokens ++ rest ∧ w' = w.setUp c rest := by
  rcases reads with ⟨_, _, file, _⟩ | ⟨d, rest, file, split, after⟩
  · simp [known] at file
  · have same : c = d := by simpa [known] using file
    subst same
    exact ⟨rest, split, after⟩

/-- The two descriptors are the ends of one connection. -/
def Joins (w : World α β) (p fd q fd' : Nat) : Prop :=
  ∃ addr, (w.file p fd = some (.requested addr) ∧ w.file q fd' = some (.accepted (p, fd))) ∨
    (w.file q fd' = some (.requested addr) ∧ w.file p fd = some (.accepted (q, fd')))

theorem Joins.symm {w : World α β} {p fd q fd' : Nat} (joins : w.Joins p fd q fd') :
    w.Joins q fd' p fd := by
  obtain ⟨addr, ends⟩ := joins
  exact ⟨addr, ends.symm⟩

/-- What the process has not read yet of what has come over the descriptor. -/
def incoming (w : World α β) (p fd : Nat) : List β :=
  match w.file p fd with
  | some (.requested _) => w.down (p, fd)
  | some (.accepted c) => w.up c
  | _ => []

section

variable [DecidableEq α] (w : World α β)

def listen (p fd : Nat) (addr : α) : World α β :=
  { w with
    file := setFile w.file p fd (some (.listening addr))
    queue := Function.update w.queue addr (some []) }

/-- `l` is the queue of the socket at `addr` when the request has reached it. -/
def connect (p fd : Nat) (addr : α) (l : List Conn) : World α β :=
  { file := setFile w.file p fd (some (.requested addr))
    queue := Function.update w.queue addr (some l)
    up := Function.update w.up (p, fd) []
    down := Function.update w.down (p, fd) [] }

def accept (p fd : Nat) (addr : α) (c : Conn) (l : List Conn) : World α β :=
  { w with
    file := setFile w.file p fd (some (.accepted c))
    queue := Function.update w.queue addr (some l) }

def close (p fd : Nat) (addr : α) : World α β :=
  { w with
    file := setFile w.file p fd none
    queue := Function.update w.queue addr none }

end

variable [DecidableEq α]

/-- A new socket gets a descriptor and an address that are not in use. -/
def Listens (w w' : World α β) (p fd : Nat) (addr : α) : Prop :=
  w.file p fd = none ∧ w.queue addr = none ∧ w' = w.listen p fd addr

def Connects (w w' : World α β) (p fd : Nat) (addr : α) : Prop :=
  w.file p fd = none ∧
    ∃ front back, w.queue addr = some (front ++ back) ∧
      w' = w.connect p fd addr (front ++ (p, fd) :: back)

def Accepts (w w' : World α β) (p lis fd : Nat) (c : Conn) : Prop :=
  w.file p fd = none ∧
    ∃ addr rest, w.file p lis = some (.listening addr) ∧ w.queue addr = some (c :: rest) ∧
      w' = w.accept p fd addr c rest

def Closes (w w' : World α β) (p fd : Nat) : Prop :=
  ∃ addr, w.file p fd = some (.listening addr) ∧ w' = w.close p fd addr

end World

/-! ## What is in use -/

namespace World

/-- Only so many descriptors and addresses are in use. -/
structure Small (w : World α β) : Prop where
  files : ∀ p, {fd | w.file p fd ≠ none}.Finite
  queues : {addr | w.queue addr ≠ none}.Finite

namespace Small

variable {w : World α β}

theorem exists_fd (small : w.Small) (p : Nat) : ∃ fd, w.file p fd = none := by
  obtain ⟨fd, free⟩ := (small.files p).infinite_compl.nonempty
  exact ⟨fd, not_not.mp free⟩

theorem exists_addr (small : w.Small) {name : Nat → α} (different : Function.Injective name) :
    ∃ n, w.queue (name n) = none := by
  have finite : (Set.preimage name {addr | w.queue addr ≠ none}).Finite :=
    small.queues.preimage different.injOn
  obtain ⟨n, free⟩ := finite.infinite_compl.nonempty
  exact ⟨n, not_not.mp free⟩

theorem setFile (files : ∀ p, {fd | w.file p fd ≠ none}.Finite) (p fd : Nat)
    (entry : Option (File α)) (q : Nat) :
    {other | Sockets.setFile w.file p fd entry q other ≠ none}.Finite := by
  apply ((files q).insert fd).subset
  intro other used
  by_cases same : q = p ∧ other = fd
  · exact Set.mem_insert_iff.mpr (.inl same.2)
  · rw [Set.mem_ofPred_eq, setFile_other entry same] at used
    exact Set.mem_insert_iff.mpr (.inr used)

variable [DecidableEq α]

theorem queue (queues : {addr | w.queue addr ≠ none}.Finite) (addr : α)
    (l : Option (List Conn)) :
    {other | Function.update w.queue addr l other ≠ none}.Finite := by
  apply (queues.insert addr).subset
  intro other used
  by_cases same : other = addr
  · exact Set.mem_insert_iff.mpr (.inl same)
  · rw [Set.mem_ofPred_eq, Function.update_of_ne same] at used
    exact Set.mem_insert_iff.mpr (.inr used)

theorem listens {w' : World α β} (small : w.Small) {p fd : Nat} {addr : α}
    (call : w.Listens w' p fd addr) : w'.Small := by
  obtain ⟨-, -, rfl⟩ := call
  exact ⟨setFile small.files p fd _, queue small.queues addr _⟩

theorem connects {w' : World α β} (small : w.Small) {p fd : Nat} {addr : α}
    (call : w.Connects w' p fd addr) : w'.Small := by
  obtain ⟨-, front, back, -, rfl⟩ := call
  exact ⟨setFile small.files p fd _, queue small.queues addr _⟩

theorem accepts {w' : World α β} (small : w.Small) {p lis fd : Nat} {c : Conn}
    (call : w.Accepts w' p lis fd c) : w'.Small := by
  obtain ⟨-, addr, rest, -, -, rfl⟩ := call
  exact ⟨setFile small.files p fd _, queue small.queues addr _⟩

theorem closes {w' : World α β} (small : w.Small) {p fd : Nat} (call : w.Closes w' p fd) :
    w'.Small := by
  obtain ⟨addr, -, rfl⟩ := call
  exact ⟨setFile small.files p fd _, queue small.queues addr _⟩

omit [DecidableEq α] in
theorem writes {w' : World α β} (small : w.Small) {p fd : Nat} {tokens : List β}
    (call : w.Writes w' p fd tokens) : w'.Small := by
  rcases call with ⟨addr, -, rfl⟩ | ⟨c, -, rfl⟩
  · exact ⟨small.files, small.queues⟩
  · exact ⟨small.files, small.queues⟩

omit [DecidableEq α] in
theorem reads {w' : World α β} (small : w.Small) {p fd : Nat} {tokens : List β}
    (call : w.Reads w' p fd tokens) : w'.Small := by
  rcases call with ⟨addr, rest, -, -, rfl⟩ | ⟨c, rest, -, -, rfl⟩
  · exact ⟨small.files, small.queues⟩
  · exact ⟨small.files, small.queues⟩

end Small

end World

/-! ## Scripts -/

/-- What is on its way of a script of which so much has been written and so much read. -/
def onTheWay (script : List β) (written read : Nat) : List β := (script.take written).drop read

@[simp] theorem onTheWay_self (script : List β) (n : Nat) : onTheWay script n n = [] := by
  simp [onTheWay]

theorem onTheWay_append {script words : List β} {written read : Nat} (ahead : read ≤ written)
    (next : words <+: script.drop written) :
    onTheWay script written read ++ words = onTheWay script (written + words.length) read := by
  obtain ⟨rest, split⟩ := next
  have taken : script.take (written + words.length) = script.take written ++ words := by
    rw [List.take_add, ← split, List.take_left]
  by_cases short : script.length < written
  · have none : script.drop written = [] := List.drop_eq_nil_of_le short.le
    have empty : words = [] := by
      rw [none] at split
      exact (List.append_eq_nil_iff.mp split).1
    simp [empty]
  · have length : (script.take written).length = written := by
      rw [List.length_take]
      omega
    rw [onTheWay, onTheWay, taken, List.drop_append_of_le_length (by omega)]

theorem onTheWay_split {script words rest : List β} {written read : Nat} (ahead : read ≤ written)
    (split : onTheWay script written read = words ++ rest) :
    read + words.length ≤ written ∧ words <+: script.drop read ∧
      rest = onTheWay script written (read + words.length) := by
  have length := congrArg List.length split
  rw [onTheWay, List.length_drop, List.length_take, List.length_append] at length
  refine ⟨by omega, ?_, ?_⟩
  · have whole : onTheWay script written read <+: script.drop read := by
      rw [onTheWay, List.drop_take]
      exact List.take_prefix _ _
    rw [split] at whole
    exact (List.prefix_append words rest).trans whole
  · have dropped := congrArg (List.drop words.length) split
    rw [List.drop_left, onTheWay, List.drop_drop] at dropped
    exact dropped.symm

theorem onTheWay_next {script words : List β} {written read : Nat}
    (more : read + words.length ≤ written) (next : words <+: script.drop read) :
    ∃ rest, onTheWay script written read = words ++ rest := by
  obtain ⟨rest, split⟩ := next
  refine ⟨rest.take (written - read - words.length), ?_⟩
  rw [onTheWay, List.drop_take, ← split, List.take_append, List.take_of_length_le (by omega)]

/-! ## Who has called whom -/

/-- The sockets `σ`, and for each of them who has called it, who has been accepted and whose
introduction has been heard. `line p a` is the descriptor of the caller `p`, `answer a p` the
one that it was accepted as. -/
structure Switchboard (σ α : Type) where
  owner : σ → Nat
  lis : σ → Nat
  addr : σ → α
  opened : σ → Prop
  closed : σ → Prop
  called : Nat → σ → Prop
  line : Nat → σ → Nat
  answer : σ → Nat → Nat
  heard : σ → List Nat
  held : σ → Option Nat

namespace Switchboard

variable (v : Switchboard σ α)

def Taken (a : σ) (p : Nat) : Prop := p ∈ v.heard a ∨ v.held a = some p

/-- The sockets of the world are as the switchboard says. -/
structure Kept (w : World α β) : Prop where
  apart : ∀ a b, v.opened a → v.opened b → v.addr a = v.addr b → a = b
  socket : ∀ a, v.opened a → ¬ v.closed a →
    w.file (v.owner a) (v.lis a) = some (.listening (v.addr a))
  reached : ∀ p a, v.called p a → v.opened a
  requested : ∀ p a, v.called p a → w.file p (v.line p a) = some (.requested (v.addr a))
  answered : ∀ a p, v.Taken a p →
    v.called p a ∧ w.file (v.owner a) (v.answer a p) = some (.accepted (p, v.line p a))
  once : ∀ a, (v.heard a ++ (v.held a).toList).Nodup
  waiting : ∀ a, v.opened a → ¬ v.closed a →
    ∃ l, w.queue (v.addr a) = some l ∧ l.Nodup ∧
      ∀ c, c ∈ l ↔ ∃ p, v.called p a ∧ ¬ v.Taken a p ∧ c = (p, v.line p a)

variable {v} {w : World α β}

theorem taken_iff_mem (a : σ) (p : Nat) : v.Taken a p ↔ p ∈ v.heard a ++ (v.held a).toList := by
  simp [Taken, Option.mem_toList]

namespace Kept

/-- Calls to two sockets go over two descriptors. -/
theorem line_apart (kept : v.Kept w) {p : Nat} {a b : σ} (first : v.called p a)
    (second : v.called p b) (same : v.line p a = v.line p b) : a = b := by
  have file := kept.requested p a first
  rw [same, kept.requested p b second] at file
  have addr : v.addr b = v.addr a := by simpa using file
  exact kept.apart a b (kept.reached p a first) (kept.reached p b second) addr.symm

theorem conn_apart (kept : v.Kept w) {p q : Nat} {a b : σ} (first : v.called p a)
    (second : v.called q b) (different : ¬ (p = q ∧ a = b)) :
    (p, v.line p a) ≠ (q, v.line q b) := by
  intro same
  obtain ⟨rfl, lines⟩ := Prod.mk.inj same
  exact different ⟨rfl, kept.line_apart first second lines⟩

/-- Callers that a process has taken have got two descriptors. -/
theorem answer_apart (kept : v.Kept w) {p q : Nat} {a b : σ} (owner : v.owner a = v.owner b)
    (first : v.Taken a p) (second : v.Taken b q) (same : v.answer a p = v.answer b q) :
    a = b ∧ p = q := by
  obtain ⟨calledA, fileA⟩ := kept.answered a p first
  obtain ⟨calledB, fileB⟩ := kept.answered b q second
  rw [owner, same, fileB] at fileA
  obtain ⟨rfl, lines⟩ : q = p ∧ v.line q b = v.line p a := by simpa using fileA
  exact ⟨kept.line_apart calledA calledB lines.symm, rfl⟩

theorem line_ne_answer (kept : v.Kept w) {q : Nat} {a b : σ} (called : v.called (v.owner b) a)
    (taken : v.Taken b q) : v.line (v.owner b) a ≠ v.answer b q := by
  intro same
  have file := kept.requested _ a called
  rw [same, (kept.answered b q taken).2] at file
  cases file

/-- Data on the way is of no concern. -/
theorem congr (kept : v.Kept w) {w' : World α β} (file : w'.file = w.file)
    (queue : w'.queue = w.queue) : v.Kept w' where
  apart := kept.apart
  socket := by rw [file]; exact kept.socket
  reached := kept.reached
  requested := by rw [file]; exact kept.requested
  answered := by rw [file]; exact kept.answered
  once := kept.once
  waiting := by rw [queue]; exact kept.waiting

end Kept

/-! ## What the calls do -/

section

variable [DecidableEq σ] (v : Switchboard σ α)

def listen (a : σ) (fd : Nat) (addr : α) : Switchboard σ α :=
  { v with
    lis := Function.update v.lis a fd
    addr := Function.update v.addr a addr
    opened := fun b => v.opened b ∨ b = a }

def call (p : Nat) (a : σ) (fd : Nat) : Switchboard σ α :=
  { v with
    called := fun q b => v.called q b ∨ (q = p ∧ b = a)
    line := fun q b => if q = p ∧ b = a then fd else v.line q b }

def take (a : σ) (p fd : Nat) : Switchboard σ α :=
  { v with
    held := Function.update v.held a (some p)
    answer := fun b q => if b = a ∧ q = p then fd else v.answer b q }

def hear (a : σ) : Switchboard σ α :=
  { v with
    heard := Function.update v.heard a (v.heard a ++ (v.held a).toList)
    held := Function.update v.held a none }

def close (a : σ) : Switchboard σ α := { v with closed := fun b => v.closed b ∨ b = a }

end

namespace Kept

variable [DecidableEq σ]

/-- Hearing an introduction changes nothing about the sockets. -/
theorem hear (kept : v.Kept w) (a : σ) : (v.hear a).Kept w := by
  have takenIff : ∀ b q, (v.hear a).Taken b q ↔ v.Taken b q := by
    intro b q
    by_cases here : b = a
    · subst here
      rw [taken_iff_mem]
      simp [taken_iff_mem, Switchboard.hear]
    · simp [Taken, Switchboard.hear, here]
  refine ⟨kept.apart, kept.socket, kept.reached, kept.requested, ?_, ?_, ?_⟩
  · intro b q taken
    exact kept.answered b q ((takenIff b q).mp taken)
  · intro b
    by_cases here : b = a
    · subst here
      simpa [Switchboard.hear] using kept.once b
    · simpa [Switchboard.hear, here] using kept.once b
  · intro b opened live
    simp only [takenIff]
    exact kept.waiting b opened live

variable [DecidableEq α]

theorem listen (kept : v.Kept w) {a : σ} {fd : Nat} {addr : α} (fresh : ¬ v.opened a)
    (allOpen : ∀ b, ¬ v.closed b) (free : w.file (v.owner a) fd = none)
    (unbound : w.queue addr = none) : (v.listen a fd addr).Kept (w.listen (v.owner a) fd addr) := by
  have different : ∀ b, v.opened b → b ≠ a := by
    rintro b opened rfl
    exact fresh opened
  have elsewhere : ∀ b, v.opened b → v.addr b ≠ addr := by
    rintro b opened rfl
    obtain ⟨l, queue, _⟩ := kept.waiting b opened (allOpen b)
    simp [unbound] at queue
  have keptFile := fun p other there (known : w.file p other = some there) =>
    setFile_keeps (some (.listening addr)) free known
  refine ⟨?_, ?_, ?_, ?_, ?_, kept.once, ?_⟩
  · rintro b c (opened | rfl) (opened' | rfl) same
    · simp only [Switchboard.listen, Function.update_of_ne (different b opened),
        Function.update_of_ne (different c opened')] at same
      exact kept.apart b c opened opened' same
    · simp only [Switchboard.listen, Function.update_of_ne (different b opened),
        Function.update_self] at same
      exact absurd same (elsewhere b opened)
    · simp only [Switchboard.listen, Function.update_of_ne (different c opened'),
        Function.update_self] at same
      exact absurd same.symm (elsewhere c opened')
    · rfl
  · rintro b (opened | rfl) live
    · simp only [Switchboard.listen, World.listen, Function.update_of_ne (different b opened)]
      exact keptFile _ _ _ (kept.socket b opened live)
    · simp [Switchboard.listen, World.listen]
  · intro p b called
    exact .inl (kept.reached p b called)
  · intro p b called
    have opened := kept.reached p b called
    simp only [Switchboard.listen, World.listen, Function.update_of_ne (different b opened)]
    exact keptFile _ _ _ (kept.requested p b called)
  · intro b p taken
    obtain ⟨called, file⟩ := kept.answered b p taken
    exact ⟨called, keptFile _ _ _ file⟩
  · rintro b (opened | rfl) live
    · simp only [Switchboard.listen, World.listen, Function.update_of_ne (different b opened),
        Function.update_of_ne (elsewhere b opened)]
      exact kept.waiting b opened live
    · refine ⟨[], by simp [Switchboard.listen, World.listen], List.nodup_nil, ?_⟩
      intro c
      constructor
      · simp
      · rintro ⟨p, called, _⟩
        exact absurd (kept.reached p b called) fresh

theorem connect (kept : v.Kept w) {p fd : Nat} {a : σ} {front back : List Conn}
    (opened : v.opened a) (live : ¬ v.closed a) (fresh : ¬ v.called p a)
    (free : w.file p fd = none) (queue : w.queue (v.addr a) = some (front ++ back)) :
    (v.call p a fd).Kept (w.connect p fd (v.addr a) (front ++ (p, fd) :: back)) := by
  have different : ∀ q b, v.called q b → ¬ (q = p ∧ b = a) := by
    rintro q b called ⟨rfl, rfl⟩
    exact fresh called
  have lineSame : ∀ q b, v.called q b → (v.call p a fd).line q b = v.line q b :=
    fun q b called => if_neg (different q b called)
  have keptFile := fun q other there (known : w.file q other = some there) =>
    setFile_keeps (some (.requested (v.addr a))) free known
  have untaken : ¬ v.Taken a p := fun taken => fresh (kept.answered a p taken).1
  refine ⟨kept.apart, ?_, ?_, ?_, ?_, kept.once, ?_⟩
  · intro b opened live
    exact keptFile _ _ _ (kept.socket b opened live)
  · rintro q b (called | ⟨rfl, rfl⟩)
    · exact kept.reached q b called
    · exact opened
  · rintro q b (called | ⟨rfl, rfl⟩)
    · rw [lineSame q b called]
      exact keptFile _ _ _ (kept.requested q b called)
    · simp [Switchboard.call, World.connect]
  · intro b q taken
    obtain ⟨called, file⟩ := kept.answered b q taken
    refine ⟨.inl called, ?_⟩
    rw [lineSame q b called]
    exact keptFile _ _ _ file
  · intro b openedB liveB
    obtain ⟨l, queueB, nodup, members⟩ := kept.waiting b openedB liveB
    by_cases here : b = a
    · subst here
      have same : l = front ++ back := by simpa [queue] using queueB.symm
      subst same
      have new : (p, fd) ∉ front ++ back := by
        rw [members]
        rintro ⟨q, called, _, same⟩
        obtain ⟨rfl, -⟩ := Prod.mk.inj same
        exact fresh called
      refine ⟨front ++ (p, fd) :: back, by simp [World.connect, Switchboard.call],
        List.nodup_middle.mpr (List.nodup_cons.mpr ⟨new, nodup⟩), ?_⟩
      intro c
      constructor
      · intro member
        have either : c = (p, fd) ∨ c ∈ front ++ back := by
          simp only [List.mem_append, List.mem_cons] at member ⊢
          tauto
        rcases either with rfl | old
        · exact ⟨p, .inr ⟨rfl, rfl⟩, untaken, by simp [Switchboard.call]⟩
        · obtain ⟨q, called, notTaken, rfl⟩ := (members c).mp old
          exact ⟨q, .inl called, notTaken, by rw [lineSame q b called]⟩
      · rintro ⟨q, called | ⟨rfl, -⟩, notTaken, rfl⟩
        · have old := (members (q, v.line q b)).mpr ⟨q, called, notTaken, rfl⟩
          rw [lineSame q b called]
          simp only [List.mem_append, List.mem_cons] at old ⊢
          tauto
        · simp [Switchboard.call]
    · have elsewhere : v.addr b ≠ v.addr a := fun same => here (kept.apart b a openedB opened same)
      refine ⟨l, ?_, nodup, ?_⟩
      · simp only [Switchboard.call, World.connect, Function.update_of_ne elsewhere, queueB]
      · intro c
        rw [members c]
        constructor
        · rintro ⟨q, called, rest, rfl⟩
          exact ⟨q, .inl called, rest, by rw [lineSame q b called]⟩
        · rintro ⟨q, called | ⟨-, equal⟩, rest, rfl⟩
          · exact ⟨q, called, rest, by rw [lineSame q b called]⟩
          · exact absurd equal here

theorem accept (kept : v.Kept w) {fd : Nat} {a : σ} {c : Conn} {rest : List Conn}
    (opened : v.opened a) (live : ¬ v.closed a) (idle : v.held a = none)
    (free : w.file (v.owner a) fd = none) (queue : w.queue (v.addr a) = some (c :: rest)) :
    (v.take a c.1 fd).Kept (w.accept (v.owner a) fd (v.addr a) c rest) := by
  obtain ⟨l, queueA, nodup, members⟩ := kept.waiting a opened live
  have same : l = c :: rest := by simpa [queue] using queueA.symm
  subst same
  obtain ⟨p, calledP, untaken, rfl⟩ := (members c).mp List.mem_cons_self
  have keptFile := fun q other there (known : w.file q other = some there) =>
    setFile_keeps (some (.accepted (p, v.line p a))) free known
  have takenIff : ∀ b q, (v.take a p fd).Taken b q ↔ v.Taken b q ∨ (b = a ∧ q = p) := by
    intro b q
    by_cases here : b = a
    · subst here
      simp [Taken, Switchboard.take, idle, eq_comm]
    · simp [Taken, Switchboard.take, here]
  refine ⟨kept.apart, ?_, kept.reached, ?_, ?_, ?_, ?_⟩
  · intro b opened live
    exact keptFile _ _ _ (kept.socket b opened live)
  · intro q b called
    exact keptFile _ _ _ (kept.requested q b called)
  · intro b q taken
    rcases (takenIff b q).mp taken with old | ⟨rfl, rfl⟩
    · obtain ⟨called, file⟩ := kept.answered b q old
      have different : ¬ (b = a ∧ q = p) := by
        rintro ⟨rfl, rfl⟩
        exact untaken old
      refine ⟨called, ?_⟩
      simp only [Switchboard.take, if_neg different, World.accept]
      exact keptFile _ _ _ file
    · exact ⟨calledP, by simp [Switchboard.take, World.accept]⟩
  · intro b
    by_cases here : b = a
    · subst here
      have fresh : p ∉ v.heard b := fun member => untaken (.inl member)
      have old := kept.once b
      simp only [idle, Option.toList_none, List.append_nil] at old
      simp only [Switchboard.take, Function.update_self, Option.toList_some]
      exact List.nodup_append.mpr ⟨old, List.nodup_singleton p, by
        intro x member y single equal
        rw [List.mem_singleton] at single
        exact fresh (single ▸ equal ▸ member)⟩
    · simp only [Switchboard.take, Function.update_of_ne here]
      exact kept.once b
  · intro b openedB liveB
    by_cases here : b = a
    · subst here
      refine ⟨rest, by simp [World.accept, Switchboard.take], (List.nodup_cons.mp nodup).2, ?_⟩
      intro d
      constructor
      · intro member
        obtain ⟨q, called, notTaken, rfl⟩ := (members d).mp (List.mem_cons_of_mem _ member)
        refine ⟨q, called, ?_, rfl⟩
        rw [takenIff]
        rintro (old | ⟨-, rfl⟩)
        · exact notTaken old
        · exact (List.nodup_cons.mp nodup).1 member
      · rintro ⟨q, called, notTaken, rfl⟩
        rw [takenIff, not_or] at notTaken
        have member := (members (q, v.line q b)).mpr ⟨q, called, notTaken.1, rfl⟩
        rcases List.mem_cons.mp member with equal | member
        · exact absurd ⟨rfl, (Prod.mk.inj equal).1⟩ notTaken.2
        · exact member
    · obtain ⟨l, queueB, nodupB, membersB⟩ := kept.waiting b openedB liveB
      have elsewhere : v.addr b ≠ v.addr a := fun same => here (kept.apart b a openedB opened same)
      refine ⟨l, ?_, nodupB, ?_⟩
      · simp only [Switchboard.take, World.accept, Function.update_of_ne elsewhere, queueB]
      · intro d
        rw [membersB d]
        simp only [takenIff, here, false_and, or_false]
        rfl

omit [DecidableEq σ] in
theorem close (kept : v.Kept w) {a : σ} (opened : v.opened a) (live : ¬ v.closed a) :
    (v.close a).Kept (w.close (v.owner a) (v.lis a) (v.addr a)) := by
  have listening := kept.socket a opened live
  have keptFile : ∀ q other there, w.file q other = some there →
      there ≠ .listening (v.addr a) →
        setFile w.file (v.owner a) (v.lis a) none q other = some there := by
    intro q other there known different
    rw [setFile_other, known]
    rintro ⟨rfl, rfl⟩
    rw [listening] at known
    exact different (Option.some.inj known).symm
  have elsewhere : ∀ b, v.opened b → b ≠ a → v.addr b ≠ v.addr a :=
    fun b openedB here same => here (kept.apart b a openedB opened same)
  refine ⟨kept.apart, ?_, kept.reached, ?_, ?_, kept.once, ?_⟩
  · intro b openedB liveB
    obtain ⟨liveB, here⟩ := not_or.mp liveB
    apply keptFile _ _ _ (kept.socket b openedB liveB)
    intro same
    exact elsewhere b openedB here (File.listening.inj same)
  · intro q b called
    exact keptFile _ _ _ (kept.requested q b called) (by simp)
  · intro b q taken
    obtain ⟨called, file⟩ := kept.answered b q taken
    exact ⟨called, keptFile _ _ _ file (by simp)⟩
  · intro b openedB liveB
    obtain ⟨liveB, here⟩ := not_or.mp liveB
    obtain ⟨l, queue, rest⟩ := kept.waiting b openedB liveB
    refine ⟨l, ?_, rest⟩
    simp only [Switchboard.close, World.close, Function.update_of_ne (elsewhere b openedB here)]
    exact queue

end Kept

end Switchboard

end Tmpi.Sockets
