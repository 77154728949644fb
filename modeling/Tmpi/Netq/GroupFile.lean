import Tmpi.Netq.Tables

/-! `netq.c`: reading a group file.

Text is bytes in the C locale. A run that C leaves undefined (an index outside its array,
an `int` that does not fit) is told apart from a file that is refused. -/

namespace Tmpi.Netq

inductive Failure where
  /-- The parser returns `NULL`. -/
  | refused
  | undefined
  deriving DecidableEq, Repr

abbrev Parse := Except Failure

abbrev Text := List UInt8

/-- `NETQ_MAX_NODES` and `NETQ_MAX_NODES_PER_HOST`. -/
def maxNodes : Nat := 256

/-- `NETQ_MAX_HOST_NAME`. -/
def maxHostName : Nat := 255

def newline : UInt8 := 10
def commentLead : UInt8 := 35
def dash : UInt8 := 45

def isspace (c : UInt8) : Bool := c = 32 ∨ (9 ≤ c ∧ c ≤ 13)

def isdigit (c : UInt8) : Bool := 48 ≤ c ∧ c ≤ 57

/-- The delimiters that `strtok` is given. -/
def isBlank (c : UInt8) : Bool := c = 9 ∨ c = 32

/-! ## Lines -/

/-- What `fgets` reads into a buffer of `size + 1` bytes, and what it leaves. -/
def fgets : Nat → Text → Text × Text
  | 0, input => ([], input)
  | _, [] => ([], [])
  | size + 1, c :: input =>
      if c = newline then ([c], input)
      else (c :: (fgets size input).1, (fgets size input).2)

/-- A C string ends at the first zero byte. -/
def cstr (bytes : Text) : Text := bytes.takeWhile (· ≠ 0)

/-- `read_one_line` of what `fgets` has read. -/
def chop (line : Text) : Text :=
  if (cstr line).getLast? = some newline then (cstr line).dropLast else cstr line

def stripOffComment (line : Text) : Text := line.takeWhile (· ≠ commentLead)

def isBlankLine (line : Text) : Bool := line.all isspace

/-! ## Tokens -/

def consHead (c : UInt8) : List Text → List Text
  | [] => [[c]]
  | word :: words => (c :: word) :: words

/-- What `strtok` returns, call after call. -/
def tokens : Text → List Text
  | [] => []
  | c :: rest =>
      if isBlank c then tokens rest
      else
        match rest with
        | [] => [[c]]
        | next :: _ => if isBlank next then [c] :: tokens rest else consHead c (tokens rest)

def isInteger (token : Text) : Bool := !token.isEmpty && token.all isdigit

/-- The loop of `is_range` with `nDigit` and `nDash`. -/
def isRangeFrom (nDigit nDash : Nat) : Text → Bool
  | [] => nDash = 1 && nDigit ≠ 0
  | c :: rest =>
      if !isdigit c && c ≠ dash then false
      else if c = dash then
        if nDigit = 0 then false else isRangeFrom 0 (nDash + 1) rest
      else isRangeFrom (nDigit + 1) nDash rest

def isRange (token : Text) : Bool := !token.isEmpty && isRangeFrom 0 0 token

/-- The number that the leading digits of a text spell. -/
def numeral (text : Text) : Nat :=
  (text.takeWhile isdigit).foldl (fun n c => 10 * n + (c.toNat - 48)) 0

/-- `atoi`, and each `%d` of `sscanf`. -/
def atoi (text : Text) : Parse Nat :=
  if numeral text < 2^31 then .ok (numeral text) else .error .undefined

/-! ## One line -/

/-- `mac->nodeIDs[i++]=id` for each of the ids. -/
def store (listed ids : List Nat) : Parse (List Nat) :=
  if (listed ++ ids).length ≤ maxNodes then .ok (listed ++ ids) else .error .undefined

/-- One turn of the loop over the tokens behind the node count; `listed` is what is in
`nodeIDs` and `i` its length. -/
def parseItem (nNodes : Nat) (listed : List Nat) (token : Text) : Parse (List Nat) :=
  if token.contains dash then
    if !isRange token then .error .refused
    else do
      let a ← atoi token
      let b ← atoi ((token.dropWhile (· ≠ dash)).drop 1)
      let low := min a b
      let high := max a b
      if 2^31 ≤ high - low + listed.length then .error .undefined
      else if high - low + listed.length ≥ nNodes then .error .refused
      -- `j<=to` does not end the loop when `to` is `INT_MAX`
      else if 2^31 ≤ high + 1 then .error .undefined
      else store listed (List.range' low (high - low + 1))
  else if !isInteger token then .error .refused
  else if listed.length ≥ nNodes then .error .refused
  else do
    let id ← atoi token
    store listed [id]

/-- `parse_one_line`: the entry's ids are -1 where the line lists none. -/
def parseOneLine (line : Text) : Parse MacEntry :=
  match tokens line with
  | [] | [_] => .error .refused
  | hostname :: sNodes :: items =>
      if !isInteger sNodes then .error .refused
      else do
        let nNodes ← atoi sNodes
        let listed ← items.foldlM (parseItem nNodes) []
        return ⟨hostname.take maxHostName,
          listed.map Int.ofNat ++ List.replicate (nNodes - listed.length) (-1)⟩

/-! ## The file -/

/-- `total`. -/
def totalNodes (macs : List MacEntry) : Nat := (macs.map MacEntry.nNodes).sum

/-- `macs[idx]=parse_one_line(line)`, and the counts. -/
def addLine (macs : List MacEntry) (line : Text) : Parse (List MacEntry) :=
  if maxNodes ≤ macs.length then .error .undefined
  else do
    let mac ← parseOneLine line
    if 2^31 ≤ totalNodes (macs ++ [mac]) then .error .undefined else return macs ++ [mac]

/-- The reading loop; `count` bounds the number of lines. -/
def readLines : Nat → Text → List MacEntry → Parse (List MacEntry)
  | 0, _, macs => .ok macs
  | count + 1, input, macs =>
      if input.isEmpty then .ok macs
      else
        let line := stripOffComment (chop (fgets 1023 input).1)
        if isBlankLine line then readLines count (fgets 1023 input).2 macs
        else do
          let macs ← addLine macs line
          readLines count (fgets 1023 input).2 macs

/-- The inner loop of the first pass over a machine's ids, which stops at the first -1;
`j` indexes `nodeIDs`. -/
def markUsed (total j : Nat) (used : List Bool) : List Int → Parse (List Bool)
  | [] => .ok used
  | id :: ids =>
      if maxNodes ≤ j then .error .undefined
      else if id ≥ total then .error .refused
      else if id = -1 then .ok used
      else if used.getD id.toNat false then .error .refused
      else markUsed total (j + 1) (used.set id.toNat true) ids

/-- `while (used[k]) k++`. -/
def scan (k : Nat) : List Bool → Parse Nat
  | [] => .error .undefined
  | false :: _ => .ok k
  | true :: rest => scan (k + 1) rest

/-- `used` and `k` of the second pass. -/
structure Filling where
  used : List Bool
  k : Nat

/-- One turn of the second pass, with the ids of the machine so far. -/
def fillNode (state : Filling × List Int) (id : Int) : Parse (Filling × List Int) :=
  if maxNodes ≤ state.2.length then .error .undefined
  else if id = -1 then do
    let k ← scan state.1.k (state.1.used.drop state.1.k)
    return (⟨state.1.used.set k true, k⟩, state.2 ++ [(k : Int)])
  else return (state.1, state.2 ++ [id])

def fillMac (state : Filling × List MacEntry) (mac : MacEntry) :
    Parse (Filling × List MacEntry) := do
  let (filling, nodeIDs) ← mac.nodeIDs.foldlM fillNode (state.1, [])
  return (filling, state.2 ++ [{ mac with nodeIDs }])

/-- `netq_parseGrpFile` on the contents of a file that can be opened. -/
def netqParseGrpFile (input : Text) : Parse (List MacEntry) := do
  let macs ← readLines (input.length + 1) input []
  let total := totalNodes macs
  let used ← macs.foldlM (fun used mac => markUsed total 0 used mac.nodeIDs)
    (List.replicate total false)
  let (_, filled) ← macs.foldlM fillMac (⟨used, 0⟩, [])
  return filled

end Tmpi.Netq
