import Tmpi.Lib.Stripping
import Tmpi.Netq.GroupFile
import Mathlib.Logic.Function.Basic

/-! `netd_initEnv` and `netq_initEnv`: the flags that are taken off the command line.

What does not depend on the arguments, the login and the working directory that are looked up, is left out. -/

namespace Tmpi.Netq

open Stripping

/-- `NETD_DBGOPT`, `"-tmpidbg"` -/
def netdDbgopt : Text := [45, 116, 109, 112, 105, 100, 98, 103]

/-- `NETD_SLAVE`, `"-netdslave"` -/
def netdSlave : Text := [45, 110, 101, 116, 100, 115, 108, 97, 118, 101]

/-- `NETD_WDIR`, `"-netdwd"` -/
def netdWdir : Text := [45, 110, 101, 116, 100, 119, 100]

/-- `NETD_NOSPAWN`, `"-netdnospawn"` -/
def netdNospawn : Text := [45, 110, 101, 116, 100, 110, 111, 115, 112, 97, 119, 110]

/-- `"-netqgrp"` -/
def netqGrp : Text := [45, 110, 101, 116, 113, 103, 114, 112]

/-- `"-netqres"` -/
def netqRes : Text := [45, 110, 101, 116, 113, 114, 101, 115]

/-- `MAX_FILENAME_LENGTH` -/
def maxFilenameLength : Nat := 1023

/-- The size of `fullpath`. -/
def fullpathSize : Nat := 1024

/-- `DBG_ALL` -/
def dbgAll : Int := 0

/-- `DBG_NONE` -/
def dbgNone : Int := 10000

/-- What the library answers: the number that `atoi` reads, and the path that `realpath` finds. -/
structure Host where
  atoi : Text → Int
  realpath : Text → Option Text

/-- `argv` and `argc`, and what `netd_info`, `netq_info` and the process take from them. -/
structure InitEnv where
  argv : Nat → Option Text
  argc : Int
  amimaster : Bool
  nospawn : Bool
  debugLevel : Int
  cwd : Option Text
  progargc : Int
  progargv : List (Option Text)
  fullpath : Text
  grpFileName : Text
  resFileName : Text

namespace InitEnv

variable (e : InitEnv)

/-- `(*argv)[i]`. There is nothing to read behind the `NULL` that ends it. -/
def pointer (i : Nat) : Option (Option Text) := if (i : Int) ≤ e.argc then some (e.argv i) else none

/-- The string there. Nothing is read through `NULL`. -/
def string (i : Nat) : Option Text := (e.pointer i).join

/-- The loop of `strip_out_args`, which it goes through so many times. -/
def shift (num : Nat) : Nat → Nat → (Nat → Option Text) → (Nat → Option Text) × Nat
  | 0, a, argv => (argv, a)
  | times + 1, a, argv => shift num times (a + 1) (Function.update argv a (argv (a + num)))

/-- `netd_strip_out_args` and `netq_strip_out_args`, which are the same. -/
def stripOutArgs (a : Nat) (c : Int) (num : Nat) : InitEnv :=
  let (argv, a) := shift num (e.argc - num + 1 - c).toNat a e.argv
  { e with argv := Function.update argv a none, argc := e.argc - num }

/-- `tmpi_set_dbg_level` -/
def setDbgLevel (level : Int) : InitEnv :=
  let level := if dbgNone < level then dbgNone else level
  { e with debugLevel := if level ≤ dbgAll then dbgAll + 1 else level }

/-- `for (i=*argc; i>0; i--)` -/
def backward (body : Nat → InitEnv → Option InitEnv) : Nat → InitEnv → Option InitEnv
  | 0, e => some e
  | i + 1, e => (body (i + 1) e).bind (backward body i)

/-- The body of the loop in `netd_initEnv`. -/
def netdOption (host : Host) (i : Nat) (e : InitEnv) : Option InitEnv :=
  (e.string (i - 1)).bind fun arg =>
    if arg = netdDbgopt then
      (e.string i).map fun value =>
        let digit := value.head?.any isdigit
        (e.setDbgLevel (if digit then host.atoi value else dbgAll)).stripOutArgs (i - 1) i 2
    else if arg = netdSlave then some ({ e with amimaster := false }.stripOutArgs (i - 1) i 1)
    else if arg = netdWdir then
      (e.pointer i).map fun dir =>
        match dir with
        | some dir => { e with cwd := some dir }.stripOutArgs (i - 1) i 2
        | none => e.stripOutArgs (i - 1) i 1
    else if arg = netdNospawn then some ({ e with nospawn := true }.stripOutArgs (i - 1) i 1)
    else some e

/-- What a master does in `netd_initEnv` behind the loop. -/
def netdMaster (host : Host) : Option InitEnv :=
  let e := { e with progargc := e.argc, progargv := (List.range e.argc.toNat).map e.argv }
  (e.string 0).bind fun name =>
    let path := (host.realpath name).getD name
    if path.length < fullpathSize then some { e with fullpath := path } else none

/-- `netd_initEnv`. What a slave does behind the loop is `slave`. -/
def netdInitEnv (host : Host) (slave : InitEnv → Option InitEnv) : Option InitEnv :=
  (backward (netdOption host) e.argc.toNat { e with amimaster := true }).bind fun e =>
    if e.amimaster then e.netdMaster host else slave e

/-- The body of the loop in `netq_initEnv`. -/
def netqOption (i : Nat) (e : InitEnv) : Option InitEnv :=
  (e.string (i - 1)).bind fun arg =>
    if arg = netqGrp then
      (e.string i).map fun value =>
        { e with grpFileName := value.take maxFilenameLength }.stripOutArgs (i - 1) i 2
    else if arg = netqRes then
      (e.string i).map fun value =>
        { e with resFileName := value.take maxFilenameLength }.stripOutArgs (i - 1) i 2
    else some e

/-- `netq_initEnv` -/
def netqInitEnv (host : Host) (slave : InitEnv → Option InitEnv) : Option InitEnv :=
  (e.netdInitEnv host slave).bind fun e => backward netqOption e.argc.toNat e

/-- `argv` is the list, and `argc` its length. -/
structure Holds (args : List Text) : Prop where
  argc : e.argc = args.length
  argv : ∀ i ≤ args.length, e.argv i = args[i]?

end InitEnv

/-- The flags of `netd_initEnv`. -/
def netdKind (arg : Text) : Kind :=
  if arg = netdDbgopt then .value
  else if arg = netdWdir then .option
  else if arg = netdSlave ∨ arg = netdNospawn then .alone
  else .plain

/-- The flags of `netq_initEnv`. -/
def netqKind (arg : Text) : Kind := if arg = netqGrp ∨ arg = netqRes then .value else .plain

/-- The runtime flags. -/
def flagKind : Text → Kind := both netdKind netqKind

/-- A program is there, and the buffer takes its path. -/
def Named (host : Host) (args : List Text) : Prop :=
  ∃ name rest, args = name :: rest ∧ ((host.realpath name).getD name).length < fullpathSize

/-- The last argument is not a flag that reads one behind it, and `netd_initEnv` leaves a program. -/
def Complete (host : Host) (args : List Text) : Prop := ¬ Lacking flagKind args ∧ Named host (kept netdKind args)

theorem kinds_distinct (arg : Text) : netdKind arg = .plain ∨ netqKind arg = .plain := by
  unfold netqKind
  split_ifs with flag
  · left
    rcases flag with rfl | rfl <;> decide
  · exact .inr rfl

namespace InitEnv

variable {e e' : InitEnv} {args front back : List Text} {arg : Text}

/-! ## Taking arguments out -/

theorem shift_spec (num times a : Nat) (argv : Nat → Option Text) :
    (shift num times a argv).2 = a + times ∧
      ∀ i, (shift num times a argv).1 i = if a ≤ i ∧ i < a + times then argv (i + num) else argv i := by
  induction times generalizing a argv with
  | zero =>
      refine ⟨rfl, fun i => ?_⟩
      rw [if_neg (by omega)]
      rfl
  | succ times ih =>
      obtain ⟨stop, moved⟩ := ih (a + 1) (Function.update argv a (argv (a + num)))
      refine ⟨stop.trans (by omega), fun i => (moved i).trans ?_⟩
      by_cases here : i = a
      · rw [if_neg (by omega), if_pos (by omega), here, Function.update_self]
      · rw [Function.update_of_ne here]
        by_cases inside : a + 1 ≤ i ∧ i < a + 1 + times
        · rw [if_pos inside, if_pos (by omega), Function.update_of_ne (by omega)]
        · rw [if_neg inside, if_neg (by omega)]

/-- What is behind the arguments that are taken out moves up. -/
theorem Holds.stripped {removed : List Text} (holds : e.Holds (front ++ (removed ++ back))) {c num : Nat}
    (c_eq : c = front.length + 1) (num_eq : num = removed.length) :
    (e.stripOutArgs front.length c num).Holds (front ++ back) := by
  have argc := holds.argc
  have argv := holds.argv
  simp only [List.length_append] at argc argv
  have times : (e.argc - num + 1 - c).toNat = back.length := by omega
  obtain ⟨stop, moved⟩ := shift_spec num back.length front.length e.argv
  unfold stripOutArgs
  rw [times]
  refine ⟨?_, fun i inside => ?_⟩
  · dsimp only
    rw [List.length_append]
    omega
  · dsimp only
    rw [List.length_append] at inside
    rw [stop]
    by_cases last : i = front.length + back.length
    · rw [last, Function.update_self, List.getElem?_eq_none (by rw [List.length_append])]
    · rw [Function.update_of_ne last, moved]
      by_cases low : i < front.length
      · rw [if_neg (by omega), argv i (by omega), List.getElem?_append_left low, List.getElem?_append_left low]
      · rw [if_pos (by omega), argv _ (by omega), List.getElem?_append_right (by omega),
          List.getElem?_append_right (by omega), List.getElem?_append_right (by omega)]
        congr 1
        omega

theorem Holds.pointer (holds : e.Holds args) {i : Nat} (inside : i ≤ args.length) : e.pointer i = some args[i]? := by
  have low : (i : Int) ≤ e.argc := by
    rw [holds.argc]
    exact_mod_cast inside
  rw [InitEnv.pointer, if_pos low, holds.argv i inside]

theorem Holds.string (holds : e.Holds args) {i : Nat} (inside : i ≤ args.length) : e.string i = args[i]? := by
  rw [InitEnv.string, holds.pointer inside, Option.join_some]

/-! ## The loops -/

/-- What a loop leaves behind the arguments in front. -/
def Leaves (P : InitEnv → Prop) (front : List Text) : Option (List Text) → Option InitEnv → Prop
  | none, result => result = none
  | some done, result => ∃ e, result = some e ∧ e.Holds (front ++ done) ∧ P e

theorem backward_leaves {body : Nat → InitEnv → Option InitEnv} {kind : Text → Kind} {P : InitEnv → Prop}
    {Allowed : Text → Prop}
    (step : ∀ {e front arg done}, Allowed arg → P e → e.Holds (front ++ arg :: done) →
      Leaves P front (take kind arg done) (body (front.length + 1) e))
    {done : List Text} (allowed : ∀ arg ∈ front, Allowed arg) (before : P e) (holds : e.Holds (front ++ done)) :
    Leaves P [] (strip kind front done) (backward body front.length e) := by
  induction front using List.reverseRecOn generalizing e done with
  | nil => exact ⟨e, rfl, holds, before⟩
  | append_singleton front arg ih =>
      rw [List.append_assoc] at holds
      have here : Leaves P front (take kind arg done) (body (front.length + 1) e) :=
        step (allowed arg (by simp)) before holds
      rw [strip_append, List.length_append]
      show Leaves P [] _ ((body (front.length + 1) e).bind (backward body front.length))
      cases taken : take kind arg done with
      | none =>
          rw [taken] at here
          have stuck : body (front.length + 1) e = none := here
          rw [stuck]
          exact rfl
      | some done' =>
          rw [taken] at here
          obtain ⟨e', next, holds', after⟩ := here
          rw [next, Option.bind_some, Option.bind_some]
          exact ih (fun other member => allowed other (List.mem_append_left _ member)) after holds'

theorem Holds.here {done : List Text} (holds : e.Holds (front ++ arg :: done)) :
    e.string (front.length + 1 - 1) = some arg ∧ e.pointer (front.length + 1) = some done.head? := by
  constructor
  · rw [Nat.add_sub_cancel, holds.string (by simp), List.getElem?_append_right le_rfl, Nat.sub_self]
    rfl
  · have second : front.length + 1 - front.length = 1 := Nat.add_sub_cancel_left _ 1
    rw [holds.pointer (by simp), List.getElem?_append_right (Nat.le_succ _), second]
    cases done <;> rfl

/-- A flag goes alone. -/
theorem Holds.one {done : List Text} (holds : e.Holds (front ++ arg :: done)) {c : Nat} (c_eq : c = front.length + 1) :
    (e.stripOutArgs front.length c 1).Holds (front ++ done) :=
  @Holds.stripped e front done [arg] holds c 1 c_eq rfl

/-- A flag goes with the argument behind it. -/
theorem Holds.two {value : Text} {done : List Text} (holds : e.Holds (front ++ arg :: value :: done)) {c : Nat}
    (c_eq : c = front.length + 1) : (e.stripOutArgs front.length c 2).Holds (front ++ done) :=
  @Holds.stripped e front done [arg, value] holds c 2 c_eq rfl

theorem netdOption_leaves (host : Host) {done : List Text} (master : arg ≠ netdSlave) (before : e.amimaster = true)
    (holds : e.Holds (front ++ arg :: done)) :
    Leaves (fun e => e.amimaster = true) front (take netdKind arg done)
      (netdOption host (front.length + 1) e) := by
  obtain ⟨here, next⟩ := holds.here
  have value : e.string (front.length + 1) = done.head? := by rw [InitEnv.string, next, Option.join_some]
  unfold netdOption
  rw [here, Option.bind_some, Nat.add_sub_cancel, if_neg master, value, next]
  by_cases dbg : arg = netdDbgopt
  · have kind : netdKind arg = .value := by rw [netdKind, if_pos dbg]
    rw [if_pos dbg]
    cases done with
    | nil =>
        rw [take_lacking kind]
        exact rfl
    | cons v done =>
        rw [take_pair (.inl kind)]
        have set : (e.setDbgLevel (if v.head?.any isdigit then host.atoi v else dbgAll)).Holds
            (front ++ arg :: v :: done) := ⟨holds.argc, holds.argv⟩
        exact ⟨_, rfl, set.two rfl, before⟩
  · rw [if_neg dbg]
    by_cases wdir : arg = netdWdir
    · have kind : netdKind arg = .option := by rw [netdKind, if_neg dbg, if_pos wdir]
      rw [if_pos wdir]
      cases done with
      | nil =>
          rw [take_last kind]
          exact ⟨_, rfl, holds.one rfl, before⟩
      | cons v done =>
          rw [take_pair (.inr kind)]
          have set : { e with cwd := some v }.Holds (front ++ arg :: v :: done) := ⟨holds.argc, holds.argv⟩
          exact ⟨_, rfl, set.two rfl, before⟩
    · rw [if_neg wdir]
      by_cases nospawn : arg = netdNospawn
      · have kind : netdKind arg = .alone := by rw [netdKind, if_neg dbg, if_neg wdir, if_pos (.inr nospawn)]
        rw [if_pos nospawn, take_alone kind]
        have set : { e with nospawn := true }.Holds (front ++ arg :: done) := ⟨holds.argc, holds.argv⟩
        exact ⟨_, rfl, set.one rfl, before⟩
      · have kind : netdKind arg = .plain := by
          rw [netdKind, if_neg dbg, if_neg wdir, if_neg (not_or.mpr ⟨master, nospawn⟩)]
        rw [if_neg nospawn, take_plain kind]
        exact ⟨e, rfl, holds, before⟩

theorem netqOption_leaves {done : List Text} (holds : e.Holds (front ++ arg :: done)) :
    Leaves (fun _ => True) front (take netqKind arg done) (netqOption (front.length + 1) e) := by
  obtain ⟨here, next⟩ := holds.here
  have value : e.string (front.length + 1) = done.head? := by rw [InitEnv.string, next, Option.join_some]
  unfold netqOption
  rw [here, Option.bind_some, Nat.add_sub_cancel, value]
  by_cases grp : arg = netqGrp
  · have kind : netqKind arg = .value := if_pos (.inl grp)
    rw [if_pos grp]
    cases done with
    | nil =>
        rw [take_lacking kind]
        exact rfl
    | cons v done =>
        rw [take_pair (.inl kind)]
        have set : { e with grpFileName := v.take maxFilenameLength }.Holds (front ++ arg :: v :: done) :=
          ⟨holds.argc, holds.argv⟩
        exact ⟨_, rfl, set.two rfl, trivial⟩
  · rw [if_neg grp]
    by_cases res : arg = netqRes
    · have kind : netqKind arg = .value := if_pos (.inr res)
      rw [if_pos res]
      cases done with
      | nil =>
          rw [take_lacking kind]
          exact rfl
      | cons v done =>
          rw [take_pair (.inl kind)]
          have set : { e with resFileName := v.take maxFilenameLength }.Holds (front ++ arg :: v :: done) :=
            ⟨holds.argc, holds.argv⟩
          exact ⟨_, rfl, set.two rfl, trivial⟩
    · have kind : netqKind arg = .plain := if_neg (not_or.mpr ⟨grp, res⟩)
      rw [if_neg res, take_plain kind]
      exact ⟨e, rfl, holds, trivial⟩

/-! ## A master -/

theorem netdInitEnv_scan (host : Host) (holds : e.Holds args) (master : ∀ arg ∈ args, arg ≠ netdSlave) :
    Leaves (fun e => e.amimaster = true) [] (strip netdKind args [])
      (backward (netdOption host) e.argc.toNat { e with amimaster := true }) := by
  have length : e.argc.toNat = args.length := by rw [holds.argc, Int.toNat_natCast]
  have begun : { e with amimaster := true }.Holds (args ++ []) := by
    rw [List.append_nil]
    exact ⟨holds.argc, holds.argv⟩
  rw [length]
  exact backward_leaves (fun allowed before holds => netdOption_leaves host allowed before holds) master rfl begun

theorem netq_scan (holds : e.Holds args) :
    Leaves (fun _ => True) [] (strip netqKind args []) (backward netqOption e.argc.toNat e) := by
  have length : e.argc.toNat = args.length := by rw [holds.argc, Int.toNat_natCast]
  rw [length]
  exact @backward_leaves e args netqOption netqKind (fun _ => True) (fun _ => True)
    (fun _ _ holds => netqOption_leaves holds) [] (fun _ _ => trivial) trivial (by rwa [List.append_nil])

theorem netdMaster_some {host : Host} (holds : e.Holds args) (named : Named host args) :
    ∃ e', e.netdMaster host = some e' ∧ e'.Holds args := by
  obtain ⟨name, rest, rfl, fits⟩ := named
  have first : e.string 0 = some name := holds.string (Nat.zero_le _)
  refine ⟨{ e with
    progargc := e.argc
    progargv := (List.range e.argc.toNat).map e.argv
    fullpath := (host.realpath name).getD name }, ?_, ⟨holds.argc, holds.argv⟩⟩
  show (e.string 0).bind _ = _
  rw [first, Option.bind_some]
  dsimp only
  rw [if_pos fits]

theorem named_of_netdMaster {host : Host} (holds : e.Holds args) (done : e.netdMaster host = some e') :
    Named host args := by
  have done : (e.string 0).bind _ = some e' := done
  obtain ⟨name, first, done⟩ := Option.bind_eq_some_iff.mp done
  dsimp only at done
  rw [holds.string (Nat.zero_le _)] at first
  split_ifs at done with fits
  cases args with
  | nil => exact absurd first nofun
  | cons name' rest =>
      have same : name' = name := Option.some.inj first
      exact ⟨name', rest, rfl, same ▸ fits⟩

end InitEnv

open InitEnv in
/-- On a master the runtime flags and their values are taken out exactly when none lacks its value and a program whose
path fits is left. -/
theorem netqInitEnv_strips_iff {host : Host} {slave : InitEnv → Option InitEnv} {e : InitEnv} {args : List Text}
    (holds : e.Holds args) (master : ∀ arg ∈ args, arg ≠ netdSlave) (separate : Separate flagKind args) :
    (∃ e', e.netqInitEnv host slave = some e' ∧ e'.Holds (kept flagKind args)) ↔ Complete host args := by
  have scanned := netdInitEnv_scan host holds master
  have lacking : Lacking flagKind args ↔ Lacking netdKind args ∨ Lacking netqKind args := lacking_both kinds_distinct
  constructor
  · rintro ⟨e', done, -⟩
    obtain ⟨e₂, done₂, done⟩ := Option.bind_eq_some_iff.mp done
    obtain ⟨e₁, done₁, done₂⟩ := Option.bind_eq_some_iff.mp done₂
    rw [done₁] at scanned
    have whole : ¬ Lacking netdKind args := by
      intro short
      rw [strip_lacking short] at scanned
      exact absurd scanned nofun
    rw [strip_kept separate.ofBoth whole] at scanned
    obtain ⟨e₁', same, holds₁, amimaster⟩ := scanned
    obtain rfl := Option.some.inj same
    rw [if_pos amimaster] at done₂
    have named := named_of_netdMaster holds₁ done₂
    obtain ⟨e₂', same, holds₂⟩ := netdMaster_some holds₁ named
    obtain rfl := Option.some.inj (done₂.symm.trans same)
    have scanned := netq_scan holds₂
    rw [done] at scanned
    refine ⟨fun short => ?_, named⟩
    have shortLater : Lacking netqKind (kept netdKind args) :=
      (lacking_kept kinds_distinct separate).mpr ((lacking.mp short).resolve_left whole)
    rw [List.nil_append, strip_lacking shortLater] at scanned
    exact absurd scanned nofun
  · rintro ⟨whole, named⟩
    have wholeFirst : ¬ Lacking netdKind args := fun short => whole (lacking.mpr (.inl short))
    have wholeLater : ¬ Lacking netqKind (kept netdKind args) := fun short =>
      whole (lacking.mpr (.inr ((lacking_kept kinds_distinct separate).mp short)))
    rw [strip_kept separate.ofBoth wholeFirst] at scanned
    obtain ⟨e₁, done₁, holds₁, amimaster⟩ := scanned
    obtain ⟨e₂, done₂, holds₂⟩ := netdMaster_some holds₁ named
    have scanned := netq_scan holds₂
    rw [List.nil_append, strip_kept separate.keptBoth wholeLater, kept_kept separate] at scanned
    obtain ⟨e', done, holds', -⟩ := scanned
    refine ⟨e', ?_, holds'⟩
    rw [netqInitEnv, netdInitEnv, done₁, Option.bind_some, if_pos amimaster, done₂, Option.bind_some, done]

/-- `ls -tmpidbg 7 -l -netqgrp g -netdwd` -/
def listing : List Text := [[108, 115], netdDbgopt, [55], [45, 108], netqGrp, [103], netdWdir]

/-- An environment that holds the arguments. -/
def InitEnv.of (args : List Text) : InitEnv where
  argv i := args[i]?
  argc := args.length
  amimaster := false
  nospawn := false
  debugLevel := 0
  cwd := none
  progargc := 0
  progargv := []
  fullpath := []
  grpFileName := []
  resFileName := []

theorem InitEnv.of_holds (args : List Text) : (InitEnv.of args).Holds args := ⟨rfl, fun _ _ => rfl⟩

theorem netqInitEnv_strips_listing :
    ∃ e', (InitEnv.of listing).netqInitEnv ⟨fun _ => 7, fun name => some (47 :: name)⟩ some = some e' ∧
      e'.Holds [[108, 115], [45, 108]] := by
  apply (netqInitEnv_strips_iff (InitEnv.of_holds listing) (by decide) (by decide)).mpr
  refine ⟨?_, [108, 115], [[45, 108], netqGrp, [103]], rfl, by decide⟩
  rintro ⟨f, last, value⟩
  cases last
  exact absurd value (by decide)

/-- `ls -l -netqgrp` -/
def lackingGroup : List Text := [[108, 115], [45, 108], netqGrp]

theorem netqInitEnv_lacking :
    ((∀ arg ∈ lackingGroup, arg ≠ netdSlave) ∧ Separate flagKind lackingGroup) ∧
      ¬ ∃ e', (InitEnv.of lackingGroup).netqInitEnv ⟨fun _ => 0, fun name => some (47 :: name)⟩ some = some e' ∧
        e'.Holds (kept flagKind lackingGroup) := by
  refine ⟨by decide, ?_⟩
  have undefined : (InitEnv.of lackingGroup).netqInitEnv ⟨fun _ => 0, fun name => some (47 :: name)⟩ some = none := rfl
  rintro ⟨e', done, -⟩
  exact absurd (undefined.symm.trans done) nofun

end Tmpi.Netq
