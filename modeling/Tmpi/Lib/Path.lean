import Tmpi.Lib.Chain
import Mathlib.Data.List.Nodup

/-! Singly linked lists in a memory that anything may be written to. -/

namespace Tmpi

/-- Following `next` from `a` leads through `l` to `b`. -/
def Path {α : Type} (next : α → Option α) : Option α → List α → Option α → Prop
  | a, [], b => a = b
  | a, x :: l, b => a = some x ∧ Path next (next x) l b

namespace Path

variable {α : Type} {next next' : α → Option α} {a b c : Option α} {l l' : List α}

/-- Only the links of the elements matter. -/
theorem congr (path : Path next a l b) (same : ∀ x ∈ l, next' x = next x) : Path next' a l b := by
  induction l generalizing a with
  | nil => exact path
  | cons x l ih =>
      obtain ⟨here, rest⟩ := path
      refine ⟨here, ih ?_ fun y member => same y (List.mem_cons_of_mem x member)⟩
      rw [same x List.mem_cons_self]
      exact rest

theorem append_iff : Path next a (l ++ l') c ↔ ∃ b, Path next a l b ∧ Path next b l' c := by
  induction l generalizing a with
  | nil => exact ⟨fun path => ⟨a, rfl, path⟩, fun ⟨_, same, path⟩ => same ▸ path⟩
  | cons x l ih =>
      constructor
      · rintro ⟨here, rest⟩
        obtain ⟨b, front, back⟩ := ih.mp rest
        exact ⟨b, ⟨here, front⟩, back⟩
      · rintro ⟨b, ⟨here, front⟩, back⟩
        exact ⟨here, ih.mpr ⟨b, front, back⟩⟩

/-- What is reached from the head of a whole list is reached along it. -/
theorem split (whole : Path next a l none) (path : Path next a l' c) :
    ∃ rest, l = l' ++ rest ∧ Path next c rest none := by
  induction l' generalizing a l with
  | nil =>
      have same : a = c := path
      exact ⟨l, rfl, same ▸ whole⟩
  | cons x l' ih =>
      obtain ⟨here, behind⟩ := path
      subst here
      cases l with
      | nil => exact absurd whole nofun
      | cons y l =>
          obtain ⟨same, rest⟩ := whole
          obtain rfl := Option.some.inj same
          obtain ⟨back, equal, tail⟩ := ih rest behind
          exact ⟨back, by rw [equal, List.cons_append], tail⟩

/-- The elements of a whole list are those that are reached from its head. -/
theorem mem_iff (whole : Path next a l none) {x : α} : x ∈ l ↔ ∃ front, Path next a front (some x) := by
  constructor
  · intro member
    obtain ⟨front, back, rfl⟩ := List.append_of_mem member
    obtain ⟨b, here, same, -⟩ := append_iff.mp whole
    exact ⟨front, same ▸ here⟩
  · rintro ⟨front, path⟩
    obtain ⟨rest, rfl, tail⟩ := whole.split path
    cases rest with
    | nil => exact absurd tail nofun
    | cons y rest =>
        obtain ⟨same, -⟩ := tail
        rw [Option.some.inj same]
        exact List.mem_append_right _ List.mem_cons_self

/-- There is one way to the end. -/
theorem unique (whole : Path next a l none) (path : Path next a l' none) : l = l' := by
  obtain ⟨rest, same, behind⟩ := whole.split path
  cases rest with
  | nil => rw [same, List.append_nil]
  | cons x rest => exact absurd behind.1 nofun

/-- A way that ends comes nowhere twice. -/
theorem nodup (whole : Path next a l none) : l.Nodup := by
  induction l generalizing a with
  | nil => exact List.nodup_nil
  | cons x l ih =>
      refine List.nodup_cons.mpr ⟨fun again => ?_, ih whole.2⟩
      obtain ⟨front, back, rfl⟩ := List.append_of_mem again
      obtain ⟨b, -, here, behind⟩ := append_iff.mp whole.2
      have shorter : Path next a (x :: back) none := ⟨whole.1, behind⟩
      have lengths := congrArg List.length (whole.unique shorter)
      simp only [List.length_cons, List.length_append] at lengths
      omega

/-- Behind an element there is another one, or the end. -/
theorem follows (whole : Path next a l none) {x : α} (member : x ∈ l) :
    next x = none ∨ ∃ y ∈ l, next x = some y := by
  obtain ⟨front, back, rfl⟩ := List.append_of_mem member
  obtain ⟨b, -, -, behind⟩ := append_iff.mp whole
  cases back with
  | nil => exact .inl behind
  | cons y back => exact .inr ⟨y, by simp, behind.1⟩

section

variable [DecidableEq α] {x : α}

/-- A link elsewhere is written. -/
theorem write (path : Path next a l b) (out : x ∉ l) : Path (Function.update next x c) a l b :=
  path.congr fun y member => Function.update_of_ne (fun same : y = x => out (same ▸ member)) c next

/-- An element is put in front. -/
theorem push (path : Path next a l b) (out : x ∉ l) : Path (Function.update next x a) (some x) (x :: l) b := by
  refine ⟨rfl, ?_⟩
  rw [Function.update_self]
  exact path.write out

/-- The last link is written. -/
theorem redirect (path : Path next a (l ++ [x]) b) (out : x ∉ l) : Path (Function.update next x c) a (l ++ [x]) c := by
  obtain ⟨d, front, here, -⟩ := append_iff.mp path
  have last : Function.update next x c x = c := Function.update_self x c next
  exact append_iff.mpr ⟨d, front.write out, here, last⟩

end

/-- The links need only be followed up to a renaming. -/
theorem map {β : Type} {next' : β → Option β} {f : α → β} (path : Path next a l b)
    (same : ∀ x ∈ l, next' (f x) = (next x).map f) :
    Path next' (a.map f) (l.map f) (b.map f) := by
  induction l generalizing a with
  | nil =>
      have equal : a = b := path
      rw [equal]
      exact rfl
  | cons x l ih =>
      obtain ⟨here, rest⟩ := path
      refine ⟨congrArg (Option.map f) here, ?_⟩
      rw [same x List.mem_cons_self]
      exact ih rest fun y member => same y (List.mem_cons_of_mem x member)

/-- Elements that follow one another by number. -/
theorem range' {f : Nat → α} {start m : Nat}
    (links : ∀ i, start ≤ i → i < start + m → next (f i) = some (f (i + 1)))
    (last : next (f (start + m)) = none) :
    Path next (some (f start)) ((List.range' start (m + 1)).map f) none := by
  induction m generalizing start with
  | zero => exact ⟨rfl, last⟩
  | succ m ih =>
      refine ⟨rfl, ?_⟩
      rw [links start (Nat.le_refl start) (by omega)]
      apply ih fun i low high => links i (by omega) (by omega)
      rw [show start + 1 + m = start + (m + 1) by omega]
      exact last

end Path

namespace Chain

variable {next : Nat → Option Nat} {fresh : Nat}

theorem nth_tail {a b : Nat} (link : next a = some b) (i : Nat) :
    nth next a (i + 1) = nth next b i := by
  induction i with
  | zero => exact link
  | succ i ih => rw [nth, ih, nth]

theorem nth_add {a b m : Nat} (here : nth next a m = some b) (i : Nat) :
    nth next a (m + i) = nth next b i := by
  induction i with
  | zero => exact here
  | succ i ih => rw [← Nat.add_assoc, nth, ih, nth]

/-- A chain ends. -/
theorem exists_path (rising : Rising next fresh) {a : Nat} (low : a < fresh) :
    ∃ l : List Nat, Path next (some a) l none ∧ ∀ i : Nat, l[i]? = nth next a i := by
  obtain ⟨room, room_eq⟩ : ∃ room, fresh - a = room := ⟨_, rfl⟩
  induction room using Nat.strong_induction_on generalizing a with
  | _ room ih =>
      cases link : next a with
      | none =>
          refine ⟨[a], ⟨rfl, link⟩, fun i => ?_⟩
          cases i with
          | zero => rfl
          | succ i =>
              rw [nth_none (i := 1) link (by omega)]
              rfl
      | some b =>
          have up := rising a b link
          obtain ⟨l, path, places⟩ := ih (fresh - b) (by omega) up.2 rfl
          refine ⟨a :: l, ⟨rfl, link ▸ path⟩, fun i => ?_⟩
          cases i with
          | zero => rfl
          | succ i => rw [List.getElem?_cons_succ, places, nth_tail link]

end Chain

end Tmpi
