import Tmpi.Lib.Network
import Mathlib.Algebra.BigOperators.Group.Finset.Basic
import Mathlib.Algebra.Group.WithOne.Basic
import Mathlib.Algebra.Group.WithOne.Defs
import Mathlib.Data.Finset.Max
import Mathlib.Data.Finset.Sort

/-! Rooted spanning trees given by the two ends of their edges, and the two rounds
that run over them: a flood copies the root's tokens to every node, a gather moves
every node's value to its parent. -/

namespace Tmpi

open Network

variable {ι : Type} [DecidableEq ι]

/-- `up` is each node's view of its parent, `kids` each node's view of its children.
Ranks grow away from the root. -/
structure Spanning (nodes : Finset ι) (root : ι) where
  up : ι → Option ι
  kids : ι → List ι
  rank : ι → Nat
  root_mem : root ∈ nodes
  up_root : up root = none
  up_some : ∀ v ∈ nodes, v ≠ root → ∃ p ∈ nodes, up v = some p ∧ rank p < rank v
  mem_kids : ∀ p ∈ nodes, ∀ c, c ∈ kids p ↔ c ∈ nodes ∧ up c = some p
  kids_nodup : ∀ p ∈ nodes, (kids p).Nodup

namespace Spanning

variable {nodes : Finset ι} {root : ι} (tree : Spanning nodes root)

theorem up_mem {v p : ι} (inside : v ∈ nodes) (above : tree.up v = some p) :
    p ∈ nodes ∧ tree.rank p < tree.rank v := by
  by_cases atRoot : v = root
  · subst atRoot
    rw [tree.up_root] at above
    cases above
  · obtain ⟨q, member, above', less⟩ := tree.up_some v inside atRoot
    rw [above', Option.some.injEq] at above
    subst above
    exact ⟨member, less⟩

omit [DecidableEq ι] in
theorem mem_kids_up {p c : ι} (inside : p ∈ nodes) (child : c ∈ tree.kids p) :
    c ∈ nodes ∧ tree.up c = some p :=
  (tree.mem_kids p inside c).mp child

/-- A non-root node of least rank is a child of the root. -/
theorem kids_root_ne_nil (more : ∃ v ∈ nodes, v ≠ root) : tree.kids root ≠ [] := by
  obtain ⟨v, inV, other⟩ := more
  obtain ⟨least, member, minimal⟩ := (nodes.erase root).exists_min_image tree.rank
    ⟨v, Finset.mem_erase.mpr ⟨other, inV⟩⟩
  obtain ⟨apart, inside⟩ := Finset.mem_erase.mp member
  obtain ⟨p, inP, above, less⟩ := tree.up_some least inside apart
  have atRoot : p = root := by
    by_contra off
    have := minimal p (Finset.mem_erase.mpr ⟨off, inP⟩)
    omega
  subst atRoot
  exact List.ne_nil_of_mem ((tree.mem_kids p inP least).mpr ⟨inside, above⟩)

/-- A node of greatest rank has no children. -/
theorem exists_leaf (more : ∃ v ∈ nodes, v ≠ root) : ∃ v ∈ nodes, v ≠ root ∧ tree.kids v = [] := by
  obtain ⟨w, inW, other⟩ := more
  obtain ⟨v, inV, greatest⟩ := nodes.exists_max_image tree.rank ⟨w, inW⟩
  have leaf : tree.kids v = [] := by
    by_contra kids
    obtain ⟨c, child⟩ := List.exists_mem_of_ne_nil _ kids
    obtain ⟨inC, above⟩ := tree.mem_kids_up inV child
    have below := (tree.up_mem inC above).2
    have highest := greatest c inC
    omega
  refine ⟨v, inV, ?_, leaf⟩
  rintro rfl
  exact tree.kids_root_ne_nil ⟨w, inW, other⟩ leaf

/-! ## Folding over a tree -/

section Fold

variable {M : Type} [CommMonoid M] {input value : ι → M}

/-- What node `i` stands for once the nodes outside `s` have been folded into their parents. -/
def partialValue (s : Finset ι) (input value : ι → M) (i : ι) : M :=
  input i * ∏ c ∈ (nodes \ s).filter (fun c => tree.up c = some i), value c

theorem partialValue_insert {a i : ι} {s : Finset ι} (inside : a ∈ nodes) (fresh : a ∉ s) :
    tree.partialValue s input value i =
      tree.partialValue (insert a s) input value i *
        (if tree.up a = some i then value a else 1) := by
  have split : nodes \ s = insert a (nodes \ insert a s) := by
    ext x
    simp only [Finset.mem_sdiff, Finset.mem_insert]
    by_cases same : x = a
    · subst same; simp [inside, fresh]
    · simp [same]
  have outside : a ∉ nodes \ insert a s := by simp
  rw [partialValue, partialValue, split, Finset.filter_insert]
  split_ifs with child
  · rw [Finset.prod_insert (by simp), mul_assoc, mul_comm (value a)]
  · rw [mul_one]

/-- A deepest node of `s` has all its children outside. -/
theorem partialValue_deepest {a : ι} {s : Finset ι}
    (combined : ∀ i ∈ nodes, value i =
      input i * ∏ c ∈ nodes.filter (fun c => tree.up c = some i), value c)
    (inside : a ∈ nodes) (deepest : ∀ v ∈ s, tree.rank v ≤ tree.rank a) :
    tree.partialValue (insert a s) input value a = value a := by
  have same : (nodes \ insert a s).filter (fun c => tree.up c = some a) =
      nodes.filter (fun c => tree.up c = some a) := by
    ext c
    simp only [Finset.mem_filter, Finset.mem_sdiff, Finset.mem_insert]
    constructor
    · rintro ⟨⟨member, _⟩, above⟩
      exact ⟨member, above⟩
    · rintro ⟨member, above⟩
      refine ⟨⟨member, ?_⟩, above⟩
      have less := (tree.up_mem member above).2
      rintro (rfl | early)
      · omega
      · have := deepest c early
        omega
  rw [partialValue, same, ← combined a inside]

/-- No node but the root is as shallow as the root. -/
theorem deepest_root {s : Finset ι} (sub : ∀ v ∈ s, v ∈ nodes) (fresh : root ∉ s)
    (deepest : ∀ v ∈ s, tree.rank v ≤ tree.rank root)
    (closed : ∀ v ∈ s, ∀ p, tree.up v = some p → p ∈ insert root s) : s = ∅ := by
  rcases s.eq_empty_or_nonempty with isEmpty | nonempty
  · exact isEmpty
  · exfalso
    obtain ⟨least, member, minimal⟩ := s.exists_min_image tree.rank nonempty
    have other : least ≠ root := by
      rintro rfl
      exact fresh member
    obtain ⟨p, _, above, less⟩ := tree.up_some least (sub least member) other
    rcases Finset.mem_insert.mp (closed least member p above) with rfl | inside
    · have := deepest least member
      omega
    · have := minimal p inside
      omega

/-- A value that every node makes of its own input and its children's values is,
at the root, the product of all inputs. -/
theorem fold_root (input value : ι → M)
    (combined : ∀ i ∈ nodes, value i =
      input i * ∏ c ∈ nodes.filter (fun c => tree.up c = some i), value c) :
    value root = ∏ i ∈ nodes, input i := by
  -- remove the nodes one by one, deepest first; the product over those left is constant
  have stage : ∀ s : Finset ι, s ⊆ nodes → root ∈ s →
      (∀ v ∈ s, ∀ p, tree.up v = some p → p ∈ s) →
      value root = ∏ i ∈ s, tree.partialValue s input value i := by
    intro s
    induction s using Finset.induction_on_max_value tree.rank with
    | empty => simp
    | insert a s fresh deepest ih =>
        intro sub rootIn closed
        have inA : a ∈ nodes := sub (Finset.mem_insert_self a s)
        have inS : ∀ v ∈ s, v ∈ nodes := fun v member => sub (Finset.mem_insert_of_mem member)
        rw [Finset.prod_insert fresh, tree.partialValue_deepest combined inA deepest]
        by_cases atRoot : a = root
        · subst atRoot
          rw [tree.deepest_root inS fresh deepest (fun v member p above =>
            closed v (Finset.mem_insert_of_mem member) p above), Finset.prod_empty, mul_one]
        · obtain ⟨p, inP, above, less⟩ := tree.up_some a inA atRoot
          have inside : p ∈ s := by
            refine Finset.mem_of_mem_insert_of_ne (closed a (Finset.mem_insert_self a s) p above) ?_
            rintro rfl
            omega
          have rootStays : root ∈ s := Finset.mem_of_mem_insert_of_ne rootIn (Ne.symm atRoot)
          have stillClosed : ∀ v ∈ s, ∀ q, tree.up v = some q → q ∈ s := by
            intro v member q above'
            refine Finset.mem_of_mem_insert_of_ne
              (closed v (Finset.mem_insert_of_mem member) q above') ?_
            rintro rfl
            have := (tree.up_mem (inS v member) above').2
            have := deepest v member
            omega
          calc value root = ∏ i ∈ s, tree.partialValue s input value i :=
                ih inS rootStays stillClosed
            _ = ∏ i ∈ s, tree.partialValue (insert a s) input value i *
                  (if p = i then value a else 1) := by
                apply Finset.prod_congr rfl
                intro i _
                rw [tree.partialValue_insert inA fresh, above]
                simp only [Option.some.injEq]
            _ = value a * ∏ i ∈ s, tree.partialValue (insert a s) input value i := by
                rw [Finset.prod_mul_distrib, Finset.prod_ite_eq, if_pos inside, mul_comm]
  have whole := stage nodes (fun _ member => member) tree.root_mem
    (fun v member p above => (tree.up_mem member above).1)
  rw [whole]
  apply Finset.prod_congr rfl
  intro i _
  simp [partialValue]

/-- Folding a commutative and associative operation up the tree, children in any
order, gives the fold over any list of the nodes. -/
theorem foldl_root {α : Type} (f : α → α → α) (comm : ∀ a b, f a b = f b a)
    (assoc : ∀ a b c, f (f a b) c = f a (f b c)) (input value : ι → α)
    (combined : ∀ i ∈ nodes, value i = ((tree.kids i).map value).foldl f (input i))
    (first : ι) (rest : List ι) (nodup : (first :: rest).Nodup)
    (all : ∀ v, v ∈ first :: rest ↔ v ∈ nodes) :
    value root = (rest.map input).foldl f (input first) := by
  let _ : CommSemigroup α := { mul := f, mul_assoc := assoc, mul_comm := comm }
  have lift (a : α) (l : List α) :
      ((l.foldl f a : α) : WithOne α) = (a : WithOne α) * (l.map WithOne.coe).prod := by
    induction l generalizing a with
    | nil => simp
    | cons b l ih =>
        rw [List.foldl_cons, ih, List.map_cons, List.prod_cons, ← mul_assoc]
        rfl
  have whole := tree.fold_root (fun i => (input i : WithOne α))
    (fun i => (value i : WithOne α)) (by
      intro i inside
      have children : nodes.filter (fun c => tree.up c = some i) = (tree.kids i).toFinset := by
        ext c
        rw [Finset.mem_filter, List.mem_toFinset, tree.mem_kids i inside]
      rw [combined i inside, lift, children, List.prod_toFinset _ (tree.kids_nodup i inside),
        List.map_map]
      rfl)
  have nodesList : nodes = (first :: rest).toFinset := by
    ext v
    rw [List.mem_toFinset, all]
  rw [nodesList, List.prod_toFinset _ nodup, List.map_cons, List.prod_cons] at whole
  apply WithOne.coe_inj.mp
  rw [whole, lift, List.map_map]
  rfl

end Fold

/-! ## Values along a tree -/

section Values

variable {γ : Type}

/-- What a node makes of its children's values, followed `depth` levels down. -/
def valueTo (combine : ι → List γ → γ) : Nat → ι → γ
  | 0, i => combine i []
  | depth + 1, i => combine i ((tree.kids i).map (valueTo combine depth))

theorem valueTo_stable (combine : ι → List γ → γ) (top : Nat)
    (bounded : ∀ v ∈ nodes, tree.rank v ≤ top) (depth : Nat) (i : ι) (inside : i ∈ nodes)
    (enough : top ≤ tree.rank i + depth) :
    tree.valueTo combine (depth + 1) i = tree.valueTo combine depth i := by
  induction depth generalizing i with
  | zero =>
      have leaf : tree.kids i = [] := by
        apply List.eq_nil_iff_forall_not_mem.mpr
        intro c child
        obtain ⟨inC, above⟩ := tree.mem_kids_up inside child
        have := bounded c inC
        have := (tree.up_mem inC above).2
        omega
      simp [valueTo, leaf]
  | succ depth ih =>
      rw [valueTo, valueTo]
      congr 1
      apply List.map_congr_left
      intro c child
      obtain ⟨inC, above⟩ := tree.mem_kids_up inside child
      have := (tree.up_mem inC above).2
      exact ih c inC (by omega)

/-- Every way of combining children's values has a solution over the whole tree. -/
theorem exists_values (combine : ι → List γ → γ) :
    ∃ value : ι → γ, ∀ i ∈ nodes, value i = combine i ((tree.kids i).map value) := by
  refine ⟨tree.valueTo combine (nodes.sup tree.rank), fun i inside => ?_⟩
  have bounded : ∀ v ∈ nodes, tree.rank v ≤ nodes.sup tree.rank :=
    fun v member => Finset.le_sup member
  rw [← tree.valueTo_stable combine _ bounded _ i inside (by omega), valueTo]

end Values

/-! ## The two rounds -/

section Rounds

variable {β ω α : Type} (heard : β → ω)

def floodActions (tokens : List β) (i : ι) : List (Action ι β ω) :=
  (match tree.up i with
    | none => []
    | some p => received heard p tokens) ++
  (tree.kids i).flatMap fun c => sent c tokens

def gatherActions (value : ι → List β) (i : ι) : List (Action ι β ω) :=
  (tree.kids i).flatMap (fun c => received heard c (value c)) ++
  (match tree.up i with
    | none => []
    | some p => sent p (value i))

/-- Tokens that move from every node to its parent. -/
def upward (value : ι → List β) (c p : ι) : List β :=
  if c ∈ nodes ∧ tree.up c = some p then value c else []

theorem upward_inside {value : ι → List β} {c p : ι} (carries : tree.upward value c p ≠ []) :
    c ∈ nodes ∧ p ∈ nodes ∧ tree.rank p < tree.rank c := by
  rw [upward] at carries
  split_ifs at carries with edge
  · obtain ⟨inP, less⟩ := tree.up_mem edge.1 edge.2
    exact ⟨edge.1, inP, less⟩
  · exact absurd rfl carries

theorem mem_kids_upward {value : ι → List β} {c p : ι} (inside : p ∈ nodes) :
    (if c ∈ tree.kids p then value c else []) = tree.upward value c p := by
  simp only [upward, tree.mem_kids p inside]

theorem readsFrom_flood {tokens : List β} {i : ι} (inside : i ∈ nodes) (j : ι) :
    readsFrom j (tree.floodActions heard tokens i) = tree.upward (fun _ => tokens) i j := by
  rw [floodActions, readsFrom_append, readsFrom_flatMap_sent, List.append_nil, upward]
  cases above : tree.up i with
  | none => simp
  | some p => simp [inside]

theorem writesTo_flood {tokens : List β} {i : ι} (inside : i ∈ nodes) (j : ι) :
    writesTo j (tree.floodActions heard tokens i) = tree.upward (fun _ => tokens) j i := by
  rw [floodActions, writesTo_append, writesTo_flatMap_sent _ _ _ (tree.kids_nodup i inside),
    ← tree.mem_kids_upward inside]
  cases tree.up i with
  | none => simp
  | some p => simp

theorem readsFrom_gather {value : ι → List β} {i : ι} (inside : i ∈ nodes) (j : ι) :
    readsFrom j (tree.gatherActions heard value i) = tree.upward value j i := by
  rw [gatherActions, readsFrom_append,
    readsFrom_flatMap_received _ _ _ _ (tree.kids_nodup i inside), tree.mem_kids_upward inside]
  cases tree.up i with
  | none => simp
  | some p => simp

theorem writesTo_gather {value : ι → List β} {i : ι} (inside : i ∈ nodes) (j : ι) :
    writesTo j (tree.gatherActions heard value i) = tree.upward value i j := by
  rw [gatherActions, writesTo_append, writesTo_flatMap_received, List.nil_append, upward]
  cases above : tree.up i with
  | none => simp
  | some p => simp [inside]

variable {code code' : ι → Prog ι β ω α}

theorem flood_phase (tokens : List β)
    (performs : ∀ i ∈ nodes, Performs (code i) (tree.floodActions heard tokens i) (code' i)) :
    Phase nodes code code' (fun i => notes (tree.floodActions heard tokens i)) := by
  apply phase_of_flow (tree.floodActions heard tokens)
    (fun i j => tree.upward (fun _ => tokens) j i) (fun i => (tree.rank i : Int)) performs
  · exact fun i inside j => tree.readsFrom_flood heard inside j
  · exact fun i inside j => tree.writesTo_flood heard inside j
  · intro i j carries
    obtain ⟨inJ, inI, less⟩ := tree.upward_inside carries
    exact ⟨inI, inJ, by omega⟩

theorem gather_phase (value : ι → List β)
    (performs : ∀ i ∈ nodes, Performs (code i) (tree.gatherActions heard value i) (code' i)) :
    Phase nodes code code' (fun i => notes (tree.gatherActions heard value i)) := by
  apply phase_of_flow (tree.gatherActions heard value) (tree.upward value) (fun i => - (tree.rank i : Int)) performs
  · exact fun i inside j => tree.readsFrom_gather heard inside j
  · exact fun i inside j => tree.writesTo_gather heard inside j
  · intro i j carries
    obtain ⟨inI, inJ, less⟩ := tree.upward_inside carries
    exact ⟨inI, inJ, by omega⟩

omit [DecidableEq ι] in
theorem mem_notes_flood {tokens : List β} {i : ι} {event : ω}
    (noted : event ∈ notes (tree.floodActions heard tokens i)) :
    ∃ token ∈ tokens, event = heard token := by
  rw [floodActions, notes_append, notes_flatMap_sent, List.append_nil] at noted
  cases above : tree.up i with
  | none => simp [above] at noted
  | some p =>
      rw [above, notes_received, List.mem_map] at noted
      obtain ⟨token, member, same⟩ := noted
      exact ⟨token, member, same.symm⟩

omit [DecidableEq ι] in
theorem mem_notes_gather {value : ι → List β} {i : ι} {event : ω}
    (noted : event ∈ notes (tree.gatherActions heard value i)) :
    ∃ c, ∃ token ∈ value c, event = heard token := by
  rw [gatherActions, notes_append, List.mem_append] at noted
  rcases noted with read | wrote
  · obtain ⟨c, _, token, member, same⟩ := mem_notes_flatMap_received heard read
    exact ⟨c, token, member, same⟩
  · cases above : tree.up i with
    | none => simp [above] at wrote
    | some p => simp [above] at wrote

omit [DecidableEq ι] in
/-- In a group of one nothing moves. -/
theorem kids_alone (alone : ∀ v ∈ nodes, v = root) : tree.kids root = [] := by
  apply List.eq_nil_iff_forall_not_mem.mpr
  intro c child
  obtain ⟨inC, above⟩ := tree.mem_kids_up tree.root_mem child
  rw [alone c inC, tree.up_root] at above
  cases above

end Rounds

end Spanning

end Tmpi
