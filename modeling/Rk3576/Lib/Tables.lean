import Mathlib.Data.List.Basic
import Mathlib.Data.List.Nodup
import Mathlib.Logic.Function.Basic

/-! Multi-level index tables in a flat memory. There is one root table and an arena of further
tables, handed out in order and never taken back. The ghost state is the list of the nodes the
tables stand for, so that the k-th table of the arena is the table of the k-th node. -/
namespace Rk3576.Tables
variable {K V : Type*}

/-- A table of the tree: its level, and the indices that lead to it read as one number. -/
structure Node where
  level : Nat
  num : Nat
  deriving DecidableEq, Repr

def Node.root : Node := ⟨0, 0⟩

/-- Where the entries are: `cell none i` in the root table, `cell (some k) i` in the k-th table
of the arena. -/
structure Arena (K : Type*) where
  fan : Nat
  capacity : Nat
  cell : Option Nat → Nat → K
  cell_inj : ∀ {t u : Option Nat} {i j : Nat}, (∀ k ∈ t, k < capacity) → (∀ k ∈ u, k < capacity) →
    i < fan → j < fan → cell t i = cell u j → t = u ∧ i = j

def Node.child (fan : Nat) (x : Node) (i : Nat) : Node := ⟨x.level + 1, x.num * fan + i⟩

theorem Node.child_inj {fan : Nat} {x y : Node} {i j : Nat} (hi : i < fan) (hj : j < fan)
    (h : x.child fan i = y.child fan j) : x = y ∧ i = j := by
  cases x with
  | mk l n =>
    cases y with
    | mk l' n' =>
      simp only [Node.child, Node.mk.injEq, Nat.add_right_cancel_iff] at h
      have hmod : i = j := by
        have := congrArg (· % fan) h.2
        simpa [Nat.mul_add_mod_self_right, Nat.mod_eq_of_lt hi, Nat.mod_eq_of_lt hj] using this
      have hdiv : n * fan = n' * fan := by omega
      exact ⟨by rw [h.1, Nat.eq_of_mul_eq_mul_right (by omega) hdiv], hmod⟩

theorem Node.child_ne_root (fan : Nat) (x : Node) (i : Nat) : x.child fan i ≠ Node.root := by
  simp [Node.child, Node.root]

def At (nodes : List Node) : Option Nat → Node → Prop
  | none, x => x = Node.root
  | some k, x => nodes[k]? = some x

section
variable (A : Arena K) (depth : Nat) (link : Nat → V) (zero : V)

/-- `m` holds the tables of `nodes` with the last-level entries `leaf`. An inner entry is
`zero` or the link to the table of the child. -/
structure Rep (m : K → V) (nodes : List Node) (leaf : Nat → V) : Prop where
  nodup : nodes.Nodup
  room : nodes.length ≤ A.capacity
  proper : Node.root ∉ nodes
  linked : ∀ {t x i k}, At nodes t x → x.level < depth → i < A.fan →
    nodes[k]? = some (x.child A.fan i) → m (A.cell t i) = link k
  free : ∀ {t x i}, At nodes t x → x.level < depth → i < A.fan →
    x.child A.fan i ∉ nodes → m (A.cell t i) = zero
  last : ∀ {t x i}, At nodes t x → x.level = depth → i < A.fan →
    m (A.cell t i) = leaf (x.num * A.fan + i)
  closed : ∀ {x i}, x.child A.fan i ∈ nodes → i < A.fan → x = Node.root ∨ x ∈ nodes
  bare : ∀ {n i}, i < A.fan → (⟨depth, n⟩ : Node) ∉ nodes → leaf (n * A.fan + i) = zero

end

section
variable {A : Arena K} {depth : Nat} {link : Nat → V} {zero : V} {m m' : K → V}
  {nodes : List Node} {leaf : Nat → V}

theorem At.lt {t : Option Nat} {x : Node} (h : At nodes t x) (hroom : nodes.length ≤ A.capacity) :
    ∀ k ∈ t, k < A.capacity := by
  intro k hk
  obtain rfl := hk
  have : k < nodes.length := (List.getElem?_eq_some_iff.mp h).1
  omega

theorem At.mono {t : Option Nat} {x y : Node} (h : At nodes t x) : At (nodes ++ [y]) t x := by
  cases t with
  | none => exact h
  | some k =>
    have hk : k < nodes.length := (List.getElem?_eq_some_iff.mp h).1
    exact (List.getElem?_append_left hk).trans h

theorem At.cases_snoc {t : Option Nat} {x y : Node} (h : At (nodes ++ [y]) t x) :
    At nodes t x ∨ t = some nodes.length ∧ x = y := by
  cases t with
  | none => exact .inl h
  | some k =>
    obtain ⟨hk, hx⟩ := List.getElem?_eq_some_iff.mp h
    by_cases hlt : k < nodes.length
    · exact .inl ((List.getElem?_append_left hlt).symm.trans h)
    · have hk' : k = nodes.length := by simp at hk; omega
      subst hk'
      exact .inr ⟨rfl, by simpa using hx.symm⟩

theorem At.table_unique {t u : Option Nat} {x : Node} (hn : nodes.Nodup) (hr : Node.root ∉ nodes)
    (ht : At nodes t x) (hu : At nodes u x) : t = u := by
  have not_root (k : Nat) (h : nodes[k]? = some Node.root) : False :=
    hr (List.mem_of_getElem? h)
  cases t with
  | none =>
    cases u with
    | none => rfl
    | some k => exact (not_root k (ht ▸ hu)).elim
  | some j =>
    cases u with
    | none => exact (not_root j (hu ▸ ht)).elim
    | some k =>
      obtain ⟨hj, hx⟩ := List.getElem?_eq_some_iff.mp ht
      obtain ⟨hk, hy⟩ := List.getElem?_eq_some_iff.mp hu
      rw [(List.Nodup.getElem_inj_iff hn).mp (hx.trans hy.symm)]

theorem At.node_unique {t : Option Nat} {x y : Node} (hx : At nodes t x)
    (hy : At nodes t y) : x = y := by
  cases t with
  | none => exact hx.trans hy.symm
  | some k => exact Option.some.inj (hx.symm.trans hy)

theorem At.ne_fresh {t : Option Nat} {x : Node} (h : At nodes t x) : t ≠ some nodes.length := by
  rintro rfl
  have := (List.getElem?_eq_some_iff.mp h).1
  omega

theorem Rep.child_fresh {y : Node} {j : Nat} (h : Rep A depth link zero m nodes leaf)
    (hnew : y ∉ nodes) (hne : y ≠ Node.root) (hj : j < A.fan) : y.child A.fan j ∉ nodes ++ [y] := by
  intro hm
  cases List.mem_append.mp hm with
  | inl hm => exact (h.closed hm hj).elim hne hnew
  | inr hm =>
    have := congrArg Node.level (List.mem_singleton.mp hm)
    simp [Node.child] at this

/-- The next table of the arena, cleared, becomes the table of a child that had none. -/
theorem Rep.grow {t : Option Nat} {x : Node} {i : Nat} (h : Rep A depth link zero m nodes leaf)
    (hat : At nodes t x) (hx : x.level < depth) (hi : i < A.fan) (hnew : x.child A.fan i ∉ nodes)
    (hroom : nodes.length < A.capacity) (hlink : m' (A.cell t i) = link nodes.length)
    (hclear : ∀ j < A.fan, m' (A.cell (some nodes.length) j) = zero)
    (hrest : ∀ u j, (∀ k ∈ u, k < A.capacity) → j < A.fan → u ≠ some nodes.length →
      (u, j) ≠ (t, i) →
      m' (A.cell u j) = m (A.cell u j)) :
    Rep A depth link zero m' (nodes ++ [x.child A.fan i]) leaf := by
  have hne : x.child A.fan i ≠ Node.root := Node.child_ne_root _ _ _
  constructor
  case nodup =>
    refine List.nodup_append.mpr ⟨h.nodup, List.nodup_singleton _, ?_⟩
    rintro a ha b hb rfl
    exact hnew (List.mem_singleton.mp hb ▸ ha)
  case room => simpa using Nat.succ_le_of_lt hroom
  case proper => simpa [hne.symm] using h.proper
  case linked =>
    intro u y j k hu hy hj hk
    obtain ho | ⟨rfl, rfl⟩ := hu.cases_snoc
    · by_cases huj : (u, j) = (t, i)
      · obtain ⟨rfl, rfl⟩ := Prod.mk.inj huj
        obtain rfl := At.node_unique ho hat
        obtain hk' | ⟨hk', -⟩ := At.cases_snoc (t := some k) hk
        · exact absurd (List.mem_of_getElem? hk') hnew
        · rw [hlink, Option.some.inj hk']
      · rw [hrest u j (ho.lt h.room) hj ho.ne_fresh huj]
        obtain hk' | ⟨-, hk'⟩ := At.cases_snoc (t := some k) hk
        · exact h.linked ho hy hj hk'
        · obtain ⟨rfl, rfl⟩ := Node.child_inj hj hi hk'
          exact absurd (by rw [At.table_unique h.nodup h.proper ho hat]) huj
    · exact absurd (List.mem_of_getElem? hk) (h.child_fresh hnew hne hj)
  case free =>
    intro u y j hu hy hj hn
    obtain ho | ⟨rfl, rfl⟩ := hu.cases_snoc
    · have huj : (u, j) ≠ (t, i) := by
        rintro huj
        obtain ⟨rfl, rfl⟩ := Prod.mk.inj huj
        obtain rfl := At.node_unique ho hat
        exact hn (by simp)
      rw [hrest u j (ho.lt h.room) hj ho.ne_fresh huj]
      exact h.free ho hy hj fun hm => hn (List.mem_append_left _ hm)
    · exact hclear j hj
  case last =>
    intro u y j hu hy hj
    obtain ho | ⟨rfl, rfl⟩ := hu.cases_snoc
    · have huj : (u, j) ≠ (t, i) := by
        rintro huj
        obtain ⟨rfl, rfl⟩ := Prod.mk.inj huj
        obtain rfl := At.node_unique ho hat
        omega
      rw [hrest u j (ho.lt h.room) hj ho.ne_fresh huj]
      exact h.last ho hy hj
    · rw [hclear j hj, h.bare hj]
      rwa [← hy]
  case closed =>
    intro y j hm hj
    obtain hm | hm := List.mem_append.mp hm
    · exact (h.closed hm hj).imp_right (List.mem_append_left _)
    · obtain ⟨rfl, -⟩ := Node.child_inj hj hi (List.mem_singleton.mp hm)
      cases t with
      | none => exact .inl hat
      | some k => exact .inr (List.mem_append_left _ (List.mem_of_getElem? hat))
  case bare =>
    intro n j hj hn
    exact h.bare hj fun hm => hn (List.mem_append_left _ hm)

theorem Rep.put [DecidableEq K] {t : Option Nat} {x : Node} {i : Nat}
    (h : Rep A depth link zero m nodes leaf)
    (hat : At nodes t x) (hx : x.level = depth) (hd : depth ≠ 0) (hi : i < A.fan) (v : V) :
    Rep A depth link zero (Function.update m (A.cell t i) v) nodes
      (Function.update leaf (x.num * A.fan + i) v) := by
  have hinner {u y j} (hu : At nodes u y) (hy : y.level < depth) (hj : j < A.fan) :
      Function.update m (A.cell t i) v (A.cell u j) = m (A.cell u j) := by
    refine Function.update_of_ne (fun hc => ?_) _ _
    obtain ⟨rfl, -⟩ := A.cell_inj (hu.lt h.room) (hat.lt h.room) hj hi hc
    obtain rfl := At.node_unique hu hat
    omega
  exact {
    nodup := h.nodup
    room := h.room
    proper := h.proper
    linked := fun hu hy hj hk => (hinner hu hy hj).trans (h.linked hu hy hj hk)
    free := fun hu hy hj hn => (hinner hu hy hj).trans (h.free hu hy hj hn)
    last := by
      intro u y j hu hy hj
      by_cases huj : u = t ∧ j = i
      · obtain ⟨rfl, rfl⟩ := huj
        obtain rfl := At.node_unique hu hat
        rw [Function.update_self, Function.update_self]
      · rw [Function.update_of_ne fun hc =>
          huj (A.cell_inj (hu.lt h.room) (hat.lt h.room) hj hi hc),
          Function.update_of_ne, h.last hu hy hj]
        intro hc
        have hchild : y.child A.fan j = x.child A.fan i := by simp [Node.child, hc, hy, hx]
        obtain ⟨rfl, rfl⟩ := Node.child_inj hj hi hchild
        exact huj ⟨At.table_unique h.nodup h.proper hu hat, rfl⟩
    closed := h.closed
    bare := by
      intro n j hj hn
      rw [Function.update_of_ne, h.bare hj hn]
      intro hc
      have hchild : Node.child A.fan ⟨depth, n⟩ j = x.child A.fan i := by simp [Node.child, hc, hx]
      obtain ⟨hxn, -⟩ := Node.child_inj hj hi hchild
      subst hxn
      cases t with
      | none => exact hd (congrArg Node.level hat)
      | some k => exact hn (List.mem_of_getElem? hat) }

theorem Rep.empty (hzero : ∀ i < A.fan, m (A.cell none i) = zero) (hd : depth ≠ 0) :
    Rep A depth link zero m [] fun _ => zero where
  nodup := List.nodup_nil
  room := Nat.zero_le _
  proper := by simp
  linked := fun _ _ _ hk => by simp at hk
  free := by
    intro t x i ht _ hi _
    cases t with
    | none => exact hzero i hi
    | some k => simp [At] at ht
  last := by
    intro t x i ht hx _
    cases t with
    | none => exact absurd (hx.symm.trans (congrArg Node.level ht)) hd
    | some k => simp [At] at ht
  closed := fun hm _ => by simp at hm
  bare := fun _ _ => rfl

end

end Rk3576.Tables
