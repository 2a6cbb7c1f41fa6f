import HexGame.Tree
import Mathlib.Data.List.Sort

/-!
# Places in a tree

A place says how to come from the root to a node, by the indices of the children on the way. Places are
ordered like words: a node comes before the nodes below it, and those below a child before those below a later
child. So a list of nodes whose places increase is in the order of a walk (`Listing.sublist_walk`), and what is
listed of a tree is put together of what is listed of its children (`Listing.node`, `Listing.cons`).
-/
namespace HexGame

theorem forall_mem_set {α : Type} {l : List α} {P : α → Prop} {i : Nat} {a : α} (h : ∀ b ∈ l, P b) (ha : P a) :
    ∀ b ∈ l.set i a, P b := by
  intro b hb
  rcases List.mem_or_eq_of_mem_set hb with hb | rfl
  · exact h b hb
  · exact ha

namespace Tree

variable {α : Type} {P Q : Tree α → Prop} {t u : Tree α}

@[simp] theorem value_node (a : α) (ts : List (Tree α)) : (node a ts).value = a := rfl

@[simp] theorem children_node (a : α) (ts : List (Tree α)) : (node a ts).children = ts := rfl

@[simp] theorem value_leaf (a : α) : (leaf a).value = a := rfl

@[simp] theorem children_leaf (a : α) : (leaf a).children = [] := rfl

@[simp] theorem subtree?_nil (t : Tree α) : t.subtree? [] = some t := rfl

theorem subtree?_cons (t : Tree α) (i : Nat) (path : List Nat) :
    t.subtree? (i :: path) = t.children[i]?.bind (·.subtree? path) := by
  rw [subtree?]
  cases t.children[i]? <;> rfl

theorem sizes_concat (ts : List (Tree α)) (t : Tree α) : sizes (ts ++ [t]) = sizes ts + t.size := by
  induction ts with
  | nil => exact Nat.add_comm _ _
  | cons u us ih => rw [List.cons_append, sizes, sizes, ih, Nat.add_assoc]

theorem node_induction {motive : Tree α → Prop}
    (node : ∀ a ts, (∀ t ∈ ts, motive t) → motive (.node a ts)) : ∀ t, motive t
  | .node a ts => node a ts fun t _ => node_induction node t

/-- A property of all nodes of a tree, each with the subtree below it. -/
inductive Everywhere (P : Tree α → Prop) : Tree α → Prop where
  | node {a : α} {ts : List (Tree α)} (h : P (.node a ts)) (hts : ∀ t ∈ ts, Everywhere P t) :
      Everywhere P (.node a ts)

namespace Everywhere

theorem here (h : Everywhere P t) : P t := by
  cases h with
  | node h _ => exact h

theorem children (h : Everywhere P t) : ∀ u ∈ t.children, Everywhere P u := by
  cases h with
  | node _ hts => exact hts

theorem imp (hPQ : ∀ u, P u → Q u) (h : Everywhere P t) : Everywhere Q t := by
  induction h with
  | node h _ ih => exact .node (hPQ _ h) ih

theorem subtree {path : List Nat} (h : Everywhere P t) (hu : t.subtree? path = some u) : Everywhere P u := by
  induction path generalizing t with
  | nil => exact Option.some.inj hu ▸ h
  | cons i path ih =>
    rw [subtree?_cons] at hu
    obtain ⟨child, hchild, hu⟩ := Option.bind_eq_some_iff.mp hu
    exact ih (h.children child (List.mem_of_getElem? hchild)) hu

theorem of_subtrees (h : ∀ path u, t.subtree? path = some u → P u) : Everywhere P t := by
  induction t using node_induction with
  | node a ts ih =>
    refine .node (h [] _ rfl) fun t ht => ih t ht fun path u hu => ?_
    obtain ⟨i, hi⟩ := List.mem_iff_getElem?.mp ht
    exact h (i :: path) u (by rw [subtree?_cons, children_node, hi]; exact hu)

end Everywhere

theorem subtree?_append (t : Tree α) (p q : List Nat) :
    t.subtree? (p ++ q) = (t.subtree? p).bind (·.subtree? q) := by
  induction p generalizing t with
  | nil => rfl
  | cons i p ih =>
    rw [List.cons_append, subtree?_cons, subtree?_cons]
    cases t.children[i]? with
    | none => rfl
    | some child => exact ih child

/-! ## Nodes below others -/

/-- The subtree at a place, if `P` holds at every node above it. -/
def Under (P : α → Prop) (t : Tree α) (p : List Nat) (u : Tree α) : Prop :=
  t.subtree? p = some u ∧ ∀ q w, q <+: p → q ≠ p → t.subtree? q = some w → P w.value

/-- The same for the trees of a list, counted from `i` on. -/
def UnderAll (P : α → Prop) (i : Nat) (ts : List (Tree α)) (p : List Nat) (u : Tree α) : Prop :=
  ∃ k t q, p = (i + k) :: q ∧ ts[k]? = some t ∧ t.Under P q u

variable {p q : List Nat} {w : Tree α} {a : α} {ts : List (Tree α)} {i : Nat} {A : α → Prop}

theorem under_node : (node a ts).Under A p u ↔
    (p = [] ∧ u = node a ts) ∨ (A a ∧ UnderAll A 0 ts p u) := by
  constructor
  · rintro ⟨hu, habove⟩
    cases p with
    | nil => exact .inl ⟨rfl, (Option.some.inj hu).symm⟩
    | cons k q =>
      rw [subtree?_cons] at hu
      obtain ⟨t, ht, hu⟩ := Option.bind_eq_some_iff.mp hu
      refine .inr ⟨habove [] _ List.nil_prefix (by simp) rfl, k, t, q, by simp, ht, hu, ?_⟩
      intro q' w hprefix hne hw
      refine habove (k :: q') w (List.cons_prefix_cons.mpr ⟨rfl, hprefix⟩) (by simpa using hne) ?_
      rw [subtree?_cons, show (node a ts).children[k]? = some t from ht]
      exact hw
  · rintro (⟨rfl, rfl⟩ | ⟨ha, k, t, q, rfl, ht, hu, habove⟩)
    · exact ⟨rfl, fun q w hprefix hne => absurd (List.prefix_nil.mp hprefix) hne⟩
    · rw [Nat.zero_add]
      have hbelow (q : List Nat) : (node a ts).subtree? (k :: q) = t.subtree? q := by
        simp [subtree?_cons, ht]
      refine ⟨(hbelow q).trans hu, fun q' w hprefix hne hw => ?_⟩
      cases q' with
      | nil => exact Option.some.inj hw ▸ ha
      | cons j q' =>
        obtain ⟨rfl, hbelow'⟩ := List.cons_prefix_cons.mp hprefix
        exact habove q' w hbelow' (by simpa using hne) ((hbelow q').symm.trans hw)

theorem not_underAll_nil : ¬ UnderAll A i [] p u := by
  rintro ⟨k, t, q, -, ht, -⟩
  simp at ht

theorem underAll_cons : UnderAll A i (t :: ts) p u ↔
    (∃ q, p = i :: q ∧ t.Under A q u) ∨ UnderAll A (i + 1) ts p u := by
  constructor
  · rintro ⟨_ | k, t', q, rfl, ht, hu⟩
    · exact .inl ⟨q, rfl, Option.some.inj ht ▸ hu⟩
    · exact .inr ⟨k, t', q, by rw [Nat.add_right_comm, Nat.add_assoc], ht, hu⟩
  · rintro (⟨q, rfl, hu⟩ | ⟨k, t', q, rfl, ht, hu⟩)
    · exact ⟨0, t, q, rfl, rfl, hu⟩
    · exact ⟨k + 1, t', q, by rw [Nat.add_right_comm, Nat.add_assoc], ht, hu⟩

/-- Going down to a node, one comes to it through nodes with `A` alone, or to a first one without. -/
theorem under_or_exists_first (hu : t.subtree? p = some u) :
    t.Under A p u ∨ ∃ q w, q <+: p ∧ t.Under A q w ∧ ¬ A w.value := by
  induction p generalizing t with
  | nil => exact .inl ⟨hu, fun q w hprefix hne => absurd (List.prefix_nil.mp hprefix) hne⟩
  | cons i p ih =>
    obtain ⟨a, ts⟩ := t
    by_cases ha : A a
    · rw [subtree?_cons] at hu
      obtain ⟨t, ht, hu⟩ := Option.bind_eq_some_iff.mp hu
      have hbelow {q : List Nat} {w : Tree α} (h : t.Under A q w) : (node a ts).Under A (i :: q) w :=
        under_node.mpr (.inr ⟨ha, i, t, q, by simp, ht, h⟩)
      rcases ih hu with h | ⟨q, w, hprefix, h, hw⟩
      · exact .inl (hbelow h)
      · exact .inr ⟨i :: q, w, List.cons_prefix_cons.mpr ⟨rfl, hprefix⟩, hbelow h, hw⟩
    · exact .inr ⟨[], _, List.nil_prefix, under_node.mpr (.inl ⟨rfl, rfl⟩), ha⟩

namespace Under

/-- Nothing without `A` lies on the way to a node that has only nodes with `A` above it. -/
theorem of_prefix (h : t.Under A p u) (hu : A u.value) (hq : q <+: p) (hw : t.subtree? q = some w) :
    A w.value := by
  by_cases heq : q = p
  · subst heq
    exact Option.some.inj (h.1.symm.trans hw) ▸ hu
  · exact h.2 q w hq heq hw

theorem unique {r : List Nat} (h : t.Under A p u) (hu : ¬ A u.value) (h' : t.Under A q w) (hw : ¬ A w.value)
    (hp : p <+: r) (hq : q <+: r) : (p, u) = (q, w) := by
  by_cases heq : p = q
  · subst heq
    rw [Option.some.inj (h.1.symm.trans h'.1)]
  · rcases List.prefix_or_prefix_of_prefix hp hq with hpq | hqp
    · exact absurd (h'.2 p u hpq heq h.1) hu
    · exact absurd (h.2 q w hqp (Ne.symm heq) h'.1) hw

end Under

/-! ## Lists in the order of a walk -/

/-- The places and the subtrees for which `R` holds, in the order of a walk. -/
structure Listing (R : List Nat → Tree α → Prop) (xs : List (List Nat × Tree α)) : Prop where
  increasing : xs.Pairwise fun x y => x.1 < y.1
  mem_iff : ∀ p u, (p, u) ∈ xs ↔ R p u

namespace Listing

variable {Q : α → Prop} {xs ys : List (List Nat × Tree α)}

theorem nil (i : Nat) : Listing (fun p u => UnderAll A i [] p u ∧ Q u.value) [] :=
  ⟨.nil, by simp [not_underAll_nil]⟩

/-- What is listed of a tree is its root, if it has `Q`, and what is listed of its children, if the root
has `A`. -/
theorem node [DecidablePred Q] (hA : A a → Listing (fun p u => UnderAll A 0 ts p u ∧ Q u.value) xs)
    (hnot : ¬ A a → xs = []) :
    Listing (fun p u => (Tree.node a ts).Under A p u ∧ Q u.value)
      ((if Q a then [([], Tree.node a ts)] else []) ++ xs) := by
  have hmem (p : List Nat) (u : Tree α) : (p, u) ∈ xs ↔ A a ∧ UnderAll A 0 ts p u ∧ Q u.value := by
    by_cases ha : A a
    · simp [(hA ha).mem_iff, ha]
    · simp [hnot ha, ha]
  refine ⟨List.pairwise_append.mpr ⟨?_, ?_, ?_⟩, fun p u => ?_⟩
  · split <;> simp
  · by_cases ha : A a
    · exact (hA ha).increasing
    · simp [hnot ha]
  · rintro x hx ⟨p, u⟩ hy
    obtain ⟨-, ⟨k, _, q, rfl, -⟩, -⟩ := (hmem p u).mp hy
    split at hx
    · obtain rfl := List.mem_singleton.mp hx
      exact List.nil_lt_cons _ _
    · simp at hx
  · rw [List.mem_append, hmem, under_node, or_and_right]
    refine or_congr ?_ and_assoc.symm
    constructor
    · intro h
      split at h
      · rename_i hQ
        obtain ⟨rfl, rfl⟩ := Prod.mk.inj (List.mem_singleton.mp h)
        exact ⟨⟨rfl, rfl⟩, hQ⟩
      · simp at h
    · rintro ⟨⟨rfl, rfl⟩, hQ⟩
      rw [if_pos (show Q a from hQ)]
      exact List.mem_singleton.mpr rfl

theorem cons (h : Listing (fun p u => t.Under A p u ∧ Q u.value) xs)
    (h' : Listing (fun p u => UnderAll A (i + 1) ts p u ∧ Q u.value) ys) :
    Listing (fun p u => UnderAll A i (t :: ts) p u ∧ Q u.value)
      (xs.map (fun x => (i :: x.1, x.2)) ++ ys) := by
  refine ⟨List.pairwise_append.mpr ⟨?_, h'.increasing, ?_⟩, fun p u => ?_⟩
  · rw [List.pairwise_map]
    exact h.increasing.imp fun hlt => List.cons_lt_cons_iff.mpr (.inr ⟨rfl, hlt⟩)
  · rintro x hx ⟨p, u⟩ hy
    obtain ⟨x, -, rfl⟩ := List.mem_map.mp hx
    obtain ⟨⟨k, _, q, rfl, -⟩, -⟩ := (h'.mem_iff p u).mp hy
    exact List.cons_lt_cons_iff.mpr (.inl (by omega))
  · rw [List.mem_append, h'.mem_iff, underAll_cons, or_and_right]
    refine or_congr ?_ Iff.rfl
    constructor
    · intro hx
      obtain ⟨⟨q, w⟩, hmem, heq⟩ := List.mem_map.mp hx
      obtain ⟨rfl, rfl⟩ := Prod.mk.inj heq
      obtain ⟨hu, hQ⟩ := (h.mem_iff q w).mp hmem
      exact ⟨⟨q, rfl, hu⟩, hQ⟩
    · rintro ⟨⟨q, rfl, hu⟩, hQ⟩
      exact List.mem_map.mpr ⟨(q, u), (h.mem_iff q u).mpr ⟨hu, hQ⟩, rfl⟩

/-- Of two lists in the order of a walk, one with less in it can be cut out of the other. -/
theorem sublist {R R' : List Nat → Tree α → Prop} (h : Listing R xs) (h' : Listing R' ys)
    (himp : ∀ p u, R p u → R' p u) : xs.Sublist ys := by
  have hanti : Std.Antisymm fun x y : List Nat × Tree α => x.1 < y.1 :=
    ⟨fun _ _ hxy hyx => absurd hxy (List.lt_asymm hyx)⟩
  have hirrefl : Std.Irrefl fun x y : List Nat × Tree α => x.1 < y.1 := ⟨fun x => List.lt_irrefl x.1⟩
  refine List.sublist_of_subperm_of_pairwise (List.subperm_of_subset h.increasing.nodup ?_) h.increasing
    h'.increasing
  exact fun x hx => (h'.mem_iff x.1 x.2).mpr (himp _ _ ((h.mem_iff x.1 x.2).mp hx))

end Listing

/-! ## Walks -/

/-- What a walk from some depth on has in it. -/
def WalkListed (depth : Nat) (R : List Nat → Tree α → Prop) (walk : List (Tree α × Nat)) : Prop :=
  ∃ xs, Listing (fun p u => R p u ∧ True) xs ∧ walk = xs.map fun x => (x.2, depth + x.1.length)

theorem walkListed_walkAllAt {depth : Nat} (ts : List (Tree α)) (i : Nat)
    (h : ∀ t ∈ ts, WalkListed (depth + 1) (t.Under fun _ => True) (t.walkAt (depth + 1))) :
    WalkListed depth (UnderAll (fun _ => True) i ts) (walkAllAt (depth + 1) ts) := by
  induction ts generalizing i with
  | nil => exact ⟨[], .nil (Q := fun _ => True) i, rfl⟩
  | cons t ts ih =>
    obtain ⟨xs, hxs, hwalk⟩ := h t (by simp)
    obtain ⟨ys, hys, hwalks⟩ := ih (i + 1) fun t ht => h t (by simp [ht])
    refine ⟨_, .cons (Q := fun _ => True) hxs hys, ?_⟩
    rw [walkAllAt, hwalk, hwalks, List.map_append, List.map_map]
    simp [Function.comp_def, Nat.add_assoc, Nat.add_comm 1]

theorem walkListed_walkAt (t : Tree α) (depth : Nat) :
    WalkListed depth (t.Under fun _ => True) (t.walkAt depth) := by
  induction t using node_induction generalizing depth with
  | node a ts ih =>
    obtain ⟨xs, hxs, hwalk⟩ := walkListed_walkAllAt ts 0 fun t ht => ih t ht (depth + 1)
    refine ⟨_, .node (Q := fun _ => True) (fun _ => hxs) (absurd trivial), ?_⟩
    simp [walkAt, hwalk]

/-- A walk has all nodes in it in the order of their places, each with its depth. -/
theorem exists_listing_walk (t : Tree α) :
    ∃ xs, Listing (fun p u => t.subtree? p = some u) xs ∧ t.walk = xs.map fun x => (x.2, x.1.length) := by
  obtain ⟨xs, hxs, hwalk⟩ := walkListed_walkAt t 0
  refine ⟨xs, ⟨hxs.increasing, fun p u => (hxs.mem_iff p u).trans (by simp [Under])⟩, ?_⟩
  simpa [walk] using hwalk

/-- What is listed of a tree comes in the order in which a walk goes through it. -/
theorem Listing.sublist_walk {R : List Nat → Tree α → Prop} {xs : List (List Nat × Tree α)} (h : Listing R xs)
    (hR : ∀ p u, R p u → t.subtree? p = some u) :
    (xs.map (·.2)).Sublist (t.walk.map (·.1)) := by
  obtain ⟨ys, hys, hwalk⟩ := exists_listing_walk t
  rw [hwalk, List.map_map]
  exact (h.sublist hys hR).map _

end Tree
end HexGame
