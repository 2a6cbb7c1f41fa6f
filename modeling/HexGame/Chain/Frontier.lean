/-!
# Best-first frontiers

A frontier hands out its entries by priority and, among equals, in the order in which they came. It is
a heap that melds along right spines and swaps the children of every node it passes. `toList` is its
view: melding keeps the entries (`mem_toList_meld`), and the entry handed out is a least one
(`le_of_popMin?`).
-/
namespace HexGame

structure Rank where
  priority : Int
  serial : Nat
  deriving DecidableEq, Repr

namespace Rank

def le (a b : Rank) : Bool :=
  a.priority < b.priority || (a.priority = b.priority && a.serial ≤ b.serial)

theorem le_iff {a b : Rank} :
    a.le b = true ↔ a.priority < b.priority ∨ (a.priority = b.priority ∧ a.serial ≤ b.serial) := by
  simp [le]

theorem le_refl (a : Rank) : a.le a = true := by simp [le_iff]

theorem le_trans {a b c : Rank} (h : a.le b = true) (h' : b.le c = true) : a.le c = true := by
  rw [le_iff] at *
  omega

theorem le_of_not_le {a b : Rank} (h : ¬ a.le b = true) : b.le a = true := by
  rw [le_iff] at *
  omega

end Rank

inductive Frontier (α : Type) where
  | empty
  | node (rank : Rank) (entry : α) (left right : Frontier α)

namespace Frontier

variable {α : Type}

def toList : Frontier α → List (Rank × α)
  | empty => []
  | node r a left right => (r, a) :: (left.toList ++ right.toList)

/-- Melds a node into a heap, given how its right child melds. -/
def meldWith (r : Rank) (a : α) (left : Frontier α) (meldRight : Frontier α → Frontier α) :
    Frontier α → Frontier α
  | empty => node r a (meldRight empty) left
  | node r' a' left' right' =>
    if r.le r' then node r a (meldRight (node r' a' left' right')) left
    else node r' a' (meldWith r a left meldRight right') left'

def meld : Frontier α → Frontier α → Frontier α
  | empty => fun h => h
  | node r a left right => meldWith r a left (meld right)

def insert (h : Frontier α) (r : Rank) (a : α) : Frontier α := meld (node r a empty empty) h

def popMin? : Frontier α → Option ((Rank × α) × Frontier α)
  | empty => none
  | node r a left right => some ((r, a), meld left right)

/-- No entry has a smaller rank than the root above it. -/
def Ordered : Frontier α → Prop
  | empty => True
  | node r _ left right =>
    (∀ p ∈ left.toList ++ right.toList, r.le p.1 = true) ∧ left.Ordered ∧ right.Ordered

theorem mem_toList_meld {h k : Frontier α} {p : Rank × α} :
    p ∈ (meld h k).toList ↔ p ∈ h.toList ∨ p ∈ k.toList := by
  induction h generalizing k with
  | empty => simp [meld, toList]
  | node r a left right _ ihr =>
    simp only [meld]
    induction k with
    | empty =>
      simp only [meldWith, toList, List.mem_cons, List.mem_append, ihr]
      simp [or_comm]
    | node r' a' left' right' _ ihr' =>
      simp only [meldWith]
      split
      · simp only [toList, List.mem_cons, List.mem_append, ihr]
        simp only [or_assoc, or_comm, or_left_comm]
      · simp only [toList, List.mem_cons, List.mem_append] at ihr' ⊢
        rw [ihr']
        simp only [or_assoc, or_comm, or_left_comm]

theorem length_toList_meld (h k : Frontier α) :
    (meld h k).toList.length = h.toList.length + k.toList.length := by
  induction h generalizing k with
  | empty => simp [meld, toList]
  | node r a left right _ ihr =>
    simp only [meld]
    induction k with
    | empty =>
      simp only [meldWith, toList, List.length_cons, List.length_append, ihr]
      simp
      omega
    | node r' a' left' right' _ ihr' =>
      simp only [meldWith]
      split
      · simp only [toList, List.length_cons, List.length_append, ihr]
        omega
      · simp only [toList, List.length_cons, List.length_append] at ihr' ⊢
        omega

theorem Ordered.meld {h k : Frontier α} (hh : h.Ordered) (hk : k.Ordered) :
    (meld h k).Ordered := by
  induction h generalizing k with
  | empty => exact hk
  | node r a left right _ ihr =>
    obtain ⟨hr, hl, hr'⟩ := hh
    simp only [Frontier.meld]
    induction k with
    | empty =>
      refine ⟨?_, ihr hr' hk, hl⟩
      intro p hp
      simp only [List.mem_append, mem_toList_meld, toList, List.not_mem_nil, or_false] at hp
      exact hr p (by simpa [or_comm] using hp)
    | node s b left' right' _ ihk =>
      obtain ⟨hs, hsl, hsr⟩ := hk
      simp only [meldWith]
      split
      · rename_i hle
        refine ⟨?_, ihr hr' ⟨hs, hsl, hsr⟩, hl⟩
        intro p hp
        simp only [List.mem_append, mem_toList_meld] at hp
        rcases hp with (hp | hp) | hp
        · exact hr p (by simp [hp])
        · rcases List.mem_cons.mp hp with rfl | hp
          · exact hle
          · exact Rank.le_trans hle (hs p hp)
        · exact hr p (by simp [hp])
      · rename_i hle
        have hle := Rank.le_of_not_le hle
        refine ⟨?_, ihk hsr, hsl⟩
        intro p hp
        have hm : (meldWith r a left (Frontier.meld right) right') =
            Frontier.meld (node r a left right) right' := rfl
        rw [hm, List.mem_append, mem_toList_meld] at hp
        rcases hp with (hp | hp) | hp
        · rcases List.mem_cons.mp hp with rfl | hp
          · exact hle
          · exact Rank.le_trans hle (hr p hp)
        · exact hs p (by simp [hp])
        · exact hs p (by simp [hp])

theorem Ordered.insert {h : Frontier α} (hh : h.Ordered) (r : Rank) (a : α) :
    (h.insert r a).Ordered :=
  Ordered.meld (by simp [Ordered, toList]) hh

theorem mem_toList_insert {h : Frontier α} {r : Rank} {a : α} {p : Rank × α} :
    p ∈ (h.insert r a).toList ↔ p = (r, a) ∨ p ∈ h.toList := by
  simp [insert, mem_toList_meld, toList]

/-- The entry handed out is a least one, and nothing else leaves the heap. -/
theorem le_of_popMin? {h k : Frontier α} {p : Rank × α} (hh : h.Ordered)
    (e : h.popMin? = some (p, k)) :
    k.Ordered ∧ (∀ q ∈ k.toList, p.1.le q.1 = true) ∧
      ∀ q, q ∈ h.toList ↔ q = p ∨ q ∈ k.toList := by
  cases h with
  | empty => simp [popMin?] at e
  | node r a left right =>
    simp only [popMin?, Option.some.injEq, Prod.mk.injEq] at e
    obtain ⟨rfl, rfl⟩ := e
    obtain ⟨hr, hl, hr'⟩ := hh
    refine ⟨hl.meld hr', ?_, ?_⟩
    · intro q hq
      exact hr q (by simpa [mem_toList_meld] using hq)
    · intro q
      simp [toList, mem_toList_meld]

theorem length_of_popMin? {h k : Frontier α} {p : Rank × α} (e : h.popMin? = some (p, k)) :
    h.toList.length = k.toList.length + 1 := by
  cases h with
  | empty => simp [popMin?] at e
  | node r a left right =>
    simp only [popMin?, Option.some.injEq, Prod.mk.injEq] at e
    simp [← e.2, toList, length_toList_meld]

end Frontier
end HexGame
