import Mathlib.Data.List.Chain
import HexGame.Proofs.Chain.Winner

/-!
# Strict chains

A strict chain written out stone by stone. Following it from the near edge shows that its last stone is
joined to that edge (`Joined.getLast`), and the stones by which a cell is joined to the edge form such a
chain up to there (`Joined.exists_path`). So the search decides whether there is one.
-/
namespace HexGame

/-- The stones of `color` in a row from its near edge to its far edge, each beside the one before. -/
structure StrictChain (b : Board) (color : Color) (path : List Cell) : Prop where
  stones : ∀ c ∈ path, b.owns color c = true
  adjacent : path.IsChain fun a c => a.isAdjacent c = true
  near : ∃ c ∈ path.head?, color.depth c = 0
  far : ∃ c ∈ path.getLast?, color.depth c = b.size - 1

section

variable {b : Board} {color : Color} {own : Cell → Prop} {a c : Cell} {path : List Cell}

theorem Joined.getLast (h : Joined color own a)
    (hadj : (a :: path).IsChain fun a c => a.isAdjacent c = true) (hown : ∀ c ∈ path, own c)
    (hc : (a :: path).getLast? = some c) : Joined color own c := by
  induction path generalizing a with
  | nil =>
    obtain rfl : a = c := by simpa using hc
    exact h
  | cons x path ih =>
    rw [List.isChain_cons_cons] at hadj
    rw [List.getLast?_cons_cons] at hc
    apply ih (h.adjacent hadj.1 (hown x (by simp))) hadj.2 _ hc
    intro y hy
    exact hown y (List.mem_cons_of_mem x hy)

theorem Joined.exists_path (h : Joined color own c) : ∃ path : List Cell, (∀ a ∈ path, own a) ∧
    path.IsChain (fun a c => a.isAdjacent c = true) ∧ (∃ a ∈ path.head?, color.depth a = 0) ∧
    path.getLast? = some c := by
  induction h with
  | @edge c hc hd =>
    refine ⟨[c], ?_, List.isChain_singleton c, ⟨c, rfl, hd⟩, rfl⟩
    simpa using hc
  | @beside c d h hd ih =>
    obtain ⟨path, hown, hadj, ⟨a, ha, ha'⟩, hlast⟩ := ih
    refine ⟨path ++ [c.step d], ?_, ?_, ⟨a, ?_, ha'⟩, by simp⟩
    · intro x hx
      rcases List.mem_append.mp hx with hx | hx
      · exact hown x hx
      · obtain rfl : x = c.step d := by simpa using hx
        exact hd
    · rw [List.isChain_append]
      refine ⟨hadj, List.isChain_singleton _, ?_⟩
      intro x hx y hy
      obtain rfl : c = x := by simpa [hlast] using hx
      obtain rfl : c.step d = y := by simpa using hy
      exact Cell.isAdjacent_step c d
    · rw [Option.mem_def] at ha ⊢
      rw [List.head?_append, ha]
      rfl

namespace Board

/-- The search in strict mode finds a chain exactly when stones beside each other lead from edge to edge. -/
theorem isConnected_strict_iff_exists_chain :
    b.isConnected color .strict = true ↔ ∃ path, StrictChain b color path := by
  rw [isConnected_strict_iff]
  constructor
  · rintro ⟨c, hc, hr⟩
    obtain ⟨path, hown, hadj, hnear, hlast⟩ := hc.exists_path
    refine ⟨path, hown, hadj, hnear, c, hlast, ?_⟩
    have hb := (contains_iff_along color).mp (contains_of_owns hc.stone)
    unfold Color.remaining at hr
    omega
  · rintro ⟨path, hown, hadj, ⟨a, ha, hd⟩, c, hc, hlast⟩
    obtain ⟨rest, rfl⟩ := List.head?_eq_some_iff.mp ha
    have hj : Joined color (b.owns color · = true) a := .edge (hown a (by simp)) hd
    refine ⟨c, hj.getLast hadj (fun x hx => hown x (List.mem_cons_of_mem a hx)) hc, ?_⟩
    unfold Color.remaining
    omega

end Board

end
end HexGame
