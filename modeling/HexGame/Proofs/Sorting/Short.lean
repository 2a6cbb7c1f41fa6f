import HexGame.Proofs.Sorting.Merge
import HexGame.Sorting.Short

/-!
# Sorting short lists

Insertion and the sorting of four entries lose no entry, whatever the comparison is. If it goes by a key, they
put a list in order, so that the halves of a short list can be merged (`permutes_sortShort`).
-/
namespace HexGame
namespace Sorting

variable {α : Type} {key : α → Int} {lt : α → α → Bool} {P : α → Prop} {xs ys : List α} {x : α}

/-- All results of `x` have `Q`, and there is one if `total` holds. -/
structure Yields {β : Type} (total : Prop) (x : Option β) (Q : β → Prop) : Prop where
  holds : ∀ a, x = some a → Q a
  exists_eq : total → ∃ a, x = some a

namespace Yields

variable {β γ : Type} {total : Prop} {x : Option β} {f : β → Option γ} {Q Q' : β → Prop} {S : γ → Prop}

theorem some {a : β} (h : Q a) : Yields total (some a) Q :=
  ⟨fun _ heq => Option.some.inj heq ▸ h, fun _ => ⟨a, rfl⟩⟩

theorem bind (hx : Yields total x Q) (hf : ∀ a, Q a → Yields total (f a) S) : Yields total (x >>= f) S := by
  constructor
  · intro c hc
    obtain ⟨a, ha, hc⟩ := Option.bind_eq_some_iff.mp hc
    exact (hf a (hx.holds a ha)).holds c hc
  · intro htotal
    obtain ⟨a, ha⟩ := hx.exists_eq htotal
    obtain ⟨c, hc⟩ := (hf a (hx.holds a ha)).exists_eq htotal
    exact ⟨c, Option.bind_eq_some_iff.mpr ⟨a, ha, hc⟩⟩

theorem imp (hx : Yields total x Q) (h : ∀ a, Q a → Q' a) : Yields total x Q' :=
  ⟨fun a ha => h a (hx.holds a ha), hx.exists_eq⟩

end Yields

/-- A list of entries with `P` keeps its entries when it is sorted, and is sorted with success if `total`
holds. -/
def Permutes (total : Prop) (P : α → Prop) (sort : List α → Option (List α)) : Prop :=
  ∀ xs, (∀ x ∈ xs, P x) → Yields total (sort xs) (·.Perm xs)

theorem perm_insertDown (lt : α → α → Bool) (x : α) (ys : List α) : (insertDown lt x ys).Perm (x :: ys) := by
  induction ys with
  | nil => exact .refl _
  | cons y ys ih =>
    rw [insertDown]
    split
    · exact (ih.cons y).trans (.swap x y ys)
    · exact .refl _

theorem pairwise_insertDown (hlt : ComparesBy lt P key) (hx : P x) (hy : ∀ y ∈ ys, P y)
    (hys : ys.Pairwise fun a b => key b ≤ key a) :
    (insertDown lt x ys).Pairwise fun a b => key b ≤ key a := by
  induction ys with
  | nil => simp [insertDown]
  | cons y ys ih =>
    have hiff := hlt x y hx (hy y (by simp))
    rw [insertDown]
    have hrest := List.pairwise_cons.mp hys
    split
    · rename_i h
      refine List.pairwise_cons.mpr ⟨fun z hz => ?_, ih (fun z hz => hy z (by simp [hz])) hrest.2⟩
      rcases List.mem_cons.mp ((perm_insertDown lt x ys).mem_iff.mp hz) with rfl | hz
      · have := hiff.mp h
        omega
      · exact hrest.1 z hz
    · rename_i h
      have hxy := mt hiff.mpr h
      refine List.pairwise_cons.mpr ⟨fun z hz => ?_, hys⟩
      rcases List.mem_cons.mp hz with rfl | hz
      · omega
      · have := hrest.1 z hz
        omega

theorem perm_insertAll (lt : α → α → Bool) (ys xs : List α) : (insertAll lt ys xs).Perm (ys ++ xs) := by
  have hfold (down : List α) : (xs.foldl (fun down x => insertDown lt x down) down).Perm (down ++ xs) := by
    induction xs generalizing down with
    | nil => simp
    | cons x xs ih =>
      refine (ih (insertDown lt x down)).trans (((perm_insertDown lt x down).append_right xs).trans ?_)
      exact List.perm_middle.symm
  exact (List.reverse_perm _).trans ((hfold ys.reverse).trans ((List.reverse_perm ys).append_right xs))

theorem ascending_insertAll (hlt : ComparesBy lt P key) (hx : ∀ x ∈ xs, P x) (hy : ∀ y ∈ ys, P y)
    (hys : Ascending key ys) : Ascending key (insertAll lt ys xs) := by
  have hfold (down : List α) (hdown : down.Pairwise fun a b => key b ≤ key a)
      (hP : ∀ y ∈ down, P y) :
      (xs.foldl (fun down x => insertDown lt x down) down).Pairwise fun a b => key b ≤ key a := by
    induction xs generalizing down with
    | nil => exact hdown
    | cons x xs ih =>
      have hPx : P x := hx x (by simp)
      refine ih (fun z hz => hx z (by simp [hz])) (insertDown lt x down)
        (pairwise_insertDown hlt hPx hP hdown) fun z hz => ?_
      rcases List.mem_cons.mp ((perm_insertDown lt x down).mem_iff.mp hz) with rfl | hz
      · exact hPx
      · exact hP z hz
  exact List.pairwise_reverse.mpr (hfold ys.reverse (List.pairwise_reverse.mpr hys) fun y hm =>
    hy y (List.mem_reverse.mp hm))

/-- Two entries as a comparison of `sortFour` leaves them. -/
theorem exists_pair (lt : α → α → Bool) (a b : α) :
    ∃ c d, (if lt b a then (b, a) else (a, b)) = (c, d) ∧ [c, d].Perm [a, b] ∧
      ∀ {P : α → Prop} {key : α → Int}, ComparesBy lt P key → P a → P b → key c ≤ key d := by
  split
  · rename_i h
    exact ⟨b, a, rfl, .swap a b [], fun hlt ha hb => Int.le_of_lt ((hlt b a hb ha).mp h)⟩
  · rename_i h
    exact ⟨a, b, rfl, .refl _, fun hlt ha hb => Int.not_lt.mp (mt (hlt b a hb ha).mpr h)⟩

/-- The last comparison of `sortFour`: the two entries in the middle. -/
theorem perm_middle (lt : α → α → Bool) (least left right greatest : α) :
    (if lt right left then [least, right, left, greatest] else [least, left, right, greatest]).Perm
      [least, left, right, greatest] := by
  split
  · exact .cons _ (.swap ..)
  · exact .refl _

theorem ascending_middle (hlt : ComparesBy lt P key) {least left right greatest : α} (hl : P left)
    (hr : P right) (h₁ : key least ≤ key left) (h₂ : key least ≤ key right)
    (h₃ : key left ≤ key greatest) (h₄ : key right ≤ key greatest) :
    Ascending key (if lt right left then [least, right, left, greatest]
      else [least, left, right, greatest]) := by
  have hiff := hlt right left hr hl
  split
  · rename_i h
    have := hiff.mp h
    simp [Ascending]
    omega
  · rename_i h
    have := mt hiff.mpr h
    simp [Ascending]
    omega

theorem sortFour_spec (lt : α → α → Bool) (a b c d : α) :
    (sortFour lt a b c d).Perm [a, b, c, d] ∧
      ∀ {P : α → Prop} {key : α → Int}, ComparesBy lt P key → (∀ x ∈ [a, b, c, d], P x) →
        Ascending key (sortFour lt a b c d) := by
  obtain ⟨a', b', hab, hperm, hle⟩ := exists_pair lt a b
  obtain ⟨c', d', hcd, hperm', hle'⟩ := exists_pair lt c d
  have hpairs : [a', b', c', d'].Perm [a, b, c, d] := hperm.append hperm'
  have hmiddle (least left right greatest : α) (h : [least, left, right, greatest].Perm [a', b', c', d'])
      (hascending : ∀ {P : α → Prop} {key : α → Int}, ComparesBy lt P key → (∀ x ∈ [a', b', c', d'], P x) →
        key a' ≤ key b' → key c' ≤ key d' →
        key least ≤ key left ∧ key least ≤ key right ∧ key left ≤ key greatest ∧ key right ≤ key greatest) :
      (if lt right left then [least, right, left, greatest] else [least, left, right, greatest]).Perm
        [a, b, c, d] ∧ ∀ {P : α → Prop} {key : α → Int}, ComparesBy lt P key → (∀ x ∈ [a, b, c, d], P x) →
          Ascending key (if lt right left then [least, right, left, greatest]
            else [least, left, right, greatest]) := by
    refine ⟨(perm_middle lt ..).trans (h.trans hpairs), fun {P key} hlt hP => ?_⟩
    have hP' : ∀ x ∈ [least, left, right, greatest], P x :=
      fun x hx => hP x ((h.trans hpairs).mem_iff.mp hx)
    obtain ⟨h₁, h₂, h₃, h₄⟩ := hascending hlt (fun x hx => hP x (hpairs.mem_iff.mp hx))
      (hle hlt (hP a (by simp)) (hP b (by simp))) (hle' hlt (hP c (by simp)) (hP d (by simp)))
    exact ascending_middle hlt (hP' left (by simp)) (hP' right (by simp)) h₁ h₂ h₃ h₄
  rw [sortFour, hab, hcd]
  cases h₁ : lt c' a' <;> cases h₂ : lt d' b' <;> simp only [h₁, h₂]
  · refine hmiddle _ _ _ _ (.refl _) fun hlt hP h h' => ?_
    have hca := mt (hlt c' a' (hP c' (by simp)) (hP a' (by simp))).mpr (by simp [h₁])
    have hdb := mt (hlt d' b' (hP d' (by simp)) (hP b' (by simp))).mpr (by simp [h₂])
    omega
  · have hback : ([c', d'] ++ [b']).Perm ([b'] ++ [c', d']) := List.perm_append_comm
    refine hmiddle _ _ _ _ (hback.cons a') fun hlt hP h h' => ?_
    have hca := mt (hlt c' a' (hP c' (by simp)) (hP a' (by simp))).mpr (by simp [h₁])
    have hdb := (hlt d' b' (hP d' (by simp)) (hP b' (by simp))).mp h₂
    omega
  · have hfront : ([c'] ++ [a', b']).Perm ([a', b'] ++ [c']) := List.perm_append_comm
    refine hmiddle _ _ _ _ (hfront.append_right [d']) fun hlt hP h h' => ?_
    have hca := (hlt c' a' (hP c' (by simp)) (hP a' (by simp))).mp h₁
    have hdb := mt (hlt d' b' (hP d' (by simp)) (hP b' (by simp))).mpr (by simp [h₂])
    omega
  · have hback : ([c', d'] ++ [b']).Perm ([b'] ++ [c', d']) := List.perm_append_comm
    refine hmiddle _ _ _ _ ((List.Perm.swap a' c' [d', b']).trans (hback.cons a')) fun hlt hP h h' => ?_
    have hca := (hlt c' a' (hP c' (by simp)) (hP a' (by simp))).mp h₁
    have hdb := (hlt d' b' (hP d' (by simp)) (hP b' (by simp))).mp h₂
    omega

theorem perm_sortHalf (lt : α → α → Bool) (four : Bool) (xs : List α) : (sortHalf lt four xs).Perm xs := by
  unfold sortHalf
  split
  · rename_i a b c d xs
    exact (perm_insertAll lt _ xs).trans ((sortFour_spec lt a b c d).1.append_right xs)
  · simpa using perm_insertAll lt [] xs

theorem ascending_sortHalf (hlt : ComparesBy lt P key) (hx : ∀ x ∈ xs, P x) (four : Bool) :
    Ascending key (sortHalf lt four xs) := by
  unfold sortHalf
  split
  · rename_i a b c d xs
    have hfour : ∀ x ∈ [a, b, c, d], P x := fun x hm => hx x (List.mem_append_left xs hm)
    obtain ⟨hperm, hascending⟩ := sortFour_spec lt a b c d
    exact ascending_insertAll hlt (fun x hm => hx x (by simp [hm]))
      (fun x hm => hfour x (hperm.mem_iff.mp hm)) (hascending hlt hfour)
  · have hnil : ∀ x ∈ ([] : List α), P x := by simp
    exact ascending_insertAll hlt hx hnil .nil

theorem permutes_sortShort {total : Prop} (hlt : total → ComparesBy lt P key) :
    Permutes total P (sortShort lt) := by
  intro xs hx
  have htake := perm_sortHalf lt (8 ≤ xs.length) (xs.take (xs.length / 2))
  have hdrop := perm_sortHalf lt (8 ≤ xs.length) (xs.drop (xs.length / 2))
  constructor
  · intro ys hys
    refine (perm_of_mergeBothEnds hys).trans ((htake.append hdrop).trans ?_)
    rw [List.take_append_drop]
  · intro htotal
    have hx₁ : ∀ x ∈ xs.take (xs.length / 2), P x := fun x hm => hx x (List.mem_of_mem_take hm)
    have hx₂ : ∀ x ∈ xs.drop (xs.length / 2), P x := fun x hm => hx x (List.mem_of_mem_drop hm)
    exact exists_mergeBothEnds (hlt htotal) (fun x hm => hx₁ x (htake.mem_iff.mp hm))
      (fun x hm => hx₂ x (hdrop.mem_iff.mp hm)) (ascending_sortHalf (hlt htotal) hx₁ _)
      (ascending_sortHalf (hlt htotal) hx₂ _)

end Sorting
end HexGame
