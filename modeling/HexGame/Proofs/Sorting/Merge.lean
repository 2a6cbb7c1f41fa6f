import HexGame.Sorting.Merge

/-!
# Merges from both ends

A merge keeps the order of either side (`entriesOf_merge`) and puts no entry before one of the other side
that belongs in front of it (`Before`). Both together determine it, so that merging from the front and from
the back of sorted lists give the same list (`mergeUp_eq_mergeDown`), and taking one half from each end
takes no entry twice.
-/
namespace HexGame
namespace Sorting

variable {α : Type} {key : α → Int} {lt : α → α → Bool} {P : α → Prop} {xs ys : List α}
variable {zs ws : List (Side × α)} {s t : Side}

/-- On the entries with `P` the comparison goes by `key`. -/
def ComparesBy (lt : α → α → Bool) (P : α → Prop) (key : α → Int) : Prop :=
  ∀ x y, P x → P y → (lt x y = true ↔ key x < key y)

/-- The entries of one side, in their order. -/
def entriesOf (s : Side) (zs : List (Side × α)) : List α :=
  (zs.filter fun z => z.1 = s).map (·.2)

/-- An entry of a merge may stand before another one. -/
def Before (key : α → Int) : Side × α → Side × α → Prop
  | (.left, x), (.right, y) => key x ≤ key y
  | (.right, y), (.left, x) => key y < key x
  | _, _ => True

theorem entriesOf_append : entriesOf s (zs ++ ws) = entriesOf s zs ++ entriesOf s ws := by
  simp [entriesOf]

theorem length_entriesOf : (entriesOf s zs).length = countFrom s zs := by
  simp [entriesOf, countFrom, List.countP_eq_length_filter]

theorem entriesOf_mark : entriesOf s (mark s xs) = xs := by
  simp [entriesOf, mark, List.filter_map, Function.comp_def]

theorem entriesOf_mark_of_ne (h : t ≠ s) : entriesOf s (mark t xs) = [] := by
  simp [entriesOf, mark, List.filter_map, Function.comp_def, h]

theorem entriesOf_reverse : entriesOf s zs.reverse = (entriesOf s zs).reverse := by
  simp [entriesOf, List.filter_reverse]

theorem perm_entriesOf (zs : List (Side × α)) :
    (zs.map (·.2)).Perm (entriesOf .left zs ++ entriesOf .right zs) := by
  induction zs with
  | nil => exact .refl _
  | cons z zs ih =>
    obtain ⟨s, x⟩ := z
    cases s with
    | left => simpa [entriesOf] using ih.cons x
    | right =>
      refine (ih.cons x).trans ?_
      simpa [entriesOf] using List.perm_middle.symm

theorem eq_of_before (hz : zs.Pairwise (Before key)) (hw : ws.Pairwise (Before key))
    (hside : ∀ s, entriesOf s zs = entriesOf s ws) : zs = ws := by
  have hmem {s : Side} {x : α} {zs : List (Side × α)} (h : x ∈ entriesOf s zs) : (s, x) ∈ zs := by
    obtain ⟨⟨t, y⟩, hmem, rfl⟩ := List.mem_map.mp h
    obtain ⟨hmem, ht⟩ := List.mem_filter.mp hmem
    simp only [decide_eq_true_eq] at ht
    exact ht ▸ hmem
  induction zs generalizing ws with
  | nil =>
    cases ws with
    | nil => rfl
    | cons w ws =>
      have := hside w.1
      simp [entriesOf] at this
  | cons z zs ih =>
    obtain ⟨s, x⟩ := z
    cases ws with
    | nil =>
      have := hside s
      simp [entriesOf] at this
    | cons w ws =>
      obtain ⟨t, y⟩ := w
      have hs := hside s
      have ht := hside t
      rw [List.pairwise_cons] at hz hw
      by_cases hst : s = t
      · subst hst
        simp only [entriesOf, decide_true, List.filter_cons_of_pos, List.map_cons, List.cons.injEq]
          at hs
        obtain rfl := hs.1
        rw [ih hz.2 hw.2 fun u => ?_]
        have hu := hside u
        by_cases he : s = u
        · simpa [entriesOf, he] using hu
        · simpa [entriesOf, he] using hu
      · -- Each of the two heads stands further back in the other list.
        have hy : (t, y) ∈ zs := by
          have : y ∈ entriesOf t ((s, x) :: zs) := by
            rw [ht]
            simp [entriesOf]
          simpa [Ne.symm hst] using hmem this
        have hx : (s, x) ∈ ws := by
          have : x ∈ entriesOf s ((t, y) :: ws) := by
            rw [← hs]
            simp [entriesOf]
          simpa [hst] using hmem this
        have h₁ := hz.1 _ hy
        have h₂ := hw.1 _ hx
        cases s <;> cases t <;> simp only [Before] at h₁ h₂ <;> first | omega | exact absurd rfl hst

theorem entriesOf_cons (z : Side × α) :
    entriesOf s (z :: zs) = (if z.1 = s then [z.2] else []) ++ entriesOf s zs := by
  by_cases h : z.1 = s <;> simp [entriesOf, h]

theorem entriesOf_eq_nil (h : ∀ z ∈ zs, z.1 ≠ s) : entriesOf s zs = [] := by
  simpa [entriesOf, List.filter_eq_nil_iff] using h

theorem entriesOf_merge (le : Side × α → Side × α → Bool) {u : Side} (hst : s ≠ t)
    (hz : ∀ z ∈ zs, z.1 = s) (hw : ∀ w ∈ ws, w.1 = t) :
    entriesOf u (List.merge zs ws le) = entriesOf u zs ++ entriesOf u ws := by
  induction zs generalizing ws with
  | nil => simp [entriesOf]
  | cons z zs ihz =>
    have hz' : ∀ z ∈ zs, z.1 = s := fun x hx => hz x (by simp [hx])
    induction ws with
    | nil => simp [entriesOf]
    | cons w ws ihw =>
      have hw' : ∀ w ∈ ws, w.1 = t := fun x hx => hw x (by simp [hx])
      rw [List.cons_merge_cons]
      split
      · rw [entriesOf_cons, ihz hz' hw, entriesOf_cons z, List.append_assoc]
      · rw [entriesOf_cons, ihw hw', entriesOf_cons w]
        by_cases hu : w.1 = u
        · have hnil : entriesOf u (z :: zs) = [] := by
            apply entriesOf_eq_nil
            intro x hx he
            rw [hz x hx, ← hu, hw w (by simp)] at he
            exact hst he
          simp [hnil]
        · simp [hu]

/-- What holds from the head that is chosen to all that follow holds throughout a merge. The lists are in
the order `S`. -/
theorem pairwise_merge_of {β : Type} {le : β → β → Bool} {R S : β → β → Prop} {us vs : List β}
    (hu : us.Pairwise R) (hv : vs.Pairwise R) (hus : us.Pairwise S) (hvs : vs.Pairwise S)
    (hle : ∀ u ∈ us, ∀ v ∈ vs, le u v = true → R u v ∧ ∀ w ∈ vs, S v w → R u w)
    (hnle : ∀ u ∈ us, ∀ v ∈ vs, le u v = false → R v u ∧ ∀ w ∈ us, S u w → R v w) :
    (List.merge us vs le).Pairwise R := by
  induction us generalizing vs with
  | nil => simpa using hv
  | cons u us ihu =>
    rw [List.pairwise_cons] at hu hus
    induction vs with
    | nil => simpa using hu
    | cons v vs ihv =>
      rw [List.pairwise_cons] at hv hvs
      rw [List.cons_merge_cons]
      split
      · rename_i h
        obtain ⟨h₁, h₂⟩ := hle u (by simp) v (by simp) h
        have hrest := ihu hu.2 (List.pairwise_cons.mpr hv) hus.2 (List.pairwise_cons.mpr hvs)
          (fun x hx => hle x (by simp [hx])) fun x hx y hy hxy =>
            ⟨(hnle x (by simp [hx]) y hy hxy).1,
              fun w hw => (hnle x (by simp [hx]) y hy hxy).2 w (by simp [hw])⟩
        refine List.pairwise_cons.mpr ⟨fun w hw => ?_, hrest⟩
        rcases List.mem_merge.mp hw with hw | hw
        · exact hu.1 w hw
        · rcases List.mem_cons.mp hw with rfl | hw
          · exact h₁
          · exact h₂ w (by simp [hw]) (hvs.1 w hw)
      · rename_i h
        obtain ⟨h₁, h₂⟩ := hnle u (by simp) v (by simp) (by simpa using h)
        have hrest := ihv hv.2 hvs.2
          (fun x hx y hy hxy => ⟨(hle x hx y (by simp [hy]) hxy).1,
            fun w hw => (hle x hx y (by simp [hy]) hxy).2 w (by simp [hw])⟩)
          fun x hx y hy => hnle x hx y (by simp [hy])
        refine List.pairwise_cons.mpr ⟨fun w hw => ?_, hrest⟩
        rcases List.mem_merge.mp hw with hw | hw
        · rcases List.mem_cons.mp hw with rfl | hw
          · exact h₁
          · exact h₂ w (by simp [hw]) (hus.1 w hw)
        · exact hv.1 w hw

/-- In the order of the keys. -/
def Ascending (key : α → Int) (xs : List α) : Prop := xs.Pairwise fun x y => key x ≤ key y

theorem mem_mark {z : Side × α} (h : z ∈ mark s xs) : ∃ x ∈ xs, z = (s, x) := by
  obtain ⟨x, hx, rfl⟩ := List.mem_map.mp h
  exact ⟨x, hx, rfl⟩

theorem pairwise_before_mark : (mark s xs).Pairwise (Before key) := by
  rw [mark, List.pairwise_map]
  apply List.pairwise_of_forall
  intro x y
  cases s <;> trivial

theorem not_lt_iff (hlt : ComparesBy lt P key) {x y : α} (hx : P x) (hy : P y) :
    (!lt y x) = true ↔ key x ≤ key y := by
  rw [Bool.not_eq_true', Bool.eq_false_iff, Ne, hlt y x hy hx]
  omega

theorem pairwise_mergeUp (hlt : ComparesBy lt P key) (hx : ∀ x ∈ xs, P x) (hy : ∀ y ∈ ys, P y)
    (hxs : Ascending key xs) (hys : Ascending key ys) :
    (mergeUp lt xs ys).Pairwise (Before key) := by
  have hxs' : (mark .left xs).Pairwise fun z w => key z.2 ≤ key w.2 := List.pairwise_map.mpr hxs
  have hys' : (mark .right ys).Pairwise fun z w => key z.2 ≤ key w.2 := List.pairwise_map.mpr hys
  refine pairwise_merge_of pairwise_before_mark pairwise_before_mark hxs' hys' ?_ ?_
  · intro u hu v hv hle
    obtain ⟨x, hxm, rfl⟩ := mem_mark hu
    obtain ⟨y, hym, rfl⟩ := mem_mark hv
    have hxy := (not_lt_iff hlt (hx x hxm) (hy y hym)).mp hle
    refine ⟨hxy, fun w hw hyw => ?_⟩
    obtain ⟨y', -, rfl⟩ := mem_mark hw
    exact Int.le_trans hxy hyw
  · intro u hu v hv hle
    obtain ⟨x, hxm, rfl⟩ := mem_mark hu
    obtain ⟨y, hym, rfl⟩ := mem_mark hv
    have hyx : key y < key x := (hlt y x (hy y hym) (hx x hxm)).mp (by simpa using hle)
    refine ⟨hyx, fun w hw hxw => ?_⟩
    obtain ⟨x', -, rfl⟩ := mem_mark hw
    exact Int.lt_of_lt_of_le hyx hxw

theorem pairwise_mergeDown (hlt : ComparesBy lt P key) (hx : ∀ x ∈ xs, P x) (hy : ∀ y ∈ ys, P y)
    (hxs : Ascending key xs) (hys : Ascending key ys) :
    (mergeDown lt xs ys).Pairwise (Before key) := by
  have hxs' : (mark .left xs).reverse.Pairwise fun z w => key w.2 ≤ key z.2 :=
    List.pairwise_reverse.mpr (List.pairwise_map.mpr hxs)
  have hys' : (mark .right ys).reverse.Pairwise fun z w => key w.2 ≤ key z.2 :=
    List.pairwise_reverse.mpr (List.pairwise_map.mpr hys)
  rw [mergeDown, List.pairwise_reverse]
  refine pairwise_merge_of (List.pairwise_reverse.mpr pairwise_before_mark)
    (List.pairwise_reverse.mpr pairwise_before_mark) hys' hxs' ?_ ?_
  · intro v hv u hu hle
    obtain ⟨x, hxm, rfl⟩ := mem_mark (List.mem_reverse.mp hu)
    obtain ⟨y, hym, rfl⟩ := mem_mark (List.mem_reverse.mp hv)
    have hxy := (not_lt_iff hlt (hx x hxm) (hy y hym)).mp hle
    refine ⟨hxy, fun w hw hxw => ?_⟩
    obtain ⟨x', -, rfl⟩ := mem_mark (List.mem_reverse.mp hw)
    exact Int.le_trans hxw hxy
  · intro v hv u hu hle
    obtain ⟨x, hxm, rfl⟩ := mem_mark (List.mem_reverse.mp hu)
    obtain ⟨y, hym, rfl⟩ := mem_mark (List.mem_reverse.mp hv)
    have hyx : key y < key x := (hlt y x (hy y hym) (hx x hxm)).mp (by simpa using hle)
    refine ⟨hyx, fun w hw hyw => ?_⟩
    obtain ⟨y', -, rfl⟩ := mem_mark (List.mem_reverse.mp hw)
    exact Int.lt_of_le_of_lt hyw hyx

theorem side_mark : ∀ z ∈ mark s xs, z.1 = s := by
  intro z hz
  obtain ⟨x, -, rfl⟩ := mem_mark hz
  rfl

theorem side_mark_reverse : ∀ z ∈ (mark s xs).reverse, z.1 = s :=
  fun z hz => side_mark z (List.mem_reverse.mp hz)

theorem entriesOf_mergeUp : ∀ s, entriesOf s (mergeUp lt xs ys) = match s with
    | .left => xs
    | .right => ys := by
  intro s
  rw [mergeUp, entriesOf_merge _ (by simp) (side_mark (s := .left)) (side_mark (s := .right))]
  cases s <;> simp [entriesOf_mark, entriesOf_mark_of_ne]

theorem entriesOf_mergeDown : ∀ s, entriesOf s (mergeDown lt xs ys) = match s with
    | .left => xs
    | .right => ys := by
  intro s
  rw [mergeDown, entriesOf_reverse, entriesOf_merge _ (by simp) (side_mark_reverse (s := .right))
    (side_mark_reverse (s := .left))]
  cases s <;> simp [entriesOf_reverse, entriesOf_mark, entriesOf_mark_of_ne]

theorem mergeUp_eq_mergeDown (hlt : ComparesBy lt P key) (hx : ∀ x ∈ xs, P x) (hy : ∀ y ∈ ys, P y)
    (hxs : Ascending key xs) (hys : Ascending key ys) : mergeUp lt xs ys = mergeDown lt xs ys := by
  refine eq_of_before (pairwise_mergeUp hlt hx hy hxs hys) (pairwise_mergeDown hlt hx hy hxs hys) ?_
  intro s
  rw [entriesOf_mergeUp, entriesOf_mergeDown]

theorem length_mergeUp : (mergeUp lt xs ys).length = xs.length + ys.length := by
  simp [mergeUp, mark]

/-- No entry of sorted lists is taken from both ends. -/
theorem exists_mergeBothEnds (hlt : ComparesBy lt P key) (hx : ∀ x ∈ xs, P x) (hy : ∀ y ∈ ys, P y)
    (hxs : Ascending key xs) (hys : Ascending key ys) : ∃ zs, mergeBothEnds lt xs ys = some zs := by
  have hlen : (mergeUp lt xs ys).length = xs.length + ys.length := length_mergeUp
  have hcount (s : Side) (i k : Nat) (hik : i ≤ k) : countFrom s ((mergeUp lt xs ys).take i) +
      countFrom s ((mergeUp lt xs ys).drop k) ≤ countFrom s (mergeUp lt xs ys) := by
    have hsplit : countFrom s ((mergeUp lt xs ys).take i) + countFrom s ((mergeUp lt xs ys).drop i) =
        countFrom s (mergeUp lt xs ys) := by
      rw [countFrom, countFrom, ← List.countP_append, List.take_append_drop, countFrom]
    have hdrop : countFrom s ((mergeUp lt xs ys).drop k) ≤ countFrom s ((mergeUp lt xs ys).drop i) :=
      (List.drop_sublist_drop_left _ hik).countP_le
    omega
  have hleft : countFrom .left (mergeUp lt xs ys) = xs.length := by
    rw [← length_entriesOf, entriesOf_mergeUp]
  have hright : countFrom .right (mergeUp lt xs ys) = ys.length := by
    rw [← length_entriesOf, entriesOf_mergeUp]
  have hhalf : (xs.length + ys.length) / 2 ≤
      xs.length + ys.length - (xs.length + ys.length) / 2 := by omega
  have h₁ := hcount .left _ _ hhalf
  have h₂ := hcount .right _ _ hhalf
  rw [hleft] at h₁
  rw [hright] at h₂
  simp only [mergeBothEnds, ← mergeUp_eq_mergeDown hlt hx hy hxs hys, h₁, h₂, and_self, if_true]
  exact ⟨_, rfl⟩

/-- What the two ends of a list leave in the middle completes it. -/
theorem take_append_middle_append_drop (xs : List α) {i k : Nat} (h : i + k ≤ xs.length) :
    xs.take i ++ (xs.drop i).take (xs.length - (i + k)) ++ xs.drop (xs.length - k) = xs := by
  have hk : xs.drop (xs.length - k) = (xs.drop i).drop (xs.length - (i + k)) := by
    rw [List.drop_drop]
    congr 1
    omega
  rw [hk, List.append_assoc, List.take_append_drop, List.take_append_drop]

theorem entriesOf_take (s : Side) (n : Nat) (zs : List (Side × α)) :
    entriesOf s (zs.take n) = (entriesOf s zs).take (countFrom s (zs.take n)) := by
  have h : entriesOf s (zs.take n) ++ entriesOf s (zs.drop n) = entriesOf s zs := by
    rw [← entriesOf_append, List.take_append_drop]
  rw [← h, ← length_entriesOf, List.take_left]

theorem entriesOf_drop (s : Side) (n : Nat) (zs : List (Side × α)) : entriesOf s (zs.drop n) =
    (entriesOf s zs).drop ((entriesOf s zs).length - countFrom s (zs.drop n)) := by
  have h : entriesOf s (zs.take n) ++ entriesOf s (zs.drop n) = entriesOf s zs := by
    rw [← entriesOf_append, List.take_append_drop]
  rw [← h, ← length_entriesOf, List.length_append, Nat.add_sub_cancel, List.drop_left]

theorem perm_of_mergeBothEnds {vs : List α} (h : mergeBothEnds lt xs ys = some vs) :
    vs.Perm (xs ++ ys) := by
  classical
  simp only [mergeBothEnds] at h
  split at h
  · rename_i hle
    obtain rfl := Option.some.inj h
    have hl := take_append_middle_append_drop xs hle.1
    have hr := take_append_middle_append_drop ys hle.2
    have hfront := perm_entriesOf ((mergeUp lt xs ys).take ((xs.length + ys.length) / 2))
    have hback := perm_entriesOf ((mergeDown lt xs ys).drop
      (xs.length + ys.length - (xs.length + ys.length) / 2))
    rw [entriesOf_take, entriesOf_take, entriesOf_mergeUp, entriesOf_mergeUp] at hfront
    rw [entriesOf_drop, entriesOf_drop, entriesOf_mergeDown, entriesOf_mergeDown] at hback
    rw [List.perm_iff_count]
    intro a
    have h₁ := congrArg (List.count a) hl
    have h₂ := congrArg (List.count a) hr
    have h₃ := hfront.count_eq a
    have h₄ := hback.count_eq a
    simp only [List.count_append, untaken] at h₁ h₂ h₃ h₄ ⊢
    omega
  · simp at h

end Sorting
end HexGame
