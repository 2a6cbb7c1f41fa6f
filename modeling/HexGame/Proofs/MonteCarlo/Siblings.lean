import HexGame.Proofs.MonteCarlo.Accounting

/-!
# Siblings take turns

A child that has not been visited is more urgent than one that has, so a visit goes to the first child without
visits as long as there is one (`SelectsUnvisited`). Hence no child is visited twice before each of its siblings
has been visited (`Even`), also where the first visit of a child is that of its parent's expansion. All this
rests on the urgency of visited children: none may be infinite (`Outranked`).
-/
namespace HexGame

namespace FloatRank

open Float.Model Float.Model.UnpackedFloat

variable {v w : Float}

theorem not_won_lt (v : Float) : GameValue.lt GameValue.won v = false := by
  rw [Bool.eq_false_iff]
  intro h
  have hnumber : v.isNaN = false := (isNaN_of_lt (of_decide_eq_true h)).2
  exact absurd ((floatRanking.lt_iff floatRanking.won hnumber).mp h)
    (Int.not_lt.mpr (floatRanking.rank_le_won hnumber))

theorem lt_won (hnumber : v.isNaN = false) (h : (v == GameValue.won) = false) :
    GameValue.lt v GameValue.won = true := by
  apply (floatRanking.lt_iff hnumber floatRanking.won).mpr
  apply lt_of_le_of_ne (floatRanking.rank_le_won hnumber)
  intro heq
  rw [(beq_iff hnumber floatRanking.won).mpr heq] at h
  cases h

/-! A product with zero is zero or no number. A finite number to which it is added does not become infinite. -/

theorem not_beq_won (h : v.isInf = false) : (v == GameValue.won) = false := by
  rw [Bool.eq_false_iff]
  intro hbeq
  cases hnumber : v.isNaN with
  | false =>
    have heq : v = GameValue.won := eq_of_rank unpack_won ((beq_iff hnumber floatRanking.won).mp hbeq)
    rw [isInf_iff.mpr (.inl heq)] at h
    cases h
  | true =>
    have hunpack : v.toModel.unpack = .notANumber := by
      have hnan : v.toModel.unpack.isNaN = true := hnumber
      cases hv : v.toModel.unpack <;> simp [hv, UnpackedFloat.isNaN] at hnan ⊢
    have hcompare : (v.toModel.unpack.compare (GameValue.won : Float).toModel.unpack == some .eq) = true := hbeq
    rw [hunpack] at hcompare
    cases hcompare

theorem unpack_zero_mul (w : Float) :
    (0 * w).toModel.unpack = .notANumber ∨ ∃ s, (0 * w).toModel.unpack = .zero s := by
  have hmul : (0 * w).toModel.unpack = unpack Format.binary64 (UnpackedFloat.pack Format.binary64
      (mul Format.binary64 (.zero .positive) w.toModel.unpack)) := rfl
  have hzero (s : Sign) : unpack Format.binary64 (UnpackedFloat.pack Format.binary64 (.zero s)) = .zero s := by
    cases s <;> rfl
  have hproduct : mul Format.binary64 (.zero .positive) w.toModel.unpack = .notANumber ∨
      ∃ s, mul Format.binary64 (.zero .positive) w.toModel.unpack = .zero s := by
    cases w.toModel.unpack with
    | notANumber => exact .inl rfl
    | infinity s => exact .inl rfl
    | zero s => exact .inr ⟨_, rfl⟩
    | finite s m e hm => exact .inr ⟨_, rfl⟩
  rw [hmul]
  rcases hproduct with h | ⟨s, h⟩
  · rw [h]
    exact .inl unpack_packedNaN
  · rw [h]
    exact .inr ⟨s, hzero s⟩

theorem isInf_add (hv : v.isFinite = true) (hw : w.toModel.unpack = .notANumber ∨ ∃ s, w.toModel.unpack = .zero s) :
    (v + w).isInf = false := by
  have hfinite : v.toModel.unpack.isFinite = true := hv
  have hround : unpack Format.binary64 (UnpackedFloat.pack Format.binary64 v.toModel.unpack) = v.toModel.unpack :=
    congrArg (unpack Format.binary64) (pack_unpack_of_valid v.toModel.valid)
  show (unpack Format.binary64 (UnpackedFloat.pack Format.binary64
    (add Format.binary64 v.toModel.unpack w.toModel.unpack))).isInf = false
  rcases hw with hw | ⟨s, hw⟩
  · have hadd : add Format.binary64 v.toModel.unpack .notANumber = .notANumber := by
      cases v.toModel.unpack <;> rfl
    rw [hw, hadd]
    rfl
  · rw [hw]
    cases hv : v.toModel.unpack with
    | notANumber => simp [hv, UnpackedFloat.isFinite] at hfinite
    | infinity s' => simp [hv, UnpackedFloat.isFinite] at hfinite
    | zero s' => cases s <;> cases s' <;> rfl
    | finite s' m e hm =>
      rw [hv] at hround
      show (unpack Format.binary64 (UnpackedFloat.pack Format.binary64 (.finite s' m e hm))).isInf = false
      rw [hround]
      rfl

end FloatRank

namespace MonteCarlo

open FloatRank

variable {V : Type} {t : SearchTree V} {ts : List (SearchTree V)} {i k n : Nat}

/-! ## The choice of a child -/

theorem firstLargest_of_won {best : Nat} (vs : List Float) : firstLargest k best GameValue.won vs = best := by
  induction vs generalizing k with
  | nil => rfl
  | cons v vs ih =>
    rw [firstLargest, not_won_lt, if_neg Bool.false_ne_true]
    exact ih

/-- The first infinite value is found, whatever stands behind it and whatever is no number before it. -/
theorem firstLargest_eq {best : Nat} {value : Float} {vs : List Float}
    (hvalue : GameValue.lt value GameValue.won = true) (hi : vs[i]? = some GameValue.won)
    (hbefore : ∀ j < i, ∀ v, vs[j]? = some v → (v == GameValue.won) = false) :
    firstLargest k best value vs = k + i := by
  induction vs generalizing i k best value with
  | nil => simp at hi
  | cons v vs ih =>
    cases i with
    | zero =>
      obtain rfl := Option.some.inj hi
      rw [firstLargest, if_pos hvalue]
      exact firstLargest_of_won vs
    | succ i =>
      have hrest (best : Nat) (value : Float) (hvalue : GameValue.lt value GameValue.won = true) :
          firstLargest (k + 1) best value vs = k + (i + 1) := by
        rw [ih hvalue hi fun j hj v hv => hbefore (j + 1) (by omega) v hv]
        omega
      rw [firstLargest]
      split
      · rename_i hlt
        have hv := hbefore 0 (by omega) v rfl
        exact hrest _ _ (lt_won (isNaN_of_lt (of_decide_eq_true hlt)).2 hv)
      · exact hrest _ _ hvalue

/-- No visited child is as urgent as one without visits. -/
def Outranked (exploration : Float) (t : SearchTree Float) : Prop :=
  ∀ u ∈ t.children, u.value.visits ≠ 0 →
    (urgency exploration t.value.visits u.value == GameValue.won) = false

theorem urgency_zero_ne_won {s : Statistic Float} (hvisits : s.visits ≠ 0) (hmean : s.mean.isFinite = true)
    (n : Nat) : (urgency 0 n s == GameValue.won) = false := by
  rw [urgency, if_neg hvisits]
  exact FloatRank.not_beq_won (FloatRank.isInf_add hmean (FloatRank.unpack_zero_mul _))

theorem everywhere_outranked {exploration : Float} {t : SearchTree Float} (h : Outranked exploration t)
    (hleaves : ∀ u ∈ t.children, u.children = []) : t.Everywhere (Outranked exploration) := by
  obtain ⟨s, ts⟩ := t
  refine .node h fun u hu => ?_
  obtain ⟨s', ts'⟩ := u
  obtain rfl : ts' = [] := hleaves _ hu
  exact .node (by simp [Outranked]) (by simp)

/-- As long as some child is without visits, the first of these is selected. -/
def SelectsUnvisited (select : Selection V) (t : SearchTree V) : Prop :=
  (∃ u ∈ t.children, u.value.visits = 0) →
    ∃ u : SearchTree V, t.children[select t.value.visits t.children]? = some u ∧ u.value.visits = 0 ∧
      ∀ j < select t.value.visits t.children, ∀ v : SearchTree V, t.children[j]? = some v → v.value.visits ≠ 0

theorem exists_first (h : ∃ u ∈ ts, u.value.visits = 0) :
    ∃ (i : Nat) (u : SearchTree V), ts[i]? = some u ∧ u.value.visits = 0 ∧
      ∀ j < i, ∀ v : SearchTree V, ts[j]? = some v → v.value.visits ≠ 0 := by
  have hlt : ts.findIdx (·.value.visits = 0) < ts.length := by
    apply List.findIdx_lt_length_of_exists
    simpa using h
  refine ⟨_, _, List.getElem?_eq_getElem hlt, by simpa using List.findIdx_getElem (w := hlt), ?_⟩
  intro j hj v hv
  obtain ⟨hlength, rfl⟩ := List.getElem?_eq_some_iff.mp hv
  simpa using List.not_of_lt_findIdx hj

theorem selectsUnvisited {exploration : Float} {t : SearchTree Float} (h : Outranked exploration t) :
    SelectsUnvisited (mostUrgent exploration) t := by
  intro hsome
  obtain ⟨i, u, hu, hzero, hbefore⟩ := exists_first hsome
  have hselect : mostUrgent exploration t.value.visits t.children = i := by
    rw [← Nat.zero_add i]
    apply firstLargest_eq
    · exact (floatRanking.lt_iff floatRanking.lost floatRanking.won).mpr floatRanking.rank_lost_lt_won
    · rw [List.getElem?_map, hu, Option.map_some, urgency, if_pos hzero]
    · intro j hj v hv
      rw [List.getElem?_map] at hv
      obtain ⟨w, hw, rfl⟩ := Option.map_eq_some_iff.mp hv
      exact h w (List.mem_of_getElem? hw) (hbefore j hj w hw)
  rw [hselect]
  exact ⟨u, hu, hzero, hbefore⟩

/-! ## Visits -/

/-- Each child has been visited, or none more than once. -/
def Even (t : SearchTree V) : Prop :=
  (∀ u ∈ t.children, 1 ≤ u.value.visits) ∨ ∀ u ∈ t.children, u.value.visits ≤ 1

variable [MeanValue V] {G : Type} [ChoiceSource G] {c : Config V} {select : Selection V} {score : V}
variable {g g' : G} {t' : SearchTree V}

omit [MeanValue V] in
theorem even_leaf (s : Statistic V) : (Tree.leaf s).Everywhere Even :=
  .node (.inl (by simp)) (by simp)

omit [MeanValue V] in
theorem even_set {s s' : Statistic V} {u u' : SearchTree V} (h : Even (.node s ts))
    (hfirst : (∃ v ∈ ts, v.value.visits = 0) → u.value.visits = 0)
    (hvisits : u'.value.visits = u.value.visits + 1) : Even (.node s' (ts.set i u')) := by
  by_cases hsome : ∃ v ∈ ts, v.value.visits = 0
  · right
    obtain ⟨w, hw, hzero⟩ := hsome
    have hle : ∀ v ∈ ts, v.value.visits ≤ 1 := by
      apply h.resolve_left
      intro hall
      have := hall w hw
      omega
    have hu := hfirst ⟨w, hw, hzero⟩
    exact forall_mem_set hle (by omega)
  · left
    exact forall_mem_set (fun v hv => Nat.pos_of_ne_zero fun hzero => hsome ⟨v, hv, hzero⟩) (by omega)

/-- New children have had no visits, but for the one that was picked with their parent's. -/
theorem even_of_expanded {s u : Statistic V} {b : Board} (hu : u.visits = 1) :
    (Tree.node s ((childrenOf b).set i (.leaf u))).Everywhere Even := by
  have hvisits : ∀ v ∈ (childrenOf b).set i (.leaf u), v.value.visits ≤ 1 :=
    forall_mem_set (forall_mem_childrenOf fun _ _ => Nat.zero_le 1) hu.le
  exact .node (.inr hvisits) (forall_mem_set (forall_mem_childrenOf fun _ _ => even_leaf _) (even_leaf u))

theorem iterate_even (ht : t.Everywhere Even) (hselect : t.Everywhere (SelectsUnvisited select))
    (h : iterate c select g t = .ok (score, t', g')) : t'.Everywhere Even := by
  induction t using Tree.node_induction generalizing g score t' g' with
  | node s ts ih =>
    by_cases hne : ts = []
    · subst hne
      rw [iterate] at h
      cases visited_of_visitLeaf h with
      | leaf _ _ _ => exact even_leaf _
      | expanded _ _ _ _ hu _ => exact even_of_expanded (record_eq_ok hu).2
      | child hi _ _ => simp at hi
    · obtain ⟨u, u', below, s', hu, hrun, hs, rfl, rfl⟩ := iterate_eq_ok_of_ne_nil hne h
      have hmem := List.mem_of_getElem? hu
      have hvisits := (visited_of_iterate hrun).value.2
      have hu' := ih u hmem (ht.children u hmem) (hselect.children u hmem) hrun
      refine .node (even_set (u := u) ht.here (fun hsome => ?_) hvisits) (forall_mem_set ht.children hu')
      obtain ⟨w, hw, hzero, -⟩ := hselect.here hsome
      exact Option.some.inj (hu.symm.trans hw) ▸ hzero

/-! ## Searches -/

namespace Search

variable {G : Type} [ChoiceSource G] {s s' : Search G} {c : Config Float} {b : Board} {g : G} {n : Nat}

theorem iterate_even (hs : s.root.Everywhere Even) (hurgency : s.root.Everywhere (Outranked s.config.exploration))
    (h : s.iterate = .ok s') : s'.root.Everywhere Even := by
  obtain ⟨⟨score, root, source⟩, hrun, h⟩ := bind_eq_ok.mp h
  obtain rfl := Except.ok.inj h
  exact MonteCarlo.iterate_even hs (hurgency.imp fun _ => selectsUnvisited) hrun

theorem iterateTimes_even (hs : s.root.Everywhere Even)
    (hurgency : ∀ k < n, ∀ s₁, s.iterateTimes k = .ok s₁ → s₁.root.Everywhere (Outranked s.config.exploration))
    (h : s.iterateTimes n = .ok s') : s'.root.Everywhere Even := by
  induction n generalizing s with
  | zero =>
    obtain rfl := Except.ok.inj h
    exact hs
  | succ n ih =>
    obtain ⟨s₁, hstep, hrest⟩ := bind_eq_ok.mp h
    have hfirst := iterate_even hs (hurgency 0 (Nat.succ_pos n) s rfl) hstep
    refine ih hfirst (fun k hk s₂ hrun => ?_) hrest
    rw [(iterate_eq_ok hstep).1]
    exact hurgency (k + 1) (Nat.succ_lt_succ hk) s₂ (bind_eq_ok.mpr ⟨s₁, hstep, hrun⟩)

/-- In a tree that grows from a root without visits, at each node every child has been visited or none more than
once, and while some child has not been visited, a visit goes to the first such child. This takes for granted
that no visited child is ever as urgent as one without visits. -/
theorem siblings_take_turns (hrun : (start b c g).iterateTimes n = .ok s)
    (hurgency : ∀ k ≤ n, ∀ s₁, (start b c g).iterateTimes k = .ok s₁ →
      s₁.root.Everywhere (Outranked c.exploration)) :
    ∀ path t, s.root.subtree? path = some t →
      ((∀ u ∈ t.children, 1 ≤ u.value.visits) ∨ ∀ u ∈ t.children, u.value.visits ≤ 1) ∧
      ((∃ u ∈ t.children, u.value.visits = 0) →
        ∃ u : SearchTree Float, t.children[mostUrgent c.exploration t.value.visits t.children]? = some u ∧
          u.value.visits = 0 ∧ ∀ j < mostUrgent c.exploration t.value.visits t.children,
            ∀ v : SearchTree Float, t.children[j]? = some v → v.value.visits ≠ 0) := by
  intro path t ht
  have heven : s.root.Everywhere Even :=
    iterateTimes_even (even_leaf _) (fun k hk => hurgency k (Nat.le_of_lt hk)) hrun
  have hnode := ((hurgency n (Nat.le_refl n) s hrun).subtree ht).here
  exact ⟨(heven.subtree ht).here, selectsUnvisited hnode⟩

/-- Visits go by the means of children alone, and leaves are expanded at once. -/
def greedy : Config Float := { Config.default with exploration := 0, expandThreshold := 0 }

/-- The first visit of a board of four cells expands it, and the second one will go to a child without
visits. -/
theorem siblings_take_turns_fourCells :
    ∃ s : Search Generator, (start (.blank 2 .red two_le_maxSize) greedy (.ofSeed 1)).iterateTimes 1 = .ok s ∧
      s.root.children.map (·.value.visits) = [0, 0, 1, 0] ∧
      s.root.Everywhere (Outranked greedy.exploration) ∧ (∀ u ∈ s.root.children, u.value.visits ≤ 1) ∧
      ∃ u : SearchTree Float,
        s.root.children[mostUrgent greedy.exploration s.root.value.visits s.root.children]? = some u ∧
          u.value.visits = 0 := by
  let s₀ : Search Generator := start (.blank 2 .red two_le_maxSize) greedy (.ofSeed 1)
  have hcheck : (s₀.iterateTimes 1).toOption.any (fun s =>
      s.root.children.map (·.value.visits) = [0, 0, 1, 0] ∧
        ∀ u ∈ s.root.children, u.children.isEmpty ∧ u.value.mean.isFinite) = true := by
    decide +kernel
  rcases hrun : s₀.iterateTimes 1 with _ | s
  · rw [hrun] at hcheck
    cases hcheck
  rw [hrun] at hcheck
  obtain ⟨hvisits, hchildren⟩ := of_decide_eq_true hcheck
  have hurgency : s.root.Everywhere (Outranked greedy.exploration) := by
    apply everywhere_outranked
    · exact fun u hu hne => urgency_zero_ne_won hne (hchildren u hu).2 _
    · exact fun u hu => List.isEmpty_iff.mp (hchildren u hu).1
  have hnode := siblings_take_turns hrun (fun k hk s₁ hs₁ => by
    obtain rfl | rfl : k = 0 ∨ k = 1 := by omega
    · obtain rfl := Except.ok.inj hs₁
      exact everywhere_outranked (by simp [Outranked, start, ofTree]) (by simp [start, ofTree])
    · exact Except.ok.inj (hrun.symm.trans hs₁) ▸ hurgency) [] s.root rfl
  have hzero : ∃ u ∈ s.root.children, u.value.visits = 0 :=
    List.mem_map.mp (hvisits ▸ List.mem_cons_self)
  obtain ⟨u, hu, hunvisited, -⟩ := hnode.2 hzero
  refine ⟨s, rfl, hvisits, hurgency, hnode.1.resolve_left fun hall => ?_, u, hu, hunvisited⟩
  obtain ⟨v, hv, hzero⟩ := hzero
  exact absurd (hall v hv) (by omega)

end Search

end MonteCarlo
end HexGame
