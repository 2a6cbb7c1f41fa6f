import HexGame.Proofs.Sorting.Short
import HexGame.Sorting.Adaptive

/-!
# Sorting keeps all entries

Whatever the comparison is, a sort that finds a sequence keeps all entries (`perm_of_sort`). If the comparison
goes by a key, there is always one (`exists_sort`). Only the merging of short lists could fail; runs and pivots
divide a list and put it together again.
-/
namespace HexGame
namespace Sorting

variable {α : Type} {key : α → Int} {lt : α → α → Bool} {P : α → Prop} {total : Prop} {xs ys : List α}

theorem perm_merge (lt : α → α → Bool) (xs ys : List α) : (merge lt xs ys).Perm (xs ++ ys) := by
  unfold merge
  split
  · simpa only [entriesOf_mergeUp] using perm_entriesOf (mergeUp lt xs ys)
  · simpa only [entriesOf_mergeDown] using perm_entriesOf (mergeDown lt xs ys)

/-! ## Runs -/

/-- The entries of some runs, in their order. -/
def allEntries (runs : List (Run α)) : List α := runs.flatMap (·.entries)

theorem take_length_take (n : Nat) (xs : List α) : xs.take (xs.take n).length = xs.take n := by
  rw [List.length_take, List.take_eq_take_iff]
  omega

theorem perm_leadingRun (lt : α → α → Bool) (xs : List α) :
    (leadingRun lt xs).Perm (xs.take (leadingRun lt xs).length) := by
  match xs with
  | [] => exact .refl _
  | [x] => exact .refl _
  | x :: y :: xs =>
    rw [leadingRun]
    split
    · rw [List.length_reverse, List.length_cons, List.take_succ_cons, take_length_take]
      exact List.reverse_perm _
    · rw [List.length_cons, List.take_succ_cons, take_length_take]

theorem leadingRun_ne_nil (lt : α → α → Bool) (x : α) (xs : List α) :
    leadingRun lt (x :: xs) ≠ [] := by
  match xs with
  | [] => simp [leadingRun]
  | y :: xs =>
    rw [leadingRun]
    split <;> simp

theorem perm_cutRuns (lt : α → α → Bool) (shortest piece : Nat) (xs : List α) :
    (allEntries (cutRuns lt shortest piece xs)).Perm xs := by
  fun_induction cutRuns lt shortest piece xs with
  | case1 => exact .refl _
  | case2 x xs run h ih =>
    have hrun : run.Perm (x :: xs.take (run.length - 1)) := by
      have hperm := perm_leadingRun lt (x :: xs)
      obtain ⟨n, hn⟩ := Nat.exists_eq_add_one.mpr (List.length_pos_iff.mpr (leadingRun_ne_nil lt x xs))
      rw [hn, List.take_succ_cons] at hperm
      rwa [show run.length = n + 1 from hn, Nat.add_sub_cancel]
    refine (hrun.append ih).trans ?_
    rw [List.cons_append, List.take_append_drop]
  | case3 x xs run h ih =>
    refine ((List.Perm.refl (x :: xs.take (piece - 1))).append ih).trans ?_
    rw [List.cons_append, List.take_append_drop]

/-- Two runs of entries with `P` keep their entries when they are joined. -/
def Joins (total : Prop) (P : α → Prop) (join : Run α → Run α → Option (Run α)) : Prop :=
  ∀ l r, (∀ x ∈ l.entries, P x) → (∀ x ∈ r.entries, P x) →
    Yields total (join l r) (·.entries.Perm (l.entries ++ r.entries))

theorem settle_spec {sort : List α → Option (List α)} (hsort : Permutes total P sort) (r : Run α)
    (hr : ∀ x ∈ r.entries, P x) : Yields total (r.settle sort) (·.entries.Perm r.entries) := by
  unfold Run.settle
  split
  · exact .some (.refl _)
  · rw [Option.map_eq_bind]
    exact (hsort r.entries hr).bind fun _ hperm => .some hperm

theorem joins_join (lt : α → α → Bool) {sort : List α → Option (List α)} (hsort : Permutes total P sort) :
    Joins total P (Run.join lt sort) := by
  intro l r hl hr
  unfold Run.join
  split
  · refine (settle_spec hsort l hl).bind fun l' hpl => (settle_spec hsort r hr).bind fun r' hpr => .some ?_
    exact (perm_merge lt _ _).trans (hpl.append hpr)
  · exact .some (.refl _)

/-- The entries of the runs that wait to be joined, the latest run first. -/
def waitingEntries (waiting : List (Run α × Nat)) : List α := waiting.flatMap (·.1.entries)

section Join

variable {join : Run α → Run α → Option (Run α)} {waiting : List (Run α × Nat)} {l r : Run α}

theorem waitingEntries_cons (h : Nat) :
    waitingEntries ((l, h) :: waiting) = l.entries ++ waitingEntries waiting := by
  simp [waitingEntries]

theorem allEntries_cons (runs : List (Run α)) : allEntries (r :: runs) = r.entries ++ allEntries runs := by
  simp [allEntries]

/-- A run is joined with the one in front of it, where `rest` is what waits before both. -/
theorem Joins.step (hjoin : Joins total P join) {rest : List α}
    (hP : ∀ x ∈ r.entries ++ (l.entries ++ rest), P x) :
    Yields total (join l r) fun s => (s.entries ++ rest).Perm (r.entries ++ (l.entries ++ rest)) := by
  refine (hjoin l r (fun x hx => hP x (by simp [hx])) fun x hx => hP x (by simp [hx])).imp fun s hperm => ?_
  refine (hperm.append_right rest).trans ?_
  rw [← List.append_assoc]
  exact List.perm_append_comm.append_right rest

theorem joinBelow_spec (hjoin : Joins total P join) (height : Nat)
    (hP : ∀ x ∈ r.entries ++ waitingEntries waiting, P x) :
    Yields total (joinBelow join height r waiting) fun joined =>
      (joined.1.entries ++ waitingEntries joined.2).Perm (r.entries ++ waitingEntries waiting) := by
  induction waiting generalizing r with
  | nil => exact .some (.refl _)
  | cons next waiting ih =>
    obtain ⟨l, h⟩ := next
    rw [waitingEntries_cons] at hP ⊢
    rw [joinBelow]
    split
    · refine (hjoin.step hP).bind fun s hperm => ?_
      exact (ih fun x hx => hP x (hperm.mem_iff.mp hx)).imp fun _ hperm' => hperm'.trans hperm
    · exact .some (by rw [waitingEntries_cons])

theorem joinWaiting_spec (hjoin : Joins total P join) (hP : ∀ x ∈ r.entries ++ waitingEntries waiting, P x) :
    Yields total (waiting.foldlM (fun r (l, _) => join l r) r)
      (·.entries.Perm (r.entries ++ waitingEntries waiting)) := by
  induction waiting generalizing r with
  | nil => exact .some (by simp [waitingEntries])
  | cons next waiting ih =>
    obtain ⟨l, h⟩ := next
    rw [waitingEntries_cons] at hP ⊢
    refine (hjoin.step hP).bind fun s hperm => ?_
    exact (ih fun x hx => hP x (hperm.mem_iff.mp hx)).imp fun _ hperm' => hperm'.trans hperm

theorem joinAll_spec (hjoin : Joins total P join) (n start : Nat) {runs : List (Run α)}
    (hP : ∀ x ∈ r.entries ++ waitingEntries waiting ++ allEntries runs, P x) :
    Yields total (joinAll join n start waiting r runs)
      (·.entries.Perm (r.entries ++ waitingEntries waiting ++ allEntries runs)) := by
  induction runs generalizing start waiting r with
  | nil =>
    rw [joinAll]
    simpa [allEntries] using joinWaiting_spec hjoin fun x hx => hP x (List.mem_append_left _ hx)
  | cons next runs ih =>
    rw [allEntries_cons] at hP ⊢
    rw [joinAll]
    refine (joinBelow_spec hjoin _ fun x hx => hP x (List.mem_append_left _ hx)).bind fun joined hperm => ?_
    -- the joined run waits in front of the next one
    have hnext : (next.entries ++ (joined.1.entries ++ waitingEntries joined.2) ++ allEntries runs).Perm
        (r.entries ++ waitingEntries waiting ++ (next.entries ++ allEntries runs)) := by
      rw [← List.append_assoc (r.entries ++ _)]
      exact (List.perm_append_comm.trans (hperm.append_right next.entries)).append_right (allEntries runs)
    refine (ih _ fun x hx => hP x ?_).imp fun _ hperm' => hperm'.trans ?_
    · rw [waitingEntries_cons] at hx
      exact hnext.mem_iff.mp hx
    · rw [waitingEntries_cons]
      exact hnext

end Join

theorem sortRuns_spec (lt : α → α → Bool) {sort : List α → Option (List α)} (hsort : Permutes total P sort)
    (n : Nat) (runs : List (Run α)) (hruns : ∀ x ∈ allEntries runs, P x) :
    Yields total (sortRuns lt sort n runs) (·.Perm (allEntries runs)) := by
  cases runs with
  | nil => exact .some (.refl _)
  | cons r runs =>
    rw [allEntries_cons] at hruns ⊢
    have hall : r.entries ++ waitingEntries [] ++ allEntries runs = r.entries ++ allEntries runs := by
      simp [waitingEntries]
    refine (joinAll_spec (joins_join lt hsort) n 0 (hall ▸ hruns)).bind fun s hperm => ?_
    rw [hall] at hperm
    refine (settle_spec hsort s fun x hx => hruns x (hperm.mem_iff.mp hx)).bind fun s' hperm' => ?_
    exact .some (hperm'.trans hperm)

theorem settleAll_spec {sort : List α → Option (List α)} (hsort : Permutes total P sort)
    (runs : List (Run α)) (hruns : ∀ x ∈ allEntries runs, P x) :
    Yields total (runs.mapM (Run.settle sort)) fun settled => (allEntries settled).Perm (allEntries runs) := by
  induction runs with
  | nil => exact .some (.refl _)
  | cons r runs ih =>
    rw [allEntries_cons] at hruns ⊢
    rw [List.mapM_cons]
    refine (settle_spec hsort r fun x hx => hruns x (List.mem_append_left _ hx)).bind fun s hperm => ?_
    refine (ih fun x hx => hruns x (List.mem_append_right _ hx)).bind fun settled hperm' => .some ?_
    rw [allEntries_cons]
    exact hperm.append hperm'

theorem permutes_sortEagerly (hlt : total → ComparesBy lt P key) : Permutes total P (sortEagerly lt) := by
  intro xs hx
  have hcut := perm_cutRuns lt (shortestRun xs.length) shortLength xs
  have hshort := permutes_sortShort hlt
  refine (settleAll_spec hshort _ fun x hm => hx x (hcut.mem_iff.mp hm)).bind fun settled hperm => ?_
  have hsettled := hperm.trans hcut
  exact (sortRuns_spec lt hshort xs.length settled fun x hm => hx x (hsettled.mem_iff.mp hm)).imp
    fun _ hperm' => hperm'.trans hsettled

/-! ## Pivots -/

theorem perm_partition (p : α → Bool) (xs : List α) :
    ((xs.partition p).1 ++ (xs.partition p).2).Perm xs := by
  rw [List.partition_eq_filter_filter]
  exact List.filter_append_perm p xs

theorem permutes_sortByPivot (hlt : total → ComparesBy lt P key) (limit : Nat) (bound : Option α) :
    Permutes total P (sortByPivot lt limit bound) := by
  induction limit generalizing bound with
  | zero =>
    intro xs hx
    rw [sortByPivot]
    split
    · exact permutes_sortShort hlt xs hx
    · exact permutes_sortEagerly hlt xs hx
  | succ limit ih =>
    intro xs hx
    rw [sortByPivot]
    split
    · exact permutes_sortShort hlt xs hx
    · cases hpivot : pseudoMedian lt xs with
      | none => exact .some (.refl _)
      | some pivot =>
        have hbelow := perm_partition (fun x => lt x pivot) xs
        have hleast := perm_partition (fun x => !lt pivot x) xs
        simp only
        split
        · refine (ih none (xs.partition fun x => !lt pivot x).2 fun x hm =>
            hx x (hleast.mem_iff.mp (List.mem_append_right _ hm))).bind fun ys hperm => .some ?_
          exact (hperm.append_left _).trans hleast
        · refine (ih bound (xs.partition fun x => lt x pivot).1 fun x hm =>
            hx x (hbelow.mem_iff.mp (List.mem_append_left _ hm))).bind fun ys hperm => ?_
          refine (ih (some pivot) (xs.partition fun x => lt x pivot).2 fun x hm =>
            hx x (hbelow.mem_iff.mp (List.mem_append_right _ hm))).bind fun zs hperm' => .some ?_
          exact (hperm.append hperm').trans hbelow

theorem permutes_sort (hlt : total → ComparesBy lt P key) : Permutes total P (sort? lt) := by
  intro xs hx
  unfold sort?
  split
  · exact .some (by simpa using perm_insertAll lt [] xs)
  split
  · exact permutes_sortEagerly hlt xs hx
  · have hcut := perm_cutRuns lt (shortestRun xs.length) (shortestRun xs.length) xs
    have hpivot : Permutes total P fun ys => sortByPivot lt (divisionLimit ys.length) none ys :=
      fun ys hy => permutes_sortByPivot hlt _ none ys hy
    exact (sortRuns_spec lt hpivot xs.length _ fun x hm => hx x (hcut.mem_iff.mp hm)).imp
      fun _ hperm => hperm.trans hcut

theorem exists_sort (hlt : ComparesBy lt P key) (hx : ∀ x ∈ xs, P x) : ∃ ys, sort? lt xs = some ys := by
  have hsort : Permutes True P (sort? lt) := permutes_sort fun _ => hlt
  exact (hsort xs hx).exists_eq trivial

theorem perm_of_sort (h : sort? lt xs = some ys) : ys.Perm xs := by
  have hlt : False → ComparesBy lt (fun _ => True) (fun _ => 0) := False.elim
  exact (permutes_sort hlt xs fun _ _ => trivial).holds ys h

end Sorting
end HexGame
