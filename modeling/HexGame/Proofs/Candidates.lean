import HexGame.Candidates

/-!
# No candidate gets lost

Whatever is added to a list of candidates waits in one of the buckets until it is taken out, and a
candidate can be taken out as long as any waits. Lists of waiting nodes are compared up to their order.
-/
namespace HexGame

theorem perm_swapRemove {α : Type} {xs : List α} {i : Nat} (hi : i < xs.length) :
    xs.Perm (xs[i] :: swapRemove xs i) := by
  obtain rfl | ⟨front, last, hconcat⟩ := xs.eq_nil_or_concat
  · cases hi
  rw [List.concat_eq_append] at hconcat
  subst hconcat
  by_cases h : i < front.length
  · obtain ⟨before, after, hfront, -, hset⟩ := @List.exists_of_set _ i last front h
    have hrest : swapRemove (front ++ [last]) i = before ++ last :: after := by
      simp only [swapRemove, List.getLast?_concat, List.set_append_left i last h, List.dropLast_concat, hset]
    rw [hrest, List.getElem_append_left h]
    have hcut : (front ++ [last]).Perm (last :: front[i] :: (before ++ after)) :=
      (List.perm_append_comm.trans (.of_eq (congrArg (last :: ·) hfront))).trans (List.perm_middle.cons last)
    exact hcut.trans ((List.Perm.swap ..).trans (List.perm_middle.symm.cons _))
  · have hlast : i = front.length := by
      rw [List.length_append, List.length_singleton] at hi
      omega
    subst hlast
    simp [swapRemove]

namespace CandidateList

variable {V G : Type} {l l' : CandidateList V G} {t : SearchTree V} {ts : List (SearchTree V)}

theorem buckets_add_ne_nil (hl : l.buckets ≠ []) : (l.add t).buckets ≠ [] := by
  simpa [add] using hl

theorem perm_nodes_add (hl : l.buckets ≠ []) : (l.add t).nodes.Perm (t :: l.nodes) := by
  have hplace : min t.value.board.stoneCounts.stones (l.buckets.length - 1) < l.buckets.length := by
    have := List.length_pos_iff.mpr hl
    omega
  obtain ⟨before, b, after, hbuckets, -, hadd⟩ :=
    List.exists_of_modify (fun b : Bucket V => { b with nodes := b.nodes ++ [t] }) hplace
  rw [nodes, nodes, add, hadd, hbuckets]
  simp only [List.flatMap_append, List.flatMap_cons, List.append_assoc, List.singleton_append]
  exact (List.perm_middle.append_left _).trans List.perm_middle

theorem buckets_addAll_ne_nil (hl : l.buckets ≠ []) : (l.addAll ts).buckets ≠ [] := by
  induction ts generalizing l with
  | nil => exact hl
  | cons t ts ih => exact ih (buckets_add_ne_nil hl)

theorem perm_nodes_addAll (hl : l.buckets ≠ []) : (l.addAll ts).nodes.Perm (ts ++ l.nodes) := by
  induction ts generalizing l with
  | nil => exact .refl _
  | cons t ts ih =>
    exact (ih (buckets_add_ne_nil hl)).trans (((perm_nodes_add hl).append_left ts).trans List.perm_middle)

theorem leastServed_eq_some {i j : Nat} {b : Bucket V} {bs : List (Bucket V)}
    (h : leastServed i bs = some (j, b)) : i ≤ j ∧ bs[j - i]? = some b ∧ b.nodes ≠ [] := by
  induction bs generalizing i j b with
  | nil => cases h
  | cons c bs ih =>
    have hlater {k : Nat} {d : Bucket V} (hk : leastServed (i + 1) bs = some (k, d)) :
        i ≤ k ∧ (c :: bs)[k - i]? = some d ∧ d.nodes ≠ [] := by
      obtain ⟨hle, hget, hne⟩ := ih hk
      rw [show k - i = k - (i + 1) + 1 by omega, List.getElem?_cons_succ]
      exact ⟨by omega, hget, hne⟩
    unfold leastServed at h
    split at h
    · exact hlater h
    · rename_i hc
      have hfirst : i ≤ i ∧ (c :: bs)[i - i]? = some c ∧ c.nodes ≠ [] := by simpa using hc
      split at h
      · cases h
        exact hfirst
      · rename_i k d hk
        split at h <;> cases h
        · exact hlater hk
        · exact hfirst

theorem leastServed_eq_none {i : Nat} {bs : List (Bucket V)} (h : leastServed i bs = none) :
    ∀ b ∈ bs, b.nodes = [] := by
  induction bs generalizing i with
  | nil => nofun
  | cons c bs ih =>
    unfold leastServed at h
    split at h
    · rename_i hc
      exact List.forall_mem_cons.mpr ⟨List.isEmpty_iff.mp hc, ih h⟩
    · split at h
      · cases h
      · split at h <;> cases h

theorem isEmpty_iff : l.isEmpty = true ↔ l.nodes = [] := by
  simp [isEmpty, nodes]

variable [ChoiceSource G]

theorem next_eq_some (h : l.next = some (t, l')) :
    l.nodes.Perm (t :: l'.nodes) ∧ l'.buckets.length = l.buckets.length := by
  unfold next at h
  split at h
  · cases h
  · rename_i i b hleast
    obtain ⟨-, hb, -⟩ := leastServed_eq_some hleast
    rw [Nat.sub_zero] at hb
    split at h
    · rename_i hpos
      cases h
      obtain ⟨hi, rfl⟩ := List.getElem?_eq_some_iff.mp hb
      refine ⟨?_, List.length_set⟩
      obtain ⟨before, after, hbuckets, -, hset⟩ := List.exists_of_set hi
      have hwaiting := congrArg (List.flatMap fun b : Bucket V => b.nodes) hbuckets
      rw [nodes, nodes, hset, hwaiting]
      simp only [List.flatMap_append, List.flatMap_cons]
      exact (((perm_swapRemove (Fin.isLt _)).append_right _).append_left _).trans List.perm_middle
    · cases h

theorem isEmpty_of_next_eq_none (h : l.next = none) : l.isEmpty = true := by
  unfold next at h
  split at h
  · rename_i hleast
    simpa [isEmpty] using leastServed_eq_none hleast
  · rename_i i b hleast
    obtain ⟨-, -, hne⟩ := leastServed_eq_some hleast
    rw [dif_pos (List.length_pos_iff.mpr hne)] at h
    cases h

theorem next_of_serve {next : Option (SearchTree V × CandidateList V G)} (h : l.serve = .ok next) :
    l.next = next := by
  unfold serve at h
  split at h
  · rename_i hleast
    cases h
    simp only [CandidateList.next, hleast]
  · split at h
    · exact Except.ok.inj h
    · cases h

end CandidateList
end HexGame
