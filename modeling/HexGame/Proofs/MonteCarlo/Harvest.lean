import HexGame.Coordinator.Run
import HexGame.Proofs.MonteCarlo.Accounting
import HexGame.Proofs.Pattern.Counting
import Mathlib.Data.List.Forall2

/-!
# Harvests

A harvest goes down a tree as far as the nodes are well visited, and stops at the first node that is not. What
it passes and what it stops at is listed in the order of a walk (`Harvested`), for a tree as for the children
of a node. Nothing is lost on the way and nothing is taken twice. In a tree that a search has grown, visits do
not increase downwards, so that no well visited node stands below one where the harvest stops.
-/
namespace HexGame
namespace MonteCarlo

variable {e : Evaluator} {n : Nat} {s : Statistic Float} {t u : SearchTree Float}
variable {ts : List (SearchTree Float)} {h : Harvest} {p : List Nat}

/-! ## Samples -/

/-- What a sample says of a node: its position, its visits, its mean seen by red, and the features of the
position with the counts of all patterns. -/
structure Describes (e : Evaluator) (s : Statistic Float) (sample : Sample) : Prop where
  board : sample.board = s.board
  visits : sample.visits = s.visits
  mean : sample.mean = if s.board.lastMover = .red then s.mean else -s.mean
  features : ∃ counts, e.catalogue.count s.board.rows.toList none = .ok counts ∧
    FeatureVector.extract s.board counts = .ok sample.features

theorem describes_of_sampleOf {sample : Sample} (h : sampleOf e s = .ok sample) : Describes e s sample := by
  obtain ⟨counts, hcounts, h⟩ := bind_eq_ok.mp h
  split at h <;> cases h
  refine ⟨rfl, rfl, ?_, counts, ?_, ‹_›⟩
  · unfold Statistic.redMean
    cases s.board.lastMover <;> rfl
  · unfold Evaluator.count at hcounts
    split at hcounts
    · split at hcounts <;> cases hcounts
      assumption
    · cases hcounts

theorem exists_sampleOf (hanswers : e.Answers s.board) : ∃ sample, sampleOf e s = .ok sample := by
  obtain ⟨counts, features, hcounts, hfeatures⟩ := hanswers.exists_features
  simp only [sampleOf, hcounts, hfeatures, bind, Except.bind, pure, Except.pure]
  exact ⟨_, rfl⟩

/-! ## One step of a harvest -/

theorem harvest_node_eq_ok (hrun : harvest e n (.node s ts) = .ok h) :
    (s.visits < n ∧ h = ⟨[], [.node s ts]⟩) ∨
    (n ≤ s.visits ∧ ∃ sample below, sampleOf e s = .ok sample ∧ harvestAll e n ts = .ok below ∧
      h = ⟨sample :: below.samples, below.candidates⟩) := by
  rw [harvest] at hrun
  split at hrun
  · rename_i hfew
    exact .inl ⟨hfew, (Except.ok.inj hrun).symm⟩
  · rename_i hmany
    obtain ⟨sample, hsample, hrun⟩ := bind_eq_ok.mp hrun
    obtain ⟨below, hbelow, hrun⟩ := bind_eq_ok.mp hrun
    exact .inr ⟨Nat.not_lt.mp hmany, sample, below, hsample, hbelow, (Except.ok.inj hrun).symm⟩

theorem harvestAll_cons_eq_ok (hrun : harvestAll e n (t :: ts) = .ok h) :
    ∃ first rest, harvest e n t = .ok first ∧ harvestAll e n ts = .ok rest ∧
      h = ⟨first.samples ++ rest.samples, first.candidates ++ rest.candidates⟩ := by
  rw [harvestAll] at hrun
  obtain ⟨first, hfirst, hrun⟩ := bind_eq_ok.mp hrun
  obtain ⟨rest, hrest, hrun⟩ := bind_eq_ok.mp hrun
  exact ⟨first, rest, hfirst, hrest, (Except.ok.inj hrun).symm⟩

theorem harvestAll_nil_eq_ok (hrun : harvestAll e n [] = .ok h) : h = ⟨[], []⟩ := by
  rw [harvestAll] at hrun
  exact (Except.ok.inj hrun).symm

theorem exists_harvestAll (hts : ∀ t ∈ ts, ∃ h, harvest e n t = .ok h) : ∃ h, harvestAll e n ts = .ok h := by
  induction ts with
  | nil => exact ⟨_, by rw [harvestAll]⟩
  | cons t ts ih =>
    obtain ⟨first, hfirst⟩ := hts t (by simp)
    obtain ⟨rest, hrest⟩ := ih fun t ht => hts t (by simp [ht])
    simp only [harvestAll, hfirst, hrest, bind, Except.bind, pure, Except.pure]
    exact ⟨_, rfl⟩

theorem exists_harvest (ht : t.Everywhere fun u => e.Answers u.value.board) :
    ∃ h, harvest e n t = .ok h := by
  induction ht with
  | @node s ts hs _ ih =>
    rw [harvest]
    split
    · exact ⟨_, rfl⟩
    · obtain ⟨sample, hsample⟩ := exists_sampleOf (s := s) hs
      obtain ⟨below, hbelow⟩ := exists_harvestAll ih
      simp only [hsample, hbelow, bind, Except.bind, pure, Except.pure]
      exact ⟨_, rfl⟩

/-! ## What a harvest lists -/

abbrev Frequent (n : Nat) (s : Statistic Float) : Prop := n ≤ s.visits

abbrev Rare (n : Nat) (s : Statistic Float) : Prop := s.visits < n

/-- A harvest of the nodes at the places `R`, which stand under well visited nodes alone: the samples are those
of the well visited ones, and the candidates are the subtrees of the others, in the order of a walk. -/
structure Harvested (e : Evaluator) (n : Nat) (R : List Nat → SearchTree Float → Prop) (h : Harvest)
    (sampled kept : List (List Nat × SearchTree Float)) : Prop where
  sampled_listing : Tree.Listing (fun p u => R p u ∧ Frequent n u.value) sampled
  samples : List.Forall₂ (fun x sample => Describes e x.2.value sample) sampled h.samples
  kept_listing : Tree.Listing (fun p u => R p u ∧ Rare n u.value) kept
  candidates : h.candidates = kept.map (·.2)

theorem harvested_of_harvestAll (hrun : harvestAll e n ts = .ok h)
    (hts : ∀ t ∈ ts, ∀ h, harvest e n t = .ok h →
      ∃ sampled kept, Harvested e n (t.Under (Frequent n)) h sampled kept) (i : Nat) :
    ∃ sampled kept, Harvested e n (Tree.UnderAll (Frequent n) i ts) h sampled kept := by
  induction ts generalizing h i with
  | nil =>
    obtain rfl := harvestAll_nil_eq_ok hrun
    exact ⟨[], [], .nil (Q := Frequent n) i, .nil, .nil (Q := Rare n) i, rfl⟩
  | cons t ts ih =>
    obtain ⟨first, rest, hfirst, hrest, rfl⟩ := harvestAll_cons_eq_ok hrun
    obtain ⟨sampled, kept, ht⟩ := hts t (by simp) first hfirst
    obtain ⟨sampled', kept', hts'⟩ := ih hrest (fun t ht => hts t (by simp [ht])) (i + 1)
    refine ⟨_, _, .cons (Q := Frequent n) ht.sampled_listing hts'.sampled_listing, ?_,
      .cons (Q := Rare n) ht.kept_listing hts'.kept_listing, ?_⟩
    · refine List.rel_append ?_ hts'.samples
      exact List.forall₂_map_left_iff.mpr ht.samples
    · rw [List.map_append, List.map_map, ← hts'.candidates]
      exact congrArg (· ++ rest.candidates) ht.candidates

theorem harvested_of_harvest (hrun : harvest e n t = .ok h) :
    ∃ sampled kept, Harvested e n (t.Under (Frequent n)) h sampled kept := by
  induction t using Tree.node_induction generalizing h with
  | node s ts ih =>
    rcases harvest_node_eq_ok hrun with ⟨hfew, rfl⟩ | ⟨hmany, sample, below, hsample, hbelow, rfl⟩
    · have hnot : ¬ Frequent n s := Nat.not_le.mpr hfew
      refine ⟨_, _, .node (Q := Frequent n) (fun hmany => absurd hmany hnot) (fun _ => rfl), ?_,
        .node (Q := Rare n) (fun hmany => absurd hmany hnot) (fun _ => rfl), ?_⟩
      · rw [if_neg hnot]
        exact .nil
      · rw [if_pos hfew]
        rfl
    · obtain ⟨sampled, kept, hts⟩ := harvested_of_harvestAll hbelow (fun t ht h => ih t ht) 0
      refine ⟨_, _, .node (Q := Frequent n) (fun _ => hts.sampled_listing) (absurd hmany), ?_,
        .node (Q := Rare n) (fun _ => hts.kept_listing) (absurd hmany), ?_⟩
      · rw [if_pos hmany]
        exact .cons (describes_of_sampleOf hsample) hts.samples
      · rw [if_neg (Nat.not_lt.mpr hmany)]
        exact hts.candidates

/-- A node is sampled, or it stands below one node where the harvest has stopped. -/
theorem Harvested.split {sampled kept : List (List Nat × SearchTree Float)}
    (hh : Harvested e n (t.Under (Frequent n)) h sampled kept) (hu : t.subtree? p = some u) :
    ((p, u) ∈ sampled ∧ ∀ x ∈ kept, ¬ x.1 <+: p) ∨
    ((p, u) ∉ sampled ∧ ∃! x, x ∈ kept ∧ x.1 <+: p) := by
  by_cases hmem : (p, u) ∈ sampled
  · obtain ⟨hunder, hmany⟩ := (hh.sampled_listing.mem_iff p u).mp hmem
    refine .inl ⟨hmem, fun x hx hprefix => ?_⟩
    obtain ⟨hx, hfew⟩ := (hh.kept_listing.mem_iff x.1 x.2).mp hx
    exact absurd (hunder.of_prefix hmany hprefix hx.1) (Nat.not_le.mpr hfew)
  · have hfirst : ∃ q w, q <+: p ∧ t.Under (Frequent n) q w ∧ ¬ Frequent n w.value := by
      rcases Tree.under_or_exists_first hu with hunder | hfirst
      · exact ⟨p, u, List.prefix_rfl, hunder, fun hmany =>
          hmem ((hh.sampled_listing.mem_iff p u).mpr ⟨hunder, hmany⟩)⟩
      · exact hfirst
    obtain ⟨q, w, hprefix, hw, hfew⟩ := hfirst
    refine .inr ⟨hmem, (q, w), ⟨(hh.kept_listing.mem_iff q w).mpr ⟨hw, Nat.not_le.mp hfew⟩, hprefix⟩, ?_⟩
    rintro ⟨q', w'⟩ ⟨hmem', hprefix'⟩
    obtain ⟨hw', hfew'⟩ := (hh.kept_listing.mem_iff q' w').mp hmem'
    exact hw'.unique (Nat.not_le.mpr hfew') hw hfew hprefix' hprefix

/-! ## The size of a harvest -/

def Harvest.nodes (h : Harvest) : Nat := h.samples.length + (h.candidates.map Tree.size).sum

theorem sizes_eq_of_harvestAll (hrun : harvestAll e n ts = .ok h)
    (hts : ∀ t ∈ ts, ∀ h, harvest e n t = .ok h → t.size = h.nodes) : Tree.sizes ts = h.nodes := by
  induction ts generalizing h with
  | nil =>
    obtain rfl := harvestAll_nil_eq_ok hrun
    rfl
  | cons t ts ih =>
    obtain ⟨first, rest, hfirst, hrest, rfl⟩ := harvestAll_cons_eq_ok hrun
    have ht := hts t (by simp) first hfirst
    have hts' := ih hrest fun t ht => hts t (by simp [ht])
    rw [Tree.sizes, ht, hts']
    simp only [Harvest.nodes, List.length_append, List.map_append, List.sum_append]
    omega

theorem size_eq_of_harvest (hrun : harvest e n t = .ok h) : t.size = h.nodes := by
  induction t using Tree.node_induction generalizing h with
  | node s ts ih =>
    rcases harvest_node_eq_ok hrun with ⟨-, rfl⟩ | ⟨-, sample, below, -, hbelow, rfl⟩
    · simp [Harvest.nodes]
    · rw [Tree.size, sizes_eq_of_harvestAll hbelow fun t ht h => ih t ht]
      simp only [Harvest.nodes, List.length_cons]
      omega

/-! ## Visits downwards -/

theorem Accounted.visits_le {c : Config Float} (ht : Accounted c t) (hu : u ∈ t.children) :
    u.value.visits ≤ t.value.visits := by
  have hsum : u.value.visits ≤ visitsOf t.children :=
    List.le_sum_of_mem (List.mem_map.mpr ⟨u, hu, rfl⟩)
  have hinner := ht.inner (List.ne_nil_of_mem hu)
  omega

theorem visits_le_of_subtree {c : Config Float} (ht : t.Everywhere (Accounted c))
    (hu : t.subtree? p = some u) : u.value.visits ≤ t.value.visits := by
  induction p generalizing t with
  | nil => exact Option.some.inj hu ▸ Nat.le_refl _
  | cons i p ih =>
    rw [Tree.subtree?_cons] at hu
    obtain ⟨child, hchild, hu⟩ := Option.bind_eq_some_iff.mp hu
    have hmem := List.mem_of_getElem? hchild
    exact (ih (ht.children child hmem) hu).trans (ht.here.visits_le hmem)

theorem under_of_visits {c : Config Float} (ht : t.Everywhere (Accounted c)) (hu : t.subtree? p = some u)
    (hmany : n ≤ u.value.visits) : t.Under (Frequent n) p u := by
  refine ⟨hu, ?_⟩
  rintro q w ⟨r, rfl⟩ - hw
  rw [Tree.subtree?_append, hw] at hu
  exact hmany.trans (visits_le_of_subtree (ht.subtree hw) hu)

/-! ## Searches -/

namespace Search

variable {G : Type} [ChoiceSource G]

/-- While the evaluator is alive, a harvest takes a tree apart. The samples are those of the nodes with `n`
visits that have only such nodes above them, and the candidates are the whole subtrees of the first nodes on
their way that have fewer, all in the order of a walk. So each node is sampled or in one candidate, and a worker
that harvests its tree reports all nodes. In a tree that a search reaches, all nodes with `n` visits are
sampled. -/
theorem harvest_takes_apart (s : Search G) (e : Evaluator) (n : Nat)
    (halive : ∀ p u, s.root.subtree? p = some u → e.Answers u.value.board) :
    ∃ h sampled kept, s.harvest e n = .ok h ∧
      Harvested e n (s.root.Under (Frequent n)) h sampled kept ∧
      (sampled.map (·.2)).Sublist (s.root.walk.map (·.1)) ∧
      (kept.map (·.2)).Sublist (s.root.walk.map (·.1)) ∧
      (∀ p u, s.root.subtree? p = some u →
        ((p, u) ∈ sampled ∧ ∀ x ∈ kept, ¬ x.1 <+: p) ∨
        ((p, u) ∉ sampled ∧ ∃! x, x ∈ kept ∧ x.1 <+: p)) ∧
      s.root.size = h.samples.length + (h.candidates.map Tree.size).sum ∧
      (∀ (c : Coordinator.Config) (task : Coordinator.Task G), c.threshold = n →
        task.search.iterateTimes c.iterations = .ok s →
        Coordinator.runTask c e task = .reported c.iterations s.root.value
          (h.samples.length + (h.candidates.map Tree.size).sum) h) ∧
      ∀ c, s.Reachable c →
        (∀ p u, s.root.subtree? p = some u → n ≤ u.value.visits → (p, u) ∈ sampled) ∧
        ∀ t ∈ h.candidates, ∀ p u, t.subtree? p = some u → u.value.visits < n := by
  obtain ⟨h, hrun⟩ := exists_harvest (n := n) (.of_subtrees halive)
  obtain ⟨sampled, kept, hlists⟩ := harvested_of_harvest hrun
  have hsize : s.root.size = h.samples.length + (h.candidates.map Tree.size).sum := size_eq_of_harvest hrun
  refine ⟨h, sampled, kept, hrun, hlists, hlists.sampled_listing.sublist_walk fun p u hu => hu.1.1,
    hlists.kept_listing.sublist_walk fun p u hu => hu.1.1, fun p u => hlists.split, hsize, ?_, ?_⟩
  · rintro c task rfl htask
    simp only [Coordinator.runTask, htask, harvest, hrun, hsize]
  · intro c hs
    refine ⟨fun p u hu hmany => ?_, fun t ht p u hu => ?_⟩
    · exact (hlists.sampled_listing.mem_iff p u).mpr ⟨under_of_visits hs.accounted hu hmany, hmany⟩
    · rw [hlists.candidates] at ht
      obtain ⟨⟨q, t⟩, hmem, rfl⟩ := List.mem_map.mp ht
      obtain ⟨hunder, hfew⟩ := (hlists.kept_listing.mem_iff q t).mp hmem
      exact (visits_le_of_subtree (hs.accounted.subtree hunder.1) hu).trans_lt hfew

/-- After twenty visits a threshold of fifteen samples the root. -/
theorem harvest_takes_apart_fourCells :
    ∃ (e : Evaluator) (s : Search Generator) (h : Harvest) (sample : Sample), s.Reachable Config.default ∧
      (∀ p u, s.root.subtree? p = some u → e.Answers u.value.board) ∧ s.root.value.visits = 20 ∧
      s.harvest e 15 = .ok h ∧ sample ∈ h.samples ∧ Describes e s.root.value sample ∧ sample.visits = 20 ∧
      (∀ t ∈ h.candidates, t.value.visits < 15) ∧
      s.root.size = h.samples.length + (h.candidates.map Tree.size).sum := by
  let e : Evaluator := .start Catalogue.hookCatalogue
  have hparse : Catalogue.parse Catalogue.hookText = .ok e.catalogue := by decide +kernel
  have hanswers : ∀ b, e.Answers b := Evaluator.answers_of_parse rfl hparse (by decide +kernel)
  let start : Search Generator := Search.start (Board.blank 2 .red two_le_maxSize) .default (.ofSeed 1)
  have hplay : start.root.value.board.Playable := fun hfull => absurd hfull (by decide +kernel)
  have hgrown : Grown 0 start.root := grown_fresh hplay 0
  obtain ⟨s, hrun, -, hvisits⟩ := iterateTimes_spec (n := 20) hgrown (by decide)
  have hs : s.Reachable Config.default := (Reachable.start _ _).iterateTimes hrun
  have htwenty : s.root.value.visits = 20 := hvisits
  obtain ⟨h, sampled, kept, hharvest, hlists, -, -, -, hsize, -, hreachable⟩ :=
    harvest_takes_apart s e 15 fun p u _ => hanswers u.value.board
  obtain ⟨hall, hfew⟩ := hreachable Config.default hs
  have hroot : ([], s.root) ∈ sampled := hall [] s.root rfl (by omega)
  obtain ⟨i, hi, heq⟩ := List.mem_iff_getElem.mp hroot
  obtain ⟨hlength, hsamples⟩ := List.forall₂_iff_get.mp hlists.samples
  have hsample := hsamples i hi (hlength ▸ hi)
  rw [List.get_eq_getElem, heq] at hsample
  exact ⟨e, s, h, _, hs, fun p u _ => hanswers u.value.board, htwenty, hharvest, List.get_mem _ _, hsample,
    hsample.visits.trans htwenty, fun t ht => hfew t ht [] t rfl, hsize⟩

end Search

end MonteCarlo
end HexGame
