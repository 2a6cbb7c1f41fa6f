import HexGame.Proofs.MonteCarlo.Score
import HexGame.Proofs.MonteCarlo.Visit
import Mathlib.Algebra.BigOperators.Group.List.Basic
import Mathlib.Algebra.Order.Field.Rat
import Mathlib.Tactic.FieldSimp
import Mathlib.Tactic.Linarith
import Mathlib.Tactic.Ring

/-!
# Exact means

An iteration starts one playout, from a leaf or from one of the children that the leaf gets (`Plays`). Its score
counts for the node it starts from, and with the other sign for the parent of a node that it counts for. On exact
numbers nothing is lost of it: what all visits of a node have brought is what the playouts that started there
have, less what the visits of its children have (`Balanced`). The scores of playouts are at most 1 either way
(`IsScore`), and so are the means.
-/
namespace HexGame

instance : MeanValue ℚ where
  ofNat n := n
  half := 1 / 2

/-- What all visits together have brought. -/
def Statistic.total (s : Statistic ℚ) : ℚ := s.visits * s.mean

namespace MonteCarlo

/-! ## Playouts -/

/-- A playout with the place of the node that it starts from. -/
structure Playout (V : Type) where
  start : List Nat
  score : V

/-- The playout of an iteration. -/
inductive Plays {V G : Type} [MeanValue V] [ChoiceSource G] (c : Config V) (select : Selection V) :
    G → SearchTree V → Playout V → Prop where
  /-- From a leaf that gets no children. -/
  | leaf {s : Statistic V} {g g' : G} {score : V} (hstays : expansion c s = [])
      (hplayout : playout c s.board g = .ok (score, g')) : Plays c select g (.node s []) ⟨[], score⟩
  /-- From the child that is drawn when a leaf gets its children. -/
  | drawn {s : Statistic V} {g g₁ g' : G} {child : SearchTree V} {children : List (SearchTree V)}
      {i : Fin (children.length + 1)} {score : V} (hgrows : expansion c s = child :: children)
      (hdraw : ChoiceSource.below (children.length + 1) (Nat.succ_pos _) g = (i, g₁))
      (hplayout : playout c (child :: children)[i].value.board g₁ = .ok (score, g')) :
      Plays c select g (.node s []) ⟨[i.val], score⟩
  /-- From a node below the child that is selected. -/
  | selected {s : Statistic V} {g : G} {ts : List (SearchTree V)} {t : SearchTree V} {p : Playout V}
      (ht : ts[select s.visits ts]? = some t) (h : Plays c select g t p) :
      Plays c select g (.node s ts) ⟨select s.visits ts :: p.start, p.score⟩

section

variable {V G : Type} [MeanValue V] [ChoiceSource G] {c : Config V} {select : Selection V} {g g' : G}
variable {t t' : SearchTree V} {p q : Playout V} {score : V}

theorem exists_plays (h : iterate c select g t = .ok (score, t', g')) : ∃ p, Plays c select g t p := by
  induction t using Tree.node_induction generalizing g score t' g' with
  | node s ts ih =>
    by_cases hne : ts = []
    · subst hne
      rw [iterate] at h
      cases hexpansion : expansion c s with
      | nil =>
        obtain ⟨-, hplayout, -⟩ := visitLeaf_of_nil hexpansion h
        exact ⟨_, .leaf hexpansion hplayout⟩
      | cons child children =>
        obtain ⟨mv, below, -, -, -, hchild, hplayout, -⟩ := visitLeaf_of_cons hexpansion rfl h
        exact ⟨⟨_, below⟩, .drawn hexpansion rfl (by rw [hchild]; exact hplayout)⟩
    · obtain ⟨u, u', below, s', hu, hrun, -⟩ := iterate_eq_ok_of_ne_nil hne h
      obtain ⟨p, hp⟩ := ih u (List.mem_of_getElem? hu) hrun
      exact ⟨_, .selected hu hp⟩

theorem Plays.unique (h : Plays c select g t p) (h' : Plays c select g t q) : q = p := by
  induction h generalizing q with
  | leaf hstays hplayout =>
    cases h' with
    | leaf _ hplayout' =>
      cases hplayout.symm.trans hplayout'
      rfl
    | drawn hgrows _ _ => cases hstays.symm.trans hgrows
    | selected ht _ => simp at ht
  | drawn hgrows hdraw hplayout =>
    cases h' with
    | leaf hstays _ => cases hstays.symm.trans hgrows
    | drawn hgrows' hdraw' hplayout' =>
      cases hgrows.symm.trans hgrows'
      cases hdraw.symm.trans hdraw'
      cases hplayout.symm.trans hplayout'
      rfl
    | selected ht _ => simp at ht
  | selected ht _ ih =>
    cases h' with
    | leaf _ _ => simp at ht
    | drawn _ _ _ => simp at ht
    | selected ht' h' =>
      cases ht.symm.trans ht'
      rw [ih h']

end

/-! ## Scores -/

variable {G : Type} [ChoiceSource G] {c : Config ℚ} {b : Board} {g g' : G} {n : Nat} {w score : ℚ}
variable {s s' : Statistic ℚ} {t t' : SearchTree ℚ} {ts : List (SearchTree ℚ)}

/-- At most 1 either way, and not close to 0 where the length of a game counts. -/
def IsScore (c : Config ℚ) (w : ℚ) : Prop := |w| ≤ 1 ∧ (c.lengthWeighted = true → 1 / 2 ≤ |w|)

theorem IsScore.neg (h : IsScore c w) : IsScore c (-w) := by
  unfold IsScore
  rwa [abs_neg]

theorem winScore_of_lengthWeighted (h : c.lengthWeighted = true) (b : Board) :
    winScore c b = 1 / 2 + 1 / 2 * (b.stoneCounts.empty : ℚ) / (b.size * b.size : Nat) := by
  unfold winScore
  rw [if_pos h]
  rfl

theorem winScore_of_not_lengthWeighted (h : c.lengthWeighted = false) (b : Board) : winScore c b = 1 := by
  unfold winScore
  rw [if_neg (by simp [h])]
  rfl

theorem isScore_winScore (c : Config ℚ) (b : Board) : IsScore c (winScore c b) := by
  cases hc : c.lengthWeighted with
  | false =>
    rw [winScore_of_not_lengthWeighted hc]
    exact ⟨by simp, by simp [hc]⟩
  | true =>
    have hsize : (0 : ℚ) < (b.size * b.size : Nat) := by exact_mod_cast Nat.mul_pos b.size_pos b.size_pos
    have hempty : (b.stoneCounts.empty : ℚ) ≤ (b.size * b.size : Nat) := by exact_mod_cast b.empty_le
    have hshare : (b.stoneCounts.empty : ℚ) / (b.size * b.size : Nat) ≤ 1 := (div_le_one hsize).mpr hempty
    have hnonneg : (0 : ℚ) ≤ (b.stoneCounts.empty : ℚ) / (b.size * b.size : Nat) := by positivity
    rw [winScore_of_lengthWeighted hc, mul_div_assoc]
    generalize (b.stoneCounts.empty : ℚ) / (b.size * b.size : Nat) = share at hshare hnonneg ⊢
    unfold IsScore
    rw [abs_of_nonneg (by linarith)]
    exact ⟨by linarith, fun _ => by linarith⟩

theorem isScore_of_playoutFrom (h : playoutFrom c n b g = .ok (w, g')) : IsScore c w := by
  induction n generalizing b g w with
  | zero =>
    unfold playoutFrom at h
    split at h
    · cases h
      exact isScore_winScore c b
    · cases hmoves : b.legalMoves <;> simp [hmoves] at h
  | succ n ih =>
    unfold playoutFrom at h
    split at h
    · cases h
      exact isScore_winScore c b
    · cases hmoves : b.legalMoves with
      | nil => simp [hmoves] at h
      | cons mv moves =>
        simp only [hmoves] at h
        split at h
        · rename_i hrest
          cases h
          exact (ih hrest).neg
        · cases h

theorem Plays.isScore {select : Selection ℚ} {p : Playout ℚ} (h : Plays c select g t p) : IsScore c p.score := by
  induction h with
  | leaf _ hplayout => exact isScore_of_playoutFrom hplayout
  | drawn _ _ hplayout => exact isScore_of_playoutFrom hplayout
  | selected _ _ ih => exact ih

/-! ## Totals -/

theorem total_record (h : s.record w = .ok s') : s'.total = s.total + w := by
  unfold Statistic.record at h
  split at h
  · cases h
    have hmean : (s.visits + 1 : Nat) * (s.mean + (w - s.mean) / (s.visits + 1 : Nat)) =
        s.visits * s.mean + w := by
      push_cast
      field_simp
      ring
    exact hmean
  · cases h

theorem abs_mean_record (hs : |s.mean| ≤ 1) (hw : |w| ≤ 1) (h : s.record w = .ok s') : |s'.mean| ≤ 1 := by
  have hvisits := (record_eq_ok h).2
  have hpos : (0 : ℚ) < s.visits + 1 := by positivity
  refine le_of_mul_le_mul_left ?_ hpos
  calc (s.visits + 1) * |s'.mean| = |s'.total| := by
        rw [Statistic.total, hvisits, abs_mul, Nat.cast_succ, abs_of_pos hpos]
    _ = |s.visits * s.mean + w| := by rw [total_record h, Statistic.total]
    _ ≤ |s.visits * s.mean| + |w| := abs_add_le _ _
    _ = s.visits * |s.mean| + |w| := by rw [abs_mul, Nat.abs_cast]
    _ ≤ s.visits * 1 + 1 := by gcongr
    _ = (s.visits + 1) * 1 := by ring

theorem abs_mean_fresh (b : Board) : |(Statistic.fresh b : Statistic ℚ).mean| ≤ 1 := by
  show |((0 : Nat) : ℚ)| ≤ 1
  simp

theorem Visited.abs_mean_le (h : Visited G c score t t') (ht : t.Everywhere fun u => |u.value.mean| ≤ 1) :
    |score| ≤ 1 ∧ t'.Everywhere fun u => |u.value.mean| ≤ 1 := by
  induction h with
  | leaf _ hplayout hs =>
    have hscore := (isScore_of_playoutFrom hplayout).1
    exact ⟨hscore, .node (abs_mean_record ht.here hscore hs) (by simp)⟩
  | @expanded s s' u g g' score i mv _ _ _ hplayout hu hs =>
    have hscore := (isScore_of_playoutFrom hplayout).neg.1
    refine ⟨hscore, .node (abs_mean_record ht.here hscore hs) (forall_mem_set ?_ ?_)⟩
    · exact forall_mem_childrenOf fun _ _ => .node (abs_mean_fresh _) (by simp)
    · exact .node (abs_mean_record (abs_mean_fresh _) (isScore_of_playoutFrom hplayout).1 hu) (by simp)
  | @child s s' ts t t' score i hi _ hs ih =>
    obtain ⟨hscore, ht'⟩ := ih (ht.children t (List.mem_of_getElem? hi))
    rw [← abs_neg] at hscore
    exact ⟨hscore, .node (abs_mean_record ht.here hscore hs) (forall_mem_set ht.children ht')⟩

def totalOf (ts : List (SearchTree ℚ)) : ℚ := (ts.map (·.value.total)).sum

theorem totalOf_set {i : Nat} (hi : ts[i]? = some t) (u : SearchTree ℚ) :
    totalOf (ts.set i u) = totalOf ts + (u.value.total - t.value.total) := by
  obtain ⟨hlt, rfl⟩ := List.getElem?_eq_some_iff.mp hi
  unfold totalOf
  rw [List.map_set, List.sum_set', dif_pos (by simpa using hlt), List.getElem_map]
  ring

theorem total_fresh (b : Board) : (Statistic.fresh b : Statistic ℚ).total = 0 := by
  simp [Statistic.total, Statistic.fresh]

theorem totalOf_childrenOf (b : Board) : totalOf (childrenOf b) = 0 := by
  unfold totalOf childrenOf
  rw [List.map_map]
  refine List.sum_eq_zero fun x hx => ?_
  obtain ⟨mv, -, rfl⟩ := List.mem_map.mp hx
  exact total_fresh _

/-- The balance of a tree, in which the playouts from a place have brought `own`. -/
inductive Balanced : (List Nat → ℚ) → SearchTree ℚ → Prop where
  | node {own : List Nat → ℚ} {s : Statistic ℚ} {ts : List (SearchTree ℚ)}
      (htotal : s.total = own [] - totalOf ts)
      (hts : ∀ i t, ts[i]? = some t → Balanced (fun path => own (i :: path)) t)
      (hnone : ∀ i, ts[i]? = none → ∀ path, own (i :: path) = 0) : Balanced own (.node s ts)

/-- What the playouts from each place have brought, after one more. -/
def earn (own : List Nat → ℚ) (p : Playout ℚ) : List Nat → ℚ :=
  fun path => own path + if p.start = path then p.score else 0

section

variable {own : List Nat → ℚ} {p : Playout ℚ} {i j : Nat}

theorem earn_nil (own : List Nat → ℚ) (p : Playout ℚ) (i : Nat) :
    earn own ⟨i :: p.start, p.score⟩ [] = own [] := by
  simp [earn]

theorem earn_cons_self : (fun path => earn own ⟨i :: p.start, p.score⟩ (i :: path)) =
    earn (fun path => own (i :: path)) p := by
  funext path
  simp [earn]

theorem earn_cons_of_ne (h : i ≠ j) (path : List Nat) :
    earn own ⟨i :: p.start, p.score⟩ (j :: path) = own (j :: path) := by
  simp [earn, h]

end

namespace Balanced

variable {own : List Nat → ℚ} {p : Playout ℚ} {u : SearchTree ℚ} {i : Nat}

theorem leaf (htotal : s.total = own []) (hnone : ∀ i path, own (i :: path) = 0) : Balanced own (.node s []) :=
  .node (by simpa [totalOf] using htotal) (by simp) fun i _ => hnone i

theorem total_eq {path : List Nat} (h : Balanced own t) (hu : t.subtree? path = some u) :
    u.value.total = own path - totalOf u.children := by
  induction path generalizing own t with
  | nil =>
    obtain rfl := Option.some.inj hu
    cases h with
    | node htotal _ _ => exact htotal
  | cons i path ih =>
    cases h with
    | node _ hts _ =>
      rw [Tree.subtree?_cons] at hu
      obtain ⟨v, hv, hu⟩ := Option.bind_eq_some_iff.mp hu
      exact ih (hts i v hv) hu

theorem expand (h : Balanced own (.node s [])) (b : Board) : Balanced own (.node s (childrenOf b)) := by
  cases h with
  | node htotal _ hnone =>
    refine .node ?_ (fun i t ht => ?_) fun i _ => hnone i rfl
    · rw [totalOf_childrenOf]
      simpa [totalOf] using htotal
    · obtain ⟨mv, -, rfl⟩ := List.mem_map.mp (List.mem_of_getElem? ht)
      exact leaf ((total_fresh _).trans (hnone i rfl []).symm) fun j path => hnone i rfl (j :: path)

theorem visit_leaf (h : Balanced own (.node s [])) (hs : s.record w = .ok s') :
    Balanced (earn own ⟨[], w⟩) (.node s' []) := by
  cases h with
  | node htotal _ hnone =>
    refine leaf ?_ fun i path => ?_
    · rw [total_record hs, htotal]
      simp [earn, totalOf]
    · simpa [earn] using hnone i rfl path

/-- The score of a visit counts for the child that it goes to, and with the other sign for the node. -/
theorem visit_child {below : ℚ} (h : Balanced own (.node s ts)) (hi : ts[i]? = some t)
    (ht : ∀ own, Balanced own t → Balanced (earn own p) t') (hbelow : t'.value.total = t.value.total + below)
    (hs : s.record (-below) = .ok s') : Balanced (earn own ⟨i :: p.start, p.score⟩) (.node s' (ts.set i t')) := by
  obtain ⟨hlt, -⟩ := List.getElem?_eq_some_iff.mp hi
  cases h with
  | node htotal hts hnone =>
    refine .node ?_ (fun j v hv => ?_) fun j hj path => ?_
    · rw [total_record hs, htotal, totalOf_set hi, hbelow, earn_nil]
      ring
    · by_cases hij : i = j
      · subst hij
        rw [List.getElem?_set_self hlt] at hv
        obtain rfl := Option.some.inj hv
        rw [earn_cons_self]
        exact ht _ (hts i t hi)
      · rw [List.getElem?_set_ne hij] at hv
        simp only [earn_cons_of_ne hij]
        exact hts j v hv
    · have hne : i ≠ j := by
        rintro rfl
        simp [hlt] at hj
      rw [List.getElem?_set_ne hne] at hj
      rw [earn_cons_of_ne hne]
      exact hnone j hj path

theorem of_iterate {select : Selection ℚ} (ht : Balanced own t) (hp : Plays c select g t p)
    (h : iterate c select g t = .ok (score, t', g')) :
    Balanced (earn own p) t' ∧ t'.value.total = t.value.total + score := by
  induction hp generalizing own score t' g' with
  | leaf hstays hplayout =>
    rw [iterate] at h
    obtain ⟨s', hplayout', hs, rfl⟩ := visitLeaf_of_nil hstays h
    cases hplayout.symm.trans hplayout'
    exact ⟨ht.visit_leaf hs, total_record hs⟩
  | @drawn s g g₁ g₂ child children i w hgrows hdraw hplayout =>
    rw [iterate] at h
    obtain ⟨mv, below, u, s', hmv, hchild, hplayout', hu, hs, rfl, rfl⟩ := visitLeaf_of_cons hgrows hdraw h
    rw [hchild] at hplayout
    cases hplayout.symm.trans hplayout'
    exact ⟨(ht.expand s.board).visit_child (p := ⟨[], w⟩) (childrenOf_of_legal hmv)
      (fun _ hown => hown.visit_leaf hu) (total_record hu) hs, total_record hs⟩
  | @selected s g ts t p hi _ ih =>
    have hne : ts ≠ [] := List.ne_nil_of_mem (List.mem_of_getElem? hi)
    obtain ⟨u, u', below, s', hu, hrun, hs, rfl, rfl⟩ := iterate_eq_ok_of_ne_nil hne h
    cases hi.symm.trans hu
    refine ⟨ht.visit_child hi (fun own hown => (ih hown hrun).1) ?_ hs, total_record hs⟩
    cases ht with
    | node _ hts _ => exact (ih (hts _ t hi) hrun).2

end Balanced

/-! ## Trees that grow -/

/-- What the playouts from a place have brought together. -/
def scoresAt (log : List (Playout ℚ)) (path : List Nat) : ℚ :=
  ((log.filter (·.start = path)).map (·.score)).sum

theorem scoresAt_cons (p : Playout ℚ) (log : List (Playout ℚ)) : scoresAt (p :: log) = earn (scoresAt log) p := by
  funext path
  unfold scoresAt earn
  by_cases h : p.start = path
  · simp [h, add_comm]
  · simp [h]

/-- The trees that grow from a root without visits, each with its playouts, the last one first. Every iteration
may select and draw as it likes. -/
inductive Grows (G : Type) [ChoiceSource G] (c : Config ℚ) (b : Board) : List (Playout ℚ) → SearchTree ℚ → Prop where
  | root : Grows G c b [] (.leaf (.fresh b))
  | iterate {log : List (Playout ℚ)} {t t' : SearchTree ℚ} {select : Selection ℚ} {g g' : G} {p : Playout ℚ}
      {score : ℚ} (h : Grows G c b log t) (hp : Plays c select g t p)
      (hrun : iterate c select g t = .ok (score, t', g')) : Grows G c b (p :: log) t'

namespace Grows

variable {log : List (Playout ℚ)}

theorem balanced (h : Grows G c b log t) : Balanced (scoresAt log) t := by
  induction h with
  | root => exact .leaf (total_fresh b) fun _ _ => rfl
  | iterate _ hp hrun ih =>
    rw [scoresAt_cons]
    exact (ih.of_iterate hp hrun).1

theorem abs_mean_le (h : Grows G c b log t) : t.Everywhere fun u => |u.value.mean| ≤ 1 := by
  induction h with
  | root => exact .node (abs_mean_fresh b) (by simp)
  | iterate _ _ hrun ih => exact ((visited_of_iterate hrun).abs_mean_le ih).2

theorem isScore (h : Grows G c b log t) : ∀ p ∈ log, IsScore c p.score := by
  induction h with
  | root => simp
  | iterate _ hp _ ih => exact List.forall_mem_cons.mpr ⟨hp.isScore, ih⟩

/-- On exact numbers, what all visits of a node have brought is what the playouts that started from it have, less
what the visits of its children have. The score of a playout is at most 1 either way, and at least one half where
the length of a game counts; so no mean is more than 1 either way. Every iteration has one playout. -/
theorem means_add_up (h : Grows G c b log t) :
    (∀ path u, t.subtree? path = some u →
      (u.value.visits : ℚ) * u.value.mean = ((log.filter (·.start = path)).map (·.score)).sum -
        (u.children.map fun v => (v.value.visits : ℚ) * v.value.mean).sum ∧
      |u.value.mean| ≤ 1) ∧
    (∀ p ∈ log, |p.score| ≤ 1 ∧ (c.lengthWeighted = true → 1 / 2 ≤ |p.score|)) ∧
    ∀ (select : Selection ℚ) (g : G) score t' g', MonteCarlo.iterate c select g t = .ok (score, t', g') →
      ∃! p, Plays c select g t p := by
  refine ⟨fun path u hu => ⟨h.balanced.total_eq hu, (h.abs_mean_le.subtree hu).here⟩, h.isScore, ?_⟩
  intro select g score t' g' hrun
  obtain ⟨p, hp⟩ := exists_plays hrun
  exact ⟨p, hp, fun q hq => hp.unique hq⟩

/-- Early wins score more, and leaves are expanded at once. -/
def eager : Config ℚ where
  exploration := 1
  expandThreshold := 0
  lengthWeighted := true
  terminal := .strict

/-- Two visits of a board of four cells: no playout starts from the root. -/
theorem means_add_up_fourCells :
    ∃ log t, Grows Generator eager (.blank 2 .red two_le_maxSize) log t ∧ log.length = 2 ∧
      t.value.visits = 2 ∧ t.value.mean = -1 / 16 ∧
      ((log.filter (·.start = [])).map (·.score)).sum = 0 ∧ ∀ p ∈ log, 1 / 2 ≤ |p.score| := by
  let select : Selection ℚ := fun _ _ => 0
  let visit (g : Generator) (t : SearchTree ℚ) := MonteCarlo.iterate eager select g t
  let visits := visit (.ofSeed 1) (.leaf (.fresh (.blank 2 .red two_le_maxSize))) >>= fun r => visit r.2.2 r.2.1
  have hcheck : visits.toOption.any (fun r => r.2.1.value.visits = 2 ∧ r.2.1.value.mean = -1 / 16 ∧
      (r.2.1.children.map fun v => (v.value.visits : ℚ) * v.value.mean).sum = 1 / 8) = true := by
    decide +kernel
  rcases hrun : visits with _ | ⟨score, t, g⟩
  · rw [hrun] at hcheck
    cases hcheck
  rw [hrun] at hcheck
  obtain ⟨hvisits, hmean, hchildren⟩ := of_decide_eq_true hcheck
  obtain ⟨⟨score₁, t₁, g₁⟩, hfirst, hsecond⟩ := bind_eq_ok.mp hrun
  obtain ⟨p, hp⟩ := exists_plays hfirst
  obtain ⟨q, hq⟩ := exists_plays hsecond
  have hgrows := (Grows.root.iterate hp hfirst).iterate hq hsecond
  obtain ⟨hnodes, hscores, -⟩ := hgrows.means_add_up
  have hroot := (hnodes [] t rfl).1
  rw [hvisits, hmean, hchildren] at hroot
  exact ⟨_, t, hgrows, rfl, hvisits, hmean, by linarith, fun r hr => (hscores r hr).2 rfl⟩

end Grows

end MonteCarlo
end HexGame
