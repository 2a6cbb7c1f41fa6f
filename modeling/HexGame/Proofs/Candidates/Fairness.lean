import HexGame.Proofs.Board.Line
import HexGame.Proofs.Candidates
import Mathlib.Algebra.Order.BigOperators.Group.List
import Mathlib.Algebra.Order.Ring.Nat

/-!
# Fair servings

A list of candidates is used by requests that add nodes and requests for the next one. No node is lost or
given out twice, and each waits in the bucket of its number of stones (`Placed`). The bucket that is served is
the first of the least served ones that have candidates (`IsDue`), so the servings of two buckets do not drift
apart as long as both have candidates (`imbalance_answer_le`). Requests can fail, but only when a bucket has been
served as often as can be counted (`answerAll_eq_error`).
-/
namespace HexGame

namespace CandidateList

open scoped List

variable {V G : Type} {l l' : CandidateList V G} {t : SearchTree V} {ts : List (SearchTree V)}
variable {b : Bucket V} {bs : List (Bucket V)} {size i j : Nat}

/-! ## Whose turn it is -/

/-- The bucket to be served: of those with candidates, the first of the ones served least. -/
structure IsDue (bs : List (Bucket V)) (i : Nat) (b : Bucket V) : Prop where
  bucket : bs[i]? = some b
  waiting : b.nodes ≠ []
  least : ∀ (j : Nat) (c : Bucket V), bs[j]? = some c → c.nodes ≠ [] → b.served ≤ c.served
  first : ∀ (j : Nat) (c : Bucket V), bs[j]? = some c → c.nodes ≠ [] → c.served = b.served → i ≤ j

theorem leastServed_le {c : Bucket V} {k : Nat} (h : leastServed i bs = some (j, b)) (hk : bs[k]? = some c)
    (hc : c.nodes ≠ []) : b.served < c.served ∨ (b.served = c.served ∧ j ≤ i + k) := by
  induction bs generalizing i j b k with
  | nil => cases h
  | cons d bs ih =>
    unfold leastServed at h
    split at h
    · rename_i hd
      cases k with
      | zero =>
        obtain rfl := Option.some.inj hk
        exact absurd (List.isEmpty_iff.mp hd) hc
      | succ k =>
        have hrest := ih h hk
        omega
    · split at h
      · rename_i hnone
        cases h
        cases k with
        | zero =>
          obtain rfl := Option.some.inj hk
          exact .inr ⟨rfl, Nat.le_refl _⟩
        | succ k => exact absurd (leastServed_eq_none hnone c (List.mem_of_getElem? hk)) hc
      · rename_i m e hsome
        have hrest (k : Nat) (hk : bs[k]? = some c) := ih hsome hk
        split at h <;> cases h <;> cases k
        · obtain rfl := Option.some.inj hk
          exact .inl ‹_›
        · have := hrest _ hk
          omega
        · obtain rfl := Option.some.inj hk
          exact .inr ⟨rfl, Nat.le_refl _⟩
        · have := hrest _ hk
          omega

theorem isDue_of_leastServed (h : leastServed 0 bs = some (i, b)) : IsDue bs i b := by
  obtain ⟨-, hb, hne⟩ := leastServed_eq_some h
  refine ⟨hb, hne, fun j c hj hc => ?_, fun j c hj hc heq => ?_⟩
  · have := leastServed_le h hj hc
    omega
  · have := leastServed_le h hj hc
    omega

variable [ChoiceSource G]

/-- The node that is taken out was waiting in the bucket to be served, which has been served once more; all
other buckets stay as they are. -/
theorem next_of_leastServed (h : leastServed 0 l.buckets = some (i, b)) :
    ∃ t b' source, l.next = some (t, ⟨l.buckets.set i b', source⟩) ∧ b'.served = b.served + 1 ∧
      b.nodes.Perm (t :: b'.nodes) := by
  have hpos := List.length_pos_iff.mpr (leastServed_eq_some h).2.2
  let pick := ChoiceSource.below b.nodes.length hpos l.source
  refine ⟨b.nodes[pick.1], ⟨b.served + 1, swapRemove b.nodes pick.1⟩, pick.2, ?_, rfl, perm_swapRemove pick.1.isLt⟩
  simp only [next, h, dif_pos hpos]
  rfl

theorem isDue_of_next (h : l.next = some (t, l')) :
    ∃ i b b', IsDue l.buckets i b ∧ l'.buckets = l.buckets.set i b' ∧ b'.served = b.served + 1 ∧
      b.nodes.Perm (t :: b'.nodes) := by
  cases hleast : leastServed 0 l.buckets with
  | none => simp [next, hleast] at h
  | some due =>
    obtain ⟨t', b', source, hnext, hserved, hperm⟩ := next_of_leastServed hleast
    cases h.symm.trans hnext
    exact ⟨due.1, due.2, b', isDue_of_leastServed hleast, rfl, hserved, hperm⟩

theorem next_eq_none_iff : l.next = none ↔ l.nodes = [] := by
  refine ⟨fun h => isEmpty_iff.mp (isEmpty_of_next_eq_none h), fun hnil => ?_⟩
  cases h : l.next with
  | none => rfl
  | some result =>
    have hperm := (next_eq_some h).1
    rw [hnil] at hperm
    exact absurd hperm.length_eq (by simp)

theorem serve_eq_none_iff : l.serve = .ok none ↔ l.nodes = [] := by
  refine ⟨fun h => next_eq_none_iff.mp (next_of_serve h), fun hnil => ?_⟩
  unfold serve
  split
  · rfl
  · rename_i i b hleast
    obtain ⟨-, hb, hne⟩ := leastServed_eq_some hleast
    exact absurd (List.flatMap_eq_nil_iff.mp hnil b (List.mem_of_getElem? hb)) hne

/-- As long as a node waits some bucket is due. It is served if its count has room, and nothing is if not. -/
theorem serve_of_nodes (h : l.nodes ≠ []) : ∃ i b, IsDue l.buckets i b ∧
    (b.served < Bucket.maxServed → ∃ t b' source, l.serve = .ok (some (t, ⟨l.buckets.set i b', source⟩)) ∧
      b'.served = b.served + 1 ∧ b.nodes.Perm (t :: b'.nodes)) ∧
    (Bucket.maxServed ≤ b.served → l.serve = .error (.overrun .addition)) := by
  cases hleast : leastServed 0 l.buckets with
  | none => exact absurd (by simpa [nodes] using leastServed_eq_none hleast) h
  | some due =>
    obtain ⟨t, b', source, hnext, hserved, hperm⟩ := next_of_leastServed hleast
    refine ⟨due.1, due.2, isDue_of_leastServed hleast, fun hroom => ⟨t, b', source, ?_, hserved, hperm⟩,
      fun hfull => ?_⟩
    · simp only [serve, hleast, if_pos hroom, hnext]
    · simp only [serve, hleast, if_neg (Nat.not_lt.mpr hfull)]

theorem serve_eq_error {fault : Fault} (h : l.serve = .error fault) :
    fault = .overrun .addition ∧ ∃ i b, IsDue l.buckets i b ∧ Bucket.maxServed ≤ b.served := by
  unfold serve at h
  split at h
  · cases h
  · rename_i i b hleast
    split at h <;> cases h
    exact ⟨rfl, i, b, isDue_of_leastServed hleast, Nat.not_lt.mp ‹_›⟩

/-! ## Requests -/

/-- What is asked of a list of candidates. -/
inductive Request (V : Type) where
  | add (ts : List (SearchTree V))
  | next

namespace Request

def added : Request V → List (SearchTree V)
  | add ts => ts
  | next => []

def isNext : Request V → Bool
  | add _ => false
  | next => true

end Request

/-- The nodes that are given out, one or none, and the list that is left. -/
def answer (l : CandidateList V G) : Request V → Except Fault (List (SearchTree V) × CandidateList V G)
  | .add ts => .ok ([], l.addAll ts)
  | .next =>
    match l.serve with
    | .ok none => .ok ([], l)
    | .ok (some (t, l')) => .ok ([t], l')
    | .error fault => .error fault

/-- All nodes that are given out, in order, and the list that is left. -/
def answerAll (l : CandidateList V G) :
    List (Request V) → Except Fault (List (SearchTree V) × CandidateList V G)
  | [] => .ok ([], l)
  | r :: rs => do
    let (given, l) ← l.answer r
    let (later, l) ← answerAll l rs
    return (given ++ later, l)

variable {r : Request V} {rs : List (Request V)} {given : List (SearchTree V)}

/-- A request is answered by adding nodes, by changing nothing when no node waits, or by giving one out. -/
theorem answer_cases (h : l.answer r = .ok (given, l')) :
    (∃ ts, r = .add ts ∧ given = [] ∧ l' = l.addAll ts) ∨ (r = .next ∧ given = [] ∧ l' = l) ∨
      ∃ t, r = .next ∧ given = [t] ∧ l.next = some (t, l') := by
  unfold answer at h
  split at h
  · cases h
    exact .inl ⟨_, rfl, rfl, rfl⟩
  · split at h <;> cases h
    · exact .inr (.inl ⟨rfl, rfl, rfl⟩)
    · exact .inr (.inr ⟨_, rfl, rfl, next_of_serve ‹_›⟩)

theorem answerAll_cons : l.answerAll (r :: rs) = .ok (given, l') ↔
    ∃ first later l₁, l.answer r = .ok (first, l₁) ∧ l₁.answerAll rs = .ok (later, l') ∧ given = first ++ later := by
  constructor
  · intro h
    obtain ⟨⟨first, l₁⟩, hfirst, h⟩ := bind_eq_ok.mp h
    obtain ⟨⟨later, l₂⟩, hlater, h⟩ := bind_eq_ok.mp h
    cases h
    exact ⟨first, later, l₁, hfirst, hlater, rfl⟩
  · rintro ⟨first, later, l₁, hfirst, hlater, rfl⟩
    exact bind_eq_ok.mpr ⟨_, hfirst, bind_eq_ok.mpr ⟨_, hlater, rfl⟩⟩

/-! ## Where nodes wait -/

/-- There is one bucket for each number of stones, and the nodes in it have so many. -/
structure Placed (size : Nat) (l : CandidateList V G) : Prop where
  length : l.buckets.length = size * size + 1
  stones : ∀ (i : Nat) (b : Bucket V), l.buckets[i]? = some b →
    ∀ t ∈ b.nodes, t.value.board.stoneCounts.stones = i

omit [ChoiceSource G] in
theorem placed_empty (size : Nat) (source : G) : Placed size (empty size source : CandidateList V G) := by
  refine ⟨by simp [empty], fun i b hb t ht => ?_⟩
  obtain rfl := List.eq_of_mem_replicate (List.mem_of_getElem? hb)
  simp at ht

namespace Placed

omit [ChoiceSource G]

theorem buckets_ne_nil (h : Placed size l) : l.buckets ≠ [] :=
  List.ne_nil_of_length_pos (by have := h.length; omega)

theorem add (h : Placed size l) (ht : t.value.board.size = size) : Placed size (l.add t) := by
  have hroom := t.value.board.stones_add_empty
  rw [ht] at hroom
  have hplace : min t.value.board.stoneCounts.stones (l.buckets.length - 1) =
      t.value.board.stoneCounts.stones := by
    have := h.length
    omega
  refine ⟨by simpa [CandidateList.add] using h.length, fun i b hb u hu => ?_⟩
  rw [CandidateList.add, hplace, List.getElem?_modify] at hb
  obtain ⟨b₀, hb₀, rfl⟩ := Option.map_eq_some_iff.mp hb
  by_cases hi : t.value.board.stoneCounts.stones = i
  · rw [if_pos hi, List.mem_append, List.mem_singleton] at hu
    rcases hu with hu | rfl
    · exact h.stones i b₀ hb₀ u hu
    · exact hi
  · rw [if_neg hi] at hu
    exact h.stones i b₀ hb₀ u hu

theorem addAll (h : Placed size l) (hts : ∀ t ∈ ts, t.value.board.size = size) :
    Placed size (l.addAll ts) := by
  induction ts generalizing l with
  | nil => exact h
  | cons t ts ih => exact ih (h.add (hts t (by simp))) fun u hu => hts u (by simp [hu])

theorem next [ChoiceSource G] (h : Placed size l) (hnext : l.next = some (t, l')) : Placed size l' := by
  obtain ⟨i, b, b', hdue, hbuckets, -, hperm⟩ := isDue_of_next hnext
  refine ⟨by rw [hbuckets, List.length_set]; exact h.length, fun j d hd u hu => ?_⟩
  rw [hbuckets] at hd
  by_cases hij : i = j
  · subst hij
    obtain ⟨hlt, -⟩ := List.getElem?_eq_some_iff.mp hdue.bucket
    rw [List.getElem?_set_self hlt] at hd
    obtain rfl := Option.some.inj hd
    exact h.stones i b hdue.bucket u (hperm.mem_iff.mpr (List.mem_cons_of_mem t hu))
  · rw [List.getElem?_set_ne hij] at hd
    exact h.stones j d hd u hu

end Placed

theorem answer_spec (h : Placed size l) (hr : ∀ t ∈ r.added, t.value.board.size = size)
    (hanswer : l.answer r = .ok (given, l')) :
    Placed size l' ∧ (r.added ++ l.nodes).Perm (given ++ l'.nodes) := by
  obtain ⟨ts, rfl, rfl, rfl⟩ | ⟨rfl, rfl, rfl⟩ | ⟨t, rfl, rfl, hnext⟩ := answer_cases hanswer
  · exact ⟨h.addAll hr, (perm_nodes_addAll h.buckets_ne_nil).symm⟩
  · exact ⟨h, .refl _⟩
  · exact ⟨h.next hnext, (next_eq_some hnext).1⟩

theorem answerAll_spec (h : Placed size l) (hrs : ∀ t ∈ rs.flatMap Request.added, t.value.board.size = size)
    (hanswers : l.answerAll rs = .ok (given, l')) :
    Placed size l' ∧ (rs.flatMap Request.added ++ l.nodes).Perm (given ++ l'.nodes) := by
  induction rs generalizing l given with
  | nil =>
    cases hanswers
    exact ⟨h, .refl _⟩
  | cons r rs ih =>
    obtain ⟨first, later, l₁, hfirst, hlater, rfl⟩ := answerAll_cons.mp hanswers
    rw [List.flatMap_cons] at hrs ⊢
    obtain ⟨hplaced, hperm⟩ := answer_spec h (fun t ht => hrs t (List.mem_append_left _ ht)) hfirst
    obtain ⟨hplaced', hperm'⟩ := ih hplaced (fun t ht => hrs t (List.mem_append_right _ ht)) hlater
    refine ⟨hplaced', ?_⟩
    calc r.added ++ rs.flatMap Request.added ++ l.nodes
      _ = r.added ++ (rs.flatMap Request.added ++ l.nodes) := List.append_assoc ..
      _ ~ rs.flatMap Request.added ++ (r.added ++ l.nodes) := List.perm_append_comm_assoc ..
      _ ~ rs.flatMap Request.added ++ (first ++ l₁.nodes) := hperm.append_left _
      _ ~ first ++ (rs.flatMap Request.added ++ l₁.nodes) := List.perm_append_comm_assoc ..
      _ ~ first ++ (later ++ l'.nodes) := hperm'.append_left _
      _ = first ++ later ++ l'.nodes := (List.append_assoc ..).symm

/-! ## Fairness -/

/-- How far the servings of two buckets are apart. -/
def imbalance (l : CandidateList V G) (i j : Nat) : Nat :=
  ((l.served.getD i 0 : Int) - l.served.getD j 0).natAbs

def Waits (l : CandidateList V G) (i : Nat) : Prop := ∃ b, l.buckets[i]? = some b ∧ b.nodes ≠ []

omit [ChoiceSource G] in
theorem served_getD (hb : l.buckets[i]? = some b) : l.served.getD i 0 = b.served := by
  rw [served, List.getD_eq_getElem?_getD, List.getElem?_map, hb]
  rfl

omit [ChoiceSource G] in
theorem served_add : (l.add t).served = l.served := by
  simp only [served, add]
  apply List.ext_getElem?
  intro k
  rw [List.getElem?_map, List.getElem?_map, List.getElem?_modify]
  cases l.buckets[k]? with
  | none => rfl
  | some b =>
    simp only [Option.map_eq_map, Option.map_some]
    split <;> rfl

omit [ChoiceSource G] in
theorem served_addAll : (l.addAll ts).served = l.served := by
  induction ts generalizing l with
  | nil => rfl
  | cons t ts ih => exact ih.trans served_add

/-- The bucket that is due has been served no more often than the other, so serving it once more leaves the
two at most one apart, or brings them nearer. -/
theorem imbalance_next (h : l.next = some (t, l')) (hi : l.Waits i) (hj : l.Waits j) :
    l'.imbalance i j ≤ max 1 (l.imbalance i j) := by
  obtain ⟨k, b, b', hdue, hbuckets, hserved, -⟩ := isDue_of_next h
  obtain ⟨bi, hbi, hnei⟩ := hi
  obtain ⟨bj, hbj, hnej⟩ := hj
  have hleasti := hdue.least i bi hbi hnei
  have hleastj := hdue.least j bj hbj hnej
  have hafter (m : Nat) (c : Bucket V) (hc : l.buckets[m]? = some c) :
      (l'.served.getD m 0 = b.served + 1 ∧ c.served = b.served) ∨ l'.served.getD m 0 = c.served := by
    by_cases hkm : k = m
    · subst hkm
      obtain ⟨hlt, -⟩ := List.getElem?_eq_some_iff.mp hdue.bucket
      obtain rfl := Option.some.inj (hdue.bucket.symm.trans hc)
      left
      rw [← hserved]
      exact ⟨served_getD (by rw [hbuckets, List.getElem?_set_self hlt]), rfl⟩
    · right
      exact served_getD (by rw [hbuckets, List.getElem?_set_ne hkm, hc])
  have hai := hafter i bi hbi
  have haj := hafter j bj hbj
  unfold imbalance
  rw [served_getD hbi, served_getD hbj]
  omega

theorem imbalance_answer_le (hanswer : l.answer r = .ok (given, l')) (hwait : r = .next → l.Waits i ∧ l.Waits j) :
    l'.imbalance i j ≤ max 1 (l.imbalance i j) := by
  obtain ⟨ts, rfl, -, rfl⟩ | ⟨rfl, -, rfl⟩ | ⟨t, rfl, -, hnext⟩ := answer_cases hanswer
  · have hsame : (l.addAll ts).imbalance i j = l.imbalance i j := by
      simp only [imbalance, served_addAll]
    exact hsame ▸ Nat.le_max_right 1 _
  · exact Nat.le_max_right 1 _
  · obtain ⟨hi, hj⟩ := hwait rfl
    exact imbalance_next hnext hi hj

theorem imbalance_answerAll_le (hanswers : l.answerAll rs = .ok (given, l'))
    (hwait : ∀ before after first l₁, rs = before ++ .next :: after → l.answerAll before = .ok (first, l₁) →
      l₁.Waits i ∧ l₁.Waits j) :
    l'.imbalance i j ≤ max 1 (l.imbalance i j) := by
  induction rs generalizing l given with
  | nil =>
    cases hanswers
    exact Nat.le_max_right 1 _
  | cons r rs ih =>
    obtain ⟨first, later, l₁, hfirst, hlater, -⟩ := answerAll_cons.mp hanswers
    have hstep : l₁.imbalance i j ≤ max 1 (l.imbalance i j) := by
      apply imbalance_answer_le hfirst
      rintro rfl
      exact hwait [] rs [] l rfl rfl
    have hrest : l'.imbalance i j ≤ max 1 (l₁.imbalance i j) :=
      ih hlater fun before after second l₂ hrs hbefore =>
        hwait (r :: before) after (first ++ second) l₂ (by rw [hrs, List.cons_append])
          (answerAll_cons.mpr ⟨first, second, l₁, hfirst, hbefore, rfl⟩)
    omega

/-! ## Room for the counts -/

theorem sum_served_answer (h : l.answer r = .ok (given, l')) :
    l'.served.sum = l.served.sum + given.length ∧ given.length ≤ [r].countP Request.isNext := by
  obtain ⟨ts, rfl, rfl, rfl⟩ | ⟨rfl, rfl, rfl⟩ | ⟨t, rfl, rfl, hnext⟩ := answer_cases h
  · exact ⟨congrArg List.sum served_addAll, Nat.zero_le _⟩
  · exact ⟨rfl, Nat.zero_le _⟩
  · obtain ⟨k, b, b', hdue, hbuckets, hserved, -⟩ := isDue_of_next hnext
    obtain ⟨hk, rfl⟩ := List.getElem?_eq_some_iff.mp hdue.bucket
    obtain ⟨before, after, hsplit, -, hset⟩ := List.exists_of_set hk
    refine ⟨?_, Nat.le_refl _⟩
    rw [served, served, hbuckets, hset, congrArg (List.map (·.served)) hsplit]
    simp only [List.map_append, List.map_cons, List.sum_append, List.sum_cons, hserved, List.length_singleton]
    omega

omit [ChoiceSource G] in
theorem served_le_sum (hb : l.buckets[i]? = some b) : b.served ≤ l.served.sum :=
  List.le_sum_of_mem (List.mem_map_of_mem (List.mem_of_getElem? hb))

theorem answer_eq_error {fault : Fault} (h : l.answer r = .error fault) :
    r = .next ∧ fault = .overrun .addition ∧ Bucket.maxServed ≤ l.served.sum := by
  unfold answer at h
  split at h
  · cases h
  · split at h <;> cases h
    rename_i hserve
    obtain ⟨hfault, i, b, hdue, hfull⟩ := serve_eq_error hserve
    exact ⟨rfl, hfault, Nat.le_trans hfull (served_le_sum hdue.bucket)⟩

/-- Only a count without room ends the requests, and that takes more of them than can be counted. -/
theorem answerAll_eq_error {fault : Fault} (h : l.answerAll rs = .error fault) :
    fault = .overrun .addition ∧ Bucket.maxServed < l.served.sum + rs.countP Request.isNext := by
  induction rs generalizing l with
  | nil => cases h
  | cons r rs ih =>
    have hcount : ([r] ++ rs).countP Request.isNext = [r].countP Request.isNext + rs.countP Request.isNext :=
      List.countP_append
    rw [List.singleton_append] at hcount
    obtain hfirst | ⟨⟨first, l₁⟩, hfirst, h⟩ := bind_eq_error.mp h
    · obtain ⟨rfl, hfault, hfull⟩ := answer_eq_error hfirst
      have hone : [(Request.next : Request V)].countP Request.isNext = 1 := rfl
      exact ⟨hfault, by omega⟩
    · obtain hlater | ⟨_, -, h⟩ := bind_eq_error.mp h
      · obtain ⟨hfault, hmany⟩ := ih hlater
        obtain ⟨hsum, hgiven⟩ := sum_served_answer hfirst
        exact ⟨hfault, by omega⟩
      · cases h

/-- Of all nodes that are added to a new list of candidates, each is given out or waits in the bucket of its
number of stones. There is a next node whenever any waits, and it comes from the bucket that is due. Over
requests during which two buckets have candidates whenever one is asked for, their servings do not come to be
further apart than they were, or than one. What can end the requests is a bucket that has been served as often
as can be counted, after more requests than that. -/
theorem serves_fairly {source : G} (hmake : make size source = .ok l)
    (hsize : ∀ t ∈ rs.flatMap Request.added, t.value.board.size = size) :
    (∀ fault, l.answerAll rs = .error fault → fault = .overrun .addition ∧ 2 ^ 32 ≤ rs.countP Request.isNext) ∧
    ∀ given l', l.answerAll rs = .ok (given, l') →
      (rs.flatMap Request.added).Perm (given ++ l'.nodes) ∧
      (∀ (i : Nat) (b : Bucket V), l'.buckets[i]? = some b →
        ∀ t ∈ b.nodes, t.value.board.stoneCounts.stones = i) ∧
      (l'.serve = .ok none ↔ l'.nodes = []) ∧
      (l'.nodes ≠ [] → ∃ i b, IsDue l'.buckets i b ∧
        (b.served < Bucket.maxServed → ∃ t b' source,
          l'.serve = .ok (some (t, ⟨l'.buckets.set i b', source⟩)) ∧ b'.served = b.served + 1 ∧
          b.nodes.Perm (t :: b'.nodes)) ∧
        (Bucket.maxServed ≤ b.served → l'.serve = .error (.overrun .addition))) ∧
      ∀ i j later given' l'', l'.answerAll later = .ok (given', l'') →
        (∀ before after first l₁, later = before ++ .next :: after → l'.answerAll before = .ok (first, l₁) →
          l₁.Waits i ∧ l₁.Waits j) →
        l''.imbalance i j ≤ max 1 (l'.imbalance i j) := by
  obtain ⟨-, -, hl⟩ := bind_eq_ok.mp hmake
  obtain rfl := Except.ok.inj hl
  refine ⟨fun fault hfault => ?_, fun given l' hanswers => ?_⟩
  · obtain ⟨hbound, hmany⟩ := answerAll_eq_error hfault
    have hfresh : (empty size source : CandidateList V G).served.sum = 0 := by simp [empty, served]
    have hsize : Bucket.maxServed = 2 ^ 32 - 1 := rfl
    exact ⟨hbound, by omega⟩
  · obtain ⟨hplaced, hperm⟩ := answerAll_spec (placed_empty size source) hsize hanswers
    have hnone : (empty size source : CandidateList V G).nodes = [] := by simp [empty, nodes]
    rw [hnone, List.append_nil] at hperm
    exact ⟨hperm, hplaced.stones, serve_eq_none_iff, serve_of_nodes,
      fun i j later given' l'' => imbalance_answerAll_le⟩

def blankCandidate : SearchTree Float := .leaf (.fresh (Board.blank 2 .red two_le_maxSize))

def cornerCandidate : SearchTree Float :=
  .leaf (.fresh ((Board.blank 2 .red two_le_maxSize).place ⟨⟨0, 0⟩, .red⟩))

/-- Two buckets with two candidates each take turns. -/
theorem serves_fairly_twoBuckets :
    let l : CandidateList Float Generator := empty 2 (.ofSeed 1)
    let ts := [cornerCandidate, blankCandidate, cornerCandidate, blankCandidate]
    make 2 (Generator.ofSeed 1) = .ok l ∧
    ∃ given l', l.answerAll [.add ts, .next, .next] = .ok (given, l') ∧
      l'.served = [1, 1, 0, 0, 0] ∧ l'.waiting = [1, 1, 0, 0, 0] ∧ ts.Perm (given ++ l'.nodes) ∧
      (l'.serve = .ok none ↔ l'.nodes = []) ∧
      ∃ given' l'', l'.answerAll [.next] = .ok (given', l'') ∧ l''.served = [2, 1, 0, 0, 0] ∧
        l''.imbalance 0 1 ≤ 1 := by
  intro l ts
  have hrun : (l.answerAll [.add ts, .next, .next]).map (fun r => (r.2.served, r.2.waiting)) =
      .ok ([1, 1, 0, 0, 0], [1, 1, 0, 0, 0]) := by decide +kernel
  have hlater : ((l.answerAll [.add ts, .next, .next]).bind (·.2.answerAll [.next])).map (·.2.served) =
      .ok [2, 1, 0, 0, 0] := by decide +kernel
  have hmake : make 2 (Generator.ofSeed 1) = .ok l := rfl
  cases hanswers : l.answerAll [.add ts, .next, .next] with
  | error fault =>
    rw [hanswers] at hrun
    cases hrun
  | ok result =>
    obtain ⟨given, l'⟩ := result
    rw [hanswers] at hrun hlater
    obtain ⟨hserved, hwaiting⟩ := Prod.mk.inj (Except.ok.inj hrun)
    have hsize : ∀ t ∈ [Request.add ts, .next, .next].flatMap Request.added, t.value.board.size = 2 := by
      decide +kernel
    obtain ⟨hperm, -, hnone, -, hfair⟩ := (serves_fairly hmake hsize).2 given l' hanswers
    cases hlast : l'.answerAll [.next] with
    | error fault =>
      simp [Except.bind, hlast, Except.map] at hlater
    | ok result =>
      obtain ⟨given', l''⟩ := result
      simp only [Except.bind, hlast, Except.map, Except.ok.injEq] at hlater
      have hwaits (i : Nat) (hi : l'.waiting[i]? = some 1) : l'.Waits i := by
        obtain ⟨b, hb, hlength⟩ := Option.map_eq_some_iff.mp (List.getElem?_map.symm.trans hi)
        exact ⟨b, hb, fun hnil => by rw [hnil] at hlength; cases hlength⟩
      have hbound := hfair 0 1 [.next] given' l'' hlast fun before after first l₁ hsplit hbefore => by
        cases before with
        | nil =>
          cases hbefore
          exact ⟨hwaits 0 (by rw [hwaiting]; rfl), hwaits 1 (by rw [hwaiting]; rfl)⟩
        | cons r before => simp at hsplit
      have hsame : l'.imbalance 0 1 = 0 := by
        rw [imbalance, hserved]
        rfl
      rw [hsame] at hbound
      exact ⟨hmake, given, l', rfl, hserved, hwaiting, hperm, hnone, given', l'', hlast, hlater, hbound⟩

end CandidateList
end HexGame
