import HexGame.Board.Setup
import HexGame.Proofs.Board.Place
import HexGame.Proofs.Chain.Bridges

/-!
# Keeping a chain against every play

Bridges keep a chain if they are open, share no carrier, and a stone on one carrier of each completes the
chain (`Keeps`). One stone of the opponent cuts one of them at most, and the reply of the defense closes
that bridge or, where nothing is cut, the first one (`Keeps.respond`). A game that follows the replies
is a run of `Kept`.
-/
namespace HexGame

/-- Open bridges that complete a chain of `color` however they are closed. -/
structure Keeps (b : Board) (color : Color) (ps : List Carriers) : Prop where
  isOpen : ∀ p ∈ ps, b.isOpen p = true
  distinct : ∀ p ∈ ps, p.first ≠ p.second
  disjoint : ps.Pairwise fun p q => p.overlaps q = false
  spans : ∀ own : Cell → Prop, (∀ c, b.owns color c = true → own c) →
    (∀ p ∈ ps, own p.first ∨ own p.second) → Spans color b.size own

/-- The bridges kept a chain of `color` until the opponent played `last`, if there is such a move. -/
def KeepsUntil (b : Board) (color : Color) (ps : List Carriers) : Option Move → Prop
  | none => Keeps b color ps
  | some mv => ∃ b₀, Keeps b₀ color ps ∧ b₀.isEmptyAt mv.cell = true ∧ mv.color = color.opponent ∧
      b = b₀.place mv

section

variable {b b₀ : Board} {color : Color} {ps ps' : List Carriers} {p : Carriers} {c d : Cell}
variable {mv : Move} {last : Option Move} {s : Defense}

namespace Carriers

theorem answerTo_eq_some (h : p.answerTo c = some d) : c ∈ p.cells ∧ d ∈ p.cells := by
  simp only [answerTo] at h
  simp only [mem_cells]
  split at h
  · rename_i hc
    exact ⟨.inl hc.symm, .inr (Option.some.inj h).symm⟩
  split at h
  · rename_i hc
    exact ⟨.inr hc.symm, .inl (Option.some.inj h).symm⟩
  · simp at h

theorem answerTo_ne (hp : p.first ≠ p.second) (h : p.answerTo c = some d) : d ≠ c := by
  rintro rfl
  simp only [answerTo] at h
  split at h
  · simp_all
  split at h
  · simp_all
  · simp at h

theorem not_mem_of_answerTo (h : p.answerTo c = none) : c ∉ p.cells := by
  simp only [answerTo] at h
  simp only [mem_cells]
  rintro (rfl | rfl)
  · simp at h
  · split at h <;> simp at h

end Carriers

namespace Defense

theorem takeAnswer_eq_some (h : takeAnswer c ps = some (d, ps')) :
    ∃ l p r, ps = l ++ p :: r ∧ ps' = l ++ r ∧ p.answerTo c = some d := by
  induction ps generalizing ps' with
  | nil => simp [takeAnswer] at h
  | cons p ps ih =>
    simp only [takeAnswer] at h
    split at h
    · rename_i e he
      obtain ⟨rfl, rfl⟩ := Prod.mk.inj (Option.some.inj h)
      exact ⟨[], p, ps, rfl, rfl, he⟩
    · obtain ⟨⟨e, rest⟩, hrest, he⟩ := Option.map_eq_some_iff.mp h
      obtain ⟨rfl, rfl⟩ := Prod.mk.inj he
      obtain ⟨l, q, r, rfl, rfl, hq⟩ := ih hrest
      exact ⟨p :: l, q, r, rfl, rfl, hq⟩

theorem takeAnswer_eq_none (h : takeAnswer c ps = none) : ∀ p ∈ ps, c ∉ p.cells := by
  induction ps with
  | nil => simp
  | cons p ps ih =>
    simp only [takeAnswer] at h
    split at h
    · simp at h
    · rename_i hp
      rw [Option.map_eq_none_iff] at h
      rintro q hq
      rcases List.mem_cons.mp hq with rfl | hq
      · exact Carriers.not_mem_of_answerTo hp
      · exact ih h q hq

end Defense

theorem mem_middle {l r : List Carriers} {q : Carriers} (h : q ∈ l ++ r) : q ∈ l ++ p :: r := by
  rw [List.mem_append, List.mem_cons]
  exact (List.mem_append.mp h).imp_right .inr

namespace Keeps

variable {mode : Mode} {path : List Cell} {l r : List Carriers}

theorem of_findChain (h : b.findChain color mode = some path) :
    Keeps b color (safeCells path color) := by
  obtain ⟨t, c, rest, ht, rfl, hc, hr⟩ := Board.direct_of_findChain h
  refine ⟨fun p hp => ht.isOpen hp, fun p hp => ht.distinct hp, ht.disjoint, fun own hown hfill => ?_⟩
  obtain ⟨hjoined, hspans⟩ := ht.joined hown hfill hc
  cases ho : b.owns color c with
  | true => exact ⟨c, hjoined ho, hr⟩
  | false => exact hspans ho

theorem mono (h : Keeps b₀ color ps) (hsize : b.size = b₀.size)
    (hown : ∀ c, b₀.owns color c = true → b.owns color c = true)
    (hopen : ∀ p ∈ ps, b.isOpen p = true) : Keeps b color ps where
  isOpen := hopen
  distinct := h.distinct
  disjoint := h.disjoint
  spans := fun own hb hfill => hsize ▸ h.spans own (fun c hc => hb c (hown c hc)) hfill

theorem disjoint_middle (h : Keeps b color (l ++ p :: r)) :
    (∀ q ∈ l ++ r, p.overlaps q = false) ∧ (l ++ r).Pairwise fun p q => p.overlaps q = false := by
  have hcomm {p q : Carriers} (h : p.overlaps q = false) : q.overlaps p = false := by
    rw [Carriers.not_overlaps_iff] at h ⊢
    exact fun c hq hp => h c hp hq
  exact List.pairwise_cons.mp ((List.pairwise_middle hcomm).mp h.disjoint)

/-- A stone on a carrier closes its bridge, and the others keep the chain. -/
theorem close (h : Keeps b₀ color (l ++ p :: r)) (hsize : b.size = b₀.size)
    (hown : ∀ c, b₀.owns color c = true → b.owns color c = true)
    (hopen : ∀ q ∈ l ++ r, b.isOpen q = true) (hc : c ∈ p.cells) (he : b.isEmptyAt c = true) :
    Keeps (b.place ⟨c, color⟩) color (l ++ r) := by
  obtain ⟨hp, hdisjoint⟩ := h.disjoint_middle
  refine ⟨fun q hq => Board.isOpen_iff.mpr fun d hd => ?_,
    fun q hq => h.distinct q (mem_middle hq), hdisjoint, fun own hb hfill => ?_⟩
  · rw [Board.isEmptyAt_place he]
    refine ⟨?_, Board.isOpen_iff.mp (hopen q hq) d hd⟩
    rintro rfl
    exact Carriers.not_overlaps_iff.mp (hp q hq) _ hc hd
  · rw [Board.size_place, hsize]
    apply h.spans own fun d hd => hb d (Board.owns_place_of_owns he (hown d hd))
    intro q hq
    have hstone : own c := hb c ((Board.owns_place he).mpr (.inl ⟨rfl, rfl⟩))
    rw [List.mem_append, List.mem_cons] at hq
    rcases hq with hq | rfl | hq
    · exact hfill q (List.mem_append.mpr (.inl hq))
    · rcases Carriers.mem_cells.mp hc with rfl | rfl
      · exact .inl hstone
      · exact .inr hstone
    · exact hfill q (List.mem_append.mpr (.inr hq))

theorem isConnected (h : Keeps b color []) : b.isConnected color .strict = true :=
  Board.isConnected_of_spans (h.spans _ (fun _ hc => hc) (by simp))

end Keeps

namespace KeepsUntil

/-- What is left of a board on which the bridges kept the chain: its stones and, but for the cell that
was played on, its empty cells. -/
theorem exists_keeps (h : KeepsUntil b color ps last) :
    ∃ b₀, Keeps b₀ color ps ∧ b.size = b₀.size ∧
      (∀ c, b₀.owns color c = true → b.owns color c = true) ∧
      (∀ c, b₀.isEmptyAt c = true → (∀ mv, last = some mv → c ≠ mv.cell) → b.isEmptyAt c = true) ∧
      ∀ mv, last = some mv → mv.cell.wrapped = mv.cell := by
  cases last with
  | none => exact ⟨b, h, rfl, fun _ hc => hc, fun _ hc _ => hc, by simp⟩
  | some mv =>
    obtain ⟨b₀, hk, he, -, rfl⟩ := h
    refine ⟨b₀, hk, Board.size_place b₀ mv, fun c hc => Board.owns_place_of_owns he hc,
      fun c hc hne => (Board.isEmptyAt_place he).mpr ⟨hne mv rfl, hc⟩, ?_⟩
    rintro _ ⟨⟩
    exact Board.wrapped_of_contains (Board.isEmptyAt_iff.mp he).1

/-- A bridge can be closed on a carrier that the last move left free, if it cut no other bridge. -/
theorem close {l r : List Carriers} (h : KeepsUntil b color (l ++ p :: r) last) (hc : c ∈ p.cells)
    (hlast : ∀ mv, last = some mv → c ≠ mv.cell ∧ ∀ q ∈ l ++ r, mv.cell ∉ q.cells) :
    b.isEmptyAt c = true ∧ Keeps (b.place ⟨c, color⟩) color (l ++ r) := by
  obtain ⟨b₀, hk, hsize, hown, hempty, -⟩ := h.exists_keeps
  have hopen {q : Carriers} (hq : q ∈ l ++ p :: r) {d : Cell} (hd : d ∈ q.cells) :
      b₀.isEmptyAt d = true :=
    Board.isOpen_iff.mp (hk.isOpen q hq) d hd
  have he := hempty c (hopen (by simp) hc) fun mv hmv => (hlast mv hmv).1
  refine ⟨he, hk.close hsize hown (fun q hq => Board.isOpen_iff.mpr fun d hd => ?_) hc he⟩
  apply hempty d (hopen (mem_middle hq) hd)
  rintro mv hmv rfl
  exact (hlast mv hmv).2 q hq hd

theorem keeps_nil (h : KeepsUntil b color [] last) : Keeps b color [] := by
  obtain ⟨b₀, hk, hsize, hown, -⟩ := h.exists_keeps
  exact hk.mono hsize hown (by simp)

/-- The defense replies on an empty cell while it has a bridge, and the others keep the chain on the
board that results. -/
theorem respond (h : KeepsUntil b color ps last) :
    (ps = [] ∧ Defense.respond ⟨some color, ps⟩ last = (none, ⟨some color, ps⟩)) ∨
      ∃ c ps', Defense.respond ⟨some color, ps⟩ last = (some ⟨c, color⟩, ⟨some color, ps'⟩) ∧
        b.isEmptyAt c = true ∧ ps.length = ps'.length + 1 ∧ Keeps (b.place ⟨c, color⟩) color ps' := by
  obtain ⟨b₀, hk, -, -, -, hwrapped⟩ := h.exists_keeps
  cases hx : last.bind fun mv => Defense.takeAnswer mv.cell.wrapped ps with
  | some x =>
    obtain ⟨c, ps'⟩ := x
    obtain ⟨mv, rfl, htake⟩ := Option.bind_eq_some_iff.mp hx
    rw [hwrapped mv rfl] at htake
    obtain ⟨l, p, r, rfl, rfl, hanswer⟩ := Defense.takeAnswer_eq_some htake
    obtain ⟨hhit, hc⟩ := Carriers.answerTo_eq_some hanswer
    obtain ⟨he, hkeeps⟩ := h.close hc (by
      rintro _ ⟨⟩
      refine ⟨Carriers.answerTo_ne (hk.distinct p (by simp)) hanswer, fun q hq hmem => ?_⟩
      exact Carriers.not_overlaps_iff.mp (hk.disjoint_middle.1 q hq) _ hhit hmem)
    refine .inr ⟨c, l ++ r, by simp [Defense.respond, hx], he, ?_, hkeeps⟩
    simp only [List.length_append, List.length_cons]
    omega
  | none =>
    cases ps with
    | nil => exact .inl ⟨rfl, by simp [Defense.respond, hx]⟩
    | cons p ps =>
      have hmiss (mv : Move) (hmv : last = some mv) : ∀ q ∈ p :: ps, mv.cell ∉ q.cells := by
        subst hmv
        rw [Option.bind_some, hwrapped mv rfl] at hx
        exact Defense.takeAnswer_eq_none hx
      have hfirst : p.first ∈ p.cells := Carriers.mem_cells.mpr (.inl rfl)
      obtain ⟨he, hkeeps⟩ := close (l := []) h hfirst fun mv hmv =>
        ⟨fun heq => hmiss mv hmv p (by simp) (heq ▸ hfirst),
          fun q hq => hmiss mv hmv q (List.mem_cons_of_mem p hq)⟩
      exact .inr ⟨p.first, ps, by simp [Defense.respond, hx], he, rfl, hkeeps⟩

theorem of_respond {r : Move} {s' : Defense} (h : KeepsUntil b color ps last)
    (hreply : Defense.respond ⟨some color, ps⟩ last = (some r, s')) :
    ∃ ps', s' = ⟨some color, ps'⟩ ∧ r.color = color ∧ b.isEmptyAt r.cell = true ∧
      ps.length = ps'.length + 1 ∧ Keeps (b.place r) color ps' := by
  rcases h.respond with ⟨-, hnone⟩ | ⟨c, ps', hsome, he, hlen, hkeeps⟩
  · simp [hnone] at hreply
  · obtain ⟨hr, hs'⟩ := Prod.mk.inj (hsome.symm.trans hreply)
    obtain rfl := Option.some.inj hr
    exact ⟨ps', hs'.symm, rfl, he, hlen, hkeeps⟩

end KeepsUntil

/-! ## Games -/

/-- A turn of the player who keeps a chain: the move the opponent has just made, if there is one, and
the replies given before. -/
structure Turn where
  board : Board
  defense : Defense
  last : Option Move
  replies : Nat

/-- The turns of `color` in all games from `b` in which it replies by the defense `s` and the opponent
plays any legal moves. -/
inductive KeptGame (b : Board) (s : Defense) (color : Color) : Turn → Prop where
  | opening (hturn : b.toMove = color) : KeptGame b s color ⟨b, s, none, 0⟩
  | entered {mv : Move} {b' : Board} (hturn : b.toMove = color.opponent)
      (hplay : b.tryPlay mv = .ok b') : KeptGame b s color ⟨b', s, some mv, 0⟩
  | answered {k : Turn} {mv r : Move} {s' : Defense} {b' : Board} (hk : KeptGame b s color k)
      (hreply : k.defense.respond k.last = (some r, s'))
      (hplay : (k.board.place r).tryPlay mv = .ok b') :
      KeptGame b s color ⟨b', s', some mv, k.replies + 1⟩

/-- The bridges still kept the chain before the opponent's move, and each reply has taken one. -/
structure Turn.Kept (color : Color) (total : Nat) (k : Turn) : Prop where
  toMove : k.board.toMove = color
  bridges : ∃ ps, k.defense = ⟨some color, ps⟩ ∧ KeepsUntil k.board color ps k.last ∧
    k.replies + ps.length = total

theorem Board.toMove_place (b : Board) (mv : Move) : (b.place mv).toMove = mv.color.opponent := rfl

theorem KeptGame.kept {k : Turn} (h : KeptGame b ⟨some color, ps⟩ color k)
    (hps : Keeps b color ps) : k.Kept color ps.length := by
  induction h with
  | opening hturn => exact ⟨hturn, ps, rfl, hps, Nat.zero_add _⟩
  | @entered mv b' hturn hplay =>
    obtain ⟨hmv, he, rfl⟩ := Board.tryPlay_eq_ok.mp hplay
    rw [hturn] at hmv
    refine ⟨?_, ps, rfl, ⟨b, hps, he, hmv, rfl⟩, Nat.zero_add _⟩
    rw [Board.toMove_place, hmv, Color.opponent_opponent]
  | @answered k mv r s' b' hk hreply hplay ih =>
    obtain ⟨hmv, he, rfl⟩ := Board.tryPlay_eq_ok.mp hplay
    obtain ⟨qs, hqs, hkeeps, hlen⟩ := ih.bridges
    rw [hqs] at hreply
    obtain ⟨qs', rfl, hcolor, -, hlen', hkeeps'⟩ := hkeeps.of_respond hreply
    rw [Board.toMove_place, hcolor] at hmv
    refine ⟨?_, qs', rfl, ⟨_, hkeeps', he, hmv, rfl⟩, ?_⟩
    · rw [Board.toMove_place, hmv, Color.opponent_opponent]
    · simp only
      omega

/-- What the defense does at a turn: it replies with a legal move on an empty cell as long as a bridge is
open, closes one of `total` bridges with each reply, and has completed the chain when none is left. -/
structure Turn.Secured (color : Color) (total : Nat) (k : Turn) : Prop where
  complete : k.defense.bridges = [] → k.board.isConnected color .strict = true
  replies : k.defense.bridges ≠ [] → ∃ r s', k.defense.respond k.last = (some r, s')
  legal : ∀ r s', k.defense.respond k.last = (some r, s') → k.board.Contains r.cell ∧
    k.board.isEmptyAt r.cell = true ∧ k.board.tryPlay r = .ok (k.board.place r)
  closes : ∀ r s', k.defense.respond k.last = (some r, s') →
    k.replies + 1 + s'.bridges.length = total ∧
      (s'.bridges = [] → (k.board.place r).isConnected color .strict = true)

theorem Turn.Kept.secured {k : Turn} {total : Nat} (h : k.Kept color total) :
    k.Secured color total := by
  obtain ⟨hturn, ps, hdef, hkeeps, hlen⟩ := h
  refine ⟨?_, ?_, ?_, ?_⟩ <;> rw [hdef]
  · intro hnil
    simp only at hnil
    exact (hnil ▸ hkeeps).keeps_nil.isConnected
  · intro hne
    rcases hkeeps.respond with ⟨hnil, -⟩ | ⟨c, ps', hsome, -⟩
    · exact absurd hnil hne
    · exact ⟨_, _, hsome⟩
  · intro r s' hreply
    obtain ⟨ps', -, hcolor, he, -⟩ := hkeeps.of_respond hreply
    refine ⟨(Board.isEmptyAt_iff.mp he).1, he, ?_⟩
    exact Board.tryPlay_eq_ok.mpr ⟨hcolor.trans hturn.symm, he, rfl⟩
  · intro r s' hreply
    obtain ⟨ps', rfl, -, -, hlen', hkeeps'⟩ := hkeeps.of_respond hreply
    refine ⟨?_, ?_⟩
    · simp only
      omega
    · intro hnil
      simp only at hnil
      exact (hnil ▸ hkeeps').isConnected

/-- A virtual chain is a won game, whoever is to move and whatever the opponent plays. -/
theorem virtual_chain_is_won (h : b.isConnected color .virtual = true) :
    ∃ s, Defense.find b color = some s ∧
      (s.bridges = [] → b.isConnected color .strict = true) ∧
      ∀ k, KeptGame b s color k → k.Secured color s.bridges.length := by
  obtain ⟨path, hpath⟩ := Option.isSome_iff_exists.mp h
  have hps := Keeps.of_findChain hpath
  refine ⟨⟨some color, safeCells path color⟩, by simp [Defense.find, hpath], ?_, ?_⟩
  · intro hnil
    simp only at hnil
    exact (hnil ▸ hps).isConnected
  · intro k hk
    exact (hk.kept hps).secured

/-- A red stone in the middle of nine cells. -/
def middleStone : Board := (Board.blank 3 .red (by decide)).place ⟨⟨1, 1⟩, .red⟩

theorem middleStone_is_won : middleStone.isConnected .red .virtual = true ∧
    ∃ s, Defense.find middleStone .red = some s ∧
      (s.bridges = [] → middleStone.isConnected .red .strict = true) ∧
      ∀ k, KeptGame middleStone s .red k → k.Secured .red s.bridges.length :=
  ⟨by decide, virtual_chain_is_won (by decide)⟩

end
end HexGame
