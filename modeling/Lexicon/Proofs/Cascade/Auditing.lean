/-
Lexicon.Proofs.Cascade.Auditing — numbers that go on by one are the numbers counted from scratch.

A scan counts the first link among some siblings and goes on by one from there; a frame of a tour
does so for the links, the keys and the nodes of a whole layer, however often it is put down and
taken up in between. The audited moves give no answer as soon as a number in use is not the rank of
its place (`Check.recount`). They follow the tree as the others do
(`Cascade.Counts.follow_auditedMoves`), so no number ever differs: of the links and of the keys the
numbers are ranks because a check that lets ranks pass lets these pass, and of the nodes because the
child that a frame looks for has the number of ones before its bit.
-/
import Lexicon.Proofs.Cascade.Moves
import Lexicon.Proofs.Cascade.Navigation

namespace Lexicon

namespace Cascade

/-- The levels tell the tree of a shape, and the bits that spell it are counted. -/
structure Counts (c : Cascade) (s : Shape) : Prop where
  tells : c.Tells s
  louds_rank1? : ∀ {p : Nat}, p ≤ s.loudsBits.length →
    c.top.louds.rank1? p = some (countBefore true s.loudsBits p)

theorem StandsOn.louds_rank1? {reading : Reading} {s : Shape} {level : Level} {deeper : List Level}
    (h : StandsOn reading s level deeper) {p : Nat} (hp : p ≤ s.loudsBits.length) :
    level.louds.rank1? p = some (countBefore true s.loudsBits p) := by
  obtain ⟨targets, hlaid⟩ := h.laid
  have hsize := h.lays.size_lt
  rw [← Shape.length_loudsBits h.lays.sound] at hsize
  rw [hlaid]
  exact BitVector.rank1?_ofBits hsize hp

namespace Counts

variable {c : Cascade} {s : Shape}

/-- Where a frame looks for the `j`-th child of a node, the number of that child is the rank. -/
theorem recount_louds (h : c.Counts s) {u j : Nat} (hu : u < s.nodes.length)
    (hj : j ≤ s.degree u) :
    Check.recount c.top.louds (s.start u + j) (s.firstChild u + j) = some (s.firstChild u + j) := by
  obtain ⟨node, hnode, hdegree⟩ := Shape.exists_node hu
  rw [hdegree] at hj
  obtain ⟨hbit, hones, _⟩ := Shape.loudsBits_row hnode hj
  have hp : s.start u + j ≤ s.loudsBits.length := by
    by_contra hgt
    rw [List.getElem?_eq_none (by omega)] at hbit
    have hrow : j < (Shape.rowOf node).length := by
      rw [Shape.rowOf, List.length_append, List.length_map, List.length_singleton]
      omega
    rw [List.getElem?_eq_getElem hrow] at hbit
    cases hbit
  exact Check.accepts_recount ((h.louds_rank1? hp).trans (congrArg some hones))

/-- In the tree no number in use differs from the rank of its place. -/
theorem follow_auditedMoves (h : c.Counts s) : c.auditedMoves.Follow s :=
  h.tells.follow_checkedMoves Check.accepts_recount h.recount_louds

end Counts

end Cascade

end Lexicon
