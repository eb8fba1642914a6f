/-
Lexicon.Proofs.Cascade.Links — a target stands for one string.

A deeper level spells strings backward, so climbing from a node to the root reads
the node's word reversed. `Level.restoreUp?_of_spells` says that the climb restores
just that, `Level.followUp?_of_spells` that comparing on the way up is the comparison
with the whole of it; both go by induction on the word of the node.
`Cascade.Resolves` is the same for a target below any number of levels, with the tail
(`resolves_tail`) and a level (`resolves_level`) as its two cases.
-/
import Lexicon.Cascade.Links
import Lexicon.Proofs.Level.Layout
import Lexicon.Proofs.Shape.Words
import Lexicon.Proofs.Tail.Reading

namespace Lexicon

namespace Level

variable {l : Level} {s : Shape} {resolves : Nat → List UInt8 → Prop}

/-- A climb tells the node above and what the edge spells, whether the cache knows it or not. -/
theorem climb?_of_enters (h : l.Lays .backward s resolves) {u v : Nat} {e : Edge}
    (he : s.Enters u e v) :
    ∃ piece, l.climb? v = some (piece, u) ∧ piece.Spells resolves e.label.reverse := by
  have hlt : Cache.nodeSlot l.cache.size v < l.cache.size := Nat.mod_lt _ h.cache_pos
  obtain ⟨slot, hslot⟩ : ∃ slot, l.cache[Cache.nodeSlot l.cache.size v]? = some slot :=
    ⟨_, Array.getElem?_eq_getElem hlt⟩
  rw [climb?, hslot]
  simp only [Option.bind_eq_bind, Option.bind_some]
  by_cases hchild : slot.child.toNat = v
  · obtain ⟨hparent, hpiece⟩ := h.slot_of_child he hslot hchild
    rw [if_pos hchild, hparent]
    exact ⟨slot.piece, rfl, hpiece⟩
  · obtain ⟨piece, hread, hpiece⟩ := h.piece? he
    refine ⟨piece, ?_, hpiece⟩
    rw [if_neg hchild, hread, Option.bind_some]
    by_cases hroot : v ≤ l.rootDegree
    · rw [if_pos hroot, (h.le_rootDegree_iff he).mp hroot]
    · rw [if_neg hroot, h.parent? he, Option.bind_some]

theorem eq_nil_of_spells_zero {w : List UInt8} (h : s.Spells 0 w) : w = [] :=
  h.unique .root

/-! ## Climbing to restore a string -/

/-- The string of a piece, given how the strings of links are restored. -/
def restorePiece? (restore : Nat → Option (List UInt8)) : Piece → Option (List UInt8)
  | .byte b => some [b]
  | .link target => restore target

theorem restorePiece?_of_spells {restore : Nat → Option (List UInt8)}
    (hrestore : ∀ target string, resolves target string → restore target = some string)
    {piece : Piece} {string : List UInt8} (h : piece.Spells resolves string) :
    restorePiece? restore piece = some string := by
  cases piece with
  | byte b => exact congrArg some (Eq.symm h)
  | link target => exact hrestore target string h

/-- One step of a climb: the string of the edge in front of what the climb from above gives. -/
theorem restoreUp?_eq {restore : Nat → Option (List UInt8)} {u v : Nat} {piece : Piece}
    {string : List UInt8} (hclimb : l.climb? v = some (piece, u))
    (hstring : restorePiece? restore piece = some string) :
    l.restoreUp? restore v = if u = 0 then some string
      else if u < v then (l.restoreUp? restore u).map (string ++ ·) else none := by
  rw [restoreUp?, hclimb]
  cases piece with
  | byte b =>
    obtain rfl := Option.some.inj hstring
    rfl
  | link target =>
    rw [restorePiece?] at hstring
    simp only [Option.bind_eq_bind, Option.bind_some, hstring]

theorem restoreUp?_of_spells (h : l.Lays .backward s resolves) {restore : Nat → Option (List UInt8)}
    (hrestore : ∀ target string, resolves target string → restore target = some string) {v : Nat}
    {w : List UInt8} (hv : s.Spells v w) (hne : v ≠ 0) : l.restoreUp? restore v = some w.reverse := by
  induction hv with
  | root => exact absurd rfl hne
  | @down u v w e hu he ih =>
    obtain ⟨piece, hclimb, hpiece⟩ := climb?_of_enters h he
    rw [restoreUp?_eq hclimb (restorePiece?_of_spells hrestore hpiece)]
    by_cases hroot : u = 0
    · subst hroot
      rw [if_pos rfl, eq_nil_of_spells_zero hu, List.nil_append]
    · rw [if_neg hroot, if_pos (h.sound.lt_of_enters he), ih hroot, Option.map_some,
        List.reverse_append]

/-! ## Climbing to compare with a query -/

/-- How far a piece agrees with a query, given how the strings of links do. -/
def followPiece? (copies : Bool) (follow : Nat → List UInt8 → Option Agreement) :
    Piece → List UInt8 → Option Agreement
  | .byte _, [] => none
  | .byte b, c :: _ => some (if b = c then .passed copies [b] else .apart)
  | .link target, query => follow target query

/-- How a comparison goes on above an edge, given the agreement with the edge and how the string
above is restored and compared. -/
def followPast? (copies : Bool) (query : List UInt8) (restored : Option (List UInt8))
    (followed : List UInt8 → Option Agreement) (first : Agreement) : Option Agreement :=
  if (query.drop first.used).isEmpty then
    if copies then restored.map first.complete else some first.fail
  else
    (followed (query.drop first.used)).map first.before

theorem followPast?_eq {copies : Bool} {more query : List UInt8} {first : Agreement}
    {followed : List UInt8 → Option Agreement} (hfits : first.fits = true) (hne : more ≠ [])
    (hfollowed : ∀ rest, rest ≠ [] → followed rest = some (.between copies more rest)) :
    followPast? copies query (some more) followed first
      = some (first.before (.between copies more (query.drop first.used))) := by
  unfold followPast?
  by_cases hrest : query.drop first.used = []
  · rw [hrest, Agreement.before_between_nil hfits hne]
    cases copies <;> rfl
  · rw [if_neg (by simpa using hrest), hfollowed _ hrest, Option.map_some]

/-- One step of a comparison: with the string of the edge, and then, if the query agrees with it,
with what the climb from above spells. -/
theorem followUp?_eq {copies : Bool} {restore : Nat → Option (List UInt8)}
    {follow : Nat → List UInt8 → Option Agreement} {u v : Nat} {piece : Piece} {query : List UInt8}
    {first : Agreement} (hclimb : l.climb? v = some (piece, u))
    (hfollow : followPiece? copies follow piece query = some first) :
    l.followUp? copies restore follow v query = if first.fits then
        if u = 0 then some first
        else if u < v then followPast? copies query (l.restoreUp? restore u)
          (l.followUp? copies restore follow u) first
        else none
      else some first := by
  rw [followUp?, hclimb]
  cases piece with
  | byte b =>
    cases query with
    | nil => cases hfollow
    | cons c rest =>
      obtain rfl := Option.some.inj hfollow
      rfl
  | link target =>
    rw [followPiece?] at hfollow
    simp only [Option.bind_eq_bind, Option.bind_some, hfollow]
    rfl

theorem followPiece?_of_spells {copies : Bool} {follow : Nat → List UInt8 → Option Agreement}
    (hfollow : ∀ target string query, resolves target string → query ≠ [] →
      follow target query = some (.between copies string query)) {piece : Piece}
    {string query : List UInt8} (hpiece : piece.Spells resolves string) (hne : query ≠ []) :
    followPiece? copies follow piece query = some (.between copies string query) := by
  cases piece with
  | byte b =>
    obtain rfl : string = [b] := hpiece
    cases query with
    | nil => exact absurd rfl hne
    | cons c rest =>
      by_cases hbc : b = c
      · subst hbc
        simp [followPiece?, Agreement.between, Agreement.before, Agreement.passed]
      · simp [followPiece?, Agreement.between, hbc]
  | link target => exact hfollow target string query hpiece hne

theorem followUp?_of_spells (h : l.Lays .backward s resolves) {copies : Bool}
    {restore : Nat → Option (List UInt8)} {follow : Nat → List UInt8 → Option Agreement}
    (hrestore : ∀ target string, resolves target string → restore target = some string)
    (hfollow : ∀ target string query, resolves target string → query ≠ [] →
      follow target query = some (.between copies string query)) {v : Nat} {w : List UInt8}
    (hv : s.Spells v w) (hne : v ≠ 0) {query : List UInt8} (hquery : query ≠ []) :
    l.followUp? copies restore follow v query = some (.between copies w.reverse query) := by
  induction hv generalizing query with
  | root => exact absurd rfl hne
  | @down u v w e hu he ih =>
    obtain ⟨piece, hclimb, hpiece⟩ := climb?_of_enters h he
    rw [followUp?_eq hclimb (followPiece?_of_spells hfollow hpiece hquery)]
    by_cases hroot : u = 0
    · subst hroot
      rw [if_pos rfl, ite_self, eq_nil_of_spells_zero hu, List.nil_append]
    · have hw : w.reverse ≠ [] := by
        intro hnil
        rw [List.reverse_eq_nil_iff.mp hnil] at hu
        exact hroot (h.sound.eq_of_spells hu .root)
      rw [if_neg hroot, if_pos (h.sound.lt_of_enters he), List.reverse_append,
        restoreUp?_of_spells h hrestore hu hroot, Agreement.between_append]
      split
      · rename_i hfits
        exact followPast?_eq hfits hw fun rest hrest => ih hroot hrest
      · rfl

end Level

namespace Cascade

/-- Below a level with the given tail and the given levels below it, a target stands for a string. -/
structure Resolves (tail : Tail) (deeper : List Level) (target : Nat) (string : List UInt8) :
    Prop where
  restore : restoreTarget? tail deeper target = some string
  follow : ∀ copies query, query ≠ [] →
    followTarget? copies tail deeper target query = some (.between copies string query)

theorem resolves_tail {tail : Tail} {position : Nat} {string : List UInt8}
    (h : tail.Holds position string) : Resolves tail [] position string where
  restore := Tail.restore?_of_holds h
  follow := fun copies _ hne => Tail.follow?_of_holds copies h hne

theorem resolves_level {level : Level} {deeper : List Level} {s : Shape}
    (h : level.Lays .backward s (Resolves level.tail deeper)) (tail : Tail) {v : Nat}
    {w : List UInt8} (hv : s.Spells v w) (hne : v ≠ 0) :
    Resolves tail (level :: deeper) v w.reverse where
  restore := Level.restoreUp?_of_spells h (fun _ _ hr => hr.restore) hv hne
  follow := fun copies _ hquery =>
    Level.followUp?_of_spells h (fun _ _ hr => hr.restore)
      (fun _ _ query hr => hr.follow copies query) hv hne hquery

end Cascade

end Lexicon
