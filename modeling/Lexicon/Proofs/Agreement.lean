/-
Lexicon.Proofs.Agreement — what a comparison of two strings comes to.

`Agreement.between` compares two byte strings as wholes. It is the yardstick for the
walkers, which see a stored string only piece by piece: `between_cases` says what
each outcome means, and `between_append` is how a comparison goes on from one piece
to the next.
-/
import Lexicon.Agreement

namespace Lexicon.Agreement

/-- How far a string agrees with the rest of a query. -/
def between (copies : Bool) : (string query : List UInt8) → Agreement
  | [], _ => passed copies []
  | a :: string, [] => ⟨copies, 0, if copies then a :: string else []⟩
  | a :: string, b :: query =>
    if a = b then (passed copies [a]).before (between copies string query) else apart

variable {copies : Bool}

theorem between_nil {string : List UInt8} (h : string ≠ []) :
    between copies string [] = ⟨copies, 0, if copies then string else []⟩ := by
  cases string with
  | nil => exact absurd rfl h
  | cons b string => rfl

@[simp] theorem between_cons (b : UInt8) (string query : List UInt8) :
    between copies (b :: string) (b :: query)
      = (passed copies [b]).before (between copies string query) :=
  if_pos rfl

@[simp] theorem passed_nil_before (g : Agreement) : (passed copies []).before g = g := by
  cases g
  simp [passed, before]

theorem passed_cons_before (b : UInt8) (bytes : List UInt8) (g : Agreement) :
    (passed copies (b :: bytes)).before g
      = (passed copies [b]).before ((passed copies bytes).before g) := by
  have hused : bytes.length + 1 + g.used = 1 + (bytes.length + g.used) := by omega
  cases copies <;> simp [passed, before, hused]

/-- A common front is passed on both sides. -/
theorem between_append_left (copies : Bool) (front string query : List UInt8) :
    between copies (front ++ string) (front ++ query)
      = (passed copies front).before (between copies string query) := by
  induction front with
  | nil => simp
  | cons b front ih =>
    rw [List.cons_append, List.cons_append, between_cons, ih, ← passed_cons_before]

@[simp] theorem between_append_self (string more : List UInt8) :
    between copies string (string ++ more) = passed copies string := by
  have h := between_append_left copies string [] more
  rw [List.append_nil] at h
  rw [h]
  simp [between, before, passed]

theorem between_self_append {query more : List UInt8} (h : more ≠ []) :
    between copies (query ++ more) query
      = ⟨copies, query.length, if copies then query ++ more else []⟩ := by
  have hsplit := between_append_left copies query more []
  rw [List.append_nil] at hsplit
  rw [hsplit, between_nil h]
  cases copies <;> simp [before, passed]

theorem between_append_of_ne (front string query : List UInt8) {a b : UInt8} (h : a ≠ b) :
    between copies (front ++ a :: string) (front ++ b :: query) = (passed copies front).fail := by
  rw [between_append_left, between, if_neg h]
  simp [before, apart, fail]

/-- Either the query starts with the string, or it ends inside it, or they part at two bytes. -/
theorem between_cases (copies : Bool) : ∀ (string query : List UInt8),
    (∃ more, query = string ++ more ∧ between copies string query = passed copies string)
    ∨ (∃ more, more ≠ [] ∧ string = query ++ more ∧ between copies string query
        = ⟨copies, query.length, if copies then string else []⟩)
    ∨ (∃ front a b s q, a ≠ b ∧ string = front ++ a :: s ∧ query = front ++ b :: q
        ∧ between copies string query = (passed copies front).fail)
  | [], query => Or.inl ⟨query, rfl, rfl⟩
  | a :: string, [] => Or.inr (Or.inl ⟨a :: string, List.cons_ne_nil _ _, rfl, rfl⟩)
  | a :: string, b :: query => by
      by_cases hab : a = b
      · subst hab
        rcases between_cases copies string query with ⟨more, hq, _⟩ | ⟨more, hne, hs, _⟩
          | ⟨front, c, d, s, q, hne, hs, hq, _⟩
        · refine Or.inl ⟨more, by rw [hq]; rfl, ?_⟩
          rw [hq, ← List.cons_append, between_append_self]
        · refine Or.inr (Or.inl ⟨more, hne, by rw [hs]; rfl, ?_⟩)
          rw [hs, ← List.cons_append, between_self_append hne]
        · refine Or.inr (Or.inr ⟨a :: front, c, d, s, q, hne, by rw [hs]; rfl, by rw [hq]; rfl, ?_⟩)
          rw [hs, hq, ← List.cons_append, ← List.cons_append, between_append_of_ne _ _ _ hne]
      · have hapart : between copies (a :: string) (b :: query) = (passed copies []).fail :=
          between_append_of_ne [] string query hab
        exact Or.inr (Or.inr ⟨[], a, b, string, query, hab, rfl, rfl, hapart⟩)

/-- A string in two pieces is compared piece by piece. -/
theorem between_append (string more query : List UInt8) :
    between copies (string ++ more) query =
      if (between copies string query).fits then
        (between copies string query).before
          (between copies more (query.drop (between copies string query).used))
      else between copies string query := by
  rcases between_cases copies string query with ⟨rest, hq, h⟩ | ⟨rest, hne, hs, h⟩
    | ⟨front, a, b, s, q, hne, hs, hq, h⟩
  · rw [h, hq, between_append_left]
    simp [passed]
  · have hmore : rest ++ more ≠ [] := by simp [hne]
    rw [h, hs, List.append_assoc, between_self_append hmore]
    cases copies with
    | false => rfl
    | true => cases more <;> simp [before, between, passed]
  · rw [h, hs, hq, List.append_assoc, List.cons_append, between_append_of_ne _ _ _ hne]
    rfl

/-- Where the query ends, what is left of the string is copied, or the comparison fails. -/
theorem before_between_nil {first : Agreement} {more : List UInt8} (hfits : first.fits = true)
    (hne : more ≠ []) : first.before (between copies more [])
      = if copies then first.complete more else first.fail := by
  rw [between_nil hne]
  cases copies <;> simp [before, complete, fail, hfits]

end Lexicon.Agreement
