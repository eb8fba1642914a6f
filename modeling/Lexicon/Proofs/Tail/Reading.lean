/-
Lexicon.Proofs.Tail.Reading — reading a string that a tail holds.

`Tail.Holds` says that a string stands at a position, whichever way it ends. A string
that stands there is restored (`restore?_of_holds`), and a query is compared with the
whole of it (`follow?_of_holds`): the answer is `Agreement.between`, although the
comparison reads byte by byte and stops as soon as it can.
-/
import Lexicon.Proofs.Agreement
import Lexicon.Proofs.Bits.Ranks
import Lexicon.Tail.Basic

namespace Lexicon.Tail

/-- A string stands at a position, and ends there and not before. -/
inductive Holds (t : Tail) : Nat → List UInt8 → Prop
  | last {i : Nat} {b : UInt8} : t.bytes[i]? = some b → (t.mode = .text → b ≠ 0) →
    t.endsAt? (i + 1) = some true → Holds t i [b]
  | more {i : Nat} {b : UInt8} {string : List UInt8} : t.bytes[i]? = some b →
    (t.mode = .text → b ≠ 0) → t.endsAt? (i + 1) = some false → Holds t (i + 1) string →
    Holds t i (b :: string)

variable {t : Tail} {i : Nat} {string : List UInt8}

theorem Holds.ne_nil (h : t.Holds i string) : string ≠ [] := by
  cases h <;> exact List.cons_ne_nil _ _

theorem endsAt?_text (h : t.mode = .text) (i : Nat) :
    t.endsAt? i = (t.bytes[i]?).map (· == 0) := by
  rw [endsAt?, h]

theorem endsAt?_binary (h : t.mode = .binary) (i : Nat) :
    t.endsAt? i = t.endFlags.get? (i - 1) := by
  rw [endsAt?, h]

/-- A byte that is not the last one is put in front of what comes behind it. -/
theorem restore?_more {b : UInt8} (hb : t.bytes[i]? = some b) (hnul : t.mode = .text → b ≠ 0)
    (hend : t.endsAt? (i + 1) = some false) :
    t.restore? i = (t.restore? (i + 1)).map (b :: ·) := by
  obtain ⟨hlt, hget⟩ := Array.getElem?_eq_some_iff.mp hb
  rw [restore?, dif_pos hlt]
  simp only [hget]
  cases hmode : t.mode with
  | text => simp only [if_neg (hnul hmode)]
  | binary =>
    rw [endsAt?_binary hmode, Nat.add_sub_cancel] at hend
    simp only [hend, Option.bind_some, Bool.false_eq_true, if_false]

theorem restore?_last {b : UInt8} (hb : t.bytes[i]? = some b) (hnul : t.mode = .text → b ≠ 0)
    (hend : t.endsAt? (i + 1) = some true) : t.restore? i = some [b] := by
  obtain ⟨hlt, hget⟩ := Array.getElem?_eq_some_iff.mp hb
  rw [restore?, dif_pos hlt]
  simp only [hget]
  cases hmode : t.mode with
  | text =>
    rw [endsAt?_text hmode] at hend
    obtain ⟨nul, hnul', hzero⟩ := Option.map_eq_some_iff.mp hend
    obtain ⟨hlt', hget'⟩ := Array.getElem?_eq_some_iff.mp hnul'
    have hzero' : t.bytes[i + 1] = 0 := hget'.trans (beq_iff_eq.mp hzero)
    simp only [if_neg (hnul hmode)]
    rw [restore?, dif_pos hlt']
    simp only [hmode, if_pos hzero']
    rfl
  | binary =>
    rw [endsAt?_binary hmode, Nat.add_sub_cancel] at hend
    simp only [hend, Option.bind_some, if_true]

theorem restore?_of_holds (h : t.Holds i string) : t.restore? i = some string := by
  induction h with
  | last hb hnul hend => exact restore?_last hb hnul hend
  | more hb hnul hend _ ih => rw [restore?_more hb hnul hend, ih, Option.map_some]

/-- Past a byte that agrees the comparison goes on with what comes behind it. -/
theorem follow?_more {copies : Bool} {b : UInt8} {rest : List UInt8} (hb : t.bytes[i]? = some b)
    (hend : t.endsAt? (i + 1) = some false) (hrest : t.restore? (i + 1) = some string)
    (hne : string ≠ []) (hfollow : rest ≠ [] →
      t.follow? copies (i + 1) rest = some (.between copies string rest)) :
    t.follow? copies i (b :: rest) = some (.between copies (b :: string) (b :: rest)) := by
  rw [follow?, hb, Agreement.between_cons]
  simp only [Option.bind_eq_bind, Option.bind_some, if_true, hend, Bool.false_eq_true, if_false]
  cases rest with
  | nil =>
    rw [Agreement.before_between_nil rfl hne, hrest]
    cases copies <;> rfl
  | cons c rest =>
    rw [hfollow (List.cons_ne_nil c rest)]
    rfl

theorem follow?_of_ne {copies : Bool} {b c : UInt8} {rest : List UInt8} (hb : t.bytes[i]? = some b)
    (hbc : b ≠ c) (string : List UInt8) :
    t.follow? copies i (c :: rest) = some (.between copies (b :: string) (c :: rest)) := by
  rw [follow?, hb, Agreement.between, if_neg hbc]
  simp [hbc]

theorem follow?_of_holds (copies : Bool) (h : t.Holds i string) {query : List UInt8}
    (hne : query ≠ []) : t.follow? copies i query = some (.between copies string query) := by
  induction h generalizing query with
  | @last i b hb _ hend =>
    cases query with
    | nil => exact absurd rfl hne
    | cons c rest =>
      by_cases hbc : b = c
      · subst hbc
        have hpassed : Agreement.between copies [b] (b :: rest) = .passed copies [b] :=
          Agreement.between_append_self [b] rest
        rw [follow?, hb, hpassed]
        simp [hend]
      · exact follow?_of_ne hb hbc []
  | @more i b string hb _ hend hrest ih =>
    cases query with
    | nil => exact absurd rfl hne
    | cons c rest =>
      by_cases hbc : b = c
      · subst hbc
        exact follow?_more hb hend (restore?_of_holds hrest) hrest.ne_nil ih
      · exact follow?_of_ne hb hbc string

/-! ## Where strings stand -/

/-- In a tail of text a string stands where its bytes and a NUL byte do. -/
theorem holds_of_text (hmode : t.mode = .text) : ∀ {string front back : List UInt8},
    t.bytes.toList = front ++ string ++ 0 :: back → string ≠ [] → 0 ∉ string →
    t.Holds front.length string
  | [], _, _, _, hne, _ => absurd rfl hne
  | [b], front, back, hbytes, _, hnul => by
      have hb : t.bytes[front.length]? = some b := by
        rw [← Array.getElem?_toList, hbytes]
        simp
      have hend : t.bytes[front.length + 1]? = some 0 := by
        rw [← Array.getElem?_toList, hbytes]
        simp
      refine .last hb ?_ ?_
      · intro _ hzero
        exact hnul (by simp [hzero])
      · rw [endsAt?_text hmode, hend]
        rfl
  | b :: c :: string, front, back, hbytes, _, hnul => by
      have hb : t.bytes[front.length]? = some b := by
        rw [← Array.getElem?_toList, hbytes]
        simp
      have hc : t.bytes[front.length + 1]? = some c := by
        rw [← Array.getElem?_toList, hbytes]
        simp
      have hc' : c ≠ 0 := by
        intro hzero
        exact hnul (by simp [hzero])
      have hbytes' : t.bytes.toList = (front ++ [b]) ++ (c :: string) ++ 0 :: back := by
        rw [hbytes]
        simp
      have hrest : t.Holds (front ++ [b]).length (c :: string) := by
        refine holds_of_text hmode hbytes' (List.cons_ne_nil _ _) ?_
        intro hmem
        exact hnul (List.mem_cons_of_mem b hmem)
      rw [List.length_append, List.length_singleton] at hrest
      refine .more hb ?_ ?_ hrest
      · intro _ hzero
        exact hnul (by simp [hzero])
      · rw [endsAt?_text hmode, hc]
        simp [hc']

/-- In a binary tail a string stands where its bytes do and only its last one is flagged. -/
theorem holds_of_binary (hmode : t.mode = .binary) : ∀ {string front back : List UInt8},
    t.bytes.toList = front ++ string ++ back → string ≠ [] →
    (∀ j, j < string.length →
      t.endFlags.get? (front.length + j) = some (decide (j + 1 = string.length))) →
    t.Holds front.length string
  | [], _, _, _, hne, _ => absurd rfl hne
  | [b], front, back, hbytes, _, hflags => by
      have hb : t.bytes[front.length]? = some b := by
        rw [← Array.getElem?_toList, hbytes]
        simp
      refine .last hb (fun htext => absurd (hmode.symm.trans htext) (by decide)) ?_
      rw [endsAt?_binary hmode, Nat.add_sub_cancel]
      exact hflags 0 (Nat.succ_pos 0)
  | b :: c :: string, front, back, hbytes, _, hflags => by
      have hb : t.bytes[front.length]? = some b := by
        rw [← Array.getElem?_toList, hbytes]
        simp
      have hbytes' : t.bytes.toList = (front ++ [b]) ++ (c :: string) ++ back := by
        rw [hbytes]
        simp
      have hrest : t.Holds (front ++ [b]).length (c :: string) := by
        refine holds_of_binary hmode hbytes' (List.cons_ne_nil _ _) ?_
        intro j hj
        have hflag := hflags (j + 1) (by simpa using hj)
        rw [List.length_append, List.length_singleton, Nat.add_assoc, Nat.add_comm 1 j, hflag]
        simp
      rw [List.length_append, List.length_singleton] at hrest
      refine .more hb (fun htext => absurd (hmode.symm.trans htext) (by decide)) ?_ hrest
      rw [endsAt?_binary hmode, Nat.add_sub_cancel]
      have hflag := hflags 0 (Nat.succ_pos _)
      simpa using hflag

end Lexicon.Tail
