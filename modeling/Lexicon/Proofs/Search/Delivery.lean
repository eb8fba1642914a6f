/-
Lexicon.Proofs.Search.Delivery — a search that gives one key at each call.

`Delivers search a hits` says what a caller sees who repeats a search: the hits one
after the other, each as the key of the agent, and then a no at every further call.
A search of a dictionary is that of the agent's memory on the moves of its levels
(`Dictionary.lookup_of_some` and the like).
-/
import Lexicon.Dictionary
import Mathlib.Logic.Function.Iterate

namespace Lexicon

/-! ## Searches of a dictionary -/

namespace Agent

variable {σ : Type}

theorem query_after (a : Agent σ) (state : σ) (answer : Option Answer) :
    (a.after state answer).1.query = a.query := by
  cases answer <;> rfl

/-- A search that changes nothing and finds nothing leaves the agent alone. -/
theorem after_self {a : Agent σ} {state : σ} (h : a.state = some state) :
    a.after state none = (a, false) := by
  rw [after, ← h]

variable [Memory σ]

@[simp] theorem searchState_after (a : Agent σ) (state : σ) (answer : Option Answer) :
    (a.after state answer).1.searchState = state := by
  cases answer <;> rfl

/-- Forgetting what is suspended leaves a fresh agent. -/
@[simp] theorem searchState_reset (a : Agent) : a.reset.searchState.progress = .fresh := by
  unfold reset searchState
  cases a.state <;> rfl

/-- Setting a query leaves no search suspended. -/
@[simp] theorem searchState_setQuery (a : Agent) (query : List UInt8) :
    (a.setQuery query).searchState.progress = .fresh :=
  searchState_reset _

end Agent

namespace Dictionary

variable {σ : Type} {c : Cascade} {a : Agent σ}

theorem search_of_eq_some {α : Type} {run : Moves → Option (Agent σ × Except Fault α)}
    {found : Agent σ × Except Fault α} (h : run c.moves = some found) :
    search ⟨some c⟩ a run = found := by
  simp [search, h]

/-- A search that says yes or no. -/
theorem search_hit {f : Moves → Option (Agent σ × Bool)} {found : Agent σ × Bool}
    (h : f c.moves = some found) :
    search ⟨some c⟩ a (fun m => (f m).map fun (a, hit) => (a, .ok hit))
      = (found.1, .ok found.2) :=
  search_of_eq_some (by rw [h]; rfl)

variable [Memory σ] {state : σ}

theorem lookup_of_some {found : Option Nat}
    (h : Memory.lookup? c.moves a.query a.searchState = some (state, found)) :
    lookup ⟨some c⟩ a = ((a.after state (found.map (.front a.query.length))).1,
      .ok (a.after state (found.map (.front a.query.length))).2) :=
  search_hit (by rw [Moves.searchExact?, h]; rfl)

theorem reverseLookup_of_some (hlt : a.queryId < c.numKeys)
    (h : Memory.restore? c.moves a.queryId a.searchState = some state) :
    reverseLookup ⟨some c⟩ a = ((a.after state (some (.buffered a.queryId))).1, .ok ()) := by
  have hlt' : a.queryId < c.moves.numKeys := hlt
  exact search_of_eq_some (by rw [Moves.searchId?, if_pos hlt', h]; rfl)

/-- An unknown id fails, and gives the agent a search state all the same. -/
theorem reverseLookup_unknown (hle : c.numKeys ≤ a.queryId) :
    reverseLookup ⟨some c⟩ a
      = ((a.after a.searchState none).1, .error (.unknownId a.queryId c.numKeys)) :=
  search_of_eq_some (if_neg (Nat.not_lt.mpr hle))

theorem prefixSearch_of_some {found : Option (Nat × Nat)}
    (h : Memory.nextPrefix? c.moves a.query a.searchState = some (state, found)) :
    prefixSearch ⟨some c⟩ a
      = ((a.after state (found.map fun (id, length) => .front length id)).1,
        .ok (a.after state (found.map fun (id, length) => .front length id)).2) :=
  search_hit (by rw [Moves.searchPrefix?, h]; rfl)

theorem extensionSearch_of_some {found : Option Nat}
    (h : Memory.nextExtension? c.moves a.query a.searchState = some (state, found)) :
    extensionSearch ⟨some c⟩ a
      = ((a.after state (found.map .buffered)).1, .ok (a.after state (found.map .buffered)).2) :=
  search_hit (by rw [Moves.searchExtension?, h]; rfl)

end Dictionary

/-! ## Repeating a search -/

/-- Repeating a search on an agent gives the listed keys with their ids in turn, and no more keys
after the last one, however often it is repeated. -/
def Delivers {σ : Type} [Memory σ] (search : Agent σ → Agent σ × Except Fault Bool) :
    Agent σ → List (List UInt8 × Nat) → Prop
  | a, [] => ∀ n, (search ((fun a => (search a).1)^[n] a)).2 = .ok false
  | a, hit :: hits => ∃ a', search a = (a', .ok true) ∧ a'.key = hit.1 ∧ a'.keyId = hit.2
      ∧ Delivers search a' hits

namespace Delivers

variable {σ τ : Type} [Memory σ] [Memory τ] {search : Agent σ → Agent σ × Except Fault Bool}
  {search' : Agent τ → Agent τ × Except Fault Bool} {a a' : Agent σ}

/-- An agent that a search leaves alone when it says no is answered no for good. -/
theorem nil_of_fixed (h : search a = (a, .ok false)) : Delivers search a [] := by
  intro n
  have hfixed : (fun a => (search a).1)^[n] a = a :=
    Function.iterate_fixed (by rw [h]) n
  rw [hfixed, h]

/-- A search that says no ends there if the agent that it gives back is answered no for good. -/
theorem nil_of_step (h : search a = (a', .ok false)) (hrest : Delivers search a' []) :
    Delivers search a [] := by
  intro n
  cases n with
  | zero => exact congrArg Prod.snd h
  | succ n =>
    rw [Function.iterate_succ_apply, h]
    exact hrest n

/-- What was answered no is answered no again. -/
theorem nil_step (h : Delivers search a []) : Delivers search (search a).1 [] :=
  fun n => h (n + 1)

theorem cons {hit : List UInt8 × Nat} {hits : List (List UInt8 × Nat)}
    (h : search a = (a', .ok true)) (hkey : a'.key = hit.1) (hid : a'.keyId = hit.2)
    (hrest : Delivers search a' hits) : Delivers search a (hit :: hits) :=
  ⟨a', h, hkey, hid, hrest⟩

/-- Agents that their searches cannot tell apart are delivered the same. -/
theorem of_alike {alike : Agent σ → Agent τ → Prop}
    (hstep : ∀ {a b}, alike a b → (search' b).2 = (search a).2 ∧ alike (search a).1 (search' b).1
      ∧ ((search a).2 = .ok true → (search' b).1.key = (search a).1.key
        ∧ (search' b).1.keyId = (search a).1.keyId)) {b : Agent τ}
    {hits : List (List UInt8 × Nat)} (hab : alike a b) (h : Delivers search a hits) :
    Delivers search' b hits := by
  induction hits generalizing a b with
  | nil =>
    intro n
    have halike : alike ((fun a => (search a).1)^[n] a) ((fun b => (search' b).1)^[n] b) := by
      clear h
      induction n generalizing a b with
      | zero => exact hab
      | succ n ih => exact ih (hstep hab).2.1
    rw [(hstep halike).1]
    exact h n
  | cons hit hits ih =>
    obtain ⟨a', hsearch, hkey, hid, hrest⟩ := h
    obtain ⟨hsame, hnext, hkeys⟩ := hstep hab
    rw [hsearch] at hsame hnext hkeys
    obtain ⟨hkey', hid'⟩ := hkeys rfl
    exact cons (Prod.ext rfl hsame) (hkey'.trans hkey) (hid'.trans hid) (ih hnext hrest)

end Delivers

end Lexicon
