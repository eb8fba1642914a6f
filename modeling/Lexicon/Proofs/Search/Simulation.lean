/-
Lexicon.Proofs.Search.Simulation — one memory in place of another.

A relation between two memories is a simulation if each search that starts from related
ones finds the same and leaves related ones (`Memory.Simulates`). Agents whose memories
are so related cannot be told apart (`Agent.Shows`): every request has one outcome, shows
one key, and leaves related agents (`Agent.Shows.serve`). Rows of requests follow by
induction (`Agent.Shows.serveAll`, `Agent.Shows.replies`), and so does what a repeated
search delivers (`Agent.Shows.extensionSearch_delivers`).
-/
import Lexicon.Proofs.Search.Delivery
import Lexicon.Requests
import Mathlib.Data.List.Forall2

namespace Lexicon

/-! ## Related results -/

theorem rel_map {α β γ δ : Type} {R : α → β → Prop} {S : γ → δ → Prop} {x : Option α}
    {y : Option β} (h : Option.Rel R x y) {f : α → γ} {g : β → δ}
    (hstep : ∀ {a b}, R a b → S (f a) (g b)) : Option.Rel S (x.map f) (y.map g) := by
  cases h with
  | none => exact .none
  | some hab => exact .some (hstep hab)

/-- Two searches, or two requests, came to the same and left what is related. -/
structure Found {σ τ α : Type} (R : σ → τ → Prop) (found : σ × α) (found' : τ × α) : Prop where
  rest : R found.1 found'.1
  same : found'.2 = found.2

/-- Whatever is kept in one memory can be kept in the other: no search tells related ones apart. -/
structure Memory.Simulates {σ τ : Type} [Memory σ] [Memory τ] (R : σ → τ → Prop) : Prop where
  fresh : R Memory.fresh Memory.fresh
  reset : ∀ {s t}, R s t → R (Memory.reset s) (Memory.reset t)
  buffer : ∀ {s t}, R s t → Memory.buffer t = Memory.buffer s
  lookup? : ∀ {s t} (m : Moves) (query : List UInt8), R s t →
    Option.Rel (Found R) (Memory.lookup? m query s) (Memory.lookup? m query t)
  restore? : ∀ {s t} (m : Moves) (id : Nat), R s t →
    Option.Rel R (Memory.restore? m id s) (Memory.restore? m id t)
  nextPrefix? : ∀ {s t} (m : Moves) (query : List UInt8), R s t →
    Option.Rel (Found R) (Memory.nextPrefix? m query s) (Memory.nextPrefix? m query t)
  nextExtension? : ∀ {s t} (m : Moves) (query : List UInt8), R s t →
    Option.Rel (Found R) (Memory.nextExtension? m query s) (Memory.nextExtension? m query t)

/-! ## Agents -/

/-- Two agents differ only in what they keep for their searches, and that is related. -/
structure Agent.Shows {σ τ : Type} (R : σ → τ → Prop) (a : Agent σ) (b : Agent τ) : Prop where
  query : b.query = a.query
  queryId : b.queryId = a.queryId
  answer : b.answer = a.answer
  state : Option.Rel R a.state b.state

namespace Agent.Shows

variable {σ τ : Type} {R : σ → τ → Prop} {a : Agent σ} {b : Agent τ}

theorem keyId (h : a.Shows R b) : b.keyId = a.keyId :=
  congrArg Answer.id h.answer

theorem hasState (h : a.Shows R b) : b.hasState = a.hasState := by
  have hstate := h.state
  unfold Agent.hasState
  generalize a.state = state at hstate ⊢
  generalize b.state = state' at hstate ⊢
  cases hstate <;> rfl

theorem after (h : a.Shows R b) {s : σ} {t : τ} (hst : R s t) (answer : Option Answer) :
    Found (Agent.Shows R) (a.after s answer) (b.after t answer) := by
  cases answer with
  | none => exact ⟨⟨h.query, h.queryId, h.answer, .some hst⟩, rfl⟩
  | some answer => exact ⟨⟨h.query, h.queryId, rfl, .some hst⟩, rfl⟩

/-- Searches on the levels that come to the same make searches of a dictionary that do. -/
theorem search {α : Type} (h : a.Shows R b) (d : Dictionary)
    {run : Moves → Option (Agent σ × Except Fault α)}
    {run' : Moves → Option (Agent τ × Except Fault α)}
    (hrun : ∀ m, Option.Rel (Found (Agent.Shows R)) (run m) (run' m)) :
    Found (Agent.Shows R) (d.search a run) (d.search b run') := by
  unfold Dictionary.search
  cases d.cascade with
  | none => exact ⟨h, rfl⟩
  | some c =>
    have hfound := hrun c.moves
    dsimp only
    generalize run c.moves = found at hfound ⊢
    generalize run' c.moves = found' at hfound ⊢
    cases hfound with
    | none => exact ⟨h, rfl⟩
    | some hfound => exact hfound

/-- A search that finds an answer or none. -/
theorem search_after {α : Type} (h : a.Shows R b) (d : Dictionary) (answerOf : α → Answer)
    {find : Moves → Option (σ × Option α)} {find' : Moves → Option (τ × Option α)}
    (hfind : ∀ m, Option.Rel (Found R) (find m) (find' m)) :
    Found (Agent.Shows R)
      (d.search a fun m => ((find m).map fun (state, found) =>
        a.after state (found.map answerOf)).map fun (a, hit) => (a, .ok hit))
      (d.search b fun m => ((find' m).map fun (state, found) =>
        b.after state (found.map answerOf)).map fun (b, hit) => (b, .ok hit)) := by
  refine h.search d fun m => ?_
  have hafter : Option.Rel (Found (Agent.Shows R))
      ((find m).map fun (state, found) => a.after state (found.map answerOf))
      ((find' m).map fun (state, found) => b.after state (found.map answerOf)) := by
    refine rel_map (hfind m) ?_
    rintro ⟨s, found⟩ ⟨t, _⟩ ⟨hst, rfl⟩
    exact h.after hst _
  refine rel_map hafter ?_
  rintro ⟨a', hit⟩ ⟨b', _⟩ ⟨hrest, rfl⟩
  exact ⟨hrest, rfl⟩

variable [Memory σ] [Memory τ]

theorem searchState (h : a.Shows R b) (hR : Memory.Simulates R) :
    R a.searchState b.searchState := by
  have hstate := h.state
  unfold Agent.searchState
  generalize a.state = state at hstate ⊢
  generalize b.state = state' at hstate ⊢
  cases hstate with
  | none => exact hR.fresh
  | some hst => exact hst

theorem key (h : a.Shows R b) (hR : Memory.Simulates R) : b.key = a.key := by
  have hbuffer := hR.buffer (h.searchState hR)
  unfold Agent.key
  rw [h.answer, h.query]
  cases a.answer with
  | nothing => rfl
  | front length id => rfl
  | buffered id => exact hbuffer

theorem reset (h : a.Shows R b) (hR : Memory.Simulates R) : a.reset.Shows R b.reset :=
  ⟨h.query, h.queryId, rfl, rel_map h.state hR.reset⟩

/-! ## Requests -/

section

variable (h : a.Shows R b) (hR : Memory.Simulates R) (d : Dictionary)
include h hR

theorem initState : Found (Agent.Shows R) (d.serve a .initState) (d.serve b .initState) := by
  unfold Dictionary.serve Agent.initState
  rw [h.hasState]
  cases a.hasState with
  | true => exact ⟨h, rfl⟩
  | false => exact ⟨⟨h.query, h.queryId, h.answer, .some hR.fresh⟩, rfl⟩

theorem lookup : Found (Agent.Shows R) (d.lookup a) (d.lookup b) := by
  unfold Dictionary.lookup Moves.searchExact?
  rw [h.query]
  exact h.search_after d _ fun m => hR.lookup? m a.query (h.searchState hR)

theorem prefixSearch : Found (Agent.Shows R) (d.prefixSearch a) (d.prefixSearch b) := by
  unfold Dictionary.prefixSearch Moves.searchPrefix?
  rw [h.query]
  exact h.search_after d _ fun m => hR.nextPrefix? m a.query (h.searchState hR)

theorem extensionSearch : Found (Agent.Shows R) (d.extensionSearch a) (d.extensionSearch b) := by
  unfold Dictionary.extensionSearch Moves.searchExtension?
  rw [h.query]
  exact h.search_after d _ fun m => hR.nextExtension? m a.query (h.searchState hR)

theorem reverseLookup : Found (Agent.Shows R) (d.reverseLookup a) (d.reverseLookup b) := by
  refine h.search d fun m => ?_
  have hst := h.searchState hR
  unfold Moves.searchId?
  rw [h.queryId]
  by_cases hlt : a.queryId < m.numKeys
  · rw [if_pos hlt, if_pos hlt]
    exact rel_map (hR.restore? m a.queryId hst) fun hst' => ⟨(h.after hst' _).rest, rfl⟩
  · rw [if_neg hlt, if_neg hlt]
    exact .some ⟨(h.after hst _).rest, rfl⟩

/-- A request to a dictionary comes to the same for related agents, and leaves them related. -/
theorem serve (r : Request) : Found (Agent.Shows R) (d.serve a r) (d.serve b r) := by
  cases r with
  | setQuery query =>
    have hset : Agent.Shows R { a with query } { b with query } :=
      ⟨rfl, h.queryId, h.answer, h.state⟩
    exact ⟨hset.reset hR, rfl⟩
  | setQueryId id =>
    have hset : Agent.Shows R { a with queryId := id } { b with queryId := id } :=
      ⟨h.query, rfl, h.answer, h.state⟩
    exact ⟨hset.reset hR, rfl⟩
  | initState => exact h.initState hR d
  | clear => exact ⟨⟨rfl, rfl, rfl, .none⟩, rfl⟩
  | lookup => exact h.lookup hR d
  | reverseLookup =>
    have hfound := h.reverseLookup hR d
    exact ⟨hfound.rest, congrArg (Except.map fun _ => true) hfound.same⟩
  | prefixSearch => exact h.prefixSearch hR d
  | extensionSearch => exact h.extensionSearch hR d

end

/-- So does every request of a row, whichever dictionaries serve them. -/
theorem serveAll (h : a.Shows R b) (hR : Memory.Simulates R)
    (schedule : List (Dictionary × Request)) :
    List.Forall₂ (Found (Agent.Shows R)) (Dictionary.serveAll a schedule)
      (Dictionary.serveAll b schedule) := by
  induction schedule generalizing a b with
  | nil => exact .nil
  | cons x schedule ih =>
    have hserved := h.serve hR x.1 x.2
    exact .cons hserved (ih hserved.rest)

/-- Related agents get the same replies. -/
theorem replies (h : a.Shows R b) (hR : Memory.Simulates R) (d : Dictionary)
    (requests : List Request) : d.replies b requests = d.replies a requests := by
  induction requests generalizing a b with
  | nil => rfl
  | cons r requests ih =>
    obtain ⟨hrest, hsame⟩ := h.serve hR d r
    simp only [Dictionary.replies, ih hrest, hsame, hrest.key hR, hrest.keyId]

/-- Related agents are delivered the same extensions. -/
theorem extensionSearch_delivers (h : a.Shows R b) (hR : Memory.Simulates R) {d : Dictionary}
    {hits : List (List UInt8 × Nat)} (hdelivers : Delivers d.extensionSearch a hits) :
    Delivers d.extensionSearch b hits := by
  refine hdelivers.of_alike ?_ h
  intro a b hab
  obtain ⟨hrest, hsame⟩ := hab.extensionSearch hR d
  exact ⟨hsame, hrest, fun _ => ⟨hrest.key hR, hrest.keyId⟩⟩

end Agent.Shows

end Lexicon
