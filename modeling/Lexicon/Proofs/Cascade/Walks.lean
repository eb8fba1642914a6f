/-
Lexicon.Proofs.Cascade.Walks — what the walks along a query find.

A string is a key with some id if the node that spells it is flagged (`Shape.Keyed`).
`lookupFrom?_spec` says that an exact search finds the id of a key and nothing else,
`nextPrefix?_spec` that the search for prefixes finds the next longer one and passes over
none, `locateFrom?_spec` that the search for extensions finds the node above all of them.
All three go by one induction on the bytes that are left (`walk_induction`), which knows of
a step only whether it passes a label, ends inside it, or leads nowhere. `spell?_of_spells`
is the way back, from a node to its word. What is found is told by the tree alone: it is the
same for all moves that follow it.
-/
import Lexicon.Proofs.Cascade.Moves

namespace Lexicon

namespace Shape

variable {s : Shape}

theorem terminalBits_getElem? {v : Nat} {node : Node} (h : s.nodes[v]? = some node) :
    s.terminalBits[v]? = some (!node.ended.isEmpty) := by
  have hlt := (List.getElem?_eq_some_iff.mp h).1
  unfold terminalBits
  rw [List.getElem?_append_left (by rw [List.length_map]; exact hlt), List.getElem?_map, h]
  rfl

/-! ## One step -/

/-- Two strings of which one starts the other have the same first byte. -/
theorem head?_eq_of_comparable {p query : List UInt8} (hp : p ≠ []) (hquery : query ≠ [])
    (h : p <+: query ∨ query <+: p) : p.head? = query.head? := by
  rcases h with ⟨more, rfl⟩ | ⟨more, rfl⟩
  · rw [List.head?_append_of_ne_nil _ hp]
  · rw [List.head?_append_of_ne_nil _ hquery]

/-- A label on the way to a string that starts the query, or that the query starts, is not apart
from the query. -/
theorem comparable_of_prefix {label p query : List UInt8} (hlabel : label <+: p)
    (h : p <+: query ∨ query <+: p) : label <+: query ∨ query <+: label := by
  rcases h with h | h
  · exact Or.inl (hlabel.trans h)
  · exact List.prefix_or_prefix_of_prefix hlabel h

/-- A node is left past a label, or the query ends inside one, or it is not left, and then there is
no node for anything that agrees with the query. -/
theorem Leaves.cases (h : s.Sound) {copies : Bool} {u : Nat} {w query : List UInt8} {step : Step}
    (hu : s.Spells u w) (hquery : query ≠ []) (hstep : s.Leaves copies u query step) :
    (∃ v e more, s.Enters u e v ∧ query = e.label ++ more ∧ step = ⟨.passed copies e.label, v⟩)
    ∨ (∃ v e more node, s.Enters u e v ∧ more ≠ [] ∧ e.label = query ++ more
        ∧ step = ⟨⟨copies, query.length, if copies then e.label else []⟩, node⟩
        ∧ (copies = true → node = v))
    ∨ (step.fits = false ∧ ∀ p, p ≠ [] → (p <+: query ∨ query <+: p) →
        ∀ x, ¬s.Spells x (w ++ p)) := by
  cases hstep with
  | @along v e step he hhead hbetween hnode =>
    obtain ⟨agreement, node⟩ := step
    obtain rfl : agreement = .between copies e.label query := hbetween
    rcases Agreement.between_cases copies e.label query with ⟨more, hsplit, hpassed⟩
      | ⟨more, hmore, hsplit, hinside⟩ | ⟨front, a, b, l, q, hab, hl, hq, hfailed⟩
    · refine Or.inl ⟨v, e, more, he, hsplit, ?_⟩
      rw [hpassed] at hnode ⊢
      rw [show node = v from hnode rfl]
    · refine Or.inr (Or.inl ⟨v, e, more, node, he, hmore, hsplit, by rw [hinside], ?_⟩)
      intro hcopies
      exact hnode (by rw [hinside, hcopies])
    · refine Or.inr (Or.inr ⟨by rw [hfailed]; rfl, ?_⟩)
      intro p hp hcomparable x hx
      have hhead' := head?_eq_of_comparable hp hquery hcomparable
      have hlabel := (h.next_eq hu he hp (hhead.trans hhead'.symm) hx).2
      rcases comparable_of_prefix hlabel hcomparable with ⟨more, hmore⟩ | ⟨more, hmore⟩
      · rw [hl, hq, List.append_assoc, List.append_cancel_left_eq, List.cons_append] at hmore
        exact hab (List.cons.inj hmore).1
      · rw [hl, hq, List.append_assoc, List.append_cancel_left_eq, List.cons_append] at hmore
        exact hab (List.cons.inj hmore).1.symm
  | stuck hnone =>
    refine Or.inr (Or.inr ⟨rfl, ?_⟩)
    intro p hp hcomparable x hx
    obtain ⟨e, v, rest, he, _, hsplit⟩ := h.exists_next hu hx hp
    apply hnone v e he
    rw [← head?_eq_of_comparable hp hquery hcomparable, hsplit,
      List.head?_append_of_ne_nil _ (h.label_ne_nil he)]

/-- What holds where a query is used up, inside a label or at a dead end, and comes back along every
edge that is passed, holds of every walk. -/
theorem walk_induction (hsound : s.Sound) (copies : Bool)
    {motive : Nat → List UInt8 → List UInt8 → Prop}
    (nil : ∀ {u : Nat} {w : List UInt8}, s.Spells u w → motive u w [])
    (down : ∀ {u v : Nat} {e : Edge} {w more : List UInt8}, s.Spells u w → s.Enters u e v →
      s.Steps copies u (e.label ++ more) (.passed copies e.label) v →
      motive v (w ++ e.label) more → motive u w (e.label ++ more))
    (within : ∀ {u v : Nat} {e : Edge} {w query more : List UInt8}, s.Spells u w →
      s.Enters u e v → query ≠ [] → more ≠ [] → e.label = query ++ more →
      s.Steps copies u query ⟨copies, query.length, if copies then e.label else []⟩ v →
      motive u w query)
    (stuck : ∀ {u v : Nat} {w query : List UInt8} {agreement : Agreement}, s.Spells u w →
      query ≠ [] → s.Steps copies u query agreement v → agreement.fits = false →
      (∀ p, p ≠ [] → (p <+: query ∨ query <+: p) → ∀ x, ¬s.Spells x (w ++ p)) →
      motive u w query)
    {u : Nat} {w query : List UInt8} (hu : s.Spells u w) : motive u w query := by
  induction hn : query.length using Nat.strong_induction_on generalizing u w query with
  | _ n ih =>
    by_cases hne : query = []
    · subst hne
      exact nil hu
    · obtain ⟨step, hleaves⟩ := s.exists_leaves copies u query
      have hsteps := hleaves.steps (hsound.lt_length_of_spells hu) hne
      rcases hleaves.cases hsound hu hne with ⟨v, e, more, he, rfl, rfl⟩
        | ⟨v, e, more, node, he, hmore, hlabel, rfl, hnode⟩ | ⟨hfits, hnone⟩
      · have hshorter : more.length < n := by
          have hpos := List.length_pos_iff.mpr (hsound.label_ne_nil he)
          rw [← hn, List.length_append]
          omega
        exact down hu he hsteps (ih more.length hshorter (hu.down he) rfl)
      · refine within hu he hne hmore hlabel ?_
        intro m hm
        obtain ⟨node', hmove, hnode'⟩ := hsteps m hm
        exact ⟨node', hmove, fun hfits => (hnode' hfits).trans (hnode hfits)⟩
      · exact stuck hu hne hsteps hfits hnone

end Shape

namespace Moves

variable {m : Moves} {s : Shape}

/-! ## The exact search -/

section

variable {u v : Nat} {query label more : List UInt8} {agreement : Agreement}

theorem lookupFrom?_down (h : m.Follow s) (hne : label ≠ [])
    (hstep : s.Steps false u (label ++ more) (.passed false label) v) :
    m.lookupFrom? u (label ++ more) = m.lookupFrom? v more := by
  obtain ⟨node, hmove, hnode⟩ := hstep m h
  obtain rfl := hnode rfl
  obtain ⟨b, label, rfl⟩ := List.exists_cons_of_ne_nil hne
  rw [List.cons_append] at hmove ⊢
  rw [lookupFrom?, hmove]
  simp [Agreement.passed]

theorem lookupFrom?_fails (h : m.Follow s) (hne : query ≠ [])
    (hstep : s.Steps false u query agreement v) (hfits : agreement.fits = false) :
    m.lookupFrom? u query = some none := by
  obtain ⟨node, hmove, _⟩ := hstep m h
  obtain ⟨b, rest, rfl⟩ := List.exists_cons_of_ne_nil hne
  rw [lookupFrom?, hmove]
  simp [hfits]

end

/-- What is left of a query leads to the key that the whole query is, or to none if it is no key. -/
theorem lookupFrom?_spec (hsound : s.Sound) {u : Nat} {w query : List UInt8} (hu : s.Spells u w) :
    ∃ answer, (∀ {m : Moves}, m.Follow s → m.lookupFrom? u query = some answer)
      ∧ ∀ id, answer = some id ↔ s.Keyed (w ++ query) id := by
  refine Shape.walk_induction hsound false (motive := fun u w query => ∃ answer,
    (∀ {m : Moves}, m.Follow s → m.lookupFrom? u query = some answer)
      ∧ ∀ id, answer = some id ↔ s.Keyed (w ++ query) id) ?nil ?down ?within ?stuck hu
  case nil =>
    intro u w hu
    refine ⟨s.keyAt u, ?_, ?_⟩
    · intro m hm
      rw [lookupFrom?, hm.keyAt? (hsound.lt_length_of_spells hu)]
    · intro id
      rw [List.append_nil]
      constructor
      · intro hid
        exact ⟨u, hu, hid⟩
      · rintro ⟨x, hx, hid⟩
        rwa [hsound.eq_of_spells hu hx]
  case down =>
    rintro u v e w more hu he hstep ⟨answer, hanswer, hiff⟩
    rw [← List.append_assoc]
    refine ⟨answer, fun hm => ?_, hiff⟩
    rw [lookupFrom?_down hm (hsound.label_ne_nil he) hstep, hanswer hm]
  case within =>
    intro u v e w query more hu he hne hmore hlabel hstep
    refine ⟨none, fun hm => lookupFrom?_fails hm hne hstep rfl, ?_⟩
    intro id
    have hnone := hsound.not_spells_inside hu he hmore hlabel (List.prefix_refl query) hne
    exact iff_of_false (by simp) (Shape.not_keyed hnone id)
  case stuck =>
    intro u v w query agreement _ hne hstep hfits hnone
    refine ⟨none, fun hm => lookupFrom?_fails hm hne hstep hfits, ?_⟩
    intro id
    exact iff_of_false (by simp)
      (Shape.not_keyed (hnone query hne (Or.inl (List.prefix_refl query))) id)

/-! ## The search for prefixes -/

section

variable {u v length : Nat} {query label more : List UInt8} {agreement : Agreement}

theorem nextPrefix?_key (h : m.Follow s) {id : Nat} (hne : label ≠ [])
    (hstep : s.Steps false u (label ++ more) (.passed false label) v)
    (hkey : m.keyAt? v = some (some id)) :
    m.nextPrefix? u length (label ++ more) = some (some ⟨v, length + label.length, id⟩) := by
  obtain ⟨node, hmove, hnode⟩ := hstep m h
  obtain rfl := hnode rfl
  obtain ⟨b, label, rfl⟩ := List.exists_cons_of_ne_nil hne
  rw [List.cons_append] at hmove ⊢
  rw [nextPrefix?, hmove]
  simp [Agreement.passed, hkey]

theorem nextPrefix?_down (h : m.Follow s) (hne : label ≠ [])
    (hstep : s.Steps false u (label ++ more) (.passed false label) v)
    (hkey : m.keyAt? v = some none) :
    m.nextPrefix? u length (label ++ more) = m.nextPrefix? v (length + label.length) more := by
  obtain ⟨node, hmove, hnode⟩ := hstep m h
  obtain rfl := hnode rfl
  obtain ⟨b, label, rfl⟩ := List.exists_cons_of_ne_nil hne
  rw [List.cons_append] at hmove ⊢
  rw [nextPrefix?, hmove]
  simp [Agreement.passed, hkey]

theorem nextPrefix?_fails (h : m.Follow s) (hne : query ≠ [])
    (hstep : s.Steps false u query agreement v) (hfits : agreement.fits = false) :
    m.nextPrefix? u length query = some none := by
  obtain ⟨node, hmove, _⟩ := hstep m h
  obtain ⟨b, rest, rfl⟩ := List.exists_cons_of_ne_nil hne
  rw [nextPrefix?, hmove]
  simp [hfits]

end

/-- What the search for the next prefix finds behind a node that spells `w`: the shortest longer one
that is a key, or that there is none. -/
inductive NextPrefix (s : Shape) (w query : List UInt8) (length : Nat) : Option PrefixHit → Prop
  | hit {x id : Nat} {p : List UInt8} : p <+: query → p ≠ [] → s.Spells x (w ++ p) →
    s.keyAt x = some id →
    (∀ p', p' <+: query → p' ≠ [] → p'.length < p.length → ∀ id', ¬s.Keyed (w ++ p') id') →
    NextPrefix s w query length (some ⟨x, length + p.length, id⟩)
  | done : (∀ p', p' <+: query → p' ≠ [] → ∀ id', ¬s.Keyed (w ++ p') id') →
    NextPrefix s w query length none

/-- What is found behind a child that is no key is found behind the node above it. -/
theorem NextPrefix.past (hsound : s.Sound) {v length : Nat} {w label more : List UInt8}
    {found : Option PrefixHit} (hlabel : label ≠ []) (hv : s.Spells v (w ++ label))
    (hkey : s.keyAt v = none)
    (hpast : ∀ p, p <+: label ++ more → p ≠ [] → ∀ x, s.Spells x (w ++ p) → label <+: p)
    (h : NextPrefix s (w ++ label) more (length + label.length) found) :
    NextPrefix s w (label ++ more) length found := by
  have hbehind : ∀ p id, p <+: label ++ more → p ≠ [] → s.Keyed (w ++ p) id →
      ∃ r, p = label ++ r ∧ r <+: more ∧ r ≠ [] ∧ s.Keyed (w ++ label ++ r) id := by
    rintro p id hp hpne ⟨x, hx, hid⟩
    obtain ⟨r, rfl⟩ := hpast p hp hpne x hx
    rw [← List.append_assoc] at hx
    refine ⟨r, rfl, (List.prefix_append_right_inj label).mp hp, ?_, x, hx, hid⟩
    rintro rfl
    rw [List.append_nil] at hx
    rw [hsound.eq_of_spells hx hv, hkey] at hid
    cases hid
  cases h with
  | @hit x id p hp hpne hx hid hbetween =>
    have hlength : length + label.length + p.length = length + (label ++ p).length := by
      rw [List.length_append, Nat.add_assoc]
    rw [hlength]
    rw [List.append_assoc] at hx
    refine .hit ((List.prefix_append_right_inj label).mpr hp) (by simp [hlabel]) hx hid ?_
    intro p' hp' hpne' hlt id' hkeyed
    obtain ⟨r, rfl, hr, hrne, hkeyed'⟩ := hbehind p' id' hp' hpne' hkeyed
    rw [List.length_append, List.length_append] at hlt
    exact hbetween r hr hrne (by omega) id' hkeyed'
  | done hnone =>
    refine .done ?_
    intro p' hp' hpne' id' hkeyed
    obtain ⟨r, rfl, hr, hrne, hkeyed'⟩ := hbehind p' id' hp' hpne' hkeyed
    exact hnone r hr hrne id' hkeyed'

theorem nextPrefix?_spec (hsound : s.Sound) {u length : Nat} {w query : List UInt8}
    (hu : s.Spells u w) :
    ∃ found, (∀ {m : Moves}, m.Follow s → m.nextPrefix? u length query = some found)
      ∧ NextPrefix s w query length found := by
  refine Shape.walk_induction hsound false (motive := fun u w query => ∀ length, ∃ found,
    (∀ {m : Moves}, m.Follow s → m.nextPrefix? u length query = some found)
      ∧ NextPrefix s w query length found) ?nil ?down ?within ?stuck hu length
  case nil =>
    intro u w _ length
    refine ⟨none, fun _ => by rw [nextPrefix?], .done ?_⟩
    intro p hp hne
    exact absurd (List.prefix_nil.mp hp) hne
  case down =>
    intro u v e w more hu he hstep ih length
    have hlabel := hsound.label_ne_nil he
    have hne : e.label ++ more ≠ [] := by simp [hlabel]
    have hv := hu.down he
    -- every key on the way has the whole label
    have hpast : ∀ p, p <+: e.label ++ more → p ≠ [] → ∀ x, s.Spells x (w ++ p) →
        e.label <+: p := by
      intro p hp hpne x hx
      refine (hsound.next_eq hu he hpne ?_ hx).2
      rw [Shape.head?_eq_of_comparable hpne hne (Or.inl hp), List.head?_append_of_ne_nil _ hlabel]
    have hkeyAt : ∀ {m : Moves}, m.Follow s → m.keyAt? v = some (s.keyAt v) :=
      fun hm => hm.keyAt? (hsound.lt_length_of_spells hv)
    cases hkey : s.keyAt v with
    | some id =>
      rw [hkey] at hkeyAt
      refine ⟨_, fun hm => nextPrefix?_key hm hlabel hstep (hkeyAt hm),
        .hit (List.prefix_append _ _) hlabel hv hkey ?_⟩
      rintro p hp hpne hlt id' ⟨x, hx, _⟩
      have hle := (hpast p hp hpne x hx).length_le
      omega
    | none =>
      rw [hkey] at hkeyAt
      obtain ⟨found, hfound, hnext⟩ := ih (length + e.label.length)
      refine ⟨found, fun hm => ?_, hnext.past hsound hlabel hv hkey hpast⟩
      rw [nextPrefix?_down hm hlabel hstep (hkeyAt hm), hfound hm]
  case within =>
    intro u v e w query more hu he hne hmore hlabel hstep length
    refine ⟨none, fun hm => nextPrefix?_fails hm hne hstep rfl, .done ?_⟩
    intro p hp hpne id
    exact Shape.not_keyed (hsound.not_spells_inside hu he hmore hlabel hp hpne) id
  case stuck =>
    intro u v w query agreement _ hne hstep hfits hnone length
    refine ⟨none, fun hm => nextPrefix?_fails hm hne hstep hfits, .done ?_⟩
    intro p hp hpne id
    exact Shape.not_keyed (hnone p hpne (Or.inl hp)) id

/-! ## The start of the search for extensions -/

section

variable {u v : Nat} {bytes query label more : List UInt8} {agreement : Agreement}

theorem locateFrom?_down (h : m.Follow s) (hne : label ≠ [])
    (hstep : s.Steps true u (label ++ more) (.passed true label) v) :
    m.locateFrom? bytes u (label ++ more) = m.locateFrom? (bytes ++ label) v more := by
  obtain ⟨node, hmove, hnode⟩ := hstep m h
  obtain rfl := hnode rfl
  obtain ⟨b, label, rfl⟩ := List.exists_cons_of_ne_nil hne
  rw [List.cons_append] at hmove ⊢
  rw [locateFrom?, hmove]
  simp [Agreement.passed]

theorem locateFrom?_within (h : m.Follow s) (hne : query ≠ [])
    (hstep : s.Steps true u query ⟨true, query.length, label⟩ v) :
    m.locateFrom? bytes u query = some (.found v (bytes ++ label)) := by
  obtain ⟨node, hmove, hnode⟩ := hstep m h
  obtain rfl := hnode rfl
  obtain ⟨b, rest, rfl⟩ := List.exists_cons_of_ne_nil hne
  rw [locateFrom?, hmove]
  simp [locateFrom?]

theorem locateFrom?_fails (h : m.Follow s) (hne : query ≠ [])
    (hstep : s.Steps true u query agreement v) (hfits : agreement.fits = false) :
    m.locateFrom? bytes u query = some (.lost (bytes ++ agreement.copied)) := by
  obtain ⟨node, hmove, _⟩ := hstep m h
  obtain ⟨b, rest, rfl⟩ := List.exists_cons_of_ne_nil hne
  rw [locateFrom?, hmove]
  simp [hfits]

end

/-- Where the strings are that start with a query: at and below the node found, or nowhere. -/
inductive Located (s : Shape) (query : List UInt8) : Place → Prop
  | found {v : Nat} {bytes : List UInt8} : s.Spells v bytes →
    (∀ x word, s.Spells x word → (query <+: word ↔ s.Above v x)) → Located s query (.found v bytes)
  | lost {bytes : List UInt8} : (∀ x word, s.Spells x word → ¬query <+: word) →
    Located s query (.lost bytes)

theorem locateFrom?_spec (hsound : s.Sound) {u : Nat} {w query : List UInt8} (hu : s.Spells u w) :
    ∃ place, (∀ {m : Moves}, m.Follow s → m.locateFrom? w u query = some place)
      ∧ Located s (w ++ query) place := by
  refine Shape.walk_induction hsound true (motive := fun u w query => ∃ place,
    (∀ {m : Moves}, m.Follow s → m.locateFrom? w u query = some place)
      ∧ Located s (w ++ query) place) ?nil ?down ?within ?stuck hu
  case nil =>
    intro u w hu
    rw [List.append_nil]
    refine ⟨_, fun _ => by rw [locateFrom?], .found hu ?_⟩
    intro x word hx
    constructor
    · rintro ⟨more, rfl⟩
      exact hsound.above_of_append hu hx
    · intro hux
      obtain ⟨more, hx'⟩ := hu.exists_append hux
      exact ⟨more, hx'.unique hx⟩
  case down =>
    rintro u v e w more hu he hstep ⟨place, hplace, hlocated⟩
    rw [← List.append_assoc]
    refine ⟨place, fun hm => ?_, hlocated⟩
    rw [locateFrom?_down hm (hsound.label_ne_nil he) hstep, hplace hm]
  case within =>
    intro u v e w query more hu he hne hmore hlabel hstep
    refine ⟨_, fun hm => locateFrom?_within hm hne hstep, ?_⟩
    have hv := hu.down he
    refine .found hv ?_
    intro x word hx
    constructor
    · rintro ⟨rest, rfl⟩
      rw [List.append_assoc] at hx
      have hhead : e.label.head? = (query ++ rest).head? := by
        rw [hlabel, List.head?_append_of_ne_nil _ hne, List.head?_append_of_ne_nil _ hne]
      exact (hsound.next_eq hu he (by simp [hne]) hhead hx).1
    · intro hvx
      obtain ⟨rest, hx'⟩ := hv.exists_append hvx
      rw [hx.unique hx', hlabel]
      exact ⟨more ++ rest, by simp⟩
  case stuck =>
    intro u v w query agreement _ hne hstep hfits hnone
    refine ⟨_, fun hm => locateFrom?_fails hm hne hstep hfits, .lost ?_⟩
    rintro x word hx ⟨rest, rfl⟩
    rw [List.append_assoc] at hx
    exact hnone (query ++ rest) (by simp [hne]) (Or.inr (List.prefix_append _ _)) x hx

/-! ## Back to the root -/

/-- From a node back to the root its word is read, in front of what is there already. -/
theorem spellFrom?_of_spells (h : m.Follow s) {v : Nat} {w : List UInt8} (hv : s.Spells v w)
    (hne : v ≠ 0) (bytes : List UInt8) : m.spellFrom? v bytes = some (w ++ bytes) := by
  induction hv generalizing bytes with
  | root => exact absurd rfl hne
  | @down u v w e hu he ih =>
    rw [spellFrom?, h.ascend? he, Option.bind_eq_bind, Option.bind_some]
    by_cases hroot : u = 0
    · subst hroot
      obtain rfl := Level.eq_nil_of_spells_zero hu
      rfl
    · have hlt := h.sound.lt_of_enters he
      simp only [hroot, hlt, if_true, if_false, ih hroot, List.append_assoc]

theorem spell?_of_spells (h : m.Follow s) {v : Nat} {w : List UInt8} (hv : s.Spells v w) :
    m.spell? v = some w := by
  unfold spell?
  by_cases hzero : v = 0
  · subst hzero
    obtain rfl := Level.eq_nil_of_spells_zero hv
    rfl
  · rw [if_neg hzero, spellFrom?_of_spells h hv hzero, List.append_nil]

end Moves

end Lexicon
