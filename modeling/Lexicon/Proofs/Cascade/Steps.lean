/-
Lexicon.Proofs.Cascade.Steps — leaving a node takes the one edge that can fit.

`Shape.Leaves` says how a node is left along a query: by its edge that starts with the
next byte, as far as the label agrees with the query, or not at all if there is no such
edge. `Cascade.step?_spec` proves that a step leaves a node so, for every query that has
bytes left, whether the cache answers or the siblings are tried in turn, and whether the
numbers of the links are checked or not. The scan goes by induction on the siblings that
are left; what it carries along is that none of those before starts with the byte, and
that the next link has the number after the last one.
-/
import Lexicon.Cascade.Descent
import Lexicon.Proofs.Cascade.Building

namespace Lexicon

/-! ## The first byte decides -/

namespace Agreement

variable {copies : Bool}

theorem between_of_head?_ne {string query : List UInt8} (hs : string ≠ []) (hq : query ≠ [])
    (h : string.head? ≠ query.head?) : between copies string query = apart := by
  cases string with
  | nil => exact absurd rfl hs
  | cons a string =>
    cases query with
    | nil => exact absurd rfl hq
    | cons b query =>
      have hab : a ≠ b := by simpa using h
      simp [between, hab]

theorem used_between_pos {string query : List UInt8} (hs : string ≠ [])
    (h : string.head? = query.head?) : 0 < (between copies string query).used := by
  cases string with
  | nil => exact absurd rfl hs
  | cons a string =>
    cases query with
    | nil => simp at h
    | cons b query =>
      obtain rfl : a = b := by simpa using h
      rw [between_cons]
      exact Nat.lt_add_right _ (Nat.succ_pos 0)

end Agreement

namespace Check

/-- A check lets those numbers pass that are ranks. -/
def Accepts (check : Check) : Prop :=
  ∀ {v : BitVector} {place number : Nat}, v.rank1? place = some number →
    check v place number = some number

theorem accepts_trust : trust.Accepts :=
  fun _ => rfl

theorem accepts_recount : recount.Accepts :=
  fun h => if_pos h

end Check

namespace Shape

/-- How a node is left along a query: by the edge that starts with the next byte, which leads to its
node if the label fits, or not at all. -/
inductive Leaves (s : Shape) (copies : Bool) (u : Nat) (query : List UInt8) : Step → Prop
  | along {v : Nat} {e : Edge} {step : Step} : s.Enters u e v → e.label.head? = query.head? →
    step.toAgreement = .between copies e.label query → (step.fits = true → step.node = v) →
    Leaves s copies u query step
  | stuck {node : Nat} : (∀ v e, s.Enters u e v → e.label.head? ≠ query.head?) →
    Leaves s copies u query ⟨.apart, node⟩

end Shape

namespace Level

theorem linkNumber_succ {s : Shape} {u v : Nat} {e : Edge} (h : s.Enters u e v) :
    linkNumber s (v + 1) = linkNumber s v + if e.isLink then 1 else 0 := by
  have hpos := h.pos
  have hv : v - 1 + 1 = v := by omega
  unfold linkNumber linksBefore
  rw [Nat.add_sub_cancel, ← hv, Nat.add_sub_cancel, List.take_add_one, edge_getElem? h]
  simp [List.countP_cons]

end Level

namespace Cascade

/-- The levels tell the tree of a shape. -/
structure Tells (c : Cascade) (s : Shape) : Prop where
  lays : c.top.Lays .forward s (Resolves c.top.tail c.deeper)
  tops : c.top.Tops s

variable {c : Cascade} {s : Shape} {check : Check} {copies : Bool}

/-! ## Trying the siblings -/

section

variable {query : List UInt8} {position node : Nat} {lastLink : Option Nat}

theorem scan?_stop (hlt : position < c.top.louds.size)
    (hbit : c.top.louds.get? position = some false) :
    c.scan? check copies query position node lastLink = some ⟨.apart, node⟩ := by
  unfold scan?
  simp [hlt, hbit]

theorem scan?_byte {b : UInt8} (hlt : position < c.top.louds.size)
    (hbit : c.top.louds.get? position = some true) (hlink : c.top.links.get? node = some false)
    (hbase : c.top.bases[node]? = some b) :
    c.scan? check copies query position node lastLink
      = if query.head? = some b then some ⟨.passed copies [b], node⟩
        else c.scan? check copies query (position + 1) (node + 1) lastLink := by
  rw [scan?]
  simp [hlt, hbit, hlink, hbase]

/-- The number after the last one, or the one counted from scratch, is the number of the place. -/
theorem nextNumber_eq {last : Option Nat} {number : Nat}
    (h : ∀ k, last = some k → k + 1 = number) : nextNumber last (some number) = some number := by
  cases last with
  | none => rfl
  | some k => exact congrArg some (h k rfl)

theorem scan?_link (hcheck : check.Accepts) {number target : Nat} {agreement : Agreement}
    (hlt : position < c.top.louds.size) (hbit : c.top.louds.get? position = some true)
    (hlink : c.top.links.get? node = some true) (hrank : c.top.links.rank1? node = some number)
    (hlast : ∀ last, lastLink = some last → last + 1 = number)
    (htarget : c.top.linkTarget? node number = some target)
    (hfollow : c.followLink? copies target query = some agreement) :
    c.scan? check copies query position node lastLink
      = if agreement.fits || 0 < agreement.used then some ⟨agreement, node⟩
        else c.scan? check copies query (position + 1) (node + 1) (some number) := by
  rw [scan?]
  simp [hlt, hbit, hlink, hrank, nextNumber_eq hlast, hcheck hrank, htarget, hfollow]

end

/-- A sibling is taken if it starts with the next byte and passed over if it does not. -/
theorem scan?_child (h : c.Tells s) (hcheck : check.Accepts) {u v position : Nat} {e : Edge}
    {query : List UInt8} {lastLink : Option Nat} (hquery : query ≠ []) (he : s.Enters u e v)
    (hlt : position < c.top.louds.size) (hbit : c.top.louds.get? position = some true)
    (hlast : ∀ last, lastLink = some last → last + 1 = Level.linkNumber s v) :
    (e.label.head? = query.head? ∧ c.scan? check copies query position v lastLink
        = some ⟨.between copies e.label query, v⟩)
      ∨ (e.label.head? ≠ query.head? ∧ ∃ lastLink', c.scan? check copies query position v lastLink
          = c.scan? check copies query (position + 1) (v + 1) lastLink'
        ∧ ∀ last, lastLink' = some last → last + 1 = Level.linkNumber s (v + 1)) := by
  have hne := h.lays.sound.label_ne_nil he
  have hnumber := Level.linkNumber_succ he
  have hlinks := h.lays.links_get? he
  cases hlink : e.isLink with
  | false =>
    obtain ⟨b, hbase, hlabel⟩ := h.lays.bases_getElem? he hlink
    rw [hlink] at hlinks hnumber
    rw [scan?_byte hlt hbit hlinks hbase]
    by_cases hhead : query.head? = some b
    · obtain ⟨rest, rfl⟩ := List.head?_eq_some_iff.mp hhead
      refine Or.inl ⟨by simp [hlabel], ?_⟩
      have hpassed : Agreement.between copies [b] (b :: rest) = .passed copies [b] :=
        Agreement.between_append_self [b] rest
      rw [if_pos hhead, hlabel, hpassed]
    · refine Or.inr ⟨?_, lastLink, if_neg hhead, ?_⟩
      · rw [hlabel]
        exact fun heq => hhead heq.symm
      · intro last hsome
        rw [hnumber]
        simpa using hlast last hsome
  | true =>
    obtain ⟨target, htarget, hresolves⟩ := h.lays.linkTarget? he hlink
    rw [hlink] at hlinks hnumber
    have hfollow : c.followLink? copies target query = some (.between copies e.label query) :=
      hresolves.follow copies query hquery
    rw [scan?_link hcheck hlt hbit hlinks (h.lays.links_rank1? he) hlast htarget hfollow]
    by_cases hhead : e.label.head? = query.head?
    · exact Or.inl ⟨hhead, if_pos (by simp [Agreement.used_between_pos hne hhead])⟩
    · rw [Agreement.between_of_head?_ne hne hquery hhead]
      refine Or.inr ⟨hhead, _, if_neg (by decide), ?_⟩
      intro last hsome
      obtain rfl := Option.some.inj hsome
      rw [hnumber]
      rfl

/-- The children of a node from the `j`-th on are tried, `n` of them. -/
theorem scan?_spec (h : c.Tells s) (hcheck : check.Accepts) {u : Nat} (hu : u < s.nodes.length)
    {query : List UInt8} (hquery : query ≠ []) (n : Nat) :
    ∀ {j : Nat} {lastLink : Option Nat}, j + n = s.degree u →
    (∀ v e, s.Enters u e v → v < s.firstChild u + j → e.label.head? ≠ query.head?) →
    (∀ last, lastLink = some last → last + 1 = Level.linkNumber s (s.firstChild u + j)) →
    ∃ step, c.scan? check copies query (s.start u + j) (s.firstChild u + j) lastLink = some step
      ∧ s.Leaves copies u query step := by
  induction n with
  | zero =>
    intro j lastLink hj hbefore _
    have hstop := Shape.loudsBits_stop hu
    rw [← hj, Nat.add_zero] at hstop
    obtain ⟨hlt, hbit⟩ := h.lays.louds_bit hstop
    refine ⟨_, scan?_stop hlt hbit, .stuck ?_⟩
    intro v e he
    obtain ⟨j', hj', hv⟩ := he.exists_offset
    exact hbefore v e he (by omega)
  | succ n ih =>
    intro j lastLink hj hbefore hlast
    have hdegree : j < s.degree u := by omega
    obtain ⟨e, he⟩ := Shape.exists_child hdegree
    obtain ⟨hlt, hbit⟩ := h.lays.louds_bit (Shape.loudsBits_child hdegree)
    rcases scan?_child h hcheck hquery he hlt hbit hlast with ⟨hhead, hscan⟩
      | ⟨hhead, lastLink', hscan, hlast'⟩
    · exact ⟨_, hscan, .along he hhead rfl fun _ => rfl⟩
    · rw [hscan]
      refine ih (j := j + 1) (by omega) ?_ hlast'
      intro v e' he' hv
      by_cases hsame : v = s.firstChild u + j
      · subst hsame
        obtain ⟨_, rfl⟩ := he.unique he'
        exact hhead
      · exact hbefore v e' he' (by omega)

/-! ## A step -/

section

variable {u : Nat} {b : UInt8} {rest : List UInt8} {slot : Slot}

theorem step?_byte {a : UInt8}
    (hslot : c.top.cache[Cache.edgeSlot c.top.cache.size u b]? = some slot)
    (hparent : slot.parent.toNat = u) (hpiece : slot.piece = .byte a) :
    c.step? check copies u (b :: rest) = some ⟨.passed copies [a], slot.child.toNat⟩ := by
  simp [step?, hslot, hparent, hpiece]

theorem step?_link {target : Nat} {agreement : Agreement}
    (hslot : c.top.cache[Cache.edgeSlot c.top.cache.size u b]? = some slot)
    (hparent : slot.parent.toNat = u) (hpiece : slot.piece = .link target)
    (hfollow : c.followLink? copies target (b :: rest) = some agreement) :
    c.step? check copies u (b :: rest)
      = some ⟨agreement, if agreement.fits then slot.child.toNat else u⟩ := by
  simp [step?, hslot, hparent, hpiece, hfollow]

theorem step?_miss {position : Nat} {flag : Bool}
    (hslot : c.top.cache[Cache.edgeSlot c.top.cache.size u b]? = some slot)
    (hparent : slot.parent.toNat ≠ u) (hselect : c.top.louds.select0? u = some position)
    (hbit : c.top.louds.get? (position + 1) = some flag) :
    c.step? check copies u (b :: rest)
      = if flag then c.scan? check copies (b :: rest) (position + 1) (position - u) none
        else some ⟨.apart, u⟩ := by
  simp [step?, hslot, hparent, hselect, hbit]

/-- A slot in which a node finds its own number, at the place for a byte, repeats the edge of the
node that starts with the byte. -/
theorem exists_edge_of_slot (h : c.Tells s) (hu : u < s.nodes.length)
    (hslot : c.top.cache[Cache.edgeSlot c.top.cache.size u b]? = some slot)
    (hparent : slot.parent.toNat = u) :
    ∃ e, s.Enters u e slot.child.toNat ∧ e.label.head? = some b
      ∧ slot.piece.Spells (Resolves c.top.tail c.deeper) e.label := by
  rcases h.lays.cache hslot with ⟨hcleared, _⟩ | ⟨u', v, e, he, hu', hv, hk, hpiece⟩
  · have hsize := h.lays.size_lt
    have hbig : (0xFFFFFFFF : UInt32).toNat = 4294967295 := rfl
    rw [hcleared] at hparent
    omega
  · obtain rfl : u' = u := hu'.symm.trans hparent
    have hb := Cache.edgeSlot_injective h.tops.dvd_cache hk
    refine ⟨e, hv ▸ he, ?_, hpiece⟩
    cases hlabel : e.label with
    | nil => exact absurd hlabel (h.lays.sound.label_ne_nil he)
    | cons a label =>
      rw [hlabel] at hb
      rw [hb]
      rfl

end

/-- A node that is there is left along its edge for the next byte, or not at all. -/
theorem step?_spec (h : c.Tells s) (hcheck : check.Accepts) {u : Nat} (hu : u < s.nodes.length)
    {query : List UInt8} (hquery : query ≠ []) :
    ∃ step, c.step? check copies u query = some step ∧ s.Leaves copies u query step := by
  cases query with
  | nil => exact absurd rfl hquery
  | cons b rest =>
    obtain ⟨slot, hslot⟩ : ∃ slot, c.top.cache[Cache.edgeSlot c.top.cache.size u b]? = some slot :=
      ⟨_, Array.getElem?_eq_getElem (Nat.mod_lt _ h.lays.cache_pos)⟩
    by_cases hparent : slot.parent.toNat = u
    · obtain ⟨e, he, hhead, hpiece⟩ := exists_edge_of_slot h hu hslot hparent
      cases hread : slot.piece with
      | byte a =>
        rw [hread] at hpiece
        have hlabel : e.label = [a] := hpiece
        obtain rfl : a = b := by simpa [hlabel] using hhead
        have hpassed : Agreement.between copies [a] (a :: rest) = .passed copies [a] :=
          Agreement.between_append_self [a] rest
        refine ⟨_, step?_byte hslot hparent hread, .along he hhead ?_ fun _ => rfl⟩
        rw [hlabel, hpassed]
      | link target =>
        rw [hread] at hpiece
        have hfollow : c.followLink? copies target (b :: rest)
            = some (.between copies e.label (b :: rest)) :=
          hpiece.follow copies _ (List.cons_ne_nil b rest)
        refine ⟨_, step?_link hslot hparent hread hfollow, .along he hhead rfl ?_⟩
        intro hfits
        exact if_pos hfits
    · have hselect := h.tops.select0? hu
      by_cases hdegree : 0 < s.degree u
      · have hbit := (h.lays.louds_bit (Shape.loudsBits_child hdegree)).2
        rw [step?_miss hslot hparent hselect hbit, if_pos rfl, Nat.add_sub_cancel]
        refine scan?_spec h hcheck hu hquery (s.degree u) (Nat.zero_add _) ?_ ?_
        · intro v e he hv
          obtain ⟨j, _, hj⟩ := he.exists_offset
          omega
        · intro last hsome
          cases hsome
      · have hbit := (h.lays.louds_bit (Shape.loudsBits_stop hu)).2
        rw [Nat.eq_zero_of_not_pos hdegree] at hbit
        refine ⟨_, step?_miss hslot hparent hselect hbit, .stuck ?_⟩
        intro v e he
        obtain ⟨j, hj, _⟩ := he.exists_offset
        omega

end Cascade

end Lexicon
