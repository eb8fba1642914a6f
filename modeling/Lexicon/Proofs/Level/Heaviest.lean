/-
Lexicon.Proofs.Level.Heaviest — a cache slot keeps the heaviest of the edges that belong to it.

Edges are offered in the order of the nodes that they enter, and an edge takes a slot only if
it is heavier than the one there, so of equally heavy edges the first stays. After so many
offers a slot holds the heaviest of those that were for it, or none of them weighs anything and
it is as it was (`Leads`, kept by every offer in `leads_offer`); over all edges this is
`leads_offeredOf`. The weight that an empty slot starts with is below all but zero, so an edge
of no weight never gets in. The number of slots is the least power of two that is large
enough (`Cache.isLeast_doubled`).
-/
import Lexicon.Proofs.Level.Caching
import Lexicon.Proofs.Weights
import Mathlib.Order.Bounds.Basic

namespace Lexicon

/-! ## The number of slots -/

/-- Doubling a power of two reaches the least one that is large enough. -/
theorem Cache.isLeast_doubled (j wanted : Nat) :
    IsLeast {n | (∃ k, n = 2 ^ k) ∧ 2 ^ j ≤ n ∧ wanted ≤ n} (doubled (2 ^ j) wanted) := by
  generalize hsize : 2 ^ j = size
  fun_induction doubled size wanted generalizing j with
  | case1 size h ih =>
    have hdouble : 2 ^ (j + 1) = 2 * size := by rw [Nat.pow_succ, hsize, Nat.mul_comm]
    obtain ⟨⟨hpower, hle, hwanted⟩, hleast⟩ := ih (j + 1) hdouble
    refine ⟨⟨hpower, by omega, hwanted⟩, ?_⟩
    rintro _ ⟨⟨k, rfl⟩, _, hn⟩
    refine hleast ⟨⟨k, rfl⟩, ?_, hn⟩
    have hlt : 2 ^ j < 2 ^ k := by omega
    have hexponent := (Nat.pow_lt_pow_iff_right (by decide : 1 < 2)).mp hlt
    rw [← hdouble]
    exact Nat.pow_le_pow_right (by decide) hexponent
  | case2 size h =>
    have hpos := Nat.two_pow_pos j
    exact ⟨⟨⟨j, hsize.symm⟩, Nat.le_refl _, by omega⟩, fun n hn => hn.2.1⟩

namespace Level

variable {reading : Reading} {s : Shape} {targets : List Nat} {tail : Tail} {config : Config}

/-! ## Offers -/

/-- The weights of all edges are natural numbers that a weight can hold exactly. -/
def Weighed (s : Shape) : Prop :=
  ∀ {u v : Nat} {e : Edge}, s.Enters u e v → ∃ n, n < 2 ^ 24 ∧ e.weight = .ofNat n

/-- An edge into one of the nodes up to `m` that belongs to slot `k`. -/
structure Candidate (reading : Reading) (slots : Nat) (s : Shape) (m k u v : Nat) (e : Edge) :
    Prop where
  enters : s.Enters u e v
  le : v ≤ m
  slot : slotOf reading slots u v e = k

/-- After the edges into the nodes up to `m` were offered, a slot holds the heaviest of those that
belong to it and the first of equally heavy ones, or none has any weight and the slot is fresh. -/
def Leads (reading : Reading) (slots : Nat) (s : Shape) (m k : Nat) (slot : Slot) : Prop :=
  (slot = .fresh ∧ ∀ u v e, Candidate reading slots s m k u v e → e.weight.toNat = 0)
  ∨ ∃ u v e, Candidate reading slots s m k u v e ∧ 0 < e.weight.toNat
    ∧ slot = ⟨u.toUInt32, v.toUInt32, e.weight.bits⟩
    ∧ ∀ u' v' e', Candidate reading slots s m k u' v' e' →
      e'.weight.toNat < e.weight.toNat ∨ (e'.weight.toNat = e.weight.toNat ∧ v ≤ v')

variable {slots m k u u' v v' : Nat} {e e' : Edge} {slot : Slot}

theorem Candidate.succ (h : Candidate reading slots s m k u v e) :
    Candidate reading slots s (m + 1) k u v e :=
  ⟨h.enters, Nat.le_succ_of_le h.le, h.slot⟩

/-- One more node adds the edge into it. -/
theorem Candidate.cases (h : Candidate reading slots s (m + 1) k u' v' e')
    (he : s.Enters u e (m + 1)) :
    Candidate reading slots s m k u' v' e' ∨ (v' = m + 1 ∧ u' = u ∧ e' = e) := by
  rcases Nat.lt_or_eq_of_le h.le with hlt | rfl
  · exact Or.inl ⟨h.enters, Nat.le_of_lt_succ hlt, h.slot⟩
  · exact Or.inr ⟨rfl, h.enters.unique he⟩

/-- An offer for another slot changes nothing. -/
theorem leads_other (he : s.Enters u e (m + 1)) (hk : slotOf reading slots u (m + 1) e ≠ k)
    (h : Leads reading slots s m k slot) : Leads reading slots s (m + 1) k slot := by
  have hbefore : ∀ {u' v' : Nat} {e' : Edge}, Candidate reading slots s (m + 1) k u' v' e' →
      Candidate reading slots s m k u' v' e' := by
    intro u' v' e' h'
    refine (h'.cases he).resolve_right ?_
    rintro ⟨rfl, rfl, rfl⟩
    exact hk h'.slot
  rcases h with ⟨hfresh, hzero⟩ | ⟨u', v', e', he', hpos, heq, hmax⟩
  · exact Or.inl ⟨hfresh, fun _ _ _ h' => hzero _ _ _ (hbefore h')⟩
  · exact Or.inr ⟨u', v', e', he'.succ, hpos, heq, fun _ _ _ h' => hmax _ _ _ (hbefore h')⟩

/-- An offer to a fresh slot is taken if it weighs anything. -/
theorem leads_offer_fresh (hweighed : Weighed s)
    (he : Candidate reading slots s (m + 1) k u (m + 1) e)
    (hzero : ∀ u v e, Candidate reading slots s m k u v e → e.weight.toNat = 0) :
    Leads reading slots s (m + 1) k (Slot.fresh.offer u (m + 1) e.weight) := by
  obtain ⟨n, hn, hweight⟩ := hweighed he.enters
  have hnat : e.weight.toNat = n := by rw [hweight, Weight.toNat_ofNat hn]
  have hexceeds : e.weight.exceeds Slot.fresh.weight = true ↔ 0 < n := by
    rw [hweight]
    exact Weight.exceeds_minNormal_iff hn
  rw [Slot.offer]
  by_cases hpos : 0 < n
  · rw [if_pos (hexceeds.mpr hpos)]
    refine Or.inr ⟨u, m + 1, e, he, hnat ▸ hpos, rfl, ?_⟩
    intro u' v' e' h'
    rcases h'.cases he.enters with hbefore | ⟨rfl, rfl, rfl⟩
    · rw [hzero u' v' e' hbefore, hnat]
      exact Or.inl hpos
    · exact Or.inr ⟨rfl, Nat.le_refl _⟩
  · rw [if_neg (mt hexceeds.mp hpos)]
    refine Or.inl ⟨rfl, ?_⟩
    intro u' v' e' h'
    rcases h'.cases he.enters with hbefore | ⟨rfl, rfl, rfl⟩
    · exact hzero u' v' e' hbefore
    · rw [hnat]
      exact Nat.eq_zero_of_not_pos hpos

/-- An offer to a slot that holds an edge is taken if it is heavier. -/
theorem leads_offer_held (hweighed : Weighed s)
    (he : Candidate reading slots s (m + 1) k u (m + 1) e)
    (he' : Candidate reading slots s m k u' v' e') (hpos : 0 < e'.weight.toNat)
    (hmax : ∀ u'' v'' e'', Candidate reading slots s m k u'' v'' e'' →
      e''.weight.toNat < e'.weight.toNat ∨ (e''.weight.toNat = e'.weight.toNat ∧ v' ≤ v'')) :
    Leads reading slots s (m + 1) k
      (Slot.offer ⟨u'.toUInt32, v'.toUInt32, e'.weight.bits⟩ u (m + 1) e.weight) := by
  obtain ⟨n, hn, hweight⟩ := hweighed he.enters
  obtain ⟨n', hn', hweight'⟩ := hweighed he'.enters
  have hnat : e.weight.toNat = n := by rw [hweight, Weight.toNat_ofNat hn]
  have hnat' : e'.weight.toNat = n' := by rw [hweight', Weight.toNat_ofNat hn']
  have hexceeds : e.weight.exceeds (Slot.weight ⟨u'.toUInt32, v'.toUInt32, e'.weight.bits⟩) = true
      ↔ e'.weight.toNat < e.weight.toNat := by
    rw [hnat, hnat', ← Weight.exceeds_ofNat_iff hn hn', ← hweight, ← hweight']
    rfl
  rw [Slot.offer]
  by_cases hmore : e'.weight.toNat < e.weight.toNat
  · rw [if_pos (hexceeds.mpr hmore)]
    refine Or.inr ⟨u, m + 1, e, he, Nat.lt_trans hpos hmore, rfl, ?_⟩
    intro u'' v'' e'' h''
    rcases h''.cases he.enters with hbefore | ⟨rfl, rfl, rfl⟩
    · have hle := hmax u'' v'' e'' hbefore
      exact Or.inl (by omega)
    · exact Or.inr ⟨rfl, Nat.le_refl _⟩
  · rw [if_neg (mt hexceeds.mp hmore)]
    refine Or.inr ⟨u', v', e', he'.succ, hpos, rfl, ?_⟩
    intro u'' v'' e'' h''
    rcases h''.cases he.enters with hbefore | ⟨rfl, rfl, rfl⟩
    · exact hmax u'' v'' e'' hbefore
    · have hfirst := he'.le
      omega

/-- Every offer keeps that the heaviest edge leads. -/
theorem leads_offer (hweighed : Weighed s) (he : s.Enters u e (m + 1))
    (h : Leads reading slots s m (slotOf reading slots u (m + 1) e) slot) :
    Leads reading slots s (m + 1) (slotOf reading slots u (m + 1) e)
      (slot.offer u (m + 1) e.weight) := by
  have hnew : Candidate reading slots s (m + 1) (slotOf reading slots u (m + 1) e) u (m + 1) e :=
    ⟨he, Nat.le_refl _, rfl⟩
  rcases h with ⟨rfl, hzero⟩ | ⟨u', v', e', he', hpos, rfl, hmax⟩
  · exact leads_offer_fresh hweighed hnew hzero
  · exact leads_offer_held hweighed hnew he' hpos hmax

/-- After all offers the heaviest edge of every slot leads. -/
theorem leads_offeredOf (hweighed : Weighed s)
    (h : (offeredOf reading slots s)[k]? = some slot) :
    Leads reading slots s s.edges.length k slot := by
  have hstep : ∀ {m : Nat} {x : (Nat × Edge) × Nat}, s.edges.zipIdx[m]? = some x →
      x.2 = m ∧ s.Enters x.1.1 x.1.2 (m + 1) := by
    intro m x hx
    rw [List.getElem?_zipIdx] at hx
    obtain ⟨y, hy, rfl⟩ := Option.map_eq_some_iff.mp hx
    exact ⟨Nat.zero_add m, m, rfl, hy⟩
  rw [← List.length_zipIdx]
  refine foldl_modify_counts
    (fun x : (Nat × Edge) × Nat => slotOf reading slots x.1.1 (x.2 + 1) x.1.2)
    (fun x (slot : Slot) => slot.offer x.1.1 (x.2 + 1) x.1.2.weight)
    (Leads reading slots s) ?_ ?_ ?_ k slot h
  · intro m x hx slot hslot
    obtain ⟨rfl, he⟩ := hstep hx
    exact leads_offer hweighed he hslot
  · intro m x hx k slot hk hslot
    obtain ⟨rfl, he⟩ := hstep hx
    exact leads_other he hk hslot
  · intro k slot hslot
    rw [Array.getElem?_replicate] at hslot
    split at hslot
    · obtain rfl := Option.some.inj hslot
      refine Or.inl ⟨rfl, ?_⟩
      intro u v e h
      exact absurd h.enters.pos (Nat.not_lt.mpr h.le)
    · cases hslot

/-! ## Finished slots -/

/-- A finished slot holds, of the edges that belong to it and weigh anything, the heaviest, and of
equally heavy ones the first; without such an edge it is cleared. -/
def KeepsHeaviest (reading : Reading) (slots : Nat) (s : Shape) (k : Nat) (slot : Slot) : Prop :=
  (slot = ⟨0xFFFFFFFF, 0xFFFFFFFF, 0x00800000⟩ ∧ ∀ u v e, s.Enters u e v →
    slotOf reading slots u v e = k → e.weight.toNat = 0)
  ∨ ∃ u v e, s.Enters u e v ∧ slotOf reading slots u v e = k
    ∧ slot.parent.toNat = u ∧ slot.child.toNat = v ∧ 0 < e.weight.toNat
    ∧ ∀ u' v' e', s.Enters u' e' v' → slotOf reading slots u' v' e' = k →
      e'.weight.toNat < e.weight.toNat ∨ (e'.weight.toNat = e.weight.toNat ∧ v ≤ v')

theorem keepsHeaviest_ofShape (hsize : s.edges.length + 1 < 2 ^ 32) (hsound : s.Sound)
    (hweighed : Weighed s) (h : (ofShape reading s targets tail config).cache[k]? = some slot) :
    KeepsHeaviest reading (ofShape reading s targets tail config).cache.size s k slot := by
  rw [size_cache_ofShape]
  change ((offeredOf reading (slotCount reading config.cache s.distinct) s).toList.map
    (Slot.finish fun child => (shapePieces s targets).toArray[child - 1]?)).toArray[k]? = _ at h
  rw [List.getElem?_toArray, List.getElem?_map, Array.getElem?_toList] at h
  obtain ⟨old, hold, rfl⟩ := Option.map_eq_some_iff.mp h
  have hcandidate : ∀ {u v : Nat} {e : Edge}, s.Enters u e v →
      slotOf reading (slotCount reading config.cache s.distinct) u v e = k →
      Candidate reading (slotCount reading config.cache s.distinct) s s.edges.length k u v e := by
    intro u v e he hslot
    have hlt := hsound.lt_length he
    rw [hsound.length_nodes] at hlt
    exact ⟨he, Nat.le_of_lt_succ hlt, hslot⟩
  rcases leads_offeredOf hweighed hold with ⟨rfl, hzero⟩ | ⟨u, v, e, he, hpos, rfl, hmax⟩
  · exact Or.inl ⟨rfl, fun u v e he hslot => hzero u v e (hcandidate he hslot)⟩
  · have hv : v < 2 ^ 32 := Nat.lt_of_le_of_lt he.le (Nat.lt_of_succ_lt hsize)
    have hchild := toNat_toUInt32 hv
    have hparent := toNat_toUInt32 (Nat.lt_trans (hsound.lt_of_enters he.enters) hv)
    have hne : ¬v.toUInt32 = 0 := by
      intro hzero
      rw [hzero] at hchild
      exact Nat.ne_of_gt he.enters.pos hchild.symm
    rw [Slot.finish, if_neg hne]
    simp only [hchild, List.getElem?_toArray, shapePieces_getElem? targets he.enters]
    exact Or.inr ⟨u, v, e, he.enters, he.slot, hparent, hchild, hpos,
      fun u' v' e' he' hslot => hmax u' v' e' (hcandidate he' hslot)⟩

end Level

end Lexicon
