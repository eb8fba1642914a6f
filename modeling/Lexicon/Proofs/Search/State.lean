/-
Lexicon.Proofs.Search.State — nothing that is left in the record is ever read.

The record that all searches share keeps what earlier searches wrote, and a search sets
only some of its fields when it starts. `SearchState.KeptIn` says what a search that is
suspended needs of the record: the fields that its kind of search uses, the others being
arbitrary. The way of a search for extensions lies in the history as the frames of a
tour do (`State.Holds`), the visits ahead behind the visits above, and the bytes of a
node are the front of the buffer that its visit gives the length of. Every search that
starts from a record comes to the same as from the suspended search that is kept there,
and leaves a record that keeps what that leaves (`State.simulates`). So one record serves
any row of requests to any dictionaries as if there were nothing in it but the search
that is suspended (`Dictionary.serveAll_state`).
-/
import Lexicon.Proofs.Search.Simulation
import Lexicon.Search.State

namespace Lexicon

/-! ## What is kept in the record -/

/-- A frame as it stands in the history, with only the number of its bytes. -/
def Frame.visit (f : Frame) : Visit :=
  { node := f.node, position := f.position, length := f.bytes.length, link := f.link, key := f.key }

/-- The frames of a tour as they stand in the history: the way from its start to where it stands,
and then the layers ahead. -/
def Tour.frames (t : Tour) : List Frame :=
  t.above.reverse ++ t.here :: t.ahead

/-- A tour is kept in the record. -/
structure State.Holds (st : State) (t : Tour) : Prop where
  status : st.status = .extensions
  history : st.history = t.frames.map Frame.visit
  historyPos : st.historyPos = t.above.length + 1
  buffer : st.buffer = t.here.bytes
  /-- The bytes of each node go on from those of the node above it. -/
  nested : (t.here :: t.above).IsChain fun lower upper => upper.bytes <+: lower.bytes

/-- The search that is suspended is kept in the record. -/
def Progress.KeptIn (st : State) : Progress → Prop
  | .fresh => st.status = .ready
  | .prefixes node length => st.status = .prefixes ∧ st.node = node ∧ st.queryPos = length
  | .prefixesDone => st.status = .prefixesDone
  | .extensions tour => st.Holds tour
  | .extensionsDone => st.status = .extensionsDone

/-- All that is known of the searches is kept in the record; whatever else is there is arbitrary. -/
structure SearchState.KeptIn (s : SearchState) (st : State) : Prop where
  progress : s.progress.KeptIn st
  buffer : st.buffer = s.buffer

namespace Moves

variable {m : Moves} {node position : Nat} {query : List UInt8}

/-! ## Walks along the bytes that are left -/

theorem lookupFrom?_drop (h : position < query.length) :
    m.lookupFrom? node (query.drop position)
      = (m.step? false node (query.drop position)).bind fun step =>
        if step.fits then
          if 0 < step.used then m.lookupFrom? step.node (query.drop (position + step.used))
          else none
        else some none := by
  obtain ⟨b, rest, hleft⟩ : ∃ b rest, query.drop position = b :: rest :=
    ⟨_, _, List.drop_eq_getElem_cons h⟩
  simp only [← List.drop_drop, hleft]
  rw [lookupFrom?]
  rfl

theorem nextPrefix?_drop (h : position < query.length) :
    m.nextPrefix? node position (query.drop position)
      = (m.step? false node (query.drop position)).bind fun step =>
        if step.fits then
          if 0 < step.used then
            (m.keyAt? step.node).bind fun
              | some id => some (some ⟨step.node, position + step.used, id⟩)
              | none =>
                m.nextPrefix? step.node (position + step.used) (query.drop (position + step.used))
          else none
        else some none := by
  obtain ⟨b, rest, hleft⟩ : ∃ b rest, query.drop position = b :: rest :=
    ⟨_, _, List.drop_eq_getElem_cons h⟩
  simp only [← List.drop_drop, hleft]
  rw [nextPrefix?]
  rfl

theorem locateFrom?_drop (h : position < query.length) (bytes : List UInt8) :
    m.locateFrom? bytes node (query.drop position)
      = (m.step? true node (query.drop position)).bind fun step =>
        if step.fits then
          if 0 < step.used then
            m.locateFrom? (bytes ++ step.copied) step.node (query.drop (position + step.used))
          else none
        else some (.lost (bytes ++ step.copied)) := by
  obtain ⟨b, rest, hleft⟩ : ∃ b rest, query.drop position = b :: rest :=
    ⟨_, _, List.drop_eq_getElem_cons h⟩
  simp only [← List.drop_drop, hleft]
  rw [locateFrom?]
  rfl

end Moves

namespace State

variable {m : Moves} {st st' : State} {s : SearchState} {query : List UInt8}

/-! ## Along the query -/

/-- Whether the search arrives or not, it leaves the rest of the record alone. -/
theorem keeps_descend? {copies arrived : Bool}
    (h : st.descend? m copies query = some (st', arrived)) :
    st'.status = st.status ∧ st'.history = st.history
      ∧ (copies = false → st'.buffer = st.buffer) := by
  induction st using descend?.induct copies query with
  | case1 st hleft ih =>
    rw [descend?, dif_pos hleft] at h
    cases hstep : m.step? copies st.node (query.drop st.queryPos) with
    | none =>
      rw [hstep] at h
      cases h
    | some step =>
      rw [hstep, Option.bind_eq_bind, Option.bind_some] at h
      have hfollow : copies = false → (st.follow copies step).buffer = st.buffer := by
        rintro rfl
        rfl
      split at h
      · split at h
        · rename_i hused
          obtain ⟨hstatus, hhistory, hbuffer⟩ := ih step hused h
          exact ⟨hstatus, hhistory, fun hcopies => (hbuffer hcopies).trans (hfollow hcopies)⟩
        · cases h
      · cases h
        exact ⟨rfl, rfl, hfollow⟩
  | case2 st hdone =>
    rw [descend?, dif_neg hdone] at h
    cases h
    exact ⟨rfl, rfl, fun _ => rfl⟩

theorem lookupFrom?_eq (m : Moves) (query : List UInt8) (st : State) :
    m.lookupFrom? st.node (query.drop st.queryPos) = (st.descend? m false query).bind
      fun (st', arrived) => if arrived then m.keyAt? st'.node else some none := by
  induction st using descend?.induct false query with
  | case1 st hleft ih =>
    rw [Moves.lookupFrom?_drop hleft, descend?, dif_pos hleft]
    cases m.step? false st.node (query.drop st.queryPos) with
    | none => rfl
    | some step =>
      by_cases hfits : step.fits = true
      · by_cases hused : 0 < step.used
        · simpa [hfits, hused, follow] using ih step hused
        · simp [hfits, hused]
      · simp [hfits]
  | case2 st hdone =>
    rw [descend?, dif_neg hdone, List.drop_eq_nil_of_le (Nat.le_of_not_lt hdone),
      Moves.lookupFrom?]
    rfl

theorem locateFrom?_eq (m : Moves) (query : List UInt8) (st : State) :
    m.locateFrom? st.buffer st.node (query.drop st.queryPos) = (st.descend? m true query).map
      fun (st', arrived) => if arrived then .found st'.node st'.buffer else .lost st'.buffer := by
  induction st using descend?.induct true query with
  | case1 st hleft ih =>
    rw [Moves.locateFrom?_drop hleft, descend?, dif_pos hleft]
    cases m.step? true st.node (query.drop st.queryPos) with
    | none => rfl
    | some step =>
      by_cases hfits : step.fits = true
      · by_cases hused : 0 < step.used
        · simpa [hfits, hused, follow] using ih step hused
        · simp [hfits, hused]
      · simp [hfits, follow]
  | case2 st hdone =>
    rw [descend?, dif_neg hdone, List.drop_eq_nil_of_le (Nat.le_of_not_lt hdone),
      Moves.locateFrom?]
    rfl

/-- The exact search leaves nothing suspended, and the buffer as it was. -/
theorem lookup?_rel (m : Moves) (query : List UInt8) (h : s.KeptIn st) :
    Option.Rel (Found SearchState.KeptIn) (s.lookup? m query) (st.lookup? m query) := by
  have hwalk : m.lookup? query = (st.lookupInit.descend? m false query).bind
      fun (st', arrived) => if arrived then m.keyAt? st'.node else some none :=
    lookupFrom?_eq m query st.lookupInit
  rw [SearchState.lookup?, lookup?, hwalk]
  cases hdescend : st.lookupInit.descend? m false query with
  | none => exact .none
  | some arrival =>
    obtain ⟨st', arrived⟩ := arrival
    obtain ⟨hstatus, _, hbuffer⟩ := keeps_descend? hdescend
    have hkept : s.reset.KeptIn st' := ⟨hstatus, (hbuffer rfl).trans h.buffer⟩
    cases arrived with
    | false => exact .some ⟨hkept, rfl⟩
    | true =>
      simp only [Option.bind_eq_bind, Option.bind_some, if_true]
      cases m.keyAt? st'.node with
      | none => exact .none
      | some found => exact .some ⟨hkept, rfl⟩

/-! ## Prefixes of the query -/

theorem advancePrefix?_rel (m : Moves) (query : List UInt8) (hbuffer : st.buffer = s.buffer)
    (hstatus : st.status = .prefixes) :
    Option.Rel (Found SearchState.KeptIn) (s.advancePrefix? m query st.node st.queryPos)
      (st.advancePrefix? m query) := by
  unfold SearchState.advancePrefix?
  induction st using advancePrefix?.induct query with
  | case1 st hleft ih =>
    rw [Moves.nextPrefix?_drop hleft, advancePrefix?, dif_pos hleft]
    cases m.step? false st.node (query.drop st.queryPos) with
    | none => exact .none
    | some step =>
      simp only [Option.bind_eq_bind, Option.bind_some]
      by_cases hfits : step.fits = true
      · by_cases hused : 0 < step.used
        · rw [if_pos hfits, if_pos hused, if_pos hfits, dif_pos hused]
          cases m.keyAt? step.node with
          | none => exact .none
          | some found =>
            cases found with
            | none => exact ih step hused hbuffer hstatus
            | some id => exact .some ⟨⟨⟨hstatus, rfl, rfl⟩, hbuffer⟩, rfl⟩
        · rw [if_pos hfits, if_neg hused, if_pos hfits, dif_neg hused]
          exact .none
      · rw [if_neg hfits, if_neg hfits]
        exact .some ⟨⟨rfl, hbuffer⟩, rfl⟩
  | case2 st hdone =>
    rw [advancePrefix?, dif_neg hdone, List.drop_eq_nil_of_le (Nat.le_of_not_lt hdone),
      Moves.nextPrefix?]
    exact .some ⟨⟨rfl, hbuffer⟩, rfl⟩

/-- What a search for prefixes starts over from is all set when it starts. -/
theorem startPrefix?_rel (m : Moves) (query : List UInt8) (h : s.KeptIn st) :
    Option.Rel (Found SearchState.KeptIn) (s.startPrefix? m query) (st.startPrefix? m query) := by
  unfold SearchState.startPrefix? startPrefix?
  show Option.Rel _ ((m.keyAt? 0).bind _) ((m.keyAt? 0).bind _)
  cases m.keyAt? 0 with
  | none => exact .none
  | some found =>
    cases found with
    | some id => exact .some ⟨⟨⟨rfl, rfl, rfl⟩, h.buffer⟩, rfl⟩
    | none =>
      have hbuffer : st.prefixInit.buffer = s.buffer := h.buffer
      exact advancePrefix?_rel m query hbuffer rfl

theorem nextPrefix?_rel (m : Moves) (query : List UInt8) (h : s.KeptIn st) :
    Option.Rel (Found SearchState.KeptIn) (s.nextPrefix? m query) (st.nextPrefix? m query) := by
  have hstart := startPrefix?_rel m query h
  have hkept := h.progress
  unfold SearchState.nextPrefix? nextPrefix?
  cases hprogress : s.progress with
  | prefixes node length =>
    rw [hprogress] at hkept
    obtain ⟨hstatus, rfl, rfl⟩ := hkept
    rw [hstatus]
    exact advancePrefix?_rel m query h.buffer hstatus
  | prefixesDone =>
    rw [hprogress] at hkept
    rw [show st.status = .prefixesDone from hkept]
    exact .some ⟨h, rfl⟩
  | fresh =>
    rw [hprogress] at hkept
    rw [show st.status = .ready from hkept]
    exact hstart
  | extensions tour =>
    rw [hprogress] at hkept
    rw [hkept.status]
    exact hstart
  | extensionsDone =>
    rw [hprogress] at hkept
    rw [show st.status = .extensionsDone from hkept]
    exact hstart

/-! ## Back to the root -/

/-- The buffer holds back to front what was read so far. -/
theorem climb?_rel (m : Moves) (st : State) (node : Nat) :
    Option.Rel (fun bytes st' => st'.buffer = bytes ∧ st'.status = st.status)
      (m.spellFrom? node st.buffer.reverse) (st.climb? m node) := by
  induction st, node using climb?.induct with
  | case1 st node ih =>
    rw [Moves.spellFrom?, climb?]
    cases m.ascend? node with
    | none => exact .none
    | some found =>
      obtain ⟨label, above⟩ := found
      simp only [Option.bind_eq_bind, Option.bind_some]
      have hbytes : (st.buffer ++ label.reverse).reverse = label ++ st.buffer.reverse := by
        rw [List.reverse_append, List.reverse_reverse]
      cases above with
      | none => exact .some ⟨hbytes, rfl⟩
      | some parent =>
        by_cases hlt : parent < node
        · have hrest := ih label parent hlt
          simp only [hbytes] at hrest
          simpa only [hlt, if_true] using hrest
        · simp only [hlt, if_false]
          exact .none

theorem restore?_rel (m : Moves) (id : Nat) (s : SearchState) (st : State) :
    Option.Rel SearchState.KeptIn (s.restore? m id) (st.restore? m id) := by
  unfold SearchState.restore? Moves.keyOf? restore?
  cases m.nodeOf? id with
  | none => exact .none
  | some node =>
    simp only [Option.bind_eq_bind, Option.bind_some, Moves.spell?]
    by_cases hroot : node = 0
    · rw [if_pos hroot, if_pos hroot]
      exact .some ⟨rfl, rfl⟩
    · rw [if_neg hroot, if_neg hroot]
      have hclimb := climb?_rel m st.restoreInit node
      have hmap := rel_map (S := SearchState.KeptIn) (f := fun bytes => { buffer := bytes })
        (g := fun st => st) hclimb fun hrel => ⟨hrel.2, hrel.1⟩
      rwa [Option.map_id'] at hmap

/-! ## Below the node that was reached -/

/-- What a turn of a tour comes to in the record: the tour is kept there, or what its event leaves. -/
inductive Turned : Tour.Turn → State × Option (Option Nat) → Prop
  | stop {event : Tour.Event} {st : State} {found : Option Nat} :
    Found SearchState.KeptIn (SearchState.report event) (st, found) →
    Turned (.stop event) (st, some found)
  | on {tour : Tour} {st : State} : st.Holds tour → Turned (.on tour) (st, none)

variable {tour : Tour} {frame : Frame} {ahead : List Frame}

/-- The history with a new visit is that of a tour with a new frame. -/
theorem extend?_eq (m : Moves) (h : st.Holds tour) :
    st.extend? m tour.above.length = (m.nextFrame? tour).map fun (frame, ahead) =>
      (({ tour with ahead := frame :: ahead } : Tour).frames.map Frame.visit) := by
  unfold extend? Moves.nextFrame?
  rw [h.history]
  cases hahead : tour.ahead with
  | nil =>
    have hhere : (tour.frames.map Frame.visit)[tour.above.length]? = some tour.here.visit := by
      simp [Tour.frames]
    rw [if_pos (by simp [Tour.frames, hahead]), hhere]
    simp only [Option.bind_eq_bind, Option.bind_some]
    show (m.children? tour.here.node).bind _ = _
    cases m.children? tour.here.node with
    | none => rfl
    | some found => simp [Tour.frames, hahead, Frame.visit]
  | cons frame ahead =>
    rw [if_neg (by simp [Tour.frames, hahead])]
    simp [Tour.frames, hahead]

/-- A child that is met is kept in the record as in the tour. -/
theorem holds_met {here : Frame} {above : List Frame} (met : Frame) (ahead : List Frame)
    (hstatus : st.status = .extensions)
    (hnested : (here :: above).IsChain fun lower upper => upper.bytes <+: lower.bytes)
    (hmet : here.bytes <+: met.bytes) :
    Holds { st with
        history := above.reverse.map Frame.visit
          ++ here.visit :: met.visit :: ahead.map Frame.visit
        historyPos := above.length + 2
        buffer := met.bytes }
      { here := met, above := here :: above, ahead } := by
  refine ⟨hstatus, ?_, rfl, rfl, .cons_cons hmet hnested⟩
  simp [Tour.frames]

/-- A node that is left upward is cut off from the buffer. -/
theorem holds_left {here parent : Frame} {above : List Frame} (advanced : Frame)
    (ahead : List Frame) (hstatus : st.status = .extensions) (hbuffer : st.buffer = here.bytes)
    (hnested : (here :: parent :: above).IsChain fun lower upper => upper.bytes <+: lower.bytes) :
    Holds { st with
        history := above.reverse.map Frame.visit ++ parent.visit
          :: { here.visit with node := here.node + 1 } :: advanced.visit :: ahead.map Frame.visit
        historyPos := above.length + 1
        buffer := st.buffer.take parent.bytes.length }
      { here := parent, above, ahead := { here with node := here.node + 1 } :: advanced :: ahead } := by
  obtain ⟨hfront, hnested⟩ := List.isChain_cons_cons.mp hnested
  refine ⟨hstatus, ?_, rfl, ?_, hnested⟩
  · simp [Tour.frames, Frame.visit]
  · rw [hbuffer]
    exact (List.prefix_iff_eq_take.mp hfront).symm

/-- The visit behind the one where the tour stands is that of the next frame. -/
theorem visits_getElem?_next (here frame : Frame) (above ahead : List Frame) :
    ((above.reverse ++ here :: frame :: ahead).map Frame.visit)[above.length + 1]?
      = some frame.visit := by
  simp

theorem visits_set_next (here frame : Frame) (above ahead : List Frame) (visit : Visit) :
    ((above.reverse ++ here :: frame :: ahead).map Frame.visit).set (above.length + 1) visit
      = above.reverse.map Frame.visit ++ here.visit :: visit :: ahead.map Frame.visit := by
  simp [List.set_append_right]

/-- A child is met in the record as in the tour. -/
theorem readVisit?_rel_of_child (h : st.Holds tour)
    (hchild : m.isChild? frame.node frame.position = some true) :
    Option.Rel Turned (m.readFrame? tour frame ahead)
      (st.readVisit? m tour.above.length
        (({ tour with ahead := frame :: ahead } : Tour).frames.map Frame.visit)) := by
  obtain ⟨hstatus, _, _, hbuffer, hnested⟩ := h
  obtain ⟨here, above, _⟩ := tour
  dsimp only at hbuffer hnested ⊢
  unfold Moves.readFrame? readVisit? Tour.frames
  simp only [visits_getElem?_next, visits_set_next, Option.bind_eq_bind, Option.bind_some]
  rw [hchild, show m.isChild? frame.visit.node frame.visit.position = some true from hchild]
  simp only [Option.bind_some, if_true]
  show Option.Rel _ ((m.label? frame.link frame.node).bind _)
    ((m.label? frame.link frame.node).bind _)
  cases m.label? frame.link frame.node with
  | none => exact .none
  | some found =>
    obtain ⟨label, link⟩ := found
    simp only [Option.bind_some, hbuffer]
    show Option.Rel _ ((m.nextKey? frame.key frame.node).bind _)
      ((m.nextKey? frame.key frame.node).bind _)
    have hfront := List.prefix_append here.bytes label
    cases m.nextKey? frame.key frame.node with
    | none => exact .none
    | some found =>
      cases found with
      | none =>
        exact .some (.on (holds_met
          { frame with position := frame.position + 1, bytes := here.bytes ++ label, link }
          ahead hstatus hnested hfront))
      | some id =>
        have hholds := holds_met
          { frame with
            position := frame.position + 1, bytes := here.bytes ++ label, link, key := some id }
          ahead hstatus hnested hfront
        exact .some (.stop ⟨⟨hholds, rfl⟩, rfl⟩)

/-- A node without more children is left in the record as in the tour, and the search ends at the
node where it began. -/
theorem readVisit?_rel_of_no_child (h : st.Holds tour)
    (hchild : m.isChild? frame.node frame.position = some false) :
    Option.Rel Turned (m.readFrame? tour frame ahead)
      (st.readVisit? m tour.above.length
        (({ tour with ahead := frame :: ahead } : Tour).frames.map Frame.visit)) := by
  obtain ⟨hstatus, _, _, hbuffer, hnested⟩ := h
  obtain ⟨here, above, _⟩ := tour
  dsimp only at hbuffer hnested ⊢
  unfold Moves.readFrame? readVisit? Tour.frames
  simp only [visits_getElem?_next, visits_set_next, Option.bind_eq_bind, Option.bind_some]
  rw [hchild, show m.isChild? frame.visit.node frame.visit.position = some false from hchild]
  simp only [Option.bind_some, Bool.false_eq_true, if_false]
  cases above with
  | nil => exact .some (.stop ⟨⟨rfl, hbuffer⟩, rfl⟩)
  | cons parent above =>
    have hhere : ∀ visits : List Visit, (List.map Frame.visit (parent :: above).reverse
        ++ here.visit :: visits)[above.length + 1]? = some here.visit := by
      simp
    have hparent : ∀ visits : List Visit, (List.map Frame.visit (parent :: above).reverse
        ++ here.visit :: visits)[above.length]? = some parent.visit := by
      simp
    have hleave : ∀ (visit : Visit) (visits : List Visit),
        (List.map Frame.visit (parent :: above).reverse ++ here.visit :: visits).set
          (above.length + 1) visit
        = above.reverse.map Frame.visit ++ parent.visit :: visit :: visits := by
      simp [List.set_append_right]
    simp only [List.length_cons, hhere, hparent, hleave, Option.bind_some]
    exact .some (.on (holds_left { frame with position := frame.position + 1 } ahead hstatus
      hbuffer hnested))

/-- The record is read and written where the tour is. -/
theorem readVisit?_rel (h : st.Holds tour) :
    Option.Rel Turned (m.readFrame? tour frame ahead)
      (st.readVisit? m tour.above.length
        (({ tour with ahead := frame :: ahead } : Tour).frames.map Frame.visit)) := by
  cases hchild : m.isChild? frame.node frame.position with
  | some child =>
    cases child with
    | true => exact readVisit?_rel_of_child h hchild
    | false => exact readVisit?_rel_of_no_child h hchild
  | none =>
    unfold Moves.readFrame? readVisit? Tour.frames
    simp only [visits_getElem?_next, visits_set_next, Option.bind_eq_bind, Option.bind_some]
    rw [hchild, show m.isChild? frame.visit.node frame.visit.position = none from hchild]
    exact .none

/-- One bit is read alike. -/
theorem turn?_rel (m : Moves) (h : st.Holds tour) :
    Option.Rel Turned (m.turn? tour) (st.turn? m) := by
  unfold Moves.turn? turn?
  rw [h.historyPos]
  dsimp only
  rw [extend?_eq m h]
  cases m.nextFrame? tour with
  | none => exact .none
  | some next => exact readVisit?_rel h

/-- What a tour comes to it comes to in the record. -/
theorem walk?_rel (m : Moves) (fuel : Nat) (h : st.Holds tour) :
    Option.Rel (Found SearchState.KeptIn)
      ((m.resumeWithin? fuel tour).map SearchState.report) (st.walk? m fuel) := by
  induction fuel generalizing st tour with
  | zero => exact .none
  | succ fuel ih =>
    rw [Moves.resumeWithin?, walk?]
    have hturn := turn?_rel m h
    generalize m.turn? tour = turn at hturn ⊢
    generalize st.turn? m = turned at hturn ⊢
    cases hturn with
    | none => exact .none
    | some hturned =>
      cases hturned with
      | stop hfound => exact .some hfound
      | on hholds => exact ih hholds

/-- What a search for extensions starts over from is all set when it starts. -/
theorem startExtension?_rel (m : Moves) (query : List UInt8) (st : State) :
    Option.Rel (Found SearchState.KeptIn) (SearchState.startExtension? m query)
      (st.startExtension? m query) := by
  have hlocate : m.locate? query = (st.extensionInit.descend? m true query).map
      fun (st', arrived) => if arrived then .found st'.node st'.buffer else .lost st'.buffer :=
    locateFrom?_eq m query st.extensionInit
  unfold SearchState.startExtension? startExtension?
  rw [hlocate]
  cases hdescend : st.extensionInit.descend? m true query with
  | none => exact .none
  | some arrival =>
    obtain ⟨st', arrived⟩ := arrival
    obtain ⟨hstatus, hhistory, _⟩ := keeps_descend? hdescend
    cases arrived with
    | false => exact .some ⟨⟨rfl, rfl⟩, rfl⟩
    | true =>
      have hholds : Holds { st' with
          history := st'.history ++ [{ node := st'.node, length := st'.buffer.length }]
          historyPos := 1 } (.start st'.node st'.buffer) := by
        refine ⟨hstatus, ?_, rfl, rfl, .singleton _⟩
        rw [hhistory]
        rfl
      simp only [Option.map_some, Option.bind_eq_bind, Option.bind_some, if_true,
        Moves.beginTour?]
      cases m.keyAt? st'.node with
      | none => exact .none
      | some found =>
        cases found with
        | some id => exact .some ⟨⟨hholds, rfl⟩, rfl⟩
        | none => exact walk?_rel m m.fuel hholds

theorem nextExtension?_rel (m : Moves) (query : List UInt8) (h : s.KeptIn st) :
    Option.Rel (Found SearchState.KeptIn) (s.nextExtension? m query)
      (st.nextExtension? m query) := by
  have hstart := startExtension?_rel m query st
  have hkept := h.progress
  unfold SearchState.nextExtension? nextExtension?
  cases hprogress : s.progress with
  | extensions tour =>
    rw [hprogress] at hkept
    rw [hkept.status]
    exact walk?_rel m m.fuel hkept
  | extensionsDone =>
    rw [hprogress] at hkept
    rw [show st.status = .extensionsDone from hkept]
    exact .some ⟨h, rfl⟩
  | fresh =>
    rw [hprogress] at hkept
    rw [show st.status = .ready from hkept]
    exact hstart
  | prefixes node length =>
    rw [hprogress] at hkept
    rw [hkept.1]
    exact hstart
  | prefixesDone =>
    rw [hprogress] at hkept
    rw [show st.status = .prefixesDone from hkept]
    exact hstart

/-! ## The record in place of the suspended search -/

/-- No search tells the record from the suspended search that is kept there. -/
theorem simulates : Memory.Simulates SearchState.KeptIn where
  fresh := ⟨rfl, rfl⟩
  reset := fun h => ⟨rfl, h.buffer⟩
  buffer := fun h => h.buffer
  lookup? := lookup?_rel
  restore? := fun m id _ => restore?_rel m id _ _
  nextPrefix? := nextPrefix?_rel
  nextExtension? := nextExtension?_rel

theorem shows_fresh : ({} : Agent).Shows SearchState.KeptIn ({} : Agent State) :=
  ⟨rfl, rfl, rfl, .none⟩

end State

namespace Dictionary

/-- A row of requests to any dictionaries comes to the same whether an agent keeps the whole record
or the suspended search alone: the outcome, the key and the id after each request are the same. -/
theorem serveAll_state (schedule : List (Dictionary × Request)) :
    (serveAll ({} : Agent State) schedule).map
        (fun served => (served.2, served.1.key, served.1.keyId))
      = (serveAll ({} : Agent) schedule).map
        (fun served => (served.2, served.1.key, served.1.keyId)) := by
  have hall := State.shows_fresh.serveAll State.simulates schedule
  generalize serveAll ({} : Agent) schedule = served at hall ⊢
  generalize serveAll ({} : Agent State) schedule = served' at hall ⊢
  induction hall with
  | nil => rfl
  | cons hfound _ ih =>
    rw [List.map_cons, List.map_cons, ih, hfound.same, hfound.rest.key State.simulates,
      hfound.rest.keyId]

/-- Two records that keep one suspended search get the same replies, whatever else is in them. -/
theorem replies_eq_of_keptIn {s : SearchState} {st st' : State} (h : s.KeptIn st)
    (h' : s.KeptIn st') (d : Dictionary) (a : Agent State) (requests : List Request) :
    d.replies { a with state := some st' } requests
      = d.replies { a with state := some st } requests := by
  have hshows : ∀ {st : State}, s.KeptIn st →
      Agent.Shows SearchState.KeptIn
        ({ query := a.query, queryId := a.queryId, answer := a.answer, state := some s } : Agent)
        { a with state := some st } :=
    fun hkept => ⟨rfl, rfl, rfl, .some hkept⟩
  rw [(hshows h).replies State.simulates, (hshows h').replies State.simulates]

/-- While no search is suspended, the nodes, positions and visits that earlier searches left in the
record are never read again. -/
theorem replies_of_ready {st : State} (h : st.status = .ready) (node queryPos historyPos : Nat)
    (history : List Visit) (d : Dictionary) (a : Agent State) (requests : List Request) :
    d.replies { a with state := some { st with node, queryPos, historyPos, history } } requests
      = d.replies { a with state := some st } requests := by
  have hkept : ({ buffer := st.buffer } : SearchState).KeptIn st := ⟨h, rfl⟩
  have hkept' : ({ buffer := st.buffer } : SearchState).KeptIn
      { st with node, queryPos, historyPos, history } := ⟨h, rfl⟩
  exact replies_eq_of_keptIn hkept hkept' d a requests

end Dictionary

end Lexicon
