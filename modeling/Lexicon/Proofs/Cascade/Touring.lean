/-
Lexicon.Proofs.Cascade.Touring — a tour meets every node below its start, each once.

What a tour keeps true is `Tour.Ready`: the frames from the start down to where it
stands are met nodes, each a child of the one before (`Tour.OnPath`); the frames ahead
are where the next family of each deeper layer begins (`Tour.Ahead`), because a family
that is done lies right before it; and the numbers in a frame are those of the last link
and the last key before the next node of its layer (`Frame.Counted`). The state also
says which nodes are left, in depth-first order. One bit is read at a time, by the frame
that is next (`Tour.Reads`): it either takes the first of the nodes that are left
(`Tour.Reads.ready_child`) or goes one node up (`Tour.Reads.ready_climb`), and either way
less is left to do (`Moves.turn?_spec`). By induction on the fuel this leads to the next
key (`Moves.resumeWithin?_spec`), and there is fuel for all nodes (`Moves.resume?_spec`).
-/
import Lexicon.Cascade.Enumeration
import Lexicon.Proofs.Cascade.Walks
import Lexicon.Proofs.Shape.Preorder

namespace Lexicon

/-- The numbers in a frame are those before the given node, which is the next one of its layer. -/
structure Frame.Counted (s : Shape) (f : Frame) (next : Nat) : Prop where
  link : ∀ number, f.link = some number → number + 1 = Level.linkNumber s next
  key : ∀ number, f.key = some number → number + 1 = Level.keyNumber s next

/-- The node of a frame was met, and no later one of its layer. -/
structure Frame.Met (s : Shape) (f : Frame) : Prop where
  spells : s.Spells f.node f.bytes
  counted : f.Counted s (f.node + 1)

namespace Tour

/-- The frames from a node up to where a tour began, and the nodes left to meet once the lowest of
them is done. -/
inductive OnPath (s : Shape) : Frame → List Frame → List Nat → Prop
  | start {here : Frame} : here.Met s → OnPath s here [] []
  | down {here parent : Frame} {above : List Frame} {rest : List Nat} {j : Nat} :
    OnPath s parent above rest → j < s.degree parent.node →
    here.node = s.firstChild parent.node + j → here.position = s.start parent.node + j + 1 →
    here.Met s → OnPath s here (parent :: above) (s.nodesFrom parent.node (j + 1) ++ rest)

/-- The frames of the layers below: the first reads at the given place, and each reads the children
of the next node of the layer above it. -/
def Ahead (s : Shape) : (node position : Nat) → List Frame → Prop
  | _, _, [] => True
  | node, position, f :: frames =>
    f.node = node ∧ f.position = position ∧ f.Counted s node
      ∧ Ahead s (s.firstChild node) (s.start node) frames

/-- A tour that began at `root` stands where the given nodes are left to meet. -/
structure Ready (s : Shape) (root : Nat) (tour : Tour) (left : List Nat) : Prop where
  intro ::
  state : ∃ j rest, j ≤ s.degree tour.here.node ∧ (tour.ahead = [] → j = 0)
    ∧ OnPath s tour.here tour.above rest
    ∧ Ahead s (s.firstChild tour.here.node + j) (s.start tour.here.node + j) tour.ahead
    ∧ left = s.nodesFrom tour.here.node j ++ rest
  /-- The nodes met so far are at least those on the path. -/
  met : ∃ done, s.subtree root = done ++ left ∧ tour.above.length + 1 ≤ done.length

/-- A tour is about to read a frame, which looks for the `j`-th child of the node where it stands. -/
structure Reads (s : Shape) (root : Nat) (tour : Tour) (frame : Frame) (ahead : List Frame)
    (j : Nat) (rest : List Nat) : Prop where
  path : OnPath s tour.here tour.above rest
  node : frame.node = s.firstChild tour.here.node + j
  position : frame.position = s.start tour.here.node + j
  counted : frame.Counted s frame.node
  next : Ahead s (s.firstChild frame.node) (s.start frame.node) ahead
  met : ∃ done, s.subtree root = done ++ (s.nodesFrom tour.here.node j ++ rest)
    ∧ tour.above.length + 1 ≤ done.length

end Tour

/-! ## What a tour keeps true -/

variable {s : Shape} {root : Nat} {tour : Tour} {left left' rest : List Nat} {frame : Frame}
  {ahead : List Frame} {j : Nat}

/-- A child that is met is a met node: its bytes go on from those of the node above, and its numbers
are those before the next node of its layer. -/
theorem Frame.Counted.met (hcounted : frame.Counted s frame.node) (position : Nat) {u : Nat}
    {w : List UInt8} {e : Edge} (hu : s.Spells u w) (he : s.Enters u e frame.node)
    (hlt : frame.node < s.nodes.length) :
    Frame.Met s
      { node := frame.node, position, bytes := w ++ e.label
        link := if e.isLink then some (Level.linkNumber s frame.node) else frame.link
        key := (s.keyAt frame.node).or frame.key } := by
  refine ⟨hu.down he, ?link, ?key⟩
  case link =>
    intro number hnumber
    rw [Level.linkNumber_succ he]
    cases hlink : e.isLink with
    | true =>
      simp only [hlink, if_true, Option.some.injEq] at hnumber
      rw [← hnumber]
      rfl
    | false =>
      simp only [hlink, Bool.false_eq_true, if_false] at hnumber
      exact hcounted.link number hnumber
  case key =>
    intro number hnumber
    rw [Shape.keyNumber_succ frame.node hlt]
    cases hkey : s.keyAt frame.node with
    | some id =>
      obtain rfl : id = number := by simpa [hkey] using hnumber
      exact congrArg (· + 1) (Shape.keyAt_eq_some_iff.mp hkey).count.symm
    | none =>
      simp only [hkey, Option.none_or] at hnumber
      exact hcounted.key number hnumber

namespace Tour

theorem OnPath.met {here : Frame} {above : List Frame} (h : OnPath s here above rest) :
    here.Met s := by
  cases h with
  | start hmet => exact hmet
  | down _ _ _ _ hmet => exact hmet

/-- A child that is met is the first node that was left. -/
theorem Reads.ready_child (hsound : s.Sound) {met : Frame}
    (hreads : tour.Reads s root frame ahead j rest) (hj : j < s.degree tour.here.node)
    (hmet : met.Met s) (hnode : met.node = frame.node)
    (hposition : met.position = frame.position + 1) :
    ∃ left, s.nodesFrom tour.here.node j ++ rest = met.node :: left
      ∧ Ready s root { here := met, above := tour.here :: tour.above, ahead } left := by
  have hchild := hnode.trans hreads.node
  have hat := hposition.trans (congrArg (· + 1) hreads.position)
  have hahead := hreads.next
  rw [← hnode] at hahead
  have hsplit : s.nodesFrom tour.here.node j ++ rest = met.node
      :: (s.nodesFrom met.node 0 ++ (s.nodesFrom tour.here.node (j + 1) ++ rest)) := by
    rw [Shape.nodesFrom_of_lt hj, ← hchild, Shape.subtree_eq hsound]
    simp
  refine ⟨_, hsplit, ⟨0, _, Nat.zero_le _, fun _ => rfl, ?_, hahead, rfl⟩, ?_⟩
  · exact .down hreads.path hj hchild hat hmet
  · obtain ⟨done, hall, hlength⟩ := hreads.met
    refine ⟨done ++ [met.node], ?_, ?_⟩
    · rw [hall, hsplit]
      simp
    · simp only [List.length_cons, List.length_append, List.length_nil]
      omega

/-- A node whose children are done is left upward, and the same nodes are left as before. -/
theorem Reads.ready_climb (hhere : tour.here.node < s.nodes.length) {parent : Frame}
    {above : List Frame} (habove : tour.above = parent :: above)
    (hreads : tour.Reads s root frame ahead (s.degree tour.here.node) rest) :
    Ready s root
      { here := parent, above
        ahead := { tour.here with node := tour.here.node + 1 }
          :: { frame with position := frame.position + 1 } :: ahead } rest := by
  obtain ⟨hpath, hnode, hposition, hcounted, hahead, hdone⟩ := hreads
  rw [habove] at hpath
  cases hpath with
  | @down _ _ _ rest jp hup hjp hchild hat hmet =>
    have hnext : s.firstChild parent.node + (jp + 1) = tour.here.node + 1 := by omega
    have hfirst := Shape.firstChild_succ hhere
    have hstart := Shape.start_succ hhere
    refine ⟨⟨jp + 1, rest, hjp, ?_, hup, ?_, rfl⟩, ?_⟩
    · intro hnil
      cases hnil
    · rw [hnext]
      refine ⟨rfl, ?_, ⟨hmet.counted.link, hmet.counted.key⟩, ?_, ?_, ?_, ?_⟩
      · exact hat
      · rw [hfirst]
        exact hnode
      · rw [hstart]
        exact congrArg (· + 1) hposition
      · rw [hfirst, ← hnode]
        exact ⟨hcounted.link, hcounted.key⟩
      · rw [hfirst, ← hnode]
        exact hahead
    · obtain ⟨done, hall, hlength⟩ := hdone
      rw [Shape.nodesFrom_degree, List.nil_append] at hall
      rw [habove, List.length_cons] at hlength
      exact ⟨done, hall, Nat.le_of_succ_le hlength⟩

/-- A tour begins with all nodes below its start left to meet. -/
theorem ready_start (hsound : s.Sound) {bytes : List UInt8} (hroot : s.Spells root bytes) :
    (start root bytes).Ready s root (s.nodesFrom root 0) := by
  have hcounted : ∀ next, ({ node := root, bytes } : Frame).Counted s next := by
    intro next
    refine ⟨?_, ?_⟩
    · intro number hnumber
      cases hnumber
    · intro number hnumber
      cases hnumber
  refine ⟨⟨0, [], Nat.zero_le _, fun _ => rfl, .start ⟨hroot, hcounted _⟩, trivial, ?_⟩, ?_⟩
  · exact (List.append_nil _).symm
  · exact ⟨[root], by rw [Shape.subtree_eq hsound]; rfl, Nat.le_refl 1⟩

/-! ## What a tour comes to -/

/-- The nodes among the given ones where keys end. -/
def keyed (s : Shape) (nodes : List Nat) : List Nat :=
  nodes.filter fun z => (s.keyAt z).isSome

theorem keyed_cons_of_some {z id : Nat} {nodes : List Nat} (h : s.keyAt z = some id) :
    keyed s (z :: nodes) = z :: keyed s nodes := by
  simp [keyed, h]

theorem keyed_cons_of_none {z : Nat} {nodes : List Nat} (h : s.keyAt z = none) :
    keyed s (z :: nodes) = keyed s nodes := by
  simp [keyed, h]

/-- What a tour comes to when the given nodes are left: the first of them where a key ends, or its
end if there is none. -/
inductive Reaches (s : Shape) (root : Nat) (left : List Nat) : Event → Prop
  | key {z id : Nat} {tour : Tour} {left' : List Nat} : keyed s left = z :: keyed s left' →
    s.Spells z tour.here.bytes → s.keyAt z = some id → tour.Ready s root left' →
    Reaches s root left (.key id tour)
  | finished {bytes : List UInt8} : keyed s left = [] → Reaches s root left (.finished bytes)

/-- Nodes where no key ends make no difference. -/
theorem Reaches.pass {event : Event} (hkeyed : keyed s left = keyed s left')
    (h : Reaches s root left' event) : Reaches s root left event := by
  cases h with
  | key hnext hspells hid hready => exact .key (hkeyed.trans hnext) hspells hid hready
  | finished hnone => exact .finished (hkeyed.trans hnone)

/-- What a tour comes to by one bit when the given nodes are left: it is done, or it goes on to the
same keys with less to read. -/
inductive Turned (s : Shape) (root : Nat) (tour : Tour) (left : List Nat) : Turn → Prop
  | stop {event : Event} : Reaches s root left event → Turned s root tour left (.stop event)
  | on {tour' : Tour} {left' : List Nat} : keyed s left = keyed s left' →
    tour'.Ready s root left' →
    2 * left'.length + tour'.above.length < 2 * left.length + tour.above.length →
    Turned s root tour left (.on tour')

end Tour

namespace Moves

/-! ## One bit -/

section

variable {m : Moves}

theorem readFrame?_finish (hbit : m.isChild? frame.node frame.position = some false)
    (habove : tour.above = []) :
    m.readFrame? tour frame ahead = some (.stop (.finished tour.here.bytes)) := by
  simp [readFrame?, hbit, habove]

theorem readFrame?_climb {parent : Frame} {above : List Frame}
    (hbit : m.isChild? frame.node frame.position = some false)
    (habove : tour.above = parent :: above) :
    m.readFrame? tour frame ahead = some (.on
      { here := parent, above
        ahead := { tour.here with node := tour.here.node + 1 }
          :: { frame with position := frame.position + 1 } :: ahead }) := by
  simp [readFrame?, hbit, habove]

theorem readFrame?_pass {label : List UInt8} {link : Option Nat}
    (hbit : m.isChild? frame.node frame.position = some true)
    (hlabel : m.label? frame.link frame.node = some (label, link))
    (hkey : m.nextKey? frame.key frame.node = some none) :
    m.readFrame? tour frame ahead = some (.on
      { here := { frame with
          position := frame.position + 1, bytes := tour.here.bytes ++ label, link }
        above := tour.here :: tour.above, ahead }) := by
  simp [readFrame?, hbit, hlabel, hkey]

theorem readFrame?_key {label : List UInt8} {link : Option Nat} {id : Nat}
    (hbit : m.isChild? frame.node frame.position = some true)
    (hlabel : m.label? frame.link frame.node = some (label, link))
    (hkey : m.nextKey? frame.key frame.node = some (some id)) :
    m.readFrame? tour frame ahead = some (.stop (.key id
      { here := { frame with
          position := frame.position + 1, bytes := tour.here.bytes ++ label, link, key := some id }
        above := tour.here :: tour.above, ahead })) := by
  simp [readFrame?, hbit, hlabel, hkey]

end

/-- The frame that is read next reads a child of the node where the tour stands, or its end. -/
theorem nextFrame?_spec (hsound : s.Sound) (hready : tour.Ready s root left) :
    ∃ frame ahead j rest,
      (∀ {m : Moves}, m.Follow s → m.nextFrame? tour = some (frame, ahead))
      ∧ j ≤ s.degree tour.here.node ∧ left = s.nodesFrom tour.here.node j ++ rest
      ∧ tour.Reads s root frame ahead j rest := by
  obtain ⟨⟨j, rest, hj, hfirst, hpath, hahead, rfl⟩, hdone⟩ := hready
  have hlt := hsound.lt_length_of_spells hpath.met.spells
  cases hframes : tour.ahead with
  | nil =>
    obtain rfl := hfirst hframes
    refine ⟨{ node := s.firstChild tour.here.node, position := s.start tour.here.node }, [], 0, rest,
      fun hm => ?_, hj, rfl, hpath, rfl, rfl, ⟨?_, ?_⟩, trivial, hdone⟩
    · rw [nextFrame?, hframes]
      simp only [hm.children? hlt, Option.map_some]
    · intro number hnumber
      cases hnumber
    · intro number hnumber
      cases hnumber
  | cons f frames =>
    rw [hframes] at hahead
    obtain ⟨hnode, hposition, hcounted, hrest⟩ := hahead
    rw [← hnode] at hcounted hrest
    exact ⟨f, frames, j, rest, fun _ => by rw [nextFrame?, hframes], hj, rfl, hpath, hnode,
      hposition, hcounted, hrest, hdone⟩

/-- A one among the bits leads to a child: a key that is reported, or a node that is passed. -/
theorem readFrame?_child (hsound : s.Sound) (hreads : tour.Reads s root frame ahead j rest)
    (hj : j < s.degree tour.here.node) :
    ∃ turn, (∀ {m : Moves}, m.Follow s → m.readFrame? tour frame ahead = some turn)
      ∧ tour.Turned s root (s.nodesFrom tour.here.node j ++ rest) turn := by
  have hu := hreads.path.met.spells
  have hlt := hsound.lt_length_of_spells hu
  obtain ⟨e, he⟩ := Shape.exists_child hj
  rw [← hreads.node] at he
  have hv := hsound.lt_length_of_spells (hu.down he)
  have hbit : ∀ {m : Moves}, m.Follow s → m.isChild? frame.node frame.position = some true := by
    intro m hm
    rw [hreads.node, hreads.position, hm.isChild? hlt (Nat.le_of_lt hj), decide_eq_true hj]
  have hmet := hreads.counted.met (frame.position + 1) hu he hv
  obtain ⟨left, hleft, hready⟩ := hreads.ready_child hsound hj hmet rfl rfl
  cases hat : s.keyAt frame.node with
  | some id =>
    rw [hat] at hready
    refine ⟨_, fun hm => readFrame?_key (hbit hm) (hm.label? he hreads.counted.link)
      ((hm.nextKey? hv hreads.counted.key).trans (congrArg some hat)), .stop ?_⟩
    exact .key (hleft ▸ Tour.keyed_cons_of_some hat) (hu.down he) hat hready
  | none =>
    rw [hat] at hready
    refine ⟨_, fun hm => readFrame?_pass (hbit hm) (hm.label? he hreads.counted.link)
      ((hm.nextKey? hv hreads.counted.key).trans (congrArg some hat)), .on ?_ hready ?_⟩
    · rw [hleft]
      exact Tour.keyed_cons_of_none hat
    · rw [hleft, List.length_cons, List.length_cons]
      omega

/-- A zero among the bits leads up, or the tour ends. -/
theorem readFrame?_stop (hsound : s.Sound)
    (hreads : tour.Reads s root frame ahead (s.degree tour.here.node) rest) :
    ∃ turn, (∀ {m : Moves}, m.Follow s → m.readFrame? tour frame ahead = some turn)
      ∧ tour.Turned s root rest turn := by
  have hlt := hsound.lt_length_of_spells hreads.path.met.spells
  have hbit : ∀ {m : Moves}, m.Follow s → m.isChild? frame.node frame.position = some false := by
    intro m hm
    rw [hreads.node, hreads.position, hm.isChild? hlt (Nat.le_refl _),
      decide_eq_false (Nat.lt_irrefl _)]
  cases habove : tour.above with
  | nil =>
    refine ⟨_, fun hm => readFrame?_finish (hbit hm) habove, .stop (.finished ?_)⟩
    have hpath := hreads.path
    rw [habove] at hpath
    cases hpath
    rfl
  | cons parent above =>
    refine ⟨_, fun hm => readFrame?_climb (hbit hm) habove,
      .on rfl (hreads.ready_climb hlt habove) ?_⟩
    rw [habove]
    exact Nat.add_lt_add_left (Nat.lt_succ_self above.length) _

/-- Every bit that is read takes one of the nodes that are left or goes one node up. -/
theorem turn?_spec (hsound : s.Sound) (hready : tour.Ready s root left) :
    ∃ turn, (∀ {m : Moves}, m.Follow s → m.turn? tour = some turn)
      ∧ tour.Turned s root left turn := by
  obtain ⟨frame, ahead, j, rest, hnext, hj, rfl, hreads⟩ := nextFrame?_spec hsound hready
  have hturn : ∀ {m : Moves}, m.Follow s → m.turn? tour = m.readFrame? tour frame ahead := by
    intro m hm
    rw [turn?, hnext hm, Option.bind_eq_bind, Option.bind_some]
  rcases Nat.lt_or_eq_of_le hj with hj | rfl
  · obtain ⟨turn, hread, hturned⟩ := readFrame?_child hsound hreads hj
    exact ⟨turn, fun hm => (hturn hm).trans (hread hm), hturned⟩
  · obtain ⟨turn, hread, hturned⟩ := readFrame?_stop hsound hreads
    rw [Shape.nodesFrom_degree, List.nil_append]
    exact ⟨turn, fun hm => (hturn hm).trans (hread hm), hturned⟩

/-! ## A run to the next key -/

theorem resumeWithin?_stop {m : Moves} {fuel : Nat} {event : Tour.Event}
    (h : m.turn? tour = some (.stop event)) : m.resumeWithin? (fuel + 1) tour = some event := by
  rw [resumeWithin?, h]
  rfl

theorem resumeWithin?_on {m : Moves} {fuel : Nat} {tour' : Tour}
    (h : m.turn? tour = some (.on tour')) :
    m.resumeWithin? (fuel + 1) tour = m.resumeWithin? fuel tour' := by
  rw [resumeWithin?, h]
  rfl

/-- A tour goes on to the next key, or to its end, if there is fuel for the nodes that are left and
for those above. -/
theorem resumeWithin?_spec (hsound : s.Sound) :
    ∀ {fuel : Nat} {tour : Tour} {left : List Nat}, tour.Ready s root left →
    2 * left.length + tour.above.length + 1 ≤ fuel →
    ∃ event, (∀ {m : Moves}, m.Follow s → m.resumeWithin? fuel tour = some event)
      ∧ Tour.Reaches s root left event := by
  intro fuel
  induction fuel with
  | zero =>
    intro tour left _ hfuel
    omega
  | succ fuel ih =>
    intro tour left hready hfuel
    obtain ⟨turn, hturn, hturned⟩ := turn?_spec hsound hready
    cases hturned with
    | stop hreaches => exact ⟨_, fun hm => resumeWithin?_stop (hturn hm), hreaches⟩
    | on hkeyed hready' hless =>
      obtain ⟨event, hevent, hreaches⟩ := ih hready' (by omega)
      refine ⟨event, fun hm => ?_, hreaches.pass hkeyed⟩
      rw [resumeWithin?_on (hturn hm), hevent hm]

/-- A tour that is taken up again goes on to the next key, or to its end. -/
theorem resume?_spec (hsound : s.Sound) (hroot : root < s.nodes.length)
    (hready : tour.Ready s root left) :
    ∃ event, (∀ {m : Moves}, m.Follow s → m.resume? tour = some event)
      ∧ Tour.Reaches s root left event := by
  obtain ⟨done, hall, hlength⟩ := hready.met
  have hle := Shape.length_subtree_le hsound hroot
  rw [hall, List.length_append] at hle
  have hfuel : 2 * left.length + tour.above.length + 1 ≤ 2 * s.nodes.length + 3 := by omega
  obtain ⟨event, hevent, hreaches⟩ := resumeWithin?_spec hsound hready hfuel
  refine ⟨event, fun hm => ?_, hreaches⟩
  rw [resume?, hm.fuel, hevent hm]

/-- A tour reports a key at the node where it begins before it goes down. -/
theorem beginTour?_spec (hsound : s.Sound) {bytes : List UInt8} (hroot : s.Spells root bytes) :
    ∃ event, (∀ {m : Moves}, m.Follow s → m.beginTour? root bytes = some event)
      ∧ Tour.Reaches s root (s.subtree root) event := by
  have hlt := hsound.lt_length_of_spells hroot
  have hready := Tour.ready_start hsound hroot
  rw [Shape.subtree_eq hsound]
  cases hat : s.keyAt root with
  | some id =>
    refine ⟨_, fun hm => ?_, .key (Tour.keyed_cons_of_some hat) hroot hat hready⟩
    rw [beginTour?, hm.keyAt? hlt, hat]
    rfl
  | none =>
    obtain ⟨event, hevent, hreaches⟩ := resume?_spec hsound hlt hready
    refine ⟨event, fun hm => ?_, hreaches.pass (Tour.keyed_cons_of_none hat)⟩
    rw [beginTour?, hm.keyAt? hlt, hat]
    exact hevent hm

end Moves

end Lexicon
