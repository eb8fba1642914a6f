/-
Lexicon.Proofs.Cascade.Depth — how many levels there are, and what each of them keeps.

A level without labels to hand on is the last one, whatever number of levels was asked for. A
level with labels hands them on while another level may follow, and else keeps them in its tail.
`Cascade.Stacked` says this of a row of levels, with what each records, and `build_stacked` is
where it comes from. The stored form has no mark for another level: that links without a tail
tell of one rests on `Stacked.hands_on` and `Stacked.ends`. The labels do not depend on how many
levels may follow, so of two rows for the same strings the one that may be longer is the longer
one by just as much as it may (`Stacked.length_eq_min`, by induction on the shorter).
-/
import Lexicon.Proofs.Cascade.Levels
import Lexicon.Proofs.Keys
import Lexicon.Proofs.Tail.Sharing
import Lexicon.Proofs.Wire.Storing

namespace Lexicon

theorem TailMode.eq_binary_iff {mode : TailMode} : mode = .binary ↔ ¬mode = .text := by
  cases mode <;> decide

namespace Cascade

/-- The links that a level counts are those that it marks. -/
theorem StandsOn.ones_links_pos_iff {reading : Reading} {s : Shape} {level : Level}
    {deeper : List Level} (h : StandsOn reading s level deeper) :
    0 < level.links.ones ↔ ∃ v, level.links.get? v = some true := by
  obtain ⟨targets, hlaid⟩ := h.laid
  have hones : level.links.ones = (labelsOf reading s).length := by
    rw [hlaid]
    exact Level.ones_links_ofShape
  rw [hones, List.length_pos_iff]
  constructor
  · intro hne
    obtain ⟨x, hx⟩ := List.exists_mem_of_ne_nil _ hne
    obtain ⟨v, target, hpiece, _⟩ := h.mem_labelsOf_iff.mp (List.mem_map_of_mem hx)
    exact ⟨v, Level.links_of_piece? hpiece⟩
  · rintro ⟨v, hv⟩ hnil
    obtain ⟨u, e, target, he, hlength, hpiece, hresolves⟩ := h.resolves hv
    have hlabel := h.mem_labelsOf_iff.mpr ⟨v, target, hpiece, hresolves.restore⟩
    rw [hnil] at hlabel
    cases hlabel

/-- Some levels as they are built for some strings if so many may follow the first: whether they
have labels to hand on, where these go, and what each level records. -/
inductive Stacked (config : Config) :
    (more : Nat) → Reading → List (List UInt8 × Weight) → Level → List Level → Prop
  /-- Nothing to hand on. -/
  | alone {more : Nat} {reading : Reading} {strings : List (List UInt8 × Weight)} {level : Level}
    (hlabels : labelsOf reading (.ofStrings config.order reading strings) = [])
    (hlinks : level.links.ones = 0) (htail : level.tail = .empty)
    (hconfig : level.config = recordedConfig config .empty none) :
    Stacked config more reading strings level []
  /-- The labels are in the tail, since no level may follow. -/
  | last {reading : Reading} {strings : List (List UInt8 × Weight)} {level : Level}
    {positions : List Nat}
    (hlabels : labelsOf reading (.ofStrings config.order reading strings) ≠ [])
    (hlinks : 0 < level.links.ones)
    (htail : Tail.ofStrings config.tail
      ((labelsOf reading (.ofStrings config.order reading strings)).map (·.1))
        = .ok (level.tail, positions))
    (hconfig : level.config = recordedConfig config level.tail none) :
    Stacked config 0 reading strings level []
  /-- The labels are the strings of the level below. -/
  | above {more : Nat} {reading : Reading} {strings : List (List UInt8 × Weight)}
    {level next : Level} {deeper : List Level}
    (hlabels : labelsOf reading (.ofStrings config.order reading strings) ≠ [])
    (hlinks : 0 < level.links.ones) (htail : level.tail = .empty)
    (hconfig : level.config = recordedConfig config .empty (some next))
    (hbelow : Stacked config more .backward
      (labelsOf reading (.ofStrings config.order reading strings)) next deeper) :
    Stacked config (more + 1) reading strings level (next :: deeper)

theorem ones_links_pos {reading : Reading} {s : Shape} {targets : List Nat} {tail : Tail}
    {config : Config} (h : labelsOf reading s ≠ []) :
    0 < (Level.ofShape reading s targets tail config).links.ones := by
  rw [Level.ones_links_ofShape]
  exact List.length_pos_iff.mpr h

/-- Levels are built in this way. -/
theorem build_stacked (config : Config) (more : Nat) (reading : Reading)
    (strings : List (List UInt8 × Weight)) (hbytes : bytesOf strings < 2 ^ 30) :
    ∃ c, build config more reading strings
        = .ok (c, (Shape.ofStrings config.order reading strings).ends)
      ∧ Stacked config more reading strings c.top c.deeper := by
  refine build_induction config (motive := fun more reading strings c =>
    Stacked config more reading strings c.top c.deeper) ?alone ?last ?above more reading strings
    hbytes
  case alone =>
    intro more reading strings _ hempty
    have hlabels := List.isEmpty_iff.mp hempty
    refine .alone hlabels ?_ rfl rfl
    rw [Level.ones_links_ofShape, hlabels]
    rfl
  case last =>
    intro reading strings tail positions _ hempty htail
    have hlabels := mt List.isEmpty_iff.mpr hempty
    exact .last hlabels (ones_links_pos hlabels) htail rfl
  case above =>
    intro more reading strings below _ hempty hbelow
    have hlabels := mt List.isEmpty_iff.mpr hempty
    exact .above hlabels (ones_links_pos hlabels) rfl rfl hbelow

namespace Stacked

variable {config other : Config} {more more' : Nat} {reading : Reading}
  {strings : List (List UInt8 × Weight)} {level level' next : Level} {deeper deeper' : List Level}

theorem length_le (h : Stacked config more reading strings level deeper) :
    deeper.length ≤ more := by
  induction h with
  | alone => exact Nat.zero_le _
  | last => exact Nat.zero_le _
  | above _ _ _ _ _ ih => exact Nat.succ_le_succ ih

/-- A level counts itself and those below, and records what was asked for but for the mode of the
tail. -/
theorem config_eq (h : Stacked config more reading strings level deeper) :
    level.config = { config with levels := deeper.length + 1, tail := level.config.tail } := by
  induction h with
  | alone _ _ _ hconfig | last _ _ _ hconfig =>
    rw [hconfig]
    rfl
  | above _ _ _ hconfig _ ih =>
    rw [hconfig, recordedConfig, ih]
    rfl

theorem levels_eq (h : Stacked config more reading strings level deeper) :
    level.config.levels = deeper.length + 1 :=
  congrArg Config.levels h.config_eq

/-- A level with another one below it has links and no tail. -/
theorem hands_on (h : Stacked config more reading strings level (next :: deeper)) :
    0 < level.links.ones ∧ level.tail.isEmpty = true := by
  cases h with
  | above _ hlinks htail _ _ =>
    rw [htail]
    exact ⟨hlinks, rfl⟩

/-- The last level has a tail if it has links, which it has only if no level may follow. -/
theorem ends (h : Stacked config more reading strings level []) :
    (level.tail.isEmpty = false ↔ 0 < level.links.ones) ∧ (0 < more → level.links.ones = 0) := by
  cases h with
  | alone _ hlinks htail _ =>
    rw [htail, hlinks]
    exact ⟨⟨nofun, nofun⟩, fun _ => rfl⟩
  | last hlabels hlinks htail _ =>
    have hempty := Tail.not_isEmpty_ofStrings (mt List.map_eq_nil_iff.mp hlabels) htail
    exact ⟨iff_of_true (Bool.eq_false_of_not_eq_true hempty) hlinks,
      fun hmore => absurd hmore (Nat.lt_irrefl 0)⟩

/-- The last level records a binary tail if it has a tail, and if this was asked for or a NUL byte
in what its links stand for makes it so. -/
theorem binary_iff (h : Stacked config more reading strings level [])
    (hstands : StandsOn reading (.ofStrings config.order reading strings) level []) :
    level.config.tail = .binary ↔ level.tail.isEmpty = false ∧ (config.tail = .binary
      ∨ ∃ v target label, level.piece? v = some (.link target)
        ∧ level.tail.restore? target = some label ∧ 0 ∈ label) := by
  have hlabels : (∃ label ∈ (labelsOf reading (.ofStrings config.order reading strings)).map (·.1),
      0 ∈ label) ↔ ∃ v target label, level.piece? v = some (.link target)
        ∧ level.tail.restore? target = some label ∧ 0 ∈ label := by
    constructor
    · rintro ⟨label, hlabel, hzero⟩
      obtain ⟨v, target, hpiece, hrestore⟩ := hstands.mem_labelsOf_iff.mp hlabel
      exact ⟨v, target, label, hpiece, hrestore, hzero⟩
    · rintro ⟨v, target, label, hpiece, hrestore, hzero⟩
      exact ⟨label, hstands.mem_labelsOf_iff.mpr ⟨v, target, hpiece, hrestore⟩, hzero⟩
  have hends := h.ends.1
  rw [← hlabels]
  cases h with
  | alone _ _ htail hconfig =>
    rw [htail, hconfig]
    exact ⟨nofun, nofun⟩
  | last hne hlinks htail hconfig =>
    have hrecorded : level.config.tail = level.tail.mode := by
      rw [hconfig]
      rfl
    rw [hrecorded, TailMode.eq_binary_iff, TailMode.eq_binary_iff,
      Tail.mode_ofStrings_eq_text_iff htail, or_iff_right (mt List.map_eq_nil_iff.mp hne),
      and_iff_right (hends.mpr hlinks), not_and_or]
    simp only [not_forall, not_not, exists_prop]

/-- Of two rows for the same strings the one of which more may follow goes on where the other stops
for want of levels, and nowhere else. -/
theorem length_eq_min (h : Stacked config more reading strings level deeper)
    (h' : Stacked other more' reading strings level' deeper') (horder : other.order = config.order)
    (hmore : more ≤ more') : deeper.length = min more deeper'.length := by
  -- Both rows have the same labels at each level, so neither goes on where the other has none.
  induction h generalizing more' level' deeper' with
  | alone hlabels =>
    cases h' with
    | alone => exact (Nat.min_zero _).symm
    | last hlabels' | above hlabels' =>
      rw [horder] at hlabels'
      exact absurd hlabels hlabels'
  | last => exact (Nat.zero_min _).symm
  | above hlabels _ _ _ _ ih =>
    cases h' with
    | alone hlabels' =>
      rw [horder] at hlabels'
      exact absurd hlabels' hlabels
    | last => exact absurd hmore (Nat.not_succ_le_zero _)
    | above _ _ _ _ hbelow' =>
      rw [horder] at hbelow'
      have hlength := ih hbelow' (Nat.le_of_succ_le_succ hmore)
      rw [List.length_cons, List.length_cons, hlength]
      omega

/-- The level with so many before it is that of the strings of its number, with so many fewer to
follow, and the first level records the same mode of the tail. -/
theorem at_index {above : List Level} : ∀ {more i : Nat} {level' : Level} {deeper' : List Level},
    Stacked config more (readingAt i) (stringsAt config.order strings i) level' deeper' →
    level' :: deeper' = above ++ level :: deeper →
    Stacked config (more - above.length) (readingAt (i + above.length))
        (stringsAt config.order strings (i + above.length)) level deeper
      ∧ level'.config.tail = level.config.tail := by
  induction above with
  | nil =>
    intro more i level' deeper' h hsplit
    obtain ⟨rfl, rfl⟩ := List.cons.inj hsplit
    exact ⟨h, rfl⟩
  | cons first above ih =>
    intro more i level' deeper' h hsplit
    obtain ⟨rfl, hdeeper⟩ := List.cons.inj hsplit
    cases h with
    | alone | last => simp at hdeeper
    | @above more _ _ _ next deeper' _ _ _ hconfig hbelow =>
      have hnext : Stacked config more (readingAt (i + 1))
          (stringsAt config.order strings (i + 1)) next deeper' := hbelow
      obtain ⟨hat, hmode⟩ := ih hnext hdeeper
      rw [List.length_cons, Nat.add_sub_add_right, ← Nat.add_assoc, Nat.add_right_comm, hconfig]
      exact ⟨hat, hmode⟩

theorem at_split {above : List Level}
    (h : Stacked config more .forward strings level' deeper')
    (hsplit : level' :: deeper' = above ++ level :: deeper) :
    Stacked config (more - above.length) (readingAt above.length)
        (stringsAt config.order strings above.length) level deeper
      ∧ level'.config.tail = level.config.tail := by
  have hindex := at_index (i := 0) h hsplit
  rwa [Nat.zero_add] at hindex

end Stacked

end Cascade

namespace Dictionary

/-- The levels of a dictionary, and what each of them keeps. There are as many as are recorded, one
at least and no more than were asked for. All but the last have links and no tail. The last has a
tail if it has links, which it has only if no level may follow. Each marks a link if it counts any,
numbers itself and those below it, and records what was asked for but for the tail, which is binary
if it is there and this was asked for or a string in it has a NUL byte. A dictionary that may have
fewer levels than another has as many as that one, or all that it may have. -/
theorem build_depth {ks : Keyset} {config : Config} (hlimits : ks.WithinLimits)
    (hvalid : config.Valid) :
    ∃ c ks', Dictionary.build ks config = .ok (⟨some c⟩, ks') ∧ ks.SameKeys ks'
      ∧ numLevels ⟨some c⟩ = c.levels.length ∧ 1 ≤ c.levels.length
      ∧ c.levels.length ≤ config.levels
      ∧ (∀ (above : List Level) (level next : Level) (deeper : List Level),
        c.levels = above ++ level :: next :: deeper →
        0 < level.links.ones ∧ level.tail.isEmpty = true)
      ∧ (∀ (above : List Level) (level : Level), c.levels = above ++ [level] →
        (level.tail.isEmpty = false ↔ 0 < level.links.ones)
        ∧ (c.levels.length < config.levels → level.links.ones = 0)
        ∧ (c.top.config.tail = .binary ↔ level.tail.isEmpty = false ∧ (config.tail = .binary
          ∨ ∃ v target label, level.piece? v = some (.link target)
            ∧ level.tail.restore? target = some label ∧ 0 ∈ label)))
      ∧ (∀ (above : List Level) (level : Level) (deeper : List Level),
        c.levels = above ++ level :: deeper →
        (0 < level.links.ones ↔ ∃ v, level.links.get? v = some true)
        ∧ level.config = { config with
          levels := c.levels.length - above.length
          tail := c.top.config.tail })
      ∧ ∀ other : Config, other.Valid → other.order = config.order →
        config.levels ≤ other.levels → ∃ d ks', Dictionary.build ks other = .ok (d, ks')
          ∧ numLevels ⟨some c⟩ = min config.levels (numLevels d) := by
  have hbytes := Keyset.bytesOf_strings_lt hlimits
  obtain ⟨c, ks', hbuild, hsame, hstacked, hlaid⟩ := exists_build hvalid (Cascade.build_and
    (Cascade.build_stacked config (config.levels - 1) .forward ks.strings hbytes)
    (Cascade.build_laid config (config.levels - 1) .forward ks.strings hbytes))
  have hmin : 1 ≤ config.levels := hvalid.1
  have hmax := hstacked.length_le
  have hlength : c.levels.length = c.deeper.length + 1 := rfl
  have hlevels : numLevels ⟨some c⟩ = c.deeper.length + 1 := hstacked.levels_eq
  refine ⟨c, ks', hbuild, hsame, hlevels, Nat.le_add_left 1 _, by omega, ?_, ?_, ?_, ?_⟩
  · intro above level next deeper hsplit
    exact (hstacked.at_split hsplit).1.hands_on
  · intro above level hsplit
    obtain ⟨hlevel, hmode⟩ := hstacked.at_split hsplit
    obtain ⟨hlinks, hshort⟩ := hlevel.ends
    rw [hsplit] at hlaid
    refine ⟨hlinks, fun hlt => hshort ?_, ?_⟩
    · rw [hsplit, List.length_append, List.length_singleton] at hlt
      omega
    · rw [hmode]
      exact hlevel.binary_iff hlaid.standsOn
  · intro above level deeper hsplit
    obtain ⟨hlevel, hmode⟩ := hstacked.at_split hsplit
    have hdeeper : c.levels.length - above.length = deeper.length + 1 := by
      rw [hsplit, List.length_append, Nat.add_sub_cancel_left, List.length_cons]
    rw [hdeeper, hmode]
    rw [hsplit] at hlaid
    exact ⟨hlaid.standsOn.ones_links_pos_iff, hlevel.config_eq⟩
  · intro other hother horder hmore
    obtain ⟨d, ks'', hbuild', _, hstacked'⟩ := exists_build hother
      (Cascade.build_stacked other (other.levels - 1) .forward ks.strings hbytes)
    have hlevels' : numLevels ⟨some d⟩ = d.deeper.length + 1 := hstacked'.levels_eq
    have hdepth := hstacked.length_eq_min hstacked' horder (by omega)
    refine ⟨_, ks'', hbuild', ?_⟩
    rw [hlevels, hlevels', hdepth]
    omega

/-- Two labels that part before the `b` at their ends leave single bytes for the second level, so a
third one is not needed, and neither are a hundred of them; nothing is left for a binary tail. -/
theorem build_depth_two_levels : ∃ c ks' d ks'',
    Dictionary.build (.ofList [[97, 98, 1], [97, 98, 2], [99, 98, 1], [99, 98, 2]])
        { tail := .binary } = .ok (⟨some c⟩, ks')
      ∧ c.levels.length = 2 ∧ c.top.config.tail = .text
      ∧ Dictionary.build (.ofList [[97, 98, 1], [97, 98, 2], [99, 98, 1], [99, 98, 2]])
        { levels := 100 } = .ok (d, ks'')
      ∧ numLevels d = 2 := by
  have hlimits : (Keyset.ofList
      [[97, 98, 1], [97, 98, 2], [99, 98, 1], [99, 98, 2]]).WithinLimits := by decide
  have hvalid : ({ tail := .binary } : Config).Valid := by decide
  obtain ⟨c, ks', hbuild, _, hlevels, _, _, _, hlast, _, hother⟩ := build_depth hlimits hvalid
  obtain ⟨d, ks'', hbuild', hmin⟩ := hother { levels := 100 } (by decide) rfl (by decide)
  have hlength : (match Dictionary.build (.ofList
      [[97, 98, 1], [97, 98, 2], [99, 98, 1], [99, 98, 2]]) { tail := .binary } with
      | .ok (⟨some c⟩, _) => c.levels.length
      | _ => 0) = 2 := by decide +kernel
  rw [hbuild] at hlength
  change c.levels.length = 2 at hlength
  obtain ⟨first, last, hsplit⟩ := List.length_eq_two.mp hlength
  obtain ⟨hlinks, hshort, hbinary⟩ := hlast [first] last hsplit
  have hnone := hshort (hlength ▸ by decide)
  refine ⟨c, ks', d, ks'', hbuild, hlength, ?_, hbuild', ?_⟩
  · cases hmode : c.top.config.tail with
    | text => rfl
    | binary =>
      have hpos := hlinks.mp (hbinary.mp hmode).1
      rw [hnone] at hpos
      exact absurd hpos (Nat.lt_irrefl 0)
  · rw [hlevels, hlength] at hmin
    change 2 = min 3 (numLevels d) at hmin
    omega

end Dictionary

end Lexicon
