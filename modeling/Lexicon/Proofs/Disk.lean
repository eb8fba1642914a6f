/-
Lexicon.Proofs.Disk — a file gives back the dictionary that was saved in it last.

A disk is read as it was written, name by name (`Disk.read_write`), so after any row of
saves a file holds what was saved in it last (`Disk.read_saveAll`, by induction on the row).
What a dictionary is stored as is read back as the dictionary, however the dictionary came
by its levels; the two together are `Dictionary.load_saveAll`. A file is loaded and mapped
alike, whatever it holds (`Dictionary.load_alike_map`), and a failed save leaves a file in
which both find nothing (`Dictionary.ends_of_save_unbuilt`).
-/
import Lexicon.Disk
import Lexicon.Proofs.Wire.Sizes

namespace Lexicon

/-! ## Files -/

namespace Disk

variable {name other : String}

theorem lookup_cons_ite {α : Type} (name other : String) (x : α) (entries : List (String × α)) :
    ((name, x) :: entries).lookup other
      = if other = name then some x else entries.lookup other := by
  rw [List.lookup_cons]
  by_cases h : other = name
  · rw [if_pos h, beq_iff_eq.mpr h]
  · rw [if_neg h, beq_false_of_ne h]

/-- The files of other names are still found when those of one name are gone. -/
theorem lookup_filter_of_ne (h : other ≠ name) (files : List (String × List UInt8)) :
    (files.filter (·.1 != name)).lookup other = files.lookup other := by
  induction files with
  | nil => rfl
  | cons file files ih =>
    by_cases hfile : file.1 = name
    · rw [List.filter_cons_of_neg (by simpa using hfile), ih, lookup_cons_ite,
        if_neg (hfile ▸ h)]
    · rw [List.filter_cons_of_pos (by simpa using hfile), lookup_cons_ite, lookup_cons_ite, ih]

/-- Writing a file is seen under its name only. -/
theorem read_write (disk : Disk) (name other : String) (bytes : List UInt8) :
    (disk.write name bytes).read other
      = if other = name then .ok bytes else disk.read other := by
  unfold read write
  rw [lookup_cons_ite]
  by_cases h : other = name
  · rw [if_pos h, if_pos h]
    rfl
  · rw [if_neg h, if_neg h, lookup_filter_of_ne h]

/-- A file cannot be read only if there is none. -/
theorem read_eq_error {disk : Disk} {fault : Fault} (h : disk.read name = .error fault) :
    fault = .noSuchFile := by
  unfold read at h
  cases hfile : disk.files.lookup name with
  | none =>
    rw [hfile] at h
    exact (Except.error.inj h).symm
  | some bytes =>
    rw [hfile] at h
    cases h

end Disk

/-! ## Saving -/

namespace Dictionary

/-- What a file holds after the dictionary was saved in it. -/
def savedForm (d : Dictionary) : List UInt8 :=
  (d.cascade.map (·.encode)).getD []

theorem save_fst (d : Dictionary) (disk : Disk) (name : String) :
    (d.save disk name).1 = disk.write name d.savedForm := by
  obtain ⟨_ | c⟩ := d <;> rfl

/-- Saving fails just as writing does. -/
theorem save_snd (d : Dictionary) (disk : Disk) (name : String) :
    (d.save disk name).2 = d.encode.map fun _ => () := by
  obtain ⟨_ | c⟩ := d <;> rfl

/-- A dictionary with levels is saved. -/
theorem Made.save_eq {d : Dictionary} (h : Made d) (disk : Disk) (name : String) :
    d.save disk name = (disk.write name d.savedForm, .ok ()) := by
  obtain ⟨c, rfl, _⟩ := h.exists_storable
  exact Prod.ext (save_fst _ disk name) (save_snd _ disk name)

end Dictionary

namespace Disk

/-- The disk after dictionaries were saved in a row, each under its name. -/
def saveAll (disk : Disk) (saves : List (String × Dictionary)) : Disk :=
  saves.foldl (fun disk save => (save.2.save disk save.1).1) disk

/-- The dictionary that was saved last under a name. -/
def lastSaved (saves : List (String × Dictionary)) (name : String) : Option Dictionary :=
  saves.reverse.lookup name

/-- A file holds what was saved in it last, or what it held before. -/
theorem read_saveAll (disk : Disk) (saves : List (String × Dictionary)) (name : String) :
    (disk.saveAll saves).read name
      = (lastSaved saves name).elim (disk.read name) fun d => .ok d.savedForm := by
  induction saves using List.reverseRecOn with
  | nil => rfl
  | append_singleton saves save ih =>
    obtain ⟨saved, d⟩ := save
    have hlast : lastSaved (saves ++ [(saved, d)]) name
        = if name = saved then some d else lastSaved saves name := by
      unfold lastSaved
      rw [List.reverse_concat, Disk.lookup_cons_ite]
    have hdisk : disk.saveAll (saves ++ [(saved, d)])
        = ((disk.saveAll saves).write saved d.savedForm) := by
      rw [← d.save_fst]
      exact List.foldl_concat ..
    rw [hlast, hdisk, read_write, ih]
    split <;> rfl

end Disk

/-! ## Loading and mapping -/

namespace Dictionary

variable {disk : Disk} {name : String}

theorem load_of_read {bytes : List UInt8} (h : disk.read name = .ok bytes) :
    load disk name = read ⟨[bytes]⟩ := by
  unfold load
  rw [h]
  rfl

theorem map_of_read {bytes : List UInt8} (h : disk.read name = .ok bytes) :
    map disk name = ofBytes bytes := by
  unfold map
  rw [h]
  rfl

/-- Both look for the file first. -/
theorem load_map_of_missing {fault : Fault} (h : disk.read name = .error fault) :
    load disk name = .error .noSuchFile ∧ map disk name = .error .noSuchFile := by
  obtain rfl := Disk.read_eq_error h
  unfold load map
  rw [h]
  exact ⟨rfl, rfl⟩

/-- Whatever a file holds, it is loaded and mapped alike. -/
theorem load_alike_map {bytes : List UInt8} (h : disk.read name = .ok bytes) :
    Alike (load disk name) (map disk name) := by
  have halike := read_alike [bytes]
  rw [List.flatten_singleton] at halike
  rwa [load_of_read h, map_of_read h]

/-- A file that holds what a dictionary is stored as is loaded and mapped as the dictionary. -/
theorem load_map_of_savedForm {d : Dictionary} (hmade : Made d)
    (h : disk.read name = .ok d.savedForm) :
    load disk name = .ok d ∧ map disk name = .ok d := by
  obtain ⟨c, rfl, hstorable⟩ := hmade.exists_storable
  rw [load_of_read h, map_of_read h]
  exact ⟨read_encode hstorable List.flatten_singleton, ofBytes_encode hstorable⟩

/-- After any row of saves, a name gives back the dictionary that was saved under it last, as a
stream and in place, and a name that nothing was saved under gives what it gave before. -/
theorem load_saveAll {saves : List (String × Dictionary)} (hmade : ∀ save ∈ saves, Made save.2) :
    load (disk.saveAll saves) name
        = (Disk.lastSaved saves name).elim (load disk name) .ok
      ∧ map (disk.saveAll saves) name
        = (Disk.lastSaved saves name).elim (map disk name) .ok := by
  have hread := disk.read_saveAll saves name
  cases hlast : Disk.lastSaved saves name with
  | none =>
    rw [hlast] at hread
    unfold load map
    rw [hread]
    exact ⟨rfl, rfl⟩
  | some d =>
    rw [hlast] at hread
    obtain ⟨later, earlier, hsaves, _⟩ := List.lookup_eq_some_iff.mp hlast
    have hmem : (name, d) ∈ saves := by
      rw [← List.mem_reverse, hsaves]
      exact List.mem_append_right later List.mem_cons_self
    exact load_map_of_savedForm (hmade (name, d) hmem) hread

/-- Saving fails only before the levels are there. The file was made by then: it is loaded as a
stream that ended and mapped as a region that did. -/
theorem ends_of_save_unbuilt {d : Dictionary} {fault : Fault}
    (h : (d.save disk name).2 = .error fault) :
    fault = .notBuilt ∧ StreamEnded (load (d.save disk name).1 name)
      ∧ RegionEnded (map (d.save disk name).1 name) := by
  obtain ⟨_ | c⟩ := d
  · have hread : (disk.write name []).read name = .ok [] := by rw [Disk.read_write, if_pos rfl]
    have hloaded : StreamEnded (load (disk.write name []) name) := by
      rw [load_of_read hread, streamEnded_iff]
      rfl
    exact ⟨(Except.error.inj h).symm, hloaded, (load_alike_map hread).ended_iff.mp hloaded⟩
  · cases h

end Dictionary

end Lexicon
