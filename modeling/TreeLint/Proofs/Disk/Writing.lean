import TreeLint.Disk

/-!
# Reading and writing files

Writing to a file that exists changes what is read from its place and nothing else: no folder comes
or goes, so every path leads where it led before.

- `Disk.file?_put_self`, `Disk.file?_put_of_ne`: what is read after a file is put at a place.
- `Disk.isFolder_put`, `Disk.resolve?_put`: a file that replaces a file leaves all paths alone.
- `Disk.write?_eq_some_iff`: what it takes to write, and what comes of it.
- `Disk.fromUTF8?_toUTF8`: a text that was written is read back.
-/

namespace TreeLint.Disk

variable {disk disk' : Disk} {cwd place other : Place} {path text : String} {content : ByteArray}

theorem fromUTF8?_toUTF8 (text : String) : String.fromUTF8? text.toUTF8 = some text := by
  have hvalid : text.toUTF8.IsValidUTF8 := text.isValidUTF8
  rw [String.fromUTF8?, dif_pos hvalid]
  rfl

/-! ## Putting a file -/

theorem lookup_cons_of_ne (h : other ≠ place) (entry : DiskEntry)
    (entries : List (Place × DiskEntry)) :
    ((place, entry) :: entries).lookup other = entries.lookup other := by
  rw [List.lookup_cons, beq_false_of_ne h]

theorem lookup_set_self (entries : List (Place × DiskEntry)) :
    (put.set place content entries).lookup place = some (.file content) := by
  induction entries with
  | nil => exact List.lookup_cons_self
  | cons entry entries ih =>
    obtain ⟨here, entry⟩ := entry
    by_cases h : here = place
    · rw [put.set, if_pos h, List.lookup_cons_self]
    · rw [put.set, if_neg h, lookup_cons_of_ne (Ne.symm h), ih]

theorem lookup_set_of_ne (h : other ≠ place) (entries : List (Place × DiskEntry)) :
    (put.set place content entries).lookup other = entries.lookup other := by
  induction entries with
  | nil => rw [put.set, lookup_cons_of_ne h]
  | cons entry entries ih =>
    obtain ⟨here, entry⟩ := entry
    by_cases hhere : here = place
    · rw [put.set, if_pos hhere, lookup_cons_of_ne h, hhere, lookup_cons_of_ne h]
    · rw [put.set, if_neg hhere, List.lookup_cons, ih, List.lookup_cons]

@[simp]
theorem file?_put_self (disk : Disk) (place : Place) (content : ByteArray) :
    (disk.put place content).file? place = some content := by
  simp only [file?, put, lookup_set_self]

theorem file?_put_of_ne (h : other ≠ place) :
    (disk.put place content).file? other = disk.file? other := by
  simp only [file?, put, lookup_set_of_ne h]

theorem isFile_put (h : disk.isFile other = true) :
    (disk.put place content).isFile other = true := by
  by_cases hother : other = place
  · rw [isFile, hother, file?_put_self, Option.isSome_some]
  · rwa [isFile, file?_put_of_ne hother]

/-- No folder comes or goes when the file at `place` is replaced. -/
theorem isFolder_put (h : disk.isFile place = true) (other : Place) :
    (disk.put place content).isFolder other = disk.isFolder other := by
  obtain ⟨old, hold⟩ := Option.isSome_iff_exists.mp h
  have hlookup : disk.entries.lookup place = some (.file old) := by
    simp only [file?] at hold
    split at hold
    · cases hold
      assumption
    · cases hold
  simp only [isFolder, put]
  congr 1
  clear h hold
  generalize disk.entries = entries at hlookup
  induction entries with
  | nil => cases hlookup
  | cons entry entries ih =>
    obtain ⟨here, entry⟩ := entry
    by_cases hhere : here = place
    · subst hhere
      obtain rfl : entry = .file old := by simpa using hlookup
      simp [put.set]
    · rw [lookup_cons_of_ne (Ne.symm hhere)] at hlookup
      simp only [put.set, if_neg hhere, List.any_cons, ih hlookup]

theorem resolve?_congr (h : ∀ place, disk'.isFolder place = disk.isFolder place) (cwd : Place)
    (path : String) : disk'.resolve? cwd path = disk.resolve? cwd path := by
  have hstep : step? disk' = step? disk := by
    funext here part
    simp only [step?, h]
  simp only [resolve?, hstep, h]

theorem resolve?_put (h : disk.isFile place = true) (cwd : Place) (path : String) :
    (disk.put place content).resolve? cwd path = disk.resolve? cwd path :=
  resolve?_congr (isFolder_put h) cwd path

/-! ## Texts -/

theorem readText?_eq_some_iff : disk.readText? cwd path = some text ↔
    ∃ place content, disk.resolve? cwd path = some place ∧ disk.file? place = some content ∧
      String.fromUTF8? content = some text := by
  simp [readText?, Option.bind_eq_some_iff]

/-- The `text` is written where `path` leads, if no folder is there but around it. -/
theorem write?_eq_some_iff : disk.write? cwd path text = some disk' ↔
    ∃ place, disk.resolve? cwd path = some place ∧ disk.isFolder place = false ∧
      disk.isFolder place.dropLast = true ∧ disk' = disk.put place text.toUTF8 := by
  cases hplace : disk.resolve? cwd path with
  | none => simp [write?, hplace]
  | some place =>
    simp only [write?, hplace, Option.bind_eq_bind, Option.bind_some, Option.some.injEq,
      exists_eq_left']
    cases disk.isFolder place <;> cases disk.isFolder place.dropLast <;> simp [eq_comm]

end TreeLint.Disk
