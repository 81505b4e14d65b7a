import NameTables.FileStore
import NameTables.Proofs.Format.Records
import NameTables.Proofs.OrderedMap

/-! What a file store holds after a write.
A write puts a file at the location that its path leads to. No directory goes away, so the path
leads there afterwards, and what was written can be read and replaced.
-/

namespace NameTables.FileStore

variable {store : FileStore} {path : String} {location : Location} {content : ByteArray}

-----------------------------------------------------------------------------------------
-- Where a path leads
-----------------------------------------------------------------------------------------

/-- The path leads to a location where a file can be. -/
structure LeadsTo (store : FileStore) (path : String) (location : Location) : Prop where
  named : checkPath path = .ok ()
  followed : store.follow (FilePath.ofText path) = .ok (.entry location)
  no_slash : (FilePath.ofText path).endsWithSlash = false
  fits : location.fits = true
  no_directory : store.isDirectory location = false

/-- The store with a file at a location. -/
def put (store : FileStore) (location : Location) (content : ByteArray) : FileStore :=
  ⟨store.files.upsert location content fun _ => content⟩

/-- What is at a location is a directory or what is stored there. -/
theorem look_eq_ok_iff {found : Found}
    : store.look location = .ok found
      ↔ location.fits = true
        ∧ found = if store.isDirectory location then .directory
          else ((store.files.get? location).map Found.file).getD .nothing := by
  unfold look
  cases location.fits <;> cases store.isDirectory location <;>
    cases store.files.get? location <;> simp [eq_comm]

/-- A path that was followed leads to a place if no directory is there. -/
theorem leadsTo_of_look {found : Found} (named : checkPath path = .ok ())
    (followed : store.follow (FilePath.ofText path) = .ok (.entry location))
    (no_slash : (FilePath.ofText path).endsWithSlash = false)
    (looked : store.look location = .ok found) (other : found ≠ .directory)
    : store.LeadsTo path location := by
  obtain ⟨fits, rfl⟩ := look_eq_ok_iff.mp looked
  refine ⟨named, followed, no_slash, fits, ?_⟩
  rw [← Bool.not_eq_true]
  intro directory
  exact other (if_pos directory)

theorem LeadsTo.look_eq (leads : store.LeadsTo path location)
    : store.look location
      = .ok (((store.files.get? location).map Found.file).getD .nothing) := by
  rw [look_eq_ok_iff, leads.no_directory]
  exact ⟨leads.fits, rfl⟩

theorem write_eq_ok_iff {after : FileStore}
    : store.write path content = .ok after
      ↔ ∃ location, store.LeadsTo path location ∧ after = store.put location content := by
  unfold write
  simp only [Outcome.bind_eq_ok_iff]
  constructor
  · intro given
    rcases given with ⟨_, named, place, followed, writes⟩
    cases place with
    | directory => cases writes
    | entry location =>
        dsimp only at writes
        split at writes
        · cases writes
        · next no_slash =>
          obtain ⟨found, looked, writes⟩ := Outcome.bind_eq_ok_iff.mp writes
          have leads := leadsTo_of_look named followed (by simpa using no_slash) looked
          cases found with
          | directory => cases writes
          | file _ | nothing => exact ⟨location, leads (by simp), (Except.ok.inj writes).symm⟩
  · intro given
    rcases given with ⟨location, leads, rfl⟩
    refine ⟨(), leads.named, _, leads.followed, ?_⟩
    simp only [leads.no_slash, leads.look_eq]
    cases store.files.get? location <;> rfl

theorem read_eq_ok_iff
    : store.read path = .ok content
      ↔ ∃ location, store.LeadsTo path location ∧ store.files.get? location = some content := by
  unfold read openAt
  simp only [Outcome.bind_eq_ok_iff]
  constructor
  · intro given
    rcases given with ⟨opened, ⟨_, named, place, followed, opens⟩, reads⟩
    cases place with
    | directory =>
        cases opens
        cases reads
    | entry location =>
        obtain ⟨found, looked, opens⟩ := Outcome.bind_eq_ok_iff.mp opens
        cases found with
        | directory =>
            cases opens
            cases reads
        | nothing => cases opens
        | file previous =>
            dsimp only at opens
            split at opens
            · cases opens
            · next no_slash =>
              have leads :=
                leadsTo_of_look named followed (by simpa using no_slash) looked (by simp)
              obtain rfl := Except.ok.inj opens
              obtain rfl := Except.ok.inj reads
              refine ⟨location, leads, ?_⟩
              rw [leads.look_eq] at looked
              cases stored : store.files.get? location with
              | none => simp [stored] at looked
              | some previous => simpa [stored] using looked
  · intro given
    rcases given with ⟨location, leads, stored⟩
    refine ⟨.ok content, ⟨(), leads.named, _, leads.followed, ?_⟩, rfl⟩
    simp only [leads.no_slash, leads.look_eq, stored]
    rfl

-----------------------------------------------------------------------------------------
-- Paths after a file is put somewhere
-----------------------------------------------------------------------------------------

theorem get?_put_self (store : FileStore) (location : Location) (content : ByteArray)
    : (store.put location content).files.get? location = some content :=
  OrderedMap.get?_upsert_self ..

theorem get?_put_of_ne {other : Location} (different : other ≠ location)
    : (store.put location content).files.get? other = store.files.get? other := by
  rw [put, OrderedMap.get?_upsert, if_neg different.symm]

theorem mem_keys_put_iff {other : Location}
    : other ∈ (store.put location content).files.keys
      ↔ other ∈ store.files.keys ∨ other = location := by
  rw [put, OrderedMap.keys_upsert]
  split
  · next listed =>
    constructor
    · exact Or.inl
    · rintro (before | rfl)
      · exact before
      · exact listed
  · rw [List.mem_append, List.mem_singleton]

/-- The directories around a new file are there with it. -/
theorem isDirectory_put_iff {directory : Location}
    : (store.put location content).isDirectory directory = true
      ↔ store.isDirectory directory = true ∨ location.isBelow directory = true := by
  simp only [isDirectory, Bool.or_eq_true, List.any_eq_true, mem_keys_put_iff]
  constructor
  · rintro (top | ⟨file, before | rfl, below⟩)
    · exact Or.inl (Or.inl top)
    · exact Or.inl (Or.inr ⟨file, before, below⟩)
    · exact Or.inr below
  · rintro ((top | ⟨file, before, below⟩) | below)
    · exact Or.inl top
    · exact Or.inr ⟨file, Or.inl before, below⟩
    · exact Or.inr ⟨location, Or.inr rfl, below⟩

theorem look_put_of_directory {directory : Location}
    (looked : store.look directory = .ok .directory)
    : (store.put location content).look directory = .ok .directory := by
  obtain ⟨fits, there⟩ := look_eq_ok_iff.mp looked
  have before : store.isDirectory directory = true := by
    by_contra no_directory
    rw [if_neg no_directory] at there
    cases stored : store.files.get? directory <;> simp [stored] at there
  rw [look_eq_ok_iff, if_pos (isDirectory_put_iff.mpr (Or.inl before))]
  exact ⟨fits, rfl⟩

theorem enter_put {directory next : Location} {part : String}
    (entered : store.enter directory part = .ok next)
    : (store.put location content).enter directory part = .ok next := by
  unfold enter at entered ⊢
  split
  · next here => rwa [if_pos here] at entered
  · next no_dot =>
    rw [if_neg no_dot] at entered
    split
    · next up => rwa [if_pos up] at entered
    · next no_dots =>
      rw [if_neg no_dots] at entered
      obtain ⟨found, looked, entered⟩ := Outcome.bind_eq_ok_iff.mp entered
      cases found with
      | directory =>
          exact Outcome.bind_eq_ok_iff.mpr ⟨_, look_put_of_directory looked, entered⟩
      | file | nothing => cases entered

/-- A path leads through the same directories, part by part. -/
theorem foldlM_enter_put {parts : List String} {start last : Location}
    (followed : parts.foldlM store.enter start = .ok last)
    : parts.foldlM (store.put location content).enter start = .ok last := by
  induction parts generalizing start with
  | nil => exact followed
  | cons part parts ih =>
      rw [List.foldlM_cons, Outcome.bind_eq_ok_iff] at followed ⊢
      obtain ⟨next, entered, followed⟩ := followed
      exact ⟨next, enter_put entered, ih followed⟩

theorem follow_put {parts : FilePath} {place : Place} (followed : store.follow parts = .ok place)
    : (store.put location content).follow parts = .ok place := by
  obtain ⟨directory, inside, last⟩ := Outcome.bind_eq_ok_iff.mp followed
  exact Outcome.bind_eq_ok_iff.mpr ⟨directory, foldlM_enter_put inside, last⟩

/-- The path to a new file leads to it afterwards. -/
theorem LeadsTo.put (leads : store.LeadsTo path location) (content : ByteArray)
    : (store.put location content).LeadsTo path location where
  named := leads.named
  followed := follow_put leads.followed
  no_slash := leads.no_slash
  fits := leads.fits
  no_directory := by
    rw [← Bool.not_eq_true, isDirectory_put_iff, leads.no_directory]
    simp [Location.isBelow]

/-- What was written is read. -/
theorem read_write {after : FileStore} (writes : store.write path content = .ok after)
    : after.read path = .ok content := by
  obtain ⟨location, leads, rfl⟩ := write_eq_ok_iff.mp writes
  exact read_eq_ok_iff.mpr ⟨location, leads.put content, store.get?_put_self location content⟩

/-- (WritesOnly store after path content) says that the path leads to a file with the content
afterwards, which is the only one that may have changed.
-/
structure WritesOnly (store after : FileStore) (path : String) (content : ByteArray) : Prop where
  reread : after.read path = .ok content
  others
    : ∃ location, store.LeadsTo path location
        ∧ after.files.get? location = some content
        ∧ ∀ other, other ≠ location → after.files.get? other = store.files.get? other

theorem writesOnly_of_write {after : FileStore} (writes : store.write path content = .ok after)
    : WritesOnly store after path content := by
  refine ⟨read_write writes, ?_⟩
  obtain ⟨location, leads, rfl⟩ := write_eq_ok_iff.mp writes
  exact ⟨location, leads, store.get?_put_self location content,
    fun other different => get?_put_of_ne different⟩

/-- Nothing stops a write to the only file that may have changed. -/
theorem WritesOnly.exists_write {after : FileStore} (writes : WritesOnly store after path content)
    : ∃ after', store.write path content = .ok after' := by
  obtain ⟨_, location, leads, _⟩ := writes
  exact ⟨_, write_eq_ok_iff.mpr ⟨location, leads, rfl⟩⟩

/-- Whether a path can be written to does not depend on what is written. -/
theorem exists_write_of_write {after : FileStore} (writes : store.write path content = .ok after)
    (content' : ByteArray)
    : ∃ after', store.write path content' = .ok after' := by
  obtain ⟨location, leads, _⟩ := write_eq_ok_iff.mp writes
  exact ⟨_, write_eq_ok_iff.mpr ⟨location, leads, rfl⟩⟩

/-- What was written can be replaced. -/
theorem exists_write_after_write {after : FileStore} (writes : store.write path content = .ok after)
    (content' : ByteArray)
    : ∃ after', after.write path content' = .ok after' := by
  obtain ⟨location, leads, rfl⟩ := write_eq_ok_iff.mp writes
  exact ⟨_, write_eq_ok_iff.mpr ⟨location, leads.put content, rfl⟩⟩

end NameTables.FileStore
