import NameTables.Proofs.Flat.Written
import NameTables.Proofs.Nested.Sorting
import NameTables.Proofs.Table.Agreement

/-! In which order the flat format is written.
Every class, field and method with a target name has one line. In the usual order the classes come
first, then the fields and then the methods, each of them by its text.
-/

namespace NameTables

/-- What the place of a line is told by in the usual order. -/
structure Place where
  part : Nat
  text : String
  descriptor : Option Descriptor

namespace Place

def compare (place place' : Place) : Ordering :=
  (Ord.compare place.part place'.part).then
    ((Ord.compare place.text place'.text).then
      (compareOption Descriptor.compare place.descriptor place'.descriptor))

instance : Std.TransCmp compare := by
  have by_descriptor := transCmp_part (compareOption Descriptor.compare) Place.descriptor
  exact inferInstanceAs (Std.TransCmp (compareLex (compareOn Place.part)
    (compareLex (compareOn Place.text) fun place place' =>
      compareOption Descriptor.compare place.descriptor place'.descriptor)))

theorem eq_of_compare_eq {place place' : Place} (same : place.compare place' = .eq)
    : place = place' := by
  obtain ⟨part_same, same⟩ := Ordering.then_eq_eq.mp same
  obtain ⟨text_same, descriptor_same⟩ := Ordering.then_eq_eq.mp same
  have part_eq : place.part = place'.part := Std.LawfulEqCmp.eq_of_compare part_same
  have text_eq : place.text = place'.text := Std.LawfulEqCmp.eq_of_compare text_same
  have descriptor_eq : place.descriptor = place'.descriptor :=
    Std.LawfulEqCmp.eq_of_compare descriptor_same
  cases place
  cases place'
  cases part_eq
  cases text_eq
  cases descriptor_eq
  rfl

end Place

namespace Path

/-- The place of the line for an entry. There are no lines for parameters. -/
def place : Path → Place
  | .cls owner => ⟨0, owner.text, none⟩
  | .field owner key => ⟨1, fullMemberName owner (some key.name), key.descriptor⟩
  | .method owner key =>
      ⟨2, fullMemberName owner (some key.name) ++ key.descriptor.text, none⟩
  | .parameter _ _ _ => ⟨3, "", none⟩

def compareByName (path path' : Path) : Ordering := path.place.compare path'.place

instance : Std.TransCmp compareByName := transCmp_part Place.compare place

end Path

namespace Flat

variable {table : Table 2} {arrangement : Arrangement}

/-- The entries with a line, in the order of the lines. -/
def paths (table : Table 2) (arrangement : Arrangement) : List Path :=
  (written table arrangement).map Declaration.path

theorem mem_paths_iff (coherent : table.Coherent) {path : Path}
    : path ∈ paths table arrangement
      ↔ path.kind ≠ .parameter
        ∧ ∃ names, table.names? path = some names ∧ names.target.isSome = true := by
  simp only [paths, List.mem_map, mem_written_iff coherent, Kept]
  constructor
  · intro given
    rcases given with ⟨declaration, ⟨no_parameter, found, named⟩, rfl⟩
    exact ⟨no_parameter, declaration.names, found, named⟩
  · intro given
    rcases given with ⟨no_parameter, names, found, named⟩
    exact ⟨⟨path, names⟩, ⟨no_parameter, found, named⟩, rfl⟩

/-- What is written at a path are the names there. -/
theorem written_eq (coherent : table.Coherent)
    : written table arrangement
      = (paths table arrangement).filterMap fun path =>
          (table.names? path).map (Declaration.mk path) := by
  rw [paths, List.filterMap_map]
  refine (List.filterMap_some (l := written table arrangement)).symm.trans ?_
  apply List.filterMap_congr
  intro declaration member
  obtain ⟨_, found, _⟩ := (mem_written_iff coherent).mp member
  simp [found]

-----------------------------------------------------------------------------------------
-- No entry has two lines
-----------------------------------------------------------------------------------------

theorem paths_perm
    : (paths table arrangement).Perm
        ((classes table).filterMap (fun cls => cls.names.source.map Path.cls)
          ++ (fields table).filterMap (fun field => field.item.key?.map (Path.field field.owner))
          ++ (methods table).filterMap fun method =>
              method.item.key?.map (Path.method method.owner)) := by
  have moved : (written table arrangement).Perm
      ((classes table).filterMap classDeclaration? ++ (fields table).filterMap fieldDeclaration?
        ++ (methods table).filterMap methodDeclaration?) :=
    ((filterMap_sortBy_perm ..).append (filterMap_sortBy_perm ..)).append
      (filterMap_sortBy_perm ..)
  have paths_moved := moved.map Declaration.path
  simp only [List.map_append, List.map_filterMap] at paths_moved
  simpa [paths, classDeclaration?, fieldDeclaration?, methodDeclaration?, Function.comp_def]
    using paths_moved

/-- The members of all classes stand under different paths. -/
theorem nodup_members {κ α : Type} [DecidableEq κ] (entriesOf : Class 2 → OrderedMap κ α)
    {key? : α → Option κ} (keep : α → Bool) (path : ClassName → κ → Path)
    (keyed
      : ∀ owner cls, table.class? owner = some cls
          → ∀ key a, (entriesOf cls).get? key = some a → key? a = some key)
    (apart
      : ∀ owner owner' key key',
          path owner key = path owner' key' → owner = owner' ∧ key = key')
    : ((table.classes.entries.flatMap fun (owner, cls) =>
          ((entriesOf cls).values.filter keep).map (Member.mk owner)).filterMap
        fun member => (key? member.item).map (path member.owner)).Nodup := by
  have of_entry (entry : ClassName × Class 2)
      : (((entriesOf entry.2).values.filter keep).map (Member.mk entry.1)).filterMap
          (fun member => (key? member.item).map (path member.owner))
        = (((entriesOf entry.2).values.filter keep).filterMap key?).map (path entry.1) := by
    rw [List.filterMap_map, List.map_filterMap]
    rfl
  rw [List.filterMap_flatMap]
  simp only [of_entry]
  rw [List.nodup_flatMap]
  constructor
  · intro entry listed
    have stored := (table.classes.get?_eq_some_iff entry.1 entry.2).mpr listed
    refine (OrderedMap.nodup_filterMap_values (keyed entry.1 entry.2 stored) keep).map ?_
    intro key key' same
    exact (apart entry.1 entry.1 key key' same).2
  · refine (List.pairwise_map.mp table.classes.nodup).imp ?_
    intro entry entry' different place listed listed'
    obtain ⟨key, _, rfl⟩ := List.mem_map.mp listed
    obtain ⟨key', _, same⟩ := List.mem_map.mp listed'
    exact different (apart entry'.1 entry.1 key' key same).1.symm

theorem nodup_paths (coherent : table.Coherent) : (paths table arrangement).Nodup := by
  rw [paths_perm.nodup_iff, List.nodup_append, List.nodup_append]
  have classes_nodup
      : ((classes table).filterMap fun cls => cls.names.source.map Path.cls).Nodup := by
    rw [classes, ← List.map_filterMap]
    refine (OrderedMap.nodup_filterMap_values ?_ _).map fun _ _ same => Path.cls.inj same
    intro owner cls stored
    exact (Names.source_eq_first? _).trans (coherent.cls stored)
  have fields_nodup
      : ((fields table).filterMap fun field =>
          field.item.key?.map (Path.field field.owner)).Nodup :=
    nodup_members Class.fields _ Path.field
      (fun _ _ stored _ _ listed =>
        coherent.field_key? (Option.bind_eq_some_iff.mpr ⟨_, stored, listed⟩))
      fun _ _ _ _ same => Path.field.inj same
  have methods_nodup
      : ((methods table).filterMap fun method =>
          method.item.key?.map (Path.method method.owner)).Nodup :=
    nodup_members Class.methods _ Path.method
      (fun _ _ stored _ _ listed =>
        coherent.method_key? (Option.bind_eq_some_iff.mpr ⟨_, stored, listed⟩))
      fun _ _ _ _ same => Path.method.inj same
  refine ⟨⟨classes_nodup, fields_nodup, ?_⟩, methods_nodup, ?_⟩
  · simp only [List.mem_filterMap, Option.map_eq_some_iff]
    rintro _ ⟨_, _, _, _, rfl⟩ _ ⟨_, _, _, _, rfl⟩
    simp
  · simp only [List.mem_append, List.mem_filterMap, Option.map_eq_some_iff]
    rintro _ (⟨_, _, _, _, rfl⟩ | ⟨_, _, _, _, rfl⟩) _ ⟨_, _, _, _, rfl⟩ <;> simp

-----------------------------------------------------------------------------------------
-- The usual order
-----------------------------------------------------------------------------------------

theorem byName_classes_eq {cls cls' : Class 2} {declaration declaration' : Declaration 2}
    (found : classDeclaration? cls = some declaration)
    (found' : classDeclaration? cls' = some declaration')
    : Arrangement.byName.classes cls cls' = declaration.path.compareByName declaration'.path := by
  obtain ⟨owner, named, rfl⟩ := Option.map_eq_some_iff.mp found
  obtain ⟨owner', named', rfl⟩ := Option.map_eq_some_iff.mp found'
  rw [Arrangement.byName_classes_eq named named']
  exact Ordering.then_eq.symm

theorem byName_fields_eq {field field' : Member (Field 2)}
    {declaration declaration' : Declaration 2}
    (found : fieldDeclaration? field = some declaration)
    (found' : fieldDeclaration? field' = some declaration')
    : Arrangement.byName.fields field field'
      = declaration.path.compareByName declaration'.path := by
  obtain ⟨key, keyed, rfl⟩ := Option.map_eq_some_iff.mp found
  obtain ⟨key', keyed', rfl⟩ := Option.map_eq_some_iff.mp found'
  obtain ⟨name, named, rfl⟩ := Option.map_eq_some_iff.mp keyed
  obtain ⟨name', named', rfl⟩ := Option.map_eq_some_iff.mp keyed'
  simp only [Arrangement.byName, Member.fieldName, named, named']
  rfl

theorem byName_methods_eq {method method' : Member (Method 2)}
    {declaration declaration' : Declaration 2}
    (found : methodDeclaration? method = some declaration)
    (found' : methodDeclaration? method' = some declaration')
    : Arrangement.byName.methods method method'
      = declaration.path.compareByName declaration'.path := by
  obtain ⟨key, keyed, rfl⟩ := Option.map_eq_some_iff.mp found
  obtain ⟨key', keyed', rfl⟩ := Option.map_eq_some_iff.mp found'
  obtain ⟨name, named, rfl⟩ := Option.map_eq_some_iff.mp keyed
  obtain ⟨name', named', rfl⟩ := Option.map_eq_some_iff.mp keyed'
  simp only [Arrangement.byName, Member.methodName, named, named']
  exact Ordering.then_eq.symm

/-- Each of the three parts is in order, and they come one after the other. -/
theorem pairwise_written
    : (written table .byName).Pairwise fun declaration declaration' =>
        (declaration.path.compareByName declaration'.path).isLE = true := by
  rw [written, List.pairwise_append, List.pairwise_append]
  refine ⟨⟨?_, ?_, ?_⟩, ?_, ?_⟩
  · exact pairwise_filterMap_sortBy fun _ _ _ _ _ _ => byName_classes_eq
  · exact pairwise_filterMap_sortBy fun _ _ _ _ _ _ => byName_fields_eq
  · intro declaration member declaration' member'
    obtain ⟨_, _, found⟩ := List.mem_filterMap.mp member
    obtain ⟨_, _, found'⟩ := List.mem_filterMap.mp member'
    obtain ⟨_, _, rfl⟩ := Option.map_eq_some_iff.mp found
    obtain ⟨_, _, rfl⟩ := Option.map_eq_some_iff.mp found'
    rfl
  · exact pairwise_filterMap_sortBy fun _ _ _ _ _ _ => byName_methods_eq
  · intro declaration member declaration' member'
    obtain ⟨_, _, found'⟩ := List.mem_filterMap.mp member'
    obtain ⟨_, _, rfl⟩ := Option.map_eq_some_iff.mp found'
    rcases List.mem_append.mp member with first | second
    · obtain ⟨_, _, found⟩ := List.mem_filterMap.mp first
      obtain ⟨_, _, rfl⟩ := Option.map_eq_some_iff.mp found
      rfl
    · obtain ⟨_, _, found⟩ := List.mem_filterMap.mp second
      obtain ⟨_, _, rfl⟩ := Option.map_eq_some_iff.mp found
      rfl

theorem pairwise_paths
    : (paths table .byName).Pairwise fun path path' => (path.compareByName path').isLE = true :=
  List.pairwise_map.mpr pairwise_written

-----------------------------------------------------------------------------------------
-- Tables with the same names at every path
-----------------------------------------------------------------------------------------

/-- Entries with lines have different places if members are told apart. -/
theorem eq_of_compareByName_eq (coherent : table.Coherent) (apart : table.MembersApart)
    {path path' : Path} (member : path ∈ paths table arrangement)
    (member' : path' ∈ paths table arrangement) (same : path.compareByName path' = .eq)
    : path = path' := by
  have place_eq := Place.eq_of_compare_eq same
  obtain ⟨no_parameter, names, found, _⟩ := (mem_paths_iff coherent).mp member
  obtain ⟨no_parameter', names', found', _⟩ := (mem_paths_iff coherent).mp member'
  cases path with
  | cls owner =>
      cases path' with
      | cls owner' =>
          have text_eq : owner.text = owner'.text := congrArg Place.text place_eq
          rw [Name.ext text_eq]
      | field | method | parameter => cases congrArg Place.part place_eq
  | field owner key =>
      cases path' with
      | field owner' key' =>
          obtain ⟨field, stored, _⟩ := Option.map_eq_some_iff.mp found
          obtain ⟨field', stored', _⟩ := Option.map_eq_some_iff.mp found'
          obtain ⟨rfl, rfl⟩ := coherent.eq_of_fieldName_eq apart stored stored'
            (congrArg Place.text place_eq) (congrArg Place.descriptor place_eq)
          rfl
      | cls | method | parameter => cases congrArg Place.part place_eq
  | method owner key =>
      cases path' with
      | method owner' key' =>
          obtain ⟨method, stored, _⟩ := Option.map_eq_some_iff.mp found
          obtain ⟨method', stored', _⟩ := Option.map_eq_some_iff.mp found'
          obtain ⟨rfl, rfl⟩ := coherent.eq_of_methodName_eq apart stored stored'
            (congrArg Place.text place_eq)
          rfl
      | cls | field | parameter => cases congrArg Place.part place_eq
  | parameter => exact absurd rfl no_parameter

section

variable {table' : Table 2} (same : ∀ path, table.names? path = table'.names? path)
  (coherent : table.Coherent) (coherent' : table'.Coherent) (apart : table.MembersApart)

include same coherent coherent' apart

/-- The same entries have lines, in the same order. -/
theorem paths_of_names? : paths table .byName = paths table' .byName := by
  refine eq_of_pairwise_of_apart (nodup_paths coherent) (nodup_paths coherent') ?_ ?_
    pairwise_paths pairwise_paths
  · intro path
    rw [mem_paths_iff coherent, mem_paths_iff coherent', same]
  · intro path member path' member'
    exact eq_of_compareByName_eq coherent apart member member'

theorem written_of_names? : written table .byName = written table' .byName := by
  rw [written_eq coherent, written_eq coherent', paths_of_names? same coherent coherent' apart]
  simp only [same]

end

end Flat

end NameTables
