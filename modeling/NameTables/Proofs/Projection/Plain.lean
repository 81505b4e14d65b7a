import NameTables.Proofs.Format.Words
import NameTables.Proofs.Projection.First

/-! Projections of tables that can be told from a file.
The names of a projection are names of the table, and so are the new classes in its descriptors.
Nothing that tells cells apart can come in, whatever the classes are called.
-/

namespace NameTables

variable {n : Nat}

-----------------------------------------------------------------------------------------
-- Characters of a projection
-----------------------------------------------------------------------------------------

namespace Table

variable {table : Table n} {source target : Fin n}

/-- A class that is renamed gets a name from the table. -/
theorem Plain.newName (plain : table.Plain) (coherent : table.Coherent) (name : ClassName)
    : (Rekey.ofTable table source).newName name = name
      ∨ Text.IsPlain ((Rekey.ofTable table source).newName name).text := by
  rw [Rekey.newName_ofTable coherent]
  cases renamed : (table.class? name).bind fun cls => cls.names.get source with
  | none => exact Or.inl rfl
  | some name' =>
      obtain ⟨cls, stored, named⟩ := Option.bind_eq_some_iff.mp renamed
      have found : table.names? (.cls name) = some cls.names :=
        Option.map_eq_some_iff.mpr ⟨cls, stored, rfl⟩
      exact Or.inr (plain.name found named).2

theorem Plain.renamed (plain : table.Plain) (coherent : table.Coherent) {descriptor : Descriptor}
    (own : Text.IsPlain descriptor.text)
    : Text.IsPlain (descriptor.renamed (Rekey.ofTable table source).newName).text :=
  Descriptor.renamed_forall own (plain.newName coherent)

/-- A projection of a plain table is plain. -/
theorem Plain.projection (plain : table.Plain) (coherent : table.Coherent) (labels : Labels 2)
    : (table.projection labels source target).Plain := by
  have words {kind : Kind} {names : Names n kind} (member : names ∈ table.namesOf kind) {i : Fin n}
      {name : Name kind} (named : names.get i = some name)
      : Text.IsWord name.text :=
    forall_mem_namesOf (P := fun names => ∀ i name, names.get i = some name → Text.IsWord name.text)
      (fun _ _ found _ _ => plain.name found) member i name named
  constructor
  · intro path names i name found named
    obtain ⟨before, declared, rfl⟩ := mem_rekeyed_of_names?_projection path found
    have member := mem_namesOf_of_mem_rekeyed declared
    rcases Names.eq_or_eq_of_get_pair named with in_source | in_target
    · exact words member in_source
    · exact words member in_target
  · intro owner key field descriptor stored has
    obtain ⟨cls, listed, _, before, among, _, descriptor_eq⟩ := exists_field_of_projection stored
    rw [descriptor_eq] at has
    obtain ⟨had, of_before, rfl⟩ := Option.map_eq_some_iff.mp has
    obtain ⟨_, _, found⟩ := mem_fields_iff.mp (List.mem_flatMap.mpr ⟨cls, listed, among⟩)
    exact plain.renamed coherent (plain.field found of_before)
  · intro owner key method stored
    obtain ⟨cls, listed, _, before, among, _, descriptor_eq⟩ := exists_method_of_projection stored
    rw [descriptor_eq]
    obtain ⟨_, _, found⟩ := mem_methods_iff.mp (List.mem_flatMap.mpr ⟨cls, listed, among⟩)
    exact plain.renamed coherent (plain.method found)

-----------------------------------------------------------------------------------------
-- Projections onto the namespaces that a table has
-----------------------------------------------------------------------------------------

/-- A table is projected to itself if both its namespaces can be found. -/
theorem Coherent.project_self {own : Table 2} (coherent : own.Coherent)
    (closed : own.DescriptorsClosed) {source target : String}
    (labels : own.labels = ⟨#v[source, target]⟩) (different : source ≠ target)
    (nonempty : source ≠ "" ∧ target ≠ "")
    (filled : ∀ names ∈ own.namesOf .parameter, names.Filled)
    : own.project source target = .ok own := by
  have found_source : own.labels.find? source = some 0 := labels ▸ Labels.find?_pair_fst _ _
  have found_target : own.labels.find? target = some 1 := labels ▸ Labels.find?_pair_snd different
  rw [closed.project_eq_projection found_source found_target nonempty, ← labels,
    coherent.projection_self]
  intro names member
  exact ⟨fun empty => filled names member 0 _ empty rfl,
    fun empty => filled names member 1 _ empty rfl⟩

end Table

end NameTables
