import NameTables.Proofs.Join.Failing
import NameTables.Proofs.Projection.Plain

/-! Projections of a table onto the namespaces that it has.
The keys of a coherent table hold first names and the indices of parameters, so all entries stay
under their keys, and a table with two namespaces has no other names to lose. So the projection is
the table itself, unless a descriptor or an empty name of a parameter is in the way.
-/

namespace NameTables

variable {n : Nat}

theorem Names.filled_iff {kind : Kind} {names : Names 2 kind}
    : names.Filled ↔ names.get 0 ≠ some ⟨""⟩ ∧ names.get 1 ≠ some ⟨""⟩ := by
  constructor
  · intro filled
    exact ⟨fun empty => filled 0 _ empty rfl, fun empty => filled 1 _ empty rfl⟩
  · intro given i name named empty
    obtain rfl : name = ⟨""⟩ := Name.ext empty
    match i with
    | 0 => exact given.1 named
    | 1 => exact given.2 named

namespace Table

/-- The keys of a coherent table hold the first names of all entries but parameters. -/
theorem Coherent.first_isSome {table : Table n} (coherent : table.Coherent) {kind : Kind}
    (no_parameter : kind ≠ .parameter) {names : Names n kind} (member : names ∈ table.namesOf kind)
    : names.first?.isSome = true := by
  revert no_parameter
  refine forall_mem_namesOf (P := fun {kind} names =>
    kind ≠ .parameter → names.first?.isSome = true) ?_ member
  intro path names found no_parameter
  have fits := coherent.names_fit found
  cases path with
  | cls | field | method => exact Option.isSome_of_eq_some fits
  | parameter => exact absurd rfl no_parameter

theorem descriptorsClosed_iff {table : Table n}
    : table.DescriptorsClosed
      ↔ (∀ field ∈ table.fields, ∀ descriptor ∈ field.descriptor, ¬descriptor.Open)
        ∧ ∀ method ∈ table.methods, ¬method.descriptor.Open := by
  simp only [Descriptor.open_iff_not_closed, not_not]
  exact ⟨fun closed => ⟨closed.field, closed.method⟩, fun given => ⟨given.1, given.2⟩⟩

/-- A table is all that it can be projected to under its own labels, and it is so exactly if every
`L` in its descriptors is followed by a semicolon and no name of a parameter is empty.
-/
theorem Coherent.project_own_eq_ok_iff {own : Table 2} (coherent : own.Coherent)
    {source target : String} (labels : own.labels = ⟨#v[source, target]⟩)
    (different : source ≠ target) (nonempty : source ≠ "" ∧ target ≠ "") {result : Table 2}
    : own.project source target = .ok result
      ↔ result = own
        ∧ (∀ field ∈ own.fields, ∀ descriptor ∈ field.descriptor, ¬descriptor.Open)
        ∧ (∀ method ∈ own.methods, ¬method.descriptor.Open)
        ∧ ∀ names ∈ own.namesOf .parameter, names.Filled := by
  constructor
  · intro succeeds
    obtain ⟨column, column', found, found', _, projected, rfl⟩ := project_eq_ok succeeds
    obtain rfl : 0 = column :=
      Option.some.inj ((labels ▸ Labels.find?_pair_fst source target).symm.trans found)
    obtain rfl : 1 = column' :=
      Option.some.inj ((labels ▸ Labels.find?_pair_snd different).symm.trans found')
    have named : ∀ kind ≠ .parameter, ∀ names ∈ own.namesOf kind,
        (names.get 0).isSome = true := by
      intro kind no_parameter names member
      have first := coherent.first_isSome no_parameter member
      rwa [← Names.source_eq_first?] at first
    obtain ⟨closed, filled⟩ := closed_of_projected named projected
    obtain ⟨fields, methods⟩ := descriptorsClosed_iff.mp closed
    exact ⟨labels ▸ coherent.projection_self, fields, methods,
      fun names member => Names.filled_iff.mpr (filled names member)⟩
  · intro given
    rcases given with ⟨rfl, fields, methods, filled⟩
    have closed := descriptorsClosed_iff.mpr ⟨fields, methods⟩
    exact coherent.project_self closed labels different nonempty filled

/-- A class is called like another one, which refers to it. A field has no descriptor, the other one
and the method have descriptors of no known form, and the parameters are not in order.
-/
def crosswise : Table 2 :=
  (Table.empty ⟨#v["raw", "readable"]⟩).declareAll
    [⟨.cls ⟨"a"⟩, .pair (some ⟨"a"⟩) (some ⟨"b"⟩)⟩,
      ⟨.field ⟨"a"⟩ ⟨⟨"f"⟩, some ⟨"[Lb;L;"⟩⟩, .pair (some ⟨"f"⟩) none⟩,
      ⟨.field ⟨"a"⟩ ⟨⟨"f"⟩, none⟩, .pair (some ⟨"f"⟩) (some ⟨"count"⟩)⟩,
      ⟨.cls ⟨"b"⟩, .pair (some ⟨"b"⟩) none⟩,
      ⟨.method ⟨"b"⟩ ⟨⟨"m"⟩, ⟨"La;(Lb;;"⟩⟩, .pair (some ⟨"m"⟩) none⟩,
      ⟨.parameter ⟨"b"⟩ ⟨⟨"m"⟩, ⟨"La;(Lb;;"⟩⟩ 3, .pair (some ⟨"p"⟩) (some ⟨"last"⟩)⟩,
      ⟨.parameter ⟨"b"⟩ ⟨⟨"m"⟩, ⟨"La;(Lb;;"⟩⟩ 0, .pair none none⟩]

theorem project_own_crosswise
    : crosswise.Coherent ∧ crosswise.project "raw" "readable" = .ok crosswise := by
  have coherent : crosswise.Coherent :=
    declareAll_coherent _ (by decide) (by simp [Path.Fits, Names.first?, Names.pair])
  have filled : ∀ names ∈ crosswise.namesOf .parameter, names.Filled := by
    simp only [Names.filled_iff]
    decide
  exact ⟨coherent, (coherent.project_own_eq_ok_iff rfl (by decide) (by decide)).mpr
    ⟨rfl, by decide +kernel, by decide +kernel, filled⟩⟩

end Table

end NameTables
