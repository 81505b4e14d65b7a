import Mathlib
import NameTables.Proofs.Projection.Moved
import NameTables.Proofs.Table.References

/-! Projections back.
A projection and then the one back lead to the projection that goes the other way at once, as long
as nothing collides on the way and renamed descriptors still refer to the classes they referred to.
-/

namespace NameTables

variable {n : Nat}

-----------------------------------------------------------------------------------------
-- Tables with a way back
-----------------------------------------------------------------------------------------

def Entry.moved (rekey : Rekey n) (target : Fin n) : Entry n → Entry 2
  | .cls c => .cls (c.moved rekey target)
  | .field c f => .field (c.moved rekey target) (f.moved rekey target)
  | .method c m => .method (c.moved rekey target) (m.moved rekey target)
  | .parameter c m p =>
      .parameter (c.moved rekey target) (m.moved rekey target) (p.onto rekey.column target)

namespace Table

/-- All descriptors of fields and methods. -/
def descriptors (table : Table n) : List Descriptor :=
  table.fields.filterMap Field.descriptor ++ table.methods.map Method.descriptor

/-- All but parameters have names in both namespaces. The source names tell classes apart, and
together with the descriptors the members of a class. No source name of a class has a semicolon, or
is called for in a descriptor that means another class.
-/
structure Reversible (table : Table n) (source target : Fin n) : Prop where
  named
    : ∀ kind ≠ .parameter, ∀ names ∈ table.namesOf kind,
        (names.get source).isSome = true ∧ (names.get target).isSome = true
  classes : (table.classes.values.map fun cls => cls.names.get source).Nodup
  fields
    : ∀ cls ∈ table.classes.values,
        (cls.fields.values.map fun field => (field.names.get source, field.descriptor)).Nodup
  methods
    : ∀ cls ∈ table.classes.values,
        (cls.methods.values.map fun method => (method.names.get source, method.descriptor)).Nodup
  uncut : ∀ cls ∈ table.classes.values, ∀ name ∈ cls.names.get source, ';' ∉ name.text.toList
  foreign
    : ∀ descriptor ∈ table.descriptors, ∀ name ∈ descriptor.references,
        (∀ cls ∈ table.classes.values, cls.names.first? ≠ some name)
        → ∀ cls ∈ table.classes.values, cls.names.get source ≠ some name

namespace Reversible

variable {table : Table n} {source target : Fin n} (reversible : table.Reversible source target)

include reversible

theorem class_named {cls : Class n} (listed : cls ∈ table.classes.values)
    : ∃ name name', cls.names.get source = some name ∧ cls.names.get target = some name' := by
  obtain ⟨named, named'⟩ :=
    reversible.named .cls (by decide) cls.names (List.mem_map_of_mem listed)
  obtain ⟨name, found⟩ := Option.isSome_iff_exists.mp named
  obtain ⟨name', found'⟩ := Option.isSome_iff_exists.mp named'
  exact ⟨name, name', found, found'⟩

theorem passable : table.Passable source where
  named cls listed := by
    obtain ⟨_, _, found, _⟩ := reversible.class_named listed
    exact Option.isSome_of_eq_some found
  distinct := reversible.classes
  uncut := reversible.uncut

/-- The way by the source namespace leads to the same names, if there are any. -/
theorem renamed_onward {descriptor : Descriptor} (listed : descriptor ∈ table.descriptors)
    {further : Fin n} (named : ∀ cls ∈ table.classes.values, (cls.names.get further).isSome = true)
    : (descriptor.renamed (Rekey.ofTable table source).newName).renamed
          (table.classMap source further).apply
      = descriptor.renamed (Rekey.ofTable table further).newName := by
  apply reversible.passable.renamed_onward named
  intro name refers
  by_cases called
    : ∃ cls ∈ table.classes.values, cls.names.get ⟨0, Nat.zero_lt_of_lt source.isLt⟩ = some name
  · exact Or.inl called
  · have uncalled : ∀ cls ∈ table.classes.values, cls.names.first? ≠ some name := by
      intro cls among first
      exact called ⟨cls, among, (Names.first?_eq_get ..).symm.trans first⟩
    refine Or.inr fun cls among => ⟨fun first => called ⟨cls, among, first⟩, ?_⟩
    exact reversible.foreign descriptor listed name refers uncalled cls among

variable (coherent : table.Coherent)

include coherent

/-- Renaming the classes keeps descriptors apart, since the first names lead back. -/
theorem eq_of_renamed_eq {descriptor descriptor' : Descriptor}
    (listed : descriptor ∈ table.descriptors) (listed' : descriptor' ∈ table.descriptors)
    (same
      : descriptor.renamed (Rekey.ofTable table source).newName
        = descriptor'.renamed (Rekey.ofTable table source).newName)
    : descriptor = descriptor' := by
  have positive : 0 < n := Nat.zero_lt_of_lt source.isLt
  have named : ∀ cls ∈ table.classes.values, (cls.names.get ⟨0, positive⟩).isSome = true := by
    intro cls among
    obtain ⟨owner, stored⟩ := OrderedMap.mem_values_iff.mp among
    exact Option.isSome_of_eq_some (coherent.get_first positive stored)
  have back := reversible.renamed_onward listed named
  have back' := reversible.renamed_onward listed' named
  rw [Rekey.renamed_first coherent] at back back'
  rw [← back, ← back', same]

/-- No two entries have the same key in the source namespace. -/
theorem keysApart : table.KeysApart source where
  classes := nodup_filterMap_of_nodup_map reversible.classes
    fun _ _ _ _ _ same same' => same.trans same'.symm
  fields cls listed := by
    apply nodup_filterMap_of_nodup_map (reversible.fields cls listed)
    intro field among field' among' key keyed keyed'
    have in_table {field : Field n} (among : field ∈ cls.fields.values)
        : ∀ descriptor ∈ field.descriptor, descriptor ∈ table.descriptors := by
      intro descriptor has
      have member : field ∈ table.fields := List.mem_flatMap.mpr ⟨cls, listed, among⟩
      exact List.mem_append_left _ (List.mem_filterMap.mpr ⟨field, member, has⟩)
    obtain ⟨name, named, rfl⟩ := Option.map_eq_some_iff.mp keyed
    obtain ⟨name', named', same⟩ := Option.map_eq_some_iff.mp keyed'
    obtain ⟨rfl, descriptors_eq⟩ := FieldKey.mk.inj same
    have descriptor_eq : field'.descriptor = field.descriptor :=
      eq_of_map_eq descriptors_eq fun descriptor descriptor' has has' =>
        reversible.eq_of_renamed_eq coherent (in_table among' descriptor has)
          (in_table among descriptor' has')
    exact Prod.ext (named.trans named'.symm) descriptor_eq.symm
  methods cls listed := by
    apply nodup_filterMap_of_nodup_map (reversible.methods cls listed)
    intro method among method' among' key keyed keyed'
    have in_table {method : Method n} (among : method ∈ cls.methods.values)
        : method.descriptor ∈ table.descriptors := by
      have member : method ∈ table.methods := List.mem_flatMap.mpr ⟨cls, listed, among⟩
      exact List.mem_append_right _ (List.mem_map_of_mem member)
    obtain ⟨name, named, rfl⟩ := Option.map_eq_some_iff.mp keyed
    obtain ⟨name', named', same⟩ := Option.map_eq_some_iff.mp keyed'
    obtain ⟨rfl, descriptors_eq⟩ := MethodKey.mk.inj same
    have descriptor_eq :=
      reversible.eq_of_renamed_eq coherent (in_table among') (in_table among) descriptors_eq
    exact Prod.ext (named.trans named'.symm) descriptor_eq.symm

-----------------------------------------------------------------------------------------
-- From the moved table
-----------------------------------------------------------------------------------------

theorem classes_moved (labels : Labels 2)
    : (table.moved labels source target).classes.values
      = table.classes.values.map (Class.moved (.ofTable table source) target) := by
  apply OrderedMap.values_rekeyed (reversible.keysApart coherent).classes
  intro cls listed
  obtain ⟨_, _, found, _⟩ := reversible.class_named listed
  exact Option.isSome_of_eq_some found

/-- All entries are moved, each to its place. -/
theorem entries_moved (labels : Labels 2)
    : (table.moved labels source target).entries
      = table.entries.map (Entry.moved (.ofTable table source) target) := by
  let rekey := Rekey.ofTable table source
  have on_method (cls : Class n) (method : Method n)
      : (method.moved rekey target).entries (cls.moved rekey target)
        = (method.entries cls).map (Entry.moved rekey target) := by
    simp [Method.entries, Method.moved, OrderedMap.map, OrderedMap.values, Entry.moved,
      Function.comp_def]
  have on_class (cls : Class n) (listed : cls ∈ table.classes.values)
      : (cls.moved rekey target).entries = cls.entries.map (Entry.moved rekey target) := by
    have fields_eq : (cls.moved rekey target).fields.values
        = cls.fields.values.map (Field.moved rekey target) := by
      apply OrderedMap.values_rekeyed ((reversible.keysApart coherent).fields cls listed)
      intro field among
      obtain ⟨named, _⟩ := reversible.named .field (by decide) field.names
        (List.mem_map_of_mem (List.mem_flatMap.mpr ⟨cls, listed, among⟩))
      exact Option.isSome_map.trans named
    have methods_eq : (cls.moved rekey target).methods.values
        = cls.methods.values.map (Method.moved rekey target) := by
      apply OrderedMap.values_rekeyed ((reversible.keysApart coherent).methods cls listed)
      intro method among
      obtain ⟨named, _⟩ := reversible.named .method (by decide) method.names
        (List.mem_map_of_mem (List.mem_flatMap.mpr ⟨cls, listed, among⟩))
      exact Option.isSome_map.trans named
    simp only [Class.entries, fields_eq, methods_eq, List.map_append, List.map_cons, List.map_map,
      List.map_flatMap, List.flatMap_map, on_method]
    rfl
  rw [entries, reversible.classes_moved coherent, entries, List.map_flatMap, List.flatMap_map]
  exact List.flatMap_congr on_class

/-- The way back renames classes like the way from the source namespace to the target. -/
theorem newName_moved (labels : Labels 2)
    : (Rekey.ofTable (table.moved labels source target) 1).newName
      = (table.classMap source target).apply := by
  have same : (table.moved labels source target).classMap 0 1 = table.classMap source target := by
    rw [classMap, classMap, reversible.classes_moved coherent, List.filterMap_map]
    rfl
  exact congrArg ClassMap.apply same

theorem renamed_moved (labels : Labels 2) {descriptor : Descriptor}
    (listed : descriptor ∈ table.descriptors)
    : (descriptor.renamed (Rekey.ofTable table source).newName).renamed
          (Rekey.ofTable (table.moved labels source target) 1).newName
      = descriptor.renamed (Rekey.ofTable table target).newName := by
  rw [reversible.newName_moved coherent]
  apply reversible.renamed_onward listed
  intro cls among
  obtain ⟨_, _, _, found⟩ := reversible.class_named among
  exact Option.isSome_of_eq_some found

/-- On the way back a field moves to its key in the target namespace. -/
theorem fieldKey?_moved (labels : Labels 2) {field : Field n} (member : field ∈ table.fields)
    : (Rekey.ofTable (table.moved labels source target) 1).fieldKey?
          (field.moved (.ofTable table source) target)
      = (Rekey.ofTable table target).fieldKey? field := by
  have descriptor_eq : (field.descriptor.map (Descriptor.renamed
          (Rekey.ofTable table source).newName)).map (Descriptor.renamed
        (Rekey.ofTable (table.moved labels source target) 1).newName)
      = field.descriptor.map (Descriptor.renamed (Rekey.ofTable table target).newName) := by
    rw [Option.map_map]
    apply Option.map_congr
    intro descriptor has
    exact reversible.renamed_moved coherent labels
      (List.mem_append_left _ (List.mem_filterMap.mpr ⟨field, member, has⟩))
  rw [Rekey.fieldKey?, Field.moved, descriptor_eq]
  rfl

theorem methodKey?_moved (labels : Labels 2) {method : Method n} (member : method ∈ table.methods)
    : (Rekey.ofTable (table.moved labels source target) 1).methodKey?
          (method.moved (.ofTable table source) target)
      = (Rekey.ofTable table target).methodKey? method := by
  rw [Rekey.methodKey?, Method.moved, reversible.renamed_moved coherent labels
    (List.mem_append_right _ (List.mem_map_of_mem member))]
  rfl

/-- Back from the moved table, entries declare what they do on the way to the target at once. -/
theorem rekeyed_moved (labels : Labels 2)
    : ((table.moved labels source target).rekeyed 1).map (fun declared => declared.onto 1 0)
      = (table.rekeyed target).map fun declared => declared.onto target source := by
  rw [rekeyed, rekeyed, entries_moved reversible coherent, List.map_filterMap, List.map_filterMap,
    List.filterMap_map]
  apply List.filterMap_congr
  intro entry listed
  rw [Function.comp_apply]
  have column_eq : (Rekey.ofTable (table.moved labels source target) 1).column = 1 := rfl
  have column_eq' : (Rekey.ofTable table target).column = target := rfl
  have owner_eq (cls : Class n)
      : (cls.moved (.ofTable table source) target).names.get 1 = cls.names.get target := rfl
  -- Names in the moved table stand in other slots, but are the same, so the keys decide.
  cases entry with
  | cls cls =>
      rw [Entry.moved, Entry.rekeyed?, Entry.rekeyed?, column_eq, column_eq', owner_eq]
      cases cls.names.get target <;> rfl
  | field cls field =>
      obtain ⟨inside, among⟩ := mem_entries_field_iff.mp listed
      have key_eq := reversible.fieldKey?_moved coherent labels
        (List.mem_flatMap.mpr ⟨cls, inside, among⟩)
      rw [Entry.moved, Entry.rekeyed?, Entry.rekeyed?, column_eq, column_eq', owner_eq, key_eq]
      cases cls.names.get target with
      | none => rfl
      | some owner => cases (Rekey.ofTable table target).fieldKey? field <;> rfl
  | method cls method =>
      obtain ⟨inside, among⟩ := mem_entries_method_iff.mp listed
      have key_eq := reversible.methodKey?_moved coherent labels
        (List.mem_flatMap.mpr ⟨cls, inside, among⟩)
      rw [Entry.moved, Entry.rekeyed?, Entry.rekeyed?, column_eq, column_eq', owner_eq, key_eq]
      cases cls.names.get target with
      | none => rfl
      | some owner => cases (Rekey.ofTable table target).methodKey? method <;> rfl
  | parameter cls method parameter =>
      obtain ⟨inside, among, _⟩ := mem_entries_parameter_iff.mp listed
      have key_eq := reversible.methodKey?_moved coherent labels
        (List.mem_flatMap.mpr ⟨cls, inside, among⟩)
      rw [Entry.moved, Entry.rekeyed?, Entry.rekeyed?, column_eq, column_eq', owner_eq, key_eq]
      cases cls.names.get target with
      | none => rfl
      | some owner => cases (Rekey.ofTable table target).methodKey? method <;> rfl

/-- Back from the projection is the projection the other way. -/
theorem projection_projection (labels labels' : Labels 2)
    : (table.projection labels source target).projection labels' 1 0
      = table.projection labels' target source := by
  rw [projection_eq_moved coherent (reversible.keysApart coherent), projection, projection,
    reversible.rekeyed_moved coherent]

omit coherent

/-- With everything named, a projection meets all descriptors and the names of all parameters. -/
theorem closed_of_projected
    (projected
      : ∀ entry ∈ table.entries, ∃ declared?,
          entry.projected (.ofTable table source) target = .ok declared?)
    : table.DescriptorsClosed
      ∧ ∀ names ∈ table.namesOf .parameter,
          names.get source ≠ some ⟨""⟩ ∧ names.get target ≠ some ⟨""⟩ :=
  Table.closed_of_projected
    (fun kind no_parameter names member => (reversible.named kind no_parameter names member).1)
    projected

end Reversible

-----------------------------------------------------------------------------------------
-- There and back
-----------------------------------------------------------------------------------------

/-- A projection that loses nothing leads back to the projection the other way: both succeed, with
the same entries in the same order.
-/
theorem project_back {table : Table n} (coherent : table.Coherent) {source target : String}
    (different : source ≠ target) {sourceColumn targetColumn : Fin n}
    (found_source : table.labels.find? source = some sourceColumn)
    (found_target : table.labels.find? target = some targetColumn)
    (reversible : table.Reversible sourceColumn targetColumn) {forth : Table 2}
    (succeeds : table.project source target = .ok forth)
    : ∃ back,
        forth.project target source = .ok back
        ∧ table.project target source = .ok back := by
  have forth_closed := project_descriptorsClosed succeeds
  obtain ⟨column, column', found, found', nonempty, projected, rfl⟩ := project_eq_ok succeeds
  obtain rfl := Option.some.inj (found_source.symm.trans found)
  obtain rfl := Option.some.inj (found_target.symm.trans found')
  obtain ⟨closed, filled⟩ := reversible.closed_of_projected projected
  have straight := closed.project_eq_projection found_target found_source nonempty.symm
    fun names member => (filled names member).symm
  let labels : Labels 2 := ⟨#v[source, target]⟩
  let forth := table.projection labels sourceColumn targetColumn
  have found_back : forth.labels.find? target = some 1 :=
    labels_projection ▸ Labels.find?_pair_snd different
  have found_forth : forth.labels.find? source = some 0 :=
    labels_projection ▸ Labels.find?_pair_fst source target
  have filled_back : ∀ names ∈ forth.namesOf .parameter,
      names.get 1 ≠ some ⟨""⟩ ∧ names.get 0 ≠ some ⟨""⟩ := by
    intro names member
    obtain ⟨before, listed, rfl⟩ := exists_mem_namesOf_of_projection member
    exact (filled before listed).symm
  have back :=
    forth_closed.project_eq_projection found_back found_forth nonempty.symm filled_back
  rw [reversible.projection_projection coherent] at back
  exact ⟨_, back, straight⟩

/-- Two classes that refer to each other and to one that is not listed, and two fields that share
their name in the middle namespace.
-/
def crossReferring : Table 3 :=
  (Table.empty ⟨#v["official", "intermediary", "named"]⟩).declareAll
    [⟨.cls ⟨"a"⟩, ⟨#v[some ⟨"a"⟩, some ⟨"b"⟩, some ⟨"pkg/Node"⟩]⟩⟩,
      ⟨.field ⟨"a"⟩ ⟨⟨"x"⟩, some ⟨"Lc;"⟩⟩, ⟨#v[some ⟨"x"⟩, some ⟨"f"⟩, some ⟨"owner"⟩]⟩⟩,
      ⟨.field ⟨"a"⟩ ⟨⟨"y"⟩, some ⟨"La;"⟩⟩, ⟨#v[some ⟨"y"⟩, some ⟨"f"⟩, some ⟨"next"⟩]⟩⟩,
      ⟨.cls ⟨"c"⟩, ⟨#v[some ⟨"c"⟩, some ⟨"a"⟩, some ⟨"pkg/Graph"⟩]⟩⟩,
      ⟨.method ⟨"c"⟩ ⟨⟨"m"⟩, ⟨"(La;Lq;)Lc;"⟩⟩,
        ⟨#v[some ⟨"m"⟩, some ⟨"g"⟩, some ⟨"without"⟩]⟩⟩,
      ⟨.parameter ⟨"c"⟩ ⟨⟨"m"⟩, ⟨"(La;Lq;)Lc;"⟩⟩ 1, ⟨#v[none, none, some ⟨"node"⟩]⟩⟩]

/-- Official and intermediary names of the classes overlap, and still the way back is found. -/
theorem project_back_crossReferring
    : crossReferring.Coherent
      ∧ crossReferring.Reversible 1 2
      ∧ ∃ forth back,
          crossReferring.project "intermediary" "named" = .ok forth
          ∧ forth.project "named" "intermediary" = .ok back
          ∧ crossReferring.project "named" "intermediary" = .ok back
          ∧ forth.classes.keys = [⟨"b"⟩, ⟨"a"⟩]
          ∧ forth.names? (.field ⟨"b"⟩ ⟨⟨"f"⟩, some ⟨"La;"⟩⟩)
            = some (.pair (some ⟨"f"⟩) (some ⟨"owner"⟩))
          ∧ forth.names? (.method ⟨"a"⟩ ⟨⟨"g"⟩, ⟨"(Lb;Lq;)La;"⟩⟩)
            = some (.pair (some ⟨"g"⟩) (some ⟨"without"⟩))
          ∧ back.classes.keys = [⟨"pkg/Node"⟩, ⟨"pkg/Graph"⟩]
          ∧ back.names? (.field ⟨"pkg/Node"⟩ ⟨⟨"owner"⟩, some ⟨"Lpkg/Graph;"⟩⟩)
            = some (.pair (some ⟨"owner"⟩) (some ⟨"f"⟩))
          ∧ back.names? (.method ⟨"pkg/Graph"⟩ ⟨⟨"without"⟩, ⟨"(Lpkg/Node;Lq;)Lpkg/Graph;"⟩⟩)
            = some (.pair (some ⟨"without"⟩) (some ⟨"g"⟩)) := by
  have coherent : crossReferring.Coherent := by
    apply declareAll_coherent _ (by decide)
    simp [Path.Fits, Names.first?]
  have reversible : crossReferring.Reversible 1 2 := by
    constructor
    case named =>
      intro kind no_parameter
      cases kind
      case parameter => exact absurd rfl no_parameter
      all_goals decide
    all_goals decide +kernel
  have forth : crossReferring.project "intermediary" "named"
      = .ok ((Table.empty ⟨#v["intermediary", "named"]⟩).declareAll
          [⟨.cls ⟨"b"⟩, .pair (some ⟨"b"⟩) (some ⟨"pkg/Node"⟩)⟩,
            ⟨.field ⟨"b"⟩ ⟨⟨"f"⟩, some ⟨"La;"⟩⟩, .pair (some ⟨"f"⟩) (some ⟨"owner"⟩)⟩,
            ⟨.field ⟨"b"⟩ ⟨⟨"f"⟩, some ⟨"Lb;"⟩⟩, .pair (some ⟨"f"⟩) (some ⟨"next"⟩)⟩,
            ⟨.cls ⟨"a"⟩, .pair (some ⟨"a"⟩) (some ⟨"pkg/Graph"⟩)⟩,
            ⟨.method ⟨"a"⟩ ⟨⟨"g"⟩, ⟨"(Lb;Lq;)La;"⟩⟩, .pair (some ⟨"g"⟩) (some ⟨"without"⟩)⟩,
            ⟨.parameter ⟨"a"⟩ ⟨⟨"g"⟩, ⟨"(Lb;Lq;)La;"⟩⟩ 1, .pair none (some ⟨"node"⟩)⟩]) := by
    cbv
  have straight : crossReferring.project "named" "intermediary"
      = .ok ((Table.empty ⟨#v["named", "intermediary"]⟩).declareAll
          [⟨.cls ⟨"pkg/Node"⟩, .pair (some ⟨"pkg/Node"⟩) (some ⟨"b"⟩)⟩,
            ⟨.field ⟨"pkg/Node"⟩ ⟨⟨"owner"⟩, some ⟨"Lpkg/Graph;"⟩⟩,
              .pair (some ⟨"owner"⟩) (some ⟨"f"⟩)⟩,
            ⟨.field ⟨"pkg/Node"⟩ ⟨⟨"next"⟩, some ⟨"Lpkg/Node;"⟩⟩,
              .pair (some ⟨"next"⟩) (some ⟨"f"⟩)⟩,
            ⟨.cls ⟨"pkg/Graph"⟩, .pair (some ⟨"pkg/Graph"⟩) (some ⟨"a"⟩)⟩,
            ⟨.method ⟨"pkg/Graph"⟩ ⟨⟨"without"⟩, ⟨"(Lpkg/Node;Lq;)Lpkg/Graph;"⟩⟩,
              .pair (some ⟨"without"⟩) (some ⟨"g"⟩)⟩,
            ⟨.parameter ⟨"pkg/Graph"⟩ ⟨⟨"without"⟩, ⟨"(Lpkg/Node;Lq;)Lpkg/Graph;"⟩⟩ 1,
              .pair (some ⟨"node"⟩) none⟩]) := by
    cbv
  obtain ⟨back, returns, straight'⟩ :=
    project_back coherent (by decide) (by decide) (by decide) reversible forth
  obtain rfl := Except.ok.inj (straight.symm.trans straight')
  exact ⟨coherent, reversible, _, _, forth, returns, straight, by decide, by decide, by decide,
    by decide, by decide, by decide⟩

end Table

end NameTables
