import Mathlib
import NameTables.Proofs.Join.Unmoved
import NameTables.Proofs.Projection.Declared

/-! Joins of two projections of one table.
A projection to a middle namespace and one from there are joined to the direct projection, as long
as everything has a middle name and the middle names tell the target names. Entries may collide on
their way to the source namespace, since both ways the same one of them decides.
-/

namespace NameTables

variable {m n : Nat}

-----------------------------------------------------------------------------------------
-- When a join succeeds
-----------------------------------------------------------------------------------------

namespace Table

/-- With its namespaces there, a join can fail at nothing but a descriptor. -/
theorem DescriptorsClosed.join_succeeds {left : Table m} (closed : left.DescriptorsClosed)
    {right : Table n} {labels : JoinLabels} {columns : JoinColumns m n}
    (labelled : columns.Labelled left right labels)
    (nonempty : labels.source ≠ "" ∧ labels.target ≠ "")
    : ∃ result, left.join right labels = .ok result := by
  have edited : ∃ edits, left.entries.mapM (columns.joining left right).edit = .ok edits := by
    rw [Outcome.exists_mapM_eq_ok_iff]
    intro entry listed
    cases entry with
    | cls cls => exact ⟨_, rfl⟩
    | field cls field =>
        obtain ⟨key?, found⟩ := closed.exists_fieldKey _ listed
        exact ⟨_, Outcome.bind_eq_ok_iff.mpr ⟨key?, found, rfl⟩⟩
    | method cls method =>
        obtain ⟨key?, found⟩ := closed.exists_methodKey _ listed
        exact ⟨_, Outcome.bind_eq_ok_iff.mpr ⟨key?, found, rfl⟩⟩
    | parameter cls method parameter => exact ⟨_, rfl⟩
  obtain ⟨edits, edited⟩ := edited
  obtain ⟨source, probe, target, key⟩ := labelled
  refine ⟨(Table.empty ⟨#v[labels.source, labels.target]⟩).applyAll (edits.filterMap id), ?_⟩
  simp only [join, joinWith, Outcome.bind_eq_ok_iff]
  exact ⟨columns.source, Labels.resolve_eq_ok_iff.mpr source,
    columns.probe, Labels.resolve_eq_ok_iff.mpr probe,
    columns.target, Labels.resolve_eq_ok_iff.mpr target,
    columns.key, Labels.resolve_eq_ok_iff.mpr key,
    _, Labels.pair_eq_ok_iff.mpr ⟨nonempty, rfl⟩, edits, edited, rfl⟩

variable {table : Table n} {source target : Fin n} {labels : Labels 2}

-----------------------------------------------------------------------------------------
-- Matches by the middle names
-----------------------------------------------------------------------------------------

/-- All but parameters have a name in the middle namespace, and entries of a kind that share it
share the name in the target namespace too, or both have none.
-/
structure Bridged (table : Table n) (middle target : Fin n) : Prop where
  named
    : ∀ kind ≠ .parameter, ∀ names ∈ table.namesOf kind, (names.get middle).isSome = true
  told
    : ∀ kind ≠ .parameter, ∀ names ∈ table.namesOf kind, ∀ names' ∈ table.namesOf kind,
        names.get middle = names'.get middle → names.get target = names'.get target

variable {middle : Fin n}

/-- What is declared under a key leaves an entry that is called like it. -/
theorem exists_mem_namesOf_projection (labels : Labels 2) (target : Fin n)
    {declared : Declaration n} (member : declared ∈ table.rekeyed source)
    (no_parameter : declared.path.kind ≠ .parameter)
    : ∃ names ∈ (table.projection labels source target).namesOf declared.path.kind,
        names.get 0 = declared.names.get source := by
  have listed : declared.path ∈ (table.rekeyed source).map Declaration.path :=
    List.mem_map_of_mem member
  obtain ⟨names, last⟩ := Option.ne_none_iff_exists'.mp
    (mt lastDeclared?_eq_none_iff.mp (not_not.mpr listed))
  have found : (table.projection labels source target).names? declared.path
      = some (names.onto source target) := by
    rw [names?_projection, last, Option.map_some]
  refine ⟨names.onto source target, mem_namesOf found, ?_⟩
  have first_eq := Path.first?_eq_of_fits no_parameter (projection_coherent.names_fit found)
    (fits_of_mem_rekeyed member target)
  rwa [← Names.source_eq_first?, ← Names.source_eq_first?] at first_eq

/-- Whoever has a middle name is found by it in the projection from there. -/
theorem Bridged.exists_match (bridged : table.Bridged middle target) (labels : Labels 2)
    {kind : Kind} (no_parameter : kind ≠ .parameter) {names : Names n kind}
    (member : names ∈ table.namesOf kind)
    : ∃ names' ∈ (table.projection labels middle target).namesOf kind,
        names'.get 0 = names.get middle := by
  have classes_named : ∀ cls ∈ table.classes.values, (cls.names.get middle).isSome = true :=
    fun cls listed => bridged.named .cls (by decide) cls.names (List.mem_map_of_mem listed)
  obtain ⟨name, named⟩ := Option.isSome_iff_exists.mp (bridged.named kind no_parameter _ member)
  exact forall_called_of_rekeyed
    (P := fun {kind} names => ∃ names' ∈ (table.projection labels middle target).namesOf kind,
      names'.get 0 = names.get middle)
    (fun _ => exists_mem_namesOf_projection labels target) classes_named no_parameter member named

/-- The match by the middle name, whichever entry it comes from, has the target name. -/
theorem Bridged.matchTarget?_onto (bridged : table.Bridged middle target) (labels : Labels 2)
    (source : Fin n) {kind : Kind} (no_parameter : kind ≠ .parameter) {names : Names n kind}
    (member : names ∈ table.namesOf kind)
    : (⟨0, 1, 1, 0⟩ : JoinColumns 2 2).matchTarget? id
          ((table.projection labels middle target).namesOf kind) (names.onto source middle)
      = names.get target := by
  obtain ⟨name, named⟩ := Option.isSome_iff_exists.mp (bridged.named kind no_parameter _ member)
  obtain ⟨candidate, listed, called⟩ := bridged.exists_match labels no_parameter member
  have probed : (names.onto source middle).get 1 = some name := named
  have nonempty : (((table.projection labels middle target).namesOf kind).filter fun other =>
      (id other).get 0 = some name) ≠ [] := by
    apply List.ne_nil_of_mem (a := candidate)
    exact List.mem_filter.mpr ⟨listed, by simp [called, named]⟩
  have last := List.getLast?_eq_some_getLast nonempty
  obtain ⟨among, same⟩ := List.mem_filter.mp (List.mem_of_getLast? last)
  obtain ⟨before, member', found_eq⟩ := exists_mem_namesOf_of_projection among
  have shared : before.get middle = names.get middle := by
    rw [found_eq] at same
    exact (of_decide_eq_true same).trans named.symm
  rw [JoinColumns.matchTarget?, probed]
  simp only [Option.bind_eq_bind, Option.bind_some, last, found_eq]
  exact bridged.told kind no_parameter before member' names member shared

/-- The targets found by the middle names make the direct projection, less the parameters. -/
theorem Bridged.retargeted_projection (bridged : table.Bridged middle target) (source : Fin n)
    (to_middle from_middle straight : Labels 2)
    : retargeted straight ((⟨0, 1, 1, 0⟩ : JoinColumns 2 2).retargets
          (table.projection to_middle source middle) (table.projection from_middle middle target))
      = (table.projection straight source target).withoutParameters := by
  let columns : JoinColumns 2 2 := ⟨0, 1, 1, 0⟩
  have left_coherent : (table.projection to_middle source middle).Coherent := projection_coherent
  apply (retargeted_described _ _).eq_of_sameKeys
    (Coherent.withoutParameters projection_coherent).described
  · exact (labels_applyAll ..).trans labels_projection.symm
  · exact (columns.sameKeys_of_unmoved left_coherent rfl _ _).trans
      (sameKeys_projection _ _).withoutParameters
  · intro path names names' found found'
    rw [names?_withoutParameters] at found'
    split at found'
    · simp at found'
    next no_parameter =>
    apply Names.eq_of_first?_of_target
    · exact Path.first?_eq_of_fits no_parameter ((retargeted_coherent _ _).names_fit found)
        (projection_coherent.names_fit found')
    · rw [names?_projection, Option.map_eq_some_iff] at found'
      obtain ⟨before, last, rfl⟩ := found'
      have stored : (table.projection to_middle source middle).names? path
          = some (before.onto source middle) := by
        rw [names?_projection, last, Option.map_some]
      have member := mem_namesOf_of_mem_rekeyed (mem_of_lastDeclared? last)
      have matched := bridged.matchTarget?_onto from_middle source no_parameter member
      rw [names?_retargeted _ _ found, Names.target_setTarget,
        columns.lastTarget?_of_unmoved left_coherent rfl _ no_parameter, stored,
        Option.bind_some, matched]
      rfl

end Table

-----------------------------------------------------------------------------------------
-- Both ways to the target namespace
-----------------------------------------------------------------------------------------

/-- The way through the middle namespace leads to the direct projection, less the parameters. -/
theorem Table.joinShared_projections {table : Table n} {source middle target : String}
    {middleColumn targetColumn : Fin n} {left right direct : Table 2}
    (found_middle : table.labels.find? middle = some middleColumn)
    (found_target : table.labels.find? target = some targetColumn)
    (bridged : table.Bridged middleColumn targetColumn)
    (source_ne : middle ≠ source) (target_ne : middle ≠ target)
    (to_middle : table.project source middle = .ok left)
    (from_middle : table.project middle target = .ok right)
    (straight : table.project source target = .ok direct)
    : left.joinShared right source target middle = .ok direct.withoutParameters := by
  have closed := project_descriptorsClosed to_middle
  obtain ⟨sourceColumn, column, found_source, found, _, _, rfl⟩ := project_eq_ok to_middle
  obtain rfl := Option.some.inj (found_middle.symm.trans found)
  obtain ⟨column, column', found, found', _, _, rfl⟩ := project_eq_ok from_middle
  obtain rfl := Option.some.inj (found_middle.symm.trans found)
  obtain rfl := Option.some.inj (found_target.symm.trans found')
  obtain ⟨column, column', found, found', nonempty, _, rfl⟩ := project_eq_ok straight
  obtain rfl := Option.some.inj (found_source.symm.trans found)
  obtain rfl := Option.some.inj (found_target.symm.trans found')
  let columns : JoinColumns 2 2 := ⟨0, 1, 1, 0⟩
  have labelled : columns.Labelled
      (table.projection ⟨#v[source, middle]⟩ sourceColumn middleColumn)
      (table.projection ⟨#v[middle, target]⟩ middleColumn targetColumn)
      ⟨source, middle, target, middle⟩ := by
    rw [JoinColumns.Labelled, labels_projection, labels_projection]
    exact ⟨Labels.find?_pair_fst source middle, Labels.find?_pair_snd source_ne.symm,
      Labels.find?_pair_snd target_ne, Labels.find?_pair_fst middle target⟩
  obtain ⟨result, joins⟩ := closed.join_succeeds labelled nonempty
  obtain ⟨columns', labelled', rfl⟩ := join_eq_retargeted projection_coherent joins
  obtain rfl := labelled.unique labelled'
  rw [joinShared, joins, Except.ok.injEq]
  exact bridged.retargeted_projection sourceColumn _ _ _

/-- Two classes with one official name, and in each a method that moves to the same key. -/
def Table.sharedOfficial : Table 3 :=
  (Table.empty ⟨#v["obf", "official", "intermediary"]⟩).declareAll
    [⟨.cls ⟨"x"⟩, ⟨#v[some ⟨"x"⟩, some ⟨"a"⟩, some ⟨"I1"⟩]⟩⟩,
      ⟨.method ⟨"x"⟩ ⟨⟨"f"⟩, ⟨"(Lx;)V"⟩⟩, ⟨#v[some ⟨"f"⟩, some ⟨"g"⟩, some ⟨"m1"⟩]⟩⟩,
      ⟨.parameter ⟨"x"⟩ ⟨⟨"f"⟩, ⟨"(Lx;)V"⟩⟩ 0, ⟨#v[some ⟨"p"⟩, none, none]⟩⟩,
      ⟨.cls ⟨"y"⟩, ⟨#v[some ⟨"y"⟩, some ⟨"a"⟩, some ⟨"I2"⟩]⟩⟩,
      ⟨.method ⟨"y"⟩ ⟨⟨"h"⟩, ⟨"(Ly;)V"⟩⟩, ⟨#v[some ⟨"h"⟩, some ⟨"g"⟩, some ⟨"m2"⟩]⟩⟩]

/-- The later class and its method decide on both ways. -/
theorem Table.joinShared_sharedOfficial
    : sharedOfficial.Coherent
      ∧ sharedOfficial.Bridged 2 0
      ∧ ∃ left right direct,
          sharedOfficial.project "official" "intermediary" = .ok left
          ∧ sharedOfficial.project "intermediary" "obf" = .ok right
          ∧ sharedOfficial.project "official" "obf" = .ok direct
          ∧ left.joinShared right "official" "obf" "intermediary" = .ok direct.withoutParameters
          ∧ direct.names? (.cls ⟨"a"⟩) = some (.pair (some ⟨"a"⟩) (some ⟨"y"⟩))
          ∧ left.names? (.method ⟨"a"⟩ ⟨⟨"g"⟩, ⟨"(La;)V"⟩⟩)
            = some (.pair (some ⟨"g"⟩) (some ⟨"m2"⟩))
          ∧ right.names? (.method ⟨"I2"⟩ ⟨⟨"m2"⟩, ⟨"(LI2;)V"⟩⟩)
            = some (.pair (some ⟨"m2"⟩) (some ⟨"h"⟩))
          ∧ direct.withoutParameters.names? (.method ⟨"a"⟩ ⟨⟨"g"⟩, ⟨"(La;)V"⟩⟩)
            = some (.pair (some ⟨"g"⟩) (some ⟨"h"⟩))
          ∧ direct.names? (.parameter ⟨"a"⟩ ⟨⟨"g"⟩, ⟨"(La;)V"⟩⟩ 0)
            = some (.pair none (some ⟨"p"⟩))
          ∧ direct.withoutParameters.names? (.parameter ⟨"a"⟩ ⟨⟨"g"⟩, ⟨"(La;)V"⟩⟩ 0) = none := by
  have coherent : sharedOfficial.Coherent := by
    apply declareAll_coherent _ (by decide)
    simp [Path.Fits, Names.first?]
  have bridged : sharedOfficial.Bridged 2 0 := by
    constructor <;> intro kind no_parameter <;> cases kind
    case named.parameter | told.parameter => exact absurd rfl no_parameter
    all_goals decide
  have to_middle : sharedOfficial.project "official" "intermediary"
      = .ok ((Table.empty ⟨#v["official", "intermediary"]⟩).declareAll
          [⟨.cls ⟨"a"⟩, .pair (some ⟨"a"⟩) (some ⟨"I2"⟩)⟩,
            ⟨.method ⟨"a"⟩ ⟨⟨"g"⟩, ⟨"(La;)V"⟩⟩, .pair (some ⟨"g"⟩) (some ⟨"m2"⟩)⟩,
            ⟨.parameter ⟨"a"⟩ ⟨⟨"g"⟩, ⟨"(La;)V"⟩⟩ 0, .pair none none⟩]) := by
    cbv
  have from_middle : sharedOfficial.project "intermediary" "obf"
      = .ok ((Table.empty ⟨#v["intermediary", "obf"]⟩).declareAll
          [⟨.cls ⟨"I1"⟩, .pair (some ⟨"I1"⟩) (some ⟨"x"⟩)⟩,
            ⟨.method ⟨"I1"⟩ ⟨⟨"m1"⟩, ⟨"(LI1;)V"⟩⟩, .pair (some ⟨"m1"⟩) (some ⟨"f"⟩)⟩,
            ⟨.parameter ⟨"I1"⟩ ⟨⟨"m1"⟩, ⟨"(LI1;)V"⟩⟩ 0, .pair none (some ⟨"p"⟩)⟩,
            ⟨.cls ⟨"I2"⟩, .pair (some ⟨"I2"⟩) (some ⟨"y"⟩)⟩,
            ⟨.method ⟨"I2"⟩ ⟨⟨"m2"⟩, ⟨"(LI2;)V"⟩⟩, .pair (some ⟨"m2"⟩) (some ⟨"h"⟩)⟩]) := by
    cbv
  have straight : sharedOfficial.project "official" "obf"
      = .ok ((Table.empty ⟨#v["official", "obf"]⟩).declareAll
          [⟨.cls ⟨"a"⟩, .pair (some ⟨"a"⟩) (some ⟨"y"⟩)⟩,
            ⟨.method ⟨"a"⟩ ⟨⟨"g"⟩, ⟨"(La;)V"⟩⟩, .pair (some ⟨"g"⟩) (some ⟨"h"⟩)⟩,
            ⟨.parameter ⟨"a"⟩ ⟨⟨"g"⟩, ⟨"(La;)V"⟩⟩ 0, .pair none (some ⟨"p"⟩)⟩]) := by
    cbv
  exact ⟨coherent, bridged, _, _, _, to_middle, from_middle, straight,
    joinShared_projections (by decide) (by decide) bridged (by decide) (by decide) to_middle
      from_middle straight, by decide, by decide, by decide, by decide, by decide, by decide⟩

end NameTables
