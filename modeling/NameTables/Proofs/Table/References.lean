import Mathlib
import NameTables.Proofs.Table.Rekeys

/-! References renamed by way of a third namespace.
When no semicolon cuts a new name, a renamed descriptor is read again with the references at the
same places, so that renaming by way of a third namespace is renaming at once.
-/

namespace NameTables

variable {n : Nat}

-----------------------------------------------------------------------------------------
-- Classes on the way through a namespace
-----------------------------------------------------------------------------------------

namespace Table

variable {table : Table n} {source way target : Fin n}

/-- When all classes have a target name, the last class with a name tells the new one. -/
theorem find?_classMap_of_named
    (named : ∀ cls ∈ table.classes.values, (cls.names.get target).isSome = true)
    (name : ClassName)
    : (table.classMap source target).find? name
      = (lastNamed? Class.names source name table.classes.values).bind fun cls =>
          cls.names.get target := by
  have pairs_named : ∀ cls ∈ table.classes.values.reverse,
      (do return (← cls.names.get source, ← cls.names.get target) : Option _).any
          (fun pair => pair.1 = name)
        = decide (cls.names.get source = some name) := by
    intro cls listed
    obtain ⟨name', found⟩ := Option.isSome_iff_exists.mp (named cls (List.mem_reverse.mp listed))
    cases called : cls.names.get source <;> simp [found]
  rw [ClassMap.find?, classMap, ← List.filterMap_reverse, List.find?_filterMap,
    List.find?_congr pairs_named, lastNamed?]
  cases last : table.classes.values.reverse.find? fun cls => cls.names.get source = some name with
  | none => rfl
  | some cls =>
      have called : cls.names.get source = some name := by simpa using List.find?_some last
      cases found : cls.names.get target <;> simp [called, found]

/-- A class is renamed to the name of a class, or keeps its own. -/
theorem apply_classMap_cases (name : ClassName)
    : (∃ cls ∈ table.classes.values,
          cls.names.get target = some ((table.classMap source target).apply name))
      ∨ (table.classMap source target).apply name = name := by
  rw [ClassMap.apply]
  cases found : (table.classMap source target).find? name with
  | none => exact Or.inr rfl
  | some name' =>
      obtain ⟨pair, last, rfl⟩ := Option.map_eq_some_iff.mp found
      have listed := List.mem_reverse.mp (List.mem_of_find?_eq_some last)
      obtain ⟨cls, among, _, called⟩ := mem_classMap_iff.mp listed
      exact Or.inl ⟨cls, among, called⟩

/-- From a namespace to itself, nothing is renamed. -/
theorem apply_classMap_self (name : ClassName)
    : (table.classMap source source).apply name = name := by
  rw [ClassMap.apply]
  cases found : (table.classMap source source).find? name with
  | none => rfl
  | some name' =>
      obtain ⟨pair, last, rfl⟩ := Option.map_eq_some_iff.mp found
      have listed := List.mem_reverse.mp (List.mem_of_find?_eq_some last)
      obtain ⟨cls, _, called, called'⟩ := mem_classMap_iff.mp listed
      obtain rfl : pair.1 = name := by simpa using List.find?_some last
      exact Option.some.inj (called'.symm.trans called)

/-- A name that a class has in the source namespace, or none in the first two namespaces. -/
def KnownThrough (table : Table n) (source way : Fin n) (name : ClassName) : Prop :=
  (∃ cls ∈ table.classes.values, cls.names.get source = some name)
  ∨ ∀ cls ∈ table.classes.values,
      cls.names.get source ≠ some name ∧ cls.names.get way ≠ some name

/-- All classes have a name in the namespace on the way, pairwise different and without semicolons,
so that what is renamed to one of them is renamed further from there.
-/
structure Passable (table : Table n) (way : Fin n) : Prop where
  named : ∀ cls ∈ table.classes.values, (cls.names.get way).isSome = true
  distinct : (table.classes.values.map fun cls => cls.names.get way).Nodup
  uncut : ∀ cls ∈ table.classes.values, ∀ name ∈ cls.names.get way, ';' ∉ name.text.toList

namespace Passable

variable (passable : table.Passable way)

include passable

/-- The class that a name stands for is not lost on the way. -/
theorem apply_onward
    (named : ∀ cls ∈ table.classes.values, (cls.names.get target).isSome = true)
    {name : ClassName} (known : table.KnownThrough source way name)
    : (table.classMap way target).apply ((table.classMap source way).apply name)
      = (table.classMap source target).apply name := by
  rcases known with ⟨other, among, called⟩ | unknown
  · have some_class : (lastNamed? Class.names source name table.classes.values).isSome = true := by
      rw [lastNamed?, List.find?_isSome]
      exact ⟨other, List.mem_reverse.mpr among, decide_eq_true called⟩
    obtain ⟨cls, last⟩ := Option.isSome_iff_exists.mp some_class
    have listed : cls ∈ table.classes.values :=
      List.mem_reverse.mp (List.mem_of_find?_eq_some last)
    obtain ⟨between, found⟩ := Option.isSome_iff_exists.mp (passable.named cls listed)
    obtain ⟨name', found'⟩ := Option.isSome_iff_exists.mp (named cls listed)
    have first_step : (table.classMap source way).apply name = between := by
      rw [ClassMap.apply, find?_classMap_of_named passable.named, last, Option.bind_some, found,
        Option.getD_some]
    have at_once : (table.classMap source target).apply name = name' := by
      rw [ClassMap.apply, find?_classMap_of_named named, last, Option.bind_some, found',
        Option.getD_some]
    rw [first_step, at_once]
    exact apply_classMap passable.distinct listed found found'
  · have uncalled : (table.classMap source way).apply name = name :=
      apply_classMap_of_forall_ne fun cls listed => (unknown cls listed).1
    have uncalled' : (table.classMap source target).apply name = name :=
      apply_classMap_of_forall_ne fun cls listed => (unknown cls listed).1
    rw [uncalled, uncalled']
    exact apply_classMap_of_forall_ne fun cls listed => (unknown cls listed).2

/-- References are found again at their places, since no new name has a semicolon. -/
theorem renamed_onward
    (named : ∀ cls ∈ table.classes.values, (cls.names.get target).isSome = true)
    {descriptor : Descriptor}
    (known : ∀ name ∈ descriptor.references, table.KnownThrough source way name)
    : (descriptor.renamed (table.classMap source way).apply).renamed
          (table.classMap way target).apply
      = descriptor.renamed (table.classMap source target).apply := by
  have uncut (name : ClassName) (refers : name ∈ descriptor.references)
      : ';' ∉ ((table.classMap source way).apply name).text.toList := by
    rcases apply_classMap_cases name with ⟨cls, listed, called⟩ | kept
    · exact passable.uncut cls listed _ called
    · rw [kept]
      exact Descriptor.not_mem_of_mem_references refers
  rw [Descriptor.renamed_renamed uncut]
  apply Descriptor.renamed_congr
  intro name refers
  exact passable.apply_onward named (known name refers)

/-- Failures are the same as well, since only an open reference fails and none is opened. -/
theorem rename_onward
    (named : ∀ cls ∈ table.classes.values, (cls.names.get target).isSome = true)
    {descriptor : Descriptor}
    (known : ∀ name ∈ descriptor.references, table.KnownThrough source way name)
    : (descriptor.rename (table.classMap source way).apply >>= fun between =>
          between.rename (table.classMap way target).apply)
      = descriptor.rename (table.classMap source target).apply := by
  by_cases closed : descriptor.Closed
  · have onward := passable.renamed_onward named known
    have step_way : descriptor.rename (table.classMap source way).apply = .ok _ :=
      Descriptor.rename_eq_ok_iff.mpr ⟨closed, rfl⟩
    rw [step_way, Descriptor.rename_eq_ok_iff.mpr ⟨closed, rfl⟩]
    exact Descriptor.rename_eq_ok_iff.mpr ⟨closed.renamed _, onward.symm⟩
  · rw [Descriptor.rename_of_not_closed closed, Descriptor.rename_of_not_closed closed]
    rfl

end Passable

-----------------------------------------------------------------------------------------
-- Every way between two namespaces
-----------------------------------------------------------------------------------------

/-- Renaming by way of a third namespace has the result of renaming at once, a failure included,
and there and back nothing has changed.
-/
theorem rename_by_way {table : Table n} {source way target : Fin n}
    (passable : table.Passable way)
    (named
      : ∀ cls ∈ table.classes.values,
          (cls.names.get source).isSome = true ∧ (cls.names.get target).isSome = true)
    {descriptor : Descriptor}
    (known : ∀ name ∈ descriptor.references, table.KnownThrough source way name)
    : (descriptor.rename (table.classMap source way).apply >>= fun between =>
          between.rename (table.classMap way target).apply)
        = descriptor.rename (table.classMap source target).apply
      ∧ (descriptor.Closed
        → (descriptor.rename (table.classMap source way).apply >>= fun between =>
              between.rename (table.classMap way source).apply)
            = .ok descriptor) := by
  refine ⟨passable.rename_onward (fun cls listed => (named cls listed).2) known, fun closed => ?_⟩
  rw [passable.rename_onward (fun cls listed => (named cls listed).1) known]
  have unchanged : descriptor.renamed (table.classMap source source).apply = descriptor :=
    Descriptor.renamed_of_forall_eq apply_classMap_self descriptor
  exact Descriptor.rename_eq_ok_iff.mpr ⟨closed, unchanged.symm⟩

/-- Two classes share a name, and names of other classes begin with the letter that opens a
reference or are the same in two namespaces.
-/
def ambiguous : Table 3 :=
  (Table.empty ⟨#v["official", "merged", "named"]⟩).declareAll
    [⟨.cls ⟨"a"⟩, ⟨#v[some ⟨"a"⟩, some ⟨"pkg/Lib"⟩, some ⟨"LLib"⟩]⟩⟩,
      ⟨.cls ⟨"b"⟩, ⟨#v[some ⟨"b"⟩, some ⟨"pkg/Lib"⟩, some ⟨"pkg/Lib"⟩]⟩⟩,
      ⟨.cls ⟨"L"⟩, ⟨#v[some ⟨"L"⟩, some ⟨"LLib"⟩, some ⟨"pkg/List"⟩]⟩⟩]

/-- The second of the two classes is meant, and a class that is not listed stays. -/
theorem rename_by_way_ambiguous
    : ambiguous.Passable 2
      ∧ (∀ cls ∈ ambiguous.classes.values,
          (cls.names.get 1).isSome = true ∧ (cls.names.get 0).isSome = true)
      ∧ (∀ name ∈ Descriptor.references ⟨"(Lpkg/Lib;ILLLib;)LjavaL;"⟩,
          ambiguous.KnownThrough 1 2 name)
      ∧ (Descriptor.rename (ambiguous.classMap 1 2).apply ⟨"(Lpkg/Lib;ILLLib;)LjavaL;"⟩ >>=
            fun between => between.rename (ambiguous.classMap 2 0).apply)
          = .ok ⟨"(Lb;ILL;)LjavaL;"⟩
      ∧ (Descriptor.rename (ambiguous.classMap 1 2).apply ⟨"(Lpkg/Lib;ILLLib;)LjavaL;"⟩ >>=
            fun between => between.rename (ambiguous.classMap 2 1).apply)
          = .ok ⟨"(Lpkg/Lib;ILLLib;)LjavaL;"⟩ := by
  have passable : ambiguous.Passable 2 := by
    constructor <;> decide +kernel
  have named : ∀ cls ∈ ambiguous.classes.values,
      (cls.names.get 1).isSome = true ∧ (cls.names.get 0).isSome = true := by
    decide +kernel
  have known : ∀ name ∈ Descriptor.references ⟨"(Lpkg/Lib;ILLLib;)LjavaL;"⟩,
      ambiguous.KnownThrough 1 2 name := by
    unfold KnownThrough
    decide +kernel
  obtain ⟨at_once, back⟩ := rename_by_way passable named known
  refine ⟨passable, named, known, at_once.trans ?_, back (by decide +kernel)⟩
  cbv

end Table

end NameTables
