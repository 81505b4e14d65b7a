import NameTables.Arrangement
import NameTables.Format.Lacking
import NameTables.Format.Row

/-! Writing the flat format.
All classes come first, then all fields, then all methods, and only what has a target name.
-/

namespace NameTables.Flat

def headerRow (source target : String) : Row := ⟨0, "v1", [source, target]⟩

def classRow? (cls : Class 2) : Option Row := do
  return ⟨0, "CLASS", [(← cls.names.source).text, (← cls.names.target).text]⟩

def fieldRow? (field : Member (Field 2)) : Option Row := do
  let source ← field.item.names.source
  let target ← field.item.names.target
  let descriptor ← field.item.descriptor
  return ⟨0, "FIELD", [field.owner.text, descriptor.text, source.text, target.text]⟩

def methodRow? (method : Member (Method 2)) : Option Row := do
  let source ← method.item.names.source
  let target ← method.item.names.target
  return ⟨0, "METHOD",
    [method.owner.text, method.item.descriptor.text, source.text, target.text]⟩

/-- The classes to write. -/
def classes (table : Table 2) : List (Class 2) :=
  table.classes.values.filter fun cls => cls.names.target.isSome

/-- The fields to write, with the keys of their classes. -/
def fields (table : Table 2) : List (Member (Field 2)) :=
  table.classes.entries.flatMap fun (owner, cls) =>
    (cls.fields.values.filter fun field => field.names.target.isSome).map (⟨owner, ·⟩)

/-- The methods to write, with the keys of their classes. -/
def methods (table : Table 2) : List (Member (Method 2)) :=
  table.classes.entries.flatMap fun (owner, cls) =>
    (cls.methods.values.filter fun method => method.names.target.isSome).map (⟨owner, ·⟩)

def body (table : Table 2) (arrangement : Arrangement) : List Row :=
  (arrangement.sortClasses (classes table)).filterMap classRow?
    ++ (arrangement.sortFields (fields table)).filterMap fieldRow?
    ++ (arrangement.sortMethods (methods table)).filterMap methodRow?

/-- The text of a file with the table, under the labels `source` and `target`. -/
def write (table : Table 2) (source target : String) (arrangement : Arrangement)
    : Outcome String := do
  table.checkDescriptors
  return Row.renderAll (headerRow source target :: body table arrangement)

end NameTables.Flat
