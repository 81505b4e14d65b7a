import NameTables.Arrangement
import NameTables.Format.Lacking
import NameTables.Format.Row
import NameTables.Nesting

/-! Writing the nested format.
A class is written with its full target name, then come its methods with their parameters, its
fields, and the classes nested in it. A class is left out if neither itself nor a class nested in
it is mapped.
-/

namespace NameTables.Nested

def headerRow (source target : String) : Row := ⟨0, "tiny", ["2", "0", source, target]⟩

def parameterRow? (parameter : Parameter 2) : Option Row := do
  let target ← parameter.names.target
  return ⟨2, "p", [toString parameter.index.toNat, "", target.text]⟩

/-- The mapped parameters by index. -/
def parameterRows (method : Method 2) : List Row :=
  let mapped := method.parameters.values.filter fun p => p.names.target.isSome
  (sortBy (fun p p' => compare p.index p'.index) mapped).filterMap parameterRow?

/-- A method without a target name of its own keeps its name. -/
def methodRows (method : Method 2) : List Row :=
  match method.names.source with
  | none => []
  | some source =>
      let target := method.names.target.getD source
      ⟨1, "m", [method.descriptor.text, source.text, target.text]⟩ :: parameterRows method

def fieldRow? (field : Field 2) : Option Row := do
  let source ← field.names.source
  let target ← field.names.target
  let descriptor ← field.descriptor
  return ⟨1, "f", [descriptor.text, source.text, target.text]⟩

/-- The methods of a class called `owner`, and then its fields. -/
def memberRows (arrangement : Arrangement) (owner : ClassName) (cls : Class 2) : List Row :=
  let methods := (cls.methods.values.filter Method.isMapped).map (Member.mk owner)
  let fields := cls.fields.values.filter fun field => field.names.target.isSome
  (arrangement.sortMethods methods).flatMap (fun method => methodRows method.item)
    ++ (arrangement.sortFields (fields.map (Member.mk owner))).filterMap
      fun field => fieldRow? field.item

/-- The rows of the mapped ones of `classes`, each followed by those of the classes nested in
it at most `depth` levels below.
-/
def classRows (table : Table 2) (arrangement : Arrangement) (nesting : Nesting)
    : Nat → List (Class 2) → List Row
  | 0, _ => []
  | depth + 1, classes =>
      (arrangement.sortClasses (classes.filter nesting.isMapped)).flatMap fun cls =>
        match cls.names.source with
        | none => []
        | some owner =>
            ⟨0, "c", [owner.text, (table.fullTarget owner).text]⟩
              :: memberRows arrangement owner cls
              ++ classRows table arrangement nesting depth (nesting.inside (some owner))

/-- All classes, from those that are nested in none. -/
def body (table : Table 2) (arrangement : Arrangement) : List Row :=
  let nesting := Nesting.ofTable table
  classRows table arrangement nesting nesting.classes.length (nesting.inside none)

/-- The text of a file with the table, under the labels `source` and `target`. -/
def write (table : Table 2) (source target : String) (arrangement : Arrangement)
    : Outcome String := do
  table.checkDescriptors
  return Row.renderAll (headerRow source target :: body table arrangement)

end NameTables.Nested
