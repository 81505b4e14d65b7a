import NameTables.Descriptor
import NameTables.Table.Index
import NameTables.Table.Path

/-! The entries of a table under the names of another namespace.
An entry moves to the key made of its name in that namespace and of its descriptor with all
classes renamed. Without such a name it has no key there, and neither have the members of a class
without one.
-/

namespace NameTables

variable {n : Nat}

/-- An entry of a table with what it belongs to. -/
inductive Entry (n : Nat)
  | cls (cls : Class n)
  | field (owner : Class n) (field : Field n)
  | method (owner : Class n) (method : Method n)
  | parameter (owner : Class n) (method : Method n) (parameter : Parameter n)

/-- A method, followed by its parameters. -/
def Method.entries (owner : Class n) (method : Method n) : List (Entry n) :=
  .method owner method :: method.parameters.values.map (.parameter owner method)

/-- A class, followed by its fields and its methods. -/
def Class.entries (cls : Class n) : List (Entry n) :=
  .cls cls :: cls.fields.values.map (.field cls)
    ++ cls.methods.values.flatMap (Method.entries cls)

def Table.entries (table : Table n) : List (Entry n) :=
  table.classes.values.flatMap Class.entries

/-- The namespace that keys are taken from, and the names of classes there. -/
structure Rekey (n : Nat) where
  column : Fin n
  newName : ClassName → ClassName

namespace Rekey

/-- Class names in descriptors are those of the first namespace. -/
def ofTable (table : Table n) (column : Fin n) : Rekey n :=
  ⟨column, (table.classMap ⟨0, Nat.zero_lt_of_lt column.isLt⟩ column).apply⟩

def classKey (rekey : Rekey n) (cls : Class n) : Option ClassName := cls.names.get rekey.column

def fieldKey (rekey : Rekey n) (owner : Class n) (field : Field n)
    : Outcome (Option (ClassName × FieldKey)) :=
  match owner.names.get rekey.column, field.names.get rekey.column with
  | some ownerName, some name =>
      match field.descriptor with
      | none => .ok (some (ownerName, ⟨name, none⟩))
      | some descriptor => do
          let descriptor ←
            (descriptor.rename rekey.newName).within (.fieldDescriptor name ownerName)
          return some (ownerName, ⟨name, some descriptor⟩)
  | _, _ => .ok none

def methodKey (rekey : Rekey n) (owner : Class n) (method : Method n)
    : Outcome (Option (ClassName × MethodKey)) :=
  match owner.names.get rekey.column, method.names.get rekey.column with
  | some ownerName, some name => do
      let descriptor ←
        (method.descriptor.rename rekey.newName).within (.methodDescriptor name ownerName)
      return some (ownerName, ⟨name, descriptor⟩)
  | _, _ => .ok none

end Rekey

end NameTables
