import NameTables.Table

/-! Members that cannot be written.
Both formats need the descriptor of every member that is mapped, and a table that lacks one is not
written at all.
-/

namespace NameTables

/-- The field is mapped and has no descriptor to write. -/
def Field.lacksDescriptor (field : Field 2) : Bool :=
  (field.descriptor.all fun descriptor => descriptor.text = "") && field.names.target.isSome

/-- The method is mapped and has no descriptor to write. -/
def Method.lacksDescriptor (method : Method 2) : Bool :=
  method.descriptor.text = "" && method.isMapped

/-- The first names of the members that lack a descriptor, the fields first. -/
def Class.lackingDescriptor (cls : Class 2) : List String :=
  ((cls.fields.values.filter Field.lacksDescriptor).map fun field =>
    (field.names.source.map Name.text).getD "")
    ++ (cls.methods.values.filter Method.lacksDescriptor).map fun method =>
      (method.names.source.map Name.text).getD ""

/-- The first member without a descriptor fails a table that is to be written. -/
def Table.checkDescriptors (table : Table 2) : Outcome Unit :=
  let lacking := table.classes.entries.flatMap fun (owner, cls) =>
    cls.lackingDescriptor.map (owner, ·)
  match lacking with
  | [] => .ok ()
  | (owner, member) :: _ => .fail (.missingDescriptor owner member)

end NameTables
