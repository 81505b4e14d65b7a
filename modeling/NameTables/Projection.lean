import NameTables.Table.Rekey

/-! Projections of a table onto two of its namespaces.
Every entry moves to its key in the source namespace, and keeps its name in the target namespace.
Of several entries on one key, the last one decides, even if it has no target name.
-/

namespace NameTables

variable {n : Nat}

/-- What an entry declares in the projection. Parameters need no name in the source namespace. -/
def Entry.projected (rekey : Rekey n) (target : Fin n)
    : Entry n → Outcome (Option (Declaration 2))
  | .cls c => .ok do
      let name ← rekey.classKey c
      return ⟨.cls name, .pair (some name) (c.names.get target)⟩
  | .field c f => do
      let key ← rekey.fieldKey c f
      return key.map fun (owner, key) =>
        ⟨.field owner key, .pair (some key.name) (f.names.get target)⟩
  | .method c m => do
      let key ← rekey.methodKey c m
      return key.map fun (owner, key) =>
        ⟨.method owner key, .pair (some key.name) (m.names.get target)⟩
  | .parameter c m p => do
      match ← rekey.methodKey c m with
      | none => return none
      | some (owner, key) =>
          let names ← Names.ofPair (p.names.get rekey.column) (p.names.get target)
          return some ⟨.parameter owner key p.index, names⟩

/-- The table that maps the names in one labelled namespace to those in another. -/
def Table.project (table : Table n) (source target : String) : Outcome (Table 2) := do
  let sourceColumn ← table.labels.resolve source
  let targetColumn ← table.labels.resolve target
  let labels ← Labels.pair source target
  let declarations ←
    table.entries.mapM (Entry.projected (.ofTable table sourceColumn) targetColumn)
  return (Table.empty labels).declareAll (declarations.filterMap id)

end NameTables
