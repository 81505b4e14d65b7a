import NameTables.Table.Ranking

/-! The order in which entries are written.
Unless told otherwise, classes stand by their first name, fields by their full name and then by
descriptor, and methods by their full name followed by the descriptor.
-/

namespace NameTables

/-- A field or method and the class that it is written for. -/
structure Member (α : Type) where
  owner : ClassName
  item : α

/-- The name of a member behind that of its class. -/
def fullMemberName {kind : Kind} (owner : ClassName) (name : Option (Name kind)) : String :=
  owner.text ++ "/" ++ (name.map Name.text).getD ""

def Member.fieldName (member : Member (Field 2)) : String :=
  fullMemberName member.owner member.item.names.source

def Member.methodName (member : Member (Method 2)) : String :=
  fullMemberName member.owner member.item.names.source

/-- How classes, fields and methods compare. What compares equal keeps its order. -/
structure Arrangement where
  classes : Class 2 → Class 2 → Ordering
  fields : Member (Field 2) → Member (Field 2) → Ordering
  methods : Member (Method 2) → Member (Method 2) → Ordering

namespace Arrangement

def byName : Arrangement where
  classes cls cls' := compareOption Name.compare cls.names.source cls'.names.source
  fields field field' :=
    (compare field.fieldName field'.fieldName).then
      (compareOption Descriptor.compare field.item.descriptor field'.item.descriptor)
  methods method method' :=
    compare (method.methodName ++ method.item.descriptor.text)
      (method'.methodName ++ method'.item.descriptor.text)

def sortClasses (arrangement : Arrangement) (classes : List (Class 2)) : List (Class 2) :=
  sortBy arrangement.classes classes

def sortFields (arrangement : Arrangement) (fields : List (Member (Field 2)))
    : List (Member (Field 2)) :=
  sortBy arrangement.fields fields

def sortMethods (arrangement : Arrangement) (methods : List (Member (Method 2)))
    : List (Member (Method 2)) :=
  sortBy arrangement.methods methods

end Arrangement

end NameTables
