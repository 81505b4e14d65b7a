import NameTables.Table

/-! The order of entries and keys by content.
Members compare by descriptor and then by names, parameters by index and then by names, keys by name
and then by descriptor. What is absent comes first, and text compares by code points.
-/

namespace NameTables

variable {n : Nat}

/-- Absent before present. -/
def compareOption {α : Type} (compare : α → α → Ordering) : Option α → Option α → Ordering
  | none, none => .eq
  | none, some _ => .lt
  | some _, none => .gt
  | some a, some b => compare a b

/-- Lists compare item by item, and a shorter one comes before those it begins. -/
def compareList {α : Type} (compare : α → α → Ordering) : List α → List α → Ordering
  | [], [] => .eq
  | [], _ :: _ => .lt
  | _ :: _, [] => .gt
  | a :: as, b :: bs => (compare a b).then (compareList compare as bs)

def Names.compare {kind : Kind} (names names' : Names n kind) : Ordering :=
  compareList (compareOption Name.compare) names.toList names'.toList

def Descriptor.compare (descriptor descriptor' : Descriptor) : Ordering :=
  Ord.compare descriptor.text descriptor'.text

def Class.compare (cls cls' : Class n) : Ordering := cls.names.compare cls'.names

def Field.compare (field field' : Field n) : Ordering :=
  (compareOption Descriptor.compare field.descriptor field'.descriptor).then
    (field.names.compare field'.names)

def Method.compare (method method' : Method n) : Ordering :=
  (method.descriptor.compare method'.descriptor).then (method.names.compare method'.names)

def Parameter.compare (parameter parameter' : Parameter n) : Ordering :=
  (Ord.compare parameter.index parameter'.index).then (parameter.names.compare parameter'.names)

def FieldKey.compare (key key' : FieldKey) : Ordering :=
  (key.name.compare key'.name).then
    (compareOption Descriptor.compare key.descriptor key'.descriptor)

def MethodKey.compare (key key' : MethodKey) : Ordering :=
  (key.name.compare key'.name).then (key.descriptor.compare key'.descriptor)

/-- Sorts by a comparison, and keeps the order of what compares equal. -/
def sortBy {α : Type} (compare : α → α → Ordering) (items : List α) : List α :=
  items.mergeSort fun a b => (compare a b).isLE

end NameTables
