import NameTables.Names
import NameTables.OrderedMap

/-! Tables of names.
A table holds classes, a class its fields and methods, and a method its parameters. Every entry
is stored under a key: a class under its first name, a member under its first name and
descriptor, and a parameter under its index. An entry repeats what its key is made of.
-/

namespace NameTables

variable {n : Nat}

/-- Fields may lack a descriptor. -/
structure FieldKey where
  name : FieldName
  descriptor : Option Descriptor
  deriving DecidableEq

structure MethodKey where
  name : MethodName
  descriptor : Descriptor
  deriving DecidableEq

structure Parameter (n : Nat) where
  index : UInt64
  names : Names n .parameter
  deriving DecidableEq

/-- The descriptor of a field is the one in the first namespace. -/
structure Field (n : Nat) where
  descriptor : Option Descriptor
  names : Names n .field
  deriving DecidableEq

/-- The descriptor of a method is the one in the first namespace. -/
structure Method (n : Nat) where
  descriptor : Descriptor
  names : Names n .method
  parameters : OrderedMap UInt64 (Parameter n)
  deriving DecidableEq

structure Class (n : Nat) where
  names : Names n .cls
  fields : OrderedMap FieldKey (Field n)
  methods : OrderedMap MethodKey (Method n)
  deriving DecidableEq

structure Table (n : Nat) where
  labels : Labels n
  classes : OrderedMap ClassName (Class n)
  deriving DecidableEq

/-- Parameters have no name at first, since their keys hold none. -/
def Parameter.keyed (index : UInt64) : Parameter n := ⟨index, .blank⟩

def Field.keyed (key : FieldKey) : Field n := ⟨key.descriptor, .keyed key.name⟩

def Method.keyed (key : MethodKey) : Method n := ⟨key.descriptor, .keyed key.name, .empty⟩

def Class.keyed (name : ClassName) : Class n := ⟨.keyed name, .empty, .empty⟩

def Table.empty (labels : Labels n) : Table n := ⟨labels, .empty⟩

-----------------------------------------------------------------------------------------
-- Lookup by key
-----------------------------------------------------------------------------------------

def Table.class? (table : Table n) (owner : ClassName) : Option (Class n) :=
  table.classes.get? owner

def Table.field? (table : Table n) (owner : ClassName) (key : FieldKey) : Option (Field n) := do
  (← table.class? owner).fields.get? key

def Table.method? (table : Table n) (owner : ClassName) (key : MethodKey)
    : Option (Method n) := do
  (← table.class? owner).methods.get? key

def Table.parameter? (table : Table n) (owner : ClassName) (key : MethodKey) (index : UInt64)
    : Option (Parameter n) := do
  (← table.method? owner key).parameters.get? index

-----------------------------------------------------------------------------------------
-- Entries of the whole table
-----------------------------------------------------------------------------------------

namespace Table

/-- The fields of all classes. -/
def fields (table : Table n) : List (Field n) :=
  table.classes.values.flatMap fun cls => cls.fields.values

/-- The methods of all classes. -/
def methods (table : Table n) : List (Method n) :=
  table.classes.values.flatMap fun cls => cls.methods.values

/-- The parameters of all methods. -/
def parameters (table : Table n) : List (Parameter n) :=
  table.methods.flatMap fun method => method.parameters.values

def fieldKeys (table : Table n) : List FieldKey :=
  table.classes.values.flatMap fun cls => cls.fields.keys

def methodKeys (table : Table n) : List MethodKey :=
  table.classes.values.flatMap fun cls => cls.methods.keys

end Table

/-- The method or one of its parameters has a target name. -/
def Method.isMapped (method : Method 2) : Bool :=
  method.names.target.isSome
    || method.parameters.values.any fun parameter => parameter.names.target.isSome

/-- The class has a target name, or one of its members is mapped. -/
def Class.isMapped (cls : Class 2) : Bool :=
  cls.names.target.isSome
    || (cls.fields.values.any fun field => field.names.target.isSome)
    || cls.methods.values.any Method.isMapped

-----------------------------------------------------------------------------------------
-- Agreement regardless of order
-----------------------------------------------------------------------------------------

def Method.agree (method method' : Method n) : Bool :=
  method.descriptor == method'.descriptor && method.names == method'.names
    && method.parameters.agree (· == ·) method'.parameters

def Class.agree (cls cls' : Class n) : Bool :=
  cls.names == cls'.names && cls.fields.agree (· == ·) cls'.fields
    && cls.methods.agree Method.agree cls'.methods

/-- The tables have the same labels and entries. -/
def Table.agree (table table' : Table n) : Bool :=
  table.labels == table'.labels && table.classes.agree Class.agree table'.classes

end NameTables
