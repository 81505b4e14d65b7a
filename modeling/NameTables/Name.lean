import NameTables.Text.Quoted
import NameTables.Text.Split

/-! Names and descriptors.
A name is plain text, of any content, and its type tells what it names. The name of a nested class
is that of the enclosing class, a `$`, and a simple name.
-/

namespace NameTables

/-- What can be named. -/
inductive Kind
  | cls
  | field
  | method
  | parameter
  deriving DecidableEq

structure Name (kind : Kind) where
  text : String
  deriving DecidableEq

/-- The full name of a class, with `/` between packages. -/
abbrev ClassName := Name .cls

abbrev FieldName := Name .field

abbrev MethodName := Name .method

abbrev ParameterName := Name .parameter

/-- The type of a field, or the parameter and result types of a method. -/
structure Descriptor where
  text : String
  deriving DecidableEq

/-- The word for a kind of name in messages. -/
def Kind.word : Kind → String
  | .cls => "ClassName"
  | .field => "FieldName"
  | .method => "MethodName"
  | .parameter => "ParameterName"

/-- The text of a name of kind `kind` in messages. -/
def Kind.display (kind : Kind) (text : String) : String :=
  kind.word ++ "(" ++ Text.quote text ++ ")"

/-- The texts of optional names in messages. -/
def Kind.displaySlots (kind : Kind) (slots : List (Option String)) : String :=
  Text.bracket <| slots.map fun
    | some text => "Some(" ++ kind.display text ++ ")"
    | none => "None"

namespace Name

@[ext]
theorem ext {kind : Kind} {name name' : Name kind} (h : name.text = name'.text)
    : name = name' := by
  cases name
  cases name'
  cases h
  rfl

protected def compare {kind : Kind} (name name' : Name kind) : Ordering :=
  compare name.text name'.text

/-- The name of the class `simple` nested in `outer`. -/
def nested (outer : ClassName) (simple : String) : ClassName :=
  ⟨outer.text ++ "$" ++ simple⟩

/-- A name splits at its last `$` unless a part is empty, the first one ends with a package, or
the second one has a package.
-/
def splitChars? (chars : List Char) : Option (List Char × List Char) :=
  (Text.splitAtLast '$' chars).filter fun (outer, simple) =>
    !outer.isEmpty && !simple.isEmpty && outer.getLast? != some '/' && !simple.contains '/'

/-- The enclosing class and the simple name of a nested class. -/
def split? (name : ClassName) : Option (ClassName × String) :=
  (splitChars? name.text.toList).map fun (outer, simple) =>
    (⟨String.ofList outer⟩, String.ofList simple)

theorem splitChars?_eq_some_iff {chars outer simple : List Char}
    : splitChars? chars = some (outer, simple)
      ↔ chars = outer ++ '$' :: simple ∧ outer ≠ [] ∧ outer.getLast? ≠ some '/'
        ∧ simple ≠ [] ∧ '$' ∉ simple ∧ '/' ∉ simple := by
  simp only [splitChars?, Option.filter_eq_some_iff, Text.splitAtLast_eq_some_iff]
  simp only [Bool.and_eq_true, Bool.not_eq_true', List.isEmpty_eq_false_iff, bne_iff_ne,
    List.contains_eq_mem, decide_eq_false_iff_not]
  grind

/-- The enclosing class has a shorter name. -/
theorem length_lt_of_split? {name outer : ClassName} {simple : String}
    (h : name.split? = some (outer, simple))
    : outer.text.toList.length < name.text.toList.length := by
  simp only [split?, Option.map_eq_some_iff] at h
  obtain ⟨⟨before, after⟩, split, same⟩ := h
  have whole := (splitChars?_eq_some_iff.mp split).1
  simp only [Prod.mk.injEq] at same
  rw [← same.1, whole]
  simp only [String.toList_ofList, List.length_append, List.length_cons]
  omega

/-- The names of all enclosing classes, the innermost first. -/
def enclosing (name : ClassName) : List ClassName :=
  match h : name.split? with
  | some (outer, _) =>
      have := length_lt_of_split? h
      outer :: outer.enclosing
  | none => []
termination_by name.text.toList.length

theorem enclosing_of_split? {name outer : ClassName} {simple : String}
    (h : name.split? = some (outer, simple))
    : name.enclosing = outer :: outer.enclosing := by
  rw [enclosing]
  split
  · next found =>
    rw [h] at found
    simp only [Option.some.injEq, Prod.mk.injEq] at found
    rw [found.1]
  · next absent => simp [h] at absent

theorem enclosing_of_split?_eq_none {name : ClassName} (h : name.split? = none)
    : name.enclosing = [] := by
  rw [enclosing]
  split
  · next found => simp [h] at found
  · rfl

/-- Every enclosing class has a shorter name. -/
theorem length_lt_of_mem_enclosing {name outer : ClassName} (h : outer ∈ name.enclosing)
    : outer.text.toList.length < name.text.toList.length := by
  fun_induction enclosing name with
  | case1 name next simple split shorter ih =>
    rcases List.mem_cons.mp h with rfl | further
    · exact shorter
    · exact Nat.lt_trans (ih further) shorter
  | case2 => simp at h

end Name

end NameTables
