import NameTables.Proofs.Nested.Comments
import NameTables.Proofs.Table.Content

/-! What a nested file says.
The owner of a record is told by the indentation and the tags of the records before it. The table of
a file has what its records declare: the keys in the order of their first declarations, and the
names of the last ones.
-/

namespace NameTables

variable {n : Nat}

-----------------------------------------------------------------------------------------
-- Tables told by lists of declarations
-----------------------------------------------------------------------------------------

/-- The class that a path leads to. -/
def Path.class? : Path → Option ClassName
  | .cls owner => some owner
  | _ => none

/-- The method of `owner` that a path leads to, but not through. -/
def Path.method? (owner : ClassName) : Path → Option MethodKey
  | .method other key => if other = owner then some key else none
  | _ => none

/-- (table.Lists declarations) says that a table has what is declared and nothing else. In every
owner the keys stand in the order of their first declarations, and every entry has its key and the
names of its last declaration.
-/
structure Table.Lists (table : Table n) (declarations : List (Declaration n)) : Prop where
  classes
    : table.classes.keys
      = (declarations.filterMap fun declaration => declaration.path.class?).eraseDups
  fields
    : ∀ owner, (table.fieldsOf owner).keys
      = (declarations.filterMap fun declaration => declaration.path.fieldKey? owner).eraseDups
  methods
    : ∀ owner, (table.methodsOf owner).keys
      = (declarations.filterMap fun declaration => declaration.path.method? owner).eraseDups
  parameters
    : ∀ owner key, (table.parametersOf owner key).keys
      = (declarations.filterMap fun declaration => declaration.path.index? owner key).eraseDups
  names : ∀ path, table.names? path = lastDeclared? declarations path
  coherent : table.Coherent

/-- There is only one such table. -/
theorem Table.Lists.unique {table table' : Table n} {declarations : List (Declaration n)}
    (lists : table.Lists declarations) (lists' : table'.Lists declarations)
    (labels_eq : table.labels = table'.labels)
    : table = table' := by
  apply lists.coherent.described.eq_of_sameKeys lists'.coherent.described labels_eq
  · constructor
    · rw [lists.classes, lists'.classes]
    · exact fun owner => (lists.fields owner).trans (lists'.fields owner).symm
    · exact fun owner => (lists.methods owner).trans (lists'.methods owner).symm
    · exact fun owner key => (lists.parameters owner key).trans (lists'.parameters owner key).symm
  · intro path names names' found found'
    rw [lists.names] at found
    rw [lists'.names, found] at found'
    exact Option.some.inj found'

-----------------------------------------------------------------------------------------
-- What a row says
-----------------------------------------------------------------------------------------

/-- (path.SpelledBy cells) says that a row at the path has these cells in front of its names. Only
indices have more than one spelling.
-/
def Path.SpelledBy : Path → List String → Prop
  | .parameter _ _ index, cells => ∃ text, cells = [text] ∧ parameterIndex text = .ok index
  | path, cells => cells = path.cells

/-- (row.Says declaration) says that a row has the cells of a declaration: its tag, what the key has
besides the name, and the names, empty where there is none. The owner is not in the row.
-/
structure Row.Says (row : Row) (declaration : Declaration n) : Prop where
  tag : row.tag = declaration.path.tag
  fields
    : ∃ cells, declaration.path.SpelledBy cells
        ∧ row.fields = cells ++ declaration.names.cells
  readable : declaration.Readable

/-- Names that are read come from the cells. -/
theorem Record.names_cells_of_eq_ok {kind : Kind} {record : Record} {names : Names n kind}
    (read : record.names n kind = .ok names)
    : record.fields = names.cells ∧ names.Filled := by
  obtain ⟨texts, fields, rfl⟩ := names_eq_ok_iff.mp read
  exact ⟨fields.trans (Names.cells_ofTexts texts).symm, Names.filled_ofTexts texts⟩

theorem Record.keyedNames_cells_of_eq_ok {kind : Kind} {record : Record} {name : Name kind}
    {names : Names n kind} (read : record.keyedNames n kind = .ok (name, names))
    : record.fields = names.cells ∧ names.first? = some name ∧ names.Filled := by
  obtain ⟨named, first⟩ := keyedNames_eq_ok_iff.mp read
  obtain ⟨fields, filled⟩ := names_cells_of_eq_ok named
  exact ⟨fields, first, filled⟩

namespace Nested

/-- A record says what it declares, whatever owner it has. -/
theorem Declares.says {owner : Option Path} {record : Record} {declaration : Declaration n}
    (declares : Declares n owner record (some declaration))
    : record.toRow.Says declaration := by
  cases declares with
  | cls tag keyed =>
      obtain ⟨fields, first, filled⟩ := Record.keyedNames_cells_of_eq_ok keyed
      exact ⟨tag, ⟨[], rfl, fields⟩, ⟨trivial, first, filled⟩⟩
  | field tag described keyed =>
      obtain ⟨text, taken, descriptor_eq⟩ := Record.takeFieldDescriptor_eq_ok_iff.mp described
      obtain ⟨fields, first, filled⟩ := Record.keyedNames_cells_of_eq_ok keyed
      have whole := (Record.take_eq_ok_iff.mp taken).1
      rw [fields] at whole
      by_cases empty : text = ""
      · rw [if_pos empty] at descriptor_eq
        subst empty descriptor_eq
        exact ⟨tag, ⟨[""], rfl, whole⟩, ⟨by simp [Path.Readable], first, filled⟩⟩
      · rw [if_neg empty] at descriptor_eq
        subst descriptor_eq
        exact ⟨tag, ⟨[text], rfl, whole⟩, ⟨by simpa [Path.Readable] using empty, first, filled⟩⟩
  | method tag described keyed =>
      obtain ⟨taken, nonempty⟩ := Record.takeMethodDescriptor_eq_ok_iff.mp described
      obtain ⟨fields, first, filled⟩ := Record.keyedNames_cells_of_eq_ok keyed
      have whole := (Record.take_eq_ok_iff.mp taken).1
      rw [fields] at whole
      exact ⟨tag, ⟨_, rfl, whole⟩, ⟨nonempty, first, filled⟩⟩
  | parameter tag taken indexed named =>
      obtain ⟨fields, filled⟩ := Record.names_cells_of_eq_ok named
      have whole := (Record.take_eq_ok_iff.mp taken).1
      rw [fields] at whole
      exact ⟨tag, ⟨_, ⟨_, rfl, indexed⟩, whole⟩, ⟨trivial, trivial, filled⟩⟩

/-- Keys that paths only lead through add nothing, since they were declared before. By induction on
the paths, behind the keys of what is open.
-/
theorem Ordered.eraseDups_filterMap {κ : Type} [DecidableEq κ] {used own : Path → Option κ}
    (through
      : ∀ path, used path = own path
          ∨ own path = none ∧ ∃ owner ∈ path.above, used path = own owner)
    {opened paths : List Path} (ordered : Ordered opened paths) (front : List κ)
    (declared : ∀ path ∈ opened, (own path).toList ⊆ front)
    : (front ++ paths.filterMap used).eraseDups = (front ++ paths.filterMap own).eraseDups := by
  induction paths generalizing opened front with
  | nil => rfl
  | cons path rest ih =>
      obtain ⟨above, later⟩ := ordered
      have split (key? : Path → Option κ)
          : (path :: rest).filterMap key? = (key? path).toList ++ rest.filterMap key? := by
        cases found : key? path <;> simp [found]
      have next := ih later (front ++ (own path).toList) (by
        intro other member
        rcases List.mem_append.mp member with higher | here
        · exact List.subset_append_of_subset_left _ (declared other (above.subset higher))
        · obtain rfl := List.mem_singleton.mp here
          exact List.subset_append_right ..)
      have same : (front ++ (used path).toList).eraseDups
          = (front ++ (own path).toList).eraseDups := by
        rcases through path with same | ⟨none_here, owner, higher, same⟩
        · rw [same]
        · rw [same, none_here, Option.toList_none, List.append_nil]
          exact OrderedMap.eraseDups_append_of_subset (declared owner (above.subset higher))
      rw [split, split, ← List.append_assoc, ← List.append_assoc,
        ← OrderedMap.eraseDups_eraseDups_append, same, OrderedMap.eraseDups_eraseDups_append, next]

/-- Declarations in such an order list the table that they make. -/
theorem declareAll_lists (labels : Labels n) (positive : 0 < n)
    {declarations : List (Declaration n)}
    (ordered : Ordered [] (declarations.map Declaration.path))
    (fit : ∀ declaration ∈ declarations, declaration.path.Fits declaration.names)
    : ((Table.empty labels).declareAll declarations).Lists declarations := by
  have declared {κ : Type} [DecidableEq κ] (used own : Path → Option κ)
      (through
        : ∀ path, used path = own path
            ∨ own path = none ∧ ∃ owner ∈ path.above, used path = own owner)
      : (([] : List κ) ++ (declarations.map Declaration.edit).filterMap fun edit =>
            used edit.path).eraseDups
        = (declarations.filterMap fun declaration => own declaration.path).eraseDups := by
    have keys_eq := ordered.eraseDups_filterMap through [] (by simp)
    rw [List.filterMap_map, List.filterMap_map] at keys_eq
    rw [List.filterMap_map]
    exact keys_eq
  have coherent := Table.declareAll_coherent labels positive fit
  have names := Table.names?_declareAll labels ordered.ownersDeclared
  rw [Table.declareAll_eq_applyAll] at coherent names ⊢
  refine ⟨?_, ?_, ?_, ?_, names, coherent⟩
  · rw [Table.classKeys_applyAll, ← List.filterMap_eq_map']
    apply declared (fun path => some path.owner) Path.class?
    intro path
    cases path with
    | cls => exact Or.inl rfl
    | field | method | parameter => exact Or.inr ⟨rfl, _, List.mem_cons_self, rfl⟩
  · intro owner
    rw [Table.fieldKeys_applyAll]
    exact declared (Path.fieldKey? owner) (Path.fieldKey? owner) fun _ => Or.inl rfl
  · intro owner
    rw [Table.methodKeys_applyAll]
    apply declared (Path.methodKey? owner) (Path.method? owner)
    intro path
    cases path with
    | cls | field | method => exact Or.inl rfl
    | parameter other key index =>
        exact Or.inr ⟨rfl, .method other key, by simp [Path.above], rfl⟩
  · intro owner key
    rw [Table.parameterIndices_applyAll]
    exact declared (Path.index? owner key) (Path.index? owner key) fun _ => Or.inl rfl

-----------------------------------------------------------------------------------------
-- Owners told by the records before
-----------------------------------------------------------------------------------------

/-- A record and what it declares, nothing if it is a comment. -/
structure Statement (n : Nat) where
  record : Record
  declared : Option (Declaration n)

/-- What is declared by the last of some records, those that `among` picks. -/
def nearest? (front : List (Statement n)) (among : Record → Bool) : Option Path :=
  ((front.filter fun earlier => among earlier.record).getLast?.bind Statement.declared).map
    Declaration.path

/-- The entry that a record belongs to. That of a parameter is the method of the nearest `m` record
before it, and that of every other indented record the class of the nearest one that is not
indented.
-/
def ownerBehind (front : List (Statement n)) (record : Record) : Option Path :=
  if record.depth = 0 then none
  else if record.tag = "p" then nearest? front fun earlier => earlier.tag = "m"
  else nearest? front fun earlier => earlier.depth = 0

theorem nearest?_concat (front : List (Statement n)) (statement : Statement n)
    (among : Record → Bool)
    : nearest? (front ++ [statement]) among
      = if among statement.record then statement.declared.map Declaration.path
        else nearest? front among := by
  rw [nearest?, List.filter_append]
  split
  · next picked => simp [picked]
  · next passed => simp [passed, nearest?]

/-- (statement.Follows front) says that a statement may stand behind these. It is a comment, or its
record says what is declared below the owner that they tell.
-/
def Statement.Follows (statement : Statement n) (front : List (Statement n)) : Prop :=
  match statement.declared with
  | some declaration =>
      declaration.path.above.getLast? = ownerBehind front statement.record
        ∧ statement.record.toRow.Says declaration
  | none => 0 < statement.record.depth ∧ statement.record.tag = "c"

theorem Declares.owner_eq {owner : Option Path} {record : Record} {declaration : Declaration n}
    (declares : Declares n owner record (some declaration))
    : declaration.path.above.getLast? = owner := by
  cases declares <;> rfl

/-- What a record declares is directly in the owner. -/
theorem Declares.above_eq {owner : Option Path} {record : Record} {declaration : Declaration n}
    (declares : Declares n owner record (some declaration))
    : declaration.path.above = (owner.map trail).getD [] := by
  cases declares <;> rfl

/-- Each of the open entries is directly in those before it. -/
def Chained (opened : List Path) : Prop :=
  ∀ front path, front ++ [path] <+: opened → path.above = front

theorem chained_nil : Chained [] := by
  intro front path begins
  simp at begins

theorem Chained.of_prefix {opened opened' : List Path} (chained : Chained opened)
    (begins : opened' <+: opened)
    : Chained opened' :=
  fun front path begins' => chained front path (begins'.trans begins)

theorem Chained.concat {opened : List Path} (chained : Chained opened) {path : Path}
    (above : path.above = opened)
    : Chained (opened ++ [path]) := by
  intro front other begins
  rcases List.prefix_concat_iff.mp begins with whole | inside
  · obtain ⟨rfl, same⟩ := List.append_inj' whole rfl
    obtain rfl := List.singleton_inj.mp same
    exact above
  · exact chained front other inside

/-- The last of them tells all the others. -/
theorem Chained.eq_trail {opened : List Path} (chained : Chained opened)
    : opened = (opened.getLast?.map trail).getD [] := by
  rcases List.eq_nil_or_concat opened with rfl | ⟨front, path, rfl⟩
  · rfl
  · rw [List.concat_eq_append] at chained ⊢
    rw [List.getLast?_concat, Option.map_some, Option.getD_some, trail,
      chained front path (List.prefix_refl _)]

section Chained

variable {progress : Progress n} {record : Record} {declared : Option (Declaration n)}

/-- What is around a record is told by its owner. -/
theorem Chained.around_eq (chained : Chained progress.paths) (depth : Nat)
    : progress.paths.take depth = ((progress.ownerAt depth).map trail).getD [] := by
  rw [Progress.ownerAt_eq]
  exact (chained.of_prefix (List.take_prefix _ _)).eq_trail

/-- What a record declares is directly in what is around it. -/
theorem Chained.above_eq (chained : Chained progress.paths) {declaration : Declaration n}
    (declares : Declares n (progress.ownerAt record.depth) record (some declaration))
    : declaration.path.above = progress.paths.take record.depth :=
  declares.above_eq.trans (chained.around_eq record.depth).symm

theorem Chained.advance (chained : Chained progress.paths)
    (declares : Declares n (progress.ownerAt record.depth) record declared)
    : Chained (progress.advance record declared).paths := by
  have around := chained.of_prefix (List.take_prefix record.depth _)
  cases declared with
  | none =>
      rw [Progress.paths_advance_none]
      exact around
  | some declaration =>
      rw [Progress.paths_advance_some]
      exact around.concat (chained.above_eq declares)

end Chained

/-- (Tracks front progress) says that the open entries are those that the records so far tell: the
first one is the nearest class, and a method among them is the nearest one.
-/
structure Tracks (front : List (Statement n)) (progress : Progress n) : Prop where
  chained : Chained progress.paths
  cls : progress.paths.head? = nearest? front fun earlier => earlier.depth = 0
  method
    : ∀ owner key, .method owner key ∈ progress.paths
        → nearest? front (fun earlier => earlier.tag = "m") = some (.method owner key)

theorem tracks_nil (table : Table n) : Tracks [] ⟨table, []⟩ where
  chained := chained_nil
  cls := rfl
  method _ _ member := absurd member List.not_mem_nil

section Tracks

variable {front : List (Statement n)} {progress : Progress n} {record : Record}
  {declared : Option (Declaration n)}

/-- The class around an indented record is the nearest one. -/
theorem Tracks.ownerBehind_eq (tracks : Tracks front progress) (indented : record.depth ≠ 0)
    (other : record.tag ≠ "p")
    : ownerBehind front record = (progress.paths.take record.depth).head? := by
  rw [ownerBehind, if_neg indented, if_neg other, ← tracks.cls, List.head?_take, if_neg indented]

/-- A record belongs to the entry that the records before it tell. -/
theorem Tracks.declares (tracks : Tracks front progress)
    (shallow : record.depth ≤ progress.opened.length)
    (declares : Declares n (progress.ownerAt record.depth) record declared)
    : Declares n (ownerBehind front record) record declared := by
  have around_eq := tracks.chained.around_eq record.depth
  have flush_iff := Progress.ownerAt_eq_none_iff shallow
  have class_eq : record.depth ≠ 0 → record.tag ≠ "p"
      → ownerBehind front record = (progress.paths.take record.depth).head? :=
    tracks.ownerBehind_eq
  generalize progress.ownerAt record.depth = owner at declares around_eq flush_iff
  rw [around_eq] at class_eq
  cases declares with
  | cls tag keyed =>
      rw [ownerBehind, if_pos (flush_iff.mp rfl)]
      exact .cls tag keyed
  | field tag described keyed =>
      rw [class_eq (mt flush_iff.mpr (by simp)) (by simp [tag])]
      exact .field tag described keyed
  | method tag described keyed =>
      rw [class_eq (mt flush_iff.mpr (by simp)) (by simp [tag])]
      exact .method tag described keyed
  | @parameter owner key _ _ _ _ _ tag taken indexed named =>
      have opened : .method owner key ∈ progress.paths := by
        apply List.mem_of_mem_take (i := record.depth)
        simp [around_eq, trail]
      rw [ownerBehind, if_neg (mt flush_iff.mpr (by simp)), if_pos tag, tracks.method _ _ opened]
      exact .parameter tag taken indexed named
  | @comment path _ tag =>
      have inside : ∃ top, (trail path).head? = some top := by cases path <;> exact ⟨_, rfl⟩
      obtain ⟨top, first⟩ := inside
      rw [class_eq (mt flush_iff.mpr (by simp)) (by simp [tag])]
      change Declares n (trail path).head? record none
      rw [first]
      exact .comment tag

theorem Tracks.follows (tracks : Tracks front progress)
    (shallow : record.depth ≤ progress.opened.length)
    (declares : Declares n (progress.ownerAt record.depth) record declared)
    : (Statement.mk record declared).Follows front := by
  have below := tracks.declares shallow declares
  cases declared with
  | none => exact (declares_none_iff_of_placed shallow declares).mp rfl
  | some declaration => exact ⟨below.owner_eq, below.says⟩

/-- A class is opened by a record without indentation, and stays open below. -/
theorem Tracks.cls_advance (tracks : Tracks front progress)
    (shallow : record.depth ≤ progress.opened.length)
    (declares : Declares n (progress.ownerAt record.depth) record declared)
    : (progress.advance record declared).paths.head?
      = nearest? (front ++ [⟨record, declared⟩]) fun earlier => earlier.depth = 0 := by
  rw [nearest?_concat]
  by_cases flush : record.depth = 0
  · rw [if_pos (by simpa using flush)]
    rw [(Progress.ownerAt_eq_none_iff shallow).mpr flush] at declares
    cases declares with
    | cls tag keyed =>
        rw [Progress.paths_advance_some, flush, List.take_zero]
        rfl
  · have first : (progress.paths.take record.depth).head? = nearest? front fun earlier =>
        earlier.depth = 0 := by
      rw [List.head?_take, if_neg flush, tracks.cls]
    have around_ne : progress.paths.take record.depth ≠ [] := by
      intro none_around
      apply mt (Progress.ownerAt_eq_none_iff shallow).mp flush
      rw [Progress.ownerAt_eq, none_around, List.getLast?_nil]
    rw [if_neg (by simpa using flush), ← first]
    cases declared with
    | none => rw [Progress.paths_advance_none]
    | some declaration =>
        rw [Progress.paths_advance_some, List.head?_append_of_ne_nil _ around_ne]

/-- A method is opened by an `m` record, and stays open at most up to the next one. -/
theorem Tracks.method_advance (tracks : Tracks front progress)
    (declares : Declares n (progress.ownerAt record.depth) record declared) (owner : ClassName)
    (key : MethodKey) (member : .method owner key ∈ (progress.advance record declared).paths)
    : nearest? (front ++ [⟨record, declared⟩]) (fun earlier => earlier.tag = "m")
      = some (.method owner key) := by
  have around_eq := tracks.chained.around_eq record.depth
  have before (inside : .method owner key ∈ progress.paths.take record.depth)
      : nearest? front (fun earlier => earlier.tag = "m") = some (.method owner key) :=
    tracks.method owner key (List.mem_of_mem_take inside)
  rw [nearest?_concat]
  generalize progress.ownerAt record.depth = around at declares around_eq
  cases declares with
  | cls tag keyed | field tag described keyed | parameter tag taken indexed named =>
      rw [if_neg (by simp [tag])]
      rw [Progress.paths_advance_some, List.mem_append] at member
      exact before (member.resolve_right (by simp))
  | comment tag =>
      rw [if_neg (by simp [tag])]
      rw [Progress.paths_advance_none] at member
      exact before member
  | method tag described keyed =>
      -- Only a class is open around the method.
      rw [if_pos (by simp [tag])]
      rw [Progress.paths_advance_some, around_eq] at member
      simpa [trail, Path.above, eq_comm] using member

/-- What is open after a record is told by it and the records before it. -/
theorem Tracks.advance (tracks : Tracks front progress)
    (shallow : record.depth ≤ progress.opened.length)
    (declares : Declares n (progress.ownerAt record.depth) record declared)
    : Tracks (front ++ [⟨record, declared⟩]) (progress.advance record declared) where
  chained := tracks.chained.advance declares
  cls := tracks.cls_advance shallow declares
  method := tracks.method_advance declares

end Tracks

-----------------------------------------------------------------------------------------
-- Whole files
-----------------------------------------------------------------------------------------

/-- (Told front statements) says that each statement follows those before it, `front` first. -/
def Told (front statements : List (Statement n)) : Prop :=
  ∀ before statement after, statements = before ++ statement :: after
    → statement.Follows (front ++ before)

theorem told_nil (front : List (Statement n)) : Told front [] := by
  intro before statement after whole
  simp at whole

theorem Told.cons {front rest : List (Statement n)} {statement : Statement n}
    (here : statement.Follows front) (told : Told (front ++ [statement]) rest)
    : Told front (statement :: rest) := by
  intro before other after whole
  cases before with
  | nil =>
      obtain ⟨rfl, rfl⟩ := List.cons.inj whole
      rwa [List.append_nil]
  | cons first before =>
      obtain ⟨rfl, rest_eq⟩ := List.cons.inj whole
      simpa using told before other after rest_eq

theorem Told.fits {statements : List (Statement n)} (told : Told [] statements)
    {declaration : Declaration n} (member : declaration ∈ statements.filterMap Statement.declared)
    : declaration.path.Fits declaration.names := by
  obtain ⟨statement, listed, declared⟩ := List.mem_filterMap.mp member
  obtain ⟨before, after, whole⟩ := List.append_of_mem listed
  have follows := told before statement after whole
  rw [Statement.Follows, declared] at follows
  exact follows.2.readable.fits

/-- What can be declared while fewer entries are open can be declared while more are. -/
theorem Ordered.of_prefix {opened opened' paths : List Path} (ordered : Ordered opened paths)
    (begins : opened <+: opened')
    : Ordered opened' paths := by
  cases paths with
  | nil => trivial
  | cons path rest => exact ⟨ordered.1.trans begins, ordered.2⟩

/-- A run makes what the records declare, by induction on the lines. -/
theorem Tracks.run {front : List (Statement n)} {progress last : Progress n}
    {lines : List Text.Line} (tracks : Tracks front progress)
    (run : lines.foldlM step progress = .ok last)
    : ∃ statements,
        List.Forall₂ (fun line statement => line.record = .ok statement.record) lines statements
        ∧ Told front statements
        ∧ Ordered progress.paths
            ((statements.filterMap Statement.declared).map Declaration.path)
        ∧ last.table = progress.table.declareAll (statements.filterMap Statement.declared) := by
  induction lines generalizing front progress with
  | nil =>
      obtain rfl := Except.ok.inj run
      exact ⟨[], .nil, told_nil front, trivial, rfl⟩
  | cons line lines ih =>
      rw [List.foldlM_cons] at run
      obtain ⟨next, read, later⟩ := Outcome.bind_eq_ok_iff.mp run
      obtain ⟨record, declared, decoded, shallow, declares, rfl⟩ := step_eq_ok_iff.mp read
      obtain ⟨statements, decoded_rest, told, ordered, made⟩ :=
        ih (tracks.advance shallow declares) later
      refine ⟨⟨record, declared⟩ :: statements, .cons decoded decoded_rest,
        told.cons (tracks.follows shallow declares), ?_⟩
      cases declared with
      | none =>
          rw [Progress.paths_advance_none] at ordered
          exact ⟨ordered.of_prefix (List.take_prefix _ _), made⟩
      | some declaration =>
          have above := tracks.chained.above_eq declares
          rw [Progress.paths_advance_some, ← above] at ordered
          exact ⟨⟨above ▸ List.take_prefix _ _, ordered⟩, made⟩

/-- (Means content header statements table) says that a file has a header and then these
statements, each of which belongs to an entry told by those before it, and that the table has the
labels of the header and what is declared.
-/
structure Means (content : ByteArray) (header : Record) (statements : List (Statement n))
    (table : Table n)
    : Prop where
  decoded
    : List.Forall₂ (fun line record => line.record = .ok record) (Text.Line.ofContent content)
        (header :: statements.map Statement.record)
  tag : header.tag = "tiny"
  labels : header.fields = "2" :: "0" :: table.labels.toList
  told
    : ∀ before statement after, statements = before ++ statement :: after
        → statement.Follows before
  lists : table.Lists (statements.filterMap Statement.declared)

/-- A file that is read means its table, and still does without its comments. -/
theorem read_means {content : ByteArray} {table : Table n}
    (done : Format.nested.read n content = .ok table)
    : (∃ header statements, Means content header statements table)
      ∧ Format.nested.read n (withoutComments content) = .ok table := by
  refine ⟨?_, read_withoutComments done⟩
  have whole : Format.nested.read n content = read n (Text.Line.ofContent content) := rfl
  rw [whole, read_eq_ok_iff] at done
  obtain ⟨enough, first, rest, header, labels, last, lines, decoded, labelled, run, rfl⟩ := done
  obtain ⟨tag, fields, _⟩ := headerLabels_eq_ok_iff.mp labelled
  obtain ⟨statements, decoded_rest, told, ordered, made⟩ := (tracks_nil _).run run
  refine ⟨header, statements, ?_, tag, ?_, told, ?_⟩
  · rw [lines]
    exact .cons decoded (List.forall₂_map_right_iff.mpr decoded_rest)
  · rw [made, Table.labels_declareAll]
    exact fields
  · rw [made]
    exact declareAll_lists labels (by omega) ordered fun _ member => told.fits member

/-- A class that is declared twice, with another one and comments in between. -/
def redeclared : ByteArray :=
  ("tiny\t2\t0\tx\ty\nc\ta\tB\n\tc\tfirst\n\tf\t\tf\tsize\n\tm\t()V\tm\trun\n\t\tc\n"
    ++ "\t\tp\t1\t\tcount\nc\tc\tC\nc\ta\tD\n\tf\tI\tf\t\n\tm\t()V\tm\t\n").toUTF8

/-- The class keeps its place and all its members, and takes the names of its second record. -/
theorem read_redeclared
    : ∃ table : Table 2,
        Format.nested.read 2 redeclared = .ok table
        ∧ table.classes.keys = [⟨"a"⟩, ⟨"c"⟩]
        ∧ (table.fieldsOf ⟨"a"⟩).keys = [⟨⟨"f"⟩, none⟩, ⟨⟨"f"⟩, some ⟨"I"⟩⟩]
        ∧ table.names? (.cls ⟨"a"⟩) = some (.pair (some ⟨"a"⟩) (some ⟨"D"⟩))
        ∧ table.names? (.method ⟨"a"⟩ ⟨⟨"m"⟩, ⟨"()V"⟩⟩) = some (.pair (some ⟨"m"⟩) none)
        ∧ (∃ header statements, Means redeclared header statements table)
        ∧ Format.nested.read 2 (withoutComments redeclared) = .ok table := by
  have done : Format.nested.read 2 redeclared
      = .ok ((Table.empty ⟨#v["x", "y"]⟩).declareAll
          [⟨.cls ⟨"a"⟩, .pair (some ⟨"a"⟩) (some ⟨"B"⟩)⟩,
            ⟨.field ⟨"a"⟩ ⟨⟨"f"⟩, none⟩, .pair (some ⟨"f"⟩) (some ⟨"size"⟩)⟩,
            ⟨.method ⟨"a"⟩ ⟨⟨"m"⟩, ⟨"()V"⟩⟩, .pair (some ⟨"m"⟩) (some ⟨"run"⟩)⟩,
            ⟨.parameter ⟨"a"⟩ ⟨⟨"m"⟩, ⟨"()V"⟩⟩ 1, .pair none (some ⟨"count"⟩)⟩,
            ⟨.cls ⟨"c"⟩, .pair (some ⟨"c"⟩) (some ⟨"C"⟩)⟩,
            ⟨.cls ⟨"a"⟩, .pair (some ⟨"a"⟩) (some ⟨"D"⟩)⟩,
            ⟨.field ⟨"a"⟩ ⟨⟨"f"⟩, some ⟨"I"⟩⟩, .pair (some ⟨"f"⟩) none⟩,
            ⟨.method ⟨"a"⟩ ⟨⟨"m"⟩, ⟨"()V"⟩⟩, .pair (some ⟨"m"⟩) none⟩]) := by
    decide +kernel
  exact ⟨_, done, by decide, by decide, by decide, by decide, read_means done⟩

end Nested

end NameTables
