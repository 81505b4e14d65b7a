import NameTables.Proofs.Flat.Written
import NameTables.Proofs.Format.Returns
import NameTables.Proofs.Nested.Listing

/-! What a file can put into a table.
All names and keys come from cells, which have no tabs and no line feeds. No name is empty but that
of a class that was made by a line of a member, where the owner may be an empty cell.
-/

namespace NameTables

variable {n : Nat}

-----------------------------------------------------------------------------------------
-- Cells of a file
-----------------------------------------------------------------------------------------

theorem Row.mem_intercalate_of_mem {α : Type} {sep c : α} {pieces : List (List α)}
    {piece : List α} (listed : piece ∈ pieces) (member : c ∈ piece)
    : c ∈ [sep].intercalate pieces := by
  induction pieces with
  | nil => cases listed
  | cons first pieces ih =>
      cases pieces with
      | nil =>
          obtain rfl := List.mem_singleton.mp listed
          rwa [List.intercalate_singleton]
      | cons next pieces =>
          rw [List.intercalate_cons_cons, List.mem_append, List.mem_append]
          rcases List.mem_cons.mp listed with rfl | later
          · exact Or.inl (Or.inl member)
          · exact Or.inr (ih later)

/-- What is on a line is in the file, and it does not end the line. -/
theorem Text.mem_of_mem_splitLines {α : Type} [DecidableEq α] {lf cr c : α} {xs line : List α}
    (listed : line ∈ splitLines lf cr xs) (member : c ∈ line)
    : c ∈ xs ∧ c ≠ lf := by
  have of_piece {piece : List α} (cut : piece ∈ xs.splitOn lf) (inside : c ∈ piece)
      : c ∈ xs ∧ c ≠ lf := by
    constructor
    · have whole : [lf].intercalate (xs.splitOn lf) = xs := List.intercalate_splitOn lf
      rw [← whole]
      exact Row.mem_intercalate_of_mem cut inside
    · rintro rfl
      exact not_mem_of_mem_splitOn cut inside
  rcases List.mem_append.mp listed with ended | last
  · obtain ⟨piece, cut, rfl⟩ := List.mem_map.mp ended
    apply of_piece (List.dropLast_subset _ cut)
    rw [dropReturn] at member
    split at member
    · exact List.dropLast_subset _ member
    · exact member
  · have cut := Option.mem_toList.mp (List.mem_filter.mp last).1
    exact of_piece (List.mem_of_getLast? cut) member

/-- The byte of a character on a line is in the file, and it is no line feed. -/
theorem Text.Line.mem_content {content : ByteArray} {line : Line}
    (listed : line ∈ ofContent content) {text : String} (decoded : line.text = some text)
    {c : Char} (member : c ∈ text.toList) {byte : UInt8}
    (coded : String.utf8EncodeChar c = [byte])
    : byte ∈ content.data.toList ∧ byte ≠ 10 := by
  obtain ⟨⟨bytes, number⟩, counted, rfl⟩ := List.mem_map.mp listed
  apply mem_of_mem_splitLines (List.fst_mem_of_mem_zipIdx counted)
  rw [← encode_of_decode decoded]
  exact List.mem_flatMap.mpr ⟨c, member, coded ▸ List.mem_singleton_self byte⟩

/-- (StandsIn content text) says that the text is a cell on a line of the file. -/
def Text.StandsIn (content : ByteArray) (text : String) : Prop :=
  ∃ line ∈ Line.ofContent content, ∃ record,
    line.record = .ok record ∧ text ∈ record.tag :: record.fields

namespace Text.StandsIn

variable {content : ByteArray} {text : String}

/-- A character of a cell stands on its line, and is no tab. -/
theorem of_mem (stands : StandsIn content text) {c : Char} (member : c ∈ text.toList)
    : c ≠ '\t'
      ∧ ∀ byte, String.utf8EncodeChar c = [byte] → byte ∈ content.data.toList ∧ byte ≠ 10 := by
  obtain ⟨line, listed, record, decoded, among⟩ := stands
  obtain ⟨whole, spelled, rfl⟩ := line.record_eq_ok_iff.mp decoded
  constructor
  · rintro rfl
    exact Row.no_tab_parse whole text among member
  · intro byte coded
    refine Line.mem_content listed spelled ?_ coded
    rw [← Row.render_parse whole, Row.render, String.toList_ofList, Row.chars]
    exact List.mem_append_right _
      (Row.mem_intercalate_of_mem (List.mem_map_of_mem among) member)

theorem isCell (stands : StandsIn content text) : IsCell text := by
  intro c member
  obtain ⟨no_tab, coded⟩ := stands.of_mem member
  refine ⟨no_tab, ?_⟩
  rintro rfl
  exact (coded 10 (by decide)).2 rfl

/-- Without carriage returns in the file, its cells are plain. -/
theorem isPlain (stands : StandsIn content text) (no_return : (13 : UInt8) ∉ content.data.toList)
    : IsPlain text := by
  intro c member
  refine ⟨(stands.isCell c member).1, (stands.isCell c member).2, ?_⟩
  rintro rfl
  exact no_return ((stands.of_mem member).2 13 (by decide)).1

end Text.StandsIn

-----------------------------------------------------------------------------------------
-- Texts of a table
-----------------------------------------------------------------------------------------

/-- The descriptor in the last key of a path, if there is one. -/
def Path.descriptors : Path → List String
  | .field _ key => key.descriptor.toList.map Descriptor.text
  | .method _ key => [key.descriptor.text]
  | .cls _ => []
  | .parameter _ _ _ => []

/-- The texts in all keys of a path. -/
def Path.texts : Path → List String
  | .cls owner => [owner.text]
  | .field owner key => owner.text :: key.name.text :: key.descriptor.toList.map Descriptor.text
  | .method owner key => [owner.text, key.name.text, key.descriptor.text]
  | .parameter owner key _ => [owner.text, key.name.text, key.descriptor.text]

theorem Path.texts_subset_of_reaches {path other : Path} (reaches : path.Reaches other)
    : other.texts ⊆ path.texts := by
  rcases reaches with rfl | inside
  · exact List.Subset.refl _
  · cases path with
    | cls => cases inside
    | field | method =>
        obtain rfl := List.mem_singleton.mp inside
        simp [texts]
    | parameter =>
        simp only [above, List.mem_cons, List.not_mem_nil, or_false] at inside
        rcases inside with rfl | rfl <;> simp [texts]

/-- The text is one of the names, or it stands in the path. -/
def Declaration.Mentions (declaration : Declaration n) (text : String) : Prop :=
  text ∈ declaration.path.texts
  ∨ ∃ i name, declaration.names.get i = some name ∧ text = name.text

/-- The text is a name of an entry, or it stands in the path of one. -/
def Table.Mentions (table : Table n) (text : String) : Prop :=
  ∃ declaration : Declaration n,
    table.names? declaration.path = some declaration.names ∧ declaration.Mentions text

/-- An entry that was not declared itself is named by its key. -/
theorem Table.mem_texts_of_freshNames {path : Path} {i : Fin n} {name : Name path.kind}
    (found : (freshNames path : Names n path.kind).get i = some name)
    : name.text ∈ path.texts := by
  have of_keyed {kind : Kind} {own name : Name kind}
      (found : (Names.keyed own : Names n kind).get i = some name)
      : name = own := by
    have here : (if i.val = 0 then some own else none) = some name := by
      simpa [Names.get, Names.keyed] using found
    exact (Option.some.inj (Option.ite_none_right_eq_some.mp here).2).symm
  cases path with
  | cls | field | method => simp [of_keyed found, Path.texts]
  | parameter => simp [freshNames, Names.blank, Names.get] at found

/-- An entry was declared, or it is what another one that was declared is in. -/
theorem Table.mem_or_above_of_names? {labels : Labels n} {declarations : List (Declaration n)}
    {path : Path} {names : Names n path.kind}
    (found : ((Table.empty labels).declareAll declarations).names? path = some names)
    : ⟨path, names⟩ ∈ declarations
      ∨ names = freshNames path ∧ ∃ declaration ∈ declarations, path ∈ declaration.path.above := by
  rw [names?_declareAll_eq_ite] at found
  obtain ⟨⟨declaration, member, reaches⟩, names_eq⟩ := Option.ite_none_right_eq_some.mp found
  cases last : lastDeclared? declarations path with
  | some declared =>
      have same : declared = names := by simpa [last] using names_eq
      exact Or.inl (same ▸ mem_of_lastDeclared? last)
  | none =>
      have fresh : freshNames path = names := by simpa [last] using names_eq
      rcases reaches with rfl | above
      · exact absurd (List.mem_map_of_mem member) (lastDeclared?_eq_none_iff.mp last)
      · exact Or.inr ⟨fresh.symm, declaration, member, above⟩

/-- A table mentions what was declared. -/
theorem Table.exists_mem_of_mentions {labels : Labels n} {declarations : List (Declaration n)}
    {text : String} (mentions : ((Table.empty labels).declareAll declarations).Mentions text)
    : ∃ declaration ∈ declarations, declaration.Mentions text := by
  obtain ⟨⟨path, names⟩, found, mentions⟩ := mentions
  rcases mem_or_above_of_names? found with listed | ⟨fresh, declaration, member, above⟩
  · exact ⟨_, listed, mentions⟩
  · refine ⟨declaration, member, Or.inl (Path.texts_subset_of_reaches (Or.inr above) ?_)⟩
    rcases mentions with inside | ⟨i, name, named, rfl⟩
    · exact inside
    · exact mem_texts_of_freshNames (fresh ▸ named)

theorem Names.mem_cells_of_get {kind : Kind} {names : Names n kind} {i : Fin n}
    {name : Name kind} (found : names.get i = some name)
    : name.text ∈ names.cells := by
  have slot : some name ∈ names.toList := by
    rw [← found]
    exact Vector.mem_toList_iff.mpr (Vector.getElem_mem i.isLt)
  exact List.mem_map.mpr ⟨some name.text, List.mem_map.mpr ⟨some name, slot, rfl⟩, rfl⟩

theorem Names.exists_get_of_first? {kind : Kind} {names : Names n kind} {name : Name kind}
    (first : names.first? = some name)
    : ∃ i, names.get i = some name := by
  rcases Nat.eq_zero_or_pos n with rfl | positive
  · simp [first?] at first
  · exact ⟨_, (names.first?_eq_get positive).symm.trans first⟩

/-- The name of a class that is declared is not empty. -/
theorem Declaration.Readable.owner_ne {owner : ClassName} {names : Names n .cls}
    (readable : (Declaration.mk (.cls owner) names).Readable)
    : owner ≠ ⟨""⟩ := by
  obtain ⟨i, found⟩ := Names.exists_get_of_first? readable.fits
  rintro rfl
  exact readable.filled i _ found rfl

-----------------------------------------------------------------------------------------
-- Tables that are read
-----------------------------------------------------------------------------------------

/-- All texts are cells, and no name is empty but that of a class that nothing else is known of.
It has no methods with parameters either.
-/
structure Table.Legible (table : Table n) : Prop where
  cell : ∀ {text : String}, table.Mentions text → Text.IsCell text
  label : ∀ label ∈ table.labels.toList, label ≠ "" ∧ Text.IsCell label
  filled
    : ∀ {path : Path} {names : Names n path.kind},
        table.names? path = some names → path ≠ .cls ⟨""⟩ → names.Filled
  unnamed
    : ∀ {names : Names n .cls}, table.names? (.cls ⟨""⟩) = some names → names = .keyed ⟨""⟩
  parameter
    : ∀ {owner : ClassName} {key : MethodKey} {index : UInt64} {names : Names n .parameter},
        table.names? (.parameter owner key index) = some names → owner ≠ ⟨""⟩

theorem Text.IsPlain.isCell {text : String} (plain : IsPlain text) : IsCell text :=
  fun c member => ⟨(plain c member).1, (plain c member).2.1⟩

/-- Words stand in front of the labels in a header. -/
theorem Row.isLine_header {tag : String} {front : List String} {source target : String}
    (words : ∀ word ∈ tag :: front, Text.IsWord word) (source_cell : Text.IsCell source)
    (target_cell : Text.IsCell target)
    : (Row.mk 0 tag (front ++ [source, target])).IsLine where
  tag_ne := (words tag List.mem_cons_self).1
  fields_ne := by simp
  cell cell member := by
    rw [← List.cons_append] at member
    rcases List.mem_append.mp member with word | label
    · exact (words cell word).2.isCell
    · rcases List.mem_pair.mp label with rfl | rfl
      · exact source_cell
      · exact target_cell

namespace Table.Legible

variable {table : Table n} {path : Path} {names : Names n path.kind}

theorem isCell_of_mem_texts (legible : table.Legible) (found : table.names? path = some names)
    {text : String} (member : text ∈ path.texts)
    : Text.IsCell text :=
  legible.cell ⟨⟨path, names⟩, found, Or.inl member⟩

theorem isCell_of_mem_cells (legible : table.Legible) (found : table.names? path = some names)
    {cell : String} (member : cell ∈ names.cells)
    : Text.IsCell cell := by
  rcases Names.mem_cells member with rfl | ⟨i, name, named, rfl⟩
  · decide
  · exact legible.cell ⟨⟨path, names⟩, found, Or.inr ⟨i, name, named, rfl⟩⟩

theorem isCell_of_mem_path_cells (legible : table.Legible)
    (found : table.names? path = some names) {cell : String} (member : cell ∈ path.cells)
    : Text.IsCell cell := by
  have of_texts {text : String} (listed : text ∈ path.texts) : Text.IsCell text :=
    legible.isCell_of_mem_texts found listed
  cases path with
  | cls => cases member
  | field owner key =>
      obtain rfl := List.mem_singleton.mp member
      cases described : key.descriptor with
      | none => exact (by decide : Text.IsCell "")
      | some descriptor => exact of_texts (by simp [Path.texts, described])
  | method owner key =>
      obtain rfl := List.mem_singleton.mp member
      exact of_texts (by simp [Path.texts])
  | parameter owner key index =>
      obtain rfl := List.mem_singleton.mp member
      exact (isPlain_toString index.toNat).isCell

end Table.Legible

variable {declarations : List (Declaration n)} {declaration : Declaration n} {text : String}

/-- A declaration mentions its owner, its descriptor and its names. -/
theorem Declaration.mem_of_mentions (fits : declaration.path.Fits declaration.names)
    (no_parameter : declaration.path.kind ≠ .parameter) (mentions : declaration.Mentions text)
    : text ∈ Flat.ownerCells declaration.path ∨ text ∈ declaration.path.descriptors
      ∨ text ∈ declaration.names.cells := by
  have own {name : Name declaration.path.kind} (first : declaration.names.first? = some name)
      : name.text ∈ declaration.names.cells := by
    obtain ⟨i, found⟩ := Names.exists_get_of_first? first
    exact Names.mem_cells_of_get found
  rcases mentions with in_path | ⟨i, name, found, rfl⟩
  · obtain ⟨path, names⟩ := declaration
    cases path with
    | cls owner =>
        obtain rfl := List.mem_singleton.mp in_path
        exact Or.inr (Or.inr (own fits))
    | field owner key | method owner key =>
        rcases List.mem_cons.mp in_path with rfl | in_key
        · exact Or.inl List.mem_cons_self
        · rcases List.mem_cons.mp in_key with rfl | described
          · exact Or.inr (Or.inr (own fits))
          · exact Or.inr (Or.inl described)
    | parameter => exact absurd rfl no_parameter
  · exact Or.inr (Or.inr (Names.mem_cells_of_get found))

theorem Path.spelledBy_cells (path : Path) : path.SpelledBy path.cells := by
  cases path with
  | cls | field | method => rfl
  | parameter owner key index => exact ⟨_, rfl, parameterIndex_toString index⟩

theorem Path.descriptors_subset {path : Path} {cells : List String} (spelled : path.SpelledBy cells)
    : path.descriptors ⊆ cells := by
  cases path with
  | cls | parameter => exact List.nil_subset _
  | field owner key =>
      obtain rfl := spelled
      cases described : key.descriptor <;> simp [descriptors, Path.cells, described]
  | method owner key =>
      obtain rfl := spelled
      exact List.Subset.refl _

/-- The labels of a table stand in the header of its file. -/
theorem standsIn_of_labels {content : ByteArray} {line : Text.Line} {record : Record}
    {labels : Labels n} (listed : line ∈ Text.Line.ofContent content)
    (decoded : line.record = .ok record) (fields : labels.toList ⊆ record.fields)
    (nonempty : "" ∉ labels.toList)
    : ∀ label ∈ labels.toList, label ≠ "" ∧ Text.StandsIn content label := by
  intro label member
  refine ⟨fun empty => nonempty (empty ▸ member), line, listed, record, decoded, ?_⟩
  exact List.mem_cons_of_mem _ (fields member)

/-- The first label is there, so only the target label can be empty. -/
theorem Labels.empty_not_mem_iff {source target : String} (source_ne : source ≠ "")
    : "" ∉ toList ⟨#v[source, target]⟩ ↔ target ≠ "" := by
  change "" ∉ [source, target] ↔ _
  rw [List.mem_cons, List.mem_singleton, not_or, and_iff_right source_ne.symm, ne_comm]

namespace Flat

/-- A record that declares something is the row of what it declares. -/
theorem Declares.toRow_eq {record : Record} (declares : Declares n record declaration)
    : record.toRow = row declaration ∧ declaration.Readable
      ∧ declaration.path.kind ≠ .parameter := by
  have row_eq {tag : String} {fields : List String} (flush : record.depth = 0)
      (tagged : record.tag = tag) (whole : record.fields = fields)
      : record.toRow = ⟨0, tag, fields⟩ := by
    rw [← flush, ← tagged, ← whole]
  cases declares with
  | cls flush tag keyed =>
      obtain ⟨fields, first, filled⟩ := Record.keyedNames_cells_of_eq_ok keyed
      exact ⟨row_eq flush tag fields, ⟨trivial, first, filled⟩, by simp⟩
  | field flush tag taken described keyed =>
      obtain ⟨text, owned, descriptor_eq⟩ := Record.takeFieldDescriptor_eq_ok_iff.mp described
      obtain ⟨fields, first, filled⟩ := Record.keyedNames_cells_of_eq_ok keyed
      have whole := (Record.take_eq_ok_iff.mp taken).1
      rw [(Record.take_eq_ok_iff.mp owned).1, fields] at whole
      by_cases empty : text = ""
      · rw [if_pos empty] at descriptor_eq
        subst empty descriptor_eq
        exact ⟨row_eq flush tag whole, ⟨by simp [Path.Readable], first, filled⟩, by simp⟩
      · rw [if_neg empty] at descriptor_eq
        subst descriptor_eq
        exact ⟨row_eq flush tag whole, ⟨by simpa [Path.Readable] using empty, first, filled⟩,
          by simp⟩
  | method flush tag taken described keyed =>
      obtain ⟨owned, nonempty⟩ := Record.takeMethodDescriptor_eq_ok_iff.mp described
      obtain ⟨fields, first, filled⟩ := Record.keyedNames_cells_of_eq_ok keyed
      have whole := (Record.take_eq_ok_iff.mp taken).1
      rw [(Record.take_eq_ok_iff.mp owned).1, fields] at whole
      exact ⟨row_eq flush tag whole, ⟨nonempty, first, filled⟩, by simp⟩

theorem eq_owner_of_mem_above {path other : Path} (no_parameter : path.kind ≠ .parameter)
    (above : other ∈ path.above)
    : other = .cls path.owner := by
  cases path with
  | cls => cases above
  | field | method => exact List.mem_singleton.mp above
  | parameter => exact absurd rfl no_parameter

/-- What is declared line by line leaves the class of a member without a name at most. -/
theorem declareAll_legible {labels : Labels n}
    (label : ∀ label ∈ labels.toList, label ≠ "" ∧ Text.IsCell label)
    (cell : ∀ declaration ∈ declarations, ∀ text, declaration.Mentions text → Text.IsCell text)
    (readable : ∀ declaration ∈ declarations, declaration.Readable)
    (no_parameter : ∀ declaration ∈ declarations, declaration.path.kind ≠ .parameter)
    : ((Table.empty labels).declareAll declarations).Legible where
  cell mentions := by
    obtain ⟨declaration, member, mentions⟩ := Table.exists_mem_of_mentions mentions
    exact cell declaration member _ mentions
  label := by
    rw [Table.labels_declareAll]
    exact label
  filled {path names} found other := by
    rcases Table.mem_or_above_of_names? found with listed | ⟨rfl, _, member, above⟩
    · exact (readable _ listed).filled
    · obtain rfl := eq_owner_of_mem_above (no_parameter _ member) above
      intro i name named empty
      have owner_eq := List.mem_singleton.mp (Table.mem_texts_of_freshNames named)
      exact other (congrArg Path.cls (Name.ext (owner_eq.symm.trans empty)))
  unnamed {names} found := by
    rcases Table.mem_or_above_of_names? found with listed | ⟨fresh, _⟩
    · exact absurd rfl (readable _ listed).owner_ne
    · exact fresh
  parameter {owner key index names} found := by
    rcases Table.mem_or_above_of_names? found with listed | ⟨_, _, member, above⟩
    · exact absurd rfl (no_parameter _ listed)
    · exact absurd (eq_owner_of_mem_above (no_parameter _ member) above) (by simp)

theorem read_legible {content : ByteArray} {table : Table n}
    (done : Format.flat.read n content = .ok table)
    : table.Legible := by
  have whole : Format.flat.read n content = read n (Text.Line.ofContent content) := rfl
  rw [whole, read_eq_ok_iff] at done
  obtain ⟨_, first, rest, header, labels, declarations, lines, decoded, labelled, listed, rfl⟩ :=
    done
  have among : first :: rest ⊆ Text.Line.ofContent content := lines ▸ List.filter_subset_self _
  obtain ⟨_, fields, nonempty⟩ := headerLabels_eq_ok_iff.mp labelled
  have declared {declaration : Declaration n} (member : declaration ∈ declarations)
      : ∃ line ∈ Text.Line.ofContent content, ∃ record,
          line.record = .ok record ∧ Declares n record declaration := by
    obtain ⟨line, later, there⟩ := exists_mem_of_forall₂ listed member
    exact ⟨line, among (List.mem_cons_of_mem _ later), there⟩
  apply declareAll_legible
  · intro label member
    have stands := standsIn_of_labels (among List.mem_cons_self) decoded
      (fields ▸ List.Subset.refl _) nonempty label member
    exact ⟨stands.1, stands.2.isCell⟩
  · intro declaration member text mentions
    obtain ⟨line, there, record, decoded, declares⟩ := declared member
    obtain ⟨same, readable, no_parameter⟩ := declares.toRow_eq
    have fields : record.fields = _ := congrArg Row.fields same
    apply Text.StandsIn.isCell
    refine ⟨line, there, record, decoded, ?_⟩
    rw [fields]
    refine List.mem_cons_of_mem _ ?_
    rcases Declaration.mem_of_mentions readable.fits no_parameter mentions with owner | key | name
    · exact List.mem_append_left _ (List.mem_append_left _ owner)
    · have cell := Path.descriptors_subset (Path.spelledBy_cells declaration.path) key
      exact List.mem_append_left _ (List.mem_append_right _ cell)
    · exact List.mem_append_right _ name
  · intro declaration member
    obtain ⟨_, _, _, _, declares⟩ := declared member
    exact declares.toRow_eq.2.1
  · intro declaration member
    obtain ⟨_, _, _, _, declares⟩ := declared member
    exact declares.toRow_eq.2.2

end Flat

namespace Nested

/-- The owners in a path are declared by themselves, so every text of a declaration is a descriptor
or a name of one.
-/
theorem exists_mem_of_mentions (closed : OwnersDeclared declarations)
    (readable : ∀ declaration ∈ declarations, declaration.Readable)
    (member : declaration ∈ declarations) (mentions : declaration.Mentions text)
    : ∃ declared ∈ declarations,
        text ∈ declared.path.descriptors ∨ text ∈ declared.names.cells := by
  have of_cls {owner : ClassName} (listed : .cls owner ∈ declarations.map Declaration.path)
      : ∃ declared ∈ declarations, owner.text ∈ declared.names.cells := by
    obtain ⟨⟨path, names⟩, there, rfl⟩ := List.mem_map.mp listed
    obtain ⟨i, found⟩ := Names.exists_get_of_first? (readable _ there).fits
    exact ⟨_, there, Names.mem_cells_of_get found⟩
  have of_member {declaration : Declaration n} (member : declaration ∈ declarations)
      (no_parameter : declaration.path.kind ≠ .parameter) (mentions : declaration.Mentions text)
      : ∃ declared ∈ declarations,
          text ∈ declared.path.descriptors ∨ text ∈ declared.names.cells := by
    have fits := (readable declaration member).fits
    rcases Declaration.mem_of_mentions fits no_parameter mentions with owner | own
    · have above : Path.cls declaration.path.owner ∈ declaration.path.above
          ∧ text = declaration.path.owner.text := by
        obtain ⟨path, names⟩ := declaration
        cases path with
        | cls => cases owner
        | field | method => exact ⟨List.mem_cons_self, List.mem_singleton.mp owner⟩
        | parameter => exact absurd rfl no_parameter
      obtain ⟨declared, there, named⟩ := of_cls (closed declaration member _ above.1)
      exact ⟨declared, there, Or.inr (above.2 ▸ named)⟩
    · exact ⟨declaration, member, own⟩
  rcases mentions with in_path | ⟨i, name, found, rfl⟩
  · by_cases parameter : declaration.path.kind = .parameter
    · -- A parameter has the keys of its method and an index.
      obtain ⟨path, names⟩ := declaration
      cases path with
      | cls | field | method => cases parameter
      | parameter owner key index =>
          have listed := closed _ member (.method owner key) (by simp [Path.above])
          obtain ⟨⟨path, names⟩, there, rfl⟩ := List.mem_map.mp listed
          exact of_member there (by simp) (Or.inl in_path)
    · exact of_member member parameter (Or.inl in_path)
  · exact ⟨declaration, member, Or.inr (Names.mem_cells_of_get found)⟩

theorem declareAll_legible {labels : Labels n} (closed : OwnersDeclared declarations)
    (label : ∀ label ∈ labels.toList, label ≠ "" ∧ Text.IsCell label)
    (cell
      : ∀ declaration ∈ declarations, ∀ text,
          text ∈ declaration.path.descriptors ∨ text ∈ declaration.names.cells
          → Text.IsCell text)
    (readable : ∀ declaration ∈ declarations, declaration.Readable)
    : ((Table.empty labels).declareAll declarations).Legible := by
  have declared {path : Path} {names : Names n path.kind}
      (found : ((Table.empty labels).declareAll declarations).names? path = some names)
      : ⟨path, names⟩ ∈ declarations := by
    rw [Table.names?_declareAll labels closed] at found
    exact mem_of_lastDeclared? found
  constructor
  · intro text mentions
    obtain ⟨_, member, mentions⟩ := Table.exists_mem_of_mentions mentions
    obtain ⟨other, there, own⟩ := exists_mem_of_mentions closed readable member mentions
    exact cell other there text own
  · rw [Table.labels_declareAll]
    exact label
  · intro path names found _
    exact (readable _ (declared found)).filled
  · intro names found
    exact absurd rfl (readable _ (declared found)).owner_ne
  · intro owner key index names found
    have listed := closed _ (declared found) (.cls owner) (by simp [Path.above])
    obtain ⟨⟨path, names⟩, there, rfl⟩ := List.mem_map.mp listed
    exact (readable _ there).owner_ne

/-- What a nested file declares, each class before what is in it, stands in cells of the file. -/
structure DeclaredIn (content : ByteArray) (labels : Labels n)
    (declarations : List (Declaration n))
    : Prop where
  closed : OwnersDeclared declarations
  label : ∀ label ∈ labels.toList, label ≠ "" ∧ Text.StandsIn content label
  readable : ∀ declaration ∈ declarations, declaration.Readable
  cell
    : ∀ declaration ∈ declarations, ∀ text,
        text ∈ declaration.path.descriptors ∨ text ∈ declaration.names.cells
        → Text.StandsIn content text

/-- A table that is read holds what its file declares. -/
theorem exists_declaredIn {content : ByteArray} {table : Table n}
    (done : Format.nested.read n content = .ok table)
    : 2 ≤ n ∧ ∃ labels declarations,
        DeclaredIn content labels declarations
        ∧ table = (Table.empty labels).declareAll declarations := by
  have whole : Format.nested.read n content = read n (Text.Line.ofContent content) := rfl
  rw [whole, read_eq_ok_iff] at done
  obtain ⟨enough, first, rest, header, labels, last, lines, decoded, labelled, run, rfl⟩ := done
  obtain ⟨_, fields, nonempty⟩ := headerLabels_eq_ok_iff.mp labelled
  obtain ⟨statements, decoded_rest, told, ordered, made⟩ := (tracks_nil _).run run
  have first_listed : first ∈ Text.Line.ofContent content := lines ▸ List.mem_cons_self
  have declared {declaration : Declaration n}
      (member : declaration ∈ statements.filterMap Statement.declared)
      : ∃ line ∈ Text.Line.ofContent content, ∃ record,
          line.record = .ok record ∧ record.toRow.Says declaration := by
    obtain ⟨statement, listed, declares⟩ := List.mem_filterMap.mp member
    obtain ⟨before, after, split⟩ := List.append_of_mem listed
    have follows := told before statement after split
    rw [Statement.Follows, declares] at follows
    obtain ⟨line, there, decoded⟩ := exists_mem_of_forall₂ decoded_rest listed
    exact ⟨line, lines ▸ List.mem_cons_of_mem _ there, _, decoded, follows.2⟩
  refine ⟨enough, labels, statements.filterMap Statement.declared, ?_, made⟩
  constructor
  · exact ordered.ownersDeclared
  · refine standsIn_of_labels first_listed decoded ?_ nonempty
    rw [fields]
    exact fun label member => List.mem_cons_of_mem _ (List.mem_cons_of_mem _ member)
  · intro declaration member
    obtain ⟨_, _, _, _, stated⟩ := declared member
    exact stated.readable
  · intro declaration member text own
    obtain ⟨line, there, record, decoded, stated⟩ := declared member
    obtain ⟨cells, spelled, fields⟩ := stated.fields
    refine ⟨line, there, record, decoded, ?_⟩
    rw [fields]
    refine List.mem_cons_of_mem _ ?_
    rcases own with key | name
    · exact List.mem_append_left _ (Path.descriptors_subset spelled key)
    · exact List.mem_append_right _ name

theorem read_legible {content : ByteArray} {table : Table n}
    (done : Format.nested.read n content = .ok table)
    : table.Legible := by
  obtain ⟨_, labels, declarations, declared, rfl⟩ := exists_declaredIn done
  apply declareAll_legible declared.closed
  · intro label member
    obtain ⟨nonempty, stands⟩ := declared.label label member
    exact ⟨nonempty, stands.isCell⟩
  · intro declaration member text own
    exact (declared.cell declaration member text own).isCell
  · exact declared.readable

end Nested

theorem Format.read_legible {format : Format} {content : ByteArray} {table : Table n}
    (done : format.read n content = .ok table)
    : table.Legible := by
  cases format with
  | flat => exact Flat.read_legible done
  | nested => exact Nested.read_legible done

end NameTables
