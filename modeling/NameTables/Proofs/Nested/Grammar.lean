import Mathlib.Computability.Language
import NameTables.Format
import NameTables.Proofs.Format.Rows
import NameTables.Proofs.Nested.Steps

/-! The grammar of the nested format.
The grammar is a language over rows, built from single rows by sequence, choice and repetition.
Reading accepts exactly the files whose rows are in that language: the open records of a step stand
for what may still follow, and a line is read when the rest can complete it.
-/

namespace NameTables.Nested

open scoped Computability

variable {n : Nat}

/-- The version, and then `n` labels. A header may be indented. -/
def IsHeader (n : Nat) (row : Row) : Prop :=
  row.tag = "tiny"
  ∧ ∃ labels, row.fields = "2" :: "0" :: labels ∧ labels.length = n ∧ "" ∉ labels

def IsClass (n : Nat) (row : Row) : Prop :=
  row.depth = 0 ∧ row.tag = "c" ∧ Keyed n row.fields

/-- The descriptor of a field may be empty. -/
def IsField (n : Nat) (row : Row) : Prop :=
  row.depth = 1 ∧ row.tag = "f"
  ∧ ∃ descriptor names, row.fields = descriptor :: names ∧ Keyed n names

def IsMethod (n : Nat) (row : Row) : Prop :=
  row.depth = 1 ∧ row.tag = "m"
  ∧ ∃ descriptor names, row.fields = descriptor :: names ∧ descriptor ≠ "" ∧ Keyed n names

/-- All names of a parameter may be empty. -/
def IsParameter (n : Nat) (row : Row) : Prop :=
  row.depth = 2 ∧ row.tag = "p"
  ∧ ∃ index names, row.fields = index :: names ∧ IsIndex index ∧ names.length = n

/-- A comment holds anything. -/
def IsComment (depth : Nat) (row : Row) : Prop := row.depth = depth ∧ row.tag = "c"

/-- One row of a kind. -/
def single (holds : Row → Prop) : Language Row := {rows | ∃ row, rows = [row] ∧ holds row}

def parameter (n : Nat) : Language Row := single (IsParameter n) * (single (IsComment 3))∗

def method (n : Nat) : Language Row :=
  single (IsMethod n) * (parameter n + single (IsComment 2))∗

def field (n : Nat) : Language Row := single (IsField n) * (single (IsComment 2))∗

def cls (n : Nat) : Language Row :=
  single (IsClass n) * (field n + method n + single (IsComment 1))∗

def file (n : Nat) : Language Row := (cls n)∗

/-- The line is UTF-8 and reads as the row: the tabs in front of it, and its cells between tabs. -/
def Spells (line : Text.Line) (row : Row) : Prop :=
  line.text = some row.render ∧ row.Writable

/-- The lines spell a header and then the rows of a file. -/
def Grammatical (n : Nat) (lines : List Text.Line) : Prop :=
  ∃ header body,
    List.Forall₂ Spells lines (header :: body) ∧ IsHeader n header ∧ body ∈ file n

theorem cons_mem_single_mul_iff {holds : Row → Prop} {language : Language Row} {row : Row}
    {rest : List Row}
    : row :: rest ∈ single holds * language ↔ holds row ∧ rest ∈ language := by
  rw [Language.mem_mul]
  constructor
  · intro given
    rcases given with ⟨_, ⟨first, rfl, good⟩, after, member, whole⟩
    obtain ⟨rfl, rfl⟩ := List.cons.inj whole
    exact ⟨good, member⟩
  · intro given
    rcases given with ⟨good, member⟩
    exact ⟨[row], ⟨row, rfl, good⟩, rest, member, rfl⟩

theorem cons_mem_single_iff {holds : Row → Prop} {row : Row} {rest : List Row}
    : row :: rest ∈ single holds ↔ holds row ∧ rest = [] := by
  constructor
  · intro given
    rcases given with ⟨first, whole, good⟩
    obtain ⟨rfl, rfl⟩ := List.cons.inj whole
    exact ⟨good, rfl⟩
  · intro given
    rcases given with ⟨good, rfl⟩
    exact ⟨row, rfl, good⟩

/-- A nonempty repetition starts with a nonempty word. -/
theorem cons_mem_kstar_iff {α : Type} {language : Language α} {a : α} {rest : List α}
    : a :: rest ∈ language∗
      ↔ ∃ first after, rest = first ++ after ∧ a :: first ∈ language ∧ after ∈ language∗ := by
  constructor
  · intro member
    rw [Language.kstar_def_nonempty] at member
    obtain ⟨words, whole, good⟩ := member
    cases words with
    | nil => simp at whole
    | cons word words =>
        obtain ⟨in_language, nonempty⟩ := good word List.mem_cons_self
        obtain ⟨b, first, rfl⟩ := List.exists_cons_of_ne_nil nonempty
        rw [List.flatten_cons, List.cons_append] at whole
        obtain ⟨rfl, rfl⟩ := List.cons.inj whole
        refine ⟨first, words.flatten, rfl, in_language, Language.join_mem_kstar ?_⟩
        intro word member
        exact (good word (List.mem_cons_of_mem _ member)).1
  · intro given
    rcases given with ⟨first, after, rfl, in_language, member⟩
    rw [← Language.one_add_self_mul_kstar_eq_kstar, Language.mem_add]
    exact Or.inr (Language.append_mem_mul in_language member)

-----------------------------------------------------------------------------------------
-- What may stand in an entry
-----------------------------------------------------------------------------------------

/-- How far the rows that stand in an entry are indented. -/
def level : Option Kind → Nat
  | none => 0
  | some .cls => 1
  | some .field => 2
  | some .method => 2
  | some .parameter => 3

/-- (Opens n owner kind row) says that a row opens an entry of a kind in one of kind `owner`. -/
inductive Opens (n : Nat) : Option Kind → Kind → Row → Prop
  | cls {row} (is : IsClass n row) : Opens n none .cls row
  | field {row} (is : IsField n row) : Opens n (some .cls) .field row
  | method {row} (is : IsMethod n row) : Opens n (some .cls) .method row
  | parameter {row} (is : IsParameter n row) : Opens n (some .method) .parameter row

/-- An entry opens where its owner says, and its own content stands one level below. -/
theorem Opens.depth {owner : Option Kind} {kind : Kind} {row : Row}
    (opens : Opens n owner kind row)
    : row.depth = level owner ∧ level (some kind) = level owner + 1 := by
  cases opens with
  | cls is => exact ⟨is.1, rfl⟩
  | field is => exact ⟨is.1, rfl⟩
  | method is => exact ⟨is.1, rfl⟩
  | parameter is => exact ⟨is.1, rfl⟩

/-- What may be repeated in an entry, or in a file. -/
def item (n : Nat) : Option Kind → Language Row
  | none => cls n
  | some .cls => field n + method n + single (IsComment 1)
  | some .field => single (IsComment 2)
  | some .method => parameter n + single (IsComment 2)
  | some .parameter => single (IsComment 3)

/-- All that may stand in an entry, or in a file. -/
def content (n : Nat) (owner : Option Kind) : Language Row := (item n owner)∗

/-- The row is a comment in an entry of kind `owner`. A file has none outside of its classes. -/
def Comments (owner : Option Kind) (row : Row) : Prop :=
  owner ≠ none ∧ IsComment (level owner) row

/-- An item opens an entry and then has the content of one, or it is a comment. -/
theorem cons_mem_item_iff {owner : Option Kind} {row : Row} {rest : List Row}
    : row :: rest ∈ item n owner
      ↔ (∃ kind, Opens n owner kind row ∧ rest ∈ content n (some kind))
        ∨ Comments owner row ∧ rest = [] := by
  cases owner with
  | none =>
      rw [item, cls, cons_mem_single_mul_iff]
      constructor
      · intro given
        rcases given with ⟨is, member⟩
        exact Or.inl ⟨.cls, .cls is, member⟩
      · intro either
        rcases either with ⟨kind, opens, member⟩ | ⟨comments, _⟩
        · cases opens with
          | cls is => exact ⟨is, member⟩
        · exact absurd rfl comments.1
  | some owner =>
      have comments : Comments (some owner) row ↔ IsComment (level (some owner)) row := by
        simp [Comments]
      rw [comments]
      cases owner with
      | cls =>
          rw [item, Language.mem_add, Language.mem_add, field, method, cons_mem_single_mul_iff,
            cons_mem_single_mul_iff, cons_mem_single_iff]
          constructor
          · intro either
            rcases either with (⟨is, member⟩ | ⟨is, member⟩) | comment
            · exact Or.inl ⟨.field, .field is, member⟩
            · exact Or.inl ⟨.method, .method is, member⟩
            · exact Or.inr comment
          · intro either
            rcases either with ⟨kind, opens, member⟩ | comment
            · cases opens with
              | field is => exact Or.inl (Or.inl ⟨is, member⟩)
              | method is => exact Or.inl (Or.inr ⟨is, member⟩)
            · exact Or.inr comment
      | method =>
          rw [item, Language.mem_add, parameter, cons_mem_single_mul_iff, cons_mem_single_iff]
          constructor
          · intro either
            rcases either with ⟨is, member⟩ | comment
            · exact Or.inl ⟨.parameter, .parameter is, member⟩
            · exact Or.inr comment
          · intro either
            rcases either with ⟨kind, opens, member⟩ | comment
            · cases opens with
              | parameter is => exact Or.inl ⟨is, member⟩
            · exact Or.inr comment
      | field =>
          rw [item, cons_mem_single_iff]
          refine ⟨Or.inr, ?_⟩
          intro either
          rcases either with ⟨kind, opens, _⟩ | comment
          · cases opens
          · exact comment
      | parameter =>
          rw [item, cons_mem_single_iff]
          refine ⟨Or.inr, ?_⟩
          intro either
          rcases either with ⟨kind, opens, _⟩ | comment
          · cases opens
          · exact comment

theorem nil_mem_content (owner : Option Kind) : [] ∈ content n owner :=
  Language.nil_mem_kstar _

theorem cons_mem_content_iff {owner : Option Kind} {row : Row} {rest : List Row}
    : row :: rest ∈ content n owner
      ↔ (∃ kind, Opens n owner kind row ∧ rest ∈ content n (some kind) * content n owner)
        ∨ Comments owner row ∧ rest ∈ content n owner := by
  have repeats : content n owner = (item n owner)∗ := rfl
  rw [repeats, cons_mem_kstar_iff]
  constructor
  · intro given
    rcases given with ⟨first, after, rfl, begins, member⟩
    rcases cons_mem_item_iff.mp begins with ⟨kind, opens, inside⟩ | ⟨comments, rfl⟩
    · exact Or.inl ⟨kind, opens, Language.append_mem_mul inside member⟩
    · exact Or.inr ⟨comments, member⟩
  · intro either
    rcases either with ⟨kind, opens, member⟩ | ⟨comments, member⟩
    · obtain ⟨first, inside, after, more, rfl⟩ := Language.mem_mul.mp member
      exact ⟨first, after, rfl, cons_mem_item_iff.mpr (Or.inl ⟨kind, opens, inside⟩), more⟩
    · exact ⟨[], rest, rfl, cons_mem_item_iff.mpr (Or.inr ⟨comments, rfl⟩), member⟩

-----------------------------------------------------------------------------------------
-- What may follow when entries are open
-----------------------------------------------------------------------------------------

/-- The rest of a file in which entries of these kinds are open, the outermost first. -/
def remaining (n : Nat) (kinds : List Kind) : Language Row :=
  kinds.foldl (fun after kind => content n (some kind) * after) (content n none)

theorem remaining_concat (kinds : List Kind) (kind : Kind)
    : remaining n (kinds ++ [kind]) = content n (some kind) * remaining n kinds := by
  simp [remaining]

theorem nil_mem_remaining (kinds : List Kind) : [] ∈ remaining n kinds := by
  induction kinds using List.reverseRecOn with
  | nil => exact nil_mem_content none
  | append_singleton kinds kind ih =>
      rw [remaining_concat]
      exact Language.append_mem_mul (nil_mem_content (some kind)) ih

/-- The innermost of the open entries around a row that is indented by `depth` tabs. -/
def ownerKind (kinds : List Kind) (depth : Nat) : Option Kind := (kinds.take depth).getLast?

/-- Each of the open entries is at its level. -/
def Stacked (kinds : List Kind) : Prop :=
  ∀ depth ≤ kinds.length, level (ownerKind kinds depth) = depth

theorem stacked_nil : Stacked [] := by
  intro depth shallow
  simp only [List.length_nil, Nat.le_zero] at shallow
  simp [shallow, ownerKind, level]

theorem ownerKind_concat_of_le {kinds : List Kind} {kind : Kind} {depth : Nat}
    (shallow : depth ≤ kinds.length)
    : ownerKind (kinds ++ [kind]) depth = ownerKind kinds depth := by
  rw [ownerKind, ownerKind, List.take_append_of_le_length shallow]

theorem ownerKind_concat_self (kinds : List Kind) (kind : Kind)
    : ownerKind (kinds ++ [kind]) (kinds.length + 1) = some kind := by
  rw [ownerKind, List.take_of_length_le (by simp), List.getLast?_concat]

theorem stacked_concat_iff {kinds : List Kind} {kind : Kind}
    : Stacked (kinds ++ [kind]) ↔ Stacked kinds ∧ level (some kind) = kinds.length + 1 := by
  constructor
  · intro stacked
    constructor
    · intro depth shallow
      rw [← ownerKind_concat_of_le shallow]
      exact stacked depth (by simp; omega)
    · rw [← ownerKind_concat_self kinds kind]
      exact stacked _ (by simp)
  · intro given depth shallow
    rcases given with ⟨stacked, last⟩
    rw [List.length_append, List.length_singleton] at shallow
    rcases Nat.lt_or_eq_of_le shallow with inner | rfl
    · rw [ownerKind_concat_of_le (Nat.le_of_lt_succ inner)]
      exact stacked depth (Nat.le_of_lt_succ inner)
    · rw [ownerKind_concat_self]
      exact last

theorem Stacked.take {kinds : List Kind} (stacked : Stacked kinds) (depth : Nat)
    : Stacked (kinds.take depth) := by
  intro inner shallow
  rw [List.length_take] at shallow
  rw [ownerKind, List.take_take, Nat.min_eq_left (by omega)]
  exact stacked inner (by omega)

/-- A row in front of what follows an entry stands in the entry, or the entry has ended. -/
theorem cons_mem_content_mul_iff {owner : Option Kind} {after : Language Row} {row : Row}
    {rest : List Row}
    : row :: rest ∈ content n owner * after
      ↔ ((∃ kind, Opens n owner kind row
            ∧ rest ∈ content n (some kind) * (content n owner * after))
          ∨ Comments owner row ∧ rest ∈ content n owner * after)
        ∨ row :: rest ∈ after := by
  constructor
  · intro member
    obtain ⟨inside, within_owner, others, ended, whole⟩ := Language.mem_mul.mp member
    cases inside with
    | nil => exact Or.inr (whole ▸ ended)
    | cons first inside =>
        obtain ⟨rfl, rfl⟩ := List.cons.inj whole
        left
        rcases cons_mem_content_iff.mp within_owner with ⟨kind, opens, more⟩ | ⟨comments, more⟩
        · refine Or.inl ⟨kind, opens, ?_⟩
          rw [← mul_assoc]
          exact Language.append_mem_mul more ended
        · exact Or.inr ⟨comments, Language.append_mem_mul more ended⟩
  · intro either
    rcases either with (⟨kind, opens, member⟩ | ⟨comments, member⟩) | member
    · rw [← mul_assoc] at member
      obtain ⟨inside, more, others, ended, rfl⟩ := Language.mem_mul.mp member
      exact Language.append_mem_mul (a := row :: inside)
        (cons_mem_content_iff.mpr (Or.inl ⟨kind, opens, more⟩)) ended
    · obtain ⟨inside, more, others, ended, rfl⟩ := Language.mem_mul.mp member
      exact Language.append_mem_mul (a := row :: inside)
        (cons_mem_content_iff.mpr (Or.inr ⟨comments, more⟩)) ended
    · exact Language.append_mem_mul (nil_mem_content owner) member

/-- A row is read next when the innermost entry around it may hold it. The entries that are as deep
as the row are left, by induction on the open ones.
-/
theorem cons_mem_remaining_iff {kinds : List Kind} (stacked : Stacked kinds) {row : Row}
    {rest : List Row}
    : row :: rest ∈ remaining n kinds
      ↔ row.depth ≤ kinds.length
        ∧ ((∃ kind, Opens n (ownerKind kinds row.depth) kind row
            ∧ rest ∈ remaining n (kinds.take row.depth ++ [kind]))
          ∨ Comments (ownerKind kinds row.depth) row
            ∧ rest ∈ remaining n (kinds.take row.depth)) := by
  induction kinds using List.reverseRecOn with
  | nil =>
      have start : remaining n [] = content n none := rfl
      rw [start, cons_mem_content_iff]
      simp only [List.length_nil, Nat.le_zero, List.take_nil, List.nil_append, ownerKind,
        List.getLast?_nil]
      constructor
      · intro either
        rcases either with ⟨kind, opens, member⟩ | ⟨comments, _⟩
        · exact ⟨opens.depth.1, Or.inl ⟨kind, opens, member⟩⟩
        · exact absurd rfl comments.1
      · intro given
        rcases given with ⟨_, ⟨kind, opens, member⟩ | ⟨comments, _⟩⟩
        · exact Or.inl ⟨kind, opens, member⟩
        · exact absurd rfl comments.1
  | append_singleton kinds innermost ih =>
      obtain ⟨outer, last⟩ := stacked_concat_iff.mp stacked
      have next (kind : Kind)
          : remaining n (kinds ++ [innermost] ++ [kind])
            = content n (some kind) * (content n (some innermost) * remaining n kinds) := by
        rw [remaining_concat, remaining_concat]
      have whole : (kinds ++ [innermost]).length = kinds.length + 1 := by simp
      rw [remaining_concat, cons_mem_content_mul_iff, ih outer, whole]
      -- A row below the innermost entry stands in it, and a shallower one ends it.
      rcases Nat.lt_trichotomy row.depth (kinds.length + 1) with inner | here | deep
      · have shallow : row.depth ≤ kinds.length := Nat.le_of_lt_succ inner
        rw [ownerKind_concat_of_le shallow, List.take_append_of_le_length shallow]
        constructor
        · intro either
          rcases either with (⟨kind, opens, _⟩ | ⟨comments, _⟩) | ⟨_, read⟩
          · have := opens.depth.1
            omega
          · have := comments.2.1
            omega
          · exact ⟨by omega, read⟩
        · intro given
          rcases given with ⟨_, read⟩
          exact Or.inr ⟨shallow, read⟩
      · have too_deep : ¬row.depth ≤ kinds.length := by omega
        have all : (kinds ++ [innermost]).take row.depth = kinds ++ [innermost] :=
          List.take_of_length_le (by omega)
        rw [all, here, ownerKind_concat_self, ← remaining_concat]
        simp only [next, remaining_concat, Nat.le_refl, true_and]
        constructor
        · intro either
          rcases either with read | ⟨shallow, _⟩
          · exact read
          · omega
        · exact Or.inl
      · constructor
        · intro either
          rcases either with (⟨kind, opens, _⟩ | ⟨comments, _⟩) | ⟨shallow, _⟩
          · have := opens.depth.1
            omega
          · have := comments.2.1
            omega
          · omega
        · intro given
          rcases given with ⟨shallow, _⟩
          omega

-----------------------------------------------------------------------------------------
-- Reading against the grammar
-----------------------------------------------------------------------------------------

/-- A line spells the row that it is read as, if that has a tag. -/
theorem spells_iff {line : Text.Line} {row : Row}
    : Spells line row ↔ row.tag ≠ "" ∧ ∃ record, line.record = .ok record ∧ record.toRow = row := by
  simp only [Text.Line.record_eq_ok_iff]
  constructor
  · intro given
    rcases given with ⟨text, writable⟩
    refine ⟨writable.tag_ne, _, ⟨row.render, text, rfl⟩, ?_⟩
    exact (Row.parse_eq_iff writable.tag_ne).mpr ⟨writable, rfl⟩
  · intro given
    rcases given with ⟨tag_ne, _, ⟨text, is_text, rfl⟩, same⟩
    obtain ⟨writable, rfl⟩ := (Row.parse_eq_iff tag_ne).mp same
    exact ⟨is_text, writable⟩

/-- Records declare entries of a kind exactly where their rows open one. -/
theorem exists_declares_some_iff {owner : Option Path} {kind : Kind} {record : Record}
    (placed : record.depth = level (owner.map Path.kind))
    : (∃ declaration,
          Declares n owner record (some declaration) ∧ declaration.path.kind = kind)
      ↔ Opens n (owner.map Path.kind) kind record.toRow := by
  constructor
  · intro given
    rcases given with ⟨declaration, declares, rfl⟩
    cases declares with
    | cls tag keyed =>
        exact .cls ⟨placed, tag, Record.keyedNames_keyed_iff.mp ⟨_, keyed⟩⟩
    | field tag described keyed =>
        obtain ⟨text, taken, _⟩ := Record.takeFieldDescriptor_eq_ok_iff.mp described
        exact .field ⟨placed, tag, text, _, (Record.take_eq_ok_iff.mp taken).1,
          Record.keyedNames_keyed_iff.mp ⟨_, keyed⟩⟩
    | method tag described keyed =>
        obtain ⟨taken, nonempty⟩ := Record.takeMethodDescriptor_eq_ok_iff.mp described
        exact .method ⟨placed, tag, _, _, (Record.take_eq_ok_iff.mp taken).1, nonempty,
          Record.keyedNames_keyed_iff.mp ⟨_, keyed⟩⟩
    | parameter tag taken indexed named =>
        obtain ⟨texts, fields, _⟩ := Record.names_eq_ok_iff.mp named
        refine .parameter ⟨placed, tag, _, _, (Record.take_eq_ok_iff.mp taken).1,
          parameterIndex_isIndex_iff.mp ⟨_, indexed⟩, ?_⟩
        rw [fields, Vector.length_toList]
  · intro opens
    have named (kind : Kind) {names : List String} (keyed : Keyed n names)
        : ∃ result, Record.keyedNames n kind { record with fields := names } = .ok result :=
      Record.keyedNames_keyed_iff.mpr keyed
    have taken {text : String} {names : List String} (fields : record.fields = text :: names)
        : record.take = .ok (text, { record with fields := names }) :=
      Record.take_eq_ok_iff.mpr ⟨fields, rfl⟩
    cases owner with
    | none =>
        cases opens with
        | cls is =>
            obtain ⟨_, keyed⟩ := named .cls is.2.2
            exact ⟨_, .cls is.2.1 keyed, rfl⟩
    | some path =>
        cases path with
        | cls owner =>
            cases opens with
            | field is =>
                obtain ⟨_, tag, text, names, fields, keyed⟩ := is
                obtain ⟨_, keyed⟩ := named .field keyed
                have described :=
                  Record.takeFieldDescriptor_eq_ok_iff.mpr ⟨text, taken fields, rfl⟩
                exact ⟨_, .field tag described keyed, rfl⟩
            | method is =>
                obtain ⟨_, tag, text, names, fields, nonempty, keyed⟩ := is
                obtain ⟨_, keyed⟩ := named .method keyed
                have described : record.takeMethodDescriptor
                    = .ok (⟨text⟩, { record with fields := names }) :=
                  Record.takeMethodDescriptor_eq_ok_iff.mpr ⟨taken fields, nonempty⟩
                exact ⟨_, .method tag described keyed, rfl⟩
        | method owner key =>
            cases opens with
            | parameter is =>
                obtain ⟨_, tag, text, names, fields, is_index, length⟩ := is
                obtain ⟨index, indexed⟩ := parameterIndex_isIndex_iff.mpr is_index
                obtain ⟨texts, rfl⟩ := exists_vector_of_length length
                have unkeyed : Record.names n .parameter { record with fields := texts.toList }
                    = .ok (.ofTexts texts) :=
                  Record.names_eq_ok_iff.mpr ⟨texts, rfl, rfl⟩
                exact ⟨_, .parameter tag (taken fields) indexed unkeyed, rfl⟩
        | field owner key => cases opens
        | parameter owner key index => cases opens

/-- Records are comments exactly where their rows are. -/
theorem declares_none_iff {owner : Option Path} {record : Record}
    (placed : record.depth = level (owner.map Path.kind))
    : Declares n owner record none ↔ Comments (owner.map Path.kind) record.toRow := by
  constructor
  · intro declares
    cases declares with
    | comment tag => exact ⟨by simp, placed, tag⟩
  · intro given
    rcases given with ⟨inside, _, tag⟩
    cases owner with
    | none => exact absurd rfl inside
    | some path => exact .comment tag

/-- The kinds of the open entries. -/
def Progress.kinds (progress : Progress n) : List Kind :=
  progress.opened.map fun opened => opened.path.kind

theorem Progress.ownerAt_kind (progress : Progress n) (depth : Nat)
    : (progress.ownerAt depth).map Path.kind = ownerKind progress.kinds depth := by
  simp [ownerAt, around, ownerKind, kinds, ← List.map_take, Option.map_map, Function.comp_def]

theorem Progress.kinds_advance_some (progress : Progress n) (record : Record)
    (declaration : Declaration n)
    : (progress.advance record (some declaration)).kinds
      = progress.kinds.take record.depth ++ [declaration.path.kind] := by
  simp [advance, kinds, around]

theorem Progress.kinds_advance_none (progress : Progress n) (record : Record)
    : (progress.advance record none).kinds = progress.kinds.take record.depth := by
  simp [advance, kinds, around]

theorem Declares.tag_ne {owner : Option Path} {record : Record}
    {declared : Option (Declaration n)} (declares : Declares n owner record declared)
    : record.tag ≠ "" := by
  cases declares with
  | cls tag | field tag | method tag | parameter tag | comment tag => simp [tag]

/-- A step opens an entry or reads a comment, wherever the open entries allow that. -/
theorem step_kinds_iff {progress : Progress n} (stacked : Stacked progress.kinds)
    {line : Text.Line} (goes : List Kind → Prop)
    : (∃ next, step progress line = .ok next ∧ goes next.kinds)
      ↔ ∃ row, Spells line row ∧ row.depth ≤ progress.kinds.length
          ∧ ((∃ kind, Opens n (ownerKind progress.kinds row.depth) kind row
              ∧ goes (progress.kinds.take row.depth ++ [kind]))
            ∨ Comments (ownerKind progress.kinds row.depth) row
              ∧ goes (progress.kinds.take row.depth)) := by
  have open_count : progress.kinds.length = progress.opened.length := by
    simp [Progress.kinds]
  have placed {record : Record} (shallow : record.depth ≤ progress.opened.length)
      : record.depth = level ((progress.ownerAt record.depth).map Path.kind) := by
    rw [Progress.ownerAt_kind]
    exact (stacked _ (open_count ▸ shallow)).symm
  simp only [step_eq_ok_iff, open_count]
  constructor
  · intro given
    rcases given with ⟨next, ⟨record, declared, decoded, shallow, declares, rfl⟩, continues⟩
    refine ⟨record.toRow, spells_iff.mpr ⟨declares.tag_ne, record, decoded, rfl⟩, shallow, ?_⟩
    rw [← Progress.ownerAt_kind]
    cases declared with
    | none =>
        rw [Progress.kinds_advance_none] at continues
        exact Or.inr ⟨(declares_none_iff (placed shallow)).mp declares, continues⟩
    | some declaration =>
        rw [Progress.kinds_advance_some] at continues
        exact Or.inl ⟨declaration.path.kind,
          (exists_declares_some_iff (placed shallow)).mp ⟨declaration, declares, rfl⟩, continues⟩
  · intro given
    rcases given with ⟨row, spelled, shallow, read⟩
    obtain ⟨tag_ne, record, decoded, rfl⟩ := spells_iff.mp spelled
    rw [← Progress.ownerAt_kind] at read
    rcases read with ⟨kind, opens, continues⟩ | ⟨comments, continues⟩
    · obtain ⟨declaration, declares, rfl⟩ :=
        (exists_declares_some_iff (placed shallow)).mpr opens
      refine ⟨_, ⟨record, some declaration, decoded, shallow, declares, rfl⟩, ?_⟩
      rw [Progress.kinds_advance_some]
      exact continues
    · have declares := (declares_none_iff (n := n) (placed shallow)).mpr comments
      refine ⟨_, ⟨record, none, decoded, shallow, declares, rfl⟩, ?_⟩
      rw [Progress.kinds_advance_none]
      exact continues

/-- The open entries stay at their levels. -/
theorem step_stacked {progress next : Progress n} (stacked : Stacked progress.kinds)
    {line : Text.Line} (read : step progress line = .ok next)
    : Stacked next.kinds := by
  have reaches : ∃ next', step progress line = .ok next' ∧ next'.kinds = next.kinds :=
    ⟨next, read, rfl⟩
  obtain ⟨row, _, shallow, ⟨kind, opens, same⟩ | ⟨_, same⟩⟩ :=
    (step_kinds_iff stacked (· = next.kinds)).mp reaches
  · rw [← same, stacked_concat_iff]
    refine ⟨stacked.take row.depth, ?_⟩
    rw [opens.depth.2, ← opens.depth.1, List.length_take, Nat.min_eq_left shallow]
  · rw [← same]
    exact stacked.take row.depth

/-- The lines are read exactly if they spell what may follow, by induction on the lines. -/
theorem run_eq_ok_iff {lines : List Text.Line} {progress : Progress n}
    (stacked : Stacked progress.kinds)
    : (∃ progress', lines.foldlM step progress = .ok progress')
      ↔ ∃ rows, List.Forall₂ Spells lines rows ∧ rows ∈ remaining n progress.kinds := by
  induction lines generalizing progress with
  | nil =>
      constructor
      · intro _
        exact ⟨[], .nil, nil_mem_remaining _⟩
      · intro _
        exact ⟨progress, rfl⟩
  | cons line lines ih =>
      -- What is left to read depends on the step through the kinds of the open entries alone.
      let completes (kinds : List Kind) : Prop :=
        ∃ rows, List.Forall₂ Spells lines rows ∧ rows ∈ remaining n kinds
      have first : (∃ progress', (line :: lines).foldlM step progress = .ok progress')
          ↔ ∃ next, step progress line = .ok next ∧ completes next.kinds := by
        simp only [List.foldlM_cons, Outcome.bind_eq_ok_iff]
        constructor
        · intro given
          rcases given with ⟨progress', next, read, later⟩
          exact ⟨next, read, (ih (step_stacked stacked read)).mp ⟨progress', later⟩⟩
        · intro given
          rcases given with ⟨next, read, later⟩
          obtain ⟨progress', later⟩ := (ih (step_stacked stacked read)).mpr later
          exact ⟨progress', next, read, later⟩
      rw [first, step_kinds_iff stacked completes]
      constructor
      · intro given
        rcases given with ⟨row, spelled, shallow, ⟨kind, opens, rows, all, member⟩
          | ⟨comments, rows, all, member⟩⟩
        · exact ⟨row :: rows, .cons spelled all, (cons_mem_remaining_iff stacked).mpr
            ⟨shallow, Or.inl ⟨kind, opens, member⟩⟩⟩
        · exact ⟨row :: rows, .cons spelled all, (cons_mem_remaining_iff stacked).mpr
            ⟨shallow, Or.inr ⟨comments, member⟩⟩⟩
      · intro given
        rcases given with ⟨_, ⟨⟩ | ⟨spelled, all⟩, member⟩
        obtain ⟨shallow, ⟨kind, opens, member⟩ | ⟨comments, member⟩⟩ :=
          (cons_mem_remaining_iff stacked).mp member
        · exact ⟨_, spelled, shallow, Or.inl ⟨kind, opens, _, all, member⟩⟩
        · exact ⟨_, spelled, shallow, Or.inr ⟨comments, _, all, member⟩⟩

/-- A header is read as labels exactly if it has as many. -/
theorem headerLabels_isHeader_iff {record : Record}
    : (∃ labels, headerLabels n record = .ok labels) ↔ IsHeader n record.toRow := by
  simp only [headerLabels_eq_ok_iff]
  constructor
  · intro given
    rcases given with ⟨labels, tag, fields, nonempty⟩
    exact ⟨tag, labels.toList, fields, by simp [Labels.toList], nonempty⟩
  · intro given
    rcases given with ⟨tag, texts, fields, length, nonempty⟩
    obtain ⟨vector, rfl⟩ := exists_vector_of_length length
    exact ⟨⟨vector⟩, tag, fields, nonempty⟩

/-- Files are read exactly if there are two namespaces and the lines follow the grammar. -/
theorem read_accepts_iff_grammatical (n : Nat) (content : ByteArray)
    : (∃ table, Format.nested.read n content = .ok table)
      ↔ 2 ≤ n ∧ Grammatical n (Text.Line.ofContent content) := by
  have start : remaining n [] = file n := rfl
  have whole : Format.nested.read n content = read n (Text.Line.ofContent content) := rfl
  have begins (labels : Labels n) (rest : List Text.Line)
      : (∃ progress, rest.foldlM step ⟨Table.empty labels, []⟩ = .ok progress)
        ↔ ∃ body, List.Forall₂ Spells rest body ∧ body ∈ file n :=
    run_eq_ok_iff stacked_nil
  simp only [whole, read_eq_ok_iff]
  constructor
  · intro given
    rcases given with
      ⟨_, enough, first, rest, header, labels, progress, lines, decoded, labelled, run, _⟩
    have is_header := headerLabels_isHeader_iff.mp ⟨labels, labelled⟩
    have spelled : Spells first header.toRow :=
      spells_iff.mpr ⟨by simp [is_header.1], header, decoded, rfl⟩
    obtain ⟨body, all, member⟩ := (begins labels rest).mp ⟨progress, run⟩
    refine ⟨enough, header.toRow, body, ?_, is_header, member⟩
    rw [lines]
    exact .cons spelled all
  · intro given
    rcases given with ⟨enough, header, body, all, is_header, member⟩
    obtain ⟨first, rest, spelled, spelled_rest, lines⟩ := List.forall₂_cons_right_iff.mp all
    obtain ⟨_, record, decoded, rfl⟩ := spells_iff.mp spelled
    obtain ⟨labels, labelled⟩ := headerLabels_isHeader_iff.mpr is_header
    obtain ⟨progress, run⟩ := (begins labels rest).mpr ⟨body, spelled_rest, member⟩
    exact ⟨_, enough, first, rest, record, labels, progress, lines, decoded, labelled, run, rfl⟩

end NameTables.Nested
