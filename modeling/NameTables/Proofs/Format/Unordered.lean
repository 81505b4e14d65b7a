import Mathlib
import NameTables.Proofs.Flat.Order
import NameTables.Proofs.Flat.RoundTrip
import NameTables.Proofs.Nested.Unordered

/-! Written files regardless of the order of entries.
In the usual order a file holds what the table does, and nothing of the order in which the table was
built.
-/

namespace NameTables

namespace Format

/-- Tables that agree are written as the same text in both formats, if their members are told
apart.
-/
theorem write_of_agree {table table' : Table 2} (coherent : table.Coherent)
    (coherent' : table'.Coherent) (agree : table.agree table' = true)
    (apart : table.MembersApart) (format : Format) {text : String}
    (writes : format.write table = .ok text)
    : format.write table' = .ok text := by
  have same := Table.names?_of_agree agree
  have labels_eq := Table.labels_of_agree agree
  cases format with
  | flat =>
      obtain ⟨checked, rfl⟩ := Flat.writeWith_eq_ok_iff.mp writes
      have checked' := Nested.checkDescriptors_of_names? same coherent coherent' checked
      refine Flat.writeWith_eq_ok_iff.mpr ⟨checked', ?_⟩
      rw [Flat.body_eq coherent checked, Flat.body_eq coherent' checked',
        Flat.written_of_names? same coherent coherent' apart, labels_eq]
  | nested =>
      obtain ⟨checked, rfl⟩ := Nested.writeWith_eq_ok_iff.mp writes
      have checked' := Nested.checkDescriptors_of_names? same coherent coherent' checked
      refine Nested.writeWith_eq_ok_iff.mpr ⟨checked', ?_⟩
      rw [Nested.body_of_names? same coherent coherent' apart checked, labels_eq]

/-- A class with a method and a class nested in it with two fields of one name. -/
def overloaded : List (Declaration 2) :=
  [⟨.cls ⟨"a"⟩, .pair (some ⟨"a"⟩) (some ⟨"Alpha"⟩)⟩,
    ⟨.cls ⟨"a$b"⟩, .pair (some ⟨"a$b"⟩) (some ⟨"Beta"⟩)⟩,
    ⟨.field ⟨"a$b"⟩ ⟨⟨"f"⟩, some ⟨"I"⟩⟩, .pair (some ⟨"f"⟩) (some ⟨"size"⟩)⟩,
    ⟨.field ⟨"a$b"⟩ ⟨⟨"f"⟩, some ⟨"J"⟩⟩, .pair (some ⟨"f"⟩) (some ⟨"count"⟩)⟩,
    ⟨.method ⟨"a"⟩ ⟨⟨"m"⟩, ⟨"(II)V"⟩⟩, .pair (some ⟨"m"⟩) none⟩,
    ⟨.parameter ⟨"a"⟩ ⟨⟨"m"⟩, ⟨"(II)V"⟩⟩ 1, .pair none (some ⟨"from"⟩)⟩,
    ⟨.parameter ⟨"a"⟩ ⟨⟨"m"⟩, ⟨"(II)V"⟩⟩ 2, .pair none (some ⟨"to"⟩)⟩]

def declaredInOrder (declarations : List (Declaration 2)) : Table 2 :=
  (Table.empty ⟨#v["client", "named"]⟩).declareAll declarations

theorem overloaded_fits
    : ∀ declaration ∈ overloaded, declaration.path.Fits declaration.names := by
  simp [overloaded, Path.Fits, Names.first?, Names.pair]

theorem body_overloaded
    : Nested.body (declaredInOrder overloaded) .byName
      = [⟨0, "c", ["a", "Alpha"]⟩, ⟨1, "m", ["(II)V", "m", "m"]⟩, ⟨2, "p", ["1", "", "from"]⟩,
        ⟨2, "p", ["2", "", "to"]⟩, ⟨0, "c", ["a$b", "Beta"]⟩, ⟨1, "f", ["I", "f", "size"]⟩,
        ⟨1, "f", ["J", "f", "count"]⟩] := by
  cbv

theorem write_of_agree_overloaded
    : declaredInOrder overloaded.reverse ≠ declaredInOrder overloaded
        ∧ ∃ text, Format.nested.write (declaredInOrder overloaded.reverse) = .ok text
          ∧ text = "tiny\t2\t0\tclient\tnamed\nc\ta\tAlpha\n\tm\t(II)V\tm\tm\n\t\tp\t1\t\tfrom\n\t\tp\t2\t\tto\nc\ta$b\tBeta\n\tf\tI\tf\tsize\n\tf\tJ\tf\tcount\n" := by
  have writes : Format.nested.write (declaredInOrder overloaded)
      = .ok "tiny\t2\t0\tclient\tnamed\nc\ta\tAlpha\n\tm\t(II)V\tm\tm\n\t\tp\t1\t\tfrom\n\t\tp\t2\t\tto\nc\ta$b\tBeta\n\tf\tI\tf\tsize\n\tf\tJ\tf\tcount\n" := by
    refine Nested.writeWith_eq_ok_iff.mpr ⟨rfl, ?_⟩
    rw [body_overloaded]
    decide +kernel
  have coherent : (declaredInOrder overloaded).Coherent :=
    Table.declareAll_coherent _ (by decide) overloaded_fits
  have coherent' : (declaredInOrder overloaded.reverse).Coherent :=
    Table.declareAll_coherent _ (by decide) fun declaration member =>
      overloaded_fits declaration (List.mem_reverse.mp member)
  have agree : (declaredInOrder overloaded).agree (declaredInOrder overloaded.reverse) = true := by
    decide +kernel
  have apart : (declaredInOrder overloaded).MembersApart :=
    ⟨by decide +kernel, by decide +kernel⟩
  exact ⟨by decide +kernel, _, write_of_agree coherent coherent' agree apart .nested writes, rfl⟩

end Format

end NameTables
