import NameTables.Proofs.Format.Records

/-! Namespaces found by their labels.
The first namespace with a label is found, and none exactly if no namespace has it.
-/

namespace NameTables.Labels

variable {n : Nat}

theorem resolve_eq_ok_iff {labels : Labels n} {label : String} {i : Fin n}
    : labels.resolve label = .ok i ↔ labels.find? label = some i := by
  unfold resolve
  cases labels.find? label with
  | none => simp
  | some j => simp

theorem mem_of_find? {labels : Labels n} {label : String} {i : Fin n}
    (found : labels.find? label = some i)
    : label ∈ labels.toList := by
  obtain rfl : labels.texts[i] = label := by simpa using List.find?_some found
  exact Vector.mem_toList_iff.mpr (Vector.getElem_mem i.isLt)

theorem find?_first (labels : Labels n) (positive : 0 < n)
    : labels.find? labels.texts[0] = some ⟨0, positive⟩ := by
  obtain ⟨k, rfl⟩ : ∃ k, n = k + 1 := ⟨n - 1, by omega⟩
  simp [find?, List.finRange_succ]

/-- The second label leads to the first namespace if that has it as well. -/
theorem find?_second (labels : Labels n) (two : 2 ≤ n)
    : labels.find? (labels.texts.get (.castLE two 1))
      = some (if labels.texts.get (.castLE two 0) = labels.texts.get (.castLE two 1)
          then .castLE two 0
          else .castLE two 1) := by
  obtain ⟨k, rfl⟩ : ∃ k, n = k + 2 := ⟨n - 2, by omega⟩
  change labels.find? labels.texts[1]
    = some (if labels.texts[0] = labels.texts[1] then 0 else 1)
  by_cases same : labels.texts[0] = labels.texts[1]
  all_goals simp [find?, List.finRange_succ, same]

theorem find?_pair_fst (source target : String)
    : (⟨#v[source, target]⟩ : Labels 2).find? source = some 0 :=
  find?_first ⟨#v[source, target]⟩ (by decide)

theorem find?_pair_snd {source target : String} (different : source ≠ target)
    : (⟨#v[source, target]⟩ : Labels 2).find? target = some 1 :=
  (find?_second ⟨#v[source, target]⟩ (by decide)).trans
    (congrArg some (if_neg different))

theorem pair_eq_ok_iff {source target : String} {labels : Labels 2}
    : pair source target = .ok labels
      ↔ (source ≠ "" ∧ target ≠ "") ∧ labels = ⟨#v[source, target]⟩ := by
  have nonempty : "" ∈ #v[source, target].toList ↔ ¬(source ≠ "" ∧ target ≠ "") := by
    change "" ∈ [source, target] ↔ _
    grind
  unfold pair ofTexts
  split
  · next empty => simp [nonempty.mp empty]
  · next filled =>
    have both := Classical.not_not.mp (mt nonempty.mpr filled)
    rw [Except.ok.injEq, eq_comm, and_iff_right both]

-----------------------------------------------------------------------------------------
-- Lookups that fail
-----------------------------------------------------------------------------------------

theorem find?_eq_none_iff {labels : Labels n} {label : String}
    : labels.find? label = none ↔ label ∉ labels.toList := by
  simp [find?, toList, Vector.mem_toList_iff, Vector.mem_iff_getElem, Fin.forall_iff]

theorem mem_toList_iff {labels : Labels n} {label : String}
    : label ∈ labels.toList ↔ ∃ i, labels.find? label = some i := by
  rw [← Option.isSome_iff_exists, ← Option.ne_none_iff_isSome, Ne, find?_eq_none_iff, not_not]

theorem exists_resolve {labels : Labels n} {label : String} (known : label ∈ labels.toList)
    : ∃ i, labels.resolve label = .ok i := by
  obtain ⟨i, found⟩ := mem_toList_iff.mp known
  exact ⟨i, resolve_eq_ok_iff.mpr found⟩

theorem resolve_eq_fail {labels : Labels n} {label : String} (unknown : label ∉ labels.toList)
    : labels.resolve label = .fail (.unknownLabel label labels.toList) := by
  rw [resolve, find?_eq_none_iff.mpr unknown]

theorem pair_eq_error_iff {source target : String} {failure : Failure}
    : pair source target = .error failure
      ↔ (source = "" ∨ target = "") ∧ failure = .of (.emptyLabel [source, target]) := by
  have empty : "" ∈ #v[source, target].toList ↔ source = "" ∨ target = "" := by
    change "" ∈ [source, target] ↔ _
    grind
  rw [← empty, pair, ofTexts]
  split
  · next some_empty =>
    rw [and_iff_right some_empty]
    exact ⟨fun fails => (Except.error.inj fails).symm, fun same => same ▸ rfl⟩
  · next filled =>
    refine ⟨fun done => ?_, fun given => absurd given.1 filled⟩
    cases done

end NameTables.Labels
