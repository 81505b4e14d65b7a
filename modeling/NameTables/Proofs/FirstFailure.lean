import NameTables.Proofs.Format.Records

/-! Which failure a sequence of steps ends in.
Steps are taken in their order, so a failure is that of the first step that fails, and what comes
after that step has no say in it.
-/

namespace NameTables.Outcome

/-- A sequence fails in its first part or, after that one, in its second part. -/
theorem bind_eq_error_iff {α β : Type} {first : Outcome α} {next : α → Outcome β}
    {failure : Failure}
    : first >>= next = .error failure
      ↔ first = .error failure ∨ ∃ a, first = .ok a ∧ next a = .error failure := by
  cases first with
  | error failure => simp [Bind.bind, Except.bind]
  | ok a => simp [Bind.bind, Except.bind]

theorem within_eq_error_iff {α : Type} {activity : Activity} {outcome : Outcome α}
    {failure : Failure}
    : outcome.within activity = .error failure
      ↔ ∃ inner, outcome = .error inner ∧ failure = inner.within activity := by
  cases outcome <;> simp [within, eq_comm]

/-- A run fails at the first item whose step does, by list induction. -/
theorem foldlM_eq_error_iff {α β : Type} {step : β → α → Outcome β} {items : List α} {b : β}
    {failure : Failure}
    : items.foldlM step b = .error failure
      ↔ ∃ before item after reached,
          items = before ++ item :: after
          ∧ before.foldlM step b = .ok reached
          ∧ step reached item = .error failure := by
  constructor
  · intro fails
    induction items generalizing b with
    | nil => cases fails
    | cons item items ih =>
        rw [List.foldlM_cons, bind_eq_error_iff] at fails
        rcases fails with here | ⟨b', stepped, later⟩
        · exact ⟨[], item, items, b, rfl, rfl, here⟩
        · obtain ⟨before, bad, after, reached, rfl, run, fault⟩ := ih later
          refine ⟨item :: before, bad, after, reached, rfl, ?_, fault⟩
          rw [List.foldlM_cons, stepped]
          exact run
  · intro given
    rcases given with ⟨before, item, after, reached, rfl, run, fault⟩
    rw [List.foldlM_append, bind_eq_error_iff]
    refine Or.inr ⟨reached, run, ?_⟩
    rw [List.foldlM_cons, bind_eq_error_iff]
    exact Or.inl fault

/-- A list fails at its first item that does, by list induction. -/
theorem mapM_eq_error_iff {α β : Type} {f : α → Outcome β} {items : List α} {failure : Failure}
    : items.mapM f = .error failure
      ↔ ∃ before item after,
          items = before ++ item :: after
          ∧ (∀ a ∈ before, ∃ b, f a = .ok b)
          ∧ f item = .error failure := by
  constructor
  · intro fails
    induction items with
    | nil => cases fails
    | cons item items ih =>
        rw [List.mapM_cons, bind_eq_error_iff] at fails
        rcases fails with here | ⟨b, done, fails⟩
        · exact ⟨[], item, items, rfl, by simp, here⟩
        · rcases bind_eq_error_iff.mp fails with later | ⟨_, _, returned⟩
          · obtain ⟨before, bad, after, rfl, fine, fault⟩ := ih later
            refine ⟨item :: before, bad, after, rfl, ?_, fault⟩
            exact List.forall_mem_cons.mpr ⟨⟨b, done⟩, fine⟩
          · cases returned
  · intro given
    rcases given with ⟨before, item, after, rfl, fine, fault⟩
    obtain ⟨results, done⟩ := exists_mapM_eq_ok_iff.mpr fine
    rw [List.mapM_append, bind_eq_error_iff]
    refine Or.inr ⟨results, done, bind_eq_error_iff.mpr (Or.inl ?_)⟩
    rw [List.mapM_cons, bind_eq_error_iff]
    exact Or.inl fault

end NameTables.Outcome
