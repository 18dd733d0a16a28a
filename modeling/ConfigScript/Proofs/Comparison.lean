import ConfigScript.Edit.Verification
import ConfigScript.Proofs.Basic
import ConfigScript.Proofs.Equivalence
/-!
# What the comparison of variables accepts

`compare` walks the variables from before the edit, so it finds what is lost or changed
(`compare_eq_ok_iff`). A variable that only the edited script binds is not looked at
(`compare_insert`): an edit that makes one passes.
-/

namespace ConfigScript.Edit

variable {before after : Workspace} {name : Text} {expected : Value}

theorem checkEdited_eq_ok_iff : checkEdited after name expected = .ok () ↔
    ∃ actual, after.lookup name = some actual ∧ actual.equivalent expected = true := by
  unfold checkEdited
  cases after.lookup name with
  | none => simp
  | some actual => simp

theorem checkKept_eq_ok_iff {entries : Workspace} : checkKept after name entries = .ok () ↔
    ∀ n old, (n, old) ∈ entries → n ≠ name →
      ∃ new, after.lookup n = some new ∧ old.equivalent new = true := by
  induction entries with
  | nil => simp [checkKept]
  | cons entry rest ih =>
    obtain ⟨m, v⟩ := entry
    -- the first entry stands alone in front of those that the induction speaks about
    have hsplit : (∀ n old, (n, old) ∈ (m, v) :: rest → n ≠ name →
          ∃ new, after.lookup n = some new ∧ old.equivalent new = true) ↔
        (m ≠ name → ∃ new, after.lookup m = some new ∧ v.equivalent new = true) ∧
          checkKept after name rest = .ok () := by
      rw [ih]
      constructor
      · intro h
        exact ⟨h m v List.mem_cons_self, fun n old hm => h n old (List.mem_cons_of_mem _ hm)⟩
      · rintro ⟨hm, hrest⟩ n old hin hne
        rcases List.mem_cons.1 hin with heq | hin
        · cases heq
          exact hm hne
        · exact hrest n old hin hne
    rw [hsplit, checkKept]
    by_cases hm : m = name
    · simp [hm]
    · rw [if_neg hm]
      cases hnew : after.lookup m with
      | none => simp [hm]
      | some new => by_cases he : v.equivalent new = true <;> simp [hm, he]

theorem compare_eq_ok_iff_mem : compare before after name expected = .ok () ↔
    (∃ actual, after.lookup name = some actual ∧ actual.equivalent expected = true) ∧
    ∀ n old, (n, old) ∈ before → n ≠ name →
      ∃ new, after.lookup n = some new ∧ old.equivalent new = true := by
  rw [← checkEdited_eq_ok_iff, ← checkKept_eq_ok_iff, and_comm, compare, bind_eq_ok]
  constructor
  · rintro ⟨_, hkept, hedited⟩
    exact ⟨hkept, hedited⟩
  · rintro ⟨hkept, hedited⟩
    exact ⟨(), hkept, hedited⟩

/-- The comparison passes exactly if the edited variable has the value that was asked for and every
other variable from before is bound to an equivalent value. It says nothing about a variable that
was not bound before. -/
theorem compare_eq_ok_iff (hs : before.Sorted) : compare before after name expected = .ok () ↔
    (∃ actual, after.lookup name = some actual ∧ actual.equivalent expected = true) ∧
    ∀ n old, n ≠ name → before.lookup n = some old →
      ∃ new, after.lookup n = some new ∧ old.equivalent new = true := by
  rw [compare_eq_ok_iff_mem]
  refine and_congr_right fun _ => ?_
  constructor
  · intro h n old hne hold
    exact h n old (Table.mem_of_lookup hold) hne
  · intro h n old hm hne
    exact h n old hne ((Table.lookup_eq_some_iff hs).2 hm)

/-- The other variable is NaN before and after, which is no change although NaN is not equal to
itself. -/
theorem compare_eq_ok_iff_nan :
    let before : Workspace := [("a".toList, .double 1.0), ("b".toList, .double Number.nan)]
    let after : Workspace := [("a".toList, .double 2.0), ("b".toList, .double Number.nan)]
    before.Sorted ∧ compare before after "a".toList (.double 2.0) = .ok () := by
  intro before after
  have hs : before.Sorted := by
    unfold Table.Sorted
    decide
  refine ⟨hs, (compare_eq_ok_iff hs).2 ⟨⟨_, rfl, Value.equivalent_refl _⟩, fun n old hne hold => ?_⟩⟩
  rcases List.mem_cons.1 (Table.mem_of_lookup hold) with heq | hm
  · exact (hne (congrArg Prod.fst heq)).elim
  · cases List.mem_singleton.1 hm
    exact ⟨_, rfl, Value.equivalent_refl _⟩

/-! ## Variables that were not bound before -/

/-- Apart from `name` both bind the same variables, and those to equivalent values. -/
def AgreeApart (name : Text) (before after : Workspace) : Prop :=
  ∀ n, n ≠ name → Option.Rel (fun old new => old.equivalent new = true) (before.lookup n) (after.lookup n)

theorem checkKept_congr {after' entries : Workspace}
    (h : ∀ n ∈ Table.names entries, n ≠ name → after.lookup n = after'.lookup n) :
    checkKept after name entries = checkKept after' name entries := by
  induction entries with
  | nil => rfl
  | cons entry rest ih =>
    obtain ⟨m, v⟩ := entry
    have hrest := ih fun n hn => h n (List.mem_cons_of_mem _ hn)
    rw [checkKept, checkKept, hrest]
    by_cases hm : m = name
    · rw [if_pos hm, if_pos hm]
    · rw [if_neg hm, if_neg hm, h m List.mem_cons_self hm]

/-- Binding one more variable makes no difference to the comparison. -/
theorem compare_insert {n : Text} {v : Value} (hne : n ≠ name) (hnew : n ∉ Table.names before) :
    compare before (Table.insert n v after) name expected = compare before after name expected := by
  have hkept : checkKept (Table.insert n v after) name before = checkKept after name before := by
    apply checkKept_congr
    intro m hm _
    have hmn : m ≠ n := by
      rintro rfl
      exact hnew hm
    exact Table.lookup_insert_of_ne hmn v after
  unfold compare checkEdited
  rw [hkept, Table.lookup_insert_of_ne hne.symm]

/-- Where the edit makes no variable, the comparison passes exactly if the two workspaces agree
apart from the edited one. -/
theorem compare_eq_ok_iff_agreeApart (hs : before.Sorted)
    (hnew : ∀ n, n ≠ name → n ∈ Table.names after → n ∈ Table.names before) :
    compare before after name expected = .ok () ↔
      (∃ actual, after.lookup name = some actual ∧ actual.equivalent expected = true) ∧
      AgreeApart name before after := by
  rw [compare_eq_ok_iff_mem]
  refine and_congr_right fun _ => ?_
  constructor
  · intro h n hne
    cases hold : before.lookup n with
    | none =>
      have hafter : after.lookup n = none := by
        rw [Table.lookup_eq_none_iff] at hold ⊢
        exact fun hm => hold (hnew n hne hm)
      rw [hafter]
      exact .none
    | some old =>
      obtain ⟨new, hn, he⟩ := h n old (Table.mem_of_lookup hold) hne
      rw [hn]
      exact .some he
  · intro h n old hm hne
    have hrel := h n hne
    rw [(Table.lookup_eq_some_iff hs).2 hm] at hrel
    cases hafter : after.lookup n with
    | none =>
      rw [hafter] at hrel
      cases hrel
    | some new =>
      rw [hafter] at hrel
      cases hrel with
      | some he => exact ⟨new, rfl, he⟩

/-- The edited script binds `b`, which was not bound, and the comparison passes. -/
theorem compare_new_variable :
    let before : Workspace := [("a".toList, .double 1.0)]
    let after : Workspace := [("a".toList, .double 2.0), ("b".toList, .double 3.0)]
    compare before after "a".toList (.double 2.0) = .ok () ∧ ¬ AgreeApart "a".toList before after := by
  intro before after
  constructor
  · refine compare_eq_ok_iff_mem.2 ⟨⟨_, rfl, Value.equivalent_refl _⟩, fun n old hm hne => ?_⟩
    exact (hne (congrArg Prod.fst (List.mem_singleton.1 hm))).elim
  · intro h
    have hrel := h "b".toList (by decide)
    cases hrel

end ConfigScript.Edit
