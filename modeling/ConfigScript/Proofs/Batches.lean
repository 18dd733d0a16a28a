import ConfigScript.Proofs.Edits
/-!
# Batches that fail

The first edit of a batch takes a backup, and every later edit writes over the script and nothing
else. So at any time during a batch, putting the backup back gives the files as they were right
after it was taken (`setRest_error`).
-/

namespace ConfigScript

namespace Editor

variable {σ : Type} {engine : Engine σ} {path : Text} {w w' : World σ} {e : EditError}

/-- An edit without a backup writes over the script in its place. -/
theorem setValue_overwrites (he : engine.KeepsFiles) {name value : Text} {b : Option Backup}
    {l : Location} {content : Text} (ha : ScriptFile.At w.files path l content)
    (h : setValue engine path name value false w = .ok b w') :
    ∃ new, w'.files = w.files.put l (.file (ScriptFile.encode new)) := by
  obtain ⟨file, v, w₁, l', saved, -, hl, hs, rfl⟩ := (setValue_run_ok he).1 h
  cases hs with
  | skipped =>
    obtain ⟨rfl, -⟩ := ha.unique hl
    exact ⟨_, rfl⟩

/-- When an edit after the first fails, the files are as they were after the backup. `fs` are the
files then, and in between only the script differs from them. -/
theorem setRest_error (he : engine.KeepsFiles) {fs : FileSystem} {l k : Location}
    {content old : Text} {backup : Backup} (ht : ScriptFile.At fs path l content)
    (hb : ScriptFile.At fs backup.path k content) (hne : k ≠ l) {edits : List (Text × Text)}
    (hw : w.files = fs.put l (.file (ScriptFile.encode old)))
    (h : setRest engine path backup edits w = .error e w') :
    w'.files = fs ∧ ¬ e.IsRollback := by
  have hd : fs.node? l ≠ some .directory := by simp [FileSystem.node?_of_find ht]
  induction edits generalizing w old with
  | nil => cases h
  | cons edit rest ih =>
    obtain ⟨name, value⟩ := edit
    have ht' : ScriptFile.At w.files path l old := hw ▸ FileSystem.find_put_self ht _
    rcases setRest_run_error h with ⟨c, w₁, hc, hr⟩ | ⟨b, w₁, hs, hr⟩
    · obtain ⟨hfiles, hc⟩ := setValue_error_files he hc
      have hb' : ScriptFile.At w₁.files backup.path k content := by
        rw [hfiles, hw]
        exact FileSystem.find_put hd hne hb _
      rw [rollBack_run (ScriptFile.copyBack_of_at hb' (hfiles ▸ ht') hne)] at hr
      cases hr
      refine ⟨?_, hc⟩
      show w₁.files.put l _ = fs
      rw [hfiles, hw, FileSystem.put_put]
      exact FileSystem.put_self (FileSystem.ne_nil_of_find ht) (FileSystem.node?_of_find ht)
    · obtain ⟨new, hnew⟩ := setValue_overwrites he ht' hs
      exact ih (by rw [hnew, hw, FileSystem.put_put]) hr

/-- The files after a failed batch: as before, or with one file more, the numbered backup that
the first edit took of the script. -/
inductive Undone (engine : Engine σ) (path : Text) (edits : List (Text × Text)) (w : World σ) :
    FileSystem → Prop
  | untouched : Undone engine path edits w w.files
  | backedUp {name value : Text} {rest : List (Text × Text)} {file : ScriptFile} {v : Verified}
      {w₁ : World σ} {backup : Backup} {k : Location} {bytes : ByteArray} :
    edits = (name, value) :: rest →
    prepare engine path name value w = .ok (file, v) w₁ →
    Backup.next w.files path = .ok backup.sequence →
    Backup.pathFor path backup.sequence = .ok backup.path →
    w.files.read path = .ok bytes →
    w.files.node? k = none →
    (w.files.put k (.file bytes)).find backup.path = .ok (k, .file bytes) →
    Undone engine path edits w (w.files.put k (.file bytes))

theorem setAll_undone (he : engine.KeepsFiles) {edits : List (Text × Text)}
    (h : setAll engine path edits w = .error e w') :
    Undone engine path edits w w'.files ∧ ¬ e.IsRollback := by
  cases edits with
  | nil => cases h
  | cons edit rest =>
    obtain ⟨name, value⟩ := edit
    rcases setAll_run_error he h with h | ⟨backup, w₁, hs, hr⟩
    · obtain ⟨hfiles, herr⟩ := setValue_error_files he h
      exact ⟨hfiles ▸ .untouched, herr⟩
    obtain ⟨file, v, w₂, l, saved, hp, hl, hsaved, rfl⟩ := (setValue_run_ok he).1 hs
    have hl' := hsaved.at hl
    cases hsaved with
    | taken hb =>
      obtain ⟨-, hpath, -⟩ := at_of_prepare he hp
      obtain ⟨k, hk, rfl, hat, hnext, hfor⟩ := ScriptFile.backup_eq_ok hb
      have hne : k ≠ l := by
        rintro rfl
        simp [FileSystem.node?_of_find hl] at hk
      obtain ⟨hfiles, herr⟩ := setRest_error he hl' hat hne rfl hr
      rw [hfiles]
      exact ⟨.backedUp rfl hp (hpath ▸ hnext) (hpath ▸ hfor) (FileSystem.read_of_find hl) hk hat, herr⟩

theorem Undone.kept {edits : List (Text × Text)} {fs : FileSystem} (h : Undone engine path edits w fs)
    {l : Location} {n : Node} (hn : w.files.node? l = some n) : fs.node? l = some n := by
  cases h with
  | untouched => exact hn
  | backedUp _ _ _ _ _ hk _ => exact FileSystem.node?_put_new hk hn

theorem Undone.read {edits : List (Text × Text)} {fs : FileSystem}
    (h : Undone engine path edits w fs) : fs.read path = w.files.read path := by
  cases h with
  | untouched => rfl
  | backedUp _ _ _ _ hr hk _ =>
    obtain ⟨l, hl⟩ := FileSystem.find_of_read hr
    rw [hr, FileSystem.read_of_find (FileSystem.find_put_new hk hl _)]

/-- A batch that fails, at whichever edit and gate, leaves the script and every other file byte
for byte as before and at most a backup of the script beside them. -/
theorem setAll_error (he : engine.KeepsFiles) {edits : List (Text × Text)}
    (h : setAll engine path edits w = .error e w') :
    w'.files.read path = w.files.read path ∧
      (∀ l n, w.files.node? l = some n → w'.files.node? l = some n) ∧
      Undone engine path edits w w'.files ∧
      ∀ cause target backup reason, e ≠ .rollbackFailed cause target backup reason := by
  obtain ⟨hu, herr⟩ := setAll_undone he h
  refine ⟨hu.read, fun _ _ => hu.kept, hu, ?_⟩
  rintro cause target backup reason rfl
  exact herr trivial

set_option maxRecDepth 10000 in
/-- The second name is not assigned in the script. -/
theorem setAll_error_not_assigned :
    let w : World Unit := ⟨FileSystem.single "s.m" "a = 1;\n", ()⟩
    let edits := [("a".toList, "2".toList), ("b".toList, "3".toList)]
    ∃ e w', setAll Runner.plain.engine "/s.m".toList edits w = .error e w' ∧
      w'.files.read "/s.m".toList = w.files.read "/s.m".toList := by
  intro w edits
  have hf : succeeded (setAll Runner.plain.engine "/s.m".toList edits w) = false := by decide +kernel
  obtain ⟨e, w', h⟩ := exists_of_failed hf
  exact ⟨e, w', h, (setAll_error Runner.plain.engine_keepsFiles h).1⟩

end Editor

end ConfigScript
