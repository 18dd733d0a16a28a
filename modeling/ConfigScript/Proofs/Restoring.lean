import ConfigScript.Proofs.Actions
import ConfigScript.Proofs.Numbering
/-!
# What a restore leaves in the files

A restore copies a backup over its script, and a copy empties its target before it reads the
source. So what the backup held is in the script afterwards, and nothing else changes, unless the
two are one file. That is so exactly when the file name of the script is itself the name of the
backup (`restore_files`), and the script is then left empty (`restore_itself`).
-/

namespace ConfigScript

namespace Backup

open FileSystem

variable {fs : FileSystem} {path own : Text} {d k : Location} {n : Node}

/-- The name of a backup fits into the directory of its script. -/
theorem plain_of_sequence? {name : Text} {m : UInt32} (hown : Path.fileName? path = some own)
    (h : sequence? (Path.stemOf own) name = some m) : Path.Plain name := by
  obtain ⟨hplain, -⟩ := Path.names_of_fileName hown
  obtain ⟨-, hsub⟩ := stemOf_spec hplain.nonempty
  obtain ⟨digits, rfl, hne, hall, -⟩ := sequence?_eq_some.1 h
  have hlong := length_numbered (Path.stemOf own) hne
  have hne : ∀ {t : Text}, t.length < 5 → Path.stemOf own ++ (marker ++ digits) ≠ t := by
    rintro t ht rfl
    omega
  refine ⟨hne (by decide), hne (by decide), hne (by decide), fun hslash => ?_⟩
  rcases List.mem_append.1 hslash with hmem | hmem
  · exact hplain.slash (hsub _ hmem)
  · rcases List.mem_append.1 hmem with hmem | hmem
    · exact absurd hmem (by decide)
    · exact absurd (hall _ hmem) (by decide)

/-- A backup that is listed stands in the directory of the script under a name that has its number. -/
theorem place_of_mem_all {found : List Backup} {b : Backup} (hown : Path.fileName? path = some own)
    (hd : fs.find (Path.directory path) = .ok (d, .directory)) (hall : all fs path = .ok found)
    (hb : b ∈ found) (hk : fs.find b.path = .ok (k, n)) :
    ∃ name, k = d ++ [name] ∧ sequence? (Path.stemOf own) name = some b.sequence ∧
      b.path = Path.join (Path.directory path) name := by
  have hs : Path.stem? path = some (Path.stemOf own) := by rw [Path.stem?, hown]; rfl
  obtain ⟨found', hall', hmem, -⟩ := all_eq_ok hs hd
  rw [hall] at hall'
  cases hall'
  obtain ⟨name, -, hseq, hpath⟩ := (hmem b).1 hb
  have hloc := (find_eq_ok.1 hk).1
  rw [hpath] at hloc
  exact ⟨name, locate_join (plain_of_sequence? hown hseq) (directory_ne_nil path) hd hloc, hseq, hpath⟩

theorem fileName_of_all {found : List Backup} (h : all fs path = .ok found) :
    ∃ own, Path.fileName? path = some own := by
  unfold all stemOf Path.stem? at h
  cases hown : Path.fileName? path with
  | none => simp [hown, bind, Except.bind] at h
  | some own => exact ⟨own, rfl⟩

end Backup

namespace Editor

open FileSystem

variable {σ : Type} {path : Text} {sequence : Option UInt32} {record : Backup} {w w' : World σ}

/-- After a restore the script holds what the backup held before, and nothing else has changed. Only
if the script is called what the backup is called, then they are one file, and it is empty. -/
theorem restore_files (h : restore path sequence w = .ok record w') :
    ∃ name k l source, record.path = Path.join (Path.directory path) name ∧
      (k = l ↔ Path.fileName? path = some name) ∧
      w.files.find record.path = .ok (k, .file source) ∧
      w'.files.find path = .ok (l, .file (if k = l then .empty else source)) ∧
      ∀ m, m ≠ l → w'.files.node? m = w.files.node? m := by
  obtain ⟨files, hr, rfl⟩ := onFiles_run_ok.1 h
  obtain ⟨⟨found, hall, hchoose⟩, hcopy⟩ := Backup.restore_eq_ok hr
  obtain ⟨k, l, source, hsource, hl, hd, rfl⟩ := copy_eq_ok hcopy
  obtain ⟨own, hown⟩ := Backup.fileName_of_all hall
  obtain ⟨d, hdir, rfl⟩ := locate_of_fileName hown hl
  obtain ⟨name, rfl, -, hpath⟩ :=
    Backup.place_of_mem_all hown hdir hall (Backup.mem_of_choose? hchoose) hsource
  refine ⟨name, _, _, source, hpath, ?_, hsource, find_put_of_locate hl hd _, fun m hm => ?_⟩
  · rw [hown]
    constructor
    · intro heq
      obtain rfl : name = own := by simpa using heq
      rfl
    · rintro ⟨⟩
      rfl
  · exact node?_put_of_ne (ne_nil_of_node? hd) hm

/-- A script and its backup. -/
def rig : FileSystem :=
  ⟨[(["rig.m".toList], .file (ScriptFile.encode "a = 2;\n".toList)),
    (["rig.bak001".toList], .file (ScriptFile.encode "a = 1;\n".toList))], []⟩

theorem restore_files_rig : ∃ record w', restore "/rig.m".toList none ⟨rig, ()⟩ = .ok record w' ∧
    record = ⟨"/rig.bak001".toList, 1⟩ ∧ ∃ name k l source,
      record.path = Path.join (Path.directory "/rig.m".toList) name ∧
      (k = l ↔ Path.fileName? "/rig.m".toList = some name) ∧
      rig.find record.path = .ok (k, .file source) ∧
      w'.files.find "/rig.m".toList = .ok (l, .file (if k = l then .empty else source)) ∧
      ∀ m, m ≠ l → w'.files.node? m = rig.node? m := by
  have hran : outcome? (restore "/rig.m".toList none (⟨rig, ()⟩ : World Unit)) =
      some ⟨"/rig.bak001".toList, 1⟩ := by decide +kernel
  obtain ⟨w', hw⟩ := outcome?_eq_some.1 hran
  exact ⟨_, w', hw, rfl, restore_files hw⟩

/-- A backup restored over itself is lost: the restore succeeds and leaves the file empty. -/
theorem restore_itself : ∃ record w', restore "/rig.bak001".toList (some 1) ⟨rig, ()⟩ = .ok record w' ∧
    record.path = "/rig.bak001".toList ∧
    rig.read record.path = .ok (ScriptFile.encode "a = 1;\n".toList) ∧
    w'.files.read "/rig.bak001".toList = .ok .empty := by
  have hran : outcome? (restore "/rig.bak001".toList (some 1) (⟨rig, ()⟩ : World Unit)) =
      some ⟨"/rig.bak001".toList, 1⟩ := by decide +kernel
  have hempty : (worldAfter (restore "/rig.bak001".toList (some 1) (⟨rig, ()⟩ : World Unit))).files.read
      "/rig.bak001".toList = .ok .empty := by decide +kernel
  obtain ⟨w', hw⟩ := outcome?_eq_some.1 hran
  rw [hw] at hempty
  exact ⟨_, w', hw, rfl, by decide +kernel, hempty⟩

end Editor

end ConfigScript
