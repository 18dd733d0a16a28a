import ConfigScript.Proofs.Histories
import ConfigScript.Proofs.Restoring
/-!
# Where restored content comes from

A directory that holds no backups at first holds those that calls on its scripts have made since
(`history_backup`). So what a restore gives a script is what some script with its stem held just
before such a call (`history_restore`). Scripts whose names differ in the extension only share
their stem, and with it their backups, so one may get the content of the other
(`history_restore_shared`).
-/

namespace ConfigScript

namespace Editor

open FileSystem

variable {σ : Type} {engine : Engine σ} {fs fs' : FileSystem} {path name p : Text}
  {d k l : Location} {node : Node} {w w' : World σ} {requests : List Request}

/-! ## Where paths led before -/

/-- Calls make files and no directories. -/
theorem Effect.directory_before (h : Effect path fs fs') (hk : fs'.node? k = some .directory) :
    fs.node? k = some .directory := by
  have hput : ∀ {fs : FileSystem} {l : Location} {c : ByteArray}, l ≠ [] →
      (fs.put l (.file c)).node? k = some .directory → fs.node? k = some .directory := by
    intro fs l c hl hd
    rw [node?_put fs hl] at hd
    split at hd
    · cases hd
    · exact hd
  obtain ⟨mid, hs, ho⟩ := h
  have hmid : mid.node? k = some .directory := by
    cases ho with
    | skipped => exact hk
    | written c _ hd => exact hput (ne_nil_of_node? hd) hk
  cases hs with
  | skipped => exact hmid
  | @taken _ m _ ht =>
    have hnew : fs.node? m ≠ some .directory := by simp [ht.free]
    exact hput (ne_nil_of_node? hnew) hmid

theorem Effect.current (h : Effect path fs fs') : fs'.current = fs.current := by
  obtain ⟨mid, hs, ho⟩ := h
  have hmid : mid.current = fs.current := by cases hs <;> rfl
  rw [← hmid]
  cases ho <;> rfl

theorem Effect.locate_before (h : Effect path fs fs') (hl : fs'.locate p = .ok l) : fs.locate p = .ok l := by
  obtain ⟨h0, hne, hlen, hw⟩ := locate_eq_ok.1 hl
  have hstart : fs'.start p = fs.start p := by rw [start, start, h.current]
  rw [hstart] at hw
  exact locate_eq_ok.2 ⟨h0, hne, hlen, walk_of_directories (fun _ => h.directory_before) hw⟩

theorem history_locate_before (he : engine.KeepsFiles) (hl : (history engine w requests).files.locate p = .ok l) :
    w.files.locate p = .ok l :=
  history_induction he (fun fs => fs.locate p = .ok l → w.files.locate p = .ok l) id
    (fun _ _ _ _ hbefore heffect hafter => hbefore (heffect.locate_before hafter)) hl

/-! ## Where backups come from -/

/-- What is there in the end and was not at first has come with one of the calls. -/
theorem history_new (hold : w.files.node? k = none)
    (hnew : (history engine w requests).files.node? k ≠ none) :
    ∃ front r rest, requests = front ++ r :: rest ∧ (history engine w front).files.node? k = none ∧
      (r.after engine (history engine w front)).files.node? k ≠ none := by
  induction requests generalizing w with
  | nil => exact absurd hold hnew
  | cons r rest ih =>
    by_cases hr : (r.after engine w).files.node? k = none
    · obtain ⟨front, q, back, rfl, hfront, hq⟩ := ih hr hnew
      exact ⟨r :: front, q, back, rfl, hfront, hq⟩
    · exact ⟨[], r, rest, rfl, hold, hr⟩

/-- A file called as a backup is, and not there at first, holds what the script of some call held
just before it: the call has made it as a backup of this script. -/
theorem history_backup (he : engine.KeepsFiles) (hin : ∀ r ∈ requests, ScriptIn d w.files r.script)
    (hname : Backup.IsName name) (hold : w.files.node? (d ++ [name]) = none)
    (hnew : (history engine w requests).files.node? (d ++ [name]) = some node) :
    ∃ front r rest stem n bytes, requests = front ++ r :: rest ∧ Path.stem? r.script = some stem ∧
      Backup.sequence? stem name = some n ∧ node = .file bytes ∧
      (history engine w front).files.read r.script = .ok bytes ∧
      Made d r.script n (history engine w front).files (r.after engine (history engine w front)).files := by
  have hthere : (history engine w requests).files.node? (d ++ [name]) ≠ none := by simp [hnew]
  obtain ⟨front, r, rest, rfl, hbefore, hafter⟩ := history_new hold hthere
  have hscripts : ∀ q ∈ r :: rest, ScriptIn d (history engine w front).files q.script := fun q hq =>
    history_scriptIn he (hin q (List.mem_append_right _ hq)) front
  have hr := hscripts r List.mem_cons_self
  have heffect := effect_after he (history engine w front) r
  have hsome := Option.isSome_iff_ne_none.2 hafter
  obtain ⟨stem, hstem, -, hslash⟩ := hr.exists_stem
  obtain ⟨backup, bytes, ht, hleft⟩ := heffect.new hr hname hbefore hsome
  obtain ⟨hplace, -⟩ := ht.place hr hstem hslash
  obtain rfl : name = Backup.fileName stem backup.sequence := by simpa using hplace
  -- the rest of this call and the later calls leave it as it was made
  have hmade : (r.after engine (history engine w front)).files.node?
      (d ++ [Backup.fileName stem backup.sequence]) = some (.file bytes) := by
    have hr' := hr.effect ⟨_, .taken ht, .skipped⟩
    refine hleft.kept (node?_put_self ?_) fun hl => hr'.ne hname hl rfl
    exact @ne_nil_of_node? (history engine w front).files _ (by simp [hbefore])
  have hkept := history_kept he
    (fun q hq => (hscripts q (List.mem_cons_of_mem _ hq)).effect heffect) hname hmade
  have hend : history engine (r.after engine (history engine w front)) rest =
      history engine w (front ++ r :: rest) := by simp [history]
  rw [hend, hnew] at hkept
  exact ⟨front, r, rest, stem, _, bytes, rfl, hstem, Backup.sequence?_fileName _ _,
    Option.some.inj hkept, ht.content, ht.made hr hsome⟩

/-! ## What a restore brings back -/

/-- A restore gives a script what a file with its stem and the number holds. -/
theorem ScriptIn.restore {sequence : Option UInt32} {record : Backup} (hin : ScriptIn d w.files path)
    (h : restore path sequence w = .ok record w') :
    ∃ own name source, Path.fileName? path = some own ∧
      Backup.sequence? (Path.stemOf own) name = some record.sequence ∧
      w.files.node? (d ++ [name]) = some (.file source) ∧
      w.files.locate path = .ok (d ++ [own]) ∧ w'.files.read path = .ok source := by
  obtain ⟨files, hr, rfl⟩ := onFiles_run_ok.1 h
  obtain ⟨⟨found, hall, hchoose⟩, hcopy⟩ := Backup.restore_eq_ok hr
  obtain ⟨k, l, source, hsource, hl, hd, rfl⟩ := copy_eq_ok hcopy
  obtain ⟨own, hown, -⟩ := hin.named
  obtain ⟨d', hdir, rfl⟩ := locate_of_fileName hown hl
  rw [hin.directory] at hdir
  cases hdir
  obtain ⟨name, rfl, hseq, -⟩ :=
    Backup.place_of_mem_all hown hin.directory hall (Backup.mem_of_choose? hchoose) hsource
  have hname : Backup.IsName name := by
    obtain ⟨hplain, -⟩ := Path.names_of_fileName hown
    exact Backup.isName_of_sequence? (Backup.stemOf_spec hplain.nonempty).1 hseq
  rw [if_neg (hin.ne hname hl).symm]
  exact ⟨own, name, source, hown, hseq, node?_of_find hsource, hl,
    read_of_find (find_put_of_locate hl hd _)⟩

/-- In every history of calls on scripts of one directory that holds no backups at first: what a
restore gives a script is what the script of some call, which has the same stem, held just before
that call, and the restored backup is the one that the call made. So the script itself held it,
unless another name in the directory has its stem. -/
theorem history_restore (he : engine.KeepsFiles) (hin : ∀ r ∈ requests, ScriptIn d w.files r.script)
    (hnone : ∀ name, Backup.IsName name → w.files.node? (d ++ [name]) = none)
    (hscript : ScriptIn d w.files path) {sequence : Option UInt32} {record : Backup}
    (h : restore path sequence (history engine w requests) = .ok record w') :
    ∃ front r rest bytes, requests = front ++ r :: rest ∧
      Path.stem? r.script = Path.stem? path ∧
      Made d r.script record.sequence (history engine w front).files
        (r.after engine (history engine w front)).files ∧
      (history engine w front).files.read r.script = .ok bytes ∧ w'.files.read path = .ok bytes ∧
      (Path.fileName? r.script = Path.fileName? path →
        (history engine w front).files.read path = .ok bytes) := by
  have hscript' := history_scriptIn he hscript requests
  obtain ⟨own, name, source, hown, hseq, hsource, hl, hread⟩ := hscript'.restore h
  obtain ⟨hplain, -⟩ := Path.names_of_fileName hown
  have hname := Backup.isName_of_sequence? (Backup.stemOf_spec hplain.nonempty).1 hseq
  obtain ⟨front, r, rest, stem, n, bytes, rfl, hstem, hnumber, hbytes, hr, hmade⟩ :=
    history_backup he hin hname (hnone name hname) hsource
  cases hbytes
  -- the name of the backup tells the stem and the number
  obtain ⟨rfl, rfl⟩ := Backup.stem_unique hseq hnumber
  have hstem' : Path.stem? r.script = Path.stem? path := by rw [hstem, Path.stem?, hown]; rfl
  refine ⟨front, r, rest, source, rfl, hstem', hmade, hr, hread, fun hsame => ?_⟩
  obtain ⟨k, hk⟩ := find_of_read hr
  obtain ⟨hk, hnode⟩ := find_eq_ok.1 hk
  rw [hown] at hsame
  obtain ⟨d', hd', rfl⟩ := locate_of_fileName hsame hk
  have hr' := history_scriptIn he (hin r (by simp)) front
  rw [hr'.directory] at hd'
  cases hd'
  have hend : history engine w (front ++ r :: rest) = history engine (history engine w front) (r :: rest) := by
    simp [history]
  rw [hend] at hl
  exact read_of_find (find_eq_ok.2 ⟨history_locate_before he hl, hnode⟩)

/-! ## Two scripts with one stem -/

def rigs : FileSystem :=
  ⟨[(["rig.m".toList], .file (ScriptFile.encode "a = 1;\n".toList)),
    (["rig.txt".toList], .file (ScriptFile.encode "b = 5;\n".toList))], []⟩

/-- A backup is called with a digit at the end. -/
theorem not_isName_of_getLast? (h : name.getLast?.any Char.isDigit = false) : ¬ Backup.IsName name := by
  rintro ⟨stem, digits, rfl, -, hne, hall⟩
  have hdigit := hall _ (List.getLast_mem hne)
  simp [List.getLast?_append, List.getLast?_eq_some_getLast hne, hdigit] at h

theorem not_isName_rigs : ¬ Backup.IsName "rig.m".toList ∧ ¬ Backup.IsName "rig.txt".toList :=
  ⟨not_isName_of_getLast? (by decide), not_isName_of_getLast? (by decide)⟩

theorem rigs_without_backups (h : Backup.IsName name) : rigs.node? ([] ++ [name]) = none := by
  obtain ⟨hm, ht⟩ := not_isName_rigs
  have hm : ¬ [name] = ["rig.m".toList] := fun heq => hm ((List.cons.inj heq).1 ▸ h)
  have ht : ¬ [name] = ["rig.txt".toList] := fun heq => ht ((List.cons.inj heq).1 ▸ h)
  rw [List.nil_append, node?, if_neg (by simp), rigs, List.lookup_cons, List.lookup_cons,
    beq_eq_false_iff_ne.2 hm, beq_eq_false_iff_ne.2 ht, List.lookup_nil]

theorem rigs_scriptIn : ScriptIn [] rigs "/rig.m".toList ∧ ScriptIn [] rigs "/rig.txt".toList :=
  ⟨⟨rfl, "rig.m".toList, by decide, not_isName_rigs.1⟩, ⟨rfl, "rig.txt".toList, by decide, not_isName_rigs.2⟩⟩

/-- Both scripts are edited, and one gets back what it held before its first edit. -/
theorem history_restore_rigs :
    let edits : List Request := [.setValue "/rig.m".toList "a".toList "2".toList true,
      .setValue "/rig.txt".toList "b".toList "6".toList false,
      .setValue "/rig.m".toList "a".toList "3".toList false]
    let run := history Runner.plain.engine (⟨rigs, ()⟩ : World Unit)
    ∃ record w' front r rest bytes, restore "/rig.m".toList none (run edits) = .ok record w' ∧
      record.sequence = 1 ∧ edits = front ++ r :: rest ∧
      (run front).files.read r.script = .ok bytes ∧ w'.files.read "/rig.m".toList = .ok bytes := by
  intro edits run
  have hran : outcome? (restore "/rig.m".toList none (run edits)) = some ⟨"/rig.bak001".toList, 1⟩ := by
    decide +kernel
  obtain ⟨w', hw⟩ := outcome?_eq_some.1 hran
  have hin : ∀ r ∈ edits, ScriptIn [] rigs r.script := by
    obtain ⟨hm, ht⟩ := rigs_scriptIn
    simpa [edits, Request.script] using ⟨hm, ht, hm⟩
  obtain ⟨front, r, rest, bytes, hsplit, -, -, hr, hread, -⟩ := history_restore
    Runner.plain.engine_keepsFiles hin (fun _ => rigs_without_backups) rigs_scriptIn.1 hw
  exact ⟨_, w', front, r, rest, bytes, hw, rfl, hsplit, hr, hread⟩

/-- One script is edited, and the other gets its content, which it never held. -/
theorem history_restore_shared :
    let edits : List Request := [.setValue "/rig.m".toList "a".toList "2".toList true]
    let run := history Runner.plain.engine (⟨rigs, ()⟩ : World Unit)
    (∀ r ∈ edits, ScriptIn [] rigs r.script) ∧ ScriptIn [] rigs "/rig.txt".toList ∧
      (∀ name, Backup.IsName name → rigs.node? ([] ++ [name]) = none) ∧
      ∃ record w', restore "/rig.txt".toList none (run edits) = .ok record w' ∧
        w'.files.read "/rig.txt".toList = .ok (ScriptFile.encode "a = 1;\n".toList) ∧
        ∀ front, front <+: edits →
          (run front).files.read "/rig.txt".toList = .ok (ScriptFile.encode "b = 5;\n".toList) := by
  intro edits run
  have hran : outcome? (restore "/rig.txt".toList none (run edits)) = some ⟨"/rig.bak001".toList, 1⟩ := by
    decide +kernel
  have hread : (worldAfter (restore "/rig.txt".toList none (run edits))).files.read "/rig.txt".toList =
      .ok (ScriptFile.encode "a = 1;\n".toList) := by decide +kernel
  have hbefore : (run []).files.read "/rig.txt".toList = .ok (ScriptFile.encode "b = 5;\n".toList) := by
    decide +kernel
  have hafter : (run edits).files.read "/rig.txt".toList = .ok (ScriptFile.encode "b = 5;\n".toList) := by
    decide +kernel
  obtain ⟨w', hw⟩ := outcome?_eq_some.1 hran
  rw [hw] at hread
  refine ⟨by simpa [edits, Request.script] using rigs_scriptIn.1, rigs_scriptIn.2,
    fun _ => rigs_without_backups, _, w', hw, hread, fun front hfront => ?_⟩
  rcases List.prefix_cons_iff.1 hfront with rfl | ⟨more, rfl, hmore⟩
  · exact hbefore
  · obtain rfl := List.prefix_nil.1 hmore
    exact hafter

end Editor

end ConfigScript
