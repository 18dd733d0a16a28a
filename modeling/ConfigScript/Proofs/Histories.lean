import ConfigScript.Proofs.Batches
import ConfigScript.Proofs.Gates
import ConfigScript.Proofs.Numbering
/-!
# Histories of a directory

Whatever a call does to files, it does in two steps: it may put a new backup of its script, and it
may then write over the script (`Effect`). So no call touches a backup that is there
(`Effect.kept`), a backup gets a number that the directory did not hold (`made_above`), and what a
backup holds can be restored at every later time (`Restorable`, `Restorable.after`).
-/

namespace ConfigScript

namespace Editor

open FileSystem

variable {σ : Type} {engine : Engine σ} {fs mid fs' : FileSystem} {path own stem name : Text}
  {d k l : Location} {n : UInt32} {bytes : ByteArray} {w w' : World σ}

/-! ## What a call does to files -/

/-- A new file at `k` is the next backup of a script. -/
structure Taken (fs : FileSystem) (path : Text) (backup : Backup) (k : Location) (bytes : ByteArray) :
    Prop where
  next : Backup.next fs path = .ok backup.sequence
  pathFor : Backup.pathFor path backup.sequence = .ok backup.path
  content : fs.read path = .ok bytes
  free : fs.node? k = none
  leads : (fs.put k (.file bytes)).find backup.path = .ok (k, .file bytes)

/-- The first step of a call. -/
inductive Saves (path : Text) (fs : FileSystem) : FileSystem → Prop
  | skipped : Saves path fs fs
  | taken {backup : Backup} {k : Location} {bytes : ByteArray} :
    Taken fs path backup k bytes → Saves path fs (fs.put k (.file bytes))

/-- The second step of a call. -/
inductive Overwrites (path : Text) (fs : FileSystem) : FileSystem → Prop
  | skipped : Overwrites path fs fs
  | written {l : Location} (c : ByteArray) :
    fs.locate path = .ok l → fs.node? l ≠ some .directory → Overwrites path fs (fs.put l (.file c))

/-- What a call on a script does to the files. -/
inductive Effect (path : Text) (fs fs' : FileSystem) : Prop
  | intro (mid : FileSystem) : Saves path fs mid → Overwrites path mid fs' → Effect path fs fs'

theorem Effect.unchanged (path : Text) (fs : FileSystem) : Effect path fs fs := ⟨fs, .skipped, .skipped⟩

theorem Saved.saves {file : ScriptFile} {backUp : Bool} {b : Option Backup} (h : Saved file fs backUp b mid)
    (ha : ScriptFile.At fs file.path l file.content) : Saves file.path fs mid := by
  cases h with
  | skipped => exact .skipped
  | taken h =>
    obtain ⟨k, hfree, rfl, hat, hnext, hfor⟩ := ScriptFile.backup_eq_ok h
    exact .taken ⟨hnext, hfor, read_of_find ha, hfree, hat⟩

theorem effect_setValue (he : engine.KeepsFiles) {name value : Text} {backUp : Bool} {b : Option Backup}
    (h : setValue engine path name value backUp w = .ok b w') : Effect path w.files w'.files := by
  obtain ⟨file, v, w₁, l, saved, hp, hl, hs, rfl⟩ := (setValue_run_ok he).1 h
  obtain ⟨-, rfl, -⟩ := at_of_prepare he hp
  obtain ⟨hloc, hnode⟩ := find_eq_ok.1 (hs.at hl)
  exact ⟨saved, hs.saves hl, .written _ hloc (by simp [hnode])⟩

theorem Overwrites.trans (h : Overwrites path fs mid) (h' : Overwrites path mid fs') :
    Overwrites path fs fs' := by
  cases h with
  | skipped => exact h'
  | written c hl hd =>
    cases h' with
    | skipped => exact .written c hl hd
    | written c' hl' _ =>
      -- the path leads to the same place as before
      rw [locate_put hd hl] at hl'
      cases hl'
      rw [put_put]
      exact .written c' hl hd

theorem overwrites_setValue (he : engine.KeepsFiles) {name value : Text} {b : Option Backup}
    (h : setValue engine path name value false w = .ok b w') : Overwrites path w.files w'.files := by
  obtain ⟨file, v, w₁, l, saved, -, hl, hs, rfl⟩ := (setValue_run_ok he).1 h
  cases hs with
  | skipped =>
    obtain ⟨hloc, hnode⟩ := find_eq_ok.1 hl
    exact .written _ hloc (by simp [hnode])

/-- The edits of a batch after its first write over the script. -/
theorem overwrites_setRest (he : engine.KeepsFiles) {backup : Backup} {edits : List (Text × Text)}
    (h : setRest engine path backup edits w = .ok () w') : Overwrites path w.files w'.files := by
  induction edits generalizing w with
  | nil =>
    cases h
    exact .skipped
  | cons edit rest ih =>
    obtain ⟨name, value⟩ := edit
    obtain ⟨b, w₁, hs, hr⟩ := setRest_run_ok h
    exact (overwrites_setValue he hs).trans (ih hr)

theorem effect_setAll (he : engine.KeepsFiles) {edits : List (Text × Text)} {b : Option Backup}
    (h : setAll engine path edits w = .ok b w') : Effect path w.files w'.files := by
  cases edits with
  | nil =>
    cases h
    exact .unchanged _ _
  | cons edit rest =>
    obtain ⟨name, value⟩ := edit
    obtain ⟨backup, w₁, -, hfirst, hrest⟩ := setAll_run_ok he h
    obtain ⟨mid, hs, ho⟩ := effect_setValue he hfirst
    exact ⟨mid, hs, ho.trans (overwrites_setRest he hrest)⟩

theorem effect_setAll_error (he : engine.KeepsFiles) {edits : List (Text × Text)} {e : EditError}
    (h : setAll engine path edits w = .error e w') : Effect path w.files w'.files := by
  obtain ⟨hu, -⟩ := setAll_undone he h
  generalize w'.files = files at hu
  cases hu with
  | untouched => exact .unchanged _ _
  | backedUp _ _ hnext hfor hread hfree hleads =>
    exact ⟨_, .taken ⟨hnext, hfor, hread, hfree, hleads⟩, .skipped⟩

theorem effect_restore {sequence : Option UInt32} {b : Backup} (h : restore path sequence w = .ok b w') :
    Effect path w.files w'.files := by
  obtain ⟨files, hr, rfl⟩ := onFiles_run_ok.1 h
  obtain ⟨-, hcopy⟩ := Backup.restore_eq_ok hr
  obtain ⟨k, l, c, -, hl, hd, rfl⟩ := copy_eq_ok hcopy
  exact ⟨w.files, .skipped, .written _ hl hd⟩

/-- A call that may change files. -/
inductive Request where
  | setValue (path name value : Text) (backUp : Bool)
  | setAll (path : Text) (edits : List (Text × Text))
  | restore (path : Text) (sequence : Option UInt32)

namespace Request

/-- The path of the script. -/
def script : Request → Text
  | setValue path _ _ _ => path
  | setAll path _ => path
  | restore path _ => path

/-- The world after a call, be it successful or failing. -/
def after (engine : Engine σ) (w : World σ) : Request → World σ
  | setValue path name value backUp => worldAfter (Editor.setValue engine path name value backUp w)
  | setAll path edits => worldAfter (Editor.setAll engine path edits w)
  | restore path sequence => worldAfter (Editor.restore path sequence w)

end Request

theorem effect_worldAfter {α : Type} {x : Edit.Action σ α}
    (hok : ∀ a w', x w = .ok a w' → Effect path w.files w'.files)
    (herror : ∀ e w', x w = .error e w' → Effect path w.files w'.files) :
    Effect path w.files (worldAfter (x w)).files := by
  cases h : x w with
  | ok a w' => exact hok a w' h
  | error e w' => exact herror e w' h

theorem effect_after (he : engine.KeepsFiles) (w : World σ) (r : Request) :
    Effect r.script w.files (r.after engine w).files := by
  cases r with
  | setValue path name value backUp =>
    refine effect_worldAfter (fun _ _ h => effect_setValue he h) fun e w' h => ?_
    rw [(setValue_error_files he h).1]
    exact .unchanged _ _
  | setAll path edits =>
    exact effect_worldAfter (fun _ _ h => effect_setAll he h) fun _ _ h => effect_setAll_error he h
  | restore path sequence =>
    refine effect_worldAfter (fun _ _ h => effect_restore h) fun e w' h => ?_
    obtain ⟨-, rfl⟩ := onFiles_run_error.1 h
    exact .unchanged _ _

/-- The backup that a call reports to have taken. -/
def Request.taken? (engine : Engine σ) (w : World σ) : Request → Option Backup
  | setValue path name value backUp => (outcome? (Editor.setValue engine path name value backUp w)).join
  | setAll path edits => (outcome? (Editor.setAll engine path edits w)).join
  | restore _ _ => none

/-- The world after calls one after the other. -/
def history (engine : Engine σ) (w : World σ) (requests : List Request) : World σ :=
  requests.foldl (fun w r => r.after engine w) w

/-! ## What stays -/

theorem Effect.locate (h : Effect path fs fs') {p : Text} (hl : fs.locate p = .ok l) : fs'.locate p = .ok l := by
  obtain ⟨mid, hs, ho⟩ := h
  have hmid : mid.locate p = .ok l := by
    cases hs with
    | skipped => exact hl
    | taken ht => exact locate_put (by simp [ht.free]) hl
  cases ho with
  | skipped => exact hmid
  | written c _ hd => exact locate_put hd hmid

/-- Only the script itself may hold something else afterwards. -/
theorem Effect.kept (h : Effect path fs fs') {m : Node} (hm : fs.node? k = some m)
    (hne : fs.locate path ≠ .ok k) : fs'.node? k = some m := by
  obtain ⟨mid, hs, ho⟩ := h
  have hmid : mid.node? k = some m ∧ mid.locate path ≠ .ok k := by
    cases hs with
    | skipped => exact ⟨hm, hne⟩
    | taken ht =>
      obtain ⟨l, hl⟩ := find_of_read ht.content
      have hloc := (find_eq_ok.1 hl).1
      refine ⟨node?_put_new ht.free hm, ?_⟩
      rw [locate_put (by simp [ht.free]) hloc, ← hloc]
      exact hne
  cases ho with
  | skipped => exact hmid.1
  | @written l c hl hd =>
    have hkl : k ≠ l := by
      rintro rfl
      exact hmid.2 hl
    rw [node?_put_of_ne (ne_nil_of_node? hd) hkl, hmid.1]

theorem Effect.directory (h : Effect path fs fs') (hk : fs.node? k = some .directory) :
    fs'.node? k = some .directory := by
  obtain ⟨mid, hs, ho⟩ := h
  have hmid : mid.node? k = some .directory := by
    cases hs with
    | skipped => exact hk
    | taken ht => exact node?_put_new ht.free hk
  cases ho with
  | skipped => exact hmid
  | written c _ hd => exact node?_put_directory hd hmid

/-- A file stays a file. -/
theorem Effect.file (h : Effect path fs fs') {p : Text} {b : ByteArray} (hf : fs.find p = .ok (l, .file b)) :
    ∃ c, fs'.find p = .ok (l, .file c) := by
  obtain ⟨mid, hs, ho⟩ := h
  have hmid : mid.find p = .ok (l, .file b) := by
    cases hs with
    | skipped => exact hf
    | taken ht => exact find_put_new ht.free hf _
  cases ho with
  | skipped => exact ⟨b, hmid⟩
  | @written m c _ hd =>
    by_cases hlm : l = m
    · subst hlm
      exact ⟨c, find_put_self hmid c⟩
    · exact ⟨b, find_put hd hlm hmid c⟩

theorem Effect.isSome (h : Effect path fs fs') (hk : (fs.node? k).isSome = true) :
    (fs'.node? k).isSome = true := by
  obtain ⟨mid, hs, ho⟩ := h
  obtain ⟨m, hm⟩ := Option.isSome_iff_exists.1 hk
  have hmid : mid.node? k = some m := by
    cases hs with
    | skipped => exact hm
    | taken ht => exact node?_put_new ht.free hm
  cases ho with
  | skipped => simp [hmid]
  | written c _ hd =>
    rw [node?_put _ (ne_nil_of_node? hd)]
    split
    · rfl
    · simp [hmid]

/-! ## Scripts of one directory -/

/-- A path leads into a directory, to a name that no backup has. -/
structure ScriptIn (d : Location) (fs : FileSystem) (path : Text) : Prop where
  directory : fs.find (Path.directory path) = .ok (d, .directory)
  named : ∃ own, Path.fileName? path = some own ∧ ¬ Backup.IsName own

theorem ScriptIn.effect {p : Text} (hin : ScriptIn d fs p) (h : Effect path fs fs') : ScriptIn d fs' p := by
  obtain ⟨hl, hd⟩ := find_eq_ok.1 hin.directory
  exact ⟨find_eq_ok.2 ⟨h.locate hl, h.directory hd⟩, hin.named⟩

/-- The script does not stand where a backup may. -/
theorem ScriptIn.ne (hin : ScriptIn d fs path) (hname : Backup.IsName name) (hl : fs.locate path = .ok l) :
    l ≠ d ++ [name] := by
  obtain ⟨own, hown, hplain⟩ := hin.named
  obtain ⟨d', hd', rfl⟩ := locate_of_fileName hown hl
  rw [hin.directory] at hd'
  cases hd'
  intro heq
  obtain rfl : own = name := by simpa using heq
  exact hplain hname

theorem ScriptIn.exists_stem (hin : ScriptIn d fs path) :
    ∃ stem, Path.stem? path = some stem ∧ stem ≠ [] ∧ '/' ∉ stem := by
  obtain ⟨own, hown, -⟩ := hin.named
  obtain ⟨hplain, -⟩ := Path.names_of_fileName hown
  obtain ⟨hne, hsub⟩ := Backup.stemOf_spec hplain.nonempty
  exact ⟨_, by rw [Path.stem?, hown]; rfl, hne, fun h => hplain.slash (hsub _ h)⟩

/-- A backup stands in the directory of its script, under its own name. -/
theorem Taken.place {backup : Backup} (ht : Taken fs path backup k bytes) (hin : ScriptIn d fs path)
    (hs : Path.stem? path = some stem) (hslash : '/' ∉ stem) :
    k = d ++ [Backup.fileName stem backup.sequence] ∧
    (fs.put k (.file bytes)).locate (Path.join (Path.directory path) (Backup.fileName stem backup.sequence)) =
      .ok k := by
  have hin' := hin.effect ⟨_, .taken ht, .skipped⟩
  obtain ⟨own, hown, -⟩ := hin.named
  have hpath : Path.withFileName path (Backup.fileName stem backup.sequence) = backup.path := by
    have hfor := ht.pathFor
    simp only [Backup.pathFor, Backup.stemOf, hs, bind, Except.bind] at hfor
    exact Except.ok.inj hfor
  have hloc := (find_eq_ok.1 ht.leads).1
  rw [← hpath] at hloc
  obtain ⟨rfl, hjoin⟩ := locate_withFileName hown (Backup.plain_fileName hslash _) hin'.directory hloc
  exact ⟨rfl, hjoin⟩

/-- A name of a backup that is new after a call is the one of the backup that the call has taken
first. -/
theorem Effect.new (h : Effect path fs fs') (hin : ScriptIn d fs path) (hname : Backup.IsName name)
    (hold : fs.node? (d ++ [name]) = none) (hnew : (fs'.node? (d ++ [name])).isSome = true) :
    ∃ backup bytes, Taken fs path backup (d ++ [name]) bytes ∧
      Effect path (fs.put (d ++ [name]) (.file bytes)) fs' := by
  obtain ⟨mid, hs, ho⟩ := h
  have hmid : mid.node? (d ++ [name]) = fs'.node? (d ++ [name]) := by
    cases ho with
    | skipped => rfl
    | written c hl hd =>
      have hin' := hin.effect ⟨mid, hs, .skipped⟩
      exact (node?_put_of_ne (ne_nil_of_node? hd) (hin'.ne hname hl).symm).symm
  rw [← hmid] at hnew
  cases hs with
  | skipped => simp [hold] at hnew
  | @taken backup k bytes ht =>
    have hd : fs.node? k ≠ some .directory := by simp [ht.free]
    by_cases hk : d ++ [name] = k
    · subst hk
      exact ⟨backup, bytes, ht, ⟨_, .skipped, ho⟩⟩
    · rw [node?_put_of_ne (ne_nil_of_node? hd) hk, hold] at hnew
      cases hnew

/-- Its name has the stem of the script and the next number. -/
theorem Effect.new_name (h : Effect path fs fs') (hin : ScriptIn d fs path) (hname : Backup.IsName name)
    (hold : fs.node? (d ++ [name]) = none) (hnew : (fs'.node? (d ++ [name])).isSome = true) :
    ∃ stem m, Path.stem? path = some stem ∧ name = Backup.fileName stem m ∧ Backup.next fs path = .ok m := by
  obtain ⟨stem, hs, -, hslash⟩ := hin.exists_stem
  obtain ⟨backup, bytes, ht, -⟩ := h.new hin hname hold hnew
  obtain ⟨hplace, -⟩ := ht.place hin hs hslash
  exact ⟨stem, backup.sequence, hs, by simpa using hplace, ht.next⟩

/-- A call on the script at `path` has made the backup with this number. -/
def Made (d : Location) (path : Text) (n : UInt32) (fs fs' : FileSystem) : Prop :=
  ∃ stem name, Path.stem? path = some stem ∧ Backup.sequence? stem name = some n ∧
    fs.node? (d ++ [name]) = none ∧ (fs'.node? (d ++ [name])).isSome = true

/-- No number in a directory is the last one there is. -/
def BelowLast (d : Location) (fs : FileSystem) : Prop :=
  ∀ stem m, Backup.Held fs d stem m → m.toNat + 1 < UInt32.size

theorem Taken.made {backup : Backup} (ht : Taken fs path backup k bytes) (hin : ScriptIn d fs path)
    (hnew : (fs'.node? k).isSome = true) : Made d path backup.sequence fs fs' := by
  obtain ⟨stem, hs, -, hslash⟩ := hin.exists_stem
  obtain ⟨rfl, -⟩ := ht.place hin hs hslash
  exact ⟨stem, _, hs, Backup.sequence?_fileName _ _, ht.free, hnew⟩

/-- A backup that an edit reports is there afterwards, and is new. -/
theorem made_of_setValue (he : engine.KeepsFiles) (hin : ScriptIn d w.files path) {name value : Text}
    {backUp : Bool} {backup : Backup} (h : setValue engine path name value backUp w = .ok (some backup) w') :
    Made d path backup.sequence w.files w'.files := by
  obtain ⟨file, v, w₁, l, saved, hp, hl, hs, rfl⟩ := (setValue_run_ok he).1 h
  obtain ⟨-, rfl, -⟩ := at_of_prepare he hp
  have hat := hs.at hl
  cases hs with
  | taken hb =>
    obtain ⟨k, hfree, rfl, hbackup, hnext, hfor⟩ := ScriptFile.backup_eq_ok hb
    have ht : Taken w.files file.path backup k _ := ⟨hnext, hfor, read_of_find hl, hfree, hbackup⟩
    refine ht.made hin ?_
    have hd := (find_eq_ok.1 hat).2
    rw [node?_put _ (ne_nil_of_find hat)]
    split
    · rfl
    · rw [node?_put_self (@ne_nil_of_node? w.files k (by simp [hfree]))]
      rfl

theorem made_of_taken? (he : engine.KeepsFiles) {r : Request} (hin : ScriptIn d w.files r.script)
    {backup : Backup} (h : r.taken? engine w = some backup) :
    Made d r.script backup.sequence w.files (r.after engine w).files := by
  cases r with
  | setValue path name value backUp =>
    simp only [Request.taken?, Request.after, Request.script] at h ⊢ hin
    obtain ⟨w', hr⟩ := outcome?_eq_some.1 (Option.join_eq_some_iff.1 h)
    rw [hr]
    exact made_of_setValue he hin hr
  | setAll path edits =>
    simp only [Request.taken?, Request.after, Request.script] at h ⊢ hin
    obtain ⟨w', hr⟩ := outcome?_eq_some.1 (Option.join_eq_some_iff.1 h)
    rw [hr]
    cases edits with
    | nil => cases hr
    | cons edit rest =>
      obtain ⟨name, value⟩ := edit
      obtain ⟨_, w₁, hb, hfirst, hrest⟩ := setAll_run_ok he hr
      cases hb
      obtain ⟨stem, file, hs, hseq, hold, hnew⟩ := made_of_setValue he hin hfirst
      have hkept : Effect path w₁.files w'.files := ⟨_, .skipped, overwrites_setRest he hrest⟩
      exact ⟨stem, file, hs, hseq, hold, hkept.isSome hnew⟩
  | restore path sequence => cases h

/-- A new backup gets a number above all that the directory holds for the stem. -/
theorem made_above (h : Effect path fs fs') (hin : ScriptIn d fs path) (hlast : BelowLast d fs)
    (hm : Made d path n fs fs') (hs : Path.stem? path = some stem) :
    ∀ m, Backup.Held fs d stem m → m < n := by
  obtain ⟨stem', name, hs', hseq, hold, hnew⟩ := hm
  obtain ⟨_, hstem, hne, -⟩ := hin.exists_stem
  rw [hs] at hs' hstem
  cases hs'
  cases hstem
  obtain ⟨_, m, hstem, rfl, hnext⟩ := h.new_name hin (Backup.isName_of_sequence? hne hseq) hold hnew
  rw [hs] at hstem
  cases hstem
  rw [Backup.sequence?_fileName] at hseq
  cases hseq
  exact Backup.next_above hs hin.directory (hlast stem) hnext

/-! ## What can be restored -/

/-- The backup of a script with a number is a file with these bytes, the only one with its number,
and the script is a file. -/
structure Restorable (d : Location) (fs : FileSystem) (path stem : Text) (n : UInt32) (name : Text)
    (bytes : ByteArray) : Prop where
  script : ScriptIn d fs path
  hasStem : Path.stem? path = some stem
  number : Backup.sequence? stem name = some n
  content : fs.node? (d ++ [name]) = some (.file bytes)
  leads : fs.locate (Path.join (Path.directory path) name) = .ok (d ++ [name])
  unique : ∀ other, (fs.node? (d ++ [other])).isSome = true → Backup.sequence? stem other = some n → other = name
  target : ∃ l b, fs.find path = .ok (l, .file b)

/-- What a call has backed up can be restored right after the call. -/
theorem restorable_of_made (h : Effect path fs fs') (hin : ScriptIn d fs path) (hlast : BelowLast d fs)
    (hm : Made d path n fs fs') : ∃ stem name bytes, fs.read path = .ok bytes ∧
      Restorable d fs' path stem n name bytes := by
  have hm' := hm
  obtain ⟨stem, name, hs, hseq, hold, hnew⟩ := hm
  obtain ⟨_, hstem, hne, hslash⟩ := hin.exists_stem
  rw [hs] at hstem
  cases hstem
  have hname := Backup.isName_of_sequence? hne hseq
  obtain ⟨backup, bytes, ht, hrest⟩ := h.new hin hname hold hnew
  obtain ⟨hplace, hleads⟩ := ht.place hin hs hslash
  obtain rfl : name = Backup.fileName stem backup.sequence := by simpa using hplace
  obtain ⟨l, hl⟩ := find_of_read ht.content
  have hin' : ScriptIn d (fs.put _ (.file bytes)) path := hin.effect ⟨_, .taken ht, .skipped⟩
  refine ⟨stem, _, bytes, ht.content, hin.effect h, hs, hseq, ?_, hrest.locate hleads, ?_, ?_⟩
  · refine hrest.kept (node?_put_self ?_) fun hloc => hin'.ne hname hloc rfl
    exact @ne_nil_of_node? fs _ (by simp [hold])
  · intro other hother hotherSeq
    by_cases hotherOld : (fs.node? (d ++ [other])).isSome = true
    · exact absurd (made_above h hin hlast hm' hs n ⟨other, hotherOld, hotherSeq⟩) (UInt32.lt_irrefl n)
    · obtain ⟨_, m, hstem, rfl, hnext⟩ := h.new_name hin (Backup.isName_of_sequence? hne hotherSeq)
        (by simpa using hotherOld) hother
      rw [hs] at hstem
      cases hstem
      rw [ht.next] at hnext
      cases hnext
      rfl
  · obtain ⟨c, hc⟩ := h.file hl
    exact ⟨l, c, hc⟩

/-- A later call keeps what can be restored: it changes no backup, and the numbers it gives are
new. -/
theorem Restorable.after {p : Text} (h : Restorable d fs p stem n name bytes) (he : Effect path fs fs')
    (hin : ScriptIn d fs path) (hlast : BelowLast d fs) : Restorable d fs' p stem n name bytes := by
  obtain ⟨_, hstem, hne, -⟩ := h.script.exists_stem
  rw [h.hasStem] at hstem
  cases hstem
  have hname := Backup.isName_of_sequence? hne h.number
  refine ⟨h.script.effect he, h.hasStem, h.number, he.kept h.content fun hl => hin.ne hname hl rfl,
    he.locate h.leads, fun other hother hseq => ?_, ?_⟩
  · by_cases hold : (fs.node? (d ++ [other])).isSome = true
    · exact h.unique other hold hseq
    · -- a new backup has another number, if it is one of this stem at all
      have hold : fs.node? (d ++ [other]) = none := by simpa using hold
      obtain ⟨stem', m, hs', rfl, -⟩ := he.new_name hin (Backup.isName_of_sequence? hne hseq) hold hother
      obtain ⟨rfl, -⟩ := Backup.stem_unique hseq (Backup.sequence?_fileName stem' m)
      have habove := made_above he hin hlast ⟨_, _, hs', hseq, hold, hother⟩ hs'
      exact absurd (habove n ⟨name, by simp [h.content], h.number⟩) (UInt32.lt_irrefl n)
  · obtain ⟨l, b, hl⟩ := h.target
    obtain ⟨c, hc⟩ := he.file hl
    exact ⟨l, c, hc⟩

/-- Restoring it gives the script the bytes of the backup. -/
theorem Restorable.restore (h : Restorable d w.files path stem n name bytes) :
    ∃ b w', Editor.restore path (some n) w = .ok b w' ∧ b.sequence = n ∧ w'.files.read path = .ok bytes := by
  obtain ⟨_, hstem, hne, -⟩ := h.script.exists_stem
  rw [h.hasStem] at hstem
  cases hstem
  obtain ⟨l, old, hl⟩ := h.target
  have hplace := h.script.ne (Backup.isName_of_sequence? hne h.number) (find_eq_ok.1 hl).1
  have hrun := Backup.restore_of_unique h.hasStem h.script.directory (find_eq_ok.2 ⟨h.leads, h.content⟩)
    h.number h.unique hl hplace.symm
  exact ⟨_, _, onFiles_run_ok.2 ⟨_, hrun, rfl⟩, rfl, read_of_find (find_put_self hl bytes)⟩

/-! ## Histories -/

variable {requests front middle rest : List Request} {r : Request}

/-- What every call keeps, a history keeps. -/
theorem history_induction (he : engine.KeepsFiles) (inv : FileSystem → Prop) (h : inv w.files)
    (hstep : ∀ r ∈ requests, ∀ fs fs', inv fs → Effect r.script fs fs' → inv fs') :
    inv (history engine w requests).files := by
  induction requests generalizing w with
  | nil => exact h
  | cons r rest ih =>
    refine ih (hstep r List.mem_cons_self _ _ h (effect_after he w r)) fun q hq => ?_
    exact hstep q (List.mem_cons_of_mem _ hq)

theorem history_scriptIn (he : engine.KeepsFiles) {p : Text} (h : ScriptIn d w.files p)
    (requests : List Request) : ScriptIn d (history engine w requests).files p :=
  history_induction he (ScriptIn d · p) h fun _ _ _ _ hin heffect => hin.effect heffect

/-- Nothing is removed, so numbers that are below the last one at the end were so before. -/
theorem belowLast_of_history (he : engine.KeepsFiles)
    (h : BelowLast d (history engine w requests).files) : BelowLast d w.files := by
  rintro stem m ⟨name, hname, hseq⟩
  refine h stem m ⟨name, ?_, hseq⟩
  exact history_induction he (fun fs => (fs.node? (d ++ [name])).isSome = true) hname
    fun _ _ _ _ hsome heffect => heffect.isSome hsome

/-- No call on a script of the directory changes a file that is called as a backup is. -/
theorem history_kept (he : engine.KeepsFiles) (hin : ∀ r ∈ requests, ScriptIn d w.files r.script)
    (hname : Backup.IsName name) (h : w.files.node? (d ++ [name]) = some (.file bytes)) :
    (history engine w requests).files.node? (d ++ [name]) = some (.file bytes) := by
  induction requests generalizing w with
  | nil => exact h
  | cons r rest ih =>
    have heffect := effect_after he w r
    refine ih (fun q hq => (hin q (List.mem_cons_of_mem _ hq)).effect heffect) ?_
    exact heffect.kept h fun hl => (hin r List.mem_cons_self).ne hname hl rfl

theorem history_restorable (he : engine.KeepsFiles) (hin : ∀ r ∈ requests, ScriptIn d w.files r.script)
    (hlast : BelowLast d (history engine w requests).files) (h : Restorable d w.files path stem n name bytes) :
    Restorable d (history engine w requests).files path stem n name bytes := by
  induction requests generalizing w with
  | nil => exact h
  | cons r rest ih =>
    have heffect := effect_after he w r
    refine ih (fun q hq => (hin q (List.mem_cons_of_mem _ hq)).effect heffect) hlast ?_
    exact h.after heffect (hin r List.mem_cons_self) (belowLast_of_history he hlast)

/-- In every history of calls on scripts of one directory, be they successful or failing: a backup
that a call reports is one that it has made; a backup that a call makes gets a number above all
that the directory holds for its stem at that time; from any time on to any later time, what is
called as a backup is keeps its content; and at any time after a call that has made a backup,
restoring by its number succeeds and gives the script the bytes that it had just before that
call. -/
theorem history_backups (he : engine.KeepsFiles) (hin : ∀ r ∈ requests, ScriptIn d w.files r.script)
    (hlast : BelowLast d (history engine w requests).files)
    (hsplit : requests = front ++ r :: (middle ++ rest)) :
    let before := history engine w front
    let after := r.after engine before
    let later := history engine after middle
    (∀ b, r.taken? engine before = some b → Made d r.script b.sequence before.files after.files) ∧
    (∀ n, Made d r.script n before.files after.files →
      ∀ stem m, Path.stem? r.script = some stem → Backup.Held before.files d stem m → m < n) ∧
    (∀ name bytes, Backup.IsName name → before.files.node? (d ++ [name]) = some (.file bytes) →
      later.files.node? (d ++ [name]) = some (.file bytes)) ∧
    ∀ n, Made d r.script n before.files after.files →
      ∃ bytes b w', before.files.read r.script = .ok bytes ∧ restore r.script (some n) later = .ok b w' ∧
        b.sequence = n ∧ w'.files.read r.script = .ok bytes := by
  intro before after later
  subst hsplit
  have heffect : Effect r.script before.files after.files := effect_after he before r
  have hbefore : ∀ q ∈ r :: (middle ++ rest), ScriptIn d before.files q.script := fun q hq =>
    history_scriptIn he (hin q (List.mem_append_right _ hq)) front
  have hscript := hbefore r List.mem_cons_self
  have hafter : ∀ q ∈ middle, ScriptIn d after.files q.script := fun q hq =>
    (hbefore q (List.mem_cons_of_mem _ (List.mem_append_left _ hq))).effect heffect
  have hend : history engine w (front ++ r :: (middle ++ rest)) = history engine later rest := by
    simp [history, before, after, later]
  rw [hend] at hlast
  have hlater : BelowLast d later.files := belowLast_of_history he hlast
  have hfrom : BelowLast d before.files := by
    have hall : later = history engine before (r :: middle) := rfl
    rw [hall] at hlater
    exact belowLast_of_history he hlater
  refine ⟨fun b hb => made_of_taken? he hscript hb, fun n hm stem m hs => ?_,
    fun name bytes hname hfile => ?_, fun n hm => ?_⟩
  · exact made_above heffect hscript hfrom hm hs m
  · refine history_kept he hafter hname ?_
    exact heffect.kept hfile fun hl => hscript.ne hname hl rfl
  · obtain ⟨stem, name, bytes, hread, hr⟩ := restorable_of_made heffect hscript hfrom hm
    obtain ⟨b, w', hrun, hb, hw⟩ := (history_restorable he hafter hlater hr).restore
    exact ⟨bytes, b, w', hread, hrun, hb, hw⟩

set_option maxRecDepth 10000 in
/-- An edit is restored, and then a batch fails at its second edit and is undone. -/
theorem history_backups_undone :
    let w : World Unit := ⟨FileSystem.single "s.m" "a = 1;\n", ()⟩
    let first : Request := .setValue "/s.m".toList "a".toList "2".toList true
    let batch : Request := .setAll "/s.m".toList [("a".toList, "3".toList), ("b".toList, "3".toList)]
    let later := history Runner.plain.engine w [first, .restore "/s.m".toList none, batch]
    ∃ b w', restore "/s.m".toList (some 1) later = .ok b w' ∧
      w'.files.read "/s.m".toList = w.files.read "/s.m".toList := by
  intro w first batch later
  have hplain : ¬ Backup.IsName "s.m".toList := by
    rintro ⟨stem, digits, heq, -, hne, -⟩
    exact absurd (heq ▸ Backup.length_numbered stem hne) (by decide)
  have hscript : ScriptIn [] w.files "/s.m".toList := ⟨rfl, "s.m".toList, by decide, hplain⟩
  have hin : ∀ r ∈ [first, .restore "/s.m".toList none, batch], ScriptIn [] w.files r.script := by
    simpa [first, batch, Request.script] using hscript
  have hkeys : later.files.nodes.map Prod.fst = [["s.m".toList], ["s.bak001".toList], ["s.bak002".toList]] := by
    decide +kernel
  have hlast : BelowLast [] later.files := by
    rintro stem m ⟨name, hname, hseq⟩
    have hmem : [name] ∈ later.files.nodes.map Prod.fst := by
      obtain ⟨node, hnode, hkey⟩ := List.lookup_isSome_iff.1 hname
      exact List.mem_map.2 ⟨node, hnode, (beq_iff_eq.1 hkey).symm⟩
    rw [hkeys] at hmem
    simp only [List.mem_cons, List.cons.injEq, and_true, List.not_mem_nil, or_false] at hmem
    rcases hmem with rfl | rfl | rfl
    · obtain ⟨digits, heq, hne, -⟩ := Backup.sequence?_eq_some.1 hseq
      exact absurd (heq ▸ Backup.length_numbered stem hne) (by decide)
    · obtain ⟨-, rfl⟩ := Backup.stem_unique hseq (Backup.sequence?_fileName "s".toList 1)
      decide
    · obtain ⟨-, rfl⟩ := Backup.stem_unique hseq (Backup.sequence?_fileName "s".toList 2)
      decide
  have hmade : Made [] "/s.m".toList 1 w.files (first.after Runner.plain.engine w).files :=
    ⟨"s".toList, "s.bak001".toList, by decide, by decide, rfl, by decide +kernel⟩
  have hsplit : [first, .restore "/s.m".toList none, batch] =
      [] ++ first :: ([.restore "/s.m".toList none, batch] ++ []) := rfl
  obtain ⟨-, -, -, hrestore⟩ := history_backups Runner.plain.engine_keepsFiles hin hlast hsplit
  obtain ⟨bytes, b, w', hread, hrun, -, hw⟩ := hrestore 1 hmade
  exact ⟨b, w', hrun, hw.trans hread.symm⟩

end Editor

end ConfigScript
