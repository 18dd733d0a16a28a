import ConfigScript.Files.Backup
import ConfigScript.Proofs.Basic
/-!
# What file operations do

A file operation changes one location at most. The lemmas say where that is and what a path leads
to afterwards: putting a file where no directory stands disturbs no path that led to something
(`find_put`), and a file that a path leads to can be overwritten and copied over.
-/

namespace ConfigScript

namespace FileSystem

/-! ## Putting files -/

theorem replace_replace (l : Location) (m n : Node) (nodes : List (Location × Node)) :
    replace l n (replace l m nodes) = replace l n nodes := by
  induction nodes with
  | nil => simp [replace]
  | cons p rest ih =>
    obtain ⟨k, o⟩ := p
    by_cases h : k = l
    · simp [replace, h]
    · simp [replace, h, ih]

theorem replace_self {l : Location} {n : Node} {nodes : List (Location × Node)}
    (h : nodes.lookup l = some n) : replace l n nodes = nodes := by
  induction nodes with
  | nil => simp at h
  | cons p rest ih =>
    obtain ⟨k, o⟩ := p
    by_cases hk : k = l
    · subst hk
      simp only [List.lookup_cons_self, Option.some.injEq] at h
      simp [replace, h]
    · rw [List.lookup_cons, beq_eq_false_iff_ne.2 (Ne.symm hk)] at h
      simp [replace, hk, ih h]

variable {fs : FileSystem} {path : Text} {l k : Location} {n : Node} {b c : ByteArray}

@[simp] theorem current_put : (fs.put l n).current = fs.current := rfl

@[simp] theorem put_put (m : Node) : (fs.put l m).put l n = fs.put l n := by
  simp [put, replace_replace]

theorem put_self (hl : l ≠ []) (h : fs.node? l = some n) : fs.put l n = fs := by
  have : fs.nodes.lookup l = some n := by simpa [node?, hl] using h
  simp [put, replace_self this]

theorem node?_put_self (hl : l ≠ []) : (fs.put l n).node? l = some n := by
  simp [node?_put fs hl]

theorem node?_put_of_ne (hl : l ≠ []) (h : k ≠ l) : (fs.put l n).node? k = fs.node? k := by
  simp [node?_put fs hl, h]

/-- A location at which a file or nothing stands is not the root. -/
theorem ne_nil_of_node? (h : fs.node? l ≠ some .directory) : l ≠ [] := by
  rintro rfl
  exact h rfl

/-! ## Paths -/

theorem walk_append (steps more : List Text) :
    fs.walk l (steps ++ more) = fs.walk l steps >>= fun m => fs.walk m more := by
  induction steps generalizing l with
  | nil => rfl
  | cons name rest ih =>
    simp only [List.cons_append, walk]
    cases fs.node? l with
    | none => rfl
    | some node =>
      cases node with
      | file _ => rfl
      | directory =>
        simp only
        split
        · rfl
        · exact ih

/-- A walk still succeeds if all directories stay. -/
theorem walk_of_directories {fs' : FileSystem}
    (h : ∀ l, fs.node? l = some .directory → fs'.node? l = some .directory) {steps : List Text}
    (hw : fs.walk l steps = .ok k) : fs'.walk l steps = .ok k := by
  induction steps generalizing l with
  | nil => exact hw
  | cons name rest ih =>
    simp only [walk] at hw ⊢
    cases hn : fs.node? l with
    | none => simp [hn] at hw
    | some node =>
      cases node with
      | file _ => simp [hn] at hw
      | directory =>
        rw [hn] at hw
        rw [h l hn]
        simp only at hw ⊢
        split at hw
        · cases hw
        · next hlen => rw [if_neg hlen]; exact ih hw

theorem node?_put_directory (hk : fs.node? k ≠ some .directory) {l : Location}
    (h : fs.node? l = some .directory) : (fs.put k n).node? l = some .directory := by
  rw [node?_put_of_ne (ne_nil_of_node? hk), h]
  rintro rfl
  exact hk h

theorem locate_put (hk : fs.node? k ≠ some .directory) (h : fs.locate path = .ok l) :
    (fs.put k n).locate path = .ok l := by
  unfold locate follow at h ⊢
  split at h
  · cases h
  · next h0 =>
    split at h
    · cases h
    · next h1 =>
      split at h
      · cases h
      · next h2 =>
        rw [if_neg h0, if_neg h1, if_neg h2]
        exact walk_of_directories (fun _ => node?_put_directory hk) h

theorem find_eq_ok : fs.find path = .ok (l, n) ↔ fs.locate path = .ok l ∧ fs.node? l = some n := by
  unfold find
  rw [bind_eq_ok]
  constructor
  · rintro ⟨m, hm, h⟩
    cases hn : fs.node? m with
    | none => simp [hn] at h
    | some o =>
      simp only [hn] at h
      cases h
      exact ⟨hm, hn⟩
  · rintro ⟨hl, hn⟩
    exact ⟨l, hl, by simp [hn]; rfl⟩

theorem node?_of_find (h : fs.find path = .ok (l, n)) : fs.node? l = some n := (find_eq_ok.1 h).2

/-- What a path leads to stays what it is when a file is put somewhere else. -/
theorem find_put (hk : fs.node? k ≠ some .directory) (hne : l ≠ k) (h : fs.find path = .ok (l, n))
    (c : ByteArray) : (fs.put k (.file c)).find path = .ok (l, n) := by
  obtain ⟨hl, hn⟩ := find_eq_ok.1 h
  exact find_eq_ok.2 ⟨locate_put hk hl, by rw [node?_put_of_ne (ne_nil_of_node? hk) hne, hn]⟩

/-- A new file hides nothing that was there. -/
theorem node?_put_new {m : Node} (hk : fs.node? k = none) (h : fs.node? l = some n) :
    (fs.put k m).node? l = some n := by
  have hd : fs.node? k ≠ some .directory := by simp [hk]
  rw [node?_put_of_ne (ne_nil_of_node? hd), h]
  rintro rfl
  simp [hk] at h

theorem find_put_new (hk : fs.node? k = none) (h : fs.find path = .ok (l, n)) (c : ByteArray) :
    (fs.put k (.file c)).find path = .ok (l, n) := by
  refine find_put (by simp [hk]) ?_ h c
  rintro rfl
  simp [node?_of_find h] at hk

theorem find_put_self (h : fs.find path = .ok (l, .file b)) (c : ByteArray) :
    (fs.put l (.file c)).find path = .ok (l, .file c) := by
  obtain ⟨hl, hn⟩ := find_eq_ok.1 h
  have hd : fs.node? l ≠ some .directory := by simp [hn]
  exact find_eq_ok.2 ⟨locate_put hd hl, node?_put_self (ne_nil_of_node? hd)⟩

theorem ne_nil_of_find (h : fs.find path = .ok (l, .file b)) : l ≠ [] :=
  @ne_nil_of_node? fs l (by simp [node?_of_find h])

/-- A path to a file does not end in a slash. -/
theorem getLast?_of_find (h : fs.find path = .ok (l, .file b)) : path.getLast? ≠ some '/' := by
  intro hs
  obtain ⟨hl, hn⟩ := find_eq_ok.1 h
  have hw : fs.walk (fs.start path) (Path.names path ++ [['.']]) = .ok l := by
    unfold locate follow at hl
    split at hl
    · cases hl
    · split at hl
      · cases hl
      · split at hl
        · cases hl
        · simpa [Path.steps, hs] using hl
  rw [walk_append, bind_eq_ok] at hw
  obtain ⟨m, -, hm⟩ := hw
  simp only [walk] at hm
  cases hd : fs.node? m with
  | none => simp [hd] at hm
  | some node =>
    cases node with
    | file _ => simp [hd] at hm
    | directory =>
      have hdot : ¬ maxName < Text.byteLength ['.'] := by decide
      have hlm : m = l := by simpa [hd, hdot, Location.step] using hm
      rw [hlm, hn] at hd
      cases hd

theorem locateNew_of_getLast? (h : path.getLast? ≠ some '/') : fs.locateNew path = fs.locate path := by
  simp [locateNew, h]

theorem locateNew_eq_ok (h : fs.locateNew path = .ok l) : fs.locate path = .ok l := by
  unfold locateNew at h
  split at h
  · rw [bind_eq_ok] at h
    obtain ⟨_, -, h⟩ := h
    cases h
  · exact h

/-! ## Reading and writing -/

theorem isFile_of_find (h : fs.find path = .ok (l, .file b)) : fs.isFile path = true := by
  simp [isFile, h]

theorem read_of_find (h : fs.find path = .ok (l, .file b)) : fs.read path = .ok b := by
  simp only [read, h]
  rfl

theorem find_of_read (h : fs.read path = .ok b) : ∃ l, fs.find path = .ok (l, .file b) := by
  unfold read at h
  rw [bind_eq_ok] at h
  obtain ⟨⟨l, node⟩, hf, h⟩ := h
  cases node with
  | directory => cases h
  | file c => cases h; exact ⟨l, hf⟩

/-- A file that a path leads to is overwritten in its place. -/
theorem write_of_find (h : fs.find path = .ok (l, .file b)) (c : ByteArray) :
    fs.write path c = .ok (fs.put l (.file c)) := by
  obtain ⟨hl, hn⟩ := find_eq_ok.1 h
  simp only [write, locateNew_of_getLast? (getLast?_of_find h), hl]
  simp [bind, Except.bind, hn]
  rfl

/-- A new file stands where nothing stood, and its path leads to it. -/
theorem writeNew_eq_ok {fs' : FileSystem} (h : fs.writeNew path c = .ok fs') :
    ∃ l, fs.node? l = none ∧ fs' = fs.put l (.file c) ∧ fs'.find path = .ok (l, .file c) := by
  unfold writeNew at h
  rw [bind_eq_ok] at h
  obtain ⟨l, hl, h⟩ := h
  cases hn : fs.node? l with
  | some _ => simp [hn] at h
  | none =>
    simp only [hn] at h
    cases h
    have hd : fs.node? l ≠ some .directory := by simp [hn]
    exact ⟨l, hn, rfl, find_eq_ok.2 ⟨locate_put hd (locateNew_eq_ok hl), node?_put_self (ne_nil_of_node? hd)⟩⟩

theorem write_eq_ok {fs' : FileSystem} (h : fs.write path c = .ok fs') :
    ∃ l, fs.locate path = .ok l ∧ fs.node? l ≠ some .directory ∧ fs' = fs.put l (.file c) := by
  unfold write at h
  rw [bind_eq_ok] at h
  obtain ⟨l, hl, h⟩ := h
  refine ⟨l, locateNew_eq_ok hl, ?_⟩
  split at h
  · cases h
  · next hn =>
    cases h
    exact ⟨hn, rfl⟩

/-- What a written path leads to. -/
theorem find_put_of_locate (hl : fs.locate path = .ok l) (hd : fs.node? l ≠ some .directory) (n : Node) :
    (fs.put l n).find path = .ok (l, n) :=
  find_eq_ok.2 ⟨locate_put hd hl, node?_put_self (ne_nil_of_node? hd)⟩

/-- A copy leaves at its target what the source holds once the target is empty, and changes nothing
else. -/
theorem copy_eq_ok {source target : Text} {fs' : FileSystem} (h : fs.copy source target = .ok fs') :
    ∃ k l c, fs.find source = .ok (k, .file c) ∧ fs.locate target = .ok l ∧
      fs.node? l ≠ some .directory ∧ fs' = fs.put l (.file (if k = l then .empty else c)) := by
  unfold copy at h
  rw [bind_eq_ok] at h
  obtain ⟨c, hsource, h⟩ := h
  rw [bind_eq_ok] at h
  obtain ⟨emptied, hemptied, h⟩ := h
  rw [bind_eq_ok] at h
  obtain ⟨content, hcontent, h⟩ := h
  obtain ⟨k, hk⟩ := find_of_read hsource
  obtain ⟨l, hl, hd, rfl⟩ := write_eq_ok hemptied
  obtain ⟨l', hl', -, rfl⟩ := write_eq_ok h
  rw [locate_put hd hl] at hl'
  cases hl'
  refine ⟨k, l, c, hk, hl, hd, ?_⟩
  rw [put_put]
  -- what is read after the target was emptied
  split
  · next hkl =>
    subst hkl
    rw [read_of_find (find_put_self hk .empty)] at hcontent
    cases hcontent
    rfl
  · next hkl =>
    rw [read_of_find (find_put hd hkl hk .empty)] at hcontent
    cases hcontent
    rfl

/-- A copy onto another file leaves there what the source holds. -/
theorem copy_of_find {source target : Text} (hs : fs.find source = .ok (k, .file c))
    (ht : fs.find target = .ok (l, .file b)) (hne : k ≠ l) :
    fs.copy source target = .ok (fs.put l (.file c)) := by
  have hd : fs.node? l ≠ some .directory := by simp [node?_of_find ht]
  have he : (fs.put l (.file .empty)).read source = .ok c := read_of_find (find_put hd hne hs .empty)
  have hw := write_of_find (find_put_self ht .empty) c
  simp only [copy, read_of_find hs, write_of_find ht, he, hw, put_put, bind, Except.bind]

end FileSystem

/-! ## Script files -/

namespace ScriptFile

open FileSystem

variable {fs : FileSystem} {path : Text} {l : Location}

theorem fromUTF8?_encode (t : Text) : String.fromUTF8? (encode t) = some (String.ofList t) := by
  unfold encode String.fromUTF8?
  rw [String.toUTF8_eq_toByteArray, dif_pos (String.ofList t).isValidUTF8]
  rfl

theorem encode_of_fromUTF8? {b : ByteArray} {s : String} (h : String.fromUTF8? b = some s) :
    encode s.toList = b := by
  unfold String.fromUTF8? at h
  split at h
  · cases h
    simp [encode, String.ofList_toList]
    rfl
  · cases h

theorem encode_injective {s t : Text} (h : encode s = encode t) : s = t := by
  have := (fromUTF8?_encode s).symm.trans (h ▸ fromUTF8?_encode t)
  exact String.ofList_injective (Option.some.inj this)

/-- A path leads to a file with this content. -/
def At (fs : FileSystem) (path : Text) (l : Location) (content : Text) : Prop :=
  fs.find path = .ok (l, .file (encode content))

theorem At.unique {l' : Location} {content content' : Text} (h : At fs path l content)
    (h' : At fs path l' content') : l = l' ∧ content = content' := by
  have he := h.symm.trans h'
  simp only [Except.ok.injEq, Prod.mk.injEq, Node.file.injEq] at he
  exact ⟨he.1, encode_injective he.2⟩

/-- A script is read exactly as it stands in its file. -/
theorem read_eq_ok {file : ScriptFile} :
    read fs path = .ok file ↔ file.path = path ∧ ∃ l, At fs path l file.content := by
  constructor
  · intro h
    unfold read at h
    split at h
    · cases ht : fs.readText path with
      | error e => simp [ht] at h
      | ok content =>
        simp only [ht] at h
        cases h
        unfold readText at ht
        rw [bind_eq_ok] at ht
        obtain ⟨b, hb, ht⟩ := ht
        cases hs : String.fromUTF8? b with
        | none => simp [hs] at ht
        | some s =>
          simp only [hs] at ht
          cases ht
          obtain ⟨l, hl⟩ := find_of_read hb
          exact ⟨rfl, l, by rw [At, encode_of_fromUTF8? hs]; exact hl⟩
    · cases h
  · obtain ⟨p, content⟩ := file
    rintro ⟨rfl, l, h⟩
    have ht : fs.readText p = .ok content := by
      simp only [readText, read_of_find h, bind, Except.bind, fromUTF8?_encode]
      simp
      rfl
    simp [read, isFile_of_find h, ht]

theorem read_of_at {content : Text} (h : At fs path l content) : read fs path = .ok ⟨path, content⟩ :=
  read_eq_ok.2 ⟨rfl, l, h⟩

/-- Writing over a script that is there succeeds and changes no other place. -/
theorem write_of_at {file : ScriptFile} {old : Text} (h : At fs file.path l old) (content : Text) :
    file.write fs content = .ok (fs.put l (.file (encode content.endLastLine))) := by
  simp [write, write_of_find h]

/-- A script that was written reads as what was written, its last line ended. -/
theorem read_of_write {file : ScriptFile} {content : Text} {fs' : FileSystem}
    (h : file.write fs content = .ok fs') : read fs' file.path = .ok ⟨file.path, content.endLastLine⟩ := by
  unfold write at h
  cases hw : fs.write file.path (encode content.endLastLine) with
  | error e => simp [hw] at h
  | ok after =>
    rw [hw] at h
    cases h
    obtain ⟨l, hl, hd, rfl⟩ := write_eq_ok hw
    exact read_of_at (find_put_of_locate hl hd _)

/-- A backup is a new file that holds the script as it was read. -/
theorem backup_eq_ok {file : ScriptFile} {backup : Backup} {fs' : FileSystem}
    (h : file.backup fs = .ok (backup, fs')) :
    ∃ k, fs.node? k = none ∧ fs' = fs.put k (.file (encode file.content)) ∧
      At fs' backup.path k file.content ∧ Backup.next fs file.path = .ok backup.sequence ∧
      Backup.pathFor file.path backup.sequence = .ok backup.path := by
  unfold ScriptFile.backup at h
  rw [bind_eq_ok] at h
  obtain ⟨sequence, hn, h⟩ := h
  rw [bind_eq_ok] at h
  obtain ⟨path, hp, h⟩ := h
  cases hw : fs.writeNew path (encode file.content) with
  | error e => simp [hw] at h
  | ok after =>
    simp only [hw] at h
    cases h
    obtain ⟨k, hk, hput, hfind⟩ := writeNew_eq_ok hw
    exact ⟨k, hk, hput, hfind, hn, hp⟩

/-- A backup put back over the script makes it what the backup holds. -/
theorem copyBack_of_at {target backup old content : Text} {k : Location}
    (hb : At fs backup k content) (ht : At fs target l old) (hne : k ≠ l) :
    Backup.copyBack fs target backup = .ok (fs.put l (.file (encode content))) := by
  simp [Backup.copyBack, isFile_of_find hb, copy_of_find hb ht hne]

end ScriptFile

/-- One script at the root. -/
def FileSystem.single (name script : String) : FileSystem :=
  ⟨[([name.toList], .file (ScriptFile.encode script.toList))], []⟩

end ConfigScript
