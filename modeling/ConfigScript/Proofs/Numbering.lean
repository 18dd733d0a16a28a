import ConfigScript.Proofs.Paths
import Mathlib.Data.List.Pairwise
/-!
# Numbers of backups

The name of a backup gives away its stem and its number (`sequence?_fileName`, `stem_unique`). The
backups of a script are the names of that form in its directory, in order of their numbers
(`all_eq_ok`), so the next number is above all that the directory holds (`next_above`).
-/

namespace ConfigScript

namespace Backup

open FileSystem

variable {stem name digits : Text} {n : UInt32}

/-! ## Names -/

/-- A name that consists of a stem, the marker and a number. -/
def IsName (name : Text) : Prop :=
  ∃ stem digits, name = stem ++ (marker ++ digits) ∧ stem ≠ [] ∧ digits ≠ [] ∧
    ∀ c ∈ digits, c.isDigit = true

theorem length_numbered (stem : Text) (hne : digits ≠ []) : 5 ≤ (stem ++ (marker ++ digits)).length := by
  have hdigits := List.length_pos_iff.2 hne
  have hmarker : marker.length = 4 := by decide
  rw [List.length_append, List.length_append, hmarker]
  omega

theorem sequence?_eq_some : sequence? stem name = some n ↔
    ∃ digits, name = stem ++ (marker ++ digits) ∧ digits ≠ [] ∧ (∀ c ∈ digits, c.isDigit = true) ∧
      Text.digitsValue digits = n.toNat := by
  have hsize : n.toNat < UInt32.size := n.toNat_lt
  unfold sequence?
  constructor
  · intro h
    obtain ⟨numbered, hstem, h⟩ := Option.bind_eq_some_iff.1 h
    obtain ⟨digits, hmarker, h⟩ := Option.bind_eq_some_iff.1 h
    rw [Text.dropHead?_eq_some] at hstem hmarker
    split at h
    · cases h
    · next hdigits =>
      simp only [Bool.or_eq_true, List.isEmpty_iff, Bool.not_eq_true', not_or, Bool.not_eq_false,
        List.all_eq_true] at hdigits
      split at h
      · next hlt =>
        cases h
        exact ⟨digits, by rw [hstem, hmarker], hdigits.1, hdigits.2, (UInt32.toNat_ofNat_of_lt hlt).symm⟩
      · cases h
  · rintro ⟨digits, rfl, hne, hall, hvalue⟩
    refine Option.bind_eq_some_iff.2 ⟨_, Text.dropHead?_eq_some.2 rfl, ?_⟩
    refine Option.bind_eq_some_iff.2 ⟨_, Text.dropHead?_eq_some.2 rfl, ?_⟩
    rw [if_neg (by simpa [hne] using hall), hvalue, if_pos hsize, UInt32.ofNat_toNat]

/-- The name of a backup tells its number. -/
theorem sequence?_fileName (stem : Text) (n : UInt32) : sequence? stem (fileName stem n) = some n := by
  refine sequence?_eq_some.2 ⟨Text.padded 3 (Text.ofNat n.toNat), List.append_assoc _ _ _, ?_, ?_, ?_⟩
  · simp [Text.padded, Text.ofNat_ne_nil]
  · intro c hc
    rcases List.mem_append.1 hc with hc | hc
    · rw [List.eq_of_mem_replicate hc]
      decide
    · exact Text.isDigit_of_mem_ofNat hc
  · rw [Text.digitsValue_padded, Text.digitsValue_ofNat]

/-- No digit is a dot, so the last dot of the name of a backup is the one of the marker. -/
theorem stem_unique {stem' : Text} {m : UInt32} (h : sequence? stem name = some n)
    (h' : sequence? stem' name = some m) : stem = stem' ∧ n = m := by
  have hdot : ∀ {digits : Text}, (∀ c ∈ digits, c.isDigit = true) →
      ∀ c ∈ "bak".toList ++ digits, (c != '.') = true := by
    intro digits hall c hc
    apply bne_iff_ne.2
    rintro rfl
    rcases List.mem_append.1 hc with hc | hc
    · revert hc
      decide
    · exact absurd (hall _ hc) (by decide)
  have hcut : ∀ {stem digits : Text}, (∀ c ∈ digits, c.isDigit = true) →
      (stem ++ (marker ++ digits)).reverse.dropWhile (· != '.') = '.' :: stem.reverse := by
    intro stem digits hall
    have hform : (stem ++ (marker ++ digits)).reverse =
        ("bak".toList ++ digits).reverse ++ '.' :: stem.reverse := by
      simp [marker]
    rw [hform, List.dropWhile_append_of_pos fun c hc => hdot hall c (List.mem_reverse.1 hc)]
    simp
  have hn := h
  rw [sequence?_eq_some] at h h'
  obtain ⟨digits, rfl, -, hall, hvalue⟩ := h
  obtain ⟨digits', heq, -, hall', hvalue'⟩ := h'
  have hstem : '.' :: stem.reverse = '.' :: stem'.reverse := by rw [← hcut hall, heq, hcut hall']
  obtain rfl : stem = stem' := by simpa using hstem
  obtain rfl : digits = digits' := by simpa using heq
  exact ⟨rfl, UInt32.toNat_inj.1 (hvalue ▸ hvalue')⟩

theorem isName_of_sequence? (hs : stem ≠ []) (h : sequence? stem name = some n) : IsName name := by
  obtain ⟨digits, rfl, hne, hall, -⟩ := sequence?_eq_some.1 h
  exact ⟨stem, digits, rfl, hs, hne, hall⟩

/-- A stem is a part of the file name, and never empty. -/
theorem stemOf_spec (hne : name ≠ []) : Path.stemOf name ≠ [] ∧ ∀ c ∈ Path.stemOf name, c ∈ name := by
  unfold Path.stemOf
  simp only
  split
  · exact ⟨hne, fun _ h => h⟩
  · next hfront =>
    refine ⟨by simpa using hfront, fun c hc => ?_⟩
    exact List.mem_reverse.1 (List.dropWhile_subset _ (List.mem_of_mem_drop (List.mem_reverse.1 hc)))

/-- A backup can be called what it is called. -/
theorem plain_fileName (hs : '/' ∉ stem) (n : UInt32) : Path.Plain (fileName stem n) := by
  have hlong : 3 < (fileName stem n).length := by
    have hmarker : marker.length = 4 := by decide
    rw [fileName, List.length_append, List.length_append, hmarker]
    omega
  have hne : ∀ {t : Text}, t.length ≤ 3 → fileName stem n ≠ t := by
    rintro t ht rfl
    omega
  refine ⟨hne (by decide), hne (by decide), hne (by decide), fun hmem => ?_⟩
  rcases List.mem_append.1 hmem with hmem | hmem
  · rcases List.mem_append.1 hmem with hmem | hmem
    · exact hs hmem
    · revert hmem
      decide
  · rcases List.mem_append.1 hmem with hmem | hmem
    · cases List.eq_of_mem_replicate hmem
    · exact absurd (Text.isDigit_of_mem_ofNat hmem) (by decide)

/-! ## Backups in a directory -/

variable {fs : FileSystem} {path : Text} {d : Location}

/-- What is listed of a directory is what stands one step below it. -/
theorem mem_list (hd : fs.find path = .ok (d, .directory)) : ∃ names, fs.list path = .ok names ∧
    ∀ name, name ∈ names ↔ (fs.node? (d ++ [name])).isSome = true := by
  refine ⟨_, by simp only [list, hd]; rfl, fun name => ?_⟩
  rw [List.mem_filterMap, node?, if_neg (by simp), List.lookup_isSome_iff]
  constructor
  · rintro ⟨⟨k, n⟩, hm, hname⟩
    split at hname
    · next hk =>
      obtain ⟨hdrop, -⟩ : k.dropLast = d ∧ k ≠ [] := by simpa using hk
      obtain ⟨front, rfl⟩ := List.getLast?_eq_some_iff.1 hname
      refine ⟨_, hm, ?_⟩
      rw [← hdrop, List.dropLast_concat]
      exact beq_self_eq_true _
    · cases hname
  · rintro ⟨⟨k, n⟩, hm, hname⟩
    obtain rfl : d ++ [name] = k := by simpa using hname
    exact ⟨_, hm, by simp⟩

/-- A directory holds a backup with this stem and number. -/
def Held (fs : FileSystem) (d : Location) (stem : Text) (n : UInt32) : Prop :=
  ∃ name, (fs.node? (d ++ [name])).isSome = true ∧ sequence? stem name = some n

/-- Backups are listed by number. -/
theorem sorted_of_all {found : List Backup} (h : all fs path = .ok found) :
    found.Pairwise fun a b => a.sequence ≤ b.sequence := by
  obtain ⟨stem, -, h⟩ := bind_eq_ok.1 h
  cases hnames : fs.list (Path.directory path) with
  | error e => simp [hnames] at h
  | ok names =>
    simp only [hnames] at h
    cases h
    refine (List.pairwise_mergeSort (fun a b c hab hbc => ?_) (fun a b => ?_) _).imp fun h =>
      of_decide_eq_true h
    · exact decide_eq_true (UInt32.le_trans (of_decide_eq_true hab) (of_decide_eq_true hbc))
    · rcases UInt32.le_total a.sequence b.sequence with h | h <;> simp [h]

/-- The backups of a script are the names with its stem and a number, by number. -/
theorem all_eq_ok (hs : Path.stem? path = some stem)
    (hd : fs.find (Path.directory path) = .ok (d, .directory)) : ∃ found, all fs path = .ok found ∧
      (∀ b, b ∈ found ↔ ∃ name, (fs.node? (d ++ [name])).isSome = true ∧
        sequence? stem name = some b.sequence ∧ b.path = Path.join (Path.directory path) name) ∧
      found.Pairwise fun a b => a.sequence ≤ b.sequence := by
  obtain ⟨names, hnames, hmem⟩ := mem_list hd
  have hall : all fs path = .ok ((names.filterMap fun name =>
      (sequence? stem name).map fun n => ⟨Path.join (Path.directory path) name, n⟩).mergeSort
        fun a b => a.sequence ≤ b.sequence) := by
    simp only [all, stemOf, hs, hnames, bind, Except.bind]
    rfl
  refine ⟨_, hall, fun b => ?_, sorted_of_all hall⟩
  rw [List.mem_mergeSort, List.mem_filterMap]
  constructor
  · rintro ⟨name, hm, hb⟩
    obtain ⟨n, hn, rfl⟩ := Option.map_eq_some_iff.1 hb
    exact ⟨name, (hmem name).1 hm, hn, rfl⟩
  · rintro ⟨name, hm, hn, hp⟩
    refine ⟨name, (hmem name).2 hm, ?_⟩
    rw [hn]
    exact congrArg some (by rw [← hp])

/-! ## The next number -/

/-- The number of the last backup, and zero if there is none. -/
def highest (found : List Backup) : UInt32 := (found.getLast?.map (·.sequence)).getD 0

variable {found : List Backup}

theorem next_of_all (h : all fs path = .ok found) : next fs path = .ok (highest found + 1) := by
  rw [next, h]
  rfl

theorem le_highest (hsorted : found.Pairwise fun a b => a.sequence ≤ b.sequence) {b : Backup} (hb : b ∈ found) :
    b.sequence ≤ highest found := by
  rw [highest, List.getLast?_eq_some_getLast (List.ne_nil_of_mem hb)]
  exact hsorted.rel_getLast_of_rel_getLast_getLast hb (UInt32.le_refl _)

theorem exists_highest (hne : found ≠ []) : ∃ b ∈ found, b.sequence = highest found := by
  rw [highest, List.getLast?_eq_some_getLast hne]
  exact ⟨_, List.getLast_mem hne, rfl⟩

theorem lt_add_one {m n : UInt32} (h : m ≤ n) (hn : n.toNat + 1 < UInt32.size) : m < n + 1 := by
  rw [UInt32.lt_iff_toNat_lt, UInt32.toNat_add, UInt32.toNat_one, Nat.mod_eq_of_lt hn]
  exact Nat.lt_succ_of_le (UInt32.le_iff_toNat_le.1 h)

/-- The next number is above every number that the directory holds. -/
theorem next_above (hs : Path.stem? path = some stem)
    (hd : fs.find (Path.directory path) = .ok (d, .directory))
    (hmax : ∀ m, Held fs d stem m → m.toNat + 1 < UInt32.size) (hn : next fs path = .ok n) :
    ∀ m, Held fs d stem m → m < n := by
  obtain ⟨found, hall, hmem, hsorted⟩ := all_eq_ok hs hd
  rintro m ⟨name, hname, hseq⟩
  have hm : (⟨Path.join (Path.directory path) name, m⟩ : Backup) ∈ found := (hmem _).2 ⟨name, hname, hseq, rfl⟩
  obtain ⟨last, hlast, hnumber⟩ := exists_highest (List.ne_nil_of_mem hm)
  obtain ⟨lastName, hheld, hlastSeq, -⟩ := (hmem _).1 hlast
  rw [next_of_all hall] at hn
  cases hn
  exact lt_add_one (le_highest hsorted hm) (hmax _ ⟨lastName, hheld, hnumber ▸ hlastSeq⟩)

/-! ## Restoring by number -/

variable {l : Location} {b c : ByteArray}

/-- A restore copies the backup it asks for over the script. -/
theorem restore_eq_ok {sequence : Option UInt32} {record : Backup} {fs' : FileSystem}
    (h : restore fs path sequence = .ok (record, fs')) :
    (∃ found, all fs path = .ok found ∧ choose? found sequence = some record) ∧
      fs.copy record.path path = .ok fs' := by
  unfold restore at h
  rw [bind_eq_ok] at h
  obtain ⟨found, hfound, h⟩ := h
  cases hchosen : choose? found sequence with
  | none =>
    simp only [hchosen] at h
    rw [bind_eq_ok] at h
    obtain ⟨_, -, h⟩ := h
    cases h
  | some backup =>
    simp only [hchosen] at h
    rw [bind_eq_ok] at h
    obtain ⟨after, hcopy, h⟩ := h
    cases h
    refine ⟨⟨found, hfound, hchosen⟩, ?_⟩
    unfold copyBack at hcopy
    split at hcopy
    · cases hc : fs.copy record.path path with
      | error e => simp [hc] at hcopy
      | ok after =>
        rw [hc] at hcopy
        cases hcopy
        rfl
    · cases hcopy

theorem mem_of_choose? {found : List Backup} {sequence : Option UInt32} {record : Backup}
    (h : choose? found sequence = some record) : record ∈ found := by
  cases sequence with
  | none => exact List.mem_of_getLast? h
  | some n => exact List.mem_of_find?_eq_some h

/-- The only backup with a number is the one that is restored. -/
theorem restore_of_unique (hs : Path.stem? path = some stem)
    (hd : fs.find (Path.directory path) = .ok (d, .directory))
    (hback : fs.find (Path.join (Path.directory path) name) = .ok (d ++ [name], .file c))
    (hname : sequence? stem name = some n)
    (hunique : ∀ other, (fs.node? (d ++ [other])).isSome = true → sequence? stem other = some n → other = name)
    (ht : fs.find path = .ok (l, .file b)) (hne : d ++ [name] ≠ l) :
    restore fs path (some n) = .ok (⟨Path.join (Path.directory path) name, n⟩, fs.put l (.file c)) := by
  obtain ⟨found, hall, hmem, -⟩ := all_eq_ok hs hd
  have hin : (⟨Path.join (Path.directory path) name, n⟩ : Backup) ∈ found :=
    (hmem _).2 ⟨name, by simp [node?_of_find hback], hname, rfl⟩
  have hchoose : choose? found (some n) = some ⟨Path.join (Path.directory path) name, n⟩ := by
    cases hf : found.find? (·.sequence = n) with
    | none => simpa using List.find?_eq_none.1 hf _ hin
    | some other =>
      obtain ⟨file, hfile, hseq, hpath⟩ := (hmem _).1 (List.mem_of_find?_eq_some hf)
      have hn : other.sequence = n := by simpa using List.find?_some hf
      rw [hn] at hseq
      rw [choose?, hf, ← hunique file hfile hseq, ← hpath, ← hn]
  have hcopy : copyBack fs path (Path.join (Path.directory path) name) = .ok (fs.put l (.file c)) := by
    simp [copyBack, isFile_of_find hback, copy_of_find hback ht hne]
  simp [restore, hall, hchoose, hcopy, bind, Except.bind, pure, Except.pure]

end Backup

end ConfigScript
