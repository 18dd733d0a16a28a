import ConfigScript.Proofs.Numbering
/-!
# Names of backups

A name put in the place of a file name is the file name of the path that comes out
(`Path.fileName?_withFileName`). So where a backup is to stand tells its stem and its number, however many
digits the number has and whatever the stem looks like (`Backup.fileName_decodes`).
-/

namespace ConfigScript

namespace Path

variable {name dir path : Text}

/-- What stands behind a slash stands behind the lead. -/
theorem pieces_lead_slash (d u : Text) : ∃ front, pieces (lead (d ++ '/' :: u)).2 = front ++ pieces u := by
  rcases lead_cases (d ++ '/' :: u) with ⟨t, ht, hlead⟩ | ⟨hdot, -⟩ | ⟨t, ht, hlead⟩ | ⟨-, hlead⟩
  · rw [hlead]
    cases d with
    | nil =>
      obtain rfl : u = t := (List.cons.inj ht).2
      exact ⟨[], rfl⟩
    | cons c d =>
      obtain rfl : d ++ '/' :: u = t := (List.cons.inj ht).2
      exact ⟨_, pieces_slash d u⟩
  · have hslash : '/' ∈ ['.'] := hdot ▸ List.mem_append_right d List.mem_cons_self
    cases List.mem_singleton.1 hslash
  · rw [hlead]
    cases d with
    | nil => cases (List.cons.inj ht).1
    | cons c d =>
      have ht : d ++ '/' :: u = '/' :: t := (List.cons.inj ht).2
      exact ⟨_, ht ▸ pieces_slash d u⟩
  · rw [hlead]
    exact ⟨_, pieces_slash d u⟩

theorem Plain.lead (h : Plain name) : lead name = ([], name) := by
  rcases lead_cases name with ⟨t, rfl, -⟩ | ⟨rfl, -⟩ | ⟨t, rfl, -⟩ | ⟨-, hlead⟩
  · exact absurd List.mem_cons_self h.slash
  · exact absurd rfl h.dot
  · exact absurd (List.mem_cons_of_mem _ List.mem_cons_self) h.slash
  · exact hlead

/-- A joined path is the name alone, or a slash stands in front of the name. -/
theorem join_cases (dir name : Text) : join dir name = name ∨ ∃ d, join dir name = d ++ '/' :: name := by
  unfold join
  split
  · next hdir =>
    rcases Bool.or_eq_true_iff.1 hdir with hempty | hslash
    · exact .inl (by rw [List.isEmpty_iff.1 hempty, List.nil_append])
    · obtain ⟨d, rfl⟩ := List.getLast?_eq_some_iff.1 (of_decide_eq_true hslash)
      exact .inr ⟨d, List.append_assoc _ _ _⟩
  · exact .inr ⟨dir, rfl⟩

/-- Behind its lead, a joined path ends in the name. -/
theorem pieces_join (hname : Plain name) (dir : Text) :
    ∃ front, pieces (lead (join dir name)).2 = front ++ [name] := by
  rw [← pieces_of_not_mem hname.slash]
  rcases join_cases dir name with h | ⟨d, h⟩
  · rw [h, hname.lead]
    exact ⟨[], rfl⟩
  · rw [h]
    exact pieces_lead_slash d name

theorem fileName?_join (hname : Plain name) (dir : Text) : fileName? (join dir name) = some name := by
  obtain ⟨front, hfront⟩ := pieces_join hname dir
  have hidle : isIdle name = false := by simp [isIdle, hname.nonempty, hname.dot]
  have hnames : namesBackwards (join dir name) = name :: front.reverse := by
    rw [namesBackwards, hfront, List.reverse_append, List.reverse_singleton, List.singleton_append,
      List.dropWhile_cons_of_neg (by simp [hidle])]
  rw [fileName?, hnames]
  exact if_neg hname.dots

/-- A plain name can take the place of any file name. -/
theorem fileName?_withFileName (hname : Plain name) (path : Text) :
    fileName? (withFileName path name) = some name := fileName?_join hname _

/-- A stem holds no slash, as no file name does. -/
theorem slash_not_mem_stem {stem : Text} (h : stem? path = some stem) : '/' ∉ stem := by
  obtain ⟨name, hname, rfl⟩ := Option.map_eq_some_iff.1 h
  obtain ⟨-, -, -, -, hplain, -⟩ := split_of_fileName hname
  exact fun hslash => hplain.slash ((Backup.stemOf_spec hplain.nonempty).2 _ hslash)

end Path

namespace Backup

variable {stem path : Text}

/-- A script with a stem has a place for a backup of every number, and it ends in the name of the backup. -/
theorem pathFor_of_stem (hs : Path.stem? path = some stem) (n : UInt32) :
    ∃ backup, pathFor path n = .ok backup ∧ Path.fileName? backup = some (fileName stem n) := by
  refine ⟨_, ?_, Path.fileName?_withFileName (plain_fileName (Path.slash_not_mem_stem hs) n) path⟩
  rw [pathFor, stemOf, hs]
  rfl

/-- The name gives back the number, so a stem has another name for every number. -/
theorem fileName_injective (stem : Text) : Function.Injective (fileName stem) := by
  intro m n h
  have hm := sequence?_fileName stem m
  rw [h, sequence?_fileName stem n] at hm
  exact (Option.some.inj hm).symm

/-- The name of a backup tells its number: for every stem, whether a script has it or not, and at the place where
the backup of a script is to stand. No name is that of backups of two stems or with two numbers, and a stem has
another name for every number. -/
theorem fileName_decodes :
    (∀ stem n, sequence? stem (fileName stem n) = some n) ∧
    (∀ path stem n, Path.stem? path = some stem → ∃ backup name, pathFor path n = .ok backup ∧
      Path.fileName? backup = some name ∧ name = fileName stem n ∧ sequence? stem name = some n) ∧
    (∀ name stem stem' m n, sequence? stem name = some m → sequence? stem' name = some n →
      stem = stem' ∧ m = n) ∧
    ∀ stem m n, m ≠ n → fileName stem m ≠ fileName stem n := by
  refine ⟨sequence?_fileName, fun path stem n hs => ?_, fun _ _ _ _ _ => stem_unique,
    fun stem m n hne h => hne (fileName_injective stem h)⟩
  obtain ⟨backup, hbackup, hname⟩ := pathFor_of_stem hs n
  exact ⟨backup, _, hbackup, hname, rfl, sequence?_fileName stem n⟩

/-- The stem ends like the name of a backup itself, the number has ten digits, and the name is one of this
stem only. -/
theorem fileName_decodes_marked :
    let path := "dir/a.bak001.m".toList
    let stem := "a.bak001".toList
    let name := "a.bak001.bak4294967295".toList
    (Path.stem? path = some stem ∧ (7 : UInt32) ≠ 4294967295) ∧
      (∃ backup, pathFor path 4294967295 = .ok backup ∧ Path.fileName? backup = some name) ∧
      sequence? stem name = some 4294967295 ∧
      (∀ stem' n, sequence? stem' name = some n → stem' = stem) ∧
      fileName stem 7 ≠ name := by
  intro path stem name
  obtain ⟨hdecode, hpath, hstem, hnumber⟩ := fileName_decodes
  have hs : Path.stem? path = some stem := by decide
  have hne : (7 : UInt32) ≠ 4294967295 := by decide
  have hname : fileName stem 4294967295 = name := by decide +kernel
  have hseq : sequence? stem name = some 4294967295 := hname ▸ hdecode stem 4294967295
  obtain ⟨backup, _, hbackup, hfile, rfl, -⟩ := hpath path stem 4294967295 hs
  refine ⟨⟨hs, hne⟩, ⟨backup, hbackup, hname ▸ hfile⟩, hseq, fun stem' n h => ?_, hname ▸ hnumber stem _ _ hne⟩
  exact (hstem name stem' stem n _ h hseq).1

end Backup

end ConfigScript
