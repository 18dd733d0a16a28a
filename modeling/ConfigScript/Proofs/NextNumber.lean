import ConfigScript.Proofs.Numbering
/-!
# The next number at its limit

A new backup takes the number after the highest one there is, in words of 32 bits. It is above the numbers of
all backups that are listed, unless one of them has the greatest number of all: then the numbers start over at
zero (`Backup.next_number`, `Backup.next_starts_over`).
-/

namespace ConfigScript

namespace Backup

variable {fs : FileSystem} {path : Text} {found : List Backup}

/-- The greatest number that a backup can have. -/
def greatest : UInt32 := 4294967295

theorem succ_lt_size {n : UInt32} (h : n ≠ greatest) : n.toNat + 1 < UInt32.size := by
  have hne : n.toNat ≠ greatest.toNat := fun heq => h (UInt32.toNat_inj.1 heq)
  have hlt := n.toNat_lt
  have hgreatest : greatest.toNat = 4294967295 := rfl
  show n.toNat + 1 < 4294967296
  omega

/-- If no backup has the greatest number, then all have less than the next one. -/
theorem lt_next (h : all fs path = .ok found) (hmax : ∀ b ∈ found, b.sequence ≠ greatest) :
    ∀ b ∈ found, b.sequence < highest found + 1 := by
  intro b hb
  obtain ⟨last, hlast, hnumber⟩ := exists_highest (List.ne_nil_of_mem hb)
  exact lt_add_one (le_highest (sorted_of_all h) hb) (succ_lt_size (hnumber ▸ hmax last hlast))

/-- If a backup has the greatest number, then it is the highest. -/
theorem highest_eq_greatest (h : all fs path = .ok found) {b : Backup} (hb : b ∈ found) (hn : b.sequence = greatest) :
    highest found = greatest := by
  have hle := UInt32.le_iff_toNat_le.1 (le_highest (sorted_of_all h) hb)
  have hlt := (highest found).toNat_lt
  have hgreatest : greatest.toNat = 4294967295 := rfl
  refine UInt32.toNat_inj.1 ?_
  rw [hn] at hle
  omega

/-- There is a next number exactly if the backups can be listed. It is above all their numbers exactly if none of
them is the greatest, and zero otherwise. A backup gets the next number, at a place where nothing stood, and
changes no other place. -/
theorem next_number (fs : FileSystem) (path : Text) :
    (∃ e, all fs path = .error e ∧ next fs path = .error e) ∨
    ∃ found n, all fs path = .ok found ∧ next fs path = .ok n ∧
      ((∀ b ∈ found, b.sequence < n) ↔ ∀ b ∈ found, b.sequence ≠ greatest) ∧
      ((∃ b ∈ found, b.sequence = greatest) → n = 0) ∧
      ∀ content b after, ScriptFile.backup ⟨path, content⟩ fs = .ok (b, after) → b.sequence = n ∧
        ∃ l, fs.node? l = none ∧ after.find b.path = .ok (l, .file (ScriptFile.encode content)) ∧
          ∀ m, m ≠ l → after.node? m = fs.node? m := by
  cases hall : all fs path with
  | error e =>
    refine .inl ⟨e, rfl, ?_⟩
    rw [next, hall]
    rfl
  | ok found =>
    have hnext := next_of_all hall
    have hzero : (∃ b ∈ found, b.sequence = greatest) → highest found + 1 = 0 := by
      rintro ⟨b, hb, hn⟩
      rw [highest_eq_greatest hall hb hn]
      rfl
    refine .inr ⟨found, _, rfl, hnext, ⟨fun hlt b hb hn => ?_, lt_next hall⟩, hzero, fun content b after h => ?_⟩
    · -- no number is below zero
      have hb := hlt b hb
      rw [hzero ⟨b, ‹_›, hn⟩] at hb
      exact UInt32.not_lt_zero hb
    · obtain ⟨l, hl, rfl, hat, hn, -⟩ := ScriptFile.backup_eq_ok h
      have hnumber : highest found + 1 = b.sequence := Except.ok.inj (hnext.symm.trans hn)
      have hd : fs.node? l ≠ some .directory := by simp [hl]
      exact ⟨hnumber.symm, l, hl, hat, fun m hm => FileSystem.node?_put_of_ne (FileSystem.ne_nil_of_node? hd) hm⟩

/-- A script and a backup with the greatest number. -/
def lastRig : FileSystem :=
  ⟨[(["rig.m".toList], .file (ScriptFile.encode "a = 2;\n".toList)),
    (["rig.bak4294967295".toList], .file (ScriptFile.encode "a = 1;\n".toList))], []⟩

/-- Behind the greatest number the numbers start over: the next one is zero, below that of the backup that is
listed, and the next backup gets it. -/
theorem next_starts_over :
    ∃ found n b after, all lastRig "rig.m".toList = .ok found ∧ next lastRig "rig.m".toList = .ok n ∧
      (∃ last ∈ found, ¬ last.sequence < n) ∧
      ScriptFile.backup ⟨"rig.m".toList, "a = 2;\n".toList⟩ lastRig = .ok (b, after) ∧
      n = 0 ∧ b = ⟨"rig.bak000".toList, 0⟩ := by
  have hall : (all lastRig "rig.m".toList).toOption = some [⟨"./rig.bak4294967295".toList, greatest⟩] := by
    decide +kernel
  have hnext : (next lastRig "rig.m".toList).toOption = some 0 := by decide +kernel
  have hbackup : ((ScriptFile.backup ⟨"rig.m".toList, "a = 2;\n".toList⟩ lastRig).toOption.map (·.1)) =
      some ⟨"rig.bak000".toList, 0⟩ := by decide +kernel
  obtain ⟨⟨b, after⟩, hmade, rfl⟩ := Option.map_eq_some_iff.1 hbackup
  exact ⟨_, 0, _, after, ok_of_toOption hall, ok_of_toOption hnext,
    ⟨_, List.mem_singleton_self _, UInt32.not_lt_zero⟩, ok_of_toOption hmade, rfl, rfl⟩

end Backup

end ConfigScript
