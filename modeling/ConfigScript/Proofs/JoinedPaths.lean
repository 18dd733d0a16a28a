import ConfigScript.Proofs.Results
import Mathlib.Data.List.DropRight
/-!
# Grouping the parts of a path

Joining the parts of a path is a monoid on texts: the empty text adds nothing, and a part between two others
loses its separators on both sides, whichever of the two joins comes first (`Text.joinPath_assoc`). A part of
separators only vanishes between the others. So some of the parts may be joined first
(`Function.call_fullfile_grouped`).
-/

namespace ConfigScript

namespace Text

/-! ## Cutting on both sides -/

variable {p : Char → Bool} {t : Text}

theorem rdropWhile_append (p : Char → Bool) (t u : Text) :
    (t ++ u).rdropWhile p = if (u.rdropWhile p).isEmpty then t.rdropWhile p else t ++ u.rdropWhile p := by
  unfold List.rdropWhile
  rw [List.reverse_append, List.dropWhile_append, List.isEmpty_reverse]
  split
  · rfl
  · rw [List.reverse_append, List.reverse_reverse]

theorem exists_rdropWhile_cons {c : Char} (hc : p c = false) (t : Text) :
    ∃ u, (c :: t).rdropWhile p = c :: u := by
  have h := rdropWhile_append p [c] t
  rw [List.rdropWhile_singleton, hc, List.singleton_append] at h
  rw [h]
  split
  · exact ⟨[], rfl⟩
  · exact ⟨_, rfl⟩

/-- Where something stays of a text, it is cut in front and behind in either order. -/
theorem rdropWhile_dropWhile (h : ¬ ∀ c ∈ t, p c = true) :
    (t.dropWhile p).rdropWhile p = (t.rdropWhile p).dropWhile p ∧ (t.dropWhile p).rdropWhile p ≠ [] := by
  cases hs : t.dropWhile p with
  | nil => exact (h (List.dropWhile_eq_nil_iff.1 hs)).elim
  | cons c s =>
    have hc : p c = false := by
      have := List.head?_dropWhile_not p t
      rwa [hs] at this
    obtain ⟨u, hu⟩ := exists_rdropWhile_cons hc s
    have ht : t = t.takeWhile p ++ c :: s := by rw [← hs, List.takeWhile_append_dropWhile]
    rw [ht, rdropWhile_append, hu]
    refine ⟨?_, List.cons_ne_nil c u⟩
    rw [if_neg (by simp), List.dropWhile_append_of_pos fun d hd => List.mem_takeWhile_imp hd,
      List.dropWhile_cons_of_neg (by simp [hc])]

/-! ## Joining -/

variable {separator : Char}

instance joinPath_identity : Std.LawfulIdentity (joinPath separator) [] where
  left_id part := by
    cases part <;> rfl
  right_id path := rfl

theorem joinPath_nil_left (part : Text) : joinPath separator [] part = part :=
  joinPath_identity.left_id part

theorem isSeparator_self : isSeparator separator separator = true := by
  simp [isSeparator]

/-- The path without the separators it ends in, one separator, and the part without those it begins with. -/
theorem joinPath_of_ne {path part : Text} (hpath : path ≠ []) (hpart : part ≠ []) :
    joinPath separator path part =
      path.rdropWhile (isSeparator separator) ++ separator :: part.dropWhile (isSeparator separator) := by
  rw [joinPath, if_neg (by simpa using hpart), if_neg (by simpa using hpath)]
  rfl

/-- It does not matter which parts are joined first. -/
theorem joinPath_assoc (a b c : Text) :
    joinPath separator (joinPath separator a b) c = joinPath separator a (joinPath separator b c) := by
  by_cases ha : a = []
  · rw [ha, joinPath_nil_left, joinPath_nil_left]
  by_cases hb : b = []
  · rw [hb, joinPath_nil_left]
    rfl
  by_cases hc : c = []
  · rw [hc]
    rfl
  rw [joinPath_of_ne ha hb, joinPath_of_ne hb hc, joinPath_of_ne (by simp) hc, joinPath_of_ne ha (by simp)]
  by_cases hall : ∀ x ∈ b, isSeparator separator x = true
  · -- nothing of the part in the middle stays
    rw [List.dropWhile_eq_nil_iff.2 hall, List.rdropWhile_eq_nil_iff.2 hall, List.nil_append,
      List.rdropWhile_concat_pos _ _ _ isSeparator_self, List.rdropWhile_idempotent,
      List.dropWhile_cons_of_pos isSeparator_self, List.dropWhile_idempotent]
  · obtain ⟨hcut, hne⟩ := rdropWhile_dropWhile hall
    have hmiddle := rdropWhile_append (isSeparator separator) [separator] (b.dropWhile (isSeparator separator))
    rw [if_neg (by simpa using hne), List.singleton_append, List.singleton_append] at hmiddle
    rw [rdropWhile_append, hmiddle, if_neg (by simp), List.dropWhile_append,
      if_neg (by simpa [← hcut] using hne), ← hcut, List.append_assoc]
    rfl

instance joinPath_associative : Std.Associative (joinPath separator) := ⟨joinPath_assoc⟩

theorem joinPaths_append (xs ys : List Text) :
    joinPaths separator (xs ++ ys) = joinPath separator (joinPaths separator xs) (joinPaths separator ys) := by
  rw [joinPaths, List.foldl_append]
  show List.foldl (joinPath separator) (joinPath separator (joinPaths separator xs) []) ys = _
  exact List.foldl_assoc

theorem joinPaths_grouped (xs ys zs : List Text) :
    joinPaths separator (xs ++ joinPaths separator ys :: zs) = joinPaths separator (xs ++ (ys ++ zs)) := by
  have hone : joinPaths separator [joinPaths separator ys] = joinPaths separator ys := joinPath_nil_left _
  rw [joinPaths_append, ← List.singleton_append, joinPaths_append, hone, ← joinPaths_append, ← joinPaths_append]

end Text

namespace Function

variable {s : Surroundings} {name : Text}

theorem call_fullfile (s : Surroundings) (name : Text) (ts : List Text) :
    fullfile.call s name (ts.map .text) = .ok (.text (Text.joinPaths s.settings.platform.separator ts)) := by
  have hargs : (ts.map Value.text).mapM (textOf name) = .ok ts :=
    Value.mapM_eq_ok.2 (List.forall₂_map_left_iff.2 (List.forall₂_same.2 fun _ _ => rfl))
  show ((ts.map Value.text).mapM (textOf name) >>= fun parts => _) = _
  rw [hargs]
  rfl

/-- A path is the same whichever of its parts are joined first. The empty text is the path without parts, and adds
nothing to another. -/
theorem call_fullfile_grouped (s : Surroundings) (name : Text) (xs ys zs : List Text) :
    (∃ path inner : Text,
      fullfile.call s name (ys.map .text) = .ok (.text inner) ∧
      fullfile.call s name ((xs ++ inner :: zs).map .text) = .ok (.text path) ∧
      fullfile.call s name ((xs ++ (ys ++ zs)).map .text) = .ok (.text path)) ∧
    fullfile.call s name [] = .ok (.text []) ∧
    ∀ t : Text, fullfile.call s name [.text t, .text []] = .ok (.text t) ∧
      fullfile.call s name [.text [], .text t] = .ok (.text t) := by
  refine ⟨⟨_, _, call_fullfile s name ys, call_fullfile s name _, ?_⟩, call_fullfile s name [], fun t => ?_⟩
  · rw [call_fullfile, Text.joinPaths_grouped]
  · have hone : ∀ t : Text, Text.joinPath s.settings.platform.separator [] t = t := Text.joinPath_nil_left
    exact ⟨(call_fullfile s name [t, []]).trans (by simp [Text.joinPaths, hone]; rfl),
      (call_fullfile s name [[], t]).trans (by simp [Text.joinPaths, hone])⟩

end Function

end ConfigScript
