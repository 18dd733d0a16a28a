import ConfigScript.Proofs.Files
import Mathlib.Data.List.TakeWhile
/-!
# Where paths lead

A path that ends in a file name leads one step beyond its directory (`locate_of_fileName`), so two
paths into one directory lead to one place exactly if they end in the same name. A name put behind
the directory of a path, in either of the two spellings that occur, leads into that directory too
(`locate_withFileName`).
-/

namespace ConfigScript

namespace Path

/-! ## Pieces and names -/

theorem pieces_ne_nil (t : Text) : pieces t ≠ [] := by
  cases t with
  | nil => simp [pieces]
  | cons c t =>
    unfold pieces
    split
    · simp
    · split <;> simp

/-- A slash ends a piece. -/
theorem pieces_slash (t u : Text) : pieces (t ++ '/' :: u) = pieces t ++ pieces u := by
  induction t with
  | nil => simp [pieces]
  | cons c t ih =>
    by_cases hc : c = '/'
    · simp [pieces, hc, ih]
    · rw [List.cons_append, pieces, pieces, if_neg hc, if_neg hc, ih]
      cases h : pieces t with
      | nil => exact (pieces_ne_nil t h).elim
      | cons piece more => rfl

theorem pieces_of_not_mem {t : Text} (h : '/' ∉ t) : pieces t = [t] := by
  induction t with
  | nil => rfl
  | cons c t ih =>
    obtain ⟨hc, ht⟩ := not_or.1 (mt List.mem_cons.2 h)
    rw [pieces, if_neg (Ne.symm hc), ih ht]

theorem not_mem_of_mem_pieces {t piece : Text} (h : piece ∈ pieces t) : '/' ∉ piece := by
  induction t generalizing piece with
  | nil => simp_all [pieces]
  | cons c t ih =>
    unfold pieces at h
    split at h
    · rcases List.mem_cons.1 h with rfl | h
      · simp
      · exact ih h
    · next hc =>
      split at h
      · cases List.mem_singleton.1 h
        simpa using Ne.symm hc
      · next first more hp =>
        rcases List.mem_cons.1 h with rfl | h
        · have := ih (hp ▸ List.mem_cons_self)
          simp [Ne.symm hc, this]
        · exact ih (hp ▸ List.mem_cons_of_mem _ h)

theorem join_cons_cons (piece next : Text) (more : List Text) :
    Text.join ['/'] (piece :: next :: more) = piece ++ '/' :: Text.join ['/'] (next :: more) :=
  Text.join_cons_cons ['/'] piece next more

/-- The pieces of a path between slashes are the path. -/
theorem join_pieces (t : Text) : Text.join ['/'] (pieces t) = t := by
  induction t with
  | nil => rfl
  | cons c t ih =>
    unfold pieces
    cases h : pieces t with
    | nil => exact (pieces_ne_nil t h).elim
    | cons piece more =>
      rw [h] at ih
      by_cases hc : c = '/'
      · rw [if_pos hc, join_cons_cons, ih, hc]
        rfl
      · rw [if_neg hc]
        cases more with
        | nil => simpa [Text.join_single] using ih
        | cons next more => simpa [join_cons_cons] using ih

/-- The first pieces of a path are the beginning of the path. -/
theorem join_begins (front back : List Text) :
    Text.join ['/'] front <+: Text.join ['/'] (front ++ back) := by
  induction front with
  | nil => exact List.nil_prefix
  | cons piece more ih =>
    cases more with
    | nil =>
      cases back with
      | nil => exact List.prefix_rfl
      | cons next back =>
        rw [List.singleton_append, join_cons_cons, Text.join_single]
        exact List.prefix_append _ _
    | cons next more =>
      simp only [List.cons_append] at ih ⊢
      rw [join_cons_cons, join_cons_cons]
      exact (List.prefix_append_right_inj piece).2 (List.cons_prefix_cons.2 ⟨rfl, ih⟩)

theorem names_slash (t u : Text) : names (t ++ '/' :: u) = names t ++ names u := by
  rw [names, pieces_slash, List.filter_append, names, names]

theorem names_of_not_mem {t : Text} (hne : t ≠ []) (h : '/' ∉ t) : names t = [t] := by
  simp [names, pieces_of_not_mem h, hne]

theorem names_join {ps : List Text} (h : ∀ p ∈ ps, '/' ∉ p) :
    names (Text.join ['/'] ps) = ps.filter (!·.isEmpty) := by
  induction ps with
  | nil => rfl
  | cons piece more ih =>
    have hpiece := pieces_of_not_mem (h piece List.mem_cons_self)
    cases more with
    | nil => rw [Text.join_single, names, hpiece]
    | cons next more =>
      rw [join_cons_cons, names_slash, ih fun p hp => h p (List.mem_cons_of_mem _ hp), names, hpiece,
        ← List.filter_append, List.singleton_append]

/-! ## The directory of a path -/

/-- What a file or directory can be called. -/
structure Plain (name : Text) : Prop where
  nonempty : name ≠ []
  dot : name ≠ ['.']
  dots : name ≠ "..".toList
  slash : '/' ∉ name

theorem Plain.names {name : Text} (h : Plain name) : names name = [name] :=
  names_of_not_mem h.nonempty h.slash

theorem Plain.step {name : Text} (h : Plain name) (d : Location) : d.step name = d ++ [name] := by
  rw [Location.step, if_neg h.dot, if_neg h.dots]

/-- A lead is a slash, a dot or nothing. -/
theorem lead_cases (path : Text) :
    (∃ t, path = '/' :: t ∧ lead path = (['/'], t)) ∨ (path = ['.'] ∧ lead path = (['.'], [])) ∨
      (∃ t, path = '.' :: '/' :: t ∧ lead path = (['.'], '/' :: t)) ∨
      (path.head? ≠ some '/' ∧ lead path = ([], path)) := by
  unfold lead
  split
  · exact .inl ⟨_, rfl, rfl⟩
  · exact .inr (.inl ⟨rfl, rfl⟩)
  · exact .inr (.inr (.inl ⟨_, rfl, rfl⟩))
  · next h _ _ =>
    refine .inr (.inr (.inr ⟨fun hhead => ?_, rfl⟩))
    cases path with
    | nil => cases hhead
    | cons c t =>
      cases hhead
      exact h t rfl

/-- The pieces of a path around its file name: only idle ones follow it, and the directory drops
the idle ones in front of it. -/
theorem split_of_fileName {path name : Text} (h : fileName? path = some name) :
    ∃ front idle back, pieces (lead path).2 = front ++ (idle ++ name :: back) ∧ Plain name ∧
      (∀ p ∈ idle, isIdle p = true) ∧ (∀ p ∈ back, isIdle p = true) ∧
      (∀ p, front.getLast? = some p → isIdle p = false) ∧
      parent path = (lead path).1 ++ Text.join ['/'] front := by
  have hsplit := List.takeWhile_append_dropWhile (p := isIdle) (l := (pieces (lead path).2).reverse)
  unfold fileName? at h
  cases hn : namesBackwards path with
  | nil => simp [hn] at h
  | cons n more =>
    have hdots : n ≠ "..".toList := by
      rintro rfl
      simp [hn] at h
    rw [hn] at h
    simp only [if_neg hdots, Option.some.injEq] at h
    subst h
    have hidle : isIdle n = false := by
      have := List.head?_dropWhile_not isIdle (pieces (lead path).2).reverse
      rw [← namesBackwards, hn] at this
      simpa using this
    rw [← namesBackwards, hn] at hsplit
    have hfront := List.takeWhile_append_dropWhile (p := isIdle) (l := more)
    have hpieces : pieces (lead path).2 =
        (more.dropWhile isIdle).reverse ++ ((more.takeWhile isIdle).reverse ++
          n :: ((pieces (lead path).2).reverse.takeWhile isIdle).reverse) := by
      have hback := congrArg List.reverse hsplit
      rw [List.reverse_reverse, List.reverse_append, List.reverse_cons, ← hfront, List.reverse_append]
        at hback
      simpa using hback.symm
    have hname : Plain n := by
      have hmem : n ∈ pieces (lead path).2 := by
        rw [hpieces]
        simp
      simp only [isIdle, Bool.or_eq_false_iff, List.isEmpty_eq_false_iff, decide_eq_false_iff_not] at hidle
      exact ⟨hidle.1, hidle.2, hdots, not_mem_of_mem_pieces hmem⟩
    refine ⟨_, _, _, hpieces, hname, fun p hp => ?_, fun p hp => ?_, fun p hp => ?_, ?_⟩
    · exact List.mem_takeWhile_imp (List.mem_reverse.1 hp)
    · exact List.mem_takeWhile_imp (List.mem_reverse.1 hp)
    · rw [List.getLast?_reverse] at hp
      have := List.head?_dropWhile_not isIdle more
      rw [hp] at this
      simpa using this
    · simp [parent, hn]

theorem lead_append (path : Text) : (lead path).1 ++ (lead path).2 = path := by
  rcases lead_cases path with ⟨t, rfl, h⟩ | ⟨rfl, h⟩ | ⟨t, rfl, h⟩ | ⟨-, h⟩ <;> simp [h]

/-- The names after a lead: a slash is none, and a dot is one, which a slash follows. -/
theorem names_lead (path u : Text) (h : (lead path).1 = ['.'] → u = [] ∨ u.head? = some '/') :
    names ((lead path).1 ++ u) = names (lead path).1 ++ names u := by
  have hkind : (lead path).1 = ['/'] ∨ (lead path).1 = ['.'] ∨ (lead path).1 = [] := by
    rcases lead_cases path with ⟨t, -, hl⟩ | ⟨-, hl⟩ | ⟨t, -, hl⟩ | ⟨-, hl⟩ <;> simp [hl]
  rcases hkind with hl | hl | hl
  · rw [hl]
    exact names_slash [] u
  · rw [hl]
    rcases h hl with rfl | hu
    · simp [names, pieces]
    · obtain ⟨v, rfl⟩ := List.head?_eq_some_iff.1 hu
      rw [names_slash]
      exact congrArg _ (names_slash [] v).symm
  · rw [hl]
    rfl

/-- The names in a path with a file name are those in its directory, that name, and single dots
before and after it. -/
theorem names_of_fileName {path name : Text} (h : fileName? path = some name) :
    Plain name ∧ ∃ before after, names path = names (parent path) ++ (before ++ name :: after) ∧
      (∀ p ∈ before, p = ['.']) ∧ (∀ p ∈ after, p = ['.']) := by
  obtain ⟨front, idle, back, hpieces, hname, hidle, hback, -, hparent⟩ := split_of_fileName h
  have hdots : ∀ {ps : List Text}, (∀ p ∈ ps, isIdle p = true) →
      ∀ p ∈ ps.filter (!·.isEmpty), p = ['.'] := by
    intro ps hps p hp
    obtain ⟨hm, hne⟩ := List.mem_filter.1 hp
    simpa [isIdle, show p ≠ [] by simpa using hne] using hps p hm
  have hslash : ∀ p ∈ front ++ (idle ++ name :: back), '/' ∉ p := by
    rw [← hpieces]
    exact fun p => not_mem_of_mem_pieces
  -- behind a dot stands a slash, so the first piece is empty
  have hfirst : (lead path).1 = ['.'] → ∃ more, front ++ (idle ++ name :: back) = [] :: more := by
    intro hl
    rw [← hpieces]
    rcases lead_cases path with ⟨t, -, h⟩ | ⟨-, h⟩ | ⟨t, -, h⟩ | ⟨-, h⟩
    · simp [h] at hl
    · exact ⟨[], by simp [h, pieces]⟩
    · exact ⟨pieces t, by simp [h, pieces]⟩
    · simp [h] at hl
  refine ⟨hname, _, _, ?_, hdots hidle, hdots hback⟩
  have hall : names path = names (lead path).1 ++ names (Text.join ['/'] (front ++ (idle ++ name :: back))) := by
    rw [← names_lead path, ← hpieces, join_pieces, lead_append]
    intro hl
    rcases lead_cases path with ⟨t, -, h⟩ | ⟨-, h⟩ | ⟨t, -, h⟩ | ⟨-, h⟩
    · simp [h] at hl
    · exact .inl (by simp [← hpieces, join_pieces, h])
    · exact .inr (by simp [← hpieces, join_pieces, h])
    · simp [h] at hl
  have hdir : names (parent path) = names (lead path).1 ++ names (Text.join ['/'] front) := by
    rw [hparent]
    refine names_lead path _ fun hl => ?_
    obtain ⟨more, hmore⟩ := hfirst hl
    cases front with
    | nil => exact .inl rfl
    | cons p rest =>
      obtain rfl : p = [] := (List.cons.inj hmore).1
      cases rest with
      | nil => exact .inl rfl
      | cons q rest => exact .inr (by rw [join_cons_cons]; rfl)
  rw [hall, hdir, names_join hslash, names_join fun p hp => hslash p (List.mem_append_left _ hp),
    List.filter_append, List.append_assoc, List.filter_append]
  simp [hname.nonempty]

/-- The directory of a path is how the path begins. -/
theorem parent_begins {path name : Text} (h : fileName? path = some name) : parent path <+: path := by
  obtain ⟨front, idle, back, hpieces, -, -, -, -, hparent⟩ := split_of_fileName h
  rw [hparent]
  conv => rhs; rw [← lead_append path, ← join_pieces (lead path).2, hpieces]
  exact (List.prefix_append_right_inj _).2 (join_begins _ _)

end Path

namespace FileSystem

open ConfigScript.Path

variable {fs : FileSystem} {path name : Text} {d k l : Location} {n : Node}

theorem locate_eq_ok : fs.locate path = .ok l ↔ '\x00' ∉ path ∧ path ≠ [] ∧
    Text.byteLength path < maxPath ∧ fs.walk (fs.start path) (steps path) = .ok l := by
  unfold locate follow
  by_cases h0 : '\x00' ∈ path
  · simp [h0]
  · by_cases h1 : path = []
    · simp [h1]
    · by_cases h2 : Text.byteLength path < maxPath
      · simp [h0, h1, h2, Nat.not_le.2 h2]
      · simp [h0, h1, h2, Nat.not_lt.1 h2]

theorem walk_cons_eq_ok {rest : List Text} : fs.walk l (name :: rest) = .ok k ↔
    fs.node? l = some .directory ∧ Text.byteLength name ≤ maxName ∧ fs.walk (l.step name) rest = .ok k := by
  rw [walk]
  cases fs.node? l with
  | none => simp
  | some node =>
    cases node with
    | file _ => simp
    | directory =>
      by_cases hlen : maxName < Text.byteLength name
      · simp [hlen, Nat.not_le.2 hlen]
      · simp [hlen, Nat.not_lt.1 hlen]

/-- Single dots lead nowhere else. -/
theorem walk_dots {dots : List Text} (hdots : ∀ p ∈ dots, p = ['.']) (h : fs.walk l dots = .ok k) :
    k = l := by
  induction dots with
  | nil =>
    cases h
    rfl
  | cons p rest ih =>
    obtain rfl := hdots p List.mem_cons_self
    exact ih (fun q hq => hdots q (List.mem_cons_of_mem _ hq)) (walk_cons_eq_ok.1 h).2.2

theorem walk_dot (h : fs.node? l = some .directory) : fs.walk l [['.']] = .ok l :=
  walk_cons_eq_ok.2 ⟨h, by decide, rfl⟩

/-- A slash at the end asks for a directory and leads no further. -/
theorem walk_steps_of_directory (h : fs.node? d = some .directory) :
    fs.walk l (steps path) = .ok d ↔ fs.walk l (names path) = .ok d := by
  unfold steps
  split
  · rw [walk_append, bind_eq_ok]
    constructor
    · rintro ⟨m, hm, hdot⟩
      rwa [walk_dots (by simp) hdot]
    · exact fun hd => ⟨d, hd, walk_dot h⟩
  · rfl

theorem names_of_steps (h : fs.walk l (steps path) = .ok k) : fs.walk l (names path) = .ok k := by
  unfold steps at h
  split at h
  · rw [walk_append, bind_eq_ok] at h
    obtain ⟨m, hm, hdot⟩ := h
    rwa [walk_dots (by simp) hdot]
  · exact h

/-- The directory of a path starts where the path does. -/
theorem start_directory (h : fileName? path = some name) : fs.start (directory path) = fs.start path := by
  obtain ⟨back, hback⟩ := parent_begins h
  unfold start directory
  cases hp : parent path with
  | cons c t =>
    rw [hp] at hback
    simp [← hback]
  | nil =>
    have hhead : path.head? ≠ some '/' := by
      intro hhead
      obtain ⟨t, rfl⟩ := List.head?_eq_some_iff.1 hhead
      obtain ⟨_, _, _, -, -, -, -, -, hparent⟩ := split_of_fileName h
      rw [hparent] at hp
      simp [lead] at hp
    simp [hhead]

/-- The directory of a path leads where the names in it do. -/
theorem find_directory_iff (h : fileName? path = some name) (h0 : '\x00' ∉ path)
    (hlen : Text.byteLength path < maxPath) :
    fs.find (directory path) = .ok (d, .directory) ↔
      fs.walk (fs.start path) (names (parent path)) = .ok d ∧ fs.node? d = some .directory := by
  obtain ⟨back, hback⟩ := parent_begins h
  rw [find_eq_ok, locate_eq_ok, start_directory h, directory]
  cases hp : parent path with
  | nil =>
    -- the directory is written as a dot then
    simp only [List.isEmpty_nil, if_true]
    constructor
    · rintro ⟨⟨-, -, -, hw⟩, hd⟩
      obtain rfl := walk_dots (by simp [steps, names, pieces]) hw
      exact ⟨rfl, hd⟩
    · rintro ⟨hw, hd⟩
      cases hw
      exact ⟨⟨by decide, by decide, by decide, walk_dot hd⟩, hd⟩
  | cons c t =>
    rw [hp] at hback
    have hshort : Text.byteLength (c :: t) < maxPath := by
      rw [← hback, Text.byteLength_append] at hlen
      omega
    have hnul : '\x00' ∉ c :: t := by
      rw [← hback] at h0
      exact fun hm => h0 (List.mem_append_left _ hm)
    simp only [List.isEmpty_cons, Bool.false_eq_true, if_false]
    constructor
    · rintro ⟨⟨-, -, -, hw⟩, hd⟩
      exact ⟨(walk_steps_of_directory hd).1 hw, hd⟩
    · rintro ⟨hw, hd⟩
      exact ⟨⟨hnul, List.cons_ne_nil _ _, hshort, (walk_steps_of_directory hd).2 hw⟩, hd⟩

/-! ## Names in a directory -/

/-- A path with a file name leads one step beyond its directory. -/
theorem locate_of_fileName (h : fileName? path = some name) (hl : fs.locate path = .ok l) :
    ∃ d, fs.find (directory path) = .ok (d, .directory) ∧ l = d ++ [name] := by
  obtain ⟨hname, before, after, hnames, hbefore, hafter⟩ := names_of_fileName h
  obtain ⟨h0, -, hlen, hw⟩ := locate_eq_ok.1 hl
  have hw := names_of_steps hw
  rw [hnames, walk_append, bind_eq_ok] at hw
  obtain ⟨d, hd, hw⟩ := hw
  rw [walk_append, bind_eq_ok] at hw
  obtain ⟨d', hd', hw⟩ := hw
  obtain rfl := walk_dots hbefore hd'
  obtain ⟨hnode, -, hw⟩ := walk_cons_eq_ok.1 hw
  refine ⟨d', (find_directory_iff h h0 hlen).2 ⟨hd, hnode⟩, ?_⟩
  rw [walk_dots hafter hw, hname.step]

theorem names_join_plain (hname : Plain name) (dir : Text) : names (join dir name) = names dir ++ [name] := by
  unfold join
  split
  · next hdir =>
    rcases Bool.or_eq_true_iff.1 hdir with hempty | hslash
    · rw [List.isEmpty_iff.1 hempty]
      exact hname.names
    · obtain ⟨t, rfl⟩ := List.getLast?_eq_some_iff.1 (of_decide_eq_true hslash)
      rw [List.append_assoc, List.singleton_append, names_slash, names_slash, hname.names]
      simp [names, pieces]
  · rw [names_slash, hname.names]

theorem steps_join_plain (hname : Plain name) (dir : Text) : steps (join dir name) = names dir ++ [name] := by
  obtain ⟨front, hfront⟩ : ∃ front, join dir name = front ++ name := by
    unfold join
    split
    · exact ⟨dir, rfl⟩
    · exact ⟨dir ++ ['/'], by simp⟩
  have hlast : (join dir name).getLast? ≠ some '/' := by
    rw [hfront, List.getLast?_append, List.getLast?_eq_some_getLast hname.nonempty, Option.some_or]
    intro hslash
    exact hname.slash (Option.some.inj hslash ▸ List.getLast_mem hname.nonempty)
  rw [steps, if_neg hlast, names_join_plain hname]

theorem start_join {dir : Text} (hdir : dir ≠ []) : fs.start (join dir name) = fs.start dir := by
  obtain ⟨c, t, rfl⟩ := List.exists_cons_of_ne_nil hdir
  unfold join start
  split <;> simp

theorem directory_ne_nil (path : Text) : directory path ≠ [] := by
  unfold directory
  dsimp only
  split
  · simp
  · next hp => simpa using hp

/-- A name joined to a path leads one step beyond what the path leads to. -/
theorem locate_join (hname : Plain name) {dir : Text} (hdir : dir ≠ []) (hd : fs.find dir = .ok (d, n))
    (hk : fs.locate (join dir name) = .ok k) : k = d ++ [name] := by
  obtain ⟨-, -, -, hwalk⟩ := locate_eq_ok.1 (find_eq_ok.1 hd).1
  have hwalk := names_of_steps hwalk
  obtain ⟨-, -, -, hw⟩ := locate_eq_ok.1 hk
  rw [steps_join_plain hname, start_join hdir, walk_append, hwalk] at hw
  obtain ⟨-, -, hw⟩ := walk_cons_eq_ok.1 hw
  rw [hname.step] at hw
  cases hw
  rfl

/-- A name put behind the directory of a path leads into that directory, whether or not the
directory of a bare path is written. -/
theorem locate_withFileName (h : fileName? path = some name) {file : Text} (hfile : Plain file)
    (hd : fs.find (directory path) = .ok (d, .directory)) (hk : fs.locate (withFileName path file) = .ok k) :
    k = d ++ [file] ∧ fs.locate (join (directory path) file) = .ok (d ++ [file]) := by
  obtain ⟨hl, hnode⟩ := find_eq_ok.1 hd
  obtain ⟨-, -, -, hdw⟩ := locate_eq_ok.1 hl
  have hdw := names_of_steps hdw
  have hpath : withFileName path file = join (parent path) file := by simp [withFileName, h]
  rw [hpath] at hk
  obtain ⟨h0, hne, hlen, hw⟩ := locate_eq_ok.1 hk
  rw [steps_join_plain hfile, walk_append, bind_eq_ok] at hw
  obtain ⟨m, hm, hw⟩ := hw
  obtain ⟨-, hshort, hw⟩ := walk_cons_eq_ok.1 hw
  rw [hfile.step] at hw
  cases hw
  cases hp : parent path with
  | nil =>
    -- the path is bare, and its directory is written as a dot
    have hdir : directory path = ['.'] := by simp [directory, hp]
    have hstart : fs.start (join [] file) = fs.current := by
      have hhead : file.head? ≠ some '/' := fun hh => hfile.slash (List.mem_of_head? hh)
      simp [start, join, hhead]
    rw [hp] at hm hlen h0
    rw [hdir] at hdw ⊢
    obtain rfl : d = fs.current := walk_dots (by simp [names, pieces]) hdw
    obtain rfl : m = fs.current := by
      cases hm
      exact hstart
    refine ⟨rfl, locate_eq_ok.2 ⟨?_, by simp [join], ?_, ?_⟩⟩
    · simpa [join] using h0
    · have hmax : Text.byteLength (join ['.'] file) = 2 + Text.byteLength file := by
        change 1 + (1 + Text.byteLength file) = _
        omega
      rw [hmax]
      exact Nat.lt_of_le_of_lt (Nat.add_le_add_left hshort 2) (by decide)
    · rw [steps_join_plain hfile]
      refine walk_cons_eq_ok.2 ⟨hnode, by decide, walk_cons_eq_ok.2 ⟨hnode, hshort, ?_⟩⟩
      exact congrArg Except.ok (hfile.step _)
  | cons c t =>
    have hdir : directory path = parent path := by simp [directory, hp]
    have hpne : parent path ≠ [] := by simp [hp]
    rw [hdir] at hdw ⊢
    rw [start_join hpne, hdw] at hm
    cases hm
    exact ⟨rfl, hk⟩

end FileSystem

end ConfigScript
