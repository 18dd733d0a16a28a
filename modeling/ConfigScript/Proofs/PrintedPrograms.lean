import ConfigScript.Proofs.Printing
/-!
# Printed programs

The tokens of a program, with one statement a line, are read as that program: `ofTokens_of_spelt`.
The tokens may stand on any lines (`Program.SpeltBy`); each statement then carries the line of its
first token. The printer's own tokens are of that form (`Program.speltBy_tokens`).
-/

namespace ConfigScript

open Program (Ahead ahead_cons Reads ReadsExpr Path Spells Starts assigns atWord branchEnds lastEnds
  skipSeparators endsStatement)
open Token (Stands)

/-! ## Tokens that spell a program -/

/-- The line of the first token. -/
def firstLine (ts : List Token) : Option Nat := ts.head?.map (·.line)

mutual

/-- The tokens are of the kinds that spell the statement, and it carries the line of the first. -/
def Statement.SpeltBy : Statement → List Token → Prop
  | .assign line target path value, ts => firstLine ts = some line ∧
      kinds ts = .word target :: path.flatMap (fun f => [.dot, .word f]) ++ .assign :: value.tokenKinds ++ [.newline]
  | .eval line value, ts => firstLine ts = some line ∧ kinds ts = value.tokenKinds ++ [.newline]
  | .cond line branches none, ts => firstLine ts = some line ∧
      ∃ us vs, ts = us ++ vs ∧ branchesSpeltBy "if" branches us ∧ kinds vs = [keyword "end", .newline]
  | .cond line branches (some body), ts => firstLine ts = some line ∧
      ∃ us vs ws xs, ts = us ++ (vs ++ (ws ++ xs)) ∧ branchesSpeltBy "if" branches us ∧
        kinds vs = [keyword "else", .newline] ∧ Program.SpeltBy body ws ∧ kinds xs = [keyword "end", .newline]

/-- The tokens spell branches, of which the first begins with `word`. -/
def branchesSpeltBy (word : String) : List Branch → List Token → Prop
  | [], ts => ts = []
  | .mk condition body :: rest, ts => ∃ us vs ws, ts = us ++ (vs ++ ws) ∧
      kinds us = keyword word :: condition.tokenKinds ++ [.newline] ∧ Program.SpeltBy body vs ∧
      branchesSpeltBy "elseif" rest ws

/-- The tokens spell a program, one statement after the other. -/
def Program.SpeltBy : List Statement → List Token → Prop
  | [], ts => ts = []
  | statement :: rest, ts => ∃ us vs, ts = us ++ vs ∧ statement.SpeltBy us ∧ Program.SpeltBy rest vs

end

mutual

/-- What it takes to spell a statement: its expressions can be spelt, the variable of an assignment is
no keyword, and a conditional has a branch. -/
def Statement.Spellable : Statement → Prop
  | .assign _ target _ value => isKeyword target = false ∧ Expr.Spellable value.parts
  | .eval _ value => Expr.Spellable value.parts
  | .cond _ branches none => branches ≠ [] ∧ branchesSpellable branches
  | .cond _ branches (some body) => branches ≠ [] ∧ branchesSpellable branches ∧ Program.Spellable body

def branchesSpellable : List Branch → Prop
  | [] => True
  | .mk condition body :: rest =>
    Expr.Spellable condition.parts ∧ Program.Spellable body ∧ branchesSpellable rest

def Program.Spellable : List Statement → Prop
  | [] => True
  | statement :: rest => statement.Spellable ∧ Program.Spellable rest

end

@[simp] theorem kinds_onLine (line : Nat) (ks : List TokenKind) : kinds (Token.onLine line ks) = ks := by
  simp [kinds, Token.onLine, Function.comp_def]

mutual

theorem Statement.speltBy_tokens : (s : Statement) → s.Spellable → s.SpeltBy s.tokens
  | .assign line target path value, _ => by
    rw [Statement.tokens, Statement.SpeltBy]
    exact ⟨rfl, kinds_onLine _ _⟩
  | .eval line value, hs => by
    rw [Statement.Spellable] at hs
    rw [Statement.tokens, Statement.SpeltBy]
    refine ⟨?_, kinds_onLine _ _⟩
    obtain ⟨k, ls, hk, -⟩ := (Expr.stands_tokenKinds hs).ahead [.newline]
    rw [hk]
    rfl
  | .cond line [] none, hs => by
    rw [Statement.Spellable] at hs
    exact absurd rfl hs.1
  | .cond line [] (some body), hs => by
    rw [Statement.Spellable] at hs
    exact absurd rfl hs.1
  | .cond line (.mk condition body :: branches) none, hs => by
    rw [Statement.Spellable] at hs
    rw [Statement.tokens, Statement.SpeltBy]
    refine ⟨?_, _, _, rfl, branchesSpeltBy_tokens _ line "if" hs.2, kinds_onLine _ _⟩
    rw [branchTokens]
    rfl
  | .cond line (.mk condition body :: branches) (some last), hs => by
    rw [Statement.Spellable] at hs
    rw [Statement.tokens, Statement.SpeltBy, List.append_assoc, List.append_assoc]
    refine ⟨?_, _, _, _, _, rfl, branchesSpeltBy_tokens _ line "if" hs.2.1, kinds_onLine _ _,
      Program.speltBy_tokens last hs.2.2, kinds_onLine _ _⟩
    rw [branchTokens]
    rfl

theorem branchesSpeltBy_tokens : (branches : List Branch) → (line : Nat) → (word : String) →
    branchesSpellable branches → branchesSpeltBy word branches (branchTokens line word branches)
  | [], line, word, _ => by
    rw [branchTokens, branchesSpeltBy]
  | .mk condition body :: rest, line, word, hs => by
    rw [branchesSpellable] at hs
    rw [branchTokens, branchesSpeltBy, List.append_assoc]
    exact ⟨_, _, _, rfl, kinds_onLine _ _, Program.speltBy_tokens body hs.2.1,
      branchesSpeltBy_tokens rest line "elseif" hs.2.2⟩

/-- The printer's tokens spell the program. -/
theorem Program.speltBy_tokens : (p : List Statement) → Program.Spellable p → Program.SpeltBy p (Program.tokens p)
  | [], _ => by
    rw [Program.tokens, Program.SpeltBy]
  | statement :: rest, hs => by
    rw [Program.Spellable] at hs
    rw [Program.tokens, Program.SpeltBy]
    exact ⟨_, _, rfl, Statement.speltBy_tokens statement hs.1, Program.speltBy_tokens rest hs.2⟩

end

/-! ## Pieces of tokens -/

theorem exists_of_kinds_append {ts : List Token} {ks ls : List TokenKind} (h : kinds ts = ks ++ ls) :
    ∃ us vs, ts = us ++ vs ∧ kinds us = ks ∧ kinds vs = ls := List.map_eq_append_iff.1 h

theorem kinds_eq_singleton {ts : List Token} {k : TokenKind} (h : kinds ts = [k]) :
    ∃ t : Token, ts = [t] ∧ t.kind = k := by
  obtain ⟨t, us, rfl, rfl, hus⟩ := List.map_eq_cons_iff.1 h
  exact ⟨t, by rw [List.map_eq_nil_iff.1 hus], rfl⟩

/-- A word on a line of its own. -/
theorem kinds_eq_pair {ts : List Token} {k k' : TokenKind} (h : kinds ts = [k, k']) :
    ∃ t t' : Token, ts = [t, t'] ∧ t.kind = k ∧ t'.kind = k' := by
  obtain ⟨t, us, rfl, hk, hus⟩ := List.map_eq_cons_iff.1 h
  obtain ⟨t', rfl, hk'⟩ := kinds_eq_singleton hus
  exact ⟨t, t', rfl, hk, hk'⟩

variable {e : Expr} {ts us rest : List Token} {nl : Token}

theorem ahead_newline (h : nl.kind = .newline) : Ahead (¬ Program.Continues ·) (kinds (nl :: rest)) := by
  rw [kinds_cons, h]
  exact ahead_cons.2 (Program.not_continues_of_separates rfl)

/-- The tokens of an expression are read in front of the line break behind them. -/
theorem readsExpr_of_stands (h : Stands (kinds ts) e) (hnl : nl.kind = .newline) :
    ReadsExpr (ts ++ nl :: rest) e (nl :: rest) := by
  refine Program.readsExpr_of_reads ?_ (List.suffix_append ts _)
  rw [kinds_append]
  exact h _ (ahead_newline hnl)

theorem path_of_kinds {path : List Text} {ks : List TokenKind}
    (h : kinds ts = path.flatMap (fun f => [.dot, .word f]) ++ .assign :: ks) :
    ∃ us, kinds us = ks ∧ ∀ rest, Path path (ts ++ rest) (us ++ rest) := by
  induction path generalizing ts with
  | nil =>
    obtain ⟨⟨k, line, offset⟩, us, rfl, rfl, hus⟩ := List.map_eq_cons_iff.1 h
    exact ⟨us, hus, fun rest => .nil⟩
  | cons f path ih =>
    obtain ⟨⟨k, line, offset⟩, vs, rfl, rfl, hvs⟩ := List.map_eq_cons_iff.1 h
    obtain ⟨⟨k', line', offset'⟩, ws, rfl, rfl, hws⟩ := List.map_eq_cons_iff.1 hvs
    obtain ⟨us, hus, hp⟩ := ih hws
    exact ⟨us, hus, fun rest => .cons (hp rest)⟩

/-- The sign of an assignment does not stand behind a line break. -/
theorem Program.Path.assigns_front {path : List Text} (h : Path path ts us) {front back : List Token}
    (hts : ts = front ++ nl :: back) (hnl : nl.kind = .newline) : assigns (kinds front) ≠ 0 := by
  induction h generalizing front with
  | nil =>
    cases front with
    | nil =>
      cases hts
      cases hnl
    | cons t front =>
      cases hts
      simp [assigns]
  | cons _ ih =>
    rcases front with _ | ⟨t, _ | ⟨t', front⟩⟩
    · cases hts
      cases hnl
    · cases hts
      cases hnl
    · cases hts
      have h0 := ih rfl
      simpa [assigns] using h0

theorem assigns_of_stands {ks : List TokenKind} (h : Stands ks e) : assigns ks = 0 := by
  have hr := (h [] Program.ahead_nil).assigns
  rwa [List.append_nil] at hr

/-! ## Reading what is spelt -/

/-- The words that may end a block: none, or those of a conditional. -/
def BlockEnds (ends : List Text) : Prop := ends = [] ∨ ends = branchEnds ∨ ends = lastEnds

theorem atWord_of_word {ends : List Text} {name : Text} {line offset : Nat} (h : BlockEnds ends)
    (hname : isKeyword name = false ∨ name = "if".toList) :
    atWord ends (⟨.word name, line, offset⟩ :: ts) = false := by
  have hne : ∀ w ∈ branchEnds, isKeyword w = true ∧ w ≠ "if".toList := by decide
  have hsub : ∀ w ∈ lastEnds, w ∈ branchEnds := by decide
  have hmem : name ∉ branchEnds := by
    intro hin
    rcases hname with hk | rfl
    · rw [(hne name hin).1] at hk
      cases hk
    · exact (hne _ hin).2 rfl
  show ends.contains name = false
  rw [Bool.eq_false_iff, ne_eq, List.contains_iff_mem]
  rcases h with rfl | rfl | rfl
  · exact List.not_mem_nil
  · exact hmem
  · exact fun hin => hmem (hsub name hin)

/-- What spells a statement: a piece that no block ends before, and that is read as the statement
whatever stands behind its line break. -/
def Ended (ts : List Token) (s : Statement) : Prop :=
  ∃ t us nl, ts = t :: (us ++ [nl]) ∧ nl.kind = .newline ∧ t.kind.separates = false ∧
    (∀ ends rest, BlockEnds ends → atWord ends (t :: rest) = false) ∧
    ∀ rest, Spells .statement (t :: (us ++ nl :: rest)) (.one s) (nl :: rest)

/-- Where a block of statements ends: at one of its words, or at the end of the script. -/
def Closes (ends : List Text) (ts : List Token) : Prop :=
  (ends = [] ∧ ts = []) ∨ ∃ t us, ts = t :: us ∧ t.kind.separates = false ∧ atWord ends ts = true

theorem skipSeparators_front {seps : List Token} {t : Token} (hs : ∀ s ∈ seps, s.kind.separates = true)
    (ht : t.kind.separates = false) : skipSeparators (seps ++ t :: rest) = t :: rest := by
  unfold skipSeparators
  rw [List.dropWhile_append_of_pos hs, List.dropWhile_cons_of_neg (by simp [ht])]

theorem spells_nil {ends : List Text} {seps : List Token} (hs : ∀ s ∈ seps, s.kind.separates = true)
    (hc : Closes ends rest) : Spells (.block ends) (seps ++ rest) (.body []) rest := by
  rcases hc with ⟨rfl, rfl⟩ | ⟨t, us, rfl, ht, hw⟩
  · refine .done ?_
    rw [List.append_nil]
    exact List.dropWhile_eq_nil_iff.2 hs
  · exact .stop (skipSeparators_front hs ht) hw

/-- A statement in front of more of its block. -/
theorem Ended.spells {ends : List Text} {seps more : List Token} {s : Statement} {p : List Statement}
    (h : Ended ts s) (hends : BlockEnds ends) (hs : ∀ s ∈ seps, s.kind.separates = true)
    (hmore : ∀ seps : List Token, (∀ s ∈ seps, s.kind.separates = true) →
      Spells (.block ends) (seps ++ more) (.body p) rest) :
    Spells (.block ends) (seps ++ (ts ++ more)) (.body (s :: p)) rest := by
  obtain ⟨t, us, nl, rfl, hnl, ht, hw, hread⟩ := h
  have hsep : nl.kind.separates = true := by
    rw [hnl]
    rfl
  rw [List.cons_append, List.append_assoc, List.singleton_append]
  refine .more (skipSeparators_front hs ht) (hw ends _ hends) (hread more) ?_
    (hmore [nl] fun s hmem => List.mem_singleton.1 hmem ▸ hsep)
  simp [endsStatement, hsep]

theorem ended_assign {line : Nat} {target : Text} {path : List Text} (hkey : isKeyword target = false)
    (he : Stands e.tokenKinds e) (h : (Statement.assign line target path e).SpeltBy ts) :
    Ended ts (.assign line target path e) := by
  rw [Statement.SpeltBy] at h
  obtain ⟨hline, hk⟩ := h
  obtain ⟨⟨k, line', offset⟩, vs, rfl, rfl, hvs⟩ := List.map_eq_cons_iff.1 hk
  cases hline
  obtain ⟨us, nls, rfl, hus, hnls⟩ : ∃ us nls, vs = us ++ nls ∧
      kinds us = path.flatMap (fun f => [.dot, .word f]) ++ .assign :: e.tokenKinds ∧ kinds nls = [.newline] :=
    exists_of_kinds_append (by simpa [kinds] using hvs)
  obtain ⟨nl, rfl, hnl⟩ := kinds_eq_singleton hnls
  refine ⟨_, us, nl, rfl, hnl, rfl, fun ends rest hends => atWord_of_word hends (.inl hkey), fun rest => ?_⟩
  obtain ⟨ws, hws, hp⟩ := path_of_kinds hus
  exact .assign hkey (hp _) (readsExpr_of_stands (hws ▸ he) hnl)

theorem ended_eval {line : Nat} (he : Stands e.tokenKinds e) (h : (Statement.eval line e).SpeltBy ts) :
    Ended ts (.eval line e) := by
  rw [Statement.SpeltBy] at h
  obtain ⟨hline, hk⟩ := h
  obtain ⟨us, nls, rfl, hus, hnls⟩ := exists_of_kinds_append hk
  obtain ⟨nl, rfl, hnl⟩ := kinds_eq_singleton hnls
  have hread : ∀ rest, ReadsExpr (us ++ nl :: rest) e (nl :: rest) := fun rest =>
    readsExpr_of_stands (hus ▸ he) hnl
  obtain ⟨k, ls, hstart, hs⟩ := he.ahead []
  rw [List.append_nil, ← hus] at hstart
  obtain ⟨⟨k, line', offset⟩, us, rfl, rfl, -⟩ := List.map_eq_cons_iff.1 hstart
  cases hline
  refine ⟨_, us, nl, rfl, hnl, hs.begins.1, ?_, fun rest => ?_⟩
  · intro ends rest hends
    cases hs with
    | word hkey => exact atWord_of_word hends (.inl hkey)
    | sign hsign => cases k <;> first | rfl | cases hsign
    | _ => rfl
  · by_cases hword : ∃ name, k = .word name
    · obtain ⟨name, rfl⟩ := hword
      refine .evalWord ?_ (fun path vs hp => ?_) (hread rest)
      · cases hs with
        | word hkey => exact hkey
        | sign hsign => cases hsign
      · refine hp.assigns_front rfl hnl ?_
        have h0 := assigns_of_stands he
        rw [← hus] at h0
        simpa [assigns] using h0
    · exact .eval (fun name hk => hword ⟨name, hk⟩) (hread rest)

/-- The head of a branch: its word, its condition and a line break. -/
theorem head_of_kinds {word : String} (he : Stands e.tokenKinds e)
    (h : kinds ts = keyword word :: e.tokenKinds ++ [.newline]) :
    ∃ line offset us nl, ts = ⟨keyword word, line, offset⟩ :: (us ++ [nl]) ∧ nl.kind.separates = true ∧
      ∀ rest, ReadsExpr (us ++ nl :: rest) e (nl :: rest) := by
  obtain ⟨⟨k, line, offset⟩, vs, rfl, rfl, hvs⟩ := List.map_eq_cons_iff.1 h
  obtain ⟨us, nls, rfl, hus, hnls⟩ := exists_of_kinds_append hvs
  obtain ⟨nl, rfl, hnl⟩ := kinds_eq_singleton hnls
  refine ⟨line, offset, us, nl, rfl, ?_, fun rest => readsExpr_of_stands (hus ▸ he) hnl⟩
  rw [hnl]
  rfl

theorem closes_word {ends : List Text} {word : String} {line offset : Nat} (h : word.toList ∈ ends) :
    Closes ends (⟨keyword word, line, offset⟩ :: ts) :=
  .inr ⟨_, _, rfl, rfl, List.contains_iff_mem.2 h⟩

/-- The body of a branch ends where the next one begins, or behind the last. -/
theorem closes_branches {branches : List Branch} (h : branchesSpeltBy "elseif" branches us)
    (hc : Closes branchEnds rest) : Closes branchEnds (us ++ rest) := by
  cases branches with
  | nil =>
    rw [branchesSpeltBy] at h
    subst h
    exact hc
  | cons branch branches =>
    obtain ⟨condition, body⟩ := branch
    rw [branchesSpeltBy] at h
    obtain ⟨vs, ws, xs, rfl, hk, -, -⟩ := h
    obtain ⟨⟨k, line, offset⟩, vs, rfl, rfl, -⟩ := List.map_eq_cons_iff.1 hk
    exact closes_word (by decide)

/-- The tokens of a block are read as it in front of whatever ends the block. -/
def Blocks (ends : List Text) (ts : List Token) (p : List Statement) : Prop :=
  ∀ seps rest, (∀ s ∈ seps, s.kind.separates = true) → Closes ends rest →
    Spells (.block ends) (seps ++ (ts ++ rest)) (.body p) rest

/-- The tokens of branches behind the first are read in front of what ends the conditional. -/
def Continued (ts : List Token) (branches : List Branch) : Prop :=
  ∀ otherwise tail rest, Closes branchEnds tail → Spells .branches tail (.tail [] otherwise) rest →
    Spells .branches (ts ++ tail) (.tail branches otherwise) rest

variable {condition : Expr} {body : List Statement} {branches : List Branch} {vs ws : List Token}

theorem continued_cons (hs : Expr.Spellable condition.parts)
    (hhead : kinds us = keyword "elseif" :: condition.tokenKinds ++ [.newline]) (hbody : Blocks branchEnds vs body)
    (hbranches : branchesSpeltBy "elseif" branches ws) (hmore : Continued ws branches) :
    Continued (us ++ (vs ++ ws)) (.mk condition body :: branches) := by
  obtain ⟨line, offset, us, nl, rfl, hnl, hread⟩ := head_of_kinds (Expr.stands_tokenKinds hs) hhead
  intro otherwise tail rest hc htail
  have hblock := hbody [nl] (ws ++ tail) (by simpa using hnl) (closes_branches hbranches hc)
  have h : Spells .branches (⟨.word "elseif".toList, line, offset⟩ :: _) _ rest :=
    .elseif (hread (vs ++ (ws ++ tail))) hblock (hmore otherwise tail rest hc htail)
  simpa [keyword] using h

theorem ended_cond {line : Nat} {otherwise : Option (List Statement)} (close : List Token)
    (hs : Expr.Spellable condition.parts)
    (hhead : kinds us = keyword "if" :: condition.tokenKinds ++ [.newline])
    (hline : firstLine (us ++ ts) = some line) (hbody : Blocks branchEnds vs body)
    (hbranches : branchesSpeltBy "elseif" branches ws) (hmore : Continued ws branches)
    (hnl : nl.kind = .newline) (hc : ∀ rest, Closes branchEnds (close ++ nl :: rest))
    (hclose : ∀ rest, Spells .branches (close ++ nl :: rest) (.tail [] otherwise) (nl :: rest))
    (hts : ts = vs ++ (ws ++ (close ++ [nl]))) :
    Ended (us ++ ts) (.cond line (.mk condition body :: branches) otherwise) := by
  obtain ⟨line', offset, us, nl', rfl, hnl', hread⟩ := head_of_kinds (Expr.stands_tokenKinds hs) hhead
  subst hts
  obtain rfl : line' = line := Option.some.inj hline
  refine ⟨⟨keyword "if", line', offset⟩, us ++ nl' :: (vs ++ (ws ++ close)), nl, by simp, hnl, rfl,
    fun ends rest hends => atWord_of_word hends (.inr rfl), fun rest => ?_⟩
  have hblock := hbody [nl'] (ws ++ (close ++ nl :: rest)) (by simpa using hnl') (closes_branches hbranches (hc rest))
  have h : Spells .statement (⟨.word "if".toList, line', offset⟩ :: _) _ (nl :: rest) :=
    .cond (hread (vs ++ (ws ++ (close ++ nl :: rest)))) hblock (hmore otherwise _ _ (hc rest) (hclose rest))
  simpa [keyword] using h

/-- `end` and a line break. -/
theorem close_of_kinds (h : kinds ts = [keyword "end", .newline]) :
    ∃ en nl, ts = [en, nl] ∧ nl.kind = .newline ∧ ∀ rest,
      Closes branchEnds (en :: nl :: rest) ∧ Closes lastEnds (en :: nl :: rest) ∧
        Spells .branches (en :: nl :: rest) (.tail [] none) (nl :: rest) := by
  obtain ⟨⟨k, line, offset⟩, nl, rfl, rfl, hnl⟩ := kinds_eq_pair h
  exact ⟨_, nl, rfl, hnl, fun rest => ⟨closes_word (by decide), closes_word (by decide),
    .close (by decide) (by decide)⟩⟩

mutual

theorem ended_of_spelt : (s : Statement) → s.Spellable → (ts : List Token) → s.SpeltBy ts → Ended ts s
  | .assign line target path value, hs, ts, h => by
    rw [Statement.Spellable] at hs
    exact ended_assign hs.1 (Expr.stands_tokenKinds hs.2) h
  | .eval line value, hs, ts, h => by
    rw [Statement.Spellable] at hs
    exact ended_eval (Expr.stands_tokenKinds hs) h
  | .cond line [] none, hs, ts, h => by
    rw [Statement.Spellable] at hs
    exact absurd rfl hs.1
  | .cond line [] (some body), hs, ts, h => by
    rw [Statement.Spellable] at hs
    exact absurd rfl hs.1
  | .cond line (.mk condition body :: branches) none, hs, ts, h => by
    rw [Statement.Spellable, branchesSpellable] at hs
    rw [Statement.SpeltBy] at h
    obtain ⟨hline, us, vs, rfl, hfirst, hend⟩ := h
    rw [branchesSpeltBy] at hfirst
    obtain ⟨us, bs, ws, rfl, hhead, hbody, hbranches⟩ := hfirst
    obtain ⟨en, nl, rfl, hnl, hclose⟩ := close_of_kinds hend
    rw [List.append_assoc] at hline ⊢
    exact ended_cond [en] hs.2.1 hhead hline (blocks_of_spelt body hs.2.2.1 bs hbody (.inr (.inl rfl))) hbranches
      (continued_of_spelt branches hs.2.2.2 ws hbranches) hnl (fun rest => (hclose rest).1)
      (fun rest => (hclose rest).2.2) (by simp)
  | .cond line (.mk condition body :: branches) (some last), hs, ts, h => by
    rw [Statement.Spellable, branchesSpellable] at hs
    rw [Statement.SpeltBy] at h
    obtain ⟨hline, us, vs, xs, ys, rfl, hfirst, helse, hlast, hend⟩ := h
    rw [branchesSpeltBy] at hfirst
    obtain ⟨us, bs, ws, rfl, hhead, hbody, hbranches⟩ := hfirst
    obtain ⟨⟨k, line', offset⟩, nl', rfl, rfl, hnl'⟩ := kinds_eq_pair helse
    obtain ⟨en, nl, rfl, hnl, hclose⟩ := close_of_kinds hend
    have hsep : nl'.kind.separates = true := by
      rw [hnl']
      rfl
    have hotherwise : ∀ rest, Spells .branches (⟨keyword "else", line', offset⟩ :: nl' :: (xs ++ en :: nl :: rest))
        (.tail [] (some last)) (nl :: rest) := fun rest =>
      .otherwise (blocks_of_spelt last hs.2.2 xs hlast (.inr (.inr rfl)) [nl'] _ (by simpa using hsep)
        (hclose rest).2.1)
    rw [List.append_assoc] at hline ⊢
    exact ended_cond (⟨keyword "else", line', offset⟩ :: nl' :: (xs ++ [en])) hs.2.1.1 hhead hline
      (blocks_of_spelt body hs.2.1.2.1 bs hbody (.inr (.inl rfl))) hbranches
      (continued_of_spelt branches hs.2.1.2.2 ws hbranches) hnl (fun rest => closes_word (by decide))
      (fun rest => by simpa using hotherwise rest) (by simp)

theorem continued_of_spelt : (branches : List Branch) → branchesSpellable branches → (ts : List Token) →
    branchesSpeltBy "elseif" branches ts → Continued ts branches
  | [], _, ts, h => by
    rw [branchesSpeltBy] at h
    subst h
    exact fun _ _ _ _ htail => htail
  | .mk condition body :: branches, hs, ts, h => by
    rw [branchesSpellable] at hs
    rw [branchesSpeltBy] at h
    obtain ⟨us, vs, ws, rfl, hhead, hbody, hmore⟩ := h
    exact continued_cons hs.1 hhead (blocks_of_spelt body hs.2.1 vs hbody (.inr (.inl rfl))) hmore
      (continued_of_spelt branches hs.2.2 ws hmore)

theorem blocks_of_spelt : (p : List Statement) → Program.Spellable p → (ts : List Token) → Program.SpeltBy p ts →
    ∀ {ends}, BlockEnds ends → Blocks ends ts p
  | [], _, ts, h, _, _ => by
    rw [Program.SpeltBy] at h
    subst h
    exact fun _ _ hseps hc => spells_nil hseps hc
  | s :: p, hs, ts, h, ends, hends => by
    rw [Program.Spellable] at hs
    rw [Program.SpeltBy] at h
    obtain ⟨us, vs, rfl, hfirst, hmore⟩ := h
    intro seps rest hseps hc
    rw [List.append_assoc]
    exact (ended_of_spelt s hs.1 us hfirst).spells hends hseps fun seps hseps =>
      blocks_of_spelt p hs.2 vs hmore hends seps rest hseps hc

end

/-! ## The parser undoes the printer -/

theorem exprOfTokens_tokenKinds (hs : Expr.Spellable e.parts) (hts : kinds ts = e.tokenKinds) :
    Expr.ofTokens ts = .ok e := by
  refine Program.exprOfTokens_of_reads (Program.readsExpr_of_reads ?_ List.nil_suffix)
  have h := Expr.stands_tokenKinds hs [] Program.ahead_nil
  rwa [List.append_nil, ← hts] at h

theorem ofTokens_of_spelt {p : Program} (hs : Program.Spellable p) (h : Program.SpeltBy p ts) :
    Program.ofTokens ts = .ok p := by
  rw [Program.ofTokens_eq_ok]
  have hread := blocks_of_spelt p hs ts h (.inl rfl) [] [] nofun (.inl ⟨rfl, rfl⟩)
  rwa [List.nil_append, List.append_nil] at hread

/-- The parser undoes the printer. Tokens of the kinds that spell an expression, with parentheses only
where the binding of operators asks for them, are that expression. Tokens that spell a program,
on whatever lines, are that program, each statement on the line of its first token; and the
printer's tokens spell it. -/
theorem parser_undoes_printer :
    (∀ e : Expr, Expr.Spellable e.parts → ∀ ts, kinds ts = e.tokenKinds → Expr.ofTokens ts = .ok e) ∧
      (∀ p : Program, Program.Spellable p → ∀ ts, Program.SpeltBy p ts → Program.ofTokens ts = .ok p) ∧
      ∀ p : Program, Program.Spellable p → Program.SpeltBy p (Program.tokens p) :=
  ⟨fun _ hs _ => exprOfTokens_tokenKinds hs, fun _ hs _ => ofTokens_of_spelt hs, Program.speltBy_tokens⟩

/-- A sum as a factor in parentheses, and a conditional with two branches. -/
theorem parser_undoes_printer_factor :
    let sum : Expr := .binary .mul (.binary .add (.name "x".toList) (.number 1.0)) (.unary .negate (.name "y".toList))
    let p : Program := [.assign 1 "s".toList ["f".toList] sum,
      .cond 2 [.mk (.name "s".toList) [.eval 3 (.name "s".toList)], .mk (.name "y".toList) []] (some [])]
    Expr.ofTokens (Token.onLine 7 [.opening .round, .word "x".toList, .plus, .number 1.0, .closing .round,
        .star, .minus, .word "y".toList]) = .ok sum ∧
      Program.ofTokens (Program.tokens p) = .ok p := by
  intro sum p
  have hsum : Expr.Spellable sum.parts := by
    refine ⟨fun n hn => ?_, fun rows hrows => ?_, fun rows hrows => ?_⟩
    · simp only [sum, Expr.parts, List.cons_append, List.nil_append, List.mem_cons, reduceCtorEq, false_or,
        List.not_mem_nil, or_false, Expr.name.injEq] at hn
      rcases hn with rfl | rfl <;> decide
    · simp [sum, Expr.parts] at hrows
    · simp [sum, Expr.parts] at hrows
  have hname : ∀ c, isKeyword [c] = false → Expr.Spellable (Expr.name [c]).parts := by
    intro c hc
    refine ⟨fun n hn => ?_, fun rows hrows => ?_, fun rows hrows => ?_⟩
    · simp only [Expr.parts, List.mem_singleton, Expr.name.injEq] at hn
      exact hn ▸ hc
    · simp [Expr.parts] at hrows
    · simp [Expr.parts] at hrows
  have hp : Program.Spellable p := by
    simp only [p, Program.Spellable, Statement.Spellable, branchesSpellable, and_true]
    exact ⟨⟨by decide, hsum⟩, nofun, hname 's' (by decide), hname 's' (by decide), hname 'y' (by decide)⟩
  refine ⟨parser_undoes_printer.1 sum hsum _ ?_, parser_undoes_printer.2.1 p hp _ (parser_undoes_printer.2.2 p hp)⟩
  rw [kinds_onLine]
  simp [sum, Expr.tokenKinds, Expr.tokenKindsAt, Expr.enclose, BinaryOp.binding, Binding.rank, Binding.tighter,
    BinaryOp.token, UnaryOp.token]

end ConfigScript
