import ConfigScript.Proofs.Scanning
import ConfigScript.Proofs.Shapes
import ConfigScript.Proofs.Statements
/-!
# What a program mentions

The expressions of a program and the targets of its assignments, in the order of the text. Each name in
them is a word of the script (`mentions_of_readProgram`), so a name that stands nowhere in the script is
neither read nor assigned.
-/

namespace ConfigScript

/-! ## Expressions and targets -/

/-- The variable is named in the expression, as one that is read or called. -/
def Expr.Mentions (e : Expr) (n : Text) : Prop := .name n ∈ e.parts

namespace Statement

mutual

/-- The expressions of a statement, conditions and assigned values, in the order of the text. -/
def expressions : Statement → List Expr
  | assign _ _ _ e => [e]
  | eval _ e => [e]
  | cond _ branches otherwise => branchExpressions branches ++ otherwiseExpressions otherwise

def branchExpressions : List Branch → List Expr
  | [] => []
  | .mk condition body :: rest => condition :: (bodyExpressions body ++ branchExpressions rest)

def otherwiseExpressions : Option (List Statement) → List Expr
  | none => []
  | some body => bodyExpressions body

def bodyExpressions : List Statement → List Expr
  | [] => []
  | s :: ss => s.expressions ++ bodyExpressions ss

end

mutual

/-- The targets of the assignments in a statement, each variable with its field path, in the order of
the text. -/
def targets : Statement → List (Text × List Text)
  | assign _ target path _ => [(target, path)]
  | eval .. => []
  | cond _ branches otherwise => branchTargets branches ++ otherwiseTargets otherwise

def branchTargets : List Branch → List (Text × List Text)
  | [] => []
  | .mk _ body :: rest => bodyTargets body ++ branchTargets rest

def otherwiseTargets : Option (List Statement) → List (Text × List Text)
  | none => []
  | some body => bodyTargets body

def bodyTargets : List Statement → List (Text × List Text)
  | [] => []
  | s :: ss => s.targets ++ bodyTargets ss

end

end Statement

namespace Program

open Statement

/-- The expressions of a part of a program. -/
def Spelled.expressions : Spelled → List Expr
  | body ss => bodyExpressions ss
  | one s => s.expressions
  | tail bs otherwise => branchExpressions bs ++ otherwiseExpressions otherwise

/-- The targets of a part of a program. -/
def Spelled.targets : Spelled → List (Text × List Text)
  | body ss => bodyTargets ss
  | one s => s.targets
  | tail bs otherwise => branchTargets bs ++ otherwiseTargets otherwise

/-! ## Names are words -/

/-- The expressions that a step of the descent has read before. -/
def Task.parts : Task → List Expr
  | joinMore _ left => left.parts
  | powerMore base => base.parts
  | attached base => base.parts
  | rows _ row before => Expr.partsList row ++ Expr.partsRows before
  | _ => []

/-- The expressions in what a step has read. -/
def Parsed.parts : Parsed → List Expr
  | expr e => e.parts
  | args es => Expr.partsList es
  | rows all => Expr.partsRows all

@[simp] theorem parts_below (level : Level) : level.below.parts = [] := by
  cases level <;> rfl

/-- All names among these expressions have the property. -/
def Names (P : Text → Prop) (es : List Expr) : Prop := ∀ n, .name n ∈ es → P n

/-- All words among these kinds have the property. -/
def Words (P : Text → Prop) (ks : List TokenKind) : Prop := ∀ w, .word w ∈ ks → P w

variable {P : Text → Prop}

theorem Words.tail {k : TokenKind} {ks : List TokenKind} (h : Words P (k :: ks)) : Words P ks :=
  fun w hw => h w (List.mem_cons_of_mem k hw)

theorem Names.append {es es' : List Expr} (h : Names P es) (h' : Names P es') : Names P (es ++ es') :=
  fun n hn => (List.mem_append.1 hn).elim (h n) (h' n)

theorem Names.cons {e : Expr} {es : List Expr} (h : Names P es) (he : ∀ n, e ≠ .name n) : Names P (e :: es) :=
  fun n hn => (List.mem_cons.1 hn).elim (fun heq => (he n heq.symm).elim) (h n)

theorem names_nil : Names P [] := nofun

theorem Names.closeRow {row : List Expr} {rows : List (List Expr)}
    (h : Names P (Expr.partsList row ++ Expr.partsRows rows)) : Names P (Expr.partsRows (closeRow row rows)) := by
  intro n hn
  refine h n (List.mem_append.2 ?_)
  unfold Program.closeRow at hn
  split at hn
  · exact .inr hn
  · obtain ⟨r, hr, hn⟩ := Expr.mem_partsRows.1 hn
    rcases List.mem_cons.1 hr with rfl | hr
    · obtain ⟨e, he, hn⟩ := Expr.mem_partsList.1 hn
      exact .inl (Expr.mem_partsList.2 ⟨e, List.mem_reverse.1 he, hn⟩)
    · exact .inr (Expr.mem_partsRows.2 ⟨r, hr, hn⟩)

theorem Names.reverse {rows : List (List Expr)} (h : Names P (Expr.partsRows rows)) :
    Names P (Expr.partsRows rows.reverse) := by
  intro n hn
  obtain ⟨row, hrow, hn⟩ := Expr.mem_partsRows.1 hn
  exact h n (Expr.mem_partsRows.2 ⟨row, List.mem_reverse.1 hrow, hn⟩)

/-- What a step reads names words of its tokens, or names of what has been read before. -/
theorem Reads.names {task : Task} {ks rest : List TokenKind} {v : Parsed} (h : Reads task ks v rest)
    (hks : Words P ks) (ht : Names P task.parts) : Names P v.parts ∧ Words P rest := by
  induction h with
  | joined _ _ ih₁ ih₂ =>
    obtain ⟨h₁, hrest⟩ := ih₁ hks (by rw [parts_below]; exact names_nil)
    exact ih₂ hrest h₁
  | joinEnd => exact ⟨ht, hks⟩
  | joinOn _ _ _ ih₁ ih₂ =>
    obtain ⟨h₁, hrest⟩ := ih₁ hks.tail (by rw [parts_below]; exact names_nil)
    exact ih₂ hrest ((ht.append h₁).cons nofun)
  | single _ _ ih => exact ih hks names_nil
  | range _ _ _ ih₁ ih₂ =>
    obtain ⟨h₁, hrest⟩ := ih₁ hks names_nil
    obtain ⟨h₂, hrest⟩ := ih₂ hrest.tail names_nil
    exact ⟨(h₁.append h₂).cons nofun, hrest⟩
  | stepped _ _ _ ih₁ ih₂ ih₃ =>
    obtain ⟨h₁, hrest⟩ := ih₁ hks names_nil
    obtain ⟨h₂, hrest⟩ := ih₂ hrest.tail names_nil
    obtain ⟨h₃, hrest⟩ := ih₃ hrest.tail names_nil
    exact ⟨(h₁.append (h₂.append h₃)).cons nofun, hrest⟩
  | sign _ _ ih =>
    obtain ⟨h, hrest⟩ := ih hks.tail names_nil
    exact ⟨h.cons nofun, hrest⟩
  | unsigned _ _ ih => exact ih hks names_nil
  | power _ _ ih₁ ih₂ =>
    obtain ⟨h₁, hrest⟩ := ih₁ hks names_nil
    exact ih₂ hrest h₁
  | powerEnd => exact ⟨ht, hks⟩
  | powerOn _ _ _ ih₁ ih₂ =>
    obtain ⟨h₁, hrest⟩ := ih₁ hks.tail names_nil
    exact ih₂ hrest ((ht.append h₁).cons nofun)
  | exponentSign _ _ ih =>
    obtain ⟨h, hrest⟩ := ih hks.tail names_nil
    exact ⟨h.cons nofun, hrest⟩
  | exponent _ _ ih => exact ih hks names_nil
  | attachment _ _ ih₁ ih₂ =>
    obtain ⟨h₁, hrest⟩ := ih₁ hks names_nil
    exact ih₂ hrest h₁
  | transpose _ ih => exact ih hks.tail (ht.cons nofun)
  | field _ ih => exact ih hks.tail.tail (ht.cons nofun)
  | apply _ _ ih₁ ih₂ =>
    obtain ⟨h₁, hrest⟩ := ih₁ hks.tail names_nil
    exact ih₂ hrest ((ht.append h₁).cons nofun)
  | brace _ _ ih₁ ih₂ =>
    obtain ⟨h₁, hrest⟩ := ih₁ hks.tail names_nil
    exact ih₂ hrest ((ht.append h₁).cons nofun)
  | attachedEnd => exact ⟨ht, hks⟩
  | noArguments => exact ⟨names_nil, hks.tail⟩
  | arguments _ _ ih => exact ih hks names_nil
  | argument _ _ ih₁ ih₂ =>
    obtain ⟨h₁, hrest⟩ := ih₁ hks names_nil
    obtain ⟨h₂, hrest⟩ := ih₂ hrest.tail names_nil
    exact ⟨h₁.append h₂, hrest⟩
  | lastArgument _ ih =>
    obtain ⟨h, hrest⟩ := ih hks names_nil
    exact ⟨h.append names_nil, hrest.tail⟩
  | number => exact ⟨names_nil.cons nofun, hks.tail⟩
  | quoted => exact ⟨names_nil.cons nofun, hks.tail⟩
  | @word name ks _ =>
    refine ⟨fun n hn => ?_, hks.tail⟩
    cases List.mem_singleton.1 hn
    exact hks name List.mem_cons_self
  | group _ ih =>
    obtain ⟨h, hrest⟩ := ih hks.tail names_nil
    exact ⟨h, hrest.tail⟩
  | matrix _ ih =>
    obtain ⟨h, hrest⟩ := ih hks.tail names_nil
    exact ⟨h.cons nofun, hrest⟩
  | cell _ ih =>
    obtain ⟨h, hrest⟩ := ih hks.tail names_nil
    exact ⟨h.cons nofun, hrest⟩
  | rowsEnd => exact ⟨ht.closeRow.reverse, hks.tail⟩
  | nextRow _ ih => exact ih hks.tail ht.closeRow
  | rowsComma _ ih => exact ih hks.tail ht
  | element _ _ _ ih₁ ih₂ =>
    obtain ⟨h₁, hrest⟩ := ih₁ hks names_nil
    refine ih₂ hrest ?_
    show Names P (Expr.partsList (_ :: _) ++ _)
    rw [Expr.partsList, List.append_assoc]
    exact h₁.append ht

variable {ts us rest : List Token} {e : Expr}

theorem ReadsExpr.names (h : ReadsExpr ts e rest) (hts : Words P (kinds ts)) :
    Names P e.parts ∧ Words P (kinds rest) :=
  h.reads.names hts names_nil

theorem Path.words {path : List Text} (h : Path path ts rest) (hts : Words P (kinds ts)) :
    Words P (kinds rest) := by
  induction h with
  | nil => exact hts.tail
  | cons _ ih => exact ih hts.tail.tail

theorem words_skipSeparators (hts : Words P (kinds ts)) : Words P (kinds (skipSeparators ts)) := by
  intro w hw
  obtain ⟨t, ht, hk⟩ := List.mem_map.1 hw
  exact hts w (hk ▸ List.mem_map_of_mem ((List.dropWhile_suffix _).subset ht))

/-- The names in a part of a program, and the targets of its assignments, which are no keywords. -/
structure Spelled.Named (P : Text → Prop) (v : Spelled) : Prop where
  expressions : ∀ e ∈ v.expressions, Names P e.parts
  targets : ∀ x ∈ v.targets, P x.1 ∧ isKeyword x.1 = false

theorem named_of_eval {line : Nat} (h : Names P e.parts) : Spelled.Named P (.one (.eval line e)) where
  expressions := by simpa [Spelled.expressions, Statement.expressions] using h
  targets := by simp [Spelled.targets, Statement.targets]

theorem named_of_clause {condition : Expr} {body : List Statement} {bs : List Branch}
    {otherwise : Option (List Statement)} (hx : Names P condition.parts) (h₁ : Spelled.Named P (.body body))
    (h₂ : Spelled.Named P (.tail bs otherwise)) : Spelled.Named P (.tail (.mk condition body :: bs) otherwise) where
  expressions := by
    intro e he
    simp only [Spelled.expressions, branchExpressions, List.cons_append, List.append_assoc, List.mem_cons,
      List.mem_append] at he
    rcases he with rfl | he | he
    · exact hx
    · exact h₁.expressions e he
    · exact h₂.expressions e (List.mem_append.2 he)
  targets := by
    intro x hx
    simp only [Spelled.targets, branchTargets, List.append_assoc, List.mem_append] at hx
    rcases hx with hx | hx
    · exact h₁.targets x hx
    · exact h₂.targets x (List.mem_append.2 hx)

/-- The names in a part of a program are words of its tokens. -/
theorem Spells.named {part : Part} {v : Spelled} (h : Spells part ts v rest) (hts : Words P (kinds ts)) :
    v.Named P ∧ Words P (kinds rest) := by
  induction h with
  | done => exact ⟨⟨nofun, nofun⟩, nofun⟩
  | stop hskip => exact ⟨⟨nofun, nofun⟩, hskip ▸ words_skipSeparators hts⟩
  | more hskip _ _ _ _ ih₁ ih₂ =>
    obtain ⟨h₁, hrest⟩ := ih₁ (hskip ▸ words_skipSeparators hts)
    obtain ⟨h₂, hrest⟩ := ih₂ hrest
    refine ⟨⟨fun e he => ?_, fun x hx => ?_⟩, hrest⟩
    · exact (List.mem_append.1 he).elim (h₁.expressions e) (h₂.expressions e)
    · exact (List.mem_append.1 hx).elim (h₁.targets x) (h₂.targets x)
  | @assign name _ _ _ _ _ e _ hkey hp hx =>
    obtain ⟨he, hrest⟩ := hx.names (hp.words hts.tail)
    refine ⟨⟨?_, ?_⟩, hrest⟩
    · simpa [Spelled.expressions, Statement.expressions] using he
    · simpa [Spelled.targets, Statement.targets] using And.intro (hts name List.mem_cons_self) hkey
  | evalWord _ _ hx =>
    obtain ⟨he, hrest⟩ := hx.names hts
    exact ⟨named_of_eval he, hrest⟩
  | eval _ hx =>
    obtain ⟨he, hrest⟩ := hx.names hts
    exact ⟨named_of_eval he, hrest⟩
  | cond hx _ _ ih₁ ih₂ =>
    obtain ⟨he, hrest⟩ := hx.names hts.tail
    obtain ⟨h₁, hrest⟩ := ih₁ hrest
    obtain ⟨h₂, hrest⟩ := ih₂ hrest
    obtain ⟨hes, hxs⟩ := named_of_clause he h₁ h₂
    exact ⟨⟨hes, hxs⟩, hrest⟩
  | elseif hx _ _ ih₁ ih₂ =>
    obtain ⟨he, hrest⟩ := hx.names hts.tail
    obtain ⟨h₁, hrest⟩ := ih₁ hrest
    obtain ⟨h₂, hrest⟩ := ih₂ hrest
    exact ⟨named_of_clause he h₁ h₂, hrest⟩
  | otherwise _ ih =>
    obtain ⟨⟨hes, hxs⟩, hrest⟩ := ih hts.tail
    exact ⟨⟨hes, hxs⟩, hrest.tail⟩
  | close => exact ⟨⟨nofun, nofun⟩, hts.tail⟩

end Program

/-! ## Words are in the text -/

namespace Text

theorem hasPart_iff {part t : Text} : hasPart part t = true ↔ part <:+: t := by
  induction t with
  | nil => simp [hasPart]
  | cons c t ih => simp [hasPart, ih, List.infix_cons_iff]

end Text

namespace Token

variable {s s' : Scan} {t t' : Text} {c : Char} {l : Lexeme} {w : Text}

theorem operator_ne_word {next : Option Char} {k : TokenKind} {two : Bool}
    (h : operator? c next = some (k, two)) (w : Text) : k ≠ .word w := by
  unfold operator? at h
  split at h <;> cases h <;> exact nofun

/-- A word begins with a letter and is what it is written as. -/
theorem lexeme_word {transposes : Bool} (h : lexeme transposes c t = .ok l) (hk : l.kind = .word w) :
    c.isAlpha = true ∧ l.spelling = w ∧ IsWord w := by
  unfold lexeme at h
  split at h
  · cases h
    cases hk
  split at h
  · next hc =>
    cases h
    cases hk
    have hpart : isNamePart c = true := by simp [isNamePart, Char.isAlphanum, hc]
    refine ⟨hc, rfl, ?_, List.all_takeWhile⟩
    rw [List.takeWhile_cons_of_pos hpart]
    exact hc
  split at h
  · cases h
    cases hk
  split at h
  · unfold string at h
    split at h
    · cases h
      cases hk
    · cases h
  split at h
  · next k ho =>
    cases h
    exact (operator_ne_word ho w hk).elim
  · next k ho =>
    cases h
    exact (operator_ne_word ho w hk).elim
  · cases h

theorem settledKind_word (h : s.settledKind l.kind = .word w) : l.kind = .word w := by
  unfold Scan.settledKind at h
  split at h
  · cases h
  · exact h

/-- A word that a step collects stands at the front of its text. -/
theorem Step.words (h : Step s t s' t') :
    ∀ x ∈ s'.tokens, x.kind = .word w → x ∈ s.tokens ∨ IsWord w ∧ w <:+: t := by
  intro x hx hk
  cases h with
  | blank | continued | comment => exact .inl hx
  | @token _ c t l _ hl ht =>
    obtain ⟨gs, -, rfl⟩ := Scan.take_eq_ok.1 ht
    rcases List.mem_cons.1 hx with rfl | hx
    · obtain ⟨-, rfl, hword⟩ := lexeme_word hl (settledKind_word hk)
      exact .inr ⟨hword, [], l.rest, (lexeme_append hl).1⟩
    · rcases s.separated_cases c t.head? with hsep | ⟨-, hsep⟩
      · exact .inl (hsep ▸ hx)
      · rw [hsep] at hx
        rcases List.mem_cons.1 hx with rfl | hx
        · cases hk
        · exact .inl hx

theorem Run.words (h : Run s t s' t') :
    ∀ x ∈ s'.tokens, x.kind = .word w → x ∈ s.tokens ∨ IsWord w ∧ w <:+: t := by
  induction h with
  | nil => exact fun x hx _ => .inl hx
  | cons hs _ ih =>
    intro x hx hk
    obtain ⟨u, _, -, ha⟩ := hs.advance
    rcases ih x hx hk with hx | ⟨hword, hw⟩
    · exact hs.words x hx hk
    · exact .inr ⟨hword, hw.trans ⟨u, [], by rw [ha.text, List.append_nil]⟩⟩

/-- The words of a script are spelled as words are, and stand in it. -/
theorem word_of_tokenize {script : Text} {ts : List Token} (h : tokenize script = .ok ts)
    (hw : .word w ∈ kinds ts) : IsWord w ∧ w <:+: script := by
  obtain ⟨last, hr, -, rfl⟩ := scan_eq_ok.1 h
  obtain ⟨x, hx, hk⟩ := List.mem_map.1 hw
  exact (hr.words x (List.mem_reverse.1 hx) hk).resolve_left nofun

end Token

/-- A name that stands nowhere in a script is neither mentioned nor assigned in its program. -/
theorem Program.named_of_tokenize {script : Text} {ts : List Token} {program : Program} {n : Text}
    (h : Token.tokenize script = .ok ts) (hp : ofTokens ts = .ok program) (hn : Text.hasPart n script = false) :
    Spelled.Named (· ≠ n) (.body program) := by
  refine ((ofTokens_eq_ok.1 hp).named fun w hw => ?_).1
  rintro rfl
  rw [Text.hasPart_iff.2 (Token.word_of_tokenize h hw).2] at hn
  cases hn

/-! ## What a run binds -/

namespace Statement

variable {s : Surroundings}

mutual

/-- A run of a statement binds no more than the targets of its assignments. -/
theorem run_binds : (st : Statement) → (w w' : Workspace) → run s w st = .ok w' →
    ∀ n ∈ Table.names w', n ∈ Table.names w ∨ n ∈ st.targets.map Prod.fst
  | assign line target path e, w, w', h, n, hn => by
    rw [run] at h
    obtain ⟨v, -, h⟩ := bind_eq_ok.1 (onLine_eq_ok.1 h)
    obtain ⟨u, -, h⟩ := bind_eq_ok.1 h
    cases h
    rcases Table.mem_names_insert.1 hn with rfl | hn
    · exact .inr (by simp [targets])
    · exact .inl hn
  | eval line e, w, w', h, n, hn => by
    rw [run] at h
    obtain ⟨v, -, h⟩ := bind_eq_ok.1 (onLine_eq_ok.1 h)
    cases h
    exact .inl hn
  | cond line branches otherwise, w, w', h, n, hn => by
    rw [targets, List.map_append, List.mem_append]
    rw [run.eq_def] at h
    obtain ⟨after, hbranches, h⟩ := bind_eq_ok.1 h
    cases after with
    | some after =>
      cases h
      exact (runBranches_binds branches line w w' hbranches n hn).imp_right .inl
    | none =>
      cases otherwise with
      | none =>
        cases h
        exact .inl hn
      | some body => exact (runAll_binds body w w' h n hn).imp_right .inr

theorem runBranches_binds : (branches : List Branch) → (line : Nat) → (w w' : Workspace) →
    runBranches s w line branches = .ok (some w') →
    ∀ n ∈ Table.names w', n ∈ Table.names w ∨ n ∈ (branchTargets branches).map Prod.fst
  | [], line, w, w', h, n, hn => by
    rw [runBranches] at h
    cases h
  | .mk condition body :: rest, line, w, w', h, n, hn => by
    rw [branchTargets, List.map_append, List.mem_append]
    rw [runBranches] at h
    obtain ⟨holds, -, h⟩ := bind_eq_ok.1 h
    cases holds with
    | true =>
      obtain ⟨after, hafter, h⟩ := bind_eq_ok.1 h
      cases h
      exact (runAll_binds body w w' hafter n hn).imp_right .inl
    | false => exact (runBranches_binds rest line w w' h n hn).imp_right .inr

theorem runAll_binds : (ss : List Statement) → (w w' : Workspace) → runAll s w ss = .ok w' →
    ∀ n ∈ Table.names w', n ∈ Table.names w ∨ n ∈ (bodyTargets ss).map Prod.fst
  | [], w, w', h, n, hn => by
    rw [runAll] at h
    cases h
    exact .inl hn
  | st :: rest, w, w', h, n, hn => by
    rw [bodyTargets, List.map_append, List.mem_append]
    rw [runAll] at h
    obtain ⟨after, hafter, h⟩ := bind_eq_ok.1 h
    rcases runAll_binds rest after w' h n hn with hn | hn
    · exact (run_binds st w after hafter n hn).imp_right .inl
    · exact .inr (.inr hn)

end

end Statement

end ConfigScript
