import ConfigScript.Proofs.Descent
import Mathlib.Data.List.TakeWhile
/-!
# The grammar of statements

`Spells` says which tokens spell a block, a statement or the branches behind the first one of a
conditional. The descent reads exactly that (`block_sound`, `spells_complete`).
-/

namespace ConfigScript

namespace Program

/-! ## Expressions at the front of tokens -/

/-- The tokens start with an expression, which reads the same whatever follows it that does not
go on with it. -/
def ReadsExpr (ts : List Token) (e : Expr) (rest : List Token) : Prop :=
  ∃ chunk, ts = chunk ++ rest ∧ ∀ rest', Follows (kinds rest) rest' →
    Reads (.joined .orOr) (kinds chunk ++ rest') (.expr e) rest'

theorem ReadsExpr.reads {ts : List Token} {e : Expr} {rest : List Token} (h : ReadsExpr ts e rest) :
    Reads (.joined .orOr) (kinds ts) (.expr e) (kinds rest) := by
  obtain ⟨chunk, rfl, h⟩ := h
  rw [kinds_append]
  exact h _ (.inl rfl)

theorem readsExpr_of_reads {ts : List Token} {e : Expr} {rest : List Token}
    (h : Reads (.joined .orOr) (kinds ts) (.expr e) (kinds rest)) (hs : rest <:+ ts) :
    ReadsExpr ts e rest := by
  obtain ⟨front, rfl⟩ := hs
  obtain ⟨chunk, hc, hx⟩ := h.exchange
  rw [kinds_append, List.append_cancel_right_eq] at hc
  subst hc
  exact ⟨front, rfl, hx⟩

/-- The descent reads an expression exactly if the grammar does. -/
theorem expression_eq_ok {last : Nat} {ts : List Token} {e : Expr} {rest : List Token} :
    (∃ lt, expression last ts = .ok ⟨e, rest, lt⟩) ↔ ReadsExpr ts e rest := by
  constructor
  · rintro ⟨lt, h⟩
    obtain ⟨hd, hs⟩ := joined_sound last .orOr ts _ h
    exact readsExpr_of_reads hd hs
  · intro h
    obtain ⟨us, lt, hx, hk⟩ := reads_complete last h.reads ts rfl
    obtain ⟨-, hs⟩ := joined_sound last .orOr ts _ hx
    obtain ⟨chunk, hc, -⟩ := h
    have hlen : rest.length = us.length := by
      have := congrArg List.length hk
      simpa [kinds] using this.symm
    obtain rfl : rest = us := List.IsSuffix.eq_of_length (List.suffix_of_suffix_length_le
      ⟨chunk, hc.symm⟩ hs (Nat.le_of_eq hlen)) hlen
    exact ⟨lt, hx⟩

theorem ReadsExpr.length {ts : List Token} {e : Expr} {rest : List Token} (h : ReadsExpr ts e rest) :
    rest.length < ts.length := by
  have := h.reads.length
  simpa [kinds, Task.least, Nat.succ_le_iff] using this

/-- Reading an expression has one outcome. -/
theorem ReadsExpr.unique {ts : List Token} {e e' : Expr} {rest rest' : List Token}
    (h : ReadsExpr ts e rest) (h' : ReadsExpr ts e' rest') : e = e' ∧ rest = rest' := by
  obtain ⟨lt, h⟩ := (@expression_eq_ok 0 ts e rest).2 h
  obtain ⟨lt', h'⟩ := (@expression_eq_ok 0 ts e' rest').2 h'
  rw [h] at h'
  cases h'
  exact ⟨rfl, rfl⟩

/-- The same kinds of tokens are the same expression before any rest that does not go on with it. -/
theorem ReadsExpr.exchange {chunk chunk' rest rest' : List Token} {e : Expr}
    (h : ReadsExpr (chunk ++ rest) e rest) (hk : kinds chunk' = kinds chunk)
    (hf : Follows (kinds rest) (kinds rest')) : ReadsExpr (chunk' ++ rest') e rest' := by
  obtain ⟨front, hc, h⟩ := h
  rw [List.append_cancel_right_eq] at hc
  subst hc
  refine readsExpr_of_reads ?_ (List.suffix_append chunk' rest')
  rw [kinds_append, hk]
  exact h _ hf

theorem ReadsExpr.begins {t : Token} {ts : List Token} {e : Expr} {rest : List Token}
    (h : ReadsExpr (t :: ts) e rest) : Begins t.kind := by
  obtain ⟨k, ls, hk, hb⟩ := h.reads.begins rfl
  rw [kinds_cons, List.cons.injEq] at hk
  rw [hk.1]
  exact hb

theorem not_continues_of_separates {k : TokenKind} (h : k.separates = true) : ¬ Continues k := by
  cases k with
  | newline | semicolon | comma =>
    intro hc
    cases hc with
    | @operator level _ _ ho => cases level <;> cases ho
    | power ho => cases ho
  | _ => cases h

/-- An expression reads the same before more tokens, if these start with a separator where it has
used up its own. -/
theorem ReadsExpr.append {ts : List Token} {e : Expr} {us rest : List Token} (h : ReadsExpr ts e rest)
    (hus : ∀ u ∈ us.head?, u.kind.separates = true) : ReadsExpr (ts ++ us) e (rest ++ us) := by
  obtain ⟨chunk, rfl, -⟩ := id h
  rw [List.append_assoc]
  refine h.exchange rfl ?_
  cases rest with
  | cons t rest => exact .inl rfl
  | nil =>
    refine .inr ?_
    cases us with
    | nil => exact nofun
    | cons u us => exact ahead_cons.2 (not_continues_of_separates (hus u rfl))

/-- Tokens that spell one expression begin with it, once separators are skipped, and go on with
nothing but separators. -/
theorem exprOfTokens_eq_ok {ts : List Token} {e : Expr} (h : Expr.ofTokens ts = .ok e) :
    ∃ rest, ReadsExpr (skipSeparators ts) e rest ∧ ∀ t ∈ rest, t.kind.separates = true := by
  unfold Expr.ofTokens at h
  dsimp only at h
  split at h
  · cases h
  · obtain ⟨⟨e', rest, lt⟩, hx, h⟩ := bind_eq_ok.1 h
    dsimp only at h
    split at h
    · next hrest =>
      cases h
      exact ⟨rest, expression_eq_ok.1 ⟨lt, hx⟩, List.dropWhile_eq_nil_iff.1 hrest⟩
    · cases h

/-- Tokens that are an expression and nothing else spell it. -/
theorem exprOfTokens_of_reads {ts : List Token} {e : Expr} (h : ReadsExpr ts e []) : Expr.ofTokens ts = .ok e := by
  cases ts with
  | nil => exact absurd h.length (Nat.not_lt_zero 0)
  | cons t ts =>
    have hskip : skipSeparators (t :: ts) = t :: ts := List.dropWhile_cons_of_neg (by simp [h.begins.1])
    obtain ⟨lt, hx⟩ := (@expression_eq_ok (lastLine (t :: ts)) (t :: ts) e []).2 h
    unfold Expr.ofTokens
    dsimp only
    rw [hskip, hx]
    rfl

/-! ## Statements and blocks -/

/-- The field path of an assignment and its sign, given the tokens after the variable. -/
inductive Path : List Text → List Token → List Token → Prop
  | nil {line offset : Nat} {ts : List Token} : Path [] (⟨.assign, line, offset⟩ :: ts) ts
  | cons {line offset line' offset' : Nat} {field : Text} {path : List Text} {ts rest : List Token} :
    Path path ts rest →
    Path (field :: path) (⟨.dot, line, offset⟩ :: ⟨.word field, line', offset'⟩ :: ts) rest

theorem assignmentPath?_eq_some {path : List Text} {ts rest : List Token} :
    (∃ lt, assignmentPath? ts = some ⟨path, rest, lt⟩) ↔ Path path ts rest := by
  constructor
  · rintro ⟨lt, h⟩
    revert path rest lt
    fun_induction assignmentPath? ts with
    | case1 => rintro path rest lt ⟨⟩; exact .nil
    | case2 field _ _ _ _ ts ih =>
      intro path rest lt h
      cases hp : assignmentPath? ts with
      | none => simp [hp] at h
      | some r =>
        simp only [hp, Option.map_some, Option.some.injEq, Used.mk.injEq] at h
        obtain ⟨rfl, rfl⟩ := h
        exact .cons (ih r.lt hp)
    | case3 => rintro path rest lt ⟨⟩
  · intro h
    induction h with
    | nil => exact ⟨_, rfl⟩
    | cons _ ih =>
      obtain ⟨lt, ih⟩ := ih
      exact ⟨_, by rw [assignmentPath?, ih]; rfl⟩

theorem assignmentPath?_eq_none {ts : List Token} :
    assignmentPath? ts = none ↔ ∀ path rest, ¬ Path path ts rest := by
  constructor
  · intro h path rest hp
    obtain ⟨lt, hp⟩ := assignmentPath?_eq_some.2 hp
    rw [h] at hp
    cases hp
  · intro h
    cases hp : assignmentPath? ts with
    | none => rfl
    | some r => exact (h r.value r.rest (assignmentPath?_eq_some.1 ⟨r.lt, hp⟩)).elim

/-- A part of a program. -/
inductive Part where
  | block (ends : List Text)
  | statement
  /-- The branches of a conditional behind its first. -/
  | branches

/-- What a part is read as. -/
inductive Spelled where
  | body (statements : List Statement)
  | one (statement : Statement)
  | tail (branches : List Branch) (otherwise : Option (List Statement))

/-- The tokens start with a part of a program. -/
inductive Spells : Part → List Token → Spelled → List Token → Prop
  | done {ts} : skipSeparators ts = [] → Spells (.block []) ts (.body []) []
  | stop {ends ts t here} :
    skipSeparators ts = t :: here → atWord ends (t :: here) = true →
    Spells (.block ends) ts (.body []) (t :: here)
  | more {ends ts t here s rest ss rest'} :
    skipSeparators ts = t :: here → atWord ends (t :: here) = false →
    Spells .statement (t :: here) (.one s) rest → endsStatement ends rest = true →
    Spells (.block ends) rest (.body ss) rest' → Spells (.block ends) ts (.body (s :: ss)) rest'
  | assign {name line offset path ts us e rest} :
    isKeyword name = false → Path path ts us → ReadsExpr us e rest →
    Spells .statement (⟨.word name, line, offset⟩ :: ts) (.one (.assign line name path e)) rest
  | evalWord {name line offset ts e rest} :
    isKeyword name = false → (∀ path us, ¬ Path path ts us) →
    ReadsExpr (⟨.word name, line, offset⟩ :: ts) e rest →
    Spells .statement (⟨.word name, line, offset⟩ :: ts) (.one (.eval line e)) rest
  | eval {t ts e rest} :
    (∀ name, t.kind ≠ .word name) → ReadsExpr (t :: ts) e rest →
    Spells .statement (t :: ts) (.one (.eval t.line e)) rest
  | cond {line offset ts condition rest body rest' branches otherwise rest''} :
    ReadsExpr ts condition rest → Spells (.block branchEnds) rest (.body body) rest' →
    Spells .branches rest' (.tail branches otherwise) rest'' →
    Spells .statement (⟨.word "if".toList, line, offset⟩ :: ts)
      (.one (.cond line (.mk condition body :: branches) otherwise)) rest''
  | elseif {line offset ts condition rest body rest' branches otherwise rest''} :
    ReadsExpr ts condition rest → Spells (.block branchEnds) rest (.body body) rest' →
    Spells .branches rest' (.tail branches otherwise) rest'' →
    Spells .branches (⟨.word "elseif".toList, line, offset⟩ :: ts)
      (.tail (.mk condition body :: branches) otherwise) rest''
  | otherwise {line offset ts body t rest} :
    Spells (.block lastEnds) ts (.body body) (t :: rest) →
    Spells .branches (⟨.word "else".toList, line, offset⟩ :: ts) (.tail [] (some body)) rest
  | close {name line offset ts} :
    name ≠ "elseif".toList → name ≠ "else".toList →
    Spells .branches (⟨.word name, line, offset⟩ :: ts) (.tail [] none) ts

/-! ## The descent follows the grammar -/

variable {last : Nat} {ends : List Text} {t : Token} {ts : List Token} {name : Text} {line offset : Nat}

def BlockSound (last : Nat) (ends : List Text) (ts : List Token) : Prop :=
  ∀ r, block last ends ts = .ok r → Spells (.block ends) ts (.body r.value) r.rest

def StatementSound (last : Nat) (ts : List Token) : Prop :=
  ∀ r, statement last ts = .ok r → Spells .statement ts (.one r.value) r.rest

def BranchesSound (last : Nat) (ts : List Token) : Prop :=
  ∀ r, branchesAfter last ts = .ok r → Spells .branches ts (.tail r.value.1 r.value.2) r.rest

theorem blockSound_more {here : List Token} (hskip : skipSeparators ts = t :: here)
    (hword : ¬ atWord ends (t :: here) = true) (ih₁ : StatementSound last (t :: here))
    (ih₂ : ∀ rest, rest.length < (t :: here).length → BlockSound last ends rest) :
    BlockSound last ends ts := by
  intro r h
  unfold block at h
  split at h
  · next hnil =>
    rw [hskip] at hnil
    cases hnil
  · next u there hcons =>
    rw [hskip] at hcons
    cases hcons
    rw [if_neg hword] at h
    obtain ⟨⟨first, rest, hlt⟩, h₁, h⟩ := bind_eq_ok.1 h
    dsimp only at h
    by_cases he : endsStatement ends rest = true
    · rw [if_pos he] at h
      obtain ⟨⟨more, rest', hle⟩, h₂, h⟩ := bind_eq_ok.1 h
      cases h
      exact .more hskip (by simpa using hword) (ih₁ _ h₁) he (ih₂ rest hlt _ h₂)
    · rw [if_neg he] at h
      cases h

theorem blockSound_stop {here : List Token} (hskip : skipSeparators ts = t :: here)
    (hword : atWord ends (t :: here) = true) : BlockSound last ends ts := by
  intro r h
  unfold block at h
  split at h
  · next hnil =>
    rw [hskip] at hnil
    cases hnil
  · next u there hcons =>
    rw [hskip] at hcons
    cases hcons
    rw [if_pos hword] at h
    cases h
    exact .stop hskip hword

theorem blockSound_end (hskip : skipSeparators ts = []) : BlockSound last ends ts := by
  intro r h
  unfold block at h
  split at h
  · split at h
    · next hends =>
      cases h
      rw [List.isEmpty_iff.1 hends]
      exact .done hskip
    · cases h
  · next u there hcons =>
    rw [hskip] at hcons
    cases hcons

theorem statementSound_cond
    (ih₁ : ∀ rest, rest.length < ts.length → BlockSound last branchEnds rest)
    (ih₂ : ∀ rest, rest.length < ts.length → BranchesSound last rest) :
    StatementSound last (⟨.word "if".toList, line, offset⟩ :: ts) := by
  intro r h
  unfold statement at h
  rw [if_pos rfl] at h
  obtain ⟨⟨condition, rest, hlt⟩, h₁, h⟩ := bind_eq_ok.1 h
  obtain ⟨⟨body, rest', hle⟩, h₂, h⟩ := bind_eq_ok.1 h
  obtain ⟨⟨⟨branches, otherwise⟩, rest'', hlt'⟩, h₃, h⟩ := bind_eq_ok.1 h
  cases h
  exact .cond (expression_eq_ok.1 ⟨hlt, h₁⟩) (ih₁ rest hlt _ h₂) (ih₂ rest' (by omega) _ h₃)

theorem statementSound_unsupported (hif : name ≠ "if".toList)
    (hu : unsupportedKeywords.contains name = true ∨ isKeyword name = true) :
    StatementSound last (⟨.word name, line, offset⟩ :: ts) := by
  intro r h
  unfold statement at h
  rw [if_neg hif] at h
  by_cases hc : unsupportedKeywords.contains name = true
  · rw [if_pos hc] at h
    cases h
  · rw [if_neg hc, if_pos (hu.resolve_left hc)] at h
    cases h

theorem statementSound_word (hif : name ≠ "if".toList) (hu : ¬ unsupportedKeywords.contains name = true)
    (hkey : ¬ isKeyword name = true) : StatementSound last (⟨.word name, line, offset⟩ :: ts) := by
  intro r h
  have hkey' : isKeyword name = false := by simpa using hkey
  unfold statement at h
  rw [if_neg hif, if_neg hu, if_neg hkey] at h
  split at h
  · next path us hlt hp =>
    obtain ⟨⟨e, rest, hlt'⟩, h₁, h⟩ := bind_eq_ok.1 h
    cases h
    exact .assign hkey' (assignmentPath?_eq_some.1 ⟨hlt, hp⟩) (expression_eq_ok.1 ⟨hlt', h₁⟩)
  · next hp =>
    obtain ⟨⟨e, rest, hlt'⟩, h₁, h⟩ := bind_eq_ok.1 h
    cases h
    exact .evalWord hkey' (assignmentPath?_eq_none.1 hp) (expression_eq_ok.1 ⟨hlt', h₁⟩)

theorem statementSound_other (h : ∀ name line offset rest, ts = ⟨.word name, line, offset⟩ :: rest → False) :
    StatementSound last ts := by
  intro r hr
  cases ts with
  | nil => exact absurd r.lt (Nat.not_lt_zero _)
  | cons t ts =>
    have hx : (expression last (t :: ts) >>= fun x =>
        .ok (⟨.eval t.line x.value, x.rest, x.lt⟩ : Used Statement (t :: ts).length)) = .ok r := by
      obtain ⟨kind, line, offset⟩ := t
      unfold statement at hr
      cases kind with
      | word name => exact (h _ _ _ _ rfl).elim
      | _ => exact hr
    obtain ⟨⟨e, rest, hlt⟩, h₁, hx⟩ := bind_eq_ok.1 hx
    cases hx
    refine .eval (fun name hk => ?_) (expression_eq_ok.1 ⟨hlt, h₁⟩)
    obtain ⟨kind, line, offset⟩ := t
    cases hk
    exact h _ _ _ _ rfl

theorem branchesSound_elseif
    (ih₁ : ∀ rest, rest.length < ts.length → BlockSound last branchEnds rest)
    (ih₂ : ∀ rest, rest.length < ts.length → BranchesSound last rest) :
    BranchesSound last (⟨.word "elseif".toList, line, offset⟩ :: ts) := by
  intro r h
  unfold branchesAfter at h
  rw [if_pos rfl] at h
  obtain ⟨⟨condition, rest, hlt⟩, h₁, h⟩ := bind_eq_ok.1 h
  obtain ⟨⟨body, rest', hle⟩, h₂, h⟩ := bind_eq_ok.1 h
  obtain ⟨⟨⟨branches, otherwise⟩, rest'', hlt'⟩, h₃, h⟩ := bind_eq_ok.1 h
  cases h
  exact .elseif (expression_eq_ok.1 ⟨hlt, h₁⟩) (ih₁ rest hlt _ h₂) (ih₂ rest' (by omega) _ h₃)

/-- A block with words that end it stops at one of them. -/
theorem Spells.atWord_rest {v : Spelled} {rest : List Token} (h : Spells (.block ends) ts v rest)
    (hne : ends ≠ []) : atWord ends rest = true := by
  generalize hp : Part.block ends = part at h
  induction h with
  | done => cases hp; exact (hne rfl).elim
  | stop _ hword => cases hp; exact hword
  | more _ _ _ _ _ _ ih => exact ih hp
  | _ => cases hp

theorem branchesSound_else (ih : BlockSound last lastEnds ts) :
    BranchesSound last (⟨.word "else".toList, line, offset⟩ :: ts) := by
  intro r h
  unfold branchesAfter at h
  rw [if_neg (by decide), if_pos rfl] at h
  obtain ⟨⟨body, rest, hle⟩, h₁, h⟩ := bind_eq_ok.1 h
  have hb := ih _ h₁
  cases rest with
  | nil => cases hb.atWord_rest (by decide)
  | cons t rest =>
    cases h
    exact .otherwise hb

theorem branchesSound_close (hi : name ≠ "elseif".toList) (he : name ≠ "else".toList) :
    BranchesSound last (⟨.word name, line, offset⟩ :: ts) := by
  intro r h
  unfold branchesAfter at h
  rw [if_neg hi, if_neg he] at h
  cases h
  exact .close hi he

theorem branchesSound_other (h : ∀ name line offset rest, ts = ⟨.word name, line, offset⟩ :: rest → False) :
    BranchesSound last ts := by
  intro r hr
  cases ts with
  | nil => exact absurd r.lt (Nat.not_lt_zero _)
  | cons t ts =>
    obtain ⟨kind, line, offset⟩ := t
    unfold branchesAfter at hr
    cases kind with
    | word name => exact (h _ _ _ _ rfl).elim
    | _ => cases hr

/-- Along the recursion of the descent, each part rests on the parts in it. -/
theorem block_sound (last : Nat) (ends : List Text) (ts : List Token) : BlockSound last ends ts := by
  revert ends ts
  apply block.induct (BlockSound last) (StatementSound last) (BranchesSound last)
  case case1 => exact fun _ _ hskip _ => blockSound_end hskip
  case case2 => exact fun _ _ hskip _ => blockSound_end hskip
  case case3 => exact fun _ _ _ _ hskip _ hword => blockSound_stop hskip hword
  case case4 => exact fun _ _ _ _ hskip _ hword => blockSound_more hskip hword
  case case5 => exact fun _ _ _ ih₁ ih₂ => statementSound_cond ih₁ fun rest hlt => ih₂ rest hlt rest (Nat.le_refl _)
  case case6 => exact fun _ _ _ _ hif hu => statementSound_unsupported hif (.inl hu)
  case case7 => exact fun _ _ _ _ hif _ hkey => statementSound_unsupported hif (.inr hkey)
  case case8 => exact fun _ _ _ _ hif hu hkey _ _ _ _ => statementSound_word hif hu hkey
  case case9 => exact fun _ _ _ _ hif hu hkey _ => statementSound_word hif hu hkey
  case case10 => exact fun _ => statementSound_other
  case case11 =>
    exact fun _ _ _ ih₁ ih₂ => branchesSound_elseif ih₁ fun rest hlt => ih₂ rest hlt rest (Nat.le_refl _)
  case case12 => exact fun _ _ _ _ => branchesSound_else
  case case13 => exact fun _ _ _ _ => branchesSound_close
  case case14 => exact fun _ => branchesSound_other

/-! ## The descent reads all that the grammar reads -/

theorem unsupported_of_keyword (h : isKeyword name = false) : ¬ unsupportedKeywords.contains name = true := by
  have hall : ∀ word ∈ unsupportedKeywords, isKeyword word = true := by decide
  intro hu
  rw [hall name (List.contains_iff_mem.1 hu)] at h
  cases h

theorem ne_if_of_keyword (h : isKeyword name = false) : name ≠ "if".toList := by
  rintro rfl
  revert h
  decide

/-- The part at the front of the tokens is read as this, up to this rest. -/
def Builds (last : Nat) (ts : List Token) : Part → Spelled → List Token → Prop
  | .block ends, .body ss, rest => ∃ le, block last ends ts = .ok ⟨ss, rest, le⟩
  | .statement, .one s, rest => ∃ lt, statement last ts = .ok ⟨s, rest, lt⟩
  | .branches, .tail bs otherwise, rest => ∃ lt, branchesAfter last ts = .ok ⟨(bs, otherwise), rest, lt⟩
  | _, _, _ => False

theorem spells_complete (last : Nat) {part : Part} {ts : List Token} {v : Spelled} {rest : List Token}
    (h : Spells part ts v rest) : Builds last ts part v rest := by
  induction h with
  | done hskip =>
    refine ⟨Nat.zero_le _, ?_⟩
    unfold block
    split
    · rfl
    · next hcons =>
      rw [hskip] at hcons
      cases hcons
  | @stop _ ts _ _ hskip hword =>
    refine ⟨hskip ▸ skipSeparators_length ts, ?_⟩
    unfold block
    split
    · next hnil =>
      rw [hskip] at hnil
      cases hnil
    · next u there hcons =>
      rw [hskip] at hcons
      cases hcons
      rw [if_pos hword]
  | @more _ ts _ _ _ _ _ _ hskip hword _ he _ ih₁ ih₂ =>
    obtain ⟨lt, h₁⟩ := ih₁
    obtain ⟨le, h₂⟩ := ih₂
    have hlen := skipSeparators_length ts
    rw [hskip] at hlen
    refine ⟨by simp only [List.length_cons] at lt hlen; omega, ?_⟩
    unfold block
    split
    · next hnil =>
      rw [hskip] at hnil
      cases hnil
    · next u there hcons =>
      rw [hskip] at hcons
      cases hcons
      rw [if_neg (by simp [hword])]
      refine bind_eq_ok.2 ⟨_, h₁, ?_⟩
      dsimp only
      rw [if_pos he]
      exact bind_eq_ok.2 ⟨_, h₂, rfl⟩
  | assign hkey hp hx =>
    obtain ⟨lt, hp⟩ := assignmentPath?_eq_some.2 hp
    obtain ⟨lt', hx⟩ := (@expression_eq_ok last _ _ _).2 hx
    refine ⟨by simp only [List.length_cons]; omega, ?_⟩
    unfold statement
    rw [if_neg (ne_if_of_keyword hkey), if_neg (unsupported_of_keyword hkey), if_neg (by simp [hkey])]
    simp only [hp]
    exact bind_eq_ok.2 ⟨_, hx, rfl⟩
  | evalWord hkey hp hx =>
    obtain ⟨lt, hx⟩ := (@expression_eq_ok last _ _ _).2 hx
    refine ⟨lt, ?_⟩
    unfold statement
    rw [if_neg (ne_if_of_keyword hkey), if_neg (unsupported_of_keyword hkey), if_neg (by simp [hkey])]
    simp only [assignmentPath?_eq_none.2 hp]
    exact bind_eq_ok.2 ⟨_, hx, rfl⟩
  | @eval t ts _ _ hk hx =>
    obtain ⟨lt, hx⟩ := (@expression_eq_ok last _ _ _).2 hx
    refine ⟨lt, ?_⟩
    obtain ⟨kind, line, offset⟩ := t
    unfold statement
    cases kind with
    | word name => exact (hk name rfl).elim
    | _ => exact bind_eq_ok.2 ⟨_, hx, rfl⟩
  | cond hx _ _ ih₁ ih₂ =>
    obtain ⟨lt, hx⟩ := (@expression_eq_ok last _ _ _).2 hx
    obtain ⟨le, h₁⟩ := ih₁
    obtain ⟨lt', h₂⟩ := ih₂
    refine ⟨by simp only [List.length_cons]; omega, ?_⟩
    unfold statement
    rw [if_pos rfl]
    exact bind_eq_ok.2 ⟨_, hx, bind_eq_ok.2 ⟨_, h₁, bind_eq_ok.2 ⟨_, h₂, rfl⟩⟩⟩
  | elseif hx _ _ ih₁ ih₂ =>
    obtain ⟨lt, hx⟩ := (@expression_eq_ok last _ _ _).2 hx
    obtain ⟨le, h₁⟩ := ih₁
    obtain ⟨lt', h₂⟩ := ih₂
    refine ⟨by simp only [List.length_cons]; omega, ?_⟩
    unfold branchesAfter
    rw [if_pos rfl]
    exact bind_eq_ok.2 ⟨_, hx, bind_eq_ok.2 ⟨_, h₁, bind_eq_ok.2 ⟨_, h₂, rfl⟩⟩⟩
  | otherwise _ ih =>
    obtain ⟨le, h⟩ := ih
    refine ⟨by simp only [List.length_cons] at le ⊢; omega, ?_⟩
    unfold branchesAfter
    rw [if_neg (by decide), if_pos rfl]
    exact bind_eq_ok.2 ⟨_, h, rfl⟩
  | close hi he =>
    refine ⟨Nat.lt_succ_self _, ?_⟩
    unfold branchesAfter
    rw [if_neg hi, if_neg he]
    rfl

/-- The tokens spell a program if the grammar reads all of them as a block. -/
theorem ofTokens_eq_ok {ts : List Token} {p : Program} :
    ofTokens ts = .ok p ↔ Spells (.block []) ts (.body p) [] := by
  constructor
  · intro h
    unfold ofTokens at h
    obtain ⟨⟨program, rest, hle⟩, h₁, h⟩ := bind_eq_ok.1 h
    cases rest with
    | nil =>
      cases h
      exact block_sound _ _ _ _ h₁
    | cons t rest => cases h
  · intro h
    obtain ⟨le, h⟩ := spells_complete (lastLine ts) h
    unfold ofTokens
    exact bind_eq_ok.2 ⟨_, h, rfl⟩

/-! ## A line break behind the last line -/

theorem skipSeparators_append {us : List Token} {t : Token} {here : List Token}
    (h : skipSeparators ts = t :: here) : skipSeparators (ts ++ us) = t :: here ++ us := by
  unfold skipSeparators at h ⊢
  rw [List.dropWhile_append, h]
  rfl

theorem Path.append {path : List Text} {us rest : List Token} (h : Path path ts rest) :
    Path path (ts ++ us) (rest ++ us) := by
  induction h with
  | nil => exact .nil
  | cons _ ih => exact .cons ih

theorem Path.of_append {path : List Text} {us rest : List Token} (h : Path path (ts ++ us) rest)
    (hus : ∀ u ∈ us, u.kind.separates = true) : ∃ rest', Path path ts rest' := by
  generalize hvs : ts ++ us = vs at h
  induction h generalizing ts with
  | @nil line offset vs =>
    cases ts with
    | nil =>
      subst hvs
      cases hus _ List.mem_cons_self
    | cons t ts =>
      cases hvs
      exact ⟨ts, .nil⟩
  | @cons _ _ _ _ _ _ vs _ _ ih =>
    match ts with
    | [] =>
      subst hvs
      cases hus _ List.mem_cons_self
    | [t] =>
      simp only [List.cons_append, List.nil_append, List.cons.injEq] at hvs
      obtain ⟨rfl, rfl⟩ := hvs
      cases hus _ List.mem_cons_self
    | t :: t' :: ts =>
      simp only [List.cons_append, List.cons.injEq] at hvs
      obtain ⟨rfl, rfl, hvs⟩ := hvs
      obtain ⟨rest', hp⟩ := ih hvs
      exact ⟨rest', .cons hp⟩

theorem atWord_congr {ts us : List Token} (h : (kinds ts).head? = (kinds us).head?) :
    atWord ends ts = atWord ends us := by
  match ts, us with
  | [], [] => rfl
  | ⟨k, _, _⟩ :: _, ⟨k', _, _⟩ :: _ =>
    simp only [kinds_cons, List.head?_cons, Option.some.injEq] at h
    subst h
    cases k <;> rfl

theorem endsStatement_congr {ts us : List Token} (h : (kinds ts).head? = (kinds us).head?) :
    endsStatement ends ts = endsStatement ends us := by
  match ts, us with
  | [], [] => rfl
  | t :: ts, u :: us =>
    simp only [endsStatement, atWord_congr h]
    simp only [kinds_cons, List.head?_cons, Option.some.injEq] at h
    rw [h]

theorem endsStatement_append {us rest : List Token} (h : endsStatement ends rest = true)
    (hus : ∀ u ∈ us, u.kind.separates = true) : endsStatement ends (rest ++ us) = true := by
  cases rest with
  | cons t rest =>
    rw [← h]
    exact endsStatement_congr rfl
  | nil =>
    cases us with
    | nil => rfl
    | cons u us => simp [endsStatement, hus u List.mem_cons_self]

theorem atWord_cons (us : List Token) : atWord ends (t :: ts ++ us) = atWord ends (t :: ts) :=
  atWord_congr rfl

theorem atWord_nil : atWord [] ts = false := by
  unfold atWord
  split <;> rfl

/-- What is left of separators behind a part: a block with no words that end it takes them. -/
def leftOver : Part → List Token → List Token
  | .block [], _ => []
  | _, us => us

/-- Separators behind a script, such as a line break, change nothing about its program. -/
theorem Spells.append {part : Part} {v : Spelled} {us rest : List Token} (h : Spells part ts v rest)
    (hus : ∀ u ∈ us, u.kind.separates = true) :
    Spells part (ts ++ us) v (rest ++ leftOver part us) := by
  induction h with
  | done hskip =>
    refine .done ?_
    unfold skipSeparators at hskip ⊢
    rw [List.dropWhile_append, hskip]
    exact List.dropWhile_eq_nil_iff.2 hus
  | @stop ends ts t here hskip hword =>
    cases ends with
    | nil =>
      rw [atWord_nil] at hword
      cases hword
    | cons _ _ => exact .stop (skipSeparators_append hskip) ((atWord_cons _).trans hword)
  | more hskip hword _ he _ ih₁ ih₂ =>
    exact .more (skipSeparators_append hskip) ((atWord_cons _).trans hword) ih₁
      (endsStatement_append he hus) ih₂
  | assign hkey hp hx => exact .assign hkey hp.append (hx.append fun u hu => hus u (List.mem_of_mem_head? hu))
  | evalWord hkey hp hx =>
    refine .evalWord hkey (fun path us' hp' => ?_) (hx.append fun u hu => hus u (List.mem_of_mem_head? hu))
    obtain ⟨rest', hp'⟩ := hp'.of_append hus
    exact hp path rest' hp'
  | eval hk hx => exact .eval hk (hx.append fun u hu => hus u (List.mem_of_mem_head? hu))
  | cond hx _ _ ih₁ ih₂ => exact .cond (hx.append fun u hu => hus u (List.mem_of_mem_head? hu)) ih₁ ih₂
  | elseif hx _ _ ih₁ ih₂ => exact .elseif (hx.append fun u hu => hus u (List.mem_of_mem_head? hu)) ih₁ ih₂
  | otherwise _ ih => exact .otherwise ih
  | close hi he => exact .close hi he

theorem ofTokens_append {p : Program} {us : List Token} (h : ofTokens ts = .ok p)
    (hus : ∀ u ∈ us, u.kind.separates = true) : ofTokens (ts ++ us) = .ok p :=
  ofTokens_eq_ok.2 ((ofTokens_eq_ok.1 h).append hus)

end Program

end ConfigScript
