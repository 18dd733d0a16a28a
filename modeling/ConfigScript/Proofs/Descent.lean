import ConfigScript.Proofs.Basic
import ConfigScript.Proofs.Grammar
/-!
# The descent and the grammar

The recursive descent reads an expression exactly if the grammar does, whatever the lines and
offsets of the tokens: `joined_sound` and `reads_complete`. What a step gives rests on what the
steps give that it calls, so there is one lemma for every step and the proof along the recursion
only puts them together.
-/

namespace ConfigScript

namespace Program

/-! ## The descent follows the grammar -/

/-- What a step gives is derived, and what it leaves is a piece at the end of the tokens. -/
def Sound {α : Type} (wrap : α → Parsed) (task : Task) (ts : List Token) (x : Step α ts.length) : Prop :=
  ∀ r, x = .ok r → Reads task (kinds ts) (wrap r.value) (kinds r.rest) ∧ r.rest <:+ ts

def SoundTail (task : Task) (ts : List Token) (x : Tail Expr ts.length) : Prop :=
  ∀ r, x = .ok r → Reads task (kinds ts) (.expr r.value) (kinds r.rest) ∧ r.rest <:+ ts

section Sound

variable {last : Nat} {level : Level} {base left : Expr} {bracket : Bracket} {t : Token} {ts : List Token}

theorem Sound.joined (ih₁ : Sound .expr level.below ts (operand last level ts))
    (ih₂ : ∀ first rest, rest.length < ts.length →
      SoundTail (.joinMore level first) rest (joinMore last level first rest)) :
    Sound .expr (.joined level) ts (joined last level ts) := by
  intro r h
  unfold Program.joined at h
  obtain ⟨⟨first, rest, hlt⟩, h₁, h⟩ := bind_eq_ok.1 h
  obtain ⟨⟨e, rest', hle⟩, h₂, h⟩ := bind_eq_ok.1 h
  cases h
  obtain ⟨hd₁, hs₁⟩ := ih₁ _ h₁
  obtain ⟨hd₂, hs₂⟩ := ih₂ first rest hlt _ h₂
  exact ⟨.joined hd₁ hd₂, hs₂.trans hs₁⟩

theorem SoundTail.joinEnd (h : Ahead (fun k => level.operator? k = none) (kinds ts)) :
    SoundTail (.joinMore level left) ts (joinMore last level left ts) := by
  intro r hr
  unfold joinMore at hr
  cases ts with
  | nil =>
    cases hr
    exact ⟨.joinEnd h, List.suffix_rfl⟩
  | cons t ts =>
    have ht : level.operator? t.kind = none := h _ rfl
    simp only [ht] at hr
    cases hr
    exact ⟨.joinEnd h, List.suffix_rfl⟩

theorem SoundTail.joinOn {op : BinaryOp} (ho : level.operator? t.kind = some op)
    (ih₁ : Sound .expr level.below ts (operand last level ts))
    (ih₂ : ∀ right rest, rest.length < ts.length → SoundTail (.joinMore level (.binary op left right)) rest
      (joinMore last level (.binary op left right) rest)) :
    SoundTail (.joinMore level left) (t :: ts) (joinMore last level left (t :: ts)) := by
  intro r h
  unfold joinMore at h
  simp only [ho] at h
  obtain ⟨⟨right, rest, hlt⟩, h₁, h⟩ := bind_eq_ok.1 h
  obtain ⟨⟨e, rest', hle⟩, h₂, h⟩ := bind_eq_ok.1 h
  cases h
  obtain ⟨hd₁, hs₁⟩ := ih₁ _ h₁
  obtain ⟨hd₂, hs₂⟩ := ih₂ right rest hlt _ h₂
  exact ⟨.joinOn ho hd₁ hd₂, (hs₂.trans hs₁).trans (List.suffix_cons t ts)⟩

theorem Sound.operand {task : Task} {ts : List Token} {x : Step Expr ts.length}
    (hb : level.below = task) (ho : Program.operand last level ts = x) (ih : Sound .expr task ts x) :
    Sound .expr level.below ts (Program.operand last level ts) := by
  rw [hb, ho]
  exact ih

theorem Sound.sign {op : UnaryOp} (hs : sign? t.kind = some op)
    (ih : Sound .expr .signed ts (signed last ts)) :
    Sound .expr .signed (t :: ts) (signed last (t :: ts)) := by
  intro r h
  unfold signed at h
  simp only [hs] at h
  obtain ⟨⟨e, rest, hlt⟩, h₁, h⟩ := bind_eq_ok.1 h
  cases h
  obtain ⟨hd, hs₁⟩ := ih _ h₁
  exact ⟨.sign hs hd, hs₁.trans (List.suffix_cons t ts)⟩

theorem Sound.unsigned (h : Ahead (sign? · = none) (kinds ts))
    (ih : Sound .expr .power ts (power last ts)) : Sound .expr .signed ts (signed last ts) := by
  intro r hr
  have hp : power last ts = .ok r := by
    unfold signed at hr
    cases ts with
    | nil => exact hr
    | cons t ts =>
      have ht : sign? t.kind = none := h _ rfl
      simpa only [ht] using hr
  obtain ⟨hd, hs⟩ := ih r hp
  exact ⟨.unsigned h hd, hs⟩

theorem Sound.power (ih₁ : Sound .expr .attachment ts (attachment last ts))
    (ih₂ : ∀ base rest, rest.length < ts.length →
      SoundTail (.powerMore base) rest (powerMore last base rest)) :
    Sound .expr .power ts (power last ts) := by
  intro r h
  unfold Program.power at h
  obtain ⟨⟨base, rest, hlt⟩, h₁, h⟩ := bind_eq_ok.1 h
  obtain ⟨⟨e, rest', hle⟩, h₂, h⟩ := bind_eq_ok.1 h
  cases h
  obtain ⟨hd₁, hs₁⟩ := ih₁ _ h₁
  obtain ⟨hd₂, hs₂⟩ := ih₂ base rest hlt _ h₂
  exact ⟨.power hd₁ hd₂, hs₂.trans hs₁⟩

theorem SoundTail.powerEnd (h : Ahead (power? · = none) (kinds ts)) :
    SoundTail (.powerMore base) ts (powerMore last base ts) := by
  intro r hr
  unfold powerMore at hr
  cases ts with
  | nil =>
    cases hr
    exact ⟨.powerEnd h, List.suffix_rfl⟩
  | cons t ts =>
    have ht : power? t.kind = none := h _ rfl
    simp only [ht] at hr
    cases hr
    exact ⟨.powerEnd h, List.suffix_rfl⟩

theorem SoundTail.powerOn {op : BinaryOp} (ho : power? t.kind = some op)
    (ih₁ : Sound .expr .exponent ts (exponent last ts))
    (ih₂ : ∀ e rest, rest.length < ts.length → SoundTail (.powerMore (.binary op base e)) rest
      (powerMore last (.binary op base e) rest)) :
    SoundTail (.powerMore base) (t :: ts) (powerMore last base (t :: ts)) := by
  intro r h
  unfold powerMore at h
  simp only [ho] at h
  obtain ⟨⟨right, rest, hlt⟩, h₁, h⟩ := bind_eq_ok.1 h
  obtain ⟨⟨e, rest', hle⟩, h₂, h⟩ := bind_eq_ok.1 h
  cases h
  obtain ⟨hd₁, hs₁⟩ := ih₁ _ h₁
  obtain ⟨hd₂, hs₂⟩ := ih₂ right rest hlt _ h₂
  exact ⟨.powerOn ho hd₁ hd₂, (hs₂.trans hs₁).trans (List.suffix_cons t ts)⟩

theorem Sound.exponentSign {op : UnaryOp} (hs : sign? t.kind = some op)
    (ih : Sound .expr .exponent ts (exponent last ts)) :
    Sound .expr .exponent (t :: ts) (exponent last (t :: ts)) := by
  intro r h
  unfold exponent at h
  simp only [hs] at h
  obtain ⟨⟨e, rest, hlt⟩, h₁, h⟩ := bind_eq_ok.1 h
  cases h
  obtain ⟨hd, hs₁⟩ := ih _ h₁
  exact ⟨.exponentSign hs hd, hs₁.trans (List.suffix_cons t ts)⟩

theorem Sound.exponent (h : Ahead (sign? · = none) (kinds ts))
    (ih : Sound .expr .attachment ts (attachment last ts)) :
    Sound .expr .exponent ts (exponent last ts) := by
  intro r hr
  have hp : attachment last ts = .ok r := by
    unfold Program.exponent at hr
    cases ts with
    | nil => exact hr
    | cons t ts =>
      have ht : sign? t.kind = none := h _ rfl
      simpa only [ht] using hr
  obtain ⟨hd, hs⟩ := ih r hp
  exact ⟨.exponent h hd, hs⟩

theorem Sound.attachment (ih₁ : Sound .expr .primary ts (primary last ts))
    (ih₂ : ∀ base rest, rest.length < ts.length →
      SoundTail (.attached base) rest (attached last base rest)) :
    Sound .expr .attachment ts (attachment last ts) := by
  intro r h
  unfold Program.attachment at h
  obtain ⟨⟨base, rest, hlt⟩, h₁, h⟩ := bind_eq_ok.1 h
  obtain ⟨⟨e, rest', hle⟩, h₂, h⟩ := bind_eq_ok.1 h
  cases h
  obtain ⟨hd₁, hs₁⟩ := ih₁ _ h₁
  obtain ⟨hd₂, hs₂⟩ := ih₂ base rest hlt _ h₂
  exact ⟨.attachment hd₁ hd₂, hs₂.trans hs₁⟩

theorem SoundTail.transpose {line offset : Nat}
    (ih : SoundTail (.attached (.transpose base)) ts (attached last (.transpose base) ts)) :
    SoundTail (.attached base) (⟨.transpose, line, offset⟩ :: ts)
      (attached last base (⟨.transpose, line, offset⟩ :: ts)) := by
  intro r h
  unfold attached at h
  obtain ⟨⟨e, rest, hle⟩, h₁, h⟩ := bind_eq_ok.1 h
  cases h
  obtain ⟨hd, hs⟩ := ih _ h₁
  exact ⟨.transpose hd, hs.trans (List.suffix_cons _ ts)⟩

theorem SoundTail.field {line offset line' offset' : Nat} {name : Text}
    (ih : SoundTail (.attached (.field base name)) ts (attached last (.field base name) ts)) :
    SoundTail (.attached base) (⟨.dot, line, offset⟩ :: ⟨.word name, line', offset'⟩ :: ts)
      (attached last base (⟨.dot, line, offset⟩ :: ⟨.word name, line', offset'⟩ :: ts)) := by
  intro r h
  unfold attached at h
  obtain ⟨⟨e, rest, hle⟩, h₁, h⟩ := bind_eq_ok.1 h
  cases h
  obtain ⟨hd, hs⟩ := ih _ h₁
  exact ⟨.field hd, hs.trans ⟨[_, _], rfl⟩⟩

/-- A dot that no name follows is an error. -/
theorem SoundTail.noField {line offset : Nat}
    (h : ∀ name line offset rest, ts = ⟨.word name, line, offset⟩ :: rest → False) :
    SoundTail (.attached base) (⟨.dot, line, offset⟩ :: ts)
      (attached last base (⟨.dot, line, offset⟩ :: ts)) := by
  intro r hr
  unfold attached at hr
  cases ts with
  | nil => cases hr
  | cons t rest =>
    obtain ⟨kind, line', offset'⟩ := t
    cases kind with
    | word name => exact (h _ _ _ _ rfl).elim
    | _ => cases hr

theorem SoundTail.apply {line offset : Nat}
    (ih₁ : Sound .args (.arguments .round) ts (arguments last .round ts))
    (ih₂ : ∀ args rest, rest.length < ts.length →
      SoundTail (.attached (.apply base args)) rest (attached last (.apply base args) rest)) :
    SoundTail (.attached base) (⟨.opening .round, line, offset⟩ :: ts)
      (attached last base (⟨.opening .round, line, offset⟩ :: ts)) := by
  intro r h
  unfold attached at h
  obtain ⟨⟨args, rest, hlt⟩, h₁, h⟩ := bind_eq_ok.1 h
  obtain ⟨⟨e, rest', hle⟩, h₂, h⟩ := bind_eq_ok.1 h
  cases h
  obtain ⟨hd₁, hs₁⟩ := ih₁ _ h₁
  obtain ⟨hd₂, hs₂⟩ := ih₂ args rest hlt _ h₂
  exact ⟨.apply hd₁ hd₂, (hs₂.trans hs₁).trans (List.suffix_cons _ ts)⟩

theorem SoundTail.brace {line offset : Nat}
    (ih₁ : Sound .args (.arguments .curly) ts (arguments last .curly ts))
    (ih₂ : ∀ args rest, rest.length < ts.length →
      SoundTail (.attached (.brace base args)) rest (attached last (.brace base args) rest)) :
    SoundTail (.attached base) (⟨.opening .curly, line, offset⟩ :: ts)
      (attached last base (⟨.opening .curly, line, offset⟩ :: ts)) := by
  intro r h
  unfold attached at h
  obtain ⟨⟨args, rest, hlt⟩, h₁, h⟩ := bind_eq_ok.1 h
  obtain ⟨⟨e, rest', hle⟩, h₂, h⟩ := bind_eq_ok.1 h
  cases h
  obtain ⟨hd₁, hs₁⟩ := ih₁ _ h₁
  obtain ⟨hd₂, hs₂⟩ := ih₂ args rest hlt _ h₂
  exact ⟨.brace hd₁ hd₂, (hs₂.trans hs₁).trans (List.suffix_cons _ ts)⟩

theorem attached_of_ahead
    (h : Ahead (fun k => k ≠ .transpose ∧ k ≠ .dot ∧ k ≠ .opening .round ∧ k ≠ .opening .curly) (kinds ts)) :
    attached last base ts = .ok ⟨base, ts, Nat.le_refl _⟩ := by
  unfold attached
  split
  · exact absurd rfl (h _ rfl).1
  · exact absurd rfl (h _ rfl).2.1
  · exact absurd rfl (h _ rfl).2.1
  · exact absurd rfl (h _ rfl).2.2.1
  · exact absurd rfl (h _ rfl).2.2.2
  · rfl

theorem SoundTail.attachedEnd
    (h : Ahead (fun k => k ≠ .transpose ∧ k ≠ .dot ∧ k ≠ .opening .round ∧ k ≠ .opening .curly) (kinds ts)) :
    SoundTail (.attached base) ts (attached last base ts) := by
  intro r hr
  rw [attached_of_ahead h] at hr
  cases hr
  exact ⟨.attachedEnd h, List.suffix_rfl⟩

theorem Sound.noArguments (hk : t.kind = .closing bracket) :
    Sound .args (.arguments bracket) (t :: ts) (arguments last bracket (t :: ts)) := by
  intro r h
  unfold arguments at h
  simp only [TokenKind.beq_closing, hk, if_true] at h
  cases h
  exact ⟨by rw [kinds_cons, hk]; exact .noArguments, List.suffix_cons t ts⟩

theorem Sound.arguments (h : Ahead (· ≠ .closing bracket) (kinds ts))
    (ih : Sound .args (.moreArguments bracket) ts (moreArguments last bracket ts)) :
    Sound .args (.arguments bracket) ts (arguments last bracket ts) := by
  intro r hr
  have hm : moreArguments last bracket ts = .ok r := by
    unfold Program.arguments at hr
    cases ts with
    | nil => exact hr
    | cons t ts =>
      have ht : t.kind ≠ .closing bracket := h _ rfl
      simpa only [TokenKind.beq_closing, ht, if_false] using hr
  obtain ⟨hd, hs⟩ := ih r hm
  exact ⟨.arguments h hd, hs⟩

theorem Sound.moreArguments (ih₁ : Sound .expr (.joined .orOr) ts (Program.joined last .orOr ts))
    (ih₂ : ∀ rest, rest.length + 1 < ts.length →
      Sound .args (.moreArguments bracket) rest (moreArguments last bracket rest)) :
    Sound .args (.moreArguments bracket) ts (moreArguments last bracket ts) := by
  intro r h
  unfold Program.moreArguments at h
  obtain ⟨⟨arg, after, hlt⟩, h₁, h⟩ := bind_eq_ok.1 h
  obtain ⟨hd₁, hs₁⟩ := ih₁ _ h₁
  cases after with
  | nil => cases h
  | cons t rest =>
    have hrest := (List.suffix_cons t rest).trans hs₁
    dsimp only at h
    by_cases hc : (t.kind == .comma) = true
    · rw [if_pos hc] at h
      obtain ⟨⟨args, rest', hlt'⟩, h₂, h⟩ := bind_eq_ok.1 h
      cases h
      obtain ⟨hd₂, hs₂⟩ := ih₂ rest hlt _ h₂
      simp only [kinds_cons, TokenKind.beq_comma.1 hc] at hd₁
      exact ⟨.argument hd₁ hd₂, hs₂.trans hrest⟩
    · rw [if_neg hc] at h
      by_cases hb : (t.kind == .closing bracket) = true
      · rw [if_pos hb] at h
        cases h
        simp only [kinds_cons, TokenKind.beq_closing.1 hb] at hd₁
        exact ⟨.lastArgument hd₁, hrest⟩
      · rw [if_neg hb] at h
        cases h

theorem Sound.number {x : Float} (hk : t.kind = .number x) :
    Sound .expr .primary (t :: ts) (primary last (t :: ts)) := by
  intro r h
  unfold primary at h
  simp only [hk] at h
  cases h
  exact ⟨by rw [kinds_cons, hk]; exact .number, List.suffix_cons t ts⟩

theorem Sound.quoted {content : Text} (hk : t.kind = .quoted content) :
    Sound .expr .primary (t :: ts) (primary last (t :: ts)) := by
  intro r h
  unfold primary at h
  simp only [hk] at h
  cases h
  exact ⟨by rw [kinds_cons, hk]; exact .quoted, List.suffix_cons t ts⟩

theorem Sound.word {name : Text} (hk : t.kind = .word name) :
    Sound .expr .primary (t :: ts) (primary last (t :: ts)) := by
  intro r h
  unfold primary at h
  simp only [hk] at h
  by_cases hkey : isKeyword name = true
  · rw [if_pos hkey] at h
    cases h
  · rw [if_neg hkey] at h
    cases h
    exact ⟨by rw [kinds_cons, hk]; exact .word (by simpa using hkey), List.suffix_cons t ts⟩

theorem Sound.group (hk : t.kind = .opening .round)
    (ih : Sound .expr (.joined .orOr) ts (Program.joined last .orOr ts)) :
    Sound .expr .primary (t :: ts) (primary last (t :: ts)) := by
  intro r h
  unfold primary at h
  simp only [hk] at h
  obtain ⟨⟨e, after, hlt⟩, h₁, h⟩ := bind_eq_ok.1 h
  obtain ⟨hd, hs⟩ := ih _ h₁
  cases after with
  | nil => cases h
  | cons u rest =>
    dsimp only at h
    by_cases hb : (u.kind == .closing .round) = true
    · rw [if_pos hb] at h
      cases h
      simp only [kinds_cons, TokenKind.beq_closing.1 hb] at hd
      exact ⟨by rw [kinds_cons, hk]; exact .group hd,
        ((List.suffix_cons u rest).trans hs).trans (List.suffix_cons t ts)⟩
    · rw [if_neg hb] at h
      cases h

theorem Sound.matrix (hk : t.kind = .opening .square)
    (ih : Sound .rows (.rows .square [] []) ts (rowsUpTo last .square [] [] ts)) :
    Sound .expr .primary (t :: ts) (primary last (t :: ts)) := by
  intro r h
  unfold primary at h
  simp only [hk] at h
  obtain ⟨⟨rows, rest, hlt⟩, h₁, h⟩ := bind_eq_ok.1 h
  cases h
  obtain ⟨hd, hs⟩ := ih _ h₁
  exact ⟨by rw [kinds_cons, hk]; exact .matrix hd, hs.trans (List.suffix_cons t ts)⟩

theorem Sound.cell (hk : t.kind = .opening .curly)
    (ih : Sound .rows (.rows .curly [] []) ts (rowsUpTo last .curly [] [] ts)) :
    Sound .expr .primary (t :: ts) (primary last (t :: ts)) := by
  intro r h
  unfold primary at h
  simp only [hk] at h
  obtain ⟨⟨rows, rest, hlt⟩, h₁, h⟩ := bind_eq_ok.1 h
  cases h
  obtain ⟨hd, hs⟩ := ih _ h₁
  exact ⟨by rw [kinds_cons, hk]; exact .cell hd, hs.trans (List.suffix_cons t ts)⟩

variable {row : List Expr} {rows : List (List Expr)}

theorem Sound.rowsEnd (hk : t.kind = .closing bracket) :
    Sound .rows (.rows bracket row rows) (t :: ts) (rowsUpTo last bracket row rows (t :: ts)) := by
  intro r h
  unfold rowsUpTo at h
  rw [if_pos (TokenKind.beq_closing.2 hk)] at h
  cases h
  exact ⟨by rw [kinds_cons, hk]; exact .rowsEnd, List.suffix_cons t ts⟩

theorem Sound.nextRow (hb : ¬ (t.kind == .closing bracket) = true) (hk : (t.kind == .semicolon) = true)
    (ih : Sound .rows (.rows bracket [] (closeRow row rows)) ts
      (rowsUpTo last bracket [] (closeRow row rows) ts)) :
    Sound .rows (.rows bracket row rows) (t :: ts) (rowsUpTo last bracket row rows (t :: ts)) := by
  intro r h
  unfold rowsUpTo at h
  rw [if_neg hb, if_pos hk] at h
  obtain ⟨⟨all, rest, hlt⟩, h₁, h⟩ := bind_eq_ok.1 h
  cases h
  obtain ⟨hd, hs⟩ := ih _ h₁
  exact ⟨by rw [kinds_cons, TokenKind.beq_semicolon.1 hk]; exact .nextRow hd, hs.trans (List.suffix_cons t ts)⟩

theorem Sound.rowsComma (hb : ¬ (t.kind == .closing bracket) = true)
    (hn : ¬ (t.kind == .semicolon) = true) (hk : (t.kind == .comma) = true)
    (ih : Sound .rows (.rows bracket row rows) ts (rowsUpTo last bracket row rows ts)) :
    Sound .rows (.rows bracket row rows) (t :: ts) (rowsUpTo last bracket row rows (t :: ts)) := by
  intro r h
  unfold rowsUpTo at h
  rw [if_neg hb, if_neg hn, if_pos hk] at h
  obtain ⟨⟨all, rest, hlt⟩, h₁, h⟩ := bind_eq_ok.1 h
  cases h
  obtain ⟨hd, hs⟩ := ih _ h₁
  exact ⟨by rw [kinds_cons, TokenKind.beq_comma.1 hk]; exact .rowsComma hd, hs.trans (List.suffix_cons t ts)⟩

theorem Sound.element (hb : ¬ (t.kind == .closing bracket) = true)
    (hn : ¬ (t.kind == .semicolon) = true) (hc : ¬ (t.kind == .comma) = true)
    (ih₁ : Sound .expr (.joined .orOr) (t :: ts) (Program.joined last .orOr (t :: ts)))
    (ih₂ : ∀ e rest, rest.length < (t :: ts).length → Sound .rows (.rows bracket (e :: row) rows) rest
      (rowsUpTo last bracket (e :: row) rows rest)) :
    Sound .rows (.rows bracket row rows) (t :: ts) (rowsUpTo last bracket row rows (t :: ts)) := by
  intro r h
  unfold rowsUpTo at h
  rw [if_neg hb, if_neg hn, if_neg hc] at h
  obtain ⟨⟨e, rest, hlt⟩, h₁, h⟩ := bind_eq_ok.1 h
  obtain ⟨⟨all, rest', hlt'⟩, h₂, h⟩ := bind_eq_ok.1 h
  cases h
  obtain ⟨hd₁, hs₁⟩ := ih₁ _ h₁
  obtain ⟨hd₂, hs₂⟩ := ih₂ e rest hlt _ h₂
  rw [TokenKind.beq_closing] at hb
  rw [TokenKind.beq_semicolon] at hn
  rw [TokenKind.beq_comma] at hc
  exact ⟨.element (by rintro _ ⟨⟩; exact ⟨hb, hn, hc⟩) hd₁ hd₂, hs₂.trans hs₁⟩

/-- A range is one sum, or two or three with colons between. -/
theorem Sound.range (ih₁ : Sound .expr (.joined .sum) ts (Program.joined last .sum ts))
    (ih₂ : ∀ rest, rest.length + 1 < ts.length →
      Sound .expr (.joined .sum) rest (Program.joined last .sum rest)) :
    Sound .expr .range ts (range last ts) := by
  intro r h
  unfold Program.range at h
  obtain ⟨⟨start, after, hlt⟩, h₁, h⟩ := bind_eq_ok.1 h
  obtain ⟨hd₁, hs₁⟩ := ih₁ _ h₁
  cases after with
  | nil =>
    cases h
    exact ⟨.single hd₁ nofun, hs₁⟩
  | cons t rest =>
    obtain ⟨kind, line, offset⟩ := t
    cases kind with
    | colon =>
      dsimp only at h
      obtain ⟨⟨second, after', hlt'⟩, h₂, h⟩ := bind_eq_ok.1 h
      obtain ⟨hd₂, hs₂⟩ := ih₂ rest hlt _ h₂
      have hrest := hs₂.trans ((List.suffix_cons _ rest).trans hs₁)
      cases after' with
      | nil =>
        cases h
        exact ⟨.range hd₁ hd₂ nofun, hrest⟩
      | cons u rest' =>
        obtain ⟨kind', line', offset'⟩ := u
        cases kind' with
        | colon =>
          dsimp only at h
          obtain ⟨⟨stop, after'', hlt''⟩, h₃, h⟩ := bind_eq_ok.1 h
          cases h
          have hlt₃ : rest'.length + 1 < ts.length := by
            simp only [List.length_cons] at hlt hlt'
            omega
          obtain ⟨hd₃, hs₃⟩ := ih₂ rest' hlt₃ _ h₃
          exact ⟨.stepped hd₁ hd₂ hd₃, hs₃.trans ((List.suffix_cons _ rest').trans hrest)⟩
        | _ =>
          cases h
          exact ⟨.range hd₁ hd₂ (by rintro _ ⟨⟩; exact nofun), hrest⟩
    | _ =>
      cases h
      exact ⟨.single hd₁ (by rintro _ ⟨⟩; exact nofun), hs₁⟩

end Sound

/-- Along the recursion of the descent, each step rests on the steps that it calls. -/
theorem joined_sound (last : Nat) (level : Level) (ts : List Token) :
    Sound .expr (.joined level) ts (joined last level ts) := by
  revert level ts
  apply joined.induct
    (fun level ts => Sound .expr (.joined level) ts (joined last level ts))
    (fun level left ts => SoundTail (.joinMore level left) ts (joinMore last level left ts))
    (fun level ts => Sound .expr level.below ts (operand last level ts))
    (fun ts => Sound .expr .signed ts (signed last ts))
    (fun ts => Sound .expr .power ts (power last ts))
    (fun base ts => SoundTail (.powerMore base) ts (powerMore last base ts))
    (fun ts => Sound .expr .exponent ts (exponent last ts))
    (fun ts => Sound .expr .attachment ts (attachment last ts))
    (fun base ts => SoundTail (.attached base) ts (attached last base ts))
    (fun bracket ts => Sound .args (.arguments bracket) ts (arguments last bracket ts))
    (fun bracket ts => Sound .args (.moreArguments bracket) ts (moreArguments last bracket ts))
    (fun ts => Sound .expr .primary ts (primary last ts))
    (fun bracket row rows ts => Sound .rows (.rows bracket row rows) ts (rowsUpTo last bracket row rows ts))
    (fun ts => Sound .expr .range ts (range last ts))
  -- the operators that group to the left
  case case1 => exact fun _ _ => .joined
  case case2 => exact fun _ _ => .joinEnd nofun
  case case3 => exact fun _ _ t _ ho => .joinEnd (ahead_cons.2 ho)
  case case4 => exact fun _ _ _ _ _ ho _ => .joinOn ho
  case case5 => exact fun _ => .operand rfl (by rw [operand])
  case case6 => exact fun _ => .operand rfl (by rw [operand])
  case case7 => exact fun _ => .operand rfl (by rw [operand])
  case case8 => exact fun _ => .operand rfl (by rw [operand])
  case case9 => exact fun _ => .operand rfl (by rw [operand])
  case case10 => exact fun _ => .operand rfl (by rw [operand])
  case case11 => exact fun _ => .operand rfl (by rw [operand])
  -- signs and powers
  case case12 => exact .unsigned nofun
  case case13 => exact fun _ _ _ hs => .sign hs
  case case14 => exact fun _ _ hs => .unsigned (ahead_cons.2 hs)
  case case15 => exact fun _ => .power
  case case16 => exact fun _ => .powerEnd nofun
  case case17 => exact fun _ _ _ ho => .powerEnd (ahead_cons.2 ho)
  case case18 => exact fun _ _ _ _ ho => .powerOn ho
  case case19 => exact .exponent nofun
  case case20 => exact fun _ _ _ hs => .exponentSign hs
  case case21 => exact fun _ _ hs => .exponent (ahead_cons.2 hs)
  -- what is attached behind a primary expression
  case case22 => exact fun _ => .attachment
  case case23 => exact fun _ _ _ _ => .transpose
  case case24 => exact fun _ _ _ _ _ _ _ => .field
  case case25 => exact fun _ _ _ _ => .noField
  case case26 => exact fun _ _ _ _ => .apply
  case case27 => exact fun _ _ _ _ => .brace
  case case28 =>
    intro base ts ht _ hd hr hc
    refine .attachedEnd ?_
    cases ts with
    | nil => exact nofun
    | cons t ts =>
      obtain ⟨kind, line, offset⟩ := t
      refine ahead_cons.2 ⟨?_, ?_, ?_, ?_⟩ <;> rintro rfl
      · exact ht _ _ _ rfl
      · exact hd _ _ _ rfl
      · exact hr _ _ _ rfl
      · exact hc _ _ _ rfl
  case case29 => exact fun _ => .arguments nofun
  case case30 => exact fun _ _ _ hb => .noArguments (TokenKind.beq_closing.1 hb)
  case case31 => exact fun _ _ _ hb => .arguments (ahead_cons.2 (mt TokenKind.beq_closing.2 hb))
  case case32 => exact fun _ _ ih₁ ih₂ => .moreArguments ih₁ fun rest hlt => ih₂ [] default rest hlt
  -- primary expressions
  case case33 =>
    intro r h
    unfold primary at h
    cases h
  case case34 => exact fun _ _ _ hk => .number hk
  case case35 => exact fun _ _ _ hk => .quoted hk
  case case36 => exact fun _ _ _ hk _ => .word hk
  case case37 => exact fun _ _ _ hk _ => .word hk
  case case38 => exact fun _ _ hk => .group hk
  case case39 => exact fun _ _ hk => .matrix hk
  case case40 => exact fun _ _ hk => .cell hk
  case case41 =>
    intro t ts hnum hq hw hr hs hc r h
    unfold primary at h
    split at h
    · next x hk => exact (hnum x hk).elim
    · next content hk => exact (hq content hk).elim
    · next name hk => exact (hw name hk).elim
    · next hk => exact (hr hk).elim
    · next hk => exact (hs hk).elim
    · next hk => exact (hc hk).elim
    · cases h
  case case42 =>
    intro bracket row rows r h
    unfold rowsUpTo at h
    cases h
  case case43 => exact fun _ _ _ _ _ hb => .rowsEnd (TokenKind.beq_closing.1 hb)
  case case44 => exact fun _ _ _ _ _ hb hn => .nextRow hb hn
  case case45 => exact fun _ _ _ _ _ hb hn hc => .rowsComma hb hn hc
  case case46 => exact fun _ _ _ _ _ hb hn hc => .element hb hn hc
  case case47 => exact fun _ ih₁ ih₂ _ => .range ih₁ fun rest hlt => ih₂ [] 0 0 rest hlt

/-! ## The descent reads all that the grammar reads -/

/-- A step succeeds with this value and leaves tokens of these kinds. -/
def Gives {α : Type} {n : Nat} (x : Step α n) (v : α) (rest : List TokenKind) : Prop :=
  ∃ ts lt, x = .ok ⟨v, ts, lt⟩ ∧ kinds ts = rest

def GivesTail {n : Nat} (x : Tail Expr n) (v : Expr) (rest : List TokenKind) : Prop :=
  ∃ ts le, x = .ok ⟨v, ts, le⟩ ∧ kinds ts = rest

theorem kinds_eq_cons {ts : List Token} {k : TokenKind} {ks : List TokenKind} (h : kinds ts = k :: ks) :
    ∃ t rest, ts = t :: rest ∧ t.kind = k ∧ kinds rest = ks := by
  cases ts with
  | nil => cases h
  | cons t rest => exact ⟨t, rest, rfl, (List.cons.inj h).1, (List.cons.inj h).2⟩

section Gives

variable {last : Nat} {level : Level} {base left e e' : Expr} {bracket : Bracket} {t : Token}
  {ts us : List Token} {rest : List TokenKind}

theorem gives_joined {lt} (h₁ : operand last level ts = .ok ⟨left, us, lt⟩)
    (h₂ : GivesTail (joinMore last level left us) e rest) :
    Gives (Program.joined last level ts) e rest := by
  obtain ⟨vs, le, h₂, hr⟩ := h₂
  refine ⟨vs, Nat.lt_of_le_of_lt le lt, ?_, hr⟩
  unfold Program.joined
  exact bind_eq_ok.2 ⟨_, h₁, bind_eq_ok.2 ⟨_, h₂, rfl⟩⟩

theorem givesTail_joinEnd (h : Ahead (fun k => level.operator? k = none) (kinds ts)) :
    GivesTail (joinMore last level left ts) left (kinds ts) := by
  refine ⟨ts, Nat.le_refl _, ?_, rfl⟩
  unfold joinMore
  cases ts with
  | nil => rfl
  | cons t ts => simp only [ahead_cons.1 h]

theorem givesTail_joinOn {op : BinaryOp} {lt} (ho : level.operator? t.kind = some op)
    (h₁ : operand last level ts = .ok ⟨e, us, lt⟩)
    (h₂ : GivesTail (joinMore last level (.binary op left e) us) e' rest) :
    GivesTail (joinMore last level left (t :: ts)) e' rest := by
  obtain ⟨vs, le, h₂, hr⟩ := h₂
  refine ⟨vs, by simp only [List.length_cons]; omega, ?_, hr⟩
  unfold joinMore
  simp only [ho]
  exact bind_eq_ok.2 ⟨_, h₁, bind_eq_ok.2 ⟨_, h₂, rfl⟩⟩

theorem gives_single {lt} (h : joined last .sum ts = .ok ⟨e, us, lt⟩) (ha : Ahead (· ≠ .colon) (kinds us)) :
    Gives (range last ts) e (kinds us) := by
  refine ⟨us, lt, ?_, rfl⟩
  unfold range
  refine bind_eq_ok.2 ⟨_, h, ?_⟩
  cases us with
  | nil => rfl
  | cons t us =>
    obtain ⟨kind, line, offset⟩ := t
    cases kind with
    | colon => exact absurd rfl (ahead_cons.1 ha)
    | _ => rfl

theorem gives_range {line offset : Nat} {lt} {vs : List Token} {lt'}
    (h₁ : joined last .sum ts = .ok ⟨e, ⟨.colon, line, offset⟩ :: us, lt⟩)
    (h₂ : joined last .sum us = .ok ⟨e', vs, lt'⟩) (ha : Ahead (· ≠ .colon) (kinds vs)) :
    Gives (range last ts) (.range e none e') (kinds vs) := by
  simp only [List.length_cons] at lt
  refine ⟨vs, by omega, ?_, rfl⟩
  unfold range
  refine bind_eq_ok.2 ⟨_, h₁, bind_eq_ok.2 ⟨_, h₂, ?_⟩⟩
  cases vs with
  | nil => rfl
  | cons t us =>
    obtain ⟨kind, line, offset⟩ := t
    cases kind with
    | colon => exact absurd rfl (ahead_cons.1 ha)
    | _ => rfl

theorem gives_stepped {line offset line' offset' : Nat} {lt} {vs ws : List Token} {lt' lt''} {stop : Expr}
    (h₁ : joined last .sum ts = .ok ⟨e, ⟨.colon, line, offset⟩ :: us, lt⟩)
    (h₂ : joined last .sum us = .ok ⟨e', ⟨.colon, line', offset'⟩ :: vs, lt'⟩)
    (h₃ : joined last .sum vs = .ok ⟨stop, ws, lt''⟩) :
    Gives (range last ts) (.range e (some e') stop) (kinds ws) := by
  simp only [List.length_cons] at lt lt'
  refine ⟨ws, by omega, ?_, rfl⟩
  unfold range
  exact bind_eq_ok.2 ⟨_, h₁, bind_eq_ok.2 ⟨_, h₂, bind_eq_ok.2 ⟨_, h₃, rfl⟩⟩⟩

theorem gives_sign {op : UnaryOp} (hs : sign? t.kind = some op) (h : Gives (signed last ts) e rest) :
    Gives (signed last (t :: ts)) (.unary op e) rest := by
  obtain ⟨us, lt, h, hr⟩ := h
  refine ⟨us, Nat.lt_succ_of_lt lt, ?_, hr⟩
  unfold signed
  simp only [hs]
  exact bind_eq_ok.2 ⟨_, h, rfl⟩

theorem gives_unsigned (ha : Ahead (sign? · = none) (kinds ts)) (h : Gives (power last ts) e rest) :
    Gives (signed last ts) e rest := by
  unfold signed
  cases ts with
  | nil => exact h
  | cons t ts => simpa only [ahead_cons.1 ha] using h

theorem gives_power {lt} (h₁ : attachment last ts = .ok ⟨base, us, lt⟩)
    (h₂ : GivesTail (powerMore last base us) e rest) : Gives (power last ts) e rest := by
  obtain ⟨vs, le, h₂, hr⟩ := h₂
  refine ⟨vs, Nat.lt_of_le_of_lt le lt, ?_, hr⟩
  unfold power
  exact bind_eq_ok.2 ⟨_, h₁, bind_eq_ok.2 ⟨_, h₂, rfl⟩⟩

theorem givesTail_powerEnd (h : Ahead (power? · = none) (kinds ts)) :
    GivesTail (powerMore last base ts) base (kinds ts) := by
  refine ⟨ts, Nat.le_refl _, ?_, rfl⟩
  unfold powerMore
  cases ts with
  | nil => rfl
  | cons t ts => simp only [ahead_cons.1 h]

theorem givesTail_powerOn {op : BinaryOp} {lt} (ho : power? t.kind = some op)
    (h₁ : exponent last ts = .ok ⟨e, us, lt⟩)
    (h₂ : GivesTail (powerMore last (.binary op base e) us) e' rest) :
    GivesTail (powerMore last base (t :: ts)) e' rest := by
  obtain ⟨vs, le, h₂, hr⟩ := h₂
  refine ⟨vs, by simp only [List.length_cons]; omega, ?_, hr⟩
  unfold powerMore
  simp only [ho]
  exact bind_eq_ok.2 ⟨_, h₁, bind_eq_ok.2 ⟨_, h₂, rfl⟩⟩

theorem gives_exponentSign {op : UnaryOp} (hs : sign? t.kind = some op)
    (h : Gives (exponent last ts) e rest) : Gives (exponent last (t :: ts)) (.unary op e) rest := by
  obtain ⟨us, lt, h, hr⟩ := h
  refine ⟨us, Nat.lt_succ_of_lt lt, ?_, hr⟩
  unfold exponent
  simp only [hs]
  exact bind_eq_ok.2 ⟨_, h, rfl⟩

theorem gives_exponent (ha : Ahead (sign? · = none) (kinds ts)) (h : Gives (attachment last ts) e rest) :
    Gives (exponent last ts) e rest := by
  unfold exponent
  cases ts with
  | nil => exact h
  | cons t ts => simpa only [ahead_cons.1 ha] using h

theorem gives_attachment {lt} (h₁ : primary last ts = .ok ⟨base, us, lt⟩)
    (h₂ : GivesTail (attached last base us) e rest) : Gives (attachment last ts) e rest := by
  obtain ⟨vs, le, h₂, hr⟩ := h₂
  refine ⟨vs, Nat.lt_of_le_of_lt le lt, ?_, hr⟩
  unfold attachment
  exact bind_eq_ok.2 ⟨_, h₁, bind_eq_ok.2 ⟨_, h₂, rfl⟩⟩

theorem givesTail_transpose {line offset : Nat} (h : GivesTail (attached last (.transpose base) ts) e rest) :
    GivesTail (attached last base (⟨.transpose, line, offset⟩ :: ts)) e rest := by
  obtain ⟨us, le, h, hr⟩ := h
  refine ⟨us, Nat.le_succ_of_le le, ?_, hr⟩
  unfold attached
  exact bind_eq_ok.2 ⟨_, h, rfl⟩

theorem givesTail_field {line offset line' offset' : Nat} {name : Text}
    (h : GivesTail (attached last (.field base name) ts) e rest) :
    GivesTail (attached last base (⟨.dot, line, offset⟩ :: ⟨.word name, line', offset'⟩ :: ts)) e rest := by
  obtain ⟨us, le, h, hr⟩ := h
  refine ⟨us, Nat.le_succ_of_le (Nat.le_succ_of_le le), ?_, hr⟩
  unfold attached
  exact bind_eq_ok.2 ⟨_, h, rfl⟩

theorem givesTail_apply {line offset : Nat} {args : List Expr} {lt}
    (h₁ : arguments last .round ts = .ok ⟨args, us, lt⟩)
    (h₂ : GivesTail (attached last (.apply base args) us) e rest) :
    GivesTail (attached last base (⟨.opening .round, line, offset⟩ :: ts)) e rest := by
  obtain ⟨vs, le, h₂, hr⟩ := h₂
  refine ⟨vs, by simp only [List.length_cons]; omega, ?_, hr⟩
  unfold attached
  exact bind_eq_ok.2 ⟨_, h₁, bind_eq_ok.2 ⟨_, h₂, rfl⟩⟩

theorem givesTail_brace {line offset : Nat} {args : List Expr} {lt}
    (h₁ : arguments last .curly ts = .ok ⟨args, us, lt⟩)
    (h₂ : GivesTail (attached last (.brace base args) us) e rest) :
    GivesTail (attached last base (⟨.opening .curly, line, offset⟩ :: ts)) e rest := by
  obtain ⟨vs, le, h₂, hr⟩ := h₂
  refine ⟨vs, by simp only [List.length_cons]; omega, ?_, hr⟩
  unfold attached
  exact bind_eq_ok.2 ⟨_, h₁, bind_eq_ok.2 ⟨_, h₂, rfl⟩⟩

theorem gives_noArguments (hk : t.kind = .closing bracket) :
    Gives (arguments last bracket (t :: ts)) [] (kinds ts) := by
  refine ⟨ts, Nat.lt_succ_self _, ?_, rfl⟩
  unfold arguments
  exact if_pos (TokenKind.beq_closing.2 hk)

theorem gives_arguments {args : List Expr} (ha : Ahead (· ≠ .closing bracket) (kinds ts))
    (h : Gives (moreArguments last bracket ts) args rest) : Gives (arguments last bracket ts) args rest := by
  unfold arguments
  cases ts with
  | nil => exact h
  | cons t ts =>
    obtain ⟨us, lt, h, hr⟩ := h
    exact ⟨us, lt, (if_neg (mt TokenKind.beq_closing.1 (ahead_cons.1 ha))).trans h, hr⟩

theorem gives_argument {args : List Expr} {lt} (h₁ : joined last .orOr ts = .ok ⟨e, t :: us, lt⟩)
    (hk : t.kind = .comma) (h₂ : Gives (moreArguments last bracket us) args rest) :
    Gives (moreArguments last bracket ts) (e :: args) rest := by
  obtain ⟨vs, lt', h₂, hr⟩ := h₂
  refine ⟨vs, by simp only [List.length_cons] at lt; omega, ?_, hr⟩
  rw [moreArguments]
  refine bind_eq_ok.2 ⟨_, h₁, ?_⟩
  dsimp only
  rw [if_pos (TokenKind.beq_comma.2 hk)]
  exact bind_eq_ok.2 ⟨_, h₂, rfl⟩

theorem gives_lastArgument {lt} (h₁ : joined last .orOr ts = .ok ⟨e, t :: us, lt⟩)
    (hk : t.kind = .closing bracket) : Gives (moreArguments last bracket ts) [e] (kinds us) := by
  refine ⟨us, by simp only [List.length_cons] at lt; omega, ?_, rfl⟩
  rw [moreArguments]
  refine bind_eq_ok.2 ⟨_, h₁, ?_⟩
  have hc : ¬ (t.kind == .comma) = true := by
    rw [TokenKind.beq_comma, hk]
    exact nofun
  dsimp only
  rw [if_neg hc, if_pos (TokenKind.beq_closing.2 hk)]
  rfl

theorem gives_word {name : Text} (hk : t.kind = .word name) (hkey : isKeyword name = false) :
    Gives (primary last (t :: ts)) (.name name) (kinds ts) := by
  refine ⟨ts, Nat.lt_succ_self _, ?_, rfl⟩
  unfold primary
  simp only [hk]
  rw [if_neg (by simp [hkey])]

theorem gives_group {line offset : Nat} {lt} (hk : t.kind = .opening .round)
    (h : joined last .orOr ts = .ok ⟨e, ⟨.closing .round, line, offset⟩ :: us, lt⟩) :
    Gives (primary last (t :: ts)) e (kinds us) := by
  refine ⟨us, by simp only [List.length_cons] at lt ⊢; omega, ?_, rfl⟩
  unfold primary
  simp only [hk]
  exact bind_eq_ok.2 ⟨_, h, rfl⟩

theorem gives_matrix {rows : List (List Expr)} (hk : t.kind = .opening .square)
    (h : Gives (rowsUpTo last .square [] [] ts) rows rest) :
    Gives (primary last (t :: ts)) (.matrix rows) rest := by
  obtain ⟨us, lt, h, hr⟩ := h
  refine ⟨us, Nat.lt_succ_of_lt lt, ?_, hr⟩
  unfold primary
  simp only [hk]
  exact bind_eq_ok.2 ⟨_, h, rfl⟩

theorem gives_cell {rows : List (List Expr)} (hk : t.kind = .opening .curly)
    (h : Gives (rowsUpTo last .curly [] [] ts) rows rest) :
    Gives (primary last (t :: ts)) (.cell rows) rest := by
  obtain ⟨us, lt, h, hr⟩ := h
  refine ⟨us, Nat.lt_succ_of_lt lt, ?_, hr⟩
  unfold primary
  simp only [hk]
  exact bind_eq_ok.2 ⟨_, h, rfl⟩

variable {row : List Expr} {rows all : List (List Expr)}

theorem gives_rowsEnd (hk : t.kind = .closing bracket) :
    Gives (rowsUpTo last bracket row rows (t :: ts)) (closeRow row rows).reverse (kinds ts) := by
  refine ⟨ts, Nat.lt_succ_self _, ?_, rfl⟩
  unfold rowsUpTo
  exact if_pos (TokenKind.beq_closing.2 hk)

theorem gives_nextRow (hk : t.kind = .semicolon)
    (h : Gives (rowsUpTo last bracket [] (closeRow row rows) ts) all rest) :
    Gives (rowsUpTo last bracket row rows (t :: ts)) all rest := by
  obtain ⟨us, lt, h, hr⟩ := h
  refine ⟨us, Nat.lt_succ_of_lt lt, ?_, hr⟩
  have hb : ¬ (t.kind == .closing bracket) = true := by
    rw [TokenKind.beq_closing, hk]
    exact nofun
  unfold rowsUpTo
  rw [if_neg hb, if_pos (TokenKind.beq_semicolon.2 hk)]
  exact bind_eq_ok.2 ⟨_, h, rfl⟩

theorem gives_rowsComma (hk : t.kind = .comma) (h : Gives (rowsUpTo last bracket row rows ts) all rest) :
    Gives (rowsUpTo last bracket row rows (t :: ts)) all rest := by
  obtain ⟨us, lt, h, hr⟩ := h
  refine ⟨us, Nat.lt_succ_of_lt lt, ?_, hr⟩
  have hb : ¬ (t.kind == .closing bracket) = true := by
    rw [TokenKind.beq_closing, hk]
    exact nofun
  have hn : ¬ (t.kind == .semicolon) = true := by
    rw [TokenKind.beq_semicolon, hk]
    exact nofun
  unfold rowsUpTo
  rw [if_neg hb, if_neg hn, if_pos (TokenKind.beq_comma.2 hk)]
  exact bind_eq_ok.2 ⟨_, h, rfl⟩

theorem gives_element {lt} (ha : t.kind ≠ .closing bracket ∧ t.kind ≠ .semicolon ∧ t.kind ≠ .comma)
    (h₁ : joined last .orOr (t :: ts) = .ok ⟨e, us, lt⟩)
    (h₂ : Gives (rowsUpTo last bracket (e :: row) rows us) all rest) :
    Gives (rowsUpTo last bracket row rows (t :: ts)) all rest := by
  obtain ⟨vs, lt', h₂, hr⟩ := h₂
  refine ⟨vs, by omega, ?_, hr⟩
  unfold rowsUpTo
  rw [if_neg (mt TokenKind.beq_closing.1 ha.1), if_neg (mt TokenKind.beq_semicolon.1 ha.2.1),
    if_neg (mt TokenKind.beq_comma.1 ha.2.2)]
  exact bind_eq_ok.2 ⟨_, h₁, bind_eq_ok.2 ⟨_, h₂, rfl⟩⟩

end Gives

/-- The step for a task succeeds with what is read. -/
def Accepts (last : Nat) (ts : List Token) : Task → Parsed → List TokenKind → Prop
  | .joined level, .expr e, rest => Gives (joined last level ts) e rest
  | .joinMore level left, .expr e, rest => GivesTail (joinMore last level left ts) e rest
  | .range, .expr e, rest => Gives (range last ts) e rest
  | .signed, .expr e, rest => Gives (signed last ts) e rest
  | .power, .expr e, rest => Gives (power last ts) e rest
  | .powerMore base, .expr e, rest => GivesTail (powerMore last base ts) e rest
  | .exponent, .expr e, rest => Gives (exponent last ts) e rest
  | .attachment, .expr e, rest => Gives (attachment last ts) e rest
  | .attached base, .expr e, rest => GivesTail (attached last base ts) e rest
  | .arguments bracket, .args es, rest => Gives (arguments last bracket ts) es rest
  | .moreArguments bracket, .args es, rest => Gives (moreArguments last bracket ts) es rest
  | .primary, .expr e, rest => Gives (primary last ts) e rest
  | .rows bracket row rows, .rows all, rest => Gives (rowsUpTo last bracket row rows ts) all rest
  | _, _, _ => False

theorem gives_operand {last : Nat} {level : Level} {ts : List Token} {e : Expr} {rest : List TokenKind}
    (h : Accepts last ts level.below (.expr e) rest) : Gives (operand last level ts) e rest := by
  unfold operand
  cases level <;> exact h

/-- Whatever the lines and offsets of the tokens, a derivation is what the step for its task does. -/
theorem reads_complete (last : Nat) {task : Task} {ks : List TokenKind} {v : Parsed}
    {rest : List TokenKind} (h : Reads task ks v rest) :
    ∀ ts, kinds ts = ks → Accepts last ts task v rest := by
  induction h with
  | joined _ _ ih₁ ih₂ =>
    intro ts h
    obtain ⟨us, lt, h₁, hr⟩ := gives_operand (ih₁ ts h)
    exact gives_joined h₁ (ih₂ us hr)
  | joinEnd ha =>
    rintro ts rfl
    exact givesTail_joinEnd ha
  | joinOn ho _ _ ih₁ ih₂ =>
    intro ts h
    obtain ⟨t, ts, rfl, rfl, ht⟩ := kinds_eq_cons h
    obtain ⟨us, lt, h₁, hr⟩ := gives_operand (ih₁ ts ht)
    exact givesTail_joinOn ho h₁ (ih₂ us hr)
  | single _ ha ih =>
    intro ts h
    obtain ⟨us, lt, h, rfl⟩ := ih ts h
    exact gives_single h ha
  | range _ _ ha ih₁ ih₂ =>
    intro ts h
    obtain ⟨us, lt, h₁, hr⟩ := ih₁ ts h
    obtain ⟨⟨_, _, _⟩, us, rfl, rfl, hu⟩ := kinds_eq_cons hr
    obtain ⟨vs, lt', h₂, rfl⟩ := ih₂ us hu
    exact gives_range h₁ h₂ ha
  | stepped _ _ _ ih₁ ih₂ ih₃ =>
    intro ts h
    obtain ⟨us, lt, h₁, hr⟩ := ih₁ ts h
    obtain ⟨⟨_, _, _⟩, us, rfl, rfl, hu⟩ := kinds_eq_cons hr
    obtain ⟨vs, lt', h₂, hr'⟩ := ih₂ us hu
    obtain ⟨⟨_, _, _⟩, vs, rfl, rfl, hv⟩ := kinds_eq_cons hr'
    obtain ⟨ws, lt'', h₃, rfl⟩ := ih₃ vs hv
    exact gives_stepped h₁ h₂ h₃
  | sign hs _ ih =>
    intro ts h
    obtain ⟨t, ts, rfl, rfl, ht⟩ := kinds_eq_cons h
    exact gives_sign hs (ih ts ht)
  | unsigned ha _ ih =>
    rintro ts rfl
    exact gives_unsigned ha (ih ts rfl)
  | power _ _ ih₁ ih₂ =>
    intro ts h
    obtain ⟨us, lt, h₁, hr⟩ := ih₁ ts h
    exact gives_power h₁ (ih₂ us hr)
  | powerEnd ha =>
    rintro ts rfl
    exact givesTail_powerEnd ha
  | powerOn ho _ _ ih₁ ih₂ =>
    intro ts h
    obtain ⟨t, ts, rfl, rfl, ht⟩ := kinds_eq_cons h
    obtain ⟨us, lt, h₁, hr⟩ := ih₁ ts ht
    exact givesTail_powerOn ho h₁ (ih₂ us hr)
  | exponentSign hs _ ih =>
    intro ts h
    obtain ⟨t, ts, rfl, rfl, ht⟩ := kinds_eq_cons h
    exact gives_exponentSign hs (ih ts ht)
  | exponent ha _ ih =>
    rintro ts rfl
    exact gives_exponent ha (ih ts rfl)
  | attachment _ _ ih₁ ih₂ =>
    intro ts h
    obtain ⟨us, lt, h₁, hr⟩ := ih₁ ts h
    exact gives_attachment h₁ (ih₂ us hr)
  | transpose _ ih =>
    intro ts h
    obtain ⟨⟨_, _, _⟩, ts, rfl, rfl, ht⟩ := kinds_eq_cons h
    exact givesTail_transpose (ih ts ht)
  | field _ ih =>
    intro ts h
    obtain ⟨⟨_, _, _⟩, ts, rfl, rfl, h'⟩ := kinds_eq_cons h
    obtain ⟨⟨_, _, _⟩, ts, rfl, rfl, ht⟩ := kinds_eq_cons h'
    exact givesTail_field (ih ts ht)
  | apply _ _ ih₁ ih₂ =>
    intro ts h
    obtain ⟨⟨_, _, _⟩, ts, rfl, rfl, ht⟩ := kinds_eq_cons h
    obtain ⟨us, lt, h₁, hr⟩ := ih₁ ts ht
    exact givesTail_apply h₁ (ih₂ us hr)
  | brace _ _ ih₁ ih₂ =>
    intro ts h
    obtain ⟨⟨_, _, _⟩, ts, rfl, rfl, ht⟩ := kinds_eq_cons h
    obtain ⟨us, lt, h₁, hr⟩ := ih₁ ts ht
    exact givesTail_brace h₁ (ih₂ us hr)
  | attachedEnd ha =>
    rintro ts rfl
    exact ⟨ts, Nat.le_refl _, attached_of_ahead ha, rfl⟩
  | noArguments =>
    intro ts h
    obtain ⟨t, ts, rfl, hk, rfl⟩ := kinds_eq_cons h
    exact gives_noArguments hk
  | arguments ha _ ih =>
    rintro ts rfl
    exact gives_arguments ha (ih ts rfl)
  | argument _ _ ih₁ ih₂ =>
    intro ts h
    obtain ⟨us, lt, h₁, hr⟩ := ih₁ ts h
    obtain ⟨t, us, rfl, hk, hu⟩ := kinds_eq_cons hr
    exact gives_argument h₁ hk (ih₂ us hu)
  | lastArgument _ ih =>
    intro ts h
    obtain ⟨us, lt, h₁, hr⟩ := ih ts h
    obtain ⟨t, us, rfl, hk, rfl⟩ := kinds_eq_cons hr
    exact gives_lastArgument h₁ hk
  | number =>
    intro ts h
    obtain ⟨⟨_, _, _⟩, ts, rfl, rfl, rfl⟩ := kinds_eq_cons h
    exact ⟨ts, Nat.lt_succ_self _, by unfold primary; rfl, rfl⟩
  | quoted =>
    intro ts h
    obtain ⟨⟨_, _, _⟩, ts, rfl, rfl, rfl⟩ := kinds_eq_cons h
    exact ⟨ts, Nat.lt_succ_self _, by unfold primary; rfl, rfl⟩
  | word hkey =>
    intro ts h
    obtain ⟨t, ts, rfl, hk, rfl⟩ := kinds_eq_cons h
    exact gives_word hk hkey
  | group _ ih =>
    intro ts h
    obtain ⟨t, ts, rfl, hk, ht⟩ := kinds_eq_cons h
    obtain ⟨us, lt, h₁, hr⟩ := ih ts ht
    obtain ⟨⟨_, _, _⟩, us, rfl, rfl, rfl⟩ := kinds_eq_cons hr
    exact gives_group hk h₁
  | matrix _ ih =>
    intro ts h
    obtain ⟨t, ts, rfl, hk, ht⟩ := kinds_eq_cons h
    exact gives_matrix hk (ih ts ht)
  | cell _ ih =>
    intro ts h
    obtain ⟨t, ts, rfl, hk, ht⟩ := kinds_eq_cons h
    exact gives_cell hk (ih ts ht)
  | rowsEnd =>
    intro ts h
    obtain ⟨t, ts, rfl, hk, rfl⟩ := kinds_eq_cons h
    exact gives_rowsEnd hk
  | nextRow _ ih =>
    intro ts h
    obtain ⟨t, ts, rfl, hk, ht⟩ := kinds_eq_cons h
    exact gives_nextRow hk (ih ts ht)
  | rowsComma _ ih =>
    intro ts h
    obtain ⟨t, ts, rfl, hk, ht⟩ := kinds_eq_cons h
    exact gives_rowsComma hk (ih ts ht)
  | element ha _ _ ih₁ ih₂ =>
    rintro ts rfl
    obtain ⟨us, lt, h₁, hr⟩ := ih₁ ts rfl
    cases ts with
    | nil => cases lt
    | cons t ts => exact gives_element (ahead_cons.1 ha) h₁ (ih₂ us hr)

end Program

end ConfigScript
