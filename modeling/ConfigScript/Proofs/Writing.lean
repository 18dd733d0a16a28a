import ConfigScript.Proofs.Numerals
import ConfigScript.Proofs.Scanning
import ConfigScript.Proofs.Statements
import Mathlib.Data.List.Forall2
/-!
# Expressions in writing

`Writes t e` says that the text is read as the expression wherever an operand may stand and something
delimits it: its lexemes are the same in every such place (`Emits`), and the grammar makes the
expression of their kinds (`Parses`). Numerals, quotations, names, calls and brackets of rows are
written from what stands in them.
-/

namespace ConfigScript

namespace Token

open Program (nest Continues Ahead ahead_cons Reads Starts)

variable {gs gs' : List Bracket} {sp : Bool} {ks ks' ks₀ : List TokenKind} {c : Char} {t u rest : Text}
  {k : TokenKind} {l : Lexeme}

/-! ## Scanning from what lexemes see -/

/-- What lexemes see of a state: the open brackets, whether blanks were passed, and the kinds of the
tokens, latest first. -/
structure View where
  groups : List Bracket
  spaced : Bool
  collected : List TokenKind

def Scan.view (s : Scan) : View := ⟨s.groups, s.spaced, kinds s.tokens⟩

/-- From every state that looks like `v` the scan passes from `t` to `t'` and then looks like `v'`. -/
def Goes (v : View) (t : Text) (v' : View) (t' : Text) : Prop :=
  ∀ s : Scan, s.view = v → ∃ s', Run s t s' t' ∧ s'.view = v'

theorem Goes.trans {v v₁ v₂ : View} {t t₁ t₂ : Text} (h : Goes v t v₁ t₁) (h' : Goes v₁ t₁ v₂ t₂) :
    Goes v t v₂ t₂ := by
  intro s hs
  obtain ⟨s₁, hr, hs₁⟩ := h s hs
  obtain ⟨s₂, hr', hs₂⟩ := h' s₁ hs₁
  exact ⟨s₂, hr.trans hr', hs₂⟩

theorem goes_nil {v : View} : Goes v t v t := fun s hs => ⟨s, .nil, hs⟩

theorem goes_blank : Goes ⟨gs, sp, ks⟩ (' ' :: t) ⟨gs, true, ks⟩ t := by
  rintro s hs
  cases hs
  exact ⟨_, .single (.blank rfl), rfl⟩

/-- The last token ends an operand. -/
def endsOperand (ks : List TokenKind) : Bool := ks.head?.any (·.endsOperand)

theorem Scan.afterOperand_eq (s : Scan) : s.afterOperand = endsOperand (kinds s.tokens) := by
  unfold Scan.afterOperand endsOperand
  cases s.tokens <;> rfl

/-- A lexeme is taken as it is where no comma is read in front of it. -/
theorem goes_lexeme (hsep : endsOperand ks = false ∨ sp = false ∨ startsElement c t.head? = false)
    (hat : AtLexeme c t) (hl : lexeme (endsOperand ks && !sp) c t = .ok l) (hk : l.kind ≠ .newline)
    (hg : nest gs l.kind = some gs') : Goes ⟨gs, sp, ks⟩ (c :: t) ⟨gs', false, l.kind :: ks⟩ l.rest := by
  rintro s hs
  cases hs
  have hsame : s.separated c t.head? = s := by
    unfold Scan.separated
    rw [s.afterOperand_eq]
    rcases hsep with h | h | h <;> simp [h]
  have hkind : s.settledKind l.kind = l.kind := by
    have hne : (l.kind == .newline) = false := by
      cases hkind : l.kind with
      | newline => exact (hk hkind).elim
      | _ => rfl
    simp [Scan.settledKind, hne]
  have htake := Scan.take_eq_ok.2 ⟨gs', hkind.symm ▸ hg, rfl⟩
  rw [hkind] at htake
  refine ⟨_, .single (.token hat ?_ ((congrArg (Scan.take · l) hsame).trans htake)), rfl⟩
  rw [hsame, s.afterOperand_eq]
  exact hl

/-! ## Single marks -/

/-- Characters that are a token of their own wherever they stand. -/
inductive Mark : Char → TokenKind → Prop
  | comma : Mark ',' .comma
  | semicolon : Mark ';' .semicolon
  | minus : Mark '-' .minus
  | opening (b : Bracket) : Mark b.opening (.opening b)
  | closing (b : Bracket) : Mark b.closing (.closing b)

theorem lexeme_mark (h : Mark c k) (transposes : Bool) (t : Text) :
    lexeme transposes c t = .ok ⟨k, [c], t⟩ := by
  have ho : operator? c t.head? = some (k, false) := by
    rcases h with _ | _ | _ | b | b
    all_goals try rcases b with _ | _ | _
    all_goals
      unfold operator?
      split <;> simp_all [Bracket.opening, Bracket.closing]
  have hc : c.isDigit = false ∧ c.isAlpha = false := by
    rcases h with _ | _ | _ | b | b
    all_goals try rcases b with _ | _ | _
    all_goals decide
  have hne : c ≠ '.' ∧ c ≠ '\x27' ∧ c ≠ '"' := by
    rcases h with _ | _ | _ | b | b
    all_goals try rcases b with _ | _ | _
    all_goals decide
  rw [lexeme_eq hc hne, ho]

theorem atLexeme_mark (h : Mark c k) (t : Text) : AtLexeme c t := by
  rcases h with _ | _ | _ | b | b
  all_goals try rcases b with _ | _ | _
  all_goals exact ⟨rfl, rfl, by decide⟩

theorem goes_mark (h : Mark c k)
    (hsep : endsOperand ks = false ∨ sp = false ∨ startsElement c t.head? = false)
    (hg : nest gs k = some gs') : Goes ⟨gs, sp, ks⟩ (c :: t) ⟨gs', false, k :: ks⟩ t := by
  have hk : k ≠ .newline := by
    cases h <;> exact nofun
  exact goes_lexeme (l := ⟨k, [c], t⟩) hsep (atLexeme_mark h t) (lexeme_mark h _ t) hk hg

/-- A delimiter never begins an element. -/
theorem goes_delimiter (h : Mark c k) (hc : c ∈ [',', ';', ')', ']', '\x7d']) (hg : nest gs k = some gs') :
    Goes ⟨gs, sp, ks⟩ (c :: t) ⟨gs', false, k :: ks⟩ t := by
  refine goes_mark h (.inr (.inr ?_)) hg
  simp only [List.mem_cons, List.not_mem_nil, or_false] at hc
  rcases hc with rfl | rfl | rfl | rfl | rfl <;> rfl

theorem goes_closing (b : Bracket) :
    Goes ⟨b :: gs, sp, ks⟩ (b.closing :: t) ⟨gs, false, .closing b :: ks⟩ t :=
  goes_delimiter (.closing b) (by cases b <;> decide) (if_pos rfl)

/-! ## Texts that emit tokens -/

/-- Where an operand may stand, and in front of a delimiter, the text has these kinds of tokens. -/
def Emits (t : Text) (ks : List TokenKind) : Prop :=
  ∀ gs sp ks₀ rest, endsOperand ks₀ = false → Delimits rest →
    ∃ sp', Goes ⟨gs, sp, ks₀⟩ (t ++ rest) ⟨gs, sp', ks.reverse ++ ks₀⟩ rest

theorem emits_nil : Emits [] [] := fun _ sp _ _ _ _ => ⟨sp, goes_nil⟩

/-- A text of one lexeme. -/
theorem emits_lexeme (hat : ∀ rest, AtLexeme c (t ++ rest))
    (hl : ∀ rest, Delimits rest → lexeme false c (t ++ rest) = .ok ⟨k, c :: t, rest⟩) (hk : k ≠ .newline)
    (hn : ∀ gs, nest gs k = some gs) : Emits (c :: t) [k] := by
  intro gs sp ks₀ rest hks hrest
  have h : Goes ⟨gs, sp, ks₀⟩ (c :: (t ++ rest)) ⟨gs, false, k :: ks₀⟩ rest := by
    refine goes_lexeme (l := ⟨k, c :: t, rest⟩) (.inl hks) (hat rest) ?_ hk (hn gs)
    rw [hks]
    exact hl rest hrest
  exact ⟨false, h⟩

theorem emits_minus (h : Emits t ks) : Emits ('-' :: t) (.minus :: ks) := by
  intro gs sp ks₀ rest hks hrest
  obtain ⟨sp', h⟩ := h gs false (.minus :: ks₀) rest rfl hrest
  refine ⟨sp', ?_⟩
  rw [List.reverse_cons, List.append_assoc]
  exact (goes_mark .minus (.inl hks) rfl).trans h

/-- The characters between elements and between rows. -/
inductive Separator : Char → TokenKind → Prop
  | comma : Separator ',' .comma
  | semicolon : Separator ';' .semicolon

/-- The kinds of a list, with a kind between neighbours. -/
def listed (k : TokenKind) (kss : List (List TokenKind)) : List TokenKind := (kss.intersperse [k]).flatten

theorem listed_single (k : TokenKind) (ks : List TokenKind) : listed k [ks] = ks := by
  simp [listed]

theorem listed_cons (k : TokenKind) (ks ks' : List TokenKind) (kss : List (List TokenKind)) :
    listed k (ks :: ks' :: kss) = ks ++ k :: listed k (ks' :: kss) := by
  simp [listed]

/-- The texts with a separator and a blank between neighbours. -/
theorem emits_join (hs : Separator c k) {ts : List Text} {kss : List (List TokenKind)}
    (h : List.Forall₂ Emits ts kss) : Emits (Text.join [c, ' '] ts) (listed k kss) := by
  obtain ⟨hm, hmem, hnest, hends⟩ : Mark c k ∧ c ∈ [',', ';', ')', ']', '\x7d'] ∧
      (∀ gs, nest gs k = some gs) ∧ ∀ ks, endsOperand (k :: ks) = false := by
    cases hs with
    | comma => exact ⟨.comma, by decide, fun _ => rfl, fun _ => rfl⟩
    | semicolon => exact ⟨.semicolon, by decide, fun _ => rfl, fun _ => rfl⟩
  induction h with
  | nil => exact emits_nil
  | @cons t ks ts kss hfirst hrest ih =>
    cases hrest with
    | nil => simpa [Text.join, listed_single] using hfirst
    | @cons t' ks' ts kss h' htail =>
      intro gs sp ks₀ rest hks hrest
      obtain ⟨sp₁, h₁⟩ := hfirst gs sp ks₀ (c :: ' ' :: (Text.join [c, ' '] (t' :: ts) ++ rest)) hks
        (delimits_cons.2 hmem)
      obtain ⟨sp₂, h₂⟩ := ih gs true (k :: (ks.reverse ++ ks₀)) rest (hends _) hrest
      refine ⟨sp₂, ?_⟩
      have h := h₁.trans ((goes_delimiter hm hmem (hnest gs)).trans (goes_blank.trans h₂))
      simpa [Text.join, listed_cons, List.append_assoc] using h

/-- A bracket and what stands in it. -/
theorem goes_bracket (b : Bracket) (h : Emits t ks)
    (hsep : endsOperand ks₀ = false ∨ sp = false ∨ startsElement b.opening (t ++ b.closing :: rest).head? = false) :
    Goes ⟨gs, sp, ks₀⟩ (b.opening :: (t ++ b.closing :: rest))
      ⟨gs, false, .closing b :: (ks.reverse ++ .opening b :: ks₀)⟩ rest := by
  have hdelimits : Delimits (b.closing :: rest) := delimits_cons.2 (by cases b <;> decide)
  obtain ⟨sp', h⟩ := h (b :: gs) false (.opening b :: ks₀) (b.closing :: rest) rfl hdelimits
  exact (goes_mark (.opening b) hsep rfl).trans (h.trans (goes_closing b))

theorem emits_bracket (b : Bracket) (h : Emits t ks) :
    Emits (b.opening :: (t ++ [b.closing])) (.opening b :: (ks ++ [.closing b])) := by
  intro gs sp ks₀ rest hks _
  refine ⟨false, ?_⟩
  have h : Goes ⟨gs, sp, ks₀⟩ (b.opening :: (t ++ b.closing :: rest))
      ⟨gs, false, .closing b :: (ks.reverse ++ .opening b :: ks₀)⟩ rest := goes_bracket b h (.inl hks)
  simpa using h

/-! ## Kinds of tokens that parse -/

/-- In front of what does not go on with an expression the kinds are this one. -/
def Stands (ks : List TokenKind) (e : Expr) : Prop :=
  ∀ rest, Ahead (¬ Continues ·) rest → Reads (.joined .orOr) (ks ++ rest) (.expr e) rest

/-- The kinds are this expression, and no operator outside of brackets belongs to it but signs. -/
def Parses (ks : List TokenKind) (e : Expr) : Prop :=
  ∀ rest, Ahead (¬ Continues ·) rest → Reads .signed (ks ++ rest) (.expr e) rest

theorem joined_of_signed {e : Expr} {rest : List TokenKind} (h : Reads .signed ks (.expr e) rest)
    (ha : Ahead (¬ Continues ·) rest) (level : Program.Level) : Reads (.joined level) ks (.expr e) rest := by
  have hend : ∀ level : Program.Level, Ahead (fun k => level.operator? k = none) rest :=
    fun level k hk => Program.operator?_eq_none (ha k hk) level
  have hcolon : Ahead (· ≠ .colon) rest := by
    rintro k hk rfl
    exact ha _ hk .colon
  have hproduct : Reads (.joined .product) ks (.expr e) rest := .joined h (.joinEnd (hend _))
  have hsum : Reads (.joined .sum) ks (.expr e) rest := .joined hproduct (.joinEnd (hend _))
  have hcomparison : Reads (.joined .comparison) ks (.expr e) rest := .joined (.single hsum hcolon) (.joinEnd (hend _))
  have hand : Reads (.joined .and) ks (.expr e) rest := .joined hcomparison (.joinEnd (hend _))
  have hor : Reads (.joined .or) ks (.expr e) rest := .joined hand (.joinEnd (hend _))
  have handAnd : Reads (.joined .andAnd) ks (.expr e) rest := .joined hor (.joinEnd (hend _))
  have horOr : Reads (.joined .orOr) ks (.expr e) rest := .joined handAnd (.joinEnd (hend _))
  cases level <;> assumption

theorem Parses.stands {e : Expr} (h : Parses ks e) : Stands ks e := fun rest ha => joined_of_signed (h rest ha) ha _

theorem attachedEnd_of_not_continues {base : Expr} {rest : List TokenKind} (ha : Ahead (¬ Continues ·) rest) :
    Reads (.attached base) rest (.expr base) rest := by
  refine .attachedEnd fun k hk => ⟨?_, ?_, ?_, ?_⟩
  all_goals
    rintro rfl
    have := ha _ hk
  · exact this .transpose
  · exact this .dot
  · exact this .round
  · exact this .curly

/-- What is no sign and reads as an attachment. -/
theorem signed_of_attachment {e : Expr} {rest : List TokenKind} (h : Reads .attachment ks (.expr e) rest)
    (hs : Ahead (Program.sign? · = none) ks) (ha : Ahead (¬ Continues ·) rest) :
    Reads .signed ks (.expr e) rest :=
  .unsigned hs (.power h (.powerEnd fun k hk => Program.power?_eq_none (ha k hk)))

theorem parses_single {e : Expr} (hs : Program.sign? k = none)
    (h : ∀ rest, Reads .primary (k :: rest) (.expr e) rest) : Parses [k] e := fun rest ha =>
  signed_of_attachment (.attachment (h rest) (attachedEnd_of_not_continues ha)) (ahead_cons.2 hs) ha

theorem parses_minus {e : Expr} (h : Parses ks e) : Parses (.minus :: ks) (.unary .negate e) :=
  fun rest ha => .sign rfl (h rest ha)

theorem not_continues_comma : ¬ Continues .comma := Program.not_continues_of_separates rfl

theorem not_continues_closing (b : Bracket) : ¬ Continues (.closing b) := by
  intro hc
  cases hc with
  | @operator level _ _ ho => cases level <;> cases ho
  | power ho => cases ho

theorem not_continues_semicolon : ¬ Continues .semicolon := Program.not_continues_of_separates rfl

/-- How the kinds of an expression begin. -/
theorem Stands.ahead {e : Expr} (h : Stands ks e) (rest : List TokenKind) :
    ∃ k ls, ks ++ rest = k :: ls ∧ Starts k := by
  have hr := h [] nofun
  rw [List.append_nil] at hr
  obtain ⟨k, ls, rfl, hs⟩ := hr.starts rfl
  exact ⟨k, ls ++ rest, rfl, hs⟩

variable {b : Bracket} {es : List Expr} {kss : List (List TokenKind)}

theorem moreArguments_of_stands {e : Expr} (h : List.Forall₂ Stands (ks :: kss) (e :: es))
    (rest : List TokenKind) :
    Reads (.moreArguments b) (listed .comma (ks :: kss) ++ .closing b :: rest) (.args (e :: es)) rest := by
  induction kss generalizing ks e es with
  | nil =>
    obtain ⟨hfirst, ⟨⟩⟩ := List.forall₂_cons.1 h
    rw [listed_single]
    exact .lastArgument (hfirst _ (ahead_cons.2 (not_continues_closing b)))
  | cons ks' kss ih =>
    obtain ⟨hfirst, hmore⟩ := List.forall₂_cons.1 h
    cases hmore with
    | cons h' hrest =>
      rw [listed_cons, List.append_assoc, List.cons_append]
      exact .argument (hfirst _ (ahead_cons.2 not_continues_comma)) (ih (.cons h' hrest))

theorem arguments_of_stands (h : List.Forall₂ Stands kss es) (rest : List TokenKind) :
    Reads (.arguments b) (listed .comma kss ++ .closing b :: rest) (.args es) rest := by
  cases h with
  | nil => exact .noArguments
  | @cons ks e kss es hfirst hmore =>
    have hall := moreArguments_of_stands (b := b) (.cons hfirst hmore) rest
    refine .arguments ?_ hall
    -- the list begins as its first element does
    obtain ⟨more, hlisted⟩ : ∃ more, listed .comma (ks :: kss) ++ .closing b :: rest = ks ++ more := by
      cases kss with
      | nil => exact ⟨_, by rw [listed_single]⟩
      | cons ks' kss => exact ⟨_, by rw [listed_cons, List.append_assoc]⟩
    obtain ⟨k, ls, hk, hs⟩ := hfirst.ahead more
    rw [hlisted, hk]
    exact ahead_cons.2 (hs.ne_closing b)

/-- The elements of a row, in front of what ends the row. -/
theorem row_of_stands (h : List.Forall₂ Stands kss es) {row : List Expr} {rows all : List (List Expr)}
    {rest rest' : List TokenKind} (hrest : Ahead (¬ Continues ·) rest)
    (hr : Reads (.rows b (es.reverse ++ row) rows) rest (.rows all) rest') :
    Reads (.rows b row rows) (listed .comma kss ++ rest) (.rows all) rest' := by
  induction h generalizing row with
  | nil => exact hr
  | @cons ks e kss es hfirst hmore ih =>
    have helement : ∀ more, Ahead (¬ Continues ·) more →
        Reads (.rows b (e :: row) rows) more (.rows all) rest' →
        Reads (.rows b row rows) (ks ++ more) (.rows all) rest' := by
      intro more hend hgo
      obtain ⟨k, ls, hk, hs⟩ := hfirst.ahead more
      refine .element ?_ (hfirst more hend) hgo
      rw [hk]
      refine ahead_cons.2 ⟨hs.ne_closing b, ?_, ?_⟩
      · rintro rfl
        cases hs.begins.1
      · rintro rfl
        cases hs.begins.1
    rw [List.reverse_cons, List.append_assoc] at hr
    cases hmore with
    | nil =>
      rw [listed_single]
      exact helement rest hrest hr
    | cons h' hmore' =>
      rw [listed_cons, List.append_assoc, List.cons_append]
      exact helement _ (ahead_cons.2 not_continues_comma) (.rowsComma (ih hr))

theorem rows_of_stands {ksss : List (List (List TokenKind))} {ess : List (List Expr)}
    (h : List.Forall₂ (List.Forall₂ Stands) ksss ess) (hne : ∀ es ∈ ess, es ≠ []) (rows : List (List Expr))
    (rest : List TokenKind) :
    Reads (.rows b [] rows) (listed .semicolon (ksss.map (listed .comma)) ++ .closing b :: rest)
      (.rows (rows.reverse ++ ess)) rest := by
  induction h generalizing rows with
  | nil =>
    rw [List.append_nil]
    exact .rowsEnd
  | @cons kss es ksss ess hfirst hmore ih =>
    have hclose : Program.closeRow (es.reverse ++ []) rows = es :: rows := by
      have hes : es ≠ [] := hne es List.mem_cons_self
      simp [Program.closeRow, hes]
    cases hmore with
    | nil =>
      rw [List.map_singleton, listed_single]
      refine row_of_stands hfirst (ahead_cons.2 (not_continues_closing b)) ?_
      have hend := @Reads.rowsEnd b (es.reverse ++ []) rows rest
      rwa [hclose, List.reverse_cons] at hend
    | @cons kss' es' ksss ess h' hmore' =>
      rw [List.map_cons, List.map_cons, listed_cons, List.append_assoc, List.cons_append]
      refine row_of_stands hfirst (ahead_cons.2 not_continues_semicolon) (.nextRow ?_)
      have hnext := ih (fun es hes => hne es (List.mem_cons_of_mem _ hes)) (es :: rows)
      rw [List.reverse_cons, List.append_assoc] at hnext
      rwa [hclose]

theorem parses_call {w : Text} (hw : isKeyword w = false)
    (h : List.Forall₂ Parses kss es) :
    Parses (.word w :: .opening .round :: (listed .comma kss ++ [.closing .round])) (.apply (.name w) es) := by
  intro rest ha
  have hargs := arguments_of_stands (b := .round) (h.imp fun _ _ => Parses.stands) rest
  refine signed_of_attachment (.attachment (.word hw) (.apply ?_ (attachedEnd_of_not_continues ha)))
    (ahead_cons.2 rfl) ha
  simpa using hargs

theorem parses_square {ksss : List (List (List TokenKind))} {ess : List (List Expr)}
    (h : List.Forall₂ (List.Forall₂ Parses) ksss ess) (hne : ∀ es ∈ ess, es ≠ []) :
    Parses (.opening .square :: (listed .semicolon (ksss.map (listed .comma)) ++ [.closing .square]))
      (.matrix ess) := by
  intro rest ha
  have hstands := h.imp fun _ _ => List.Forall₂.imp fun _ _ => Parses.stands
  have hrows := rows_of_stands (b := .square) hstands hne [] rest
  refine signed_of_attachment (.attachment (.matrix ?_) (attachedEnd_of_not_continues ha)) (ahead_cons.2 rfl) ha
  simpa using hrows

theorem parses_curly (h : List.Forall₂ Parses kss es) :
    Parses (.opening .curly :: (listed .comma kss ++ [.closing .curly]))
      (.cell (if es.isEmpty then [] else [es])) := by
  intro rest ha
  refine signed_of_attachment (.attachment (.cell ?_) (attachedEnd_of_not_continues ha)) (ahead_cons.2 rfl) ha
  cases h.imp fun _ _ => Parses.stands with
  | nil => exact .rowsEnd
  | cons hfirst hmore =>
    have hrows := rows_of_stands (b := .curly) (.cons (.cons hfirst hmore) .nil) (by simp) [] rest
    simpa [listed_single] using hrows

/-! ## Expressions -/

/-- The text is read as the expression wherever an operand may stand and something delimits it. -/
def Writes (t : Text) (e : Expr) : Prop := ∃ ks, Emits t ks ∧ Parses ks e

theorem exists_listed {ts : List Text} {es : List Expr} (h : List.Forall₂ Writes ts es) :
    ∃ kss, List.Forall₂ Emits ts kss ∧ List.Forall₂ Parses kss es := by
  induction h with
  | nil => exact ⟨[], .nil, .nil⟩
  | cons hfirst _ ih =>
    obtain ⟨ks, hemits, hparses⟩ := hfirst
    obtain ⟨kss, hemits', hparses'⟩ := ih
    exact ⟨ks :: kss, .cons hemits hemits', .cons hparses hparses'⟩

theorem writes_minus {e : Expr} (h : Writes t e) : Writes ('-' :: t) (.unary .negate e) := by
  obtain ⟨ks, hemits, hparses⟩ := h
  exact ⟨_, emits_minus hemits, parses_minus hparses⟩

theorem writes_numeral {n : Number.Numeral} (h : Spelled n t) : Writes t (.number n.value) := by
  obtain ⟨c, u, hc, hdigit⟩ := h.head []
  rw [List.append_nil] at hc
  subst hc
  have hne : ∀ d : Char, d.isDigit = false → c ≠ d := by
    rintro d hd rfl
    rw [hd] at hdigit
    cases hdigit
  refine ⟨[.number n.value], emits_lexeme (fun rest => ⟨?_, ?_, hne '%' rfl⟩) (fun rest hrest => ?_) nofun
    fun _ => rfl, parses_single rfl fun _ => .number⟩
  · simp [isSpace, hne ' ' rfl, hne '\t' rfl, hne '\r' rfl]
  · simp [startsContinuation, hne '.' rfl]
  · have hl : lexeme false c (u ++ rest) = .ok (numeral (c :: u ++ rest)) := by
      unfold lexeme
      exact if_pos (by simp [hdigit])
    rw [hl, numeral_of_spelled h hrest]

theorem IsWord.lexeme (h : IsWord (c :: t)) (hrest : rest.head?.any isNamePart = false) (transposes : Bool) :
    lexeme transposes c (t ++ rest) = .ok ⟨.word (c :: t), c :: t, rest⟩ := by
  obtain ⟨halpha, hall⟩ := h
  have halpha : c.isAlpha = true := halpha
  have hdigit := not_isDigit_of_isAlpha halpha
  have hne : c ≠ '.' := by
    rintro rfl
    cases halpha
  have hname : name (c :: t ++ rest) = ⟨.word (c :: t), c :: t, rest⟩ := by
    have hpart : ∀ d ∈ c :: t, isNamePart d = true := List.all_eq_true.1 hall
    obtain ⟨hw, hd⟩ := takeWhile_of_any hrest
    unfold name
    rw [List.takeWhile_append_of_pos hpart, List.dropWhile_append_of_pos hpart, hw, hd, List.append_nil]
  unfold Token.lexeme
  rw [if_neg (by simp [hdigit, hne]), if_pos halpha]
  exact congrArg _ hname

theorem IsWord.atLexeme (h : IsWord (c :: t)) (rest : Text) : AtLexeme c rest := by
  have halpha : c.isAlpha = true := h.1
  have hne : ∀ d : Char, d.isAlpha = false → c ≠ d := by
    rintro d hd rfl
    rw [hd] at halpha
    cases halpha
  refine ⟨?_, ?_, hne '%' rfl⟩
  · simp [isSpace, hne ' ' rfl, hne '\t' rfl, hne '\r' rfl]
  · simp [startsContinuation, hne '.' rfl]

theorem writes_name (h : IsWord t) (hk : isKeyword t = false) : Writes t (.name t) := by
  cases t with
  | nil => cases h.1
  | cons c t =>
    refine ⟨[.word (c :: t)], emits_lexeme (fun _ => h.atLexeme _) (fun rest hrest => ?_) nofun fun _ => rfl,
      parses_single rfl fun _ => .word hk⟩
    exact h.lexeme (hrest.any (by decide)) false

/-- A call of a function with these arguments. -/
def callText (name : Text) (args : List Text) : Text :=
  name ++ '(' :: (Text.join ", ".toList args ++ [')'])

theorem writes_call {w : Text} {ts : List Text} (hw : IsWord w) (hk : isKeyword w = false)
    (h : List.Forall₂ Writes ts es) : Writes (callText w ts) (.apply (.name w) es) := by
  obtain ⟨kss, hemits, hparses⟩ := exists_listed h
  refine ⟨_, ?_, parses_call hk hparses⟩
  cases w with
  | nil => cases hw.1
  | cons c w =>
    intro gs sp ks₀ rest hks hrest
    have hargs := emits_join .comma hemits
    have hword : Goes ⟨gs, sp, ks₀⟩ (c :: (w ++ '(' :: (Text.join [',', ' '] ts ++ ')' :: rest)))
        ⟨gs, false, .word (c :: w) :: ks₀⟩ ('(' :: (Text.join [',', ' '] ts ++ ')' :: rest)) :=
      goes_lexeme (l := ⟨.word (c :: w), c :: w, _⟩) (.inl hks) (hw.atLexeme _) (hw.lexeme rfl _) nofun rfl
    have hgroup := hword.trans (goes_bracket .round hargs (.inr (.inl rfl)))
    refine ⟨false, ?_⟩
    simpa [callText] using hgroup

/-! ## Quotations -/

/-- The text with its apostrophes doubled. -/
def doubled (t : Text) : Text := t.flatMap fun c => if c = '\x27' then [c, c] else [c]

theorem doubled_quote (t : Text) : doubled ('\x27' :: t) = '\x27' :: '\x27' :: doubled t := by simp [doubled]

theorem doubled_cons {c : Char} (hc : c ≠ '\x27') (t : Text) : doubled (c :: t) = c :: doubled t := by
  simp [doubled, hc]

theorem stringBody_cons {delimiter d : Char} (hd : d ≠ delimiter ∧ d ≠ '\n') (ht : t ≠ []) :
    stringBody delimiter (d :: t) =
      (stringBody delimiter t).map fun (content, spelling, rest) => (d :: content, d :: spelling, rest) := by
  cases t with
  | nil => exact (ht rfl).elim
  | cons e t => simp [stringBody, hd]

theorem stringBody_doubled (hn : '\n' ∉ t) (hrest : rest.head? ≠ some '\x27') :
    stringBody '\x27' (doubled t ++ '\x27' :: rest) = some (t, doubled t ++ ['\x27'], rest) := by
  induction t with
  | nil => exact stringBody_close hrest
  | cons c t ih =>
    have ih := ih fun hm => hn (List.mem_cons_of_mem c hm)
    by_cases hc : c = '\x27'
    · subst hc
      rw [doubled_quote, List.cons_append, List.cons_append, stringBody, if_pos rfl, if_pos rfl, ih]
      rfl
    · have hbreak : c ≠ '\n' := by
        rintro rfl
        exact hn List.mem_cons_self
      rw [doubled_cons hc, List.cons_append, stringBody_cons ⟨hc, hbreak⟩ (by simp), ih]
      rfl

theorem writes_quote (hn : '\n' ∉ t) : Writes (Text.quote t) (.quoted t) := by
  refine ⟨[.quoted t], emits_lexeme (fun _ => ⟨rfl, rfl, by decide⟩) (fun rest hrest => ?_) nofun fun _ => rfl,
    parses_single rfl fun _ => .quoted⟩
  have hbody := stringBody_doubled hn (hrest.head_ne (by decide))
  have hl : lexeme false '\x27' (doubled t ++ ['\x27'] ++ rest) =
      string '\x27' (doubled t ++ '\x27' :: rest) := by
    rw [List.append_assoc]
    unfold lexeme
    exact (if_neg (by simp)).trans ((if_neg (by decide)).trans ((if_neg (by simp)).trans (if_pos rfl)))
  refine hl.trans ?_
  unfold string
  rw [hbody]
  rfl

/-! ## Brackets of rows -/

theorem writes_curly {ts : List Text} (h : List.Forall₂ Writes ts es) :
    Writes ('\x7b' :: (Text.join ", ".toList ts ++ ['\x7d'])) (.cell (if es.isEmpty then [] else [es])) := by
  obtain ⟨kss, hemits, hparses⟩ := exists_listed h
  exact ⟨_, emits_bracket .curly (emits_join .comma hemits), parses_curly hparses⟩

theorem writes_square {tss : List (List Text)} {ess : List (List Expr)}
    (h : List.Forall₂ (List.Forall₂ Writes) tss ess) (hne : ∀ es ∈ ess, es ≠ []) :
    Writes ('[' :: (Text.join "; ".toList (tss.map (Text.join ", ".toList)) ++ [']'])) (.matrix ess) := by
  obtain ⟨ksss, hemits, hparses⟩ : ∃ ksss,
      List.Forall₂ Emits (tss.map (Text.join ", ".toList)) (ksss.map (listed .comma)) ∧
        List.Forall₂ (List.Forall₂ Parses) ksss ess := by
    induction h with
    | nil => exact ⟨[], .nil, .nil⟩
    | cons hfirst _ ih =>
      obtain ⟨kss, hemits, hparses⟩ := exists_listed hfirst
      obtain ⟨ksss, hemits', hparses'⟩ := ih fun es hes => hne es (List.mem_cons_of_mem _ hes)
      exact ⟨kss :: ksss, .cons (emits_join .comma hemits) hemits', .cons hparses hparses'⟩
  exact ⟨_, emits_bracket .square (emits_join .semicolon hemits), parses_square hparses hne⟩

/-! ## Reading what is written -/

/-- A text that is written as an expression has tokens that spell it. -/
theorem Writes.tokens {e : Expr} (h : Writes t e) : ∃ ts, tokenize t = .ok ts ∧ Expr.ofTokens ts = .ok e := by
  obtain ⟨ks, hemits, hparses⟩ := h
  obtain ⟨sp, hgo⟩ := hemits [] false [] [] rfl delimits_nil
  obtain ⟨s, hr, hs⟩ := hgo .start rfl
  rw [List.append_nil] at hr
  have hgroups : s.groups = [] := congrArg View.groups hs
  have hkinds : kinds s.tokens.reverse = ks := by
    have h : kinds s.tokens = ks.reverse ++ [] := congrArg View.collected hs
    rw [kinds_reverse, h, List.append_nil, List.reverse_reverse]
  refine ⟨s.tokens.reverse, scan_eq_ok.2 ⟨s, hr, hgroups, rfl⟩, Program.exprOfTokens_of_reads ?_⟩
  refine Program.readsExpr_of_reads ?_ List.nil_suffix
  have hreads : Reads (.joined .orOr) (ks ++ []) (.expr e) [] := hparses.stands [] Program.ahead_nil
  rwa [List.append_nil, ← hkinds] at hreads

end Token

end ConfigScript
