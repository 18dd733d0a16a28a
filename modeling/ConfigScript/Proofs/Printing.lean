import ConfigScript.Program.Printer
import ConfigScript.Proofs.Shapes
import ConfigScript.Proofs.Writing
/-!
# Printed expressions

The parser undoes the printer: the kinds of tokens that spell an expression, with parentheses only
where the binding of operators asks for them, are read as that expression (`Expr.stands_tokenKinds`).
An expression printed in a place is read by the step of that place up to anything that goes on with
it more loosely (`Binding.Leads`); each kind of expression has its own place, and from there
`Leads.down` hands it on to the looser ones.
-/

namespace ConfigScript

open Program (Ahead ahead_cons Continues Reads Task Level)
open Token (Stands listed)

variable {ks ks' rest rest' : List TokenKind} {k : TokenKind} {e l r v : Expr}

/-! ## Places -/

/-- The binding of a level's operators. -/
def Program.Level.binding : Level → Binding
  | orOr => .orOr
  | andAnd => .andAnd
  | or => .or
  | and => .and
  | comparison => .comparison
  | sum => .sum
  | product => .product

namespace Binding

/-- The step that reads an expression in a place. -/
def task : Binding → Task
  | orOr => .joined .orOr
  | andAnd => .joined .andAnd
  | or => .joined .or
  | and => .joined .and
  | comparison => .joined .comparison
  | range => .range
  | sum => .joined .sum
  | product => .joined .product
  | sign => .signed
  | power => .power
  | suffix => .attachment

/-- The binding at which a kind goes on with the expression in front of it. -/
def joins? : TokenKind → Option Binding
  | .orOr => some orOr
  | .andAnd => some andAnd
  | .or => some or
  | .and => some and
  | .equal | .notEqual | .less | .lessEqual | .greater | .greaterEqual => some comparison
  | .colon => some range
  | .plus | .minus => some sum
  | .star | .slash | .dotStar | .dotSlash => some product
  | .caret | .dotCaret => some power
  | .transpose | .dot | .opening .round | .opening .curly => some suffix
  | _ => none

/-- If the next kind goes on with an expression, it binds more loosely than rank `n`. -/
def Looser (n : Nat) (ks : List TokenKind) : Prop := Ahead (fun k => ∀ b, joins? k = some b → b.rank < n) ks

theorem Looser.mono {m n : Nat} (h : Looser m ks) (hmn : m ≤ n) : Looser n ks :=
  fun k hk b hb => Nat.lt_of_lt_of_le (h k hk b hb) hmn

theorem looser_cons {n : Nat} {b : Binding} (hk : joins? k = some b) (hb : b.rank < n) : Looser n (k :: ks) := by
  refine ahead_cons.2 fun b' hb' => ?_
  rw [hk] at hb'
  cases hb'
  exact hb

theorem joins_of_operator {level : Level} {op : BinaryOp} (h : level.operator? k = some op) :
    joins? k = some level.binding := by
  unfold Level.operator? at h
  split at h <;> first | rfl | cases h

theorem joins_of_power {op : BinaryOp} (h : Program.power? k = some op) : joins? k = some .power := by
  unfold Program.power? at h
  split at h <;> first | rfl | cases h

theorem continues_of_joins {b : Binding} (h : joins? k = some b) : Continues k := by
  unfold joins? at h
  split at h
  all_goals first
    | cases h; done
    | exact .colon
    | exact .transpose
    | exact .dot
    | exact .round
    | exact .curly
    | exact .power rfl
    | exact @Continues.operator .orOr _ _ rfl
    | exact @Continues.operator .andAnd _ _ rfl
    | exact @Continues.operator .or _ _ rfl
    | exact @Continues.operator .and _ _ rfl
    | exact @Continues.operator .comparison _ _ rfl
    | exact @Continues.operator .sum _ _ rfl
    | exact @Continues.operator .product _ _ rfl

theorem looser_of_not_continues (h : Ahead (¬ Continues ·) ks) (n : Nat) : Looser n ks :=
  fun k hk _ hb => absurd (continues_of_joins hb) (h k hk)

theorem Looser.operator {level : Level} (h : Looser level.binding.rank ks) :
    Ahead (fun k => level.operator? k = none) ks := by
  intro k hk
  cases ho : level.operator? k with
  | none => rfl
  | some op => exact absurd (h k hk _ (joins_of_operator ho)) (Nat.lt_irrefl _)

theorem Looser.power (h : Looser Binding.power.rank ks) : Ahead (fun k => Program.power? k = none) ks := by
  intro k hk
  cases ho : Program.power? k with
  | none => rfl
  | some op => exact absurd (h k hk _ (joins_of_power ho)) (Nat.lt_irrefl _)

theorem Looser.ne_of_joins {b : Binding} (h : Looser b.rank ks) (hk : joins? k = some b) : Ahead (· ≠ k) ks := by
  rintro _ hmem rfl
  exact absurd (h _ hmem b hk) (Nat.lt_irrefl _)

/-- How the step of a place goes on behind an expression. A range takes one expression, and a sign
goes on with none. -/
def More (e : Expr) (ks : List TokenKind) (v : Expr) (rest : List TokenKind) : Binding → Prop
  | orOr => Reads (.joinMore .orOr e) ks (.expr v) rest
  | andAnd => Reads (.joinMore .andAnd e) ks (.expr v) rest
  | or => Reads (.joinMore .or e) ks (.expr v) rest
  | and => Reads (.joinMore .and e) ks (.expr v) rest
  | comparison => Reads (.joinMore .comparison e) ks (.expr v) rest
  | range => Looser Binding.range.rank ks ∧ v = e ∧ rest = ks
  | sum => Reads (.joinMore .sum e) ks (.expr v) rest
  | product => Reads (.joinMore .product e) ks (.expr v) rest
  | sign => Looser Binding.sign.rank ks ∧ v = e ∧ rest = ks
  | power => Reads (.powerMore e) ks (.expr v) rest
  | suffix => Reads (.attached e) ks (.expr v) rest

theorem more_level (level : Level) : More e ks v rest level.binding = Reads (.joinMore level e) ks (.expr v) rest := by
  cases level <;> rfl

theorem task_tighter (level : Level) : level.binding.tighter.task = level.below := by
  cases level <;> rfl

theorem rank_tighter {place : Binding} (h : place ≠ .suffix) : place.tighter.rank = place.rank + 1 := by
  cases place <;> first | rfl | exact absurd rfl h

theorem rank_le (place : Binding) : place.rank ≤ Binding.suffix.rank := by
  cases place <;> decide

theorem rank_inj {a b : Binding} (h : a.rank = b.rank) : a = b := by
  cases a <;> cases b <;> first | rfl | cases h

/-- A step is done where what comes next binds more loosely than its place. -/
theorem more_end (place : Binding) (h : Looser place.rank ks) : More e ks e ks place := by
  cases place with
  | range | sign => exact ⟨h, rfl, rfl⟩
  | power => exact .powerEnd h.power
  | suffix =>
    exact .attachedEnd fun k hk => ⟨h.ne_of_joins rfl k hk, h.ne_of_joins rfl k hk, h.ne_of_joins rfl k hk,
      h.ne_of_joins rfl k hk⟩
  | orOr => exact .joinEnd (@Looser.operator _ .orOr h)
  | andAnd => exact .joinEnd (@Looser.operator _ .andAnd h)
  | or => exact .joinEnd (@Looser.operator _ .or h)
  | and => exact .joinEnd (@Looser.operator _ .and h)
  | comparison => exact .joinEnd (@Looser.operator _ .comparison h)
  | sum => exact .joinEnd (@Looser.operator _ .sum h)
  | product => exact .joinEnd (@Looser.operator _ .product h)

theorem unsigned_of_attachment (h : Reads .attachment ks (.expr v) rest) : Ahead (Program.sign? · = none) ks := by
  cases h with
  | attachment h _ => cases h <;> exact ahead_cons.2 rfl

theorem unsigned_of_power (h : Reads .power ks (.expr v) rest) : Ahead (Program.sign? · = none) ks := by
  cases h with
  | power h _ => exact unsigned_of_attachment h

/-- What the next tighter place reads is an operand of this one. -/
theorem reads_of_tighter {place : Binding} (hp : place ≠ .suffix)
    (h : Reads place.tighter.task ks (.expr e) rest) (hm : More e rest v rest' place) :
    Reads place.task ks (.expr v) rest' := by
  cases place with
  | suffix => exact absurd rfl hp
  | power => exact .power h hm
  | sign =>
    obtain ⟨-, rfl, rfl⟩ := hm
    exact .unsigned (unsigned_of_power h) h
  | range =>
    obtain ⟨hloose, rfl, rfl⟩ := hm
    exact .single h (hloose.ne_of_joins rfl)
  | orOr => exact @Reads.joined .orOr _ _ _ _ _ h hm
  | andAnd => exact @Reads.joined .andAnd _ _ _ _ _ h hm
  | or => exact @Reads.joined .or _ _ _ _ _ h hm
  | and => exact @Reads.joined .and _ _ _ _ _ h hm
  | comparison => exact @Reads.joined .comparison _ _ _ _ _ h hm
  | sum => exact @Reads.joined .sum _ _ _ _ _ h hm
  | product => exact @Reads.joined .product _ _ _ _ _ h hm

/-- In a place the kinds lead with this expression: the step of the place reads them and then goes on
behind it. -/
def Leads (place : Binding) (ks : List TokenKind) (e : Expr) : Prop :=
  ∀ rest v rest', Looser (place.rank + 1) rest → More e rest v rest' place → Reads place.task (ks ++ rest) (.expr v) rest'

theorem Leads.reads {place : Binding} (h : Leads place ks e) (hr : Looser place.rank rest) :
    Reads place.task (ks ++ rest) (.expr e) rest :=
  h rest e rest (hr.mono (Nat.le_succ _)) (more_end place hr)

theorem Leads.looser {place : Binding} (hp : place ≠ .suffix) (h : Leads place.tighter ks e) : Leads place ks e := by
  intro rest v rest' hr hm
  refine reads_of_tighter hp (h.reads ?_) hm
  rwa [rank_tighter hp]

/-- An expression is read in every place that is looser than its own. -/
theorem Leads.down {own : Binding} (h : Leads own ks e) (place : Binding) (hle : place.rank ≤ own.rank) :
    Leads place ks e := by
  by_cases heq : place.rank = own.rank
  · rwa [rank_inj heq]
  · have hp : place ≠ .suffix := by
      rintro rfl
      exact heq (Nat.le_antisymm hle own.rank_le)
    have := rank_tighter hp
    exact .looser hp (h.down place.tighter (by omega))
termination_by own.rank - place.rank

theorem Leads.stands {place : Binding} (h : Leads place ks e) : Stands ks e := fun _ hr =>
  (h.down .orOr (Nat.zero_le _)).reads (looser_of_not_continues hr _)

/-- Parentheses make an operand of any place. -/
theorem leads_group (h : Stands ks e) : Leads .suffix (.opening .round :: ks ++ [.closing .round]) e := by
  intro rest v rest' _ hm
  have hinner := h (.closing .round :: rest) (ahead_cons.2 (Token.not_continues_closing .round))
  refine .attachment (.group ?_) hm
  simpa using hinner

theorem leads_enclose {own : Binding} (h : Leads own ks e) (place : Binding) :
    Leads place (Expr.enclose place own ks) e := by
  unfold Expr.enclose
  split
  · exact (leads_group h.stands).down place place.rank_le
  · exact h.down place (by omega)

/-! ## Expressions in their own places -/

theorem leads_primary (h : ∀ rest, Reads .primary (ks ++ rest) (.expr e) rest) : Leads .suffix ks e :=
  fun rest _ _ _ hm => .attachment (h rest) hm

theorem leads_unary (op : UnaryOp) (h : Leads .sign ks e) : Leads .sign (op.token :: ks) (.unary op e) := by
  rintro rest v rest' _ ⟨hr, rfl, rfl⟩
  have hsign : Program.sign? op.token = some op := by
    cases op <;> rfl
  exact .sign hsign (h.reads hr)

theorem leads_binary {level : Level} {op : BinaryOp} (ho : level.operator? op.token = some op)
    (hl : Leads level.binding ks l) (hr : Leads level.binding.tighter ks' r) :
    Leads level.binding (ks ++ op.token :: ks') (.binary op l r) := by
  intro rest v rest' hrest hm
  rw [more_level] at hm
  have hp : level.binding ≠ .suffix := by
    cases level <;> exact nofun
  have hloose : Looser level.binding.tighter.rank rest := by rwa [rank_tighter hp]
  have hright := hr.reads hloose
  rw [task_tighter] at hright
  rw [List.append_assoc, List.cons_append]
  refine hl _ v rest' (looser_cons (joins_of_operator ho) (Nat.lt_succ_self _)) ?_
  rw [more_level]
  exact .joinOn ho hright hm

theorem leads_power (op : BinaryOp) (ho : Program.power? op.token = some op) (hl : Leads .power ks l)
    (hr : ∀ rest, Looser Binding.suffix.rank rest → Reads .exponent (ks' ++ rest) (.expr r) rest) :
    Leads .power (ks ++ op.token :: ks') (.binary op l r) := by
  intro rest v rest' hrest hm
  rw [List.append_assoc, List.cons_append]
  exact hl _ v rest' (looser_cons (joins_of_power ho) (Nat.lt_succ_self _)) (.powerOn ho (hr rest hrest) hm)

theorem leads_range {start stop : Expr} (hstart : Leads .sum ks start) (hstop : Leads .sum ks' stop) :
    Leads .range (ks ++ .colon :: ks') (.range start none stop) := by
  rintro rest v rest' - ⟨hr, rfl, rfl⟩
  rw [List.append_assoc, List.cons_append]
  exact .range (hstart.reads (looser_cons (b := .range) rfl (by decide)))
    (hstop.reads (hr.mono (by decide))) (hr.ne_of_joins rfl)

theorem leads_stepped {ks'' : List TokenKind} {start step stop : Expr} (hstart : Leads .sum ks start)
    (hstep : Leads .sum ks' step) (hstop : Leads .sum ks'' stop) :
    Leads .range (ks ++ .colon :: ks' ++ .colon :: ks'') (.range start (some step) stop) := by
  rintro rest v rest' - ⟨hr, rfl, rfl⟩
  have hcolon : ∀ more, Looser Binding.sum.rank (.colon :: more) :=
    fun more => looser_cons (b := .range) rfl (by decide)
  have h := Reads.stepped (hstart.reads (hcolon (ks' ++ .colon :: (ks'' ++ rest')))) (hstep.reads (hcolon _))
    (hstop.reads (hr.mono (by decide)))
  show Reads .range _ _ _
  simpa using h

theorem leads_apply {args : List Expr} {kss : List (List TokenKind)} (h : Leads .suffix ks e)
    (hargs : List.Forall₂ Stands kss args) :
    Leads .suffix (ks ++ .opening .round :: listed .comma kss ++ [.closing .round]) (.apply e args) := by
  intro rest v rest' _ hm
  have hlooser : ∀ more, Looser (Binding.suffix.rank + 1) (.opening .round :: more) :=
    fun more => looser_cons (b := .suffix) rfl (by decide)
  have hread := h _ v rest' (hlooser _) (.apply (Token.arguments_of_stands hargs rest) hm)
  simpa using hread

theorem leads_brace {args : List Expr} {kss : List (List TokenKind)} (h : Leads .suffix ks e)
    (hargs : List.Forall₂ Stands kss args) :
    Leads .suffix (ks ++ .opening .curly :: listed .comma kss ++ [.closing .curly]) (.brace e args) := by
  intro rest v rest' _ hm
  have hlooser : ∀ more, Looser (Binding.suffix.rank + 1) (.opening .curly :: more) :=
    fun more => looser_cons (b := .suffix) rfl (by decide)
  have hread := h _ v rest' (hlooser _) (.brace (Token.arguments_of_stands hargs rest) hm)
  simpa using hread

theorem leads_field (f : Text) (h : Leads .suffix ks e) : Leads .suffix (ks ++ [.dot, .word f]) (.field e f) := by
  intro rest v rest' _ hm
  rw [List.append_assoc]
  exact h _ v rest' (looser_cons (b := .suffix) rfl (by decide)) (.field hm)

theorem leads_transpose (h : Leads .suffix ks e) : Leads .suffix (ks ++ [.transpose]) (.transpose e) := by
  intro rest v rest' _ hm
  rw [List.append_assoc]
  exact h _ v rest' (looser_cons (b := .suffix) rfl (by decide)) (.transpose hm)

end Binding

/-! ## All expressions -/

namespace Expr

open Binding (Leads Looser leads_enclose leads_primary leads_unary leads_binary leads_power)

/-- What it takes to spell these expressions: no name is a keyword, and no row of a bracket is empty. -/
structure Spellable (es : List Expr) : Prop where
  names : ∀ n, name n ∈ es → isKeyword n = false
  matrices : ∀ rows, matrix rows ∈ es → [] ∉ rows
  cells : ∀ rows, cell rows ∈ es → [] ∉ rows

theorem Spellable.mono {es es' : List Expr} (h : Spellable es) (hsub : es' ⊆ es) : Spellable es' where
  names n hn := h.names n (hsub hn)
  matrices rows hrows := h.matrices rows (hsub hrows)
  cells rows hrows := h.cells rows (hsub hrows)

theorem tokenKindsOfRows_eq (rows : List (List Expr)) :
    tokenKindsOfRows rows = (rows.map tokenKindsOfList).map (listed .comma) := by
  induction rows with
  | nil => rw [tokenKindsOfRows, List.map_nil, List.map_nil]
  | cons row rows ih =>
    rw [tokenKindsOfRows, ih]
    rfl

/-- An exponent without a sign of its own is printed as an operand of attachments. -/
theorem exponent_of_leads (he : ∀ op e', e = .unary op e' → False) (hl : Leads .suffix (e.tokenKindsAt .suffix) e)
    (hr : Looser Binding.suffix.rank rest) : Reads .exponent (e.tokenKindsOfExponent ++ rest) (.expr e) rest := by
  have h := hl.reads hr
  rw [tokenKindsOfExponent]
  · exact .exponent (Binding.unsigned_of_attachment h) h
  · exact he

theorem binary_level {op : BinaryOp} (h : op ≠ .pow ∧ op ≠ .elemPow) :
    ∃ level : Level, op.binding = level.binding ∧ level.operator? op.token = some op := by
  cases op with
  | orOr => exact ⟨.orOr, rfl, rfl⟩
  | andAnd => exact ⟨.andAnd, rfl, rfl⟩
  | or => exact ⟨.or, rfl, rfl⟩
  | and => exact ⟨.and, rfl, rfl⟩
  | equal | notEqual | less | lessEqual | greater | greaterEqual => exact ⟨.comparison, rfl, rfl⟩
  | add | sub => exact ⟨.sum, rfl, rfl⟩
  | mul | div | elemMul | elemDiv => exact ⟨.product, rfl, rfl⟩
  | pow => exact absurd rfl h.1
  | elemPow => exact absurd rfl h.2

theorem tokenKindsAt_binary {op : BinaryOp} (h : op ≠ .pow ∧ op ≠ .elemPow) (place : Binding) :
    tokenKindsAt place (.binary op l r) = enclose place op.binding
      (tokenKindsAt op.binding l ++ op.token :: tokenKindsAt op.binding.tighter r) := by
  rw [tokenKindsAt]
  · exact h.1
  · exact h.2

mutual

theorem leads : (e : Expr) → Spellable e.parts → (place : Binding) → Leads place (e.tokenKindsAt place) e
  | number x, _, place => by
    rw [tokenKindsAt]
    exact (leads_primary fun _ => .number).down place place.rank_le
  | quoted content, _, place => by
    rw [tokenKindsAt]
    exact (leads_primary fun _ => .quoted).down place place.rank_le
  | name n, hs, place => by
    rw [tokenKindsAt]
    exact (leads_primary fun _ => .word (hs.names n (mem_parts_self _))).down place place.rank_le
  | matrix rows, hs, place => by
    have hrows := leads_rows rows (hs.mono fun x hx => by simp [parts, hx])
    have hne : ∀ row ∈ rows, row ≠ [] := fun row hrow heq =>
      hs.matrices rows (mem_parts_self _) (heq ▸ hrow)
    rw [tokenKindsAt, tokenKindsOfRows_eq]
    refine (leads_primary fun rest => ?_).down place place.rank_le
    have hread := Token.rows_of_stands (b := .square) hrows hne [] rest
    refine .matrix ?_
    simpa [separated, listed] using hread
  | cell rows, hs, place => by
    have hrows := leads_rows rows (hs.mono fun x hx => by simp [parts, hx])
    have hne : ∀ row ∈ rows, row ≠ [] := fun row hrow heq =>
      hs.cells rows (mem_parts_self _) (heq ▸ hrow)
    rw [tokenKindsAt, tokenKindsOfRows_eq]
    refine (leads_primary fun rest => ?_).down place place.rank_le
    have hread := Token.rows_of_stands (b := .curly) hrows hne [] rest
    refine .cell ?_
    simpa [separated, listed] using hread
  | unary op e, hs, place => by
    rw [tokenKindsAt]
    exact leads_enclose (leads_unary op (leads e (hs.mono fun x hx => by simp [parts, hx]) .sign)) place
  | binary op l r, hs, place => by
    have hl : ∀ b, Leads b (l.tokenKindsAt b) l := leads l (hs.mono fun x hx => by simp [parts, hx])
    have hr : Spellable r.parts := hs.mono fun x hx => by simp [parts, hx]
    by_cases hpower : op ≠ .pow ∧ op ≠ .elemPow
    · obtain ⟨level, hb, ho⟩ := binary_level hpower
      rw [tokenKindsAt_binary hpower, hb]
      exact leads_enclose (leads_binary ho (hl _) (leads r hr _)) place
    · have hop : op = .pow ∨ op = .elemPow := by
        by_cases h : op = .pow
        · exact .inl h
        · exact .inr (Classical.not_not.1 fun h' => hpower ⟨h, h'⟩)
      rcases hop with rfl | rfl
      all_goals rw [tokenKindsAt]
      · exact leads_enclose (leads_power .pow rfl (hl .power) (leads_exponent r hr)) place
      · exact leads_enclose (leads_power .elemPow rfl (hl .power) (leads_exponent r hr)) place
  | range start none stop, hs, place => by
    rw [tokenKindsAt]
    exact leads_enclose (Binding.leads_range (leads start (hs.mono fun x hx => by simp [parts, hx]) .sum)
      (leads stop (hs.mono fun x hx => by simp [parts, hx]) .sum)) place
  | range start (some step) stop, hs, place => by
    rw [tokenKindsAt]
    exact leads_enclose (Binding.leads_stepped (leads start (hs.mono fun x hx => by simp [parts, hx]) .sum)
      (leads step (hs.mono fun x hx => by simp [parts, hx]) .sum)
      (leads stop (hs.mono fun x hx => by simp [parts, hx]) .sum)) place
  | apply callee args, hs, place => by
    rw [tokenKindsAt]
    exact (Binding.leads_apply (leads callee (hs.mono fun x hx => by simp [parts, hx]) .suffix)
      (leads_list args (hs.mono fun x hx => by simp [parts, hx]))).down place place.rank_le
  | brace callee args, hs, place => by
    rw [tokenKindsAt]
    exact (Binding.leads_brace (leads callee (hs.mono fun x hx => by simp [parts, hx]) .suffix)
      (leads_list args (hs.mono fun x hx => by simp [parts, hx]))).down place place.rank_le
  | field base f, hs, place => by
    rw [tokenKindsAt]
    exact (Binding.leads_field f (leads base (hs.mono fun x hx => by simp [parts, hx]) .suffix)).down place place.rank_le
  | transpose e, hs, place => by
    rw [tokenKindsAt]
    exact (Binding.leads_transpose (leads e (hs.mono fun x hx => by simp [parts, hx]) .suffix)).down place place.rank_le

theorem leads_exponent : (e : Expr) → Spellable e.parts → (rest : List TokenKind) →
    Looser Binding.suffix.rank rest → Reads .exponent (e.tokenKindsOfExponent ++ rest) (.expr e) rest
  | unary op e, hs, rest, hr => by
    have hsign : Program.sign? op.token = some op := by
      cases op <;> rfl
    rw [tokenKindsOfExponent]
    exact .exponentSign hsign (leads_exponent e (hs.mono fun x hx => by simp [parts, hx]) rest hr)
  | number x, hs, _, hr => exponent_of_leads nofun (leads (number x) hs .suffix) hr
  | quoted content, hs, _, hr => exponent_of_leads nofun (leads (quoted content) hs .suffix) hr
  | name n, hs, _, hr => exponent_of_leads nofun (leads (name n) hs .suffix) hr
  | matrix rows, hs, _, hr => exponent_of_leads nofun (leads (matrix rows) hs .suffix) hr
  | cell rows, hs, _, hr => exponent_of_leads nofun (leads (cell rows) hs .suffix) hr
  | binary op l r, hs, _, hr => exponent_of_leads nofun (leads (binary op l r) hs .suffix) hr
  | range start step stop, hs, _, hr => exponent_of_leads nofun (leads (range start step stop) hs .suffix) hr
  | apply callee args, hs, _, hr => exponent_of_leads nofun (leads (apply callee args) hs .suffix) hr
  | brace callee args, hs, _, hr => exponent_of_leads nofun (leads (brace callee args) hs .suffix) hr
  | field base f, hs, _, hr => exponent_of_leads nofun (leads (field base f) hs .suffix) hr
  | transpose e, hs, _, hr => exponent_of_leads nofun (leads (transpose e) hs .suffix) hr

theorem leads_list : (es : List Expr) → Spellable (partsList es) → List.Forall₂ Stands (tokenKindsOfList es) es
  | [], _ => by
    rw [tokenKindsOfList]
    exact .nil
  | e :: rest, hs => by
    rw [tokenKindsOfList]
    exact .cons (leads e (hs.mono fun x hx => by simp [partsList, hx]) .orOr).stands
      (leads_list rest (hs.mono fun x hx => by simp [partsList, hx]))

theorem leads_rows : (rows : List (List Expr)) → Spellable (partsRows rows) →
    List.Forall₂ (List.Forall₂ Stands) (rows.map tokenKindsOfList) rows
  | [], _ => .nil
  | row :: rest, hs =>
    .cons (leads_list row (hs.mono fun x hx => by simp [partsRows, hx]))
      (leads_rows rest (hs.mono fun x hx => by simp [partsRows, hx]))

end

/-- What spells an expression is read as it, in front of anything that does not go on with it. -/
theorem stands_tokenKinds (hs : Spellable e.parts) : Stands e.tokenKinds e := (leads e hs .orOr).stands

end Expr

end ConfigScript
