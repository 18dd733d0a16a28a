import ConfigScript.Proofs.Statements
/-!
# The lines that the descent tells

The descent makes up no lines. Whatever property the lines of the tokens have, an error of the descent is on a line
with it, and so are all the statements of the program (`ofTokens_lines`). As in the descent itself, what a step tells
rests on what the steps tell that it calls, so there is one lemma for every step.
-/

namespace ConfigScript

/-! ## Statements in statements -/

namespace Statement

/-- The line of a statement. -/
def line : Statement → Nat
  | assign line .. => line
  | eval line _ => line
  | cond line .. => line

mutual

/-- A statement and the statements in it, in the order of the text. -/
def nested : Statement → List Statement
  | assign line target path value => [assign line target path value]
  | eval line value => [eval line value]
  | cond line branches otherwise => cond line branches otherwise :: (branchNested branches ++ otherwiseNested otherwise)

def branchNested : List Branch → List Statement
  | [] => []
  | .mk _ body :: rest => bodyNested body ++ branchNested rest

def otherwiseNested : Option (List Statement) → List Statement
  | none => []
  | some body => bodyNested body

/-- All statements of a body. -/
def bodyNested : List Statement → List Statement
  | [] => []
  | s :: ss => s.nested ++ bodyNested ss

end

end Statement

namespace Program

open Statement (branchNested otherwiseNested bodyNested)

variable {α β : Type} {P : Nat → Prop} {last : Nat} {t : Token} {ts : List Token}

/-! ## Lines with a property -/

/-- A value with a property, or an error on a line with a property. -/
def Ends (P : Nat → Prop) (Q : α → Prop) : Except SyntaxError α → Prop
  | .ok a => Q a
  | .error e => P e.line

theorem Ends.bind {Q : α → Prop} {R : β → Prop} {x : Except SyntaxError α} {f : α → Except SyntaxError β}
    (h : Ends P Q x) (hf : ∀ a, Q a → Ends P R (f a)) : Ends P R (x >>= f) := by
  cases x with
  | ok a => exact hf a h
  | error e => exact h

/-- All tokens stand on lines with the property. -/
def Lined (P : Nat → Prop) (ts : List Token) : Prop := ∀ t ∈ ts, P t.line

theorem lined_nil : Lined P [] := fun _ ht => absurd ht List.not_mem_nil

theorem Lined.tail (h : Lined P (t :: ts)) : Lined P ts := fun u hu => h u (List.mem_cons_of_mem t hu)

theorem Lined.drop (h : Lined P ts) (n : Nat) : Lined P (ts.drop n) := fun u hu => h u (List.mem_of_mem_drop hu)

theorem Lined.skipSeparators (h : Lined P ts) : Lined P (skipSeparators ts) :=
  fun u hu => h u (List.dropWhile_subset _ hu)

theorem Lined.lineAt (hlast : P last) (h : Lined P ts) : P (lineAt last ts) := by
  cases ts with
  | nil => exact hlast
  | cons t ts => exact h t List.mem_cons_self

theorem Ends.fail {Q : α → Prop} (hlast : P last) (hts : Lined P ts) (cause : SyntaxCause) :
    Ends P Q (fail last ts cause) := hts.lineAt hlast

/-- What a step leaves of tokens on such lines is on such lines too, and so is its error. -/
def KeepsLines (P : Nat → Prop) (ts : List Token) (x : Step α ts.length) : Prop :=
  Lined P ts → Ends P (fun r => Lined P r.rest) x

def KeepsLinesTail (P : Nat → Prop) (ts : List Token) (x : Tail α ts.length) : Prop :=
  Lined P ts → Ends P (fun r => Lined P r.rest) x

/-! ## Expressions -/

section Expressions

variable {level : Level} {base left : Expr} {bracket : Bracket} {row : List Expr} {rows : List (List Expr)}
  {line offset : Nat}

theorem KeepsLines.joined (ih₁ : KeepsLines P ts (operand last level ts))
    (ih₂ : ∀ first rest, rest.length < ts.length → KeepsLinesTail P rest (joinMore last level first rest)) :
    KeepsLines P ts (joined last level ts) := by
  intro hts
  unfold Program.joined
  exact (ih₁ hts).bind fun ⟨first, rest, hlt⟩ hrest => (ih₂ first rest hlt hrest).bind fun _ => id

theorem KeepsLinesTail.joinEnd (h : Ahead (fun k => level.operator? k = none) (kinds ts)) :
    KeepsLinesTail P ts (joinMore last level left ts) := by
  intro hts
  unfold joinMore
  cases ts with
  | nil => exact hts
  | cons t ts =>
    have ht : level.operator? t.kind = none := h _ rfl
    simp only [ht]
    exact hts

theorem KeepsLinesTail.joinOn {op : BinaryOp} (ho : level.operator? t.kind = some op)
    (ih₁ : KeepsLines P ts (operand last level ts))
    (ih₂ : ∀ right rest, rest.length < ts.length →
      KeepsLinesTail P rest (joinMore last level (.binary op left right) rest)) :
    KeepsLinesTail P (t :: ts) (joinMore last level left (t :: ts)) := by
  intro hts
  unfold joinMore
  simp only [ho]
  exact (ih₁ hts.tail).bind fun ⟨right, rest, hlt⟩ hrest => (ih₂ right rest hlt hrest).bind fun _ => id

theorem KeepsLines.operand {x : Step Expr ts.length} (ho : operand last level ts = x) (ih : KeepsLines P ts x) :
    KeepsLines P ts (operand last level ts) := ho ▸ ih

theorem KeepsLines.sign {op : UnaryOp} (hs : sign? t.kind = some op) (ih : KeepsLines P ts (signed last ts)) :
    KeepsLines P (t :: ts) (signed last (t :: ts)) := by
  intro hts
  unfold signed
  simp only [hs]
  exact (ih hts.tail).bind fun _ => id

theorem KeepsLines.unsigned (h : Ahead (sign? · = none) (kinds ts)) (ih : KeepsLines P ts (power last ts)) :
    KeepsLines P ts (signed last ts) := by
  intro hts
  unfold signed
  cases ts with
  | nil => exact ih hts
  | cons t ts =>
    have ht : sign? t.kind = none := h _ rfl
    simp only [ht]
    exact ih hts

theorem KeepsLines.power (ih₁ : KeepsLines P ts (attachment last ts))
    (ih₂ : ∀ base rest, rest.length < ts.length → KeepsLinesTail P rest (powerMore last base rest)) :
    KeepsLines P ts (power last ts) := by
  intro hts
  unfold Program.power
  exact (ih₁ hts).bind fun ⟨base, rest, hlt⟩ hrest => (ih₂ base rest hlt hrest).bind fun _ => id

theorem KeepsLinesTail.powerEnd (h : Ahead (power? · = none) (kinds ts)) :
    KeepsLinesTail P ts (powerMore last base ts) := by
  intro hts
  unfold powerMore
  cases ts with
  | nil => exact hts
  | cons t ts =>
    have ht : power? t.kind = none := h _ rfl
    simp only [ht]
    exact hts

theorem KeepsLinesTail.powerOn {op : BinaryOp} (ho : power? t.kind = some op)
    (ih₁ : KeepsLines P ts (exponent last ts))
    (ih₂ : ∀ e rest, rest.length < ts.length → KeepsLinesTail P rest (powerMore last (.binary op base e) rest)) :
    KeepsLinesTail P (t :: ts) (powerMore last base (t :: ts)) := by
  intro hts
  unfold powerMore
  simp only [ho]
  exact (ih₁ hts.tail).bind fun ⟨e, rest, hlt⟩ hrest => (ih₂ e rest hlt hrest).bind fun _ => id

theorem KeepsLines.exponentSign {op : UnaryOp} (hs : sign? t.kind = some op)
    (ih : KeepsLines P ts (exponent last ts)) : KeepsLines P (t :: ts) (exponent last (t :: ts)) := by
  intro hts
  unfold exponent
  simp only [hs]
  exact (ih hts.tail).bind fun _ => id

theorem KeepsLines.exponent (h : Ahead (sign? · = none) (kinds ts)) (ih : KeepsLines P ts (attachment last ts)) :
    KeepsLines P ts (exponent last ts) := by
  intro hts
  unfold Program.exponent
  cases ts with
  | nil => exact ih hts
  | cons t ts =>
    have ht : sign? t.kind = none := h _ rfl
    simp only [ht]
    exact ih hts

theorem KeepsLines.attachment (ih₁ : KeepsLines P ts (primary last ts))
    (ih₂ : ∀ base rest, rest.length < ts.length → KeepsLinesTail P rest (attached last base rest)) :
    KeepsLines P ts (attachment last ts) := by
  intro hts
  unfold Program.attachment
  exact (ih₁ hts).bind fun ⟨base, rest, hlt⟩ hrest => (ih₂ base rest hlt hrest).bind fun _ => id

theorem KeepsLinesTail.transpose (ih : KeepsLinesTail P ts (attached last (.transpose base) ts)) :
    KeepsLinesTail P (⟨.transpose, line, offset⟩ :: ts) (attached last base (⟨.transpose, line, offset⟩ :: ts)) := by
  intro hts
  unfold attached
  exact (ih hts.tail).bind fun _ => id

theorem KeepsLinesTail.field {line' offset' : Nat} {name : Text}
    (ih : KeepsLinesTail P ts (attached last (.field base name) ts)) :
    KeepsLinesTail P (⟨.dot, line, offset⟩ :: ⟨.word name, line', offset'⟩ :: ts)
      (attached last base (⟨.dot, line, offset⟩ :: ⟨.word name, line', offset'⟩ :: ts)) := by
  intro hts
  unfold attached
  exact (ih hts.tail.tail).bind fun _ => id

/-- A dot that no name follows is an error behind the token after it. -/
theorem KeepsLinesTail.noField (hlast : P last)
    (h : ∀ name line offset rest, ts = ⟨.word name, line, offset⟩ :: rest → False) :
    KeepsLinesTail P (⟨.dot, line, offset⟩ :: ts) (attached last base (⟨.dot, line, offset⟩ :: ts)) := by
  intro hts
  have hfail : Ends P (fun r : Kept Expr (ts.length + 1) => Lined P r.rest)
      (fail last (ts.drop 1) .missingFieldName) := .fail hlast (hts.tail.drop 1) _
  unfold attached
  cases ts with
  | nil => exact hfail
  | cons t rest =>
    obtain ⟨kind, line', offset'⟩ := t
    cases kind with
    | word name => exact (h _ _ _ _ rfl).elim
    | _ => exact hfail

theorem KeepsLinesTail.apply (ih₁ : KeepsLines P ts (arguments last .round ts))
    (ih₂ : ∀ args rest, rest.length < ts.length → KeepsLinesTail P rest (attached last (.apply base args) rest)) :
    KeepsLinesTail P (⟨.opening .round, line, offset⟩ :: ts)
      (attached last base (⟨.opening .round, line, offset⟩ :: ts)) := by
  intro hts
  unfold attached
  exact (ih₁ hts.tail).bind fun ⟨args, rest, hlt⟩ hrest => (ih₂ args rest hlt hrest).bind fun _ => id

theorem KeepsLinesTail.brace (ih₁ : KeepsLines P ts (arguments last .curly ts))
    (ih₂ : ∀ args rest, rest.length < ts.length → KeepsLinesTail P rest (attached last (.brace base args) rest)) :
    KeepsLinesTail P (⟨.opening .curly, line, offset⟩ :: ts)
      (attached last base (⟨.opening .curly, line, offset⟩ :: ts)) := by
  intro hts
  unfold attached
  exact (ih₁ hts.tail).bind fun ⟨args, rest, hlt⟩ hrest => (ih₂ args rest hlt hrest).bind fun _ => id

theorem KeepsLines.noArguments (hb : (t.kind == .closing bracket) = true) :
    KeepsLines P (t :: ts) (arguments last bracket (t :: ts)) := by
  intro hts
  unfold arguments
  simp only [hb, if_true]
  exact hts.tail

theorem KeepsLines.arguments (h : Ahead (· ≠ .closing bracket) (kinds ts))
    (ih : KeepsLines P ts (moreArguments last bracket ts)) : KeepsLines P ts (arguments last bracket ts) := by
  intro hts
  unfold Program.arguments
  cases ts with
  | nil => exact ih hts
  | cons t ts =>
    have ht : t.kind ≠ .closing bracket := h _ rfl
    simp only [TokenKind.beq_closing, ht, if_false]
    exact ih hts

theorem KeepsLines.moreArguments (hlast : P last) (ih₁ : KeepsLines P ts (Program.joined last .orOr ts))
    (ih₂ : ∀ rest, rest.length + 1 < ts.length → KeepsLines P rest (moreArguments last bracket rest)) :
    KeepsLines P ts (moreArguments last bracket ts) := by
  intro hts
  unfold Program.moreArguments
  refine (ih₁ hts).bind ?_
  rintro ⟨arg, after, hlt⟩ hafter
  cases after with
  | nil => exact .fail hlast lined_nil _
  | cons t rest =>
    dsimp only
    split
    · exact (ih₂ rest hlt hafter.tail).bind fun _ => id
    · split
      · exact hafter.tail
      · exact .fail hlast hafter _

/-- A literal is its token, and a keyword is none. -/
theorem KeepsLines.single (hlast : P last)
    (hk : (∃ x, t.kind = .number x) ∨ (∃ content, t.kind = .quoted content) ∨ ∃ name, t.kind = .word name) :
    KeepsLines P (t :: ts) (primary last (t :: ts)) := by
  intro hts
  unfold primary
  rcases hk with ⟨x, hk⟩ | ⟨content, hk⟩ | ⟨name, hk⟩ <;> simp only [hk]
  · exact hts.tail
  · exact hts.tail
  · split
    · exact .fail hlast hts _
    · exact hts.tail

theorem KeepsLines.group (hlast : P last) (hk : t.kind = .opening .round)
    (ih : KeepsLines P ts (Program.joined last .orOr ts)) : KeepsLines P (t :: ts) (primary last (t :: ts)) := by
  intro hts
  unfold primary
  simp only [hk]
  refine (ih hts.tail).bind ?_
  rintro ⟨inner, rest, hlt⟩ hrest
  cases rest with
  | nil => exact .fail hlast lined_nil _
  | cons u rest =>
    dsimp only
    split
    · exact hrest.tail
    · exact .fail hlast hrest _

theorem KeepsLines.matrix (hk : t.kind = .opening .square) (ih : KeepsLines P ts (rowsUpTo last .square [] [] ts)) :
    KeepsLines P (t :: ts) (primary last (t :: ts)) := by
  intro hts
  unfold primary
  simp only [hk]
  exact (ih hts.tail).bind fun _ => id

theorem KeepsLines.cell (hk : t.kind = .opening .curly) (ih : KeepsLines P ts (rowsUpTo last .curly [] [] ts)) :
    KeepsLines P (t :: ts) (primary last (t :: ts)) := by
  intro hts
  unfold primary
  simp only [hk]
  exact (ih hts.tail).bind fun _ => id

theorem KeepsLines.rowsEnd (hb : (t.kind == .closing bracket) = true) :
    KeepsLines P (t :: ts) (rowsUpTo last bracket row rows (t :: ts)) := by
  intro hts
  unfold rowsUpTo
  simp only [hb, if_true]
  exact hts.tail

theorem KeepsLines.nextRow (hb : ¬ (t.kind == .closing bracket) = true) (hk : (t.kind == .semicolon) = true)
    (ih : KeepsLines P ts (rowsUpTo last bracket [] (closeRow row rows) ts)) :
    KeepsLines P (t :: ts) (rowsUpTo last bracket row rows (t :: ts)) := by
  intro hts
  unfold rowsUpTo
  simp only [hb, hk, if_true]
  exact (ih hts.tail).bind fun _ => id

theorem KeepsLines.rowsComma (hb : ¬ (t.kind == .closing bracket) = true) (hn : ¬ (t.kind == .semicolon) = true)
    (hk : (t.kind == .comma) = true) (ih : KeepsLines P ts (rowsUpTo last bracket row rows ts)) :
    KeepsLines P (t :: ts) (rowsUpTo last bracket row rows (t :: ts)) := by
  intro hts
  unfold rowsUpTo
  simp only [hb, hn, hk, if_true]
  exact (ih hts.tail).bind fun _ => id

theorem KeepsLines.element (hb : ¬ (t.kind == .closing bracket) = true) (hn : ¬ (t.kind == .semicolon) = true)
    (hc : ¬ (t.kind == .comma) = true) (ih₁ : KeepsLines P (t :: ts) (Program.joined last .orOr (t :: ts)))
    (ih₂ : ∀ element rest, rest.length < (t :: ts).length →
      KeepsLines P rest (rowsUpTo last bracket (element :: row) rows rest)) :
    KeepsLines P (t :: ts) (rowsUpTo last bracket row rows (t :: ts)) := by
  intro hts
  unfold rowsUpTo
  simp only [hb, hn, hc]
  exact (ih₁ hts).bind fun ⟨element, rest, hlt⟩ hrest => (ih₂ element rest hlt hrest).bind fun _ => id

theorem KeepsLines.range (ih₁ : KeepsLines P ts (Program.joined last .sum ts))
    (ih₂ : ∀ rest, rest.length + 1 < ts.length → KeepsLines P rest (Program.joined last .sum rest)) :
    KeepsLines P ts (range last ts) := by
  intro hts
  unfold Program.range
  refine (ih₁ hts).bind ?_
  rintro ⟨start, after, hlt⟩ hafter
  dsimp only at hafter ⊢
  split
  · next rest hlt' =>
    refine (ih₂ rest hlt' hafter.tail).bind ?_
    rintro ⟨second, after', hlt''⟩ hafter'
    dsimp only at hafter' ⊢
    split
    · next rest' hlt₃ =>
      have hlt₃ : rest'.length + 1 < ts.length := by
        simp only [List.length_cons] at hlt' hlt₃
        omega
      exact (ih₂ rest' hlt₃ hafter'.tail).bind fun _ => id
    · exact hafter'
  · exact hafter

end Expressions

/-- Along the recursion of the descent, each step rests on the steps that it calls. -/
theorem joined_lines (hlast : P last) (level : Level) (ts : List Token) : KeepsLines P ts (joined last level ts) := by
  revert level ts
  apply joined.induct
    (fun level ts => KeepsLines P ts (joined last level ts))
    (fun level left ts => KeepsLinesTail P ts (joinMore last level left ts))
    (fun level ts => KeepsLines P ts (operand last level ts))
    (fun ts => KeepsLines P ts (signed last ts))
    (fun ts => KeepsLines P ts (power last ts))
    (fun base ts => KeepsLinesTail P ts (powerMore last base ts))
    (fun ts => KeepsLines P ts (exponent last ts))
    (fun ts => KeepsLines P ts (attachment last ts))
    (fun base ts => KeepsLinesTail P ts (attached last base ts))
    (fun bracket ts => KeepsLines P ts (arguments last bracket ts))
    (fun bracket ts => KeepsLines P ts (moreArguments last bracket ts))
    (fun ts => KeepsLines P ts (primary last ts))
    (fun bracket row rows ts => KeepsLines P ts (rowsUpTo last bracket row rows ts))
    (fun ts => KeepsLines P ts (range last ts))
  -- the operators that group to the left
  case case1 => exact fun _ _ => .joined
  case case2 => exact fun _ _ => .joinEnd ahead_nil
  case case3 => exact fun _ _ t _ ho => .joinEnd (ahead_cons.2 ho)
  case case4 => exact fun _ _ _ _ _ ho _ => .joinOn ho
  case case5 | case6 | case7 | case8 | case9 | case10 | case11 => exact fun _ => .operand (by rw [operand])
  -- signs and powers
  case case12 => exact .unsigned ahead_nil
  case case13 => exact fun _ _ _ hs => .sign hs
  case case14 => exact fun _ _ hs => .unsigned (ahead_cons.2 hs)
  case case15 => exact fun _ => .power
  case case16 => exact fun _ => .powerEnd ahead_nil
  case case17 => exact fun _ _ _ ho => .powerEnd (ahead_cons.2 ho)
  case case18 => exact fun _ _ _ _ ho => .powerOn ho
  case case19 => exact .exponent ahead_nil
  case case20 => exact fun _ _ _ hs => .exponentSign hs
  case case21 => exact fun _ _ hs => .exponent (ahead_cons.2 hs)
  -- what is attached behind a primary expression
  case case22 => exact fun _ => .attachment
  case case23 => exact fun _ _ _ _ => .transpose
  case case24 => exact fun _ _ _ _ _ _ _ => .field
  case case25 => exact fun _ _ _ _ => .noField hlast
  case case26 => exact fun _ _ _ _ => .apply
  case case27 => exact fun _ _ _ _ => .brace
  case case28 =>
    intro base ts ht hf hd hr hc hts
    unfold attached
    split
    · exact (ht _ _ _ rfl).elim
    · exact (hf _ _ _ _ _ _ rfl).elim
    · exact (hd _ _ _ rfl).elim
    · exact (hr _ _ _ rfl).elim
    · exact (hc _ _ _ rfl).elim
    · exact hts
  case case29 => exact fun _ => .arguments ahead_nil
  case case30 => exact fun _ _ _ => .noArguments
  case case31 => exact fun _ _ _ hb => .arguments (ahead_cons.2 (mt TokenKind.beq_closing.2 hb))
  case case32 => exact fun _ _ ih₁ ih₂ => .moreArguments hlast ih₁ fun rest hlt => ih₂ [] default rest hlt
  -- primary expressions
  case case33 =>
    intro hts
    unfold primary
    exact .fail hlast hts _
  case case34 => exact fun _ _ _ hk => .single hlast (.inl ⟨_, hk⟩)
  case case35 => exact fun _ _ _ hk => .single hlast (.inr (.inl ⟨_, hk⟩))
  case case36 | case37 => exact fun _ _ _ hk _ => .single hlast (.inr (.inr ⟨_, hk⟩))
  case case38 => exact fun _ _ hk => .group hlast hk
  case case39 => exact fun _ _ hk => .matrix hk
  case case40 => exact fun _ _ hk => .cell hk
  case case41 =>
    intro t ts hnum hq hw hr hs hc hts
    unfold primary
    split
    · next x hk => exact (hnum x hk).elim
    · next content hk => exact (hq content hk).elim
    · next name hk => exact (hw name hk).elim
    · next hk => exact (hr hk).elim
    · next hk => exact (hs hk).elim
    · next hk => exact (hc hk).elim
    · exact .fail hlast hts _
  case case42 =>
    intro bracket row rows hts
    unfold rowsUpTo
    exact .fail hlast hts _
  case case43 => exact fun _ _ _ _ _ => .rowsEnd
  case case44 => exact fun _ _ _ _ _ => .nextRow
  case case45 => exact fun _ _ _ _ _ => .rowsComma
  case case46 => exact fun _ _ _ _ _ => .element
  case case47 => exact fun _ ih₁ ih₂ _ => .range ih₁ fun rest hlt => ih₂ [] 0 0 rest hlt

/-! ## Statements -/

section Statements

variable {ends : List Text} {name : Text} {line offset : Nat}

/-- The lines of these statements have the property. -/
def StatementsOn (P : Nat → Prop) (ss : List Statement) : Prop := ∀ s ∈ ss, P s.line

theorem StatementsOn.append {ss ss' : List Statement} (h : StatementsOn P ss) (h' : StatementsOn P ss') :
    StatementsOn P (ss ++ ss') := List.forall_mem_append.2 ⟨h, h'⟩

def BlockLines (P : Nat → Prop) (last : Nat) (ends : List Text) (ts : List Token) : Prop :=
  Lined P ts → Ends P (fun r => Lined P r.rest ∧ StatementsOn P (bodyNested r.value)) (block last ends ts)

def StatementLines (P : Nat → Prop) (last : Nat) (ts : List Token) : Prop :=
  Lined P ts → Ends P (fun r => Lined P r.rest ∧ StatementsOn P r.value.nested) (statement last ts)

def BranchesLines (P : Nat → Prop) (last : Nat) (ts : List Token) : Prop :=
  Lined P ts → Ends P (fun r => Lined P r.rest ∧
    StatementsOn P (branchNested r.value.1 ++ otherwiseNested r.value.2)) (branchesAfter last ts)

theorem Lined.path {path : List Text} {rest : List Token} (h : Lined P ts) (hp : Path path ts rest) : Lined P rest := by
  induction hp with
  | nil => exact h.tail
  | cons _ ih => exact ih h.tail.tail

theorem statementsOn_assign {path : List Text} {e : Expr} (h : P line) :
    StatementsOn P (Statement.assign line name path e).nested := by
  rw [Statement.nested]
  exact List.forall_mem_singleton.2 h

theorem statementsOn_eval {e : Expr} (h : P line) : StatementsOn P (Statement.eval line e).nested := by
  rw [Statement.nested]
  exact List.forall_mem_singleton.2 h

theorem statementsOn_branches {condition : Expr} {body : List Statement} {branches : List Branch}
    {otherwise : Option (List Statement)} (h : StatementsOn P (bodyNested body))
    (h' : StatementsOn P (branchNested branches ++ otherwiseNested otherwise)) :
    StatementsOn P (branchNested (.mk condition body :: branches) ++ otherwiseNested otherwise) := by
  rw [branchNested, List.append_assoc]
  exact h.append h'

theorem statementsOn_cond {branches : List Branch} {otherwise : Option (List Statement)} (h : P line)
    (h' : StatementsOn P (branchNested branches ++ otherwiseNested otherwise)) :
    StatementsOn P (Statement.cond line branches otherwise).nested := by
  rw [Statement.nested]
  exact List.forall_mem_cons.2 ⟨h, h'⟩

theorem blockLines_end (hlast : P last) (hskip : skipSeparators ts = []) : BlockLines P last ends ts := by
  intro hts
  unfold block
  split
  · split
    · exact ⟨lined_nil, fun _ hs => absurd hs List.not_mem_nil⟩
    · exact .fail hlast lined_nil _
  · next u there hcons =>
    rw [hskip] at hcons
    cases hcons

theorem blockLines_stop {here : List Token} (hskip : skipSeparators ts = t :: here)
    (hword : atWord ends (t :: here) = true) : BlockLines P last ends ts := by
  intro hts
  have hhere : Lined P (t :: here) := hskip ▸ hts.skipSeparators
  unfold block
  split
  · next hnil =>
    rw [hskip] at hnil
    cases hnil
  · next u there hcons =>
    rw [hskip] at hcons
    cases hcons
    rw [if_pos hword]
    exact ⟨hhere, fun _ hs => absurd hs List.not_mem_nil⟩

theorem blockLines_more (hlast : P last) {here : List Token} (hskip : skipSeparators ts = t :: here)
    (hword : ¬ atWord ends (t :: here) = true) (ih₁ : StatementLines P last (t :: here))
    (ih₂ : ∀ rest, rest.length < (t :: here).length → BlockLines P last ends rest) : BlockLines P last ends ts := by
  intro hts
  have hhere : Lined P (t :: here) := hskip ▸ hts.skipSeparators
  unfold block
  split
  · next hnil =>
    rw [hskip] at hnil
    cases hnil
  · next u there hcons =>
    rw [hskip] at hcons
    cases hcons
    rw [if_neg hword]
    refine (ih₁ hhere).bind ?_
    rintro ⟨first, rest, hlt⟩ ⟨hrest, hfirst⟩
    dsimp only at hrest ⊢
    split
    · exact (ih₂ rest hlt hrest).bind fun _ hmore => ⟨hmore.1, hfirst.append hmore.2⟩
    · exact .fail hlast hrest _

theorem statementLines_cond (hlast : P last)
    (ih₁ : ∀ rest, rest.length < ts.length → BlockLines P last branchEnds rest)
    (ih₂ : ∀ rest, rest.length < ts.length → BranchesLines P last rest) :
    StatementLines P last (⟨.word "if".toList, line, offset⟩ :: ts) := by
  intro hts
  unfold statement
  rw [if_pos rfl]
  refine (joined_lines hlast .orOr ts hts.tail).bind ?_
  rintro ⟨condition, rest, hlt⟩ hrest
  refine (ih₁ rest hlt hrest).bind ?_
  rintro ⟨body, rest', hle⟩ ⟨hrest', hbody⟩
  refine (ih₂ rest' (Nat.lt_of_le_of_lt hle hlt) hrest').bind ?_
  rintro ⟨⟨branches, otherwise⟩, rest'', hlt'⟩ hafter
  exact ⟨hafter.1, statementsOn_cond (hts _ List.mem_cons_self) (statementsOn_branches hbody hafter.2)⟩

theorem statementLines_word (hlast : P last) (hif : name ≠ "if".toList) :
    StatementLines P last (⟨.word name, line, offset⟩ :: ts) := by
  intro hts
  have hline : P line := hts _ List.mem_cons_self
  unfold statement
  rw [if_neg hif]
  split
  · exact hline
  split
  · exact hline
  split
  · next path rest hlt hpath =>
    have hrest := hts.tail.path (assignmentPath?_eq_some.1 ⟨hlt, hpath⟩)
    exact (joined_lines hlast .orOr rest hrest).bind fun _ hrest' => ⟨hrest', statementsOn_assign hline⟩
  · exact (joined_lines hlast .orOr _ hts).bind fun _ hrest => ⟨hrest, statementsOn_eval hline⟩

theorem statementLines_other (hlast : P last)
    (h : ∀ name line offset rest, ts = ⟨.word name, line, offset⟩ :: rest → False) : StatementLines P last ts := by
  intro hts
  unfold statement
  split
  · exact (h _ _ _ _ rfl).elim
  · exact (joined_lines hlast .orOr ts hts).bind fun _ hrest => ⟨hrest, statementsOn_eval (hts.lineAt hlast)⟩

theorem branchesLines_elseif (hlast : P last)
    (ih₁ : ∀ rest, rest.length < ts.length → BlockLines P last branchEnds rest)
    (ih₂ : ∀ rest, rest.length < ts.length → BranchesLines P last rest) :
    BranchesLines P last (⟨.word "elseif".toList, line, offset⟩ :: ts) := by
  intro hts
  unfold branchesAfter
  rw [if_pos rfl]
  refine (joined_lines hlast .orOr ts hts.tail).bind ?_
  rintro ⟨condition, rest, hlt⟩ hrest
  refine (ih₁ rest hlt hrest).bind ?_
  rintro ⟨body, rest', hle⟩ ⟨hrest', hbody⟩
  refine (ih₂ rest' (Nat.lt_of_le_of_lt hle hlt) hrest').bind ?_
  rintro ⟨⟨branches, otherwise⟩, rest'', hlt'⟩ hafter
  exact ⟨hafter.1, statementsOn_branches hbody hafter.2⟩

theorem branchesLines_else (ih : BlockLines P last lastEnds ts) :
    BranchesLines P last (⟨.word "else".toList, line, offset⟩ :: ts) := by
  intro hts
  unfold branchesAfter
  rw [if_neg (by decide), if_pos rfl]
  exact (ih hts.tail).bind fun _ hbody => ⟨hbody.1.drop 1, hbody.2⟩

theorem branchesLines_close (hi : name ≠ "elseif".toList) (he : name ≠ "else".toList) :
    BranchesLines P last (⟨.word name, line, offset⟩ :: ts) := by
  intro hts
  unfold branchesAfter
  rw [if_neg hi, if_neg he]
  exact ⟨hts.tail, fun _ hs => absurd hs List.not_mem_nil⟩

theorem branchesLines_other (hlast : P last)
    (h : ∀ name line offset rest, ts = ⟨.word name, line, offset⟩ :: rest → False) : BranchesLines P last ts := by
  intro hts
  unfold branchesAfter
  split
  · exact (h _ _ _ _ rfl).elim
  · exact .fail hlast (hts.drop 1) _

end Statements

theorem block_lines (hlast : P last) (ends : List Text) (ts : List Token) : BlockLines P last ends ts := by
  revert ends ts
  apply block.induct (BlockLines P last) (StatementLines P last) (BranchesLines P last)
  case case1 | case2 => exact fun _ _ hskip _ => blockLines_end hlast hskip
  case case3 => exact fun _ _ _ _ hskip _ hword => blockLines_stop hskip hword
  case case4 => exact fun _ _ _ _ hskip _ hword => blockLines_more hlast hskip hword
  case case5 =>
    exact fun _ _ _ ih₁ ih₂ => statementLines_cond hlast ih₁ fun rest hlt => ih₂ rest hlt rest (Nat.le_refl _)
  case case6 => exact fun _ _ _ _ hif _ => statementLines_word hlast hif
  case case7 => exact fun _ _ _ _ hif _ _ => statementLines_word hlast hif
  case case8 => exact fun _ _ _ _ hif _ _ _ _ _ _ => statementLines_word hlast hif
  case case9 => exact fun _ _ _ _ hif _ _ _ => statementLines_word hlast hif
  case case10 => exact fun _ => statementLines_other hlast
  case case11 =>
    exact fun _ _ _ ih₁ ih₂ => branchesLines_elseif hlast ih₁ fun rest hlt => ih₂ rest hlt rest (Nat.le_refl _)
  case case12 => exact fun _ _ _ _ => branchesLines_else
  case case13 => exact fun _ _ _ _ => branchesLines_close
  case case14 => exact fun _ => branchesLines_other hlast

theorem Lined.lastLine (h1 : P 1) (h : Lined P ts) : P (lastLine ts) := by
  unfold Program.lastLine
  split
  · next t ht => exact h t (List.mem_of_getLast? ht)
  · exact h1

/-- The statements of a program and an error in place of it are on lines of tokens, or on the first line if there is
no token. -/
theorem ofTokens_lines (h1 : P 1) (h : Lined P ts) :
    Ends P (fun program => StatementsOn P (bodyNested program)) (ofTokens ts) := by
  have hlast := h.lastLine h1
  refine (block_lines hlast [] ts h).bind ?_
  rintro ⟨program, rest, hle⟩ ⟨hrest, hprogram⟩
  cases rest with
  | nil => exact hprogram
  | cons t rest => exact .fail hlast hrest _

end Program

end ConfigScript
