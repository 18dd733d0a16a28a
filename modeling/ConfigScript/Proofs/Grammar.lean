import ConfigScript.Program.Parser
/-!
# The grammar of expressions

`Reads` says which kinds of tokens a step of the descent reads as what, and which kinds it leaves.
The descent does exactly that, whatever the lines and offsets of the tokens. So what holds of every
derivation holds of the descent: an expression takes a front piece of the tokens whose brackets are
balanced and in which nothing is assigned, and it reads the same before anything that cannot go on
with an expression (`Reads.exchange`).
-/

namespace ConfigScript

/-! ## Kinds of tokens -/

namespace TokenKind

theorem beq_closing {k : TokenKind} {b : Bracket} : (k == .closing b) = true ↔ k = .closing b := by
  cases k with
  | closing c => cases b <;> cases c <;> first | exact ⟨fun _ => rfl, fun _ => rfl⟩ | exact ⟨nofun, nofun⟩
  | _ => exact ⟨nofun, nofun⟩

theorem beq_comma {k : TokenKind} : (k == .comma) = true ↔ k = .comma := by
  cases k with
  | comma => exact ⟨fun _ => rfl, fun _ => rfl⟩
  | _ => exact ⟨nofun, nofun⟩

theorem beq_semicolon {k : TokenKind} : (k == .semicolon) = true ↔ k = .semicolon := by
  cases k with
  | semicolon => exact ⟨fun _ => rfl, fun _ => rfl⟩
  | _ => exact ⟨nofun, nofun⟩

end TokenKind

/-- The kinds of tokens. -/
def kinds (ts : List Token) : List TokenKind := ts.map (·.kind)

@[simp] theorem kinds_nil : kinds [] = [] := rfl

@[simp] theorem kinds_cons (t : Token) (ts : List Token) : kinds (t :: ts) = t.kind :: kinds ts := rfl

@[simp] theorem kinds_append (ts us : List Token) : kinds (ts ++ us) = kinds ts ++ kinds us :=
  List.map_append

theorem kinds_reverse (ts : List Token) : kinds ts.reverse = (kinds ts).reverse := List.map_reverse

namespace Program

/-! ## Derivations -/

/-- A step of the descent. -/
inductive Task where
  | joined (level : Level)
  | joinMore (level : Level) (left : Expr)
  | range
  | signed
  | power
  | powerMore (base : Expr)
  | exponent
  | attachment
  | attached (base : Expr)
  | arguments (bracket : Bracket)
  | moreArguments (bracket : Bracket)
  | primary
  | rows (bracket : Bracket) (row : List Expr) (rows : List (List Expr))

/-- What a step has read. -/
inductive Parsed where
  | expr (e : Expr)
  | args (es : List Expr)
  | rows (rows : List (List Expr))

/-- What the operands of a level are. -/
def Level.below : Level → Task
  | orOr => .joined .andAnd
  | andAnd => .joined .or
  | or => .joined .and
  | and => .joined .comparison
  | comparison => .range
  | sum => .joined .product
  | product => .signed

/-- Goes on with an expression, or makes an assignment of a name. -/
inductive Continues : TokenKind → Prop
  | operator {level : Level} {op : BinaryOp} {k : TokenKind} : level.operator? k = some op → Continues k
  | power {op : BinaryOp} {k : TokenKind} : power? k = some op → Continues k
  | colon : Continues .colon
  | transpose : Continues .transpose
  | dot : Continues .dot
  | round : Continues (.opening .round)
  | curly : Continues (.opening .curly)
  | assign : Continues .assign

theorem operator?_eq_none {k : TokenKind} (h : ¬ Continues k) (level : Level) : level.operator? k = none := by
  cases ho : level.operator? k with
  | none => rfl
  | some op => exact (h (.operator ho)).elim

theorem power?_eq_none {k : TokenKind} (h : ¬ Continues k) : power? k = none := by
  cases ho : power? k with
  | none => rfl
  | some op => exact (h (.power ho)).elim

/-- The next kind, if there is one, is of this sort. -/
def Ahead (p : TokenKind → Prop) (ks : List TokenKind) : Prop := ∀ k ∈ ks.head?, p k

theorem ahead_nil {p : TokenKind → Prop} : Ahead p [] := fun _ hk => absurd hk (Option.not_mem_none _)

theorem ahead_cons {p : TokenKind → Prop} {k : TokenKind} {ks : List TokenKind} :
    Ahead p (k :: ks) ↔ p k := by
  simp [Ahead]

/-- A step reads kinds of tokens as something and leaves the rest of them. -/
inductive Reads : Task → List TokenKind → Parsed → List TokenKind → Prop
  | joined {level ks first rest e rest'} :
    Reads level.below ks (.expr first) rest → Reads (.joinMore level first) rest (.expr e) rest' →
    Reads (.joined level) ks (.expr e) rest'
  | joinEnd {level left ks} :
    Ahead (fun k => level.operator? k = none) ks → Reads (.joinMore level left) ks (.expr left) ks
  | joinOn {level : Level} {left k op ks right rest e rest'} :
    level.operator? k = some op → Reads level.below ks (.expr right) rest →
    Reads (.joinMore level (.binary op left right)) rest (.expr e) rest' →
    Reads (.joinMore level left) (k :: ks) (.expr e) rest'
  | single {ks e rest} :
    Reads (.joined .sum) ks (.expr e) rest → Ahead (· ≠ .colon) rest → Reads .range ks (.expr e) rest
  | range {ks start rest stop rest'} :
    Reads (.joined .sum) ks (.expr start) (.colon :: rest) →
    Reads (.joined .sum) rest (.expr stop) rest' → Ahead (· ≠ .colon) rest' →
    Reads .range ks (.expr (.range start none stop)) rest'
  | stepped {ks start rest step rest' stop rest''} :
    Reads (.joined .sum) ks (.expr start) (.colon :: rest) →
    Reads (.joined .sum) rest (.expr step) (.colon :: rest') →
    Reads (.joined .sum) rest' (.expr stop) rest'' →
    Reads .range ks (.expr (.range start (some step) stop)) rest''
  | sign {k op ks e rest} :
    sign? k = some op → Reads .signed ks (.expr e) rest →
    Reads .signed (k :: ks) (.expr (.unary op e)) rest
  | unsigned {ks e rest} :
    Ahead (sign? · = none) ks → Reads .power ks (.expr e) rest → Reads .signed ks (.expr e) rest
  | power {ks base rest e rest'} :
    Reads .attachment ks (.expr base) rest → Reads (.powerMore base) rest (.expr e) rest' →
    Reads .power ks (.expr e) rest'
  | powerEnd {base ks} :
    Ahead (power? · = none) ks → Reads (.powerMore base) ks (.expr base) ks
  | powerOn {base k op ks e rest e' rest'} :
    power? k = some op → Reads .exponent ks (.expr e) rest →
    Reads (.powerMore (.binary op base e)) rest (.expr e') rest' →
    Reads (.powerMore base) (k :: ks) (.expr e') rest'
  | exponentSign {k op ks e rest} :
    sign? k = some op → Reads .exponent ks (.expr e) rest →
    Reads .exponent (k :: ks) (.expr (.unary op e)) rest
  | exponent {ks e rest} :
    Ahead (sign? · = none) ks → Reads .attachment ks (.expr e) rest → Reads .exponent ks (.expr e) rest
  | attachment {ks base rest e rest'} :
    Reads .primary ks (.expr base) rest → Reads (.attached base) rest (.expr e) rest' →
    Reads .attachment ks (.expr e) rest'
  | transpose {base ks e rest} :
    Reads (.attached (.transpose base)) ks (.expr e) rest →
    Reads (.attached base) (.transpose :: ks) (.expr e) rest
  | field {base name ks e rest} :
    Reads (.attached (.field base name)) ks (.expr e) rest →
    Reads (.attached base) (.dot :: .word name :: ks) (.expr e) rest
  | apply {base ks args rest e rest'} :
    Reads (.arguments .round) ks (.args args) rest →
    Reads (.attached (.apply base args)) rest (.expr e) rest' →
    Reads (.attached base) (.opening .round :: ks) (.expr e) rest'
  | brace {base ks args rest e rest'} :
    Reads (.arguments .curly) ks (.args args) rest →
    Reads (.attached (.brace base args)) rest (.expr e) rest' →
    Reads (.attached base) (.opening .curly :: ks) (.expr e) rest'
  | attachedEnd {base ks} :
    Ahead (fun k => k ≠ .transpose ∧ k ≠ .dot ∧ k ≠ .opening .round ∧ k ≠ .opening .curly) ks →
    Reads (.attached base) ks (.expr base) ks
  | noArguments {bracket ks} :
    Reads (.arguments bracket) (.closing bracket :: ks) (.args []) ks
  | arguments {bracket ks args rest} :
    Ahead (· ≠ .closing bracket) ks → Reads (.moreArguments bracket) ks (.args args) rest →
    Reads (.arguments bracket) ks (.args args) rest
  | argument {bracket ks arg rest args rest'} :
    Reads (.joined .orOr) ks (.expr arg) (.comma :: rest) →
    Reads (.moreArguments bracket) rest (.args args) rest' →
    Reads (.moreArguments bracket) ks (.args (arg :: args)) rest'
  | lastArgument {bracket ks arg rest} :
    Reads (.joined .orOr) ks (.expr arg) (.closing bracket :: rest) →
    Reads (.moreArguments bracket) ks (.args [arg]) rest
  | number {x ks} : Reads .primary (.number x :: ks) (.expr (.number x)) ks
  | quoted {content ks} : Reads .primary (.quoted content :: ks) (.expr (.quoted content)) ks
  | word {name ks} :
    isKeyword name = false → Reads .primary (.word name :: ks) (.expr (.name name)) ks
  | group {ks e rest} :
    Reads (.joined .orOr) ks (.expr e) (.closing .round :: rest) →
    Reads .primary (.opening .round :: ks) (.expr e) rest
  | matrix {ks rows rest} :
    Reads (.rows .square [] []) ks (.rows rows) rest →
    Reads .primary (.opening .square :: ks) (.expr (.matrix rows)) rest
  | cell {ks rows rest} :
    Reads (.rows .curly [] []) ks (.rows rows) rest →
    Reads .primary (.opening .curly :: ks) (.expr (.cell rows)) rest
  | rowsEnd {bracket row rows ks} :
    Reads (.rows bracket row rows) (.closing bracket :: ks) (.rows (closeRow row rows).reverse) ks
  | nextRow {bracket row rows ks all rest} :
    Reads (.rows bracket [] (closeRow row rows)) ks (.rows all) rest →
    Reads (.rows bracket row rows) (.semicolon :: ks) (.rows all) rest
  | rowsComma {bracket row rows ks all rest} :
    Reads (.rows bracket row rows) ks (.rows all) rest →
    Reads (.rows bracket row rows) (.comma :: ks) (.rows all) rest
  | element {bracket row rows ks element rest all rest'} :
    Ahead (fun k => k ≠ .closing bracket ∧ k ≠ .semicolon ∧ k ≠ .comma) ks →
    Reads (.joined .orOr) ks (.expr element) rest →
    Reads (.rows bracket (element :: row) rows) rest (.rows all) rest' →
    Reads (.rows bracket row rows) ks (.rows all) rest'

/-! ## Brackets and assignments -/

/-- The brackets that are open after a kind, innermost first, if it fits. -/
def nest (gs : List Bracket) : TokenKind → Option (List Bracket)
  | .opening b => some (b :: gs)
  | .closing b =>
    match gs with
    | g :: outer => if g = b then some outer else none
    | [] => none
  | _ => some gs

/-- The brackets that are open after these kinds. -/
def nestAll (gs : List Bracket) (ks : List TokenKind) : Option (List Bracket) := ks.foldlM nest gs

theorem nestAll_cons (gs : List Bracket) (k : TokenKind) (ks : List TokenKind) :
    nestAll gs (k :: ks) = nest gs k >>= fun hs => nestAll hs ks := rfl

theorem nestAll_single (gs : List Bracket) (k : TokenKind) : nestAll gs [k] = nest gs k := by
  rw [nestAll_cons]
  cases nest gs k <;> rfl

theorem nestAll_append (gs : List Bracket) (ks ls : List TokenKind) :
    nestAll gs (ks ++ ls) = nestAll gs ks >>= fun hs => nestAll hs ls := List.foldlM_append

/-- The bracket that a step closes which it did not open. -/
def Task.opened : Task → List Bracket
  | arguments bracket => [bracket]
  | moreArguments bracket => [bracket]
  | rows bracket _ _ => [bracket]
  | _ => []

@[simp] theorem opened_below (level : Level) : level.below.opened = [] := by
  cases level <;> rfl

theorem nest_of_operator {level : Level} {k : TokenKind} {op : BinaryOp}
    (h : level.operator? k = some op) (gs : List Bracket) : nest gs k = some gs := by
  cases k with
  | opening b => cases level <;> cases h
  | closing b => cases level <;> cases h
  | _ => rfl

theorem nest_of_sign {k : TokenKind} {op : UnaryOp} (h : sign? k = some op) (gs : List Bracket) :
    nest gs k = some gs := by
  cases k with
  | opening b => cases h
  | closing b => cases h
  | _ => rfl

theorem nest_of_power {k : TokenKind} {op : BinaryOp} (h : power? k = some op) (gs : List Bracket) :
    nest gs k = some gs := by
  cases k with
  | opening b => cases h
  | closing b => cases h
  | _ => rfl

/-- What a step reads leaves the same brackets open, but for the one it closes. -/
theorem Reads.nestAll {task : Task} {ks : List TokenKind} {v : Parsed} {rest : List TokenKind}
    (h : Reads task ks v rest) (gs : List Bracket) :
    Program.nestAll (task.opened ++ gs) ks = Program.nestAll gs rest := by
  induction h generalizing gs with
  | joined _ _ ih₁ ih₂ =>
    rw [opened_below] at ih₁
    exact (ih₁ gs).trans (ih₂ gs)
  | joinEnd => rfl
  | joinOn ho _ _ ih₁ ih₂ =>
    rw [opened_below] at ih₁
    rw [nestAll_cons, nest_of_operator ho]
    exact (ih₁ gs).trans (ih₂ gs)
  | single _ _ ih => exact ih gs
  | range _ _ _ ih₁ ih₂ => exact (ih₁ gs).trans (ih₂ gs)
  | stepped _ _ _ ih₁ ih₂ ih₃ => exact (ih₁ gs).trans ((ih₂ gs).trans (ih₃ gs))
  | sign hs _ ih =>
    rw [nestAll_cons, nest_of_sign hs]
    exact ih gs
  | unsigned _ _ ih => exact ih gs
  | power _ _ ih₁ ih₂ => exact (ih₁ gs).trans (ih₂ gs)
  | powerEnd => rfl
  | powerOn ho _ _ ih₁ ih₂ =>
    rw [nestAll_cons, nest_of_power ho]
    exact (ih₁ gs).trans (ih₂ gs)
  | exponentSign hs _ ih =>
    rw [nestAll_cons, nest_of_sign hs]
    exact ih gs
  | exponent _ _ ih => exact ih gs
  | attachment _ _ ih₁ ih₂ => exact (ih₁ gs).trans (ih₂ gs)
  | transpose _ ih => exact ih gs
  | field _ ih => exact ih gs
  | apply _ _ ih₁ ih₂ => exact (ih₁ gs).trans (ih₂ gs)
  | brace _ _ ih₁ ih₂ => exact (ih₁ gs).trans (ih₂ gs)
  | attachedEnd => rfl
  | noArguments => simp [Task.opened, nestAll_cons, nest]
  | arguments _ _ ih => exact ih gs
  | @argument bracket _ _ _ _ _ _ _ ih₁ ih₂ => exact (ih₁ (bracket :: gs)).trans (ih₂ gs)
  | @lastArgument bracket _ _ _ _ ih =>
    refine (ih (bracket :: gs)).trans ?_
    simp [nestAll_cons, nest]
  | number => rfl
  | quoted => rfl
  | word => rfl
  | group _ ih =>
    refine (ih (.round :: gs)).trans ?_
    simp [nestAll_cons, nest]
  | matrix _ ih => exact ih gs
  | cell _ ih => exact ih gs
  | rowsEnd => simp [Task.opened, nestAll_cons, nest]
  | nextRow _ ih => exact ih gs
  | rowsComma _ ih => exact ih gs
  | @element bracket _ _ _ _ _ _ _ _ _ _ ih₁ ih₂ => exact (ih₁ (bracket :: gs)).trans (ih₂ gs)

/-- How often something is assigned. -/
def assigns (ks : List TokenKind) : Nat := ks.countP (· matches .assign)

theorem assigns_of_operator {level : Level} {k : TokenKind} {op : BinaryOp}
    (h : level.operator? k = some op) (ks : List TokenKind) : assigns (k :: ks) = assigns ks := by
  cases k with
  | assign => cases level <;> cases h
  | _ => rfl

theorem assigns_of_sign {k : TokenKind} {op : UnaryOp} (h : sign? k = some op) (ks : List TokenKind) :
    assigns (k :: ks) = assigns ks := by
  cases k with
  | assign => cases h
  | _ => rfl

theorem assigns_of_power {k : TokenKind} {op : BinaryOp} (h : power? k = some op) (ks : List TokenKind) :
    assigns (k :: ks) = assigns ks := by
  cases k with
  | assign => cases h
  | _ => rfl

/-- Nothing is assigned in an expression. -/
theorem Reads.assigns {task : Task} {ks : List TokenKind} {v : Parsed} {rest : List TokenKind}
    (h : Reads task ks v rest) : Program.assigns ks = Program.assigns rest := by
  induction h with
  | joinOn ho _ _ ih₁ ih₂ => rw [assigns_of_operator ho, ih₁, ih₂]
  | sign hs _ ih => rw [assigns_of_sign hs, ih]
  | exponentSign hs _ ih => rw [assigns_of_sign hs, ih]
  | powerOn ho _ _ ih₁ ih₂ => rw [assigns_of_power ho, ih₁, ih₂]
  | _ => simp_all [Program.assigns]

/-! ## Reading before another rest -/

/-- The number of tokens that a step takes at least. -/
def Task.least : Task → Nat
  | joinMore .. | powerMore _ | attached _ => 0
  | _ => 1

theorem least_below (level : Level) : level.below.least = 1 := by
  cases level <;> rfl

theorem Reads.length {task : Task} {ks : List TokenKind} {v : Parsed} {rest : List TokenKind}
    (h : Reads task ks v rest) : rest.length + task.least ≤ ks.length := by
  induction h with
  | joined _ _ ih₁ ih₂ =>
    rw [least_below] at ih₁
    simp only [Task.least] at *
    omega
  | joinOn _ _ _ ih₁ ih₂ =>
    rw [least_below] at ih₁
    simp only [Task.least, List.length_cons] at *
    omega
  | _ =>
    simp only [Task.least, List.length_cons] at *
    omega

/-- The next kind is the same, or nothing that goes on with an expression. -/
def Follows (rest rest' : List TokenKind) : Prop :=
  rest'.head? = rest.head? ∨ Ahead (fun k => ¬ Continues k) rest'

theorem Follows.append {rest rest' : List TokenKind} (h : Follows rest rest') (chunk : List TokenKind) :
    Follows (chunk ++ rest) (chunk ++ rest') := by
  cases chunk with
  | nil => exact h
  | cons k ks => exact .inl rfl

theorem Follows.ahead {p : TokenKind → Prop} {rest rest' : List TokenKind} (h : Follows rest rest')
    (hp : ∀ k, ¬ Continues k → p k) (ha : Ahead p rest) : Ahead p rest' := by
  rcases h with h | h
  · rw [Ahead, h]
    exact ha
  · exact fun k hk => hp k (h k hk)

/-- From `ks` to `rest` a piece is taken, and `P` holds from that piece on before any rest that does not go on with
an expression. -/
def Exchanges (P : List TokenKind → List TokenKind → Prop) (ks rest : List TokenKind) : Prop :=
  ∃ chunk, ks = chunk ++ rest ∧ ∀ rest', Follows rest rest' → P (chunk ++ rest') rest'

section

variable {P Q : List TokenKind → List TokenKind → Prop} {p : TokenKind → Prop} {ks middle rest : List TokenKind}

theorem Exchanges.imp (h : Exchanges P ks rest) (hPQ : ∀ a c, P a c → Q a c) : Exchanges Q ks rest := by
  obtain ⟨chunk, rfl, h⟩ := h
  exact ⟨chunk, rfl, fun rest' hf => hPQ _ _ (h rest' hf)⟩

theorem exchanges_nil (h : ∀ rest', Follows rest rest' → P rest' rest') : Exchanges P rest rest := ⟨[], rfl, h⟩

theorem exchanges_one (k : TokenKind) (h : ∀ rest, P (k :: rest) rest) : Exchanges P (k :: rest) rest :=
  ⟨[k], rfl, fun rest' _ => h rest'⟩

theorem Exchanges.cons (h : Exchanges P ks rest) (k : TokenKind) :
    Exchanges (fun a c => ∃ b, a = k :: b ∧ P b c) (k :: ks) rest := by
  obtain ⟨chunk, rfl, h⟩ := h
  exact ⟨k :: chunk, rfl, fun rest' hf => ⟨chunk ++ rest', rfl, h rest' hf⟩⟩

/-- One piece behind another one. -/
theorem Exchanges.seq (h₁ : Exchanges P ks middle) (h₂ : Exchanges Q middle rest) :
    Exchanges (fun a c => ∃ b, P a b ∧ Q b c) ks rest := by
  obtain ⟨c₁, rfl, h₁⟩ := h₁
  obtain ⟨c₂, rfl, h₂⟩ := h₂
  refine ⟨c₁ ++ c₂, (List.append_assoc ..).symm, fun rest' hf => ⟨c₂ ++ rest', ?_, h₂ rest' hf⟩⟩
  rw [List.append_assoc]
  exact h₁ _ (hf.append c₂)

/-- A kind behind the piece, whatever follows it. -/
theorem Exchanges.concat {k : TokenKind} (h : Exchanges P ks (k :: rest)) :
    Exchanges (fun a c => P a (k :: c)) ks rest := by
  obtain ⟨chunk, rfl, h⟩ := h
  refine ⟨chunk ++ [k], by simp, fun rest' _ => ?_⟩
  rw [List.append_assoc]
  exact h _ (.inl rfl)

/-- What is asked of the kind behind the piece does not go on with an expression, so it stays true. -/
theorem Exchanges.behind (h : Exchanges P ks rest) (ha : Ahead p rest) (hp : ∀ k, ¬ Continues k → p k) :
    Exchanges (fun a c => P a c ∧ Ahead p c) ks rest := by
  obtain ⟨chunk, rfl, h⟩ := h
  exact ⟨chunk, rfl, fun rest' hf => ⟨h rest' hf, hf.ahead hp ha⟩⟩

/-- What is asked of the first kind of the piece stays true, if it has one. -/
theorem Exchanges.front (h : Exchanges P ks rest) (ha : Ahead p ks) (hlt : rest.length < ks.length) :
    Exchanges (fun a c => Ahead p a ∧ P a c) ks rest := by
  obtain ⟨chunk, rfl, h⟩ := h
  refine ⟨chunk, rfl, fun rest' hf => ⟨?_, h rest' hf⟩⟩
  cases chunk with
  | nil => simp at hlt
  | cons k ks => exact ha

end

/-- A step takes a piece from the front of the kinds, and it reads the same from that piece before
any rest that does not go on with an expression. -/
theorem Reads.exchange {task : Task} {ks : List TokenKind} {v : Parsed} {rest : List TokenKind}
    (h : Reads task ks v rest) : Exchanges (fun ks rest => Reads task ks v rest) ks rest := by
  induction h with
  | joined _ _ ih₁ ih₂ => exact (ih₁.seq ih₂).imp fun _ _ ⟨_, h₁, h₂⟩ => .joined h₁ h₂
  | joinEnd ha => exact exchanges_nil fun _ hf => .joinEnd (hf.ahead (fun k hk => operator?_eq_none hk _) ha)
  | joinOn ho _ _ ih₁ ih₂ =>
    refine ((ih₁.seq ih₂).cons _).imp ?_
    rintro _ _ ⟨_, rfl, _, h₁, h₂⟩
    exact .joinOn ho h₁ h₂
  | single _ ha ih =>
    refine (ih.behind ha ?_).imp fun _ _ ⟨h, ha⟩ => .single h ha
    rintro k hk rfl
    exact hk .colon
  | range _ _ ha ih₁ ih₂ =>
    refine (ih₁.seq ((ih₂.behind ha ?_).cons _)).imp ?_
    · rintro k hk rfl
      exact hk .colon
    · rintro _ _ ⟨_, h₁, _, rfl, h₂, ha⟩
      exact .range h₁ h₂ ha
  | stepped _ _ _ ih₁ ih₂ ih₃ =>
    refine (ih₁.seq ((ih₂.seq (ih₃.cons _)).cons _)).imp ?_
    rintro _ _ ⟨_, h₁, _, rfl, _, h₂, _, rfl, h₃⟩
    exact .stepped h₁ h₂ h₃
  | sign hs _ ih =>
    refine (ih.cons _).imp ?_
    rintro _ _ ⟨_, rfl, h⟩
    exact .sign hs h
  | unsigned ha hr ih => exact (ih.front ha hr.length).imp fun _ _ ⟨ha, h⟩ => .unsigned ha h
  | power _ _ ih₁ ih₂ => exact (ih₁.seq ih₂).imp fun _ _ ⟨_, h₁, h₂⟩ => .power h₁ h₂
  | powerEnd ha => exact exchanges_nil fun _ hf => .powerEnd (hf.ahead (fun k hk => power?_eq_none hk) ha)
  | powerOn ho _ _ ih₁ ih₂ =>
    refine ((ih₁.seq ih₂).cons _).imp ?_
    rintro _ _ ⟨_, rfl, _, h₁, h₂⟩
    exact .powerOn ho h₁ h₂
  | exponentSign hs _ ih =>
    refine (ih.cons _).imp ?_
    rintro _ _ ⟨_, rfl, h⟩
    exact .exponentSign hs h
  | exponent ha hr ih => exact (ih.front ha hr.length).imp fun _ _ ⟨ha, h⟩ => .exponent ha h
  | attachment _ _ ih₁ ih₂ => exact (ih₁.seq ih₂).imp fun _ _ ⟨_, h₁, h₂⟩ => .attachment h₁ h₂
  | transpose _ ih =>
    refine (ih.cons _).imp ?_
    rintro _ _ ⟨_, rfl, h⟩
    exact .transpose h
  | field _ ih =>
    refine ((ih.cons _).cons _).imp ?_
    rintro _ _ ⟨_, rfl, _, rfl, h⟩
    exact .field h
  | apply _ _ ih₁ ih₂ =>
    refine ((ih₁.seq ih₂).cons _).imp ?_
    rintro _ _ ⟨_, rfl, _, h₁, h₂⟩
    exact .apply h₁ h₂
  | brace _ _ ih₁ ih₂ =>
    refine ((ih₁.seq ih₂).cons _).imp ?_
    rintro _ _ ⟨_, rfl, _, h₁, h₂⟩
    exact .brace h₁ h₂
  | attachedEnd ha =>
    refine exchanges_nil fun _ hf => .attachedEnd (hf.ahead (fun k hk => ⟨?_, ?_, ?_, ?_⟩) ha) <;> rintro rfl
    · exact hk .transpose
    · exact hk .dot
    · exact hk .round
    · exact hk .curly
  | noArguments => exact exchanges_one _ fun _ => .noArguments
  | arguments ha hr ih => exact (ih.front ha hr.length).imp fun _ _ ⟨ha, h⟩ => .arguments ha h
  | argument _ _ ih₁ ih₂ =>
    refine (ih₁.seq (ih₂.cons _)).imp ?_
    rintro _ _ ⟨_, h₁, _, rfl, h₂⟩
    exact .argument h₁ h₂
  | lastArgument _ ih => exact ih.concat.imp fun _ _ h => .lastArgument h
  | number => exact exchanges_one _ fun _ => .number
  | quoted => exact exchanges_one _ fun _ => .quoted
  | word hkey => exact exchanges_one _ fun _ => .word hkey
  | group _ ih =>
    refine (ih.concat.cons _).imp ?_
    rintro _ _ ⟨_, rfl, h⟩
    exact .group h
  | matrix _ ih =>
    refine (ih.cons _).imp ?_
    rintro _ _ ⟨_, rfl, h⟩
    exact .matrix h
  | cell _ ih =>
    refine (ih.cons _).imp ?_
    rintro _ _ ⟨_, rfl, h⟩
    exact .cell h
  | rowsEnd => exact exchanges_one _ fun _ => .rowsEnd
  | nextRow _ ih =>
    refine (ih.cons _).imp ?_
    rintro _ _ ⟨_, rfl, h⟩
    exact .nextRow h
  | rowsComma _ ih =>
    refine (ih.cons _).imp ?_
    rintro _ _ ⟨_, rfl, h⟩
    exact .rowsComma h
  | element ha hr _ ih₁ ih₂ =>
    refine ((ih₁.front ha hr.length).seq ih₂).imp ?_
    rintro _ _ ⟨_, ⟨ha, h₁⟩, h₂⟩
    exact .element ha h₁ h₂

/-! ## How an expression begins -/

/-- The steps that read an operand first. -/
def Task.begins : Task → Bool
  | joinMore .. | powerMore _ | attached _ | arguments _ | moreArguments _ | rows .. => false
  | _ => true

theorem begins_below (level : Level) : level.below.begins = true := by
  cases level <;> rfl

/-- What an operand begins with: a sign, a literal, a name or an opening bracket. -/
inductive Starts : TokenKind → Prop
  | sign {k : TokenKind} {op : UnaryOp} : sign? k = some op → Starts k
  | number (x : Float) : Starts (.number x)
  | quoted (content : Text) : Starts (.quoted content)
  | word {name : Text} : isKeyword name = false → Starts (.word name)
  | opening (b : Bracket) : Starts (.opening b)

theorem Reads.starts {task : Task} {ks : List TokenKind} {v : Parsed} {rest : List TokenKind}
    (h : Reads task ks v rest) (ht : task.begins = true) : ∃ k ls, ks = k :: ls ∧ Starts k := by
  induction h with
  | joined _ _ ih₁ _ => exact ih₁ (begins_below _)
  | single _ _ ih => exact ih rfl
  | range _ _ _ ih₁ _ => exact ih₁ rfl
  | stepped _ _ _ ih₁ _ _ => exact ih₁ rfl
  | sign hs => exact ⟨_, _, rfl, .sign hs⟩
  | unsigned _ _ ih => exact ih rfl
  | power _ _ ih₁ _ => exact ih₁ rfl
  | exponentSign hs => exact ⟨_, _, rfl, .sign hs⟩
  | exponent _ _ ih => exact ih rfl
  | attachment _ _ ih₁ _ => exact ih₁ rfl
  | number => exact ⟨_, _, rfl, .number _⟩
  | quoted => exact ⟨_, _, rfl, .quoted _⟩
  | word hkey => exact ⟨_, _, rfl, .word hkey⟩
  | group | matrix | cell => exact ⟨_, _, rfl, .opening _⟩
  | _ => cases ht

/-- Neither separates statements nor is an equals sign or two. -/
def Begins (k : TokenKind) : Prop := k.separates = false ∧ k ≠ .assign ∧ k ≠ .equal

theorem Starts.begins {k : TokenKind} (h : Starts k) : Begins k := by
  cases h with
  | sign hs =>
    cases k with
    | plus | minus | not => exact ⟨rfl, nofun, nofun⟩
    | _ => cases hs
  | _ => exact ⟨rfl, nofun, nofun⟩

theorem Starts.ne_closing {k : TokenKind} (h : Starts k) (b : Bracket) : k ≠ .closing b := by
  rintro rfl
  cases h with
  | sign hs => cases hs

theorem Reads.begins {task : Task} {ks : List TokenKind} {v : Parsed} {rest : List TokenKind}
    (h : Reads task ks v rest) (ht : task.begins = true) : ∃ k ls, ks = k :: ls ∧ Begins k := by
  obtain ⟨k, ls, hk, hs⟩ := h.starts ht
  exact ⟨k, ls, hk, hs.begins⟩

end Program

end ConfigScript
