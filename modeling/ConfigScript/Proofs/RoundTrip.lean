import ConfigScript.Proofs.Denotations
import ConfigScript.Proofs.Elements
/-!
# Values through their texts

The text of a normal value denotes an equivalent value: one case for each kind of value, by recursion
over cells and structs (`Value.denotes_render`). What a run builds is normal (`Runner.Builds.normal`),
so its text evaluates back to an equivalent value (`Runner.evaluate_render`). What that asks of empty
matrices, the operands of the run see to (`Runner.evaluate_render_of_operands`).
-/

namespace ConfigScript

open Token (Writes callText)
open Value (sameNumber)

namespace Value

/-! ## What can be written -/

/-- The finite numbers among these values. -/
inductive HasNumber (vs : List Value) : Float → Prop
  | double {x : Float} : double x ∈ vs → Number.finite x = true → HasNumber vs x
  | element {m : Matrix} {x : Float} : matrix m ∈ vs → x ∈ m.data → Number.finite x = true → HasNumber vs x

/-- What it takes to write these values into a script: no name of a field holds a line break, no matrix
is larger than a script may make it, and the exact digits of every finite number read back. The last of
these is what printing and reading of doubles are known for. -/
structure Writable (vs : List Value) : Prop where
  names : ∀ fields, struct fields ∈ vs → ∀ p ∈ fields, '\n' ∉ p.1
  sizes : ∀ m, matrix m ∈ vs → m.data.size ≤ Matrix.maxElements
  numbers : ∀ x, HasNumber vs x → Number.ReadsBack x.abs

theorem HasNumber.mono {vs ws : List Value} (hsub : vs ⊆ ws) {x : Float} (h : HasNumber vs x) : HasNumber ws x := by
  cases h with
  | double hmem hf => exact .double (hsub hmem) hf
  | element hmem hx hf => exact .element (hsub hmem) hx hf

theorem Writable.mono {vs ws : List Value} (h : Writable ws) (hsub : vs ⊆ ws) : Writable vs where
  names fields hmem := h.names fields (hsub hmem)
  sizes m hmem := h.sizes m (hsub hmem)
  numbers x hx := h.numbers x (hx.mono hsub)

/-! ## Structs -/

variable {s : Surroundings}

/-- Names and values by turns. -/
def byTurns (fields : List (Text × Value)) : List Value := fields.flatMap fun p => [text p.1, p.2]

theorem fields_byTurns (name : Text) (fields : List (Text × Value)) :
    Function.fields name (byTurns fields) = .ok fields := by
  induction fields with
  | nil => rfl
  | cons p fields ih =>
    show Function.fields name (text p.1 :: p.2 :: byTurns fields) = _
    rw [Function.fields, ih]
    rfl

theorem length_byTurns (fields : List (Text × Value)) : (byTurns fields).length % 2 = 0 := by
  induction fields with
  | nil => rfl
  | cons p fields ih =>
    show ((byTurns fields).length + 2) % 2 = 0
    omega

/-- The texts of names and values by turns. -/
def textsByTurns (fields : List (Text × Value)) : List Text :=
  fields.flatMap fun p => [Text.quote p.1, p.2.render]

theorem join_renderFields (fields : List (Text × Value)) :
    Text.join ", ".toList (renderFields fields) = Text.join ", ".toList (textsByTurns fields) := by
  induction fields with
  | nil => rfl
  | cons p fields ih =>
    obtain ⟨name, v⟩ := p
    cases fields with
    | nil =>
      show Text.join ", ".toList [_] = Text.join ", ".toList [_, _]
      rw [Text.join_single, Text.join_cons_cons, Text.join_single, List.append_assoc]
    | cons q fields =>
      have hturns : textsByTurns ((name, v) :: q :: fields) =
        Text.quote name :: v.render :: Text.quote q.1 :: q.2.render :: textsByTurns fields := rfl
      rw [hturns, Text.join_cons_cons, Text.join_cons_cons]
      show Text.join ", ".toList (_ :: _ :: renderFields fields) = _
      rw [Text.join_cons_cons]
      have ih : Text.join ", ".toList (_ :: renderFields fields) = Text.join ", ".toList (_ :: _ :: textsByTurns fields) := ih
      rw [ih]
      simp

theorem render_struct (fields : List (Text × Value)) :
    (struct fields).render = callText "struct".toList (textsByTurns fields) := by
  have hopen : "struct(".toList = "struct".toList ++ ['('] := rfl
  show "struct(".toList ++ Text.join ", ".toList (renderFields fields) ++ [')'] = _
  rw [join_renderFields, hopen, List.append_assoc, List.append_assoc]
  rfl

/-- Names and the texts of values are read as a struct of them. -/
theorem denotes_struct (hs : s.Clear) {ts : List Text} {fields : Table Value}
    (hargs : List.Forall₂ (Denotes s) ts (byTurns fields)) (hsorted : Table.Sorted fields) :
    Denotes s (callText "struct".toList ts) (.struct fields) := by
  refine denotes_call hs (by decide) (by decide) hargs ?_
  have hname : Function.ofName? "struct".toList = some .struct := by decide
  unfold Expr.callName
  rw [hname]
  show (if _ then _ else _) = _
  rw [if_neg (by rw [length_byTurns]; decide), fields_byTurns]
  exact congrArg (fun t => Except.ok (Value.struct t)) (Table.ofList_of_sorted hsorted)

theorem callName_constant {name : Text} {f : Function} {v : Value} (hf : Function.ofName? name = some f)
    (hv : f.call s name [] = .ok v) : Expr.callName s name [] = .ok v := by
  unfold Expr.callName
  rw [hf]
  exact hv

theorem denotes_logical (hs : s.Clear) (b : Bool) : Denotes s (logical b).render (.logical b) := by
  cases b with
  | false =>
    exact denotes_name hs (t := "false".toList) (by decide) (by decide) (callName_constant (f := .falseValue) (by decide) rfl)
  | true =>
    exact denotes_name hs (t := "true".toList) (by decide) (by decide) (callName_constant (f := .trueValue) (by decide) rfl)

/-! ## All values -/

mutual

/-- The text of a normal value is written as an equivalent value. -/
theorem denotes_render (hs : s.Clear) : (v : Value) → v.Normal → Writable v.parts →
    ∃ v', Denotes s v.render v' ∧ v'.equivalent v = true
  | logical b, _, _ => by
    exact ⟨.logical b, denotes_logical hs b, equivalent_refl _⟩
  | double x, _, hw => by
    obtain ⟨y, hy, hsame⟩ := Number.denotes_render hs fun hf => hw.numbers x (.double (by simp [parts]) hf)
    exact ⟨.double y, hy, hsame⟩
  | text t, _, _ => ⟨.text t, denotes_text hs t, equivalent_refl _⟩
  | matrix m, hn, hw => by
    cases hn with
    | matrix hone hm =>
      exact m.denotes_render hs hm hone (hw.sizes m (by simp [parts])) fun x hx hf =>
        hw.numbers x (.element (by simp [parts]) hx hf)
  | cell items, hn, hw => by
    obtain ⟨vs, hvs, hagree⟩ := denotes_renderItems hs items hn.items (hw.mono fun v hv => by simp [parts, hv])
    exact ⟨.cell vs, denotes_curly hvs, hagree⟩
  | struct fields, hn, hw => by
    obtain ⟨hsorted, hall⟩ := hn.fields
    obtain ⟨fields', hargs, hnames, hagree⟩ := denotes_renderFields hs fields hall
      (hw.names fields (by simp [parts])) (hw.mono fun v hv => by simp [parts, hv])
    have hsorted' : Table.Sorted fields' := by
      unfold Table.Sorted
      rwa [hnames]
    refine ⟨.struct fields', ?_, ?_⟩
    · rw [render_struct]
      exact denotes_struct hs hargs hsorted'
    · rw [equivalent, agrees]
      exact hagree

theorem denotes_renderItems (hs : s.Clear) : (vs : List Value) → (∀ v ∈ vs, v.Normal) →
    Writable (partsList vs) →
    ∃ vs', List.Forall₂ (Denotes s) (renderItems vs) vs' ∧ agreeItems sameNumber vs' vs = true
  | [], _, _ => ⟨[], .nil, rfl⟩
  | v :: vs, hn, hw => by
    obtain ⟨v', hv, hagree⟩ := denotes_render hs v (hn v List.mem_cons_self) (hw.mono fun v hv => by simp [partsList, hv])
    obtain ⟨vs', hvs, hagrees⟩ := denotes_renderItems hs vs (fun u hu => hn u (List.mem_cons_of_mem v hu))
      (hw.mono fun v hv => by simp [partsList, hv])
    refine ⟨v' :: vs', .cons hv hvs, ?_⟩
    rw [equivalent] at hagree
    rw [agreeItems, hagree, hagrees]
    rfl

theorem denotes_renderFields (hs : s.Clear) : (fields : List (Text × Value)) →
    (∀ p ∈ fields, p.2.Normal) → (∀ p ∈ fields, '\n' ∉ p.1) → Writable (partsFields fields) →
    ∃ fields', List.Forall₂ (Denotes s) (textsByTurns fields) (byTurns fields') ∧
      Table.names fields' = Table.names fields ∧ agreeFields sameNumber fields' fields = true
  | [], _, _, _ => ⟨[], .nil, rfl, rfl⟩
  | (name, v) :: fields, hn, hnames, hw => by
    obtain ⟨v', hv, hagree⟩ := denotes_render hs v (hn (name, v) List.mem_cons_self)
      (hw.mono fun v hv => by simp [partsFields, hv])
    obtain ⟨fields', hargs, hsame, hagrees⟩ := denotes_renderFields hs fields
      (fun p hp => hn p (List.mem_cons_of_mem _ hp)) (fun p hp => hnames p (List.mem_cons_of_mem _ hp))
      (hw.mono fun v hv => by simp [partsFields, hv])
    refine ⟨(name, v') :: fields', .cons (denotes_quote (hnames _ List.mem_cons_self)) (.cons hv hargs),
      congrArg (name :: ·) hsame, ?_⟩
    rw [equivalent] at hagree
    rw [agreeFields, hagree, hagrees]
    simp

end

end Value

/-! ## Runners -/

namespace Runner

open Value (Writable)

variable {settings : Settings} {process : Table Text} {v : Value} {source : Text}

theorem evaluateUnder_of_denotes (h : Denotes ⟨settings, process, []⟩ source v) :
    evaluateUnder settings process source = .ok v := by
  obtain ⟨e, hw, he⟩ := h
  exact evaluateUnder_eq_ok.2 ⟨e, readExpr_eq_ok.2 hw.tokens, he⟩

theorem evaluate_render_of_normal (r : Runner) (hv : v.Normal) (hw : Writable v.parts) :
    ∃ v', r.evaluate v.render = .ok v' ∧ v'.equivalent v = true := by
  obtain ⟨v', hdenotes, hequiv⟩ := Value.denotes_render (s := r.surroundings) (fun _ _ => rfl) v hv hw
  exact ⟨v', evaluateUnder_of_denotes hdenotes, hequiv⟩

/-- The text of a value that a run builds, of an expression or of a variable that a script binds, evaluates to
an equivalent value under any settings. The value can be written, and doubles count the sizes of its empty
matrices. -/
theorem evaluate_render (r : Runner) (hv : Builds settings process v) (hw : Writable v.parts)
    (hsizes : v.Each Matrix.Measured) :
    ∃ v', r.evaluate v.render = .ok v' ∧ v'.equivalent v = true :=
  evaluate_render_of_normal r (hv.normal hsizes) hw

/-- Doubles count them all as long as operators and `isnan` take fewer than 2^53 elements. -/
theorem evaluate_render_of_operands (r : Runner) {q : Request}
    (hsmall : ∀ {s e}, Evaluates settings process q s e → Expr.Suits (fun v => v.count < 2 ^ 53) s e.parts)
    (hv : BuildsFor settings process q v) (hw : Writable v.parts) :
    ∃ v', r.evaluate v.render = .ok v' ∧ v'.equivalent v = true :=
  evaluate_render_of_normal r (hv.normal (hv.measured hsmall)) hw

theorem writes_half : Writes "0.5".toList (.number 0.5) := by
  have hspelled := Token.spelled_pointed (t := ['0']) (u := ['5']) ⟨nofun, by simp⟩ ⟨nofun, by simp⟩
  have hvalue : (Number.Numeral.mk ['0'] ['5'] 0).value = 0.5 := by decide +kernel
  exact hvalue ▸ Token.writes_numeral hspelled

theorem eval_cell {s : Surroundings} : Expr.eval s (.cell [[.number 0.5, .quoted "it's".toList]]) =
    .ok (.cell [.double 0.5, .text "it's".toList]) := rfl

theorem writable_cell : Writable (Value.cell [.double 0.5, .text "it's".toList]).parts := by
  refine ⟨?_, ?_, fun x hx => ?_⟩
  · simp [Value.parts, Value.partsList]
  · simp [Value.parts, Value.partsList]
  · cases hx with
    | double hmem _ =>
      obtain rfl : x = 0.5 := by simpa [Value.parts, Value.partsList] using hmem
      decide +kernel
    | element hmem _ _ => simp [Value.parts, Value.partsList] at hmem

/-- A cell of a number and a text with an apostrophe. -/
theorem evaluate_render_cell :
    ∃ v', Runner.plain.evaluate (Value.cell [.double 0.5, .text "it's".toList]).render = .ok v' ∧
      v'.equivalent (.cell [.double 0.5, .text "it's".toList]) = true := by
  have hwrites : Writes "\x7b0.5, 'it''s'\x7d".toList (.cell [[.number 0.5, .quoted "it's".toList]]) :=
    Token.writes_curly (.cons writes_half (.cons (Token.writes_quote (t := "it's".toList) (by decide)) .nil))
  have hread := readExpr_eq_ok.2 hwrites.tokens
  have hbuilds : Builds {} [] (.cell [.double 0.5, .text "it's".toList]) :=
    .expression hread (.part (Expr.mem_parts_self _) eval_cell)
  exact evaluate_render plain hbuilds writable_cell (by simp)

end Runner

end ConfigScript
