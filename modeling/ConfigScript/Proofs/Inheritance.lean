import ConfigScript.Proofs.Results
/-!
# What values inherit

A property of values that every operation hands on from its operands to its result
(`Value.Inherited`) holds of everything that an evaluation builds: of the value of an expression
(`Expr.eval_inherits`), of the variables at every point of a run and after it
(`Statement.evaluatedAll_keeps`, `Statement.runAll_keeps`). What a property asks of the operands of
operators in addition is asked of those of the run only (`Expr.Takes`). The inductions over
expressions and statements are done here once.
-/

namespace ConfigScript

/-- Every operation of the evaluation gives a value with the property `P` for operands with it. Operators, and
`isnan` among the functions, may ask `T` of what they take as well. -/
structure Value.Inherited (T P : Value → Prop) : Prop where
  logical : ∀ b, P (.logical b)
  double : ∀ x, P (.double x)
  text : ∀ t, P (.text t)
  noFields : P (.struct [])
  cell : ∀ {items}, (∀ v ∈ items, P v) → P (.cell items)
  call : ∀ {s : Surroundings} {f : Function} {name args v},
    (∀ a ∈ args, P a) → (f = .isnan → ∀ a ∈ args, T a) → f.call s name args = .ok v → P v
  unary : ∀ {op v w}, P v → T v → Value.unary op v = .ok w → P w
  binary : ∀ {op v w u}, P v → P w → T v → T w → Value.binary op v w = .ok u → P u
  range : ∀ {start step stop v}, Value.range start step stop = .ok v → P v
  transpose : ∀ {v w}, P v → Value.transpose v = .ok w → P w
  index : ∀ {v args w}, P v → (∀ a ∈ args, P a) → Value.index v args = .ok w → P w
  brace : ∀ {v args w}, P v → Value.brace v args = .ok w → P w
  beside : ∀ {vs w}, (∀ v ∈ vs, P v) → Value.beside vs = .ok w → P w
  stacked : ∀ {vs w}, (∀ v ∈ vs, P v) → Value.stacked vs = .ok w → P w
  readField : ∀ {f v w}, P v → Expr.readField f v = .ok w → P w
  setField : ∀ {v new : Value} {path w}, P v → P new → v.setField path new = .ok w → P w

/-- A property that a cell has if its items have it. The fields of a struct have it if the struct has, which keeps
it with another such field. -/
structure Value.Structural (P : Value → Prop) : Prop where
  cell : ∀ {items}, P (.cell items) ↔ ∀ v ∈ items, P v
  noFields : P (.struct [])
  fields : ∀ {fields : Table Value}, P (.struct fields) → ∀ p ∈ fields, P p.2
  insert : ∀ {fields : Table Value} {name v}, P (.struct fields) → P v → P (.struct (fields.insert name v))

/-- Every variable has the property. -/
def Workspace.All (P : Value → Prop) (w : Workspace) : Prop := ∀ n v, w.lookup n = some v → P v

variable {T P : Value → Prop} {s : Surroundings} {v : Value}

/-! ## Cells and structs -/

namespace Value

variable {w new : Value} {vs : List Value}

theorem Structural.joinedItems (hP : Structural P) (h : ∀ v ∈ vs, P v) : P (.cell (joinedItems vs)) := by
  refine hP.cell.2 fun v hv => ?_
  obtain ⟨u, hu, hv⟩ := List.mem_flatMap.1 hv
  have hPu := h u hu
  split at hv
  · exact hP.cell.1 hPu v hv
  · rw [List.mem_singleton.1 hv]
    exact hPu

theorem Structural.brace (hP : Structural P) (hv : P v) (h : v.brace vs = .ok w) : P w := by
  obtain ⟨items, rfl, hw⟩ := brace_eq_ok h
  exact hP.cell.1 hv w hw

/-- What a subscript selects has the property, if the numbers that it picks make a matrix with it. -/
theorem Structural.selected (hP : Structural P) (htext : ∀ t, P (.text t)) (hdouble : ∀ x, P (.double x))
    (hnumbers : ∀ {arg ps} {xs : List Float}, arg ∈ vs → arg.positions = .ok ps → xs.length = ps.length →
      P (.ofMatrix (.row xs.toArray)))
    (hv : P v) (h : Selects v vs w) : P w := by
  cases h with
  | self => exact hv
  | text t => exact htext t
  | double x => exact hdouble x
  | items htarget hmem =>
    subst htarget
    exact hP.cell.2 fun u hu => hP.cell.1 hv u (hmem u hu)
  | numbers hmem hps hlength => exact hnumbers hmem hps hlength

/-- What a bracket joins has the property, if matrices of a possible size have it. -/
theorem Structural.joined (hP : Structural P) (htext : ∀ t, P (.text t)) (hempty : P .empty)
    (hnumbers : ∀ {m : Matrix}, 0 < m.data.size → m.data.size ≤ Matrix.maxElements → P (.ofMatrix m))
    (hvs : ∀ u ∈ vs, P u) (h : Joins vs w) : P w := by
  cases h with
  | alone hmem => exact hvs w hmem
  | nothing => exact hempty
  | text t => exact htext t
  | items hmem => exact hP.joinedItems fun u hu => hvs u (hmem u hu)
  | numbers hpos hmax => exact hnumbers hpos hmax

theorem Structural.readField (hP : Structural P) {field : Text} (hv : P v) (h : Expr.readField field v = .ok w) :
    P w := by
  obtain ⟨fields, rfl, hw⟩ := readField_eq_ok h
  exact hP.fields hv _ hw

/-- A struct of named values. -/
theorem Structural.ofList (hP : Structural P) {entries : List (Text × Value)} (he : ∀ p ∈ entries, P p.2) :
    P (.struct (Table.ofList entries)) := by
  suffices h : ∀ t : Table Value, P (.struct t) →
      P (.struct (entries.foldl (fun t (name, entry) => Table.insert name entry t) t)) from h [] hP.noFields
  induction entries with
  | nil => exact fun _ h => h
  | cons p entries ih =>
    intro t ht
    exact ih (fun q hq => he q (List.mem_cons_of_mem p hq)) _ (hP.insert ht (he p List.mem_cons_self))

theorem Structural.setField (hP : Structural P) {path : List Text} (hv : P v) (hnew : P new)
    (h : v.setField path new = .ok w) : P w := by
  induction path generalizing v w with
  | nil =>
    cases h
    exact hnew
  | cons field path ih =>
    rw [Value.setField] at h
    have htarget : P (if v.isBlankMatrix then .struct [] else v) := by
      split
      · exact hP.noFields
      · exact hv
    split at h
    · next fields heq =>
      rw [heq] at htarget
      obtain ⟨entry, hentry, h⟩ := bind_eq_ok.1 h
      cases h
      have hold : P ((fields.lookup field).getD (.struct [])) := by
        cases hl : fields.lookup field with
        | none => exact hP.noFields
        | some old => exact hP.fields htarget _ (Table.mem_of_lookup hl)
      exact hP.insert htarget (ih hold hentry)
    · cases h

end Value

/-! ## Expressions -/

namespace Expr

open Value (Inherited)

mutual

/-- The expressions in an expression, itself among them. -/
def parts : Expr → List Expr
  | number x => [number x]
  | quoted content => [quoted content]
  | name n => [name n]
  | matrix rows => matrix rows :: partsRows rows
  | cell rows => cell rows :: partsRows rows
  | unary op e => unary op e :: parts e
  | binary op l r => binary op l r :: (parts l ++ parts r)
  | range start none stop => range start none stop :: (parts start ++ parts stop)
  | range start (some step) stop =>
    range start (some step) stop :: (parts start ++ (parts step ++ parts stop))
  | apply callee args => apply callee args :: (parts callee ++ partsList args)
  | brace callee args => brace callee args :: (parts callee ++ partsList args)
  | field base f => field base f :: parts base
  | transpose e => transpose e :: parts e

def partsList : List Expr → List Expr
  | [] => []
  | e :: rest => parts e ++ partsList rest

def partsRows : List (List Expr) → List Expr
  | [] => []
  | row :: rest => partsList row ++ partsRows rest

end

theorem mem_parts_self (e : Expr) : e ∈ e.parts := by
  cases e with
  | range start step stop =>
    cases step with
    | none => simp [parts]
    | some step => simp [parts]
  | _ => simp [parts]

theorem mem_partsList {x : Expr} {es : List Expr} : x ∈ partsList es ↔ ∃ e ∈ es, x ∈ e.parts := by
  induction es with
  | nil => simp [partsList]
  | cons e es ih => simp [partsList, ih]

theorem mem_partsRows {x : Expr} {rows : List (List Expr)} :
    x ∈ partsRows rows ↔ ∃ row ∈ rows, x ∈ partsList row := by
  induction rows with
  | nil => simp [partsRows]
  | cons row rows ih => simp [partsRows, ih]

/-- With each of these expressions there are its parts. -/
def HoldsParts (es : List Expr) : Prop := ∀ x ∈ es, x.parts ⊆ es

theorem HoldsParts.append {es fs : List Expr} (he : HoldsParts es) (hf : HoldsParts fs) : HoldsParts (es ++ fs) := by
  intro x hx
  rcases List.mem_append.1 hx with hx | hx
  · exact List.Subset.trans (he x hx) (List.subset_append_left _ _)
  · exact List.Subset.trans (hf x hx) (List.subset_append_right _ _)

/-- An expression and what is in it. -/
theorem HoldsParts.under {e : Expr} {es : List Expr} (h : HoldsParts es) (hparts : e.parts = e :: es) :
    HoldsParts e.parts := by
  intro x hx
  rw [hparts] at hx
  rcases List.mem_cons.1 hx with rfl | hx
  · exact fun _ hy => hy
  · rw [hparts]
    exact List.Subset.trans (h x hx) (List.subset_cons_self _ _)

mutual

theorem parts_subset : (e : Expr) → HoldsParts e.parts
  | number _ | quoted _ | name _ => @HoldsParts.under _ [] nofun (by rw [parts])
  | matrix rows | cell rows => (partsRows_subset rows).under (by rw [parts])
  | unary _ e | field e _ | transpose e => (parts_subset e).under (by rw [parts])
  | binary _ l r | range l none r => ((parts_subset l).append (parts_subset r)).under (by rw [parts])
  | range l (some m) r =>
    ((parts_subset l).append ((parts_subset m).append (parts_subset r))).under (by rw [parts])
  | apply callee args | brace callee args =>
    ((parts_subset callee).append (partsList_subset args)).under (by rw [parts])

theorem partsList_subset : (es : List Expr) → HoldsParts (partsList es)
  | [] => nofun
  | e :: rest => (parts_subset e).append (partsList_subset rest)

theorem partsRows_subset : (rows : List (List Expr)) → HoldsParts (partsRows rows)
  | [] => nofun
  | row :: rest => (partsList_subset row).append (partsRows_subset rest)

end

/-- A binary operator joins conditions to a truth value, or works on the values of both operands. -/
theorem eval_binary {op : BinaryOp} {l r : Expr} (h : eval s (.binary op l r) = .ok v) :
    (∃ b, v = .logical b) ∨ (op ≠ .andAnd ∧ op ≠ .orOr) ∧
      ∃ a b, eval s l = .ok a ∧ eval s r = .ok b ∧ Value.binary op a b = .ok v := by
  cases op with
  | andAnd | orOr =>
    left
    rw [eval] at h
    obtain ⟨a, -, h⟩ := bind_eq_ok.1 h
    obtain ⟨p, -, h⟩ := bind_eq_ok.1 h
    split at h
    all_goals first
      | (cases h; exact ⟨_, rfl⟩)
      | (obtain ⟨b, -, h⟩ := bind_eq_ok.1 h
         obtain ⟨q, -, h⟩ := bind_eq_ok.1 h
         cases h
         exact ⟨_, rfl⟩)
  | _ =>
    right
    rw [eval] at h
    · obtain ⟨a, ha, h⟩ := bind_eq_ok.1 h
      obtain ⟨b, hb, h⟩ := bind_eq_ok.1 h
      exact ⟨⟨nofun, nofun⟩, a, b, ha, hb, h⟩
    · exact nofun
    · exact nofun

/-- A range is one of numbers. -/
theorem eval_range {start stop : Expr} {step : Option Expr} (h : eval s (.range start step stop) = .ok v) :
    ∃ x y z, Value.range x y z = .ok v := by
  cases step with
  | none =>
    rw [eval] at h
    obtain ⟨a, -, h⟩ := bind_eq_ok.1 h
    obtain ⟨x, -, h⟩ := bind_eq_ok.1 h
    obtain ⟨b, -, h⟩ := bind_eq_ok.1 h
    obtain ⟨z, -, h⟩ := bind_eq_ok.1 h
    exact ⟨x, 1.0, z, h⟩
  | some step =>
    rw [eval] at h
    obtain ⟨a, -, h⟩ := bind_eq_ok.1 h
    obtain ⟨x, -, h⟩ := bind_eq_ok.1 h
    obtain ⟨b, -, h⟩ := bind_eq_ok.1 h
    obtain ⟨y, -, h⟩ := bind_eq_ok.1 h
    obtain ⟨c, -, h⟩ := bind_eq_ok.1 h
    obtain ⟨z, -, h⟩ := bind_eq_ok.1 h
    exact ⟨x, y, z, h⟩

/-- What stands in front of arguments is called, or its value is indexed. -/
theorem eval_apply {callee : Expr} {args : List Expr} (h : eval s (.apply callee args) = .ok v) :
    ∃ vs, evalList s args = .ok vs ∧
      ((∃ n, callee = .name n ∧ callName s n vs = .ok v) ∨ ∃ target, eval s callee = .ok target ∧ target.index vs = .ok v) := by
  cases callee with
  | name n =>
    rw [eval] at h
    obtain ⟨vs, hvs, h⟩ := bind_eq_ok.1 h
    refine ⟨vs, hvs, ?_⟩
    split at h
    · next w hw =>
      refine .inr ⟨w, ?_, h⟩
      rw [eval, hw]
    · exact .inl ⟨n, rfl, h⟩
  | _ =>
    rw [eval] at h
    · obtain ⟨vs, hvs, h⟩ := bind_eq_ok.1 h
      obtain ⟨target, htarget, h⟩ := bind_eq_ok.1 h
      exact ⟨vs, hvs, .inr ⟨target, htarget, h⟩⟩
    · exact nofun

/-- The expressions whose values become numbers, one for each character if they are texts: the operands of
operators other than `&&` and `||`, and the arguments of `isnan`. -/
inductive Operand (es : List Expr) : Expr → Prop
  | unary {op : UnaryOp} {e : Expr} : unary op e ∈ es → Operand es e
  | left {op : BinaryOp} {l r : Expr} : binary op l r ∈ es → op ≠ .andAnd → op ≠ .orOr → Operand es l
  | right {op : BinaryOp} {l r : Expr} : binary op l r ∈ es → op ≠ .andAnd → op ≠ .orOr → Operand es r
  | flags {n : Text} {args : List Expr} {e : Expr} : apply (name n) args ∈ es →
      Function.ofName? n = some .isnan → e ∈ args → Operand es e

/-- Among these expressions an operator or `isnan` takes the value. -/
def Takes (s : Surroundings) (es : List Expr) (v : Value) : Prop := ∃ e, Operand es e ∧ e.eval s = .ok v

theorem Operand.mono {es es' : List Expr} {e : Expr} (hsub : es' ⊆ es) (h : Operand es' e) : Operand es e := by
  cases h with
  | unary hmem => exact .unary (hsub hmem)
  | left hmem hand hor => exact .left (hsub hmem) hand hor
  | right hmem hand hor => exact .right (hsub hmem) hand hor
  | flags hmem hname he => exact .flags (hsub hmem) hname he

/-- An operand is one of the expressions. -/
theorem Operand.mem {e d : Expr} (h : Operand e.parts d) : d ∈ e.parts := by
  cases h with
  | unary hmem => exact parts_subset e _ hmem (by simp [parts, mem_parts_self])
  | left hmem => exact parts_subset e _ hmem (by simp [parts, mem_parts_self])
  | right hmem => exact parts_subset e _ hmem (by simp [parts, mem_parts_self])
  | flags hmem _ harg =>
    refine parts_subset e _ hmem ?_
    rw [parts]
    exact List.mem_cons_of_mem _ (List.mem_append_right _ (mem_partsList.2 ⟨_, harg, mem_parts_self _⟩))

/-- What operators and `isnan` take among these expressions has the property. -/
def Suits (T : Value → Prop) (s : Surroundings) (es : List Expr) : Prop := ∀ v, Takes s es v → T v

theorem Suits.mono {es es' : List Expr} (h : Suits T s es) (hsub : es' ⊆ es) : Suits T s es' :=
  fun v ⟨e, he, hv⟩ => h v ⟨e, he.mono hsub, hv⟩

theorem suits_true {es : List Expr} : Suits (fun _ => True) s es := fun _ _ => trivial

theorem exists_of_evalList {es : List Expr} {vs : List Value} (h : evalList s es = .ok vs) {v : Value}
    (hv : v ∈ vs) : ∃ e ∈ es, eval s e = .ok v := by
  induction es generalizing vs with
  | nil =>
    cases h
    cases hv
  | cons e es ih =>
    rw [evalList] at h
    obtain ⟨w, hw, h⟩ := bind_eq_ok.1 h
    obtain ⟨more, hmore, h⟩ := bind_eq_ok.1 h
    cases h
    rcases List.mem_cons.1 hv with rfl | hv
    · exact ⟨e, List.mem_cons_self, hw⟩
    · obtain ⟨d, hd, hdv⟩ := ih hmore hv
      exact ⟨d, List.mem_cons_of_mem e hd, hdv⟩

theorem callName_inherits (hP : Inherited T P) {name : Text} {args : List Value}
    (hargs : ∀ a ∈ args, P a) (hT : Function.ofName? name = some .isnan → ∀ a ∈ args, T a)
    (h : callName s name args = .ok v) : P v := by
  unfold callName at h
  split at h
  · next f hf => exact hP.call hargs (fun hisnan => hT (hisnan ▸ hf)) h
  · cases h

mutual

/-- The value of an expression has the property, if the variables do. -/
theorem eval_inherits (hP : Inherited T P) (hs : s.workspace.All P) :
    (e : Expr) → Suits T s e.parts → (v : Value) → eval s e = .ok v → P v
  | number x, _, v, h => by
    cases h
    exact hP.double x
  | quoted content, _, v, h => by
    cases h
    exact hP.text content
  | name n, _, v, h => by
    rw [eval] at h
    split at h
    · next hw =>
      cases h
      exact hs n _ hw
    · exact callName_inherits hP (fun _ ha => absurd ha List.not_mem_nil) (fun _ _ ha => absurd ha List.not_mem_nil) h
  | matrix rows, hT, v, h => by
    rw [eval] at h
    obtain ⟨vss, hvss, h⟩ := bind_eq_ok.1 h
    obtain ⟨vs, hvs, h⟩ := bind_eq_ok.1 h
    have hrows := evalRows_inherits hP hs rows (hT.mono fun x hx => by simp [parts, hx]) vss hvss
    refine hP.stacked (fun w hw => ?_) h
    obtain ⟨row, hrow, hbeside⟩ := Value.mem_of_mapM hvs hw
    exact hP.beside (hrows row hrow) hbeside
  | cell rows, hT, v, h => by
    rw [eval] at h
    obtain ⟨vss, hvss, h⟩ := bind_eq_ok.1 h
    cases h
    have hrows := evalRows_inherits hP hs rows (hT.mono fun x hx => by simp [parts, hx]) vss hvss
    refine hP.cell fun w hw => ?_
    obtain ⟨row, hrow, hw⟩ := List.mem_flatten.1 hw
    exact hrows row hrow w hw
  | unary op e, hT, v, h => by
    rw [eval] at h
    obtain ⟨a, ha, h⟩ := bind_eq_ok.1 h
    exact hP.unary (eval_inherits hP hs e (hT.mono fun x hx => by simp [parts, hx]) a ha)
      (hT a ⟨e, .unary (mem_parts_self _), ha⟩) h
  | binary op l r, hT, v, h => by
    rcases eval_binary h with ⟨b, rfl⟩ | ⟨⟨hand, hor⟩, a, b, ha, hb, h⟩
    · exact hP.logical b
    · exact hP.binary (eval_inherits hP hs l (hT.mono fun x hx => by simp [parts, hx]) a ha)
        (eval_inherits hP hs r (hT.mono fun x hx => by simp [parts, hx]) b hb)
        (hT a ⟨l, .left (mem_parts_self _) hand hor, ha⟩) (hT b ⟨r, .right (mem_parts_self _) hand hor, hb⟩) h
  | range start step stop, _, v, h => by
    obtain ⟨x, y, z, h⟩ := eval_range h
    exact hP.range h
  | apply callee args, hT, v, h => by
    obtain ⟨vs, hvs, hcases⟩ := eval_apply h
    have hargs := evalList_inherits hP hs args (hT.mono fun x hx => by simp [parts, hx]) vs hvs
    rcases hcases with ⟨n, rfl, hcall⟩ | ⟨target, htarget, hindex⟩
    · refine callName_inherits hP hargs (fun hisnan a ha => ?_) hcall
      obtain ⟨e, he, hea⟩ := exists_of_evalList hvs ha
      exact hT a ⟨e, .flags (mem_parts_self _) hisnan he, hea⟩
    · exact hP.index (eval_inherits hP hs callee (hT.mono fun x hx => by simp [parts, hx]) target htarget) hargs
        hindex
  | brace callee args, hT, v, h => by
    rw [eval] at h
    obtain ⟨target, htarget, h⟩ := bind_eq_ok.1 h
    obtain ⟨vs, -, h⟩ := bind_eq_ok.1 h
    exact hP.brace (eval_inherits hP hs callee (hT.mono fun x hx => by simp [parts, hx]) target htarget) h
  | field base f, hT, v, h => by
    rw [eval] at h
    obtain ⟨a, ha, h⟩ := bind_eq_ok.1 h
    exact hP.readField (eval_inherits hP hs base (hT.mono fun x hx => by simp [parts, hx]) a ha) h
  | transpose e, hT, v, h => by
    rw [eval] at h
    obtain ⟨a, ha, h⟩ := bind_eq_ok.1 h
    exact hP.transpose (eval_inherits hP hs e (hT.mono fun x hx => by simp [parts, hx]) a ha) h

theorem evalList_inherits (hP : Inherited T P) (hs : s.workspace.All P) :
    (es : List Expr) → Suits T s (partsList es) → (vs : List Value) → evalList s es = .ok vs → ∀ v ∈ vs, P v
  | [], _, vs, h => by
    cases h
    exact nofun
  | e :: rest, hT, vs, h => by
    rw [evalList] at h
    obtain ⟨v, hv, h⟩ := bind_eq_ok.1 h
    obtain ⟨more, hmore, h⟩ := bind_eq_ok.1 h
    cases h
    intro w hw
    rcases List.mem_cons.1 hw with rfl | hw
    · exact eval_inherits hP hs e (hT.mono fun x hx => by simp [partsList, hx]) w hv
    · exact evalList_inherits hP hs rest (hT.mono fun x hx => by simp [partsList, hx]) more hmore w hw

theorem evalRows_inherits (hP : Inherited T P) (hs : s.workspace.All P) :
    (rows : List (List Expr)) → Suits T s (partsRows rows) → (vss : List (List Value)) →
      evalRows s rows = .ok vss → ∀ vs ∈ vss, ∀ v ∈ vs, P v
  | [], _, vss, h => by
    cases h
    exact nofun
  | row :: rest, hT, vss, h => by
    rw [evalRows] at h
    obtain ⟨vs, hvs, h⟩ := bind_eq_ok.1 h
    obtain ⟨more, hmore, h⟩ := bind_eq_ok.1 h
    cases h
    intro ws hws
    rcases List.mem_cons.1 hws with rfl | hws
    · exact evalList_inherits hP hs row (hT.mono fun x hx => by simp [partsRows, hx]) ws hvs
    · exact evalRows_inherits hP hs rest (hT.mono fun x hx => by simp [partsRows, hx]) more hmore ws hws

end

end Expr

/-! ## Statements -/

namespace Workspace

open Value (Inherited)

theorem All.assign {w w' : Workspace} {target : Text} {path : List Text}
    (hP : Inherited T P) (hw : w.All P) (hv : P v) (h : w.assign target path v = .ok w') : w'.All P := by
  obtain ⟨u, hu, h⟩ := bind_eq_ok.1 h
  cases h
  have hold : P ((w.lookup target).getD (.struct [])) := by
    cases hl : w.lookup target with
    | none => exact hP.noFields
    | some old => exact hw _ _ hl
  intro n x hx
  by_cases hn : n = target
  · subst hn
    rw [Table.lookup_insert_self] at hx
    cases hx
    exact hP.setField hold hv hu
  · rw [Table.lookup_insert_of_ne hn] at hx
    exact hw n x hx

end Workspace

theorem onLine_eq_ok {α : Type} {line : Nat} {x : Except Fault α} {a : α} :
    onLine line x = .ok a ↔ x = .ok a := by
  cases x with
  | ok b => simp [onLine]
  | error fault => simp [onLine]

namespace Statement

open Value (Inherited)

mutual

/-- The expressions that a statement evaluates, each with the variables it sees. -/
def evaluated (s : Surroundings) (w : Workspace) : Statement → List (Workspace × Expr)
  | assign _ _ _ e => [(w, e)]
  | eval _ e => [(w, e)]
  | cond line branches otherwise =>
    evaluatedBranches s w line branches ++
      match runBranches s w line branches with
      | .ok none =>
        match otherwise with
        | some body => evaluatedAll s w body
        | none => []
      | _ => []

def evaluatedBranches (s : Surroundings) (w : Workspace) (line : Nat) : List Branch → List (Workspace × Expr)
  | [] => []
  | .mk condition body :: rest =>
    (w, condition) ::
      match condition.eval (within s w) >>= Value.holds with
      | .ok true => evaluatedAll s w body
      | .ok false => evaluatedBranches s w line rest
      | .error _ => []

def evaluatedAll (s : Surroundings) (w : Workspace) : List Statement → List (Workspace × Expr)
  | [] => []
  | statement :: rest =>
    evaluated s w statement ++
      match run s w statement with
      | .ok w' => evaluatedAll s w' rest
      | .error _ => []

end

/-- What the assignments of a run keep of the variables, where the expressions evaluated have `E`. -/
def Kept (s : Surroundings) (E : Workspace × Expr → Prop) (Q : Workspace → Prop) : Prop :=
  ∀ {w w' : Workspace} {target : Text} {path : List Text} {e : Expr} {v : Value}, Q w → E (w, e) →
    e.eval (within s w) = .ok v → w.assign target path v = .ok w' → Q w'

variable {E : Workspace × Expr → Prop} {Q : Workspace → Prop}

mutual

/-- A statement keeps what its assignments keep. -/
theorem run_keeps (hQ : Kept s E Q) : (st : Statement) → (w w' : Workspace) → Q w →
    (∀ p ∈ evaluated s w st, E p) → run s w st = .ok w' → Q w'
  | assign line target path e, w, w', hw, hE, h => by
    rw [run] at h
    obtain ⟨v, hv, h⟩ := bind_eq_ok.1 (onLine_eq_ok.1 h)
    exact hQ hw (hE (w, e) (by simp [evaluated])) hv h
  | eval line e, w, w', hw, _, h => by
    rw [run] at h
    obtain ⟨v, -, h⟩ := bind_eq_ok.1 (onLine_eq_ok.1 h)
    cases h
    exact hw
  | cond line branches none, w, w', hw, hE, h => by
    rw [run] at h
    obtain ⟨after, hbranches, h⟩ := bind_eq_ok.1 h
    rw [evaluated] at hE
    cases after with
    | some after =>
      cases h
      exact runBranches_keeps hQ branches line w w' hw (fun p hp => hE p (List.mem_append_left _ hp)) hbranches
    | none =>
      cases h
      exact hw
  | cond line branches (some body), w, w', hw, hE, h => by
    rw [run] at h
    obtain ⟨after, hbranches, h⟩ := bind_eq_ok.1 h
    rw [evaluated, hbranches] at hE
    cases after with
    | some after =>
      cases h
      exact runBranches_keeps hQ branches line w w' hw (fun p hp => hE p (List.mem_append_left _ hp)) hbranches
    | none => exact runAll_keeps hQ body w w' hw (fun p hp => hE p (List.mem_append_right _ hp)) h

theorem runBranches_keeps (hQ : Kept s E Q) : (branches : List Branch) → (line : Nat) →
    (w w' : Workspace) → Q w → (∀ p ∈ evaluatedBranches s w line branches, E p) →
    runBranches s w line branches = .ok (some w') → Q w'
  | [], line, w, w', hw, _, h => by
    rw [runBranches] at h
    cases h
  | .mk condition body :: rest, line, w, w', hw, hE, h => by
    rw [runBranches] at h
    obtain ⟨holds, hholds, h⟩ := bind_eq_ok.1 h
    have hcondition : (condition.eval (within s w) >>= Value.holds) = .ok holds := onLine_eq_ok.1 hholds
    rw [evaluatedBranches, hcondition] at hE
    cases holds with
    | true =>
      obtain ⟨after, hafter, h⟩ := bind_eq_ok.1 h
      cases h
      exact runAll_keeps hQ body w w' hw (fun p hp => hE p (List.mem_cons_of_mem _ hp)) hafter
    | false => exact runBranches_keeps hQ rest line w w' hw (fun p hp => hE p (List.mem_cons_of_mem _ hp)) h

theorem runAll_keeps (hQ : Kept s E Q) : (ss : List Statement) → (w w' : Workspace) → Q w →
    (∀ p ∈ evaluatedAll s w ss, E p) → runAll s w ss = .ok w' → Q w'
  | [], w, w', hw, _, h => by
    rw [runAll] at h
    cases h
    exact hw
  | st :: rest, w, w', hw, hE, h => by
    rw [runAll] at h
    obtain ⟨after, hafter, h⟩ := bind_eq_ok.1 h
    rw [evaluatedAll, hafter] at hE
    exact runAll_keeps hQ rest after w'
      (run_keeps hQ st w after hw (fun p hp => hE p (List.mem_append_left _ hp)) hafter)
      (fun p hp => hE p (List.mem_append_right _ hp)) h

end

mutual

/-- What assignments keep holds of the variables that the expressions of a statement see. -/
theorem evaluated_keeps (hQ : Kept s E Q) : (st : Statement) → (w : Workspace) → Q w →
    (∀ p ∈ evaluated s w st, E p) → ∀ p ∈ evaluated s w st, Q p.1
  | assign line target path e, w, hw, _, p, hp => by
    rw [evaluated, List.mem_singleton] at hp
    exact hp ▸ hw
  | eval line e, w, hw, _, p, hp => by
    rw [evaluated, List.mem_singleton] at hp
    exact hp ▸ hw
  | cond line branches none, w, hw, hE, p, hp => by
    rw [evaluated] at hp hE
    rcases List.mem_append.1 hp with hp | hp
    · exact evaluatedBranches_keeps hQ branches line w hw (fun p hp => hE p (List.mem_append_left _ hp)) p hp
    · split at hp <;> cases hp
  | cond line branches (some body), w, hw, hE, p, hp => by
    rw [evaluated] at hp hE
    rcases List.mem_append.1 hp with hp | hp
    · exact evaluatedBranches_keeps hQ branches line w hw (fun p hp => hE p (List.mem_append_left _ hp)) p hp
    · split at hp
      · next hbranches =>
        rw [hbranches] at hE
        exact evaluatedAll_keeps hQ body w hw (fun p hp => hE p (List.mem_append_right _ hp)) p hp
      · cases hp

theorem evaluatedBranches_keeps (hQ : Kept s E Q) : (branches : List Branch) → (line : Nat) →
    (w : Workspace) → Q w → (∀ p ∈ evaluatedBranches s w line branches, E p) →
    ∀ p ∈ evaluatedBranches s w line branches, Q p.1
  | [], line, w, hw, _, p, hp => by
    rw [evaluatedBranches] at hp
    cases hp
  | .mk condition body :: rest, line, w, hw, hE, p, hp => by
    rw [evaluatedBranches] at hp hE
    rcases List.mem_cons.1 hp with rfl | hp
    · exact hw
    · split at hp
      · next hholds =>
        rw [hholds] at hE
        exact evaluatedAll_keeps hQ body w hw (fun p hp => hE p (List.mem_cons_of_mem _ hp)) p hp
      · next hholds =>
        rw [hholds] at hE
        exact evaluatedBranches_keeps hQ rest line w hw (fun p hp => hE p (List.mem_cons_of_mem _ hp)) p hp
      · cases hp

theorem evaluatedAll_keeps (hQ : Kept s E Q) : (ss : List Statement) → (w : Workspace) → Q w →
    (∀ p ∈ evaluatedAll s w ss, E p) → ∀ p ∈ evaluatedAll s w ss, Q p.1
  | [], w, hw, _, p, hp => by
    rw [evaluatedAll] at hp
    cases hp
  | st :: rest, w, hw, hE, p, hp => by
    rw [evaluatedAll] at hp hE
    rcases List.mem_append.1 hp with hp | hp
    · exact evaluated_keeps hQ st w hw (fun p hp => hE p (List.mem_append_left _ hp)) p hp
    · split at hp
      · next after hafter =>
        rw [hafter] at hE
        exact evaluatedAll_keeps hQ rest after
          (run_keeps hQ st w after hw (fun p hp => hE p (List.mem_append_left _ hp)) hafter)
          (fun p hp => hE p (List.mem_append_right _ hp)) p hp
      · cases hp

end

theorem kept_inherited (hP : Inherited T P) :
    Kept s (fun p => Expr.Suits T (within s p.1) p.2.parts) (·.All P) :=
  fun hw hT hv h => hw.assign hP (Expr.eval_inherits hP hw _ hT _ hv) h

theorem kept_sorted : Kept s (fun _ => True) Table.Sorted := fun hw _ _ h => by
  obtain ⟨u, -, h⟩ := bind_eq_ok.1 h
  cases h
  exact hw.insert _ u

end Statement

end ConfigScript
