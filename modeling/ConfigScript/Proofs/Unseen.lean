import ConfigScript.Proofs.Shapes
/-!
# What an expression does not see

An expression reads the variables that it names, and through calls of `exist` it may ask for any. Its value is
the same under variables that differ in others (`Expr.eval_congr`).
-/

namespace ConfigScript

namespace Expr

variable {P : Text → Prop} {s : Surroundings} {w w' : Workspace}

/-- Nothing among these expressions tells what variables with the property hold, or whether there are any: none of
them is named, and `exist` is not called. -/
structure Blind (P : Text → Prop) (es : List Expr) : Prop where
  names : ∀ n, P n → .name n ∉ es
  exist : ∀ args, .apply (.name "exist".toList) args ∉ es

/-- The same under these variables: where `exist` has arguments, it may be a variable too. -/
structure BlindUnder (P : Text → Prop) (w : Workspace) (es : List Expr) : Prop where
  names : ∀ n, P n → .name n ∉ es
  exist : ∀ args, .apply (.name "exist".toList) args ∈ es → (w.lookup "exist".toList).isSome = true

theorem Blind.under {es : List Expr} (h : Blind P es) (w : Workspace) : BlindUnder P w es :=
  ⟨h.names, fun args hm => (h.exist args hm).elim⟩

theorem BlindUnder.mono {es es' : List Expr} (h : BlindUnder P w es) (hsub : es' ⊆ es) : BlindUnder P w es' :=
  ⟨fun n hn hm => h.names n hn (hsub hm), fun args hm => h.exist args (hsub hm)⟩

theorem ofName?_exist {n : Text} (h : Function.ofName? n = some .exist) : n = "exist".toList := by
  have hnamed : ∀ p ∈ Function.named, p.2 = .exist → p.1 = "exist".toList := by decide
  exact hnamed _ (Table.mem_of_lookup h) rfl

/-- Only `exist` looks at the variables. -/
theorem callName_within {n : Text} {args : List Value} (h : n ≠ "exist".toList ∨ args = []) :
    callName (Statement.within s w') n args = callName (Statement.within s w) n args := by
  unfold callName
  split
  · next f hf =>
    cases f with
    | exist =>
      obtain rfl := h.resolve_left fun hn => hn (ofName?_exist hf)
      rfl
    | _ => rfl
  · rfl

theorem BlindUnder.lookup {n : Text} {es : List Expr} (h : BlindUnder P w es) (hn : .name n ∈ es)
    (hw : ∀ n, ¬ P n → w'.lookup n = w.lookup n) :
    (Statement.within s w').workspace.lookup n = (Statement.within s w).workspace.lookup n :=
  hw n fun hp => h.names n hp hn

/-- An index into what is no name. -/
theorem eval_index {callee : Expr} {args : List Expr} (h : ∀ n, callee ≠ .name n) :
    eval s (.apply callee args) = (do
      let args ← evalList s args
      (← eval s callee).index args) := by
  cases callee with
  | name n => exact (h n rfl).elim
  | _ => rfl

mutual

/-- An expression has the same value under variables that differ in what it does not see. -/
theorem eval_congr (hw : ∀ n, ¬ P n → w'.lookup n = w.lookup n) :
    (e : Expr) → BlindUnder P w e.parts → e.eval (Statement.within s w') = e.eval (Statement.within s w)
  | number x, _ => by rw [eval, eval]
  | quoted content, _ => by rw [eval, eval]
  | name n, hb => by
    rw [eval, eval, hb.lookup (mem_parts_self _) hw, callName_within (.inr rfl)]
  | matrix rows, hb => by
    rw [eval, eval, evalRows_congr hw rows (hb.mono fun x hx => by simp [parts, hx])]
  | cell rows, hb => by
    rw [eval, eval, evalRows_congr hw rows (hb.mono fun x hx => by simp [parts, hx])]
  | unary op e, hb => by
    rw [eval, eval, eval_congr hw e (hb.mono fun x hx => by simp [parts, hx])]
  | binary op l r, hb => by
    have hl := eval_congr hw l (hb.mono fun x hx => by simp [parts, hx])
    have hr := eval_congr hw r (hb.mono fun x hx => by simp [parts, hx])
    cases op <;> simp only [eval, hl, hr]
  | range start none stop, hb => by
    have hstart := eval_congr hw start (hb.mono fun x hx => by simp [parts, hx])
    have hstop := eval_congr hw stop (hb.mono fun x hx => by simp [parts, hx])
    rw [eval, eval, hstart, hstop]
  | range start (some step) stop, hb => by
    have hstart := eval_congr hw start (hb.mono fun x hx => by simp [parts, hx])
    have hstep := eval_congr hw step (hb.mono fun x hx => by simp [parts, hx])
    have hstop := eval_congr hw stop (hb.mono fun x hx => by simp [parts, hx])
    rw [eval, eval, hstart, hstep, hstop]
  | apply callee args, hb => by
    have hcallee := eval_congr hw callee (hb.mono fun x hx => by simp [parts, hx])
    have hargs := evalList_congr hw args (hb.mono fun x hx => by simp [parts, hx])
    by_cases hname : ∃ n, callee = .name n
    · obtain ⟨n, rfl⟩ := hname
      have hn := hb.lookup (s := s) (n := n) (by simp [parts]) hw
      by_cases hexist : n = "exist".toList
      · -- a variable is indexed
        subst hexist
        obtain ⟨v, hv⟩ := Option.isSome_iff_exists.1 (hb.exist args (mem_parts_self _))
        have hv : (Statement.within s w).workspace.lookup "exist".toList = some v := hv
        simp only [eval, hargs, hn, hv]
      · have hcall : ∀ vs, callName (Statement.within s w') n vs = callName (Statement.within s w) n vs :=
          fun vs => callName_within (.inl hexist)
        simp only [eval, hargs, hn, hcall]
    · have hne : ∀ n, callee ≠ .name n := fun n h => hname ⟨n, h⟩
      rw [eval_index hne, eval_index hne, hargs, hcallee]
  | brace callee args, hb => by
    have hcallee := eval_congr hw callee (hb.mono fun x hx => by simp [parts, hx])
    have hargs := evalList_congr hw args (hb.mono fun x hx => by simp [parts, hx])
    rw [eval, eval, hargs, hcallee]
  | field base f, hb => by
    rw [eval, eval, eval_congr hw base (hb.mono fun x hx => by simp [parts, hx])]
  | transpose e, hb => by
    rw [eval, eval, eval_congr hw e (hb.mono fun x hx => by simp [parts, hx])]

theorem evalList_congr (hw : ∀ n, ¬ P n → w'.lookup n = w.lookup n) : (es : List Expr) →
    BlindUnder P w (partsList es) →
    evalList (Statement.within s w') es = evalList (Statement.within s w) es
  | [], _ => by rw [evalList, evalList]
  | e :: rest, hb => by
    rw [evalList, evalList, eval_congr hw e (hb.mono fun x hx => by simp [partsList, hx]),
      evalList_congr hw rest (hb.mono fun x hx => by simp [partsList, hx])]

theorem evalRows_congr (hw : ∀ n, ¬ P n → w'.lookup n = w.lookup n) : (rows : List (List Expr)) →
    BlindUnder P w (partsRows rows) → evalRows (Statement.within s w') rows = evalRows (Statement.within s w) rows
  | [], _ => by rw [evalRows, evalRows]
  | row :: rest, hb => by
    rw [evalRows, evalRows, evalList_congr hw row (hb.mono fun x hx => by simp [partsRows, hx]),
      evalRows_congr hw rest (hb.mono fun x hx => by simp [partsRows, hx])]

end

end Expr

end ConfigScript
