import ConfigScript.Evaluation
import ConfigScript.Proofs.Basic
import ConfigScript.Proofs.Wholes
import Mathlib.Data.List.Forall2
/-!
# What operations give

For every kind of operation, the values that it can give: a call (`Function.Gives`), an operator on
two matrices (`Value.Combines`), a range (`Value.range_cases`), a subscript (`Value.Selects`), a bracket
(`Value.Joins`). What is proved of values is proved by cases over these, so nothing else looks into the
operations.
-/

namespace ConfigScript

open Number (Counted counted_of_lt)

namespace Value

/-! ## Lists of results -/

theorem mem_of_pick {α : Type} {xs : Array α} {p : Nat} {x : α} (h : pick xs p = .ok x) : x ∈ xs := by
  unfold pick at h
  split at h
  · next hx =>
    cases h
    exact Array.mem_of_getElem? hx
  · cases h

/-- A list of results is a result of each element. -/
theorem mapM_eq_ok {ε α β : Type} {f : α → Except ε β} {xs : List α} {ys : List β} :
    xs.mapM f = .ok ys ↔ List.Forall₂ (fun x y => f x = .ok y) xs ys := by
  induction xs generalizing ys with
  | nil =>
    constructor <;> rintro ⟨⟩
    · exact .nil
    · rfl
  | cons x xs ih =>
    rw [List.mapM_cons]
    constructor
    · intro h
      obtain ⟨y, hy, h⟩ := bind_eq_ok.1 h
      obtain ⟨ys₀, hys₀, h⟩ := bind_eq_ok.1 h
      cases h
      exact .cons hy (ih.1 hys₀)
    · rintro (_ | ⟨hy, hys⟩)
      exact bind_eq_ok.2 ⟨_, hy, bind_eq_ok.2 ⟨_, ih.2 hys, rfl⟩⟩

theorem mapM_eq_map {ε α β : Type} {f : α → Except ε β} {g : α → β} {xs : List α} (h : ∀ x ∈ xs, f x = .ok (g x)) :
    xs.mapM f = .ok (xs.map g) :=
  mapM_eq_ok.2 (List.forall₂_map_right_iff.2 (List.forall₂_same.2 h))

/-- Two steps for each element are both steps for the list. -/
theorem mapM_bind_eq_ok {ε α β γ : Type} {f : α → Except ε β} {g : β → Except ε γ} {xs : List α} {zs : List γ} :
    (xs.mapM f >>= fun ys => ys.mapM g) = .ok zs ↔ List.Forall₂ (fun x z => (f x >>= g) = .ok z) xs zs := by
  simp only [bind_eq_ok, mapM_eq_ok]
  constructor
  · rintro ⟨ys, hxs, hys⟩
    induction hxs generalizing zs with
    | nil =>
      cases hys
      exact .nil
    | cons hx _ ih =>
      cases hys with
      | cons hy hys => exact .cons ⟨_, hx, hy⟩ (ih hys)
  · intro h
    induction h with
    | nil => exact ⟨[], .nil, .nil⟩
    | cons hx _ ih =>
      obtain ⟨y, hy, hz⟩ := hx
      obtain ⟨ys, hxs, hys⟩ := ih
      exact ⟨y :: ys, .cons hy hxs, .cons hz hys⟩

theorem exists_forall₂ {α β : Type} {R : α → β → Prop} {xs : List α} (h : ∀ x ∈ xs, ∃ y, R x y) :
    ∃ ys, List.Forall₂ R xs ys := by
  induction xs with
  | nil => exact ⟨[], .nil⟩
  | cons x xs ih =>
    obtain ⟨y, hy⟩ := h x List.mem_cons_self
    obtain ⟨ys, hys⟩ := ih fun x' hx' => h x' (List.mem_cons_of_mem x hx')
    exact ⟨y :: ys, .cons hy hys⟩

theorem mem_of_mapM {α β : Type} {f : α → Except Fault β} {xs : List α} {ys : List β} (h : xs.mapM f = .ok ys)
    {y : β} (hy : y ∈ ys) : ∃ x ∈ xs, f x = .ok y := by
  induction mapM_eq_ok.1 h with
  | nil => cases hy
  | @cons x y₀ xs ys hx hxs ih =>
    rcases List.mem_cons.1 hy with rfl | hy
    · exact ⟨x, List.mem_cons_self, hx⟩
    · obtain ⟨x', hx', hfx⟩ := ih (mapM_eq_ok.2 hxs) hy
      exact ⟨x', List.mem_cons_of_mem x hx', hfx⟩

theorem length_of_mapM {α β : Type} {f : α → Except Fault β} {xs : List α} {ys : List β}
    (h : xs.mapM f = .ok ys) : ys.length = xs.length :=
  (mapM_eq_ok.1 h).length_eq.symm

end Value

/-! ## Calls -/

namespace Function

/-- What a call can give: a value without matrices, nothing, a struct of arguments, or numbers that
are filled in, computed from arguments, or sizes. Only `isnan` makes a number of every character of a text. -/
inductive Gives (callee : Function) (args : List Value) : Value → Prop
  | logical (b : Bool) : Gives callee args (.logical b)
  | double (x : Float) : Gives callee args (.double x)
  | text (t : Text) : Gives callee args (.text t)
  | nothing : Gives callee args .empty
  | struct {entries : List (Text × Value)} :
      (∀ p ∈ entries, p.2 ∈ args) → Gives callee args (.struct (Table.ofList entries))
  | filled {rows cols : Nat} (x : Float) : Counted rows → Counted cols → Matrix.fits rows cols = true →
      Gives callee args (.ofMatrix (.filled rows cols x))
  | blanks {t : Text} : callee = .isnan → .text t ∈ args → Gives callee args (.ofMatrix (.filled 1 t.length 0.0))
  | mapped {a : Value} {m : Matrix} (f : Float → Float) :
      a ∈ args → a.matrix? = some m → Gives callee args (.ofMatrix (m.map f))
  | flagged {a : Value} {m : Matrix} (f : Float → Float) :
      a ∈ args → a.matrix? = some m → Gives callee args (.ofFlags (m.map f))
  | paired {a b : Value} {m n k : Matrix} {f : Float → Float → Float} : a ∈ args → b ∈ args →
      a.matrix? = some m → b.matrix? = some n → Matrix.combine? f m n = some k → Gives callee args (.ofMatrix k)
  | sizes (x y : Float) : Gives callee args (.matrix (.row #[x, y]))
  | sums {a : Value} {m : Matrix} : a ∈ args → a.matrix? = some m → 1 < m.rows → m.cols ≠ 1 →
      Gives callee args (.matrix m.columnSums)

variable {s : Surroundings} {callee : Function} {name : Text} {args : List Value} {v w : Value}

theorem one_eq_ok : one name args = .ok v ↔ args = [v] := by
  unfold one
  split
  · simp
  · next hne => exact iff_of_false nofun fun h => hne v h

theorem two_eq_ok : two name args = .ok (v, w) ↔ args = [v, w] := by
  unfold two
  split
  · simp
  · next hne => exact iff_of_false nofun fun h => hne v w h

theorem constant_eq_ok (h : constant name args w = .ok v) : v = w := by
  unfold constant at h
  split at h
  · exact (Except.ok.inj h).symm
  · cases h

theorem dimension_counted {n : Nat} (h : dimension name v = .ok n) : Counted n := by
  unfold dimension at h
  split at h
  · split at h
    · exact ⟨_, Except.ok.inj h⟩
    · cases h
  · cases h

theorem numbersOf_eq_ok {m : Matrix} (h : numbersOf name v = .ok m) : v.matrix? = some m := by
  unfold numbersOf at h
  split at h
  · next hm => exact hm.trans (congrArg some (Except.ok.inj h))
  · cases h

theorem one_mem (h : one name args = .ok v) : v ∈ args := one_eq_ok.1 h ▸ List.mem_singleton_self v

theorem filled_gives {x : Float} (h : filled name args x = .ok v) : Gives callee args v := by
  have hbuild : ∀ rows cols, Counted rows → Counted cols →
      (if Matrix.fits rows cols then return .ofMatrix (.filled rows cols x)
        else .error (.tooLarge rows cols) : Except Fault Value) = .ok v → Gives callee args v := by
    intro rows cols hr hc h
    split at h
    · next hfits =>
      cases h
      exact .filled x hr hc hfits
    · cases h
  unfold filled at h
  dsimp only at h
  split at h
  · exact hbuild 1 1 (counted_of_lt (by decide)) (counted_of_lt (by decide)) h
  · obtain ⟨n, hn, h⟩ := bind_eq_ok.1 h
    exact hbuild n n (dimension_counted hn) (dimension_counted hn) h
  · obtain ⟨r, hr, h⟩ := bind_eq_ok.1 h
    obtain ⟨c, hc, h⟩ := bind_eq_ok.1 h
    exact hbuild r c (dimension_counted hr) (dimension_counted hc) h
  · cases h

theorem eachNumber_gives {f : Float → Float} (h : eachNumber name args f = .ok v) : Gives callee args v := by
  obtain ⟨a, ha, h⟩ := bind_eq_ok.1 h
  obtain ⟨m, hm, h⟩ := bind_eq_ok.1 h
  cases h
  exact .mapped f (one_mem ha) (numbersOf_eq_ok hm)

theorem pairwise_gives {a b : Value} {f : Float → Float → Float} (ha : a ∈ args) (hb : b ∈ args)
    (h : pairwise name a b f = .ok v) : Gives callee args v := by
  obtain ⟨m, hm, h⟩ := bind_eq_ok.1 h
  obtain ⟨n, hn, h⟩ := bind_eq_ok.1 h
  split at h
  · next hc =>
    cases h
    exact .paired ha hb (numbersOf_eq_ok hm) (numbersOf_eq_ok hn) hc
  · cases h

theorem extreme_gives {f : Float → Float → Float} (h : extreme name args f = .ok v) : Gives callee args v := by
  unfold extreme at h
  split at h
  · obtain ⟨m, -, h⟩ := bind_eq_ok.1 h
    split at h
    · cases h
      exact .nothing
    · cases h
      exact .double _
  · exact pairwise_gives (by simp) (by simp) h
  · cases h

theorem existence_gives (h : existence s name args = .ok v) : Gives callee args v := by
  have hanswer : ∀ target kind,
      (if s.workspace.contains target then return .double 1.0
        else if kind != some "var".toList && isName target then return .double 5.0
        else return .double 0.0 : Except Fault Value) = .ok v → Gives callee args v := by
    intro target kind h
    split at h
    · cases h
      exact .double _
    · split at h
      all_goals
        cases h
        exact .double _
  unfold existence at h
  dsimp only at h
  split at h
  · obtain ⟨target, -, h⟩ := bind_eq_ok.1 h
    exact hanswer _ _ h
  · obtain ⟨target, -, h⟩ := bind_eq_ok.1 h
    obtain ⟨kind, -, h⟩ := bind_eq_ok.1 h
    exact hanswer _ _ h
  · cases h

theorem sizeOf_gives (h : sizeOf name args = .ok v) : Gives callee args v := by
  unfold sizeOf at h
  split at h
  · cases h
    exact .sizes _ _
  · obtain ⟨d, -, h⟩ := bind_eq_ok.1 h
    split at h
    · cases h
    all_goals
      cases h
      exact .double _
  · cases h

theorem nanFlags_gives (h : nanFlags name args = .ok v) : Gives .isnan args v := by
  obtain ⟨a, ha, h⟩ := bind_eq_ok.1 h
  have hmem := one_mem ha
  split at h
  · cases h
    exact .blanks rfl hmem
  · obtain ⟨m, hm, h⟩ := bind_eq_ok.1 h
    cases h
    exact .flagged _ hmem (numbersOf_eq_ok hm)

theorem mem_of_fields {entries : List (Text × Value)} (h : fields name args = .ok entries) :
    ∀ p ∈ entries, p.2 ∈ args := by
  fun_induction fields name args generalizing entries with
  | case1 =>
    cases h
    exact nofun
  | case2 => cases h
  | case3 key v rest ih =>
    obtain ⟨k, -, h⟩ := bind_eq_ok.1 h
    obtain ⟨more, hmore, h⟩ := bind_eq_ok.1 h
    cases h
    intro p hp
    rcases List.mem_cons.1 hp with rfl | hp
    · simp
    · simp [ih hmore p hp]

theorem characters_gives (h : characters name args = .ok v) : Gives callee args v := by
  obtain ⟨a, -, h⟩ := bind_eq_ok.1 h
  split at h
  · cases h
    exact .text _
  · obtain ⟨m, -, h⟩ := bind_eq_ok.1 h
    obtain ⟨cs, -, h⟩ := bind_eq_ok.1 h
    cases h
    exact .text _

theorem numbersAsText_gives (h : numbersAsText name args = .ok v) : Gives callee args v := by
  obtain ⟨a, -, h⟩ := bind_eq_ok.1 h
  split at h
  · cases h
    exact .text _
  · obtain ⟨m, -, h⟩ := bind_eq_ok.1 h
    cases h
    exact .text _

theorem total_gives (h : total name args = .ok v) : Gives callee args v := by
  obtain ⟨a, ha, h⟩ := bind_eq_ok.1 h
  obtain ⟨m, hm, h⟩ := bind_eq_ok.1 h
  split at h
  · cases h
    exact .double _
  · next hshape =>
    cases h
    simp only [Bool.or_eq_true, decide_eq_true_eq, not_or] at hshape
    exact .sums (one_mem ha) (numbersOf_eq_ok hm) (Nat.lt_of_not_le hshape.1) hshape.2

theorem sameText_gives {fold : Text → Text} (h : sameText name args fold = .ok v) : Gives callee args v := by
  obtain ⟨⟨a, b⟩, -, h⟩ := bind_eq_ok.1 h
  dsimp only at h
  split at h
  · cases h
    exact .logical _
  · cases h
    exact .logical _

theorem query_gives {f : Value → Value} (hf : ∀ a, Gives callee args (f a)) (h : query name args f = .ok v) :
    Gives callee args v := by
  obtain ⟨a, -, h⟩ := bind_eq_ok.1 h
  cases h
  exact hf a

theorem call_gives (h : callee.call s name args = .ok v) : Gives callee args v := by
  cases callee with
  | trueValue | falseValue | ispc | isunix | ismac =>
    rw [constant_eq_ok h]
    exact .logical _
  | pi | eps =>
    rw [constant_eq_ok h]
    exact .double _
  | nan | infinity | zeros | ones => exact filled_gives h
  | getenv =>
    obtain ⟨key, -, h⟩ := bind_eq_ok.1 h
    obtain ⟨t, -, h⟩ := bind_eq_ok.1 h
    cases h
    exact .text _
  | exist => exact existence_gives h
  | strcmp | strcmpi => exact sameText_gives h
  | isempty | isnumeric | ischar | islogical | iscell | isstruct => exact query_gives (fun _ => .logical _) h
  | numel | length => exact query_gives (fun _ => .double _) h
  | size => exact sizeOf_gives h
  | isnan => exact nanFlags_gives h
  | isfield =>
    obtain ⟨⟨a, b⟩, -, h⟩ := bind_eq_ok.1 h
    obtain ⟨t, -, h⟩ := bind_eq_ok.1 h
    split at h
    all_goals
      cases h
      exact .logical _
  | struct =>
    simp only [call] at h
    split at h
    · cases h
    · obtain ⟨entries, he, h⟩ := bind_eq_ok.1 h
      cases h
      exact .struct (mem_of_fields he)
  | fullfile =>
    obtain ⟨parts, -, h⟩ := bind_eq_ok.1 h
    cases h
    exact .text _
  | num2str => exact numbersAsText_gives h
  | upper | lower =>
    obtain ⟨a, -, h⟩ := bind_eq_ok.1 h
    obtain ⟨t, -, h⟩ := bind_eq_ok.1 h
    cases h
    exact .text _
  | abs | floor | ceil | round => exact eachNumber_gives h
  | min | max => exact extreme_gives h
  | sum => exact total_gives h
  | mod =>
    obtain ⟨⟨a, b⟩, hab, h⟩ := bind_eq_ok.1 h
    have hmem := two_eq_ok.1 hab
    exact pairwise_gives (by simp [hmem]) (by simp [hmem]) h
  | char => exact characters_gives h
  | disp =>
    obtain ⟨a, -, h⟩ := bind_eq_ok.1 h
    cases h
    exact .nothing
  | error =>
    simp only [call] at h
    split at h <;> cases h

end Function

/-! ## Operators -/

namespace Value

variable {a b m : Matrix} {v w : Value} {vs : List Value} {sign : String}

/-- What an operator can give for two matrices. -/
inductive Combines (a b : Matrix) : Value → Prop
  | numbers {m : Matrix} {f : Float → Float → Float} : Matrix.combine? f a b = some m → Combines a b (.ofMatrix m)
  | flags {m : Matrix} {f : Float → Float → Float} : Matrix.combine? f a b = some m → Combines a b (.ofFlags m)
  | product (h : a.cols = b.rows) : Matrix.fits a.rows b.cols = true → Combines a b (.ofMatrix (a.product b h))

theorem combined_eq_ok {f : Float → Float → Float} (h : combined sign f a b = .ok m) :
    Matrix.combine? f a b = some m := by
  unfold combined at h
  split at h
  · next hc =>
    cases h
    exact hc
  · cases h

theorem binaryMatrix_combines {op : BinaryOp} (h : binaryMatrix op a b = .ok v) : Combines a b v := by
  have harith : ∀ f, (do return ofMatrix (← combined op.sign f a b) : Except Fault Value) = .ok v →
      Combines a b v := by
    intro f h
    obtain ⟨m, hm, h⟩ := bind_eq_ok.1 h
    cases h
    exact .numbers (combined_eq_ok hm)
  have hcompare : ∀ p, compared op.sign p a b = .ok v → Combines a b v := by
    intro p h
    obtain ⟨m, hm, h⟩ := bind_eq_ok.1 h
    cases h
    exact .flags (combined_eq_ok hm)
  cases op with
  | add | sub | elemMul | elemDiv | elemPow => exact harith _ h
  | mul =>
    simp only [binaryMatrix] at h
    split at h
    · exact harith _ h
    · obtain ⟨m, hm, h⟩ := bind_eq_ok.1 h
      cases h
      unfold product at hm
      split at hm
      · split at hm
        · next hfits =>
          cases hm
          exact .product _ hfits
        · cases hm
      · cases hm
  | div | pow =>
    simp only [binaryMatrix] at h
    split at h
    · exact harith _ h
    · cases h
  | _ => exact hcompare _ h

/-- An operand is the codes of a text, or the numbers of the value. -/
theorem operand_eq_ok (h : operand sign v = .ok m) :
    (∃ t, v = .text t ∧ m = .row (t.map fun c => Number.ofNat c.toNat).toArray) ∨ v.matrix? = some m := by
  unfold operand at h
  split at h
  · cases h
    exact .inl ⟨_, rfl, rfl⟩
  · split at h
    · next hm =>
      cases h
      exact .inr hm
    · cases h

/-! ## Ranges -/

theorem isNat_maxElements : Number.IsNat (Number.ofNat Matrix.maxElements) Matrix.maxElements :=
  Number.isNat_ofNat (Number.short_of_lt (by decide)) (by decide)

/-- The elements of a range with this many steps. -/
def progression (start step : Float) (steps : Nat) : Array Float :=
  Array.ofFn (n := steps + 1) fun i => start + Number.ofNat i * step

theorem size_progression (start step : Float) (steps : Nat) : (progression start step steps).size = steps + 1 :=
  Array.size_ofFn

/-- A range is empty, is too long, or has no more elements than a matrix may hold. -/
theorem range_cases (start step stop : Float) :
    range start step stop = .ok (.matrix (.row #[])) ∨ range start step stop = .error .rangeTooLong ∨
    Number.finite start = true ∧ ((stop - start) / step).isNaN = false ∧ ∃ steps < Matrix.maxElements,
      steps = Number.toNat (Number.floor ((stop - start) / step + rangeSlack)) ∧
      range start step stop = .ok (.ofMatrix (.row (progression start step steps))) := by
  simp only [range]
  split
  · exact .inl rfl
  · next hbounds =>
    simp only [Bool.or_eq_true, not_or, Bool.not_eq_true, Bool.not_eq_false'] at hbounds
    obtain ⟨⟨⟨⟨-, hstart⟩, -⟩, hsteps⟩, -⟩ := hbounds
    right
    split
    · exact .inl rfl
    · next hfew =>
      refine .inr ⟨hstart, hsteps, _, Nat.lt_of_not_le fun hlarge => ?_, rfl, rfl⟩
      exact hfew (isNat_maxElements.le_of_le_toNat (by decide) hlarge)

theorem range_eq_ok {start step stop : Float} {v : Value} (h : range start step stop = .ok v) :
    v = .matrix (.row #[]) ∨ ∃ steps < Matrix.maxElements, v = .ofMatrix (.row (progression start step steps)) := by
  rcases range_cases start step stop with hempty | hlong | ⟨-, -, steps, hlt, -, hrange⟩
  · exact .inl (Except.ok.inj (h.symm.trans hempty))
  · cases h.symm.trans hlong
  · exact .inr ⟨steps, hlt, Except.ok.inj (h.symm.trans hrange)⟩

/-! ## Subscripts -/

/-- What a subscript can give: the value itself, or what it selects of it. -/
inductive Selects (target : Value) (args : List Value) : Value → Prop
  | self : Selects target args target
  | text (t : Text) : Selects target args (.text t)
  | double (x : Float) : Selects target args (.double x)
  | items {items vs : List Value} : target = .cell items → (∀ v ∈ vs, v ∈ items) → Selects target args (.cell vs)
  | numbers {arg : Value} {ps : List Nat} {xs : List Float} : arg ∈ args → arg.positions = .ok ps →
      xs.length = ps.length → Selects target args (.ofMatrix (.row xs.toArray))

theorem index1_selects {arg : Value} (h : index1 v arg = .ok w) : Selects v [arg] w := by
  have hnumbers : ∀ {ps : List Nat} {m : Matrix} {xs : List Float}, positions arg = .ok ps →
      ps.mapM (pickNumber m) = .ok xs → Selects v [arg] (.ofMatrix (.row xs.toArray)) :=
    fun hps hxs => .numbers (List.mem_singleton_self arg) hps (length_of_mapM hxs)
  cases v with
  | text t =>
    obtain ⟨ps, -, h⟩ := bind_eq_ok.1 h
    obtain ⟨cs, -, h⟩ := bind_eq_ok.1 h
    cases h
    exact .text _
  | cell items =>
    obtain ⟨ps, -, h⟩ := bind_eq_ok.1 h
    obtain ⟨vs, hvs, h⟩ := bind_eq_ok.1 h
    cases h
    refine .items rfl fun v hmem => ?_
    obtain ⟨p, -, hp⟩ := mem_of_mapM hvs hmem
    simpa using mem_of_pick hp
  | struct fields =>
    obtain ⟨ps, -, h⟩ := bind_eq_ok.1 h
    split at h
    · cases h
      exact .self
    · cases h
  | logical b =>
    obtain ⟨m, -, h⟩ := bind_eq_ok.1 h
    obtain ⟨ps, hps, h⟩ := bind_eq_ok.1 h
    obtain ⟨xs, hxs, h⟩ := bind_eq_ok.1 h
    split at h
    · cases h
      exact .self
    · cases h
      exact hnumbers hps hxs
  | double x =>
    obtain ⟨m, -, h⟩ := bind_eq_ok.1 h
    obtain ⟨ps, hps, h⟩ := bind_eq_ok.1 h
    obtain ⟨xs, hxs, h⟩ := bind_eq_ok.1 h
    cases h
    exact hnumbers hps hxs
  | matrix m =>
    obtain ⟨m, -, h⟩ := bind_eq_ok.1 h
    obtain ⟨ps, hps, h⟩ := bind_eq_ok.1 h
    obtain ⟨xs, hxs, h⟩ := bind_eq_ok.1 h
    cases h
    exact hnumbers hps hxs

theorem index2_double {row col : Value} (h : index2 v row col = .ok w) : ∃ x, w = .double x := by
  obtain ⟨m, -, h⟩ := bind_eq_ok.1 h
  obtain ⟨rs, -, h⟩ := bind_eq_ok.1 h
  obtain ⟨cs, -, h⟩ := bind_eq_ok.1 h
  split at h
  · split at h
    · cases h
      exact ⟨_, rfl⟩
    · cases h
  · cases h

theorem index_selects (h : v.index vs = .ok w) : Selects v vs w := by
  unfold index at h
  split at h
  · exact index1_selects h
  · obtain ⟨x, rfl⟩ := index2_double h
    exact .double x
  · cases h

/-- Only a matrix changes when it is transposed. -/
theorem transpose_eq_ok (h : v.transpose = .ok w) : w = v ∨ ∃ m, v = .matrix m ∧ w = .matrix m.transpose := by
  cases v with
  | matrix m =>
    cases h
    exact .inr ⟨m, rfl, rfl⟩
  | text t =>
    simp only [transpose] at h
    split at h
    · cases h
      exact .inl rfl
    · cases h
  | _ =>
    cases h
    exact .inl rfl

/-- Braces select an element of a cell. -/
theorem brace_eq_ok (h : v.brace vs = .ok w) : ∃ items, v = .cell items ∧ w ∈ items := by
  unfold brace at h
  split at h
  · split at h
    · obtain ⟨ps, -, h⟩ := bind_eq_ok.1 h
      split at h
      · exact ⟨_, rfl, by simpa using mem_of_pick h⟩
      · cases h
    · cases h
  · cases h

/-- A field is read from a struct. -/
theorem readField_eq_ok {f : Text} (h : Expr.readField f v = .ok w) :
    ∃ fields : Table Value, v = .struct fields ∧ (f, w) ∈ fields := by
  unfold Expr.readField at h
  split at h
  · split at h
    · next hl =>
      cases h
      exact ⟨_, rfl, Table.mem_of_lookup hl⟩
    · cases h
  · cases h

/-! ## Brackets -/

/-- What a bracket can give, along a row or down its rows: a value alone, joined text, the elements
of cells, or the numbers of a matrix that is neither empty nor too large. -/
inductive Joins (vs : List Value) : Value → Prop
  | alone {v : Value} : v ∈ vs → Joins vs v
  | nothing : Joins vs .empty
  | text (t : Text) : Joins vs (.text t)
  | items {us : List Value} : (∀ u ∈ us, u ∈ vs) → Joins vs (.cell (joinedItems us))
  | numbers {m : Matrix} : 0 < m.data.size → m.data.size ≤ Matrix.maxElements → Joins vs (.ofMatrix m)

/-- The outcome of joining parts side by side. -/
def besideParts (parts : List Matrix) : Except Fault Value :=
  match parts with
  | [] => .ok .empty
  | first :: _ =>
    if h : ∀ m ∈ parts, m.rows = first.rows then
      if Matrix.fits first.rows (Matrix.width parts) then .ok (ofMatrix (.beside first.rows parts h))
      else .error (.tooLarge first.rows (Matrix.width parts))
    else .error .joinedSizes

/-- The outcome of putting parts one below the other. -/
def stackedParts (parts : List Matrix) : Except Fault Value :=
  match parts with
  | [] => .ok .empty
  | first :: _ =>
    if h : ∀ m ∈ parts, m.cols = first.cols then
      if Matrix.fits (Matrix.height parts) first.cols then .ok (ofMatrix (.stack first.cols parts h))
      else .error (.tooLarge (Matrix.height parts) first.cols)
    else .error .joinedSizes

/-- Several values without text and cells are joined by their parts. -/
theorem beside_of_numbers (hone : ∀ v, vs ≠ [v]) (htext : vs.any isText = false) (hcell : vs.any isCell = false) :
    beside vs = numericParts vs >>= besideParts := by
  unfold beside
  split
  · next v => exact absurd rfl (hone v)
  · rw [if_neg (by simp [htext]), if_neg (by simp [hcell])]
    rfl

theorem stacked_of_numbers (hne : vs ≠ []) (hone : ∀ v, vs ≠ [v]) (hcell : vs.any isCell = false) :
    stacked vs = rowParts vs >>= stackedParts := by
  unfold stacked
  split
  · exact absurd rfl hne
  · next v => exact absurd rfl (hone v)
  · rw [if_neg (by simp [hcell])]
    rfl

theorem pos_of_isEmpty {m : Matrix} (h : m.isEmpty = false) : 0 < m.rows ∧ 0 < m.cols := by
  have hpos : 0 < m.data.size := Nat.pos_of_ne_zero fun h0 => by simp [Matrix.isEmpty, Array.isEmpty, h0] at h
  rw [m.size_data] at hpos
  exact ⟨Nat.pos_of_mul_pos_right hpos, Nat.pos_of_mul_pos_left hpos⟩

theorem joins_of_fits {m : Matrix} (hrow : 0 < m.rows) (hcol : 0 < m.cols) (hfits : Matrix.fits m.rows m.cols = true) :
    Joins vs (.ofMatrix m) := by
  have hsize := m.size_data
  exact .numbers (hsize ▸ Nat.mul_pos hrow hcol) (hsize ▸ of_decide_eq_true hfits)

/-- Parts that hold something make a matrix that does. -/
theorem besideParts_joins {parts : List Matrix} (hparts : ∀ m ∈ parts, m.isEmpty = false)
    (h : besideParts parts = .ok w) : Joins vs w := by
  unfold besideParts at h
  split at h
  · cases h
    exact .nothing
  · next first rest =>
    obtain ⟨hrow, hcol⟩ := pos_of_isEmpty (hparts first List.mem_cons_self)
    split at h
    · split at h
      · next hfits =>
        cases h
        exact joins_of_fits hrow (Nat.lt_of_lt_of_le hcol (Nat.le_add_right _ _)) hfits
      · cases h
    · cases h

theorem stackedParts_joins {parts : List Matrix} (hparts : ∀ m ∈ parts, m.isEmpty = false)
    (h : stackedParts parts = .ok w) : Joins vs w := by
  unfold stackedParts at h
  split at h
  · cases h
    exact .nothing
  · next first rest =>
    obtain ⟨hrow, hcol⟩ := pos_of_isEmpty (hparts first List.mem_cons_self)
    split at h
    · split at h
      · next hfits =>
        cases h
        exact joins_of_fits (Nat.lt_of_lt_of_le hrow (Nat.le_add_right _ _)) hcol hfits
      · cases h
    · cases h

theorem isEmpty_of_filtered {all parts : List Matrix} (h : all.filter (!·.isEmpty) = parts) :
    ∀ m ∈ parts, m.isEmpty = false := by
  rintro m hm
  rw [← h] at hm
  simpa using (List.mem_filter.1 hm).2

theorem beside_joins (h : beside vs = .ok w) : Joins vs w := by
  unfold beside at h
  split at h
  · cases h
    exact .alone (List.mem_singleton_self w)
  · split at h
    · obtain ⟨t, -, h⟩ := bind_eq_ok.1 h
      cases h
      exact .text _
    · split at h
      · cases h
        exact .items fun v hv => (List.mem_filter.1 hv).1
      · obtain ⟨parts, hparts, h⟩ := bind_eq_ok.1 h
        obtain ⟨all, -, hparts⟩ := bind_eq_ok.1 hparts
        exact besideParts_joins (isEmpty_of_filtered (Except.ok.inj hparts)) h

theorem stacked_joins (h : stacked vs = .ok w) : Joins vs w := by
  unfold stacked at h
  split at h
  · cases h
    exact .nothing
  · cases h
    exact .alone (List.mem_singleton_self w)
  · split at h
    · cases h
      exact .items fun _ hv => hv
    · obtain ⟨parts, hparts, h⟩ := bind_eq_ok.1 h
      obtain ⟨all, -, hparts⟩ := bind_eq_ok.1 hparts
      exact stackedParts_joins (isEmpty_of_filtered (Except.ok.inj hparts)) h

end Value

end ConfigScript
