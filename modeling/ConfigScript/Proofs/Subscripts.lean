import ConfigScript.Proofs.Denotations
import ConfigScript.Value.Subscript
/-!
# Subscripts

`Value.ElementAt` says which element stands at a position: a character, an item, or a number down the
columns. A subscript selects the element at its position and nothing else (`Value.index_eq_ok`), so it is
taken exactly if it is a whole number from one up to the count (`Number.Within`). A row and a column name
the element that one subscript names down the columns (`Value.index_pair`), and a matrix of subscripts
selects the elements at its positions, row by row (`Value.index_matrix`).
-/

namespace ConfigScript

/-- The number is a whole number from one up to the bound. -/
def Number.Within (x : Float) (n : Nat) : Prop := ∃ p, IsNat x p ∧ 1 ≤ p ∧ p ≤ n

namespace Value

open Number (IsNat Within)

variable {α : Type} {v w : Value} {m s : Matrix} {x k : Float} {n p : Nat}

/-! ## Positions -/

/-- A position is a whole number from one on, up to the greatest word. -/
theorem position_eq_ok : position x = .ok p ↔ ∃ n, IsNat x n ∧ 1 ≤ n ∧ p = min n (2 ^ 64 - 1) := by
  unfold position
  constructor
  · intro h
    split at h
    · next hx =>
      cases h
      rw [Bool.and_eq_true, decide_eq_true_iff] at hx
      obtain ⟨n, hn, hnat⟩ := Number.exists_isNat hx.1 hx.2
      exact ⟨n, hnat, hn, Number.toNat_eq_min hnat⟩
    · cases h
  · rintro ⟨n, hnat, hn, rfl⟩
    rw [decide_eq_true (Number.isNat_one.le hnat hn), hnat.isWhole, Number.toNat_eq_min hnat]
    rfl

/-! ## Elements -/

/-- The element at a position, alone. Positions count from one; those of a matrix run down its columns. A
value of any other kind is its own only element. -/
inductive ElementAt : Value → Nat → Value → Prop
  | text {t : Text} {p : Nat} (hp : 1 ≤ p ∧ p ≤ t.length) : ElementAt (.text t) p (.text [t[p - 1]])
  | cell {items : List Value} {p : Nat} (hp : 1 ≤ p ∧ p ≤ items.length) :
    ElementAt (.cell items) p (.cell [items[p - 1]])
  | matrix {m : Matrix} {r c : Nat} (hr : r < m.rows) (hc : c < m.cols) :
    ElementAt (.matrix m) (r + c * m.rows + 1) (.double (m.get r c hr hc))
  | logical (b : Bool) : ElementAt (.logical b) 1 (.logical b)
  | double (x : Float) : ElementAt (.double x) 1 (.double x)
  | struct (fields : List (Text × Value)) : ElementAt (.struct fields) 1 (.struct fields)

theorem column_le {r c : Nat} (hr : r < m.rows) (hc : c < m.cols) : r + c * m.rows + 1 ≤ m.data.size := by
  rw [m.size_data, Nat.mul_comm m.rows, Nat.add_comm r]
  exact Matrix.offset_lt hc hr

/-- Every position up to the count is that of a row and a column. -/
theorem exists_column (hp : 1 ≤ p ∧ p ≤ m.data.size) : ∃ r c, r < m.rows ∧ c < m.cols ∧ p = r + c * m.rows + 1 := by
  have hlt : p - 1 < m.rows * m.cols := by
    rw [← m.size_data]
    omega
  have hrows : 0 < m.rows := Nat.pos_of_ne_zero fun h => by simp [h] at hlt
  refine ⟨(p - 1) % m.rows, (p - 1) / m.rows, Nat.mod_lt _ hrows, Nat.div_lt_of_lt_mul hlt, ?_⟩
  have hparts := Nat.mod_add_div' (p - 1) m.rows
  omega

theorem ElementAt.bounds (h : ElementAt v p w) : 1 ≤ p ∧ p ≤ v.count := by
  cases h with
  | text hp | cell hp => exact hp
  | matrix hr hc => exact ⟨Nat.le_add_left .., column_le hr hc⟩
  | logical | double | struct => exact ⟨Nat.le_refl 1, Nat.le_refl 1⟩

/-- The elements stand at the positions from one up to the count. -/
theorem exists_elementAt : (∃ w, ElementAt v p w) ↔ 1 ≤ p ∧ p ≤ v.count := by
  refine ⟨fun ⟨w, h⟩ => h.bounds, fun hp => ?_⟩
  cases v with
  | text t => exact ⟨_, .text hp⟩
  | cell items => exact ⟨_, .cell hp⟩
  | matrix m =>
    obtain ⟨r, c, hr, hc, rfl⟩ := exists_column hp
    exact ⟨_, .matrix hr hc⟩
  | logical b =>
    obtain rfl : p = 1 := Nat.le_antisymm hp.2 hp.1
    exact ⟨_, .logical b⟩
  | double x =>
    obtain rfl : p = 1 := Nat.le_antisymm hp.2 hp.1
    exact ⟨_, .double x⟩
  | struct fields =>
    obtain rfl : p = 1 := Nat.le_antisymm hp.2 hp.1
    exact ⟨_, .struct fields⟩

theorem pick_eq_ok {xs : List α} {a : α} (hp : 1 ≤ p) :
    pick xs.toArray p = .ok a ↔ ∃ h : p ≤ xs.length, a = xs[p - 1] := by
  unfold pick
  by_cases h : p ≤ xs.length
  · rw [Array.getElem?_eq_getElem (by simpa using by omega)]
    simp [h, eq_comm]
  · rw [Array.getElem?_eq_none (by simpa using by omega)]
    simp [h]

theorem linear?_column {r c : Nat} (hr : r < m.rows) (hc : c < m.cols) :
    m.linear? (r + c * m.rows + 1) = some (m.get r c hr hc) := by
  have hrow : (r + c * m.rows + 1 - 1) % m.rows = r := by
    rw [Nat.add_sub_cancel, Nat.add_mul_mod_self_right, Nat.mod_eq_of_lt hr]
  have hcol : (r + c * m.rows + 1 - 1) / m.rows = c := by
    rw [Nat.add_sub_cancel, Nat.add_mul_div_right r c (by omega), Nat.div_eq_of_lt hr, Nat.zero_add]
  rw [Matrix.linear?, dif_pos ⟨by omega, column_le hr hc⟩]
  simp only [hrow, hcol]

theorem pickNumber_eq_ok : pickNumber m p = .ok x ↔
    ∃ r c, ∃ (hr : r < m.rows) (hc : c < m.cols), p = r + c * m.rows + 1 ∧ x = m.get r c hr hc := by
  unfold pickNumber
  constructor
  · intro h
    split at h
    · next heq =>
      cases h
      have hp : 1 ≤ p ∧ p ≤ m.data.size := by
        unfold Matrix.linear? at heq
        split at heq
        · assumption
        · cases heq
      obtain ⟨r, c, hr, hc, rfl⟩ := exists_column hp
      rw [linear?_column hr hc] at heq
      exact ⟨r, c, hr, hc, rfl, (Option.some.inj heq).symm⟩
    · cases h
  · rintro ⟨r, c, hr, hc, rfl, rfl⟩
    rw [linear?_column hr hc]

/-- A single number is the only one of its matrix. -/
theorem pickNumber_single {y : Float} : pickNumber (.single y) p = .ok x ↔ p = 1 ∧ x = y := by
  rw [pickNumber_eq_ok]
  constructor
  · rintro ⟨r, c, hr, hc, rfl, rfl⟩
    obtain rfl : r = 0 := Nat.lt_one_iff.1 hr
    obtain rfl : c = 0 := Nat.lt_one_iff.1 hc
    exact ⟨rfl, rfl⟩
  · rintro ⟨rfl, rfl⟩
    exact ⟨0, 0, Nat.one_pos, Nat.one_pos, rfl, rfl⟩

/-- What a list holds for each element of a matrix, it holds row by row. -/
theorem forall₂_get {R : Float → α → Prop} {as : List α} (h : List.Forall₂ R s.data.toList as) {r c : Nat}
    (hr : r < s.rows) (hc : c < s.cols) : ∃ a, as[r * s.cols + c]? = some a ∧ R (s.get r c hr hc) a := by
  have hlt : r * s.cols + c < s.data.toList.length := by
    rw [Array.length_toList, s.size_data]
    exact Matrix.offset_lt hr hc
  refine ⟨_, List.getElem?_eq_getElem (h.length_eq ▸ hlt), ?_⟩
  have := h.get hlt (h.length_eq ▸ hlt)
  simpa [Matrix.get] using this

/-! ## One subscript -/

/-- What the elements at the positions of a subscript make. -/
def select (f : Nat → Except Fault α) (make : List α → Value) (arg : Value) : Except Fault Value := do
  let elements ← (← positions arg).mapM f
  return make elements

section

variable {f : Nat → Except Fault α} {make : List α → Value}

theorem select_double : select f make (.double x) = .ok w ↔ ∃ a, (position x >>= f) = .ok a ∧ w = make [a] := by
  have hsingle : select f make (.double x) = ((position x >>= f) >>= fun a => .ok (make [a])) := by
    unfold select
    cases hp : position x with
    | error fault => simp [positions, hp, bind, Except.bind]
    | ok p =>
      cases ha : f p <;> simp [positions, hp, ha, bind, Except.bind, pure, Except.pure]
  rw [hsingle, bind_eq_ok]
  exact exists_congr fun a => and_congr_right fun _ => by rw [Except.ok.injEq, eq_comm]

theorem select_matrix : select f make (.matrix s) = .ok w ↔
    ∃ as, List.Forall₂ (fun x a => (position x >>= f) = .ok a) s.data.toList as ∧ w = make as := by
  have hmany : select f make (.matrix s) =
      ((s.data.toList.mapM position >>= fun ps => ps.mapM f) >>= fun as => .ok (make as)) := by
    show (s.data.toList.mapM position >>= fun ps => ps.mapM f >>= fun as => Except.ok (make as)) = _
    cases s.data.toList.mapM position <;> rfl
  rw [hmany, bind_eq_ok]
  refine exists_congr fun as => ?_
  rw [mapM_bind_eq_ok, Except.ok.injEq, eq_comm]

/-- A matrix of subscripts takes what each of them takes. -/
theorem exists_select_matrix : (∃ w, select f make (.matrix s) = .ok w) ↔
    ∀ r c hr hc, ∃ u, select f make (.double (s.get r c hr hc)) = .ok u := by
  simp only [select_matrix, select_double]
  constructor
  · rintro ⟨w, as, has, rfl⟩ r c hr hc
    obtain ⟨a, -, ha⟩ := forall₂_get has hr hc
    exact ⟨_, a, ha, rfl⟩
  · intro h
    have hall : ∀ x ∈ s.data.toList, ∃ a, (position x >>= f) = .ok a := by
      intro x hx
      obtain ⟨i, hi, rfl⟩ := List.getElem_of_mem hx
      obtain ⟨r, c, hr, hc, -, hget⟩ := s.exists_get (by simpa using hi)
      obtain ⟨_, a, ha, -⟩ := h r c hr hc
      rw [hget] at ha
      exact ⟨a, ha⟩
    obtain ⟨as, has⟩ := exists_forall₂ hall
    exact ⟨_, as, has, rfl⟩

end

/-! ## The kinds of value -/

/-- A row of numbers, or the only one. -/
def rowOf (xs : List Float) : Value := .ofMatrix (.row xs.toArray)

theorem rowOf_single (x : Float) : rowOf [x] = .double x := ofMatrix_single x

/-- To take one subscript is to select from these elements. -/
structure Picks (v : Value) (f : Nat → Except Fault α) (make : List α → Value) : Prop where
  index (arg : Value) : v.index [arg] = select f make arg
  element {p : Nat} (hp : 1 ≤ p) {w : Value} : (∃ a, f p = .ok a ∧ w = make [a]) ↔ ElementAt v p w

theorem picks_text (t : Text) : Picks (.text t) (pick t.toArray) .text where
  index arg := rfl
  element {p} hp w := by
    simp only [pick_eq_ok hp]
    constructor
    · rintro ⟨_, ⟨hle, rfl⟩, rfl⟩
      exact .text ⟨hp, hle⟩
    · intro h
      cases h with
      | text hp => exact ⟨_, ⟨hp.2, rfl⟩, rfl⟩

theorem picks_cell (items : List Value) : Picks (.cell items) (pick items.toArray) .cell where
  index arg := rfl
  element {p} hp w := by
    simp only [pick_eq_ok hp]
    constructor
    · rintro ⟨_, ⟨hle, rfl⟩, rfl⟩
      exact .cell ⟨hp, hle⟩
    · intro h
      cases h with
      | cell hp => exact ⟨_, ⟨hp.2, rfl⟩, rfl⟩

theorem picks_matrix (m : Matrix) : Picks (.matrix m) (pickNumber m) rowOf where
  index arg := rfl
  element {p} hp w := by
    simp only [pickNumber_eq_ok, rowOf_single]
    constructor
    · rintro ⟨_, ⟨r, c, hr, hc, rfl, rfl⟩, rfl⟩
      exact .matrix hr hc
    · intro h
      cases h with
      | matrix hr hc => exact ⟨_, ⟨_, _, hr, hc, rfl, rfl⟩, rfl⟩

theorem picks_double (x : Float) : Picks (.double x) (pickNumber (.single x)) rowOf where
  index arg := rfl
  element {p} hp w := by
    simp only [pickNumber_single, rowOf_single]
    constructor
    · rintro ⟨_, ⟨rfl, rfl⟩, rfl⟩
      exact .double _
    · intro h
      cases h
      exact ⟨_, ⟨rfl, rfl⟩, rfl⟩

/-- One flag stays a flag. -/
theorem picks_logical (b : Bool) : Picks (.logical b) (pickNumber (.single (Number.ofBool b)))
    (fun xs => if xs.length = 1 then .logical b else rowOf xs) where
  index arg := by
    show (positions arg >>= fun ps => ps.mapM _ >>= fun xs => _) = (positions arg >>= fun ps => ps.mapM _ >>= fun xs => _)
    exact congrArg _ (funext fun ps => congrArg _ (funext fun xs => (apply_ite pure _ _ _).symm))
  element {p} hp w := by
    simp only [pickNumber_single]
    constructor
    · rintro ⟨_, ⟨rfl, rfl⟩, rfl⟩
      exact .logical b
    · intro h
      cases h
      exact ⟨_, ⟨rfl, rfl⟩, rfl⟩

theorem index_struct {fields : List (Text × Value)} :
    index (.struct fields) [.double k] = .ok w ↔ position k = .ok 1 ∧ w = .struct fields := by
  show ((position k >>= fun p => pure [p]) >>= _) = Except.ok w ↔ _
  cases position k with
  | error fault => exact iff_of_false nofun fun h => nomatch h.1
  | ok p =>
    by_cases hp : p = 1
    · subst hp
      exact ⟨fun h => ⟨rfl, (Except.ok.inj h).symm⟩, fun h => congrArg Except.ok h.2.symm⟩
    · refine iff_of_false ?_ fun h => hp (Except.ok.inj h.1)
      intro hw
      obtain ⟨ps, hps, hw⟩ := bind_eq_ok.1 hw
      cases hps
      split at hw
      · next heq => exact hp (List.cons.inj heq).1
      · cases hw

/-- One subscript selects the element at its position. The count is below the greatest word, which stands
for every greater number too. -/
theorem Picks.index_double {f : Nat → Except Fault α} {make : List α → Value} (h : Picks v f make)
    (hv : v.count < 2 ^ 64 - 1) : v.index [.double k] = .ok w ↔ ∃ p, IsNat k p ∧ ElementAt v p w := by
  simp only [h.index, select_double, bind_eq_ok]
  constructor
  · rintro ⟨a, ⟨q, hq, ha⟩, rfl⟩
    obtain ⟨p, hp, hpos, rfl⟩ := position_eq_ok.1 hq
    have helement := (h.element (by omega)).1 ⟨a, ha, rfl⟩
    -- the count is below the greatest word, so nothing was cut
    have hle := helement.bounds.2
    rw [Nat.min_eq_left (by omega)] at helement
    exact ⟨p, hp, helement⟩
  · rintro ⟨p, hp, helement⟩
    obtain ⟨hpos, hle⟩ := helement.bounds
    obtain ⟨a, ha, rfl⟩ := (h.element hpos).2 helement
    exact ⟨a, ⟨p, position_eq_ok.2 ⟨p, hp, hpos, by omega⟩, ha⟩, rfl⟩

/-- One subscript selects the element at its position, from a value of any kind. -/
theorem index_eq_ok (hv : v.count < 2 ^ 64 - 1) :
    v.index [.double k] = .ok w ↔ ∃ p, IsNat k p ∧ ElementAt v p w := by
  cases v with
  | text t => exact (picks_text t).index_double hv
  | cell items => exact (picks_cell items).index_double hv
  | matrix m => exact (picks_matrix m).index_double hv
  | double x => exact (picks_double x).index_double hv
  | logical b => exact (picks_logical b).index_double hv
  | struct fields =>
    rw [index_struct, position_eq_ok]
    constructor
    · rintro ⟨⟨p, hp, hpos, hmin⟩, rfl⟩
      obtain rfl : p = 1 := by omega
      exact ⟨1, hp, .struct fields⟩
    · rintro ⟨p, hp, h⟩
      cases h
      exact ⟨⟨1, hp, Nat.le_refl 1, rfl⟩, rfl⟩

/-- One subscript is taken exactly if it is within the count. -/
theorem exists_index_double (hv : v.count < 2 ^ 64 - 1) :
    (∃ w, v.index [.double k] = .ok w) ↔ Within k v.count := by
  simp only [index_eq_ok hv]
  constructor
  · rintro ⟨w, p, hp, h⟩
    exact ⟨p, hp, h.bounds⟩
  · rintro ⟨p, hp, hbounds⟩
    obtain ⟨w, hw⟩ := exists_elementAt.2 hbounds
    exact ⟨w, p, hp, hw⟩

/-! ## A row and a column -/

theorem index_pair_eq_ok {r c : Float} : index (.matrix m) [.double r, .double c] = .ok w ↔
    ∃ p q, position r = .ok p ∧ position c = .ok q ∧
      ∃ (hp : p - 1 < m.rows) (hq : q - 1 < m.cols), w = .double (m.get (p - 1) (q - 1) hp hq) := by
  constructor
  · intro h
    obtain ⟨_, hm, h⟩ := bind_eq_ok.1 h
    cases hm
    obtain ⟨_, hrows, h⟩ := bind_eq_ok.1 h
    obtain ⟨_, hcols, h⟩ := bind_eq_ok.1 h
    obtain ⟨p, hp, hrows⟩ := bind_eq_ok.1 hrows
    obtain ⟨q, hq, hcols⟩ := bind_eq_ok.1 hcols
    cases hrows
    cases hcols
    dsimp only at h
    split at h
    · next hlt => exact ⟨p, q, hp, hq, hlt.1, hlt.2, (Except.ok.inj h).symm⟩
    · cases h
  · rintro ⟨p, q, hp, hq, hrow, hcol, rfl⟩
    have hrows : positions (.double r) = .ok [p] := bind_eq_ok.2 ⟨p, hp, rfl⟩
    have hcols : positions (.double c) = .ok [q] := bind_eq_ok.2 ⟨q, hq, rfl⟩
    refine bind_eq_ok.2 ⟨m, rfl, bind_eq_ok.2 ⟨[p], hrows, bind_eq_ok.2 ⟨[q], hcols, ?_⟩⟩⟩
    exact dif_pos ⟨hrow, hcol⟩

/-- Where there are elements, sizes are below the greatest word if the count is. -/
theorem sizes_lt (hm : m.data.size < 2 ^ 64 - 1) (hr : 0 < m.rows) (hc : 0 < m.cols) :
    m.rows < 2 ^ 64 - 1 ∧ m.cols < 2 ^ 64 - 1 := by
  rw [m.size_data] at hm
  have hrows := Nat.le_mul_of_pos_right m.rows hc
  have hcols := Nat.le_mul_of_pos_left m.cols hr
  omega

/-- A row and a column within the sizes name an element, and one subscript names the same one down
the columns. -/
theorem index_of_pair {r c : Float} {i j : Nat} (hm : m.data.size < 2 ^ 64 - 1) (hr : IsNat r i) (hc : IsNat c j)
    (hi : 1 ≤ i ∧ i ≤ m.rows) (hj : 1 ≤ j ∧ j ≤ m.cols) :
    ∃ hrow hcol, index (.matrix m) [.double r, .double c] = .ok (.double (m.get (i - 1) (j - 1) hrow hcol)) ∧
      ∀ k, IsNat k (i + (j - 1) * m.rows) →
        index (.matrix m) [.double k] = index (.matrix m) [.double r, .double c] := by
  have hlt := sizes_lt hm (by omega) (by omega)
  have hrow : i - 1 < m.rows := by omega
  have hcol : j - 1 < m.cols := by omega
  have hpair : index (.matrix m) [.double r, .double c] = .ok (.double (m.get (i - 1) (j - 1) hrow hcol)) := by
    refine index_pair_eq_ok.2 ⟨i, j, position_eq_ok.2 ⟨i, hr, hi.1, by omega⟩, position_eq_ok.2 ⟨j, hc, hj.1, ?_⟩, hrow, hcol, rfl⟩
    omega
  refine ⟨hrow, hcol, hpair, fun k hk => ?_⟩
  rw [hpair]
  rw [show i + (j - 1) * m.rows = i - 1 + (j - 1) * m.rows + 1 by omega] at hk
  exact (index_eq_ok (v := .matrix m) hm).2 ⟨_, hk, .matrix hrow hcol⟩

/-- A row and a column are taken exactly if each is within its size. -/
theorem index_pair {r c : Float} (hm : m.data.size < 2 ^ 64 - 1) :
    (∃ w, index (.matrix m) [.double r, .double c] = .ok w) ↔ Within r m.rows ∧ Within c m.cols := by
  constructor
  · rintro ⟨w, hw⟩
    obtain ⟨p, q, hp, hq, hrow, hcol, -⟩ := index_pair_eq_ok.1 hw
    obtain ⟨i, hr, hi, rfl⟩ := position_eq_ok.1 hp
    obtain ⟨j, hc, hj, rfl⟩ := position_eq_ok.1 hq
    -- a matrix without columns may have more rows than a word counts, but no element is named there
    have hlt := sizes_lt hm (by omega) (by omega)
    exact ⟨⟨i, hr, hi, by omega⟩, j, hc, hj, by omega⟩
  · rintro ⟨⟨i, hr, hi⟩, j, hc, hj⟩
    obtain ⟨_, _, hw, -⟩ := index_of_pair hm hr hc hi hj
    exact ⟨_, hw⟩

/-! ## A matrix of subscripts -/

/-- The value that selections of one element each make together, for the value that they are selected from. -/
inductive Gathers : Value → List Value → Value → Prop
  | text (t cs : Text) : Gathers (.text t) (cs.map fun c => .text [c]) (.text cs)
  | cell (items vs : List Value) : Gathers (.cell items) (vs.map fun v => .cell [v]) (.cell vs)
  | matrix (m : Matrix) (xs : List Float) : Gathers (.matrix m) (xs.map .double) (rowOf xs)

/-- Texts, cells and matrices make one value of the elements that they select. -/
theorem exists_picks (h : v.kind = .text ∨ v.kind = .cell ∨ v.kind = .matrix) :
    ∃ (α : Type) (f : Nat → Except Fault α) (make : List α → Value),
      Picks v f make ∧ ∀ as, Gathers v (as.map fun a => make [a]) (make as) := by
  cases v with
  | text t => exact ⟨Char, pick t.toArray, .text, picks_text t, .text t⟩
  | cell items => exact ⟨Value, pick items.toArray, .cell, picks_cell items, .cell items⟩
  | matrix m =>
    refine ⟨Float, pickNumber m, rowOf, picks_matrix m, fun xs => ?_⟩
    rw [List.map_congr_left fun x _ => rowOf_single x]
    exact .matrix m xs
  | logical | double | struct => simp [kind] at h

theorem index_matrix (hv : v.count < 2 ^ 64 - 1) (h : v.kind = .text ∨ v.kind = .cell ∨ v.kind = .matrix) (s : Matrix) :
    ((∃ w, v.index [.matrix s] = .ok w) ↔ ∀ r c hr hc, ∃ u, v.index [.double (s.get r c hr hc)] = .ok u) ∧
    ∀ w, v.index [.matrix s] = .ok w → ∃ us, us.length = s.rows * s.cols ∧ Gathers v us w ∧
      ∀ r c hr hc, ∃ p u, IsNat (s.get r c hr hc) p ∧ ElementAt v p u ∧ us[r * s.cols + c]? = some u ∧
        v.index [.double (s.get r c hr hc)] = .ok u := by
  obtain ⟨α, f, make, hpicks, hgathers⟩ := exists_picks h
  simp only [hpicks.index]
  refine ⟨exists_select_matrix, fun w hw => ?_⟩
  obtain ⟨as, has, rfl⟩ := select_matrix.1 hw
  refine ⟨as.map fun a => make [a], ?_, hgathers as, fun r c hr hc => ?_⟩
  · rw [List.length_map, ← has.length_eq, Array.length_toList, s.size_data]
  · obtain ⟨a, ha, hselect⟩ := forall₂_get has hr hc
    have hone : select f make (.double (s.get r c hr hc)) = .ok (make [a]) := select_double.2 ⟨a, hselect, rfl⟩
    obtain ⟨p, hp, helement⟩ := (hpicks.index_double hv).1 ((hpicks.index _).trans hone)
    refine ⟨p, make [a], hp, helement, ?_, hone⟩
    rw [List.getElem?_map, ha]
    rfl

/-- Subscripts are taken exactly where there are elements, and select those. One subscript is a whole
number from one up to the count and selects the element at that position; a row and a column are within
the sizes and name what one subscript names down the columns; and a matrix of subscripts selects, row by
row, the element at the position of each. That a word counts the elements is all that is asked: the
greatest word stands for every greater number. -/
theorem subscripts (hv : v.count < 2 ^ 64 - 1) :
    (∀ k, ((∃ w, v.index [.double k] = .ok w) ↔ Within k v.count) ∧
      ∀ w, v.index [.double k] = .ok w ↔ ∃ p, IsNat k p ∧ v.ElementAt p w) ∧
    (∀ m, v = .matrix m → ∀ r c,
      ((∃ w, v.index [.double r, .double c] = .ok w) ↔ Within r m.rows ∧ Within c m.cols) ∧
      ∀ i j, IsNat r i → IsNat c j → 1 ≤ i ∧ i ≤ m.rows → 1 ≤ j ∧ j ≤ m.cols →
        ∃ hrow hcol, v.index [.double r, .double c] = .ok (.double (m.get (i - 1) (j - 1) hrow hcol)) ∧
          ∀ k, IsNat k (i + (j - 1) * m.rows) → v.index [.double k] = v.index [.double r, .double c]) ∧
    (v.kind = .text ∨ v.kind = .cell ∨ v.kind = .matrix → ∀ s : Matrix,
      ((∃ w, v.index [.matrix s] = .ok w) ↔ ∀ r c hr hc, ∃ u, v.index [.double (s.get r c hr hc)] = .ok u) ∧
      ∀ w, v.index [.matrix s] = .ok w → ∃ us, us.length = s.rows * s.cols ∧ Gathers v us w ∧
        ∀ r c hr hc, ∃ p u, IsNat (s.get r c hr hc) p ∧ v.ElementAt p u ∧ us[r * s.cols + c]? = some u ∧
          v.index [.double (s.get r c hr hc)] = .ok u) := by
  refine ⟨fun k => ⟨exists_index_double hv, fun w => index_eq_ok hv⟩, ?_, fun h s => index_matrix hv h s⟩
  rintro m rfl r c
  exact ⟨index_pair hv, fun i j hr hc hi hj => index_of_pair hv hr hc hi hj⟩

/-- Two rows of two subscripts. -/
def subscriptSquare : Matrix := ⟨2, 2, #[Number.ofNat 3, Number.ofNat 1, Number.ofNat 2, Number.ofNat 2], rfl⟩

/-- The third element of two rows of two, down the columns, is the one in row one and column two. The
square of subscripts takes the characters of a text row by row. -/
theorem subscripts_square :
    (Value.matrix ⟨2, 2, #[1.0, 2.0, 3.0, 4.0], rfl⟩).count < 2 ^ 64 - 1 ∧
    (Value.matrix ⟨2, 2, #[1.0, 2.0, 3.0, 4.0], rfl⟩).index [.double (Number.ofNat 3)] = .ok (.double 2.0) ∧
    (Value.text ['r', 'i', 'g']).count < 2 ^ 64 - 1 ∧
    (Value.text ['r', 'i', 'g']).index [.matrix subscriptSquare] = .ok (.text ['g', 'r', 'i', 'i']) := by
  have hcount : (Value.matrix ⟨2, 2, #[1.0, 2.0, 3.0, 4.0], rfl⟩).count < 2 ^ 64 - 1 := by decide
  have hlength : (Value.text ['r', 'i', 'g']).count < 2 ^ 64 - 1 := by decide
  have hnat : ∀ n < 4, IsNat (Number.ofNat n) n := fun n hn =>
    Number.isNat_ofNat (Number.short_of_lt (by omega)) (by omega)
  refine ⟨hcount, ?_, hlength, ?_⟩
  · obtain ⟨-, hpairs, -⟩ := subscripts hcount
    obtain ⟨-, hnames⟩ := hpairs _ rfl (Number.ofNat 1) (Number.ofNat 2)
    obtain ⟨_, _, hpair, hlinear⟩ :=
      hnames 1 2 (hnat 1 (by decide)) (hnat 2 (by decide)) ⟨by decide, by decide⟩ ⟨by decide, by decide⟩
    refine (hlinear (Number.ofNat 3) (hnat 3 (by decide))).trans (hpair.trans ?_)
    rfl
  · obtain ⟨hone, -, hmany⟩ := subscripts hlength
    obtain ⟨htaken, hselected⟩ := hmany (.inl rfl) subscriptSquare
    have hfirst := ((hone (Number.ofNat 1)).2 _).2 ⟨1, hnat 1 (by decide), .text (by decide)⟩
    have hsecond := ((hone (Number.ofNat 2)).2 _).2 ⟨2, hnat 2 (by decide), .text (by decide)⟩
    have hthird := ((hone (Number.ofNat 3)).2 _).2 ⟨3, hnat 3 (by decide), .text (by decide)⟩
    obtain ⟨w, hw⟩ := htaken.2 fun r c hrow hcol => match r, c, hrow, hcol with
      | 0, 0, _, _ => ⟨_, hthird⟩
      | 0, 1, _, _ => ⟨_, hfirst⟩
      | 1, 0, _, _ => ⟨_, hsecond⟩
      | 1, 1, _, _ => ⟨_, hsecond⟩
    obtain ⟨us, hlen, hgathers, hat⟩ := hselected w hw
    have hplace : ∀ r c hr hc u,
        (Value.text ['r', 'i', 'g']).index [.double (subscriptSquare.get r c hr hc)] = .ok u →
          us[r * 2 + c]? = some u := by
      intro r c hr hc u hu
      obtain ⟨_, _, -, -, hget, hsame⟩ := hat r c hr hc
      rw [hu] at hsame
      cases hsame
      exact hget
    rw [hw]
    cases hgathers with
    | text _ cs =>
      match cs, hlen with
      | [c₁, c₂, c₃, c₄], _ =>
        cases hplace 0 0 Nat.two_pos Nat.two_pos _ hthird
        cases hplace 0 1 Nat.two_pos Nat.one_lt_two _ hfirst
        cases hplace 1 0 Nat.one_lt_two Nat.two_pos _ hsecond
        cases hplace 1 1 Nat.one_lt_two Nat.one_lt_two _ hsecond
        rfl

end Value

end ConfigScript
