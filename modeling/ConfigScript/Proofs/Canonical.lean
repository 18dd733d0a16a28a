import ConfigScript.Proofs.Delimited
import ConfigScript.Proofs.Elements
/-!
# Canonical texts

Equivalent values are printed alike (`Value.render_of_agrees`), and values that are printed alike are equivalent: what a
text begins with tells the value, whatever stands behind it (`Value.sameOnlyIf_render`). The first two characters give
the kind, and each kind has its pieces. A number and a text are told from others by what they denote.
-/

namespace ConfigScript

open Edit (Word word_ofNat)
open Number (ReadsBack)
open Text (SameOnlyIf StartsIn closers)
open Value (sameNumber)

/-- A text denotes one value at most. -/
theorem Denotes.unique {s : Surroundings} {t : Text} {v w : Value} (hv : Denotes s t v) (hw : Denotes s t w) :
    v = w := by
  obtain ⟨e, he, hev⟩ := hv
  obtain ⟨e', he', hew⟩ := hw
  cases (Runner.readExpr_eq_ok.2 he.tokens).symm.trans (Runner.readExpr_eq_ok.2 he'.tokens)
  exact Except.ok.inj (hev.symm.trans hew)

/-! ## Numbers -/

namespace Number

variable {x y : Float} {sign : Float.Model.UnpackedFloat.Sign}

theorem render_of_zero (h : x.toModel.unpack = .zero sign) : render x = ['0'] := by
  have hzero : (0.0 : Float).toModel.unpack = .zero .positive ∧ render 0.0 = ['0'] := by decide +kernel
  have hminus : (-0.0 : Float).toModel.unpack = .zero .negative ∧ render (-0.0) = ['0'] := by decide +kernel
  cases sign with
  | positive => rw [eq_of_unpack (h.trans hzero.1.symm), hzero.2]
  | negative => rw [eq_of_unpack (h.trans hminus.1.symm), hminus.2]

/-- The sign of a zero is not printed, and otherwise the same numbers are one number. -/
theorem render_of_sameNumber (h : sameNumber x y = true) : render x = render y := by
  have hu := (sameNumber_iff x y).1 h
  cases hx : x.toModel.unpack with
  | zero sign =>
    cases hy : y.toModel.unpack with
    | zero sign' => rw [render_of_zero hx, render_of_zero hy]
    | _ => rw [hx, hy] at hu; cases hu
  | _ =>
    cases hy : y.toModel.unpack with
    | zero sign' => rw [hx, hy] at hu; cases hu
    | _ =>
      rw [hx, hy] at hu
      exact congrArg render (eq_of_unpack (hx.trans (Eq.trans hu hy.symm)))

theorem sameNumber_of_render (hx : finite x = true → ReadsBack x.abs) (hy : finite y = true → ReadsBack y.abs)
    (h : render x = render y) : sameNumber x y = true := by
  obtain ⟨x', hx', hxx⟩ := denotes_render Surroundings.clear_plain hx
  obtain ⟨y', hy', hyy⟩ := denotes_render Surroundings.clear_plain hy
  rw [h] at hx'
  cases hx'.unique hy'
  exact sameNumber_trans (sameNumber_symm hxx) hyy

/-- What a printed number begins with. -/
def leads (c : Char) : Bool := c.isDigit || ['-', 'N', 'I'].contains c

theorem exists_render (x : Float) : ∃ c t, render x = c :: t ∧ leads c = true := by
  have spelled : ∀ {n t}, Token.Spelled n t → ∃ c u, t = c :: u ∧ leads c = true := fun h => by
    obtain ⟨c, u, hcut, hc⟩ := h.head []
    exact ⟨c, u, by rwa [List.append_nil] at hcut, by rw [leads, hc]; rfl⟩
  have h := rendering x
  generalize render x = t at h ⊢
  cases h with
  | nan => exact ⟨'N', _, rfl, rfl⟩
  | infinity => exact ⟨'I', _, rfl, rfl⟩
  | minusInfinity | minusWhole | minusSize => exact ⟨'-', _, rfl, rfl⟩
  | whole => exact spelled (Token.spelled_ofNat _)
  | size => exact spelled (Token.exists_spelled x.abs).choose_spec

theorem sameOnlyIf_render (hx : finite x = true → ReadsBack x.abs) (hy : finite y = true → ReadsBack y.abs) :
    SameOnlyIf closers (render x) (render y) (sameNumber x y = true) :=
  (Text.sameOnlyIf_word (word_render x) (word_render y)).imp (sameNumber_of_render hx hy)

theorem not_startsIn_render (x : Float) : ¬ StartsIn closers (render x) := by
  obtain ⟨c, t, hcut, -⟩ := exists_render x
  have hword := word_render x
  rw [hcut] at hword ⊢
  exact fun h => Text.not_mem_closers_of_word hword List.mem_cons_self (Text.startsIn_cons.1 h)

end Number

/-! ## Texts -/

namespace Text

variable {t u p q run : Text}

theorem render_injective (h : render t = render u) : t = u := by
  have ht := denotes_text Surroundings.clear_plain t
  rw [h] at ht
  exact Value.text.inj (ht.unique (denotes_text Surroundings.clear_plain u))

theorem eq_nil_of_spelledParts (h : spelledParts run t = []) : run = [] ∧ t = [] := by
  induction t generalizing run with
  | nil =>
    rw [spelledParts] at h
    split at h
    · next hrun => exact ⟨List.isEmpty_iff.1 hrun, rfl⟩
    · cases h
  | cons c t ih =>
    rw [spelledParts] at h
    split at h
    · exact absurd (List.append_eq_nil_iff.1 h).2 (List.cons_ne_nil _ _)
    · exact absurd (ih h).1 (List.cons_ne_nil _ _)

theorem sameOnlyIf_part (hp : p ∈ spelledParts [] t) (hq : q ∈ spelledParts [] u) : SameOnlyIf closers p q (p = q) := by
  rcases exists_of_mem_spelledParts hp with ⟨t, rfl⟩ | ⟨c, rfl⟩ <;>
    rcases exists_of_mem_spelledParts hq with ⟨u, rfl⟩ | ⟨d, rfl⟩
  · exact (sameOnlyIf_quote (by decide) t u).imp (congrArg quote)
  · exact sameOnlyIf_of_ne (by decide)
  · exact sameOnlyIf_of_ne (by decide)
  · have hword : SameOnlyIf [')'] (ofNat c.toNat) (ofNat d.toNat) (ofNat c.toNat = ofNat d.toNat) :=
      (sameOnlyIf_word (word_ofNat _) (word_ofNat _)).mono (by decide)
    exact (hword.bracket "char(".toList).imp (congrArg fun digits => "char(".toList ++ digits ++ [')'])

theorem not_startsIn_part (hp : p ∈ spelledParts [] t) : ¬ StartsIn closers p := by
  rcases exists_of_mem_spelledParts hp with ⟨t, rfl⟩ | ⟨c, rfl⟩
  · exact fun h => absurd (startsIn_cons.1 h) (by decide)
  · exact fun h => absurd (startsIn_cons.1 h) (by decide)

theorem sameOnlyIf_render (t u : Text) : SameOnlyIf closers (render t) (render u) (t = u) := by
  refine SameOnlyIf.imp ?_ (render_injective (t := t) (u := u))
  unfold render
  split <;> split
  · have hparts : SameOnlyIf [']'] (join [',', ' '] ((spelledParts [] t).map id))
        (join [',', ' '] ((spelledParts [] u).map id))
        (List.Forall₂ (· = ·) (spelledParts [] t) (spelledParts [] u)) :=
      sameOnlyIf_join (by decide) (by decide) (fun p hp => not_startsIn_part hp) (fun q hq => not_startsIn_part hq)
        fun p hp q hq => (sameOnlyIf_part hp hq).mono (by decide)
    rw [List.map_id, List.map_id, List.forall₂_eq_eq_eq] at hparts
    exact (hparts.bracket ['[']).imp (congrArg fun parts => '[' :: join ", ".toList parts ++ [']'])
  · exact sameOnlyIf_of_ne (by decide)
  · exact sameOnlyIf_of_ne (by decide)
  · exact (sameOnlyIf_quote (by decide) t u).imp (congrArg quote)

end Text

/-! ## Matrices -/

namespace Matrix

variable {a b m : Matrix} {xs ys : List Float}

/-- The elements row by row. -/
def rowLists (m : Matrix) : List (List Float) := (List.range m.rows).map m.rowList

def rowText (xs : List Float) : Text := Text.join ", ".toList (xs.map Number.render)

/-- Only a matrix without elements is printed by its size, unless it has neither rows nor columns. -/
def ByRows (m : Matrix) : Prop := m.isEmpty = true → m.rows = 0 ∧ m.cols = 0

theorem render_byRows (h : m.ByRows) : m.render = ['['] ++ Text.join "; ".toList (m.rowLists.map rowText) ++ [']'] := by
  unfold render
  split
  · next he =>
    rw [if_pos (h he), rowLists, (h he).1]
    rfl
  · rw [rowLists, List.map_map]
    rfl

theorem render_bySize (h : ¬ m.ByRows) :
    m.render = "zeros(".toList ++ (Text.ofNat m.rows ++ ',' :: ([' '] ++ Text.ofNat m.cols)) ++ [')'] := by
  obtain ⟨he, hz⟩ := Classical.not_imp.1 h
  unfold render
  rw [if_pos he, if_neg hz]
  simp

theorem isEmpty_of_size (h : m.rows * m.cols = 0) : m.isEmpty = true := by
  rw [← m.size_data] at h
  simpa [isEmpty] using h

theorem ByRows.cols_eq_zero (h : m.ByRows) (hr : m.rows = 0) : m.cols = 0 :=
  (h (isEmpty_of_size (by rw [hr, Nat.zero_mul]))).2

theorem ByRows.ne_nil (h : m.ByRows) (hxs : xs ∈ m.rowLists) : xs ≠ [] := by
  rintro rfl
  obtain ⟨r, hr, hnil⟩ := List.mem_map.1 hxs
  have hr := List.mem_range.1 hr
  have hcols : m.cols = 0 := by rw [← rowList_length hr, hnil]; rfl
  exact absurd (h (isEmpty_of_size (by rw [hcols, Nat.mul_zero]))).1 (Nat.ne_of_gt (Nat.zero_lt_of_lt hr))

theorem not_startsIn_rowText (h : xs ≠ []) : ¬ StartsIn closers (rowText xs) := by
  cases xs with
  | nil => exact (h rfl).elim
  | cons x xs => exact fun hs => Number.not_startsIn_render x (Text.startsIn_join hs)

theorem sameOnlyIf_rowText (hx : ∀ x ∈ xs, Number.finite x = true → ReadsBack x.abs)
    (hy : ∀ y ∈ ys, Number.finite y = true → ReadsBack y.abs) :
    SameOnlyIf [';', ']'] (rowText xs) (rowText ys) (List.Forall₂ (sameNumber · ·) xs ys) :=
  Text.sameOnlyIf_join (by decide) (by decide) (fun x _ => Number.not_startsIn_render x)
    (fun y _ => Number.not_startsIn_render y)
    fun x hxs y hys => (Number.sameOnlyIf_render (hx x hxs) (hy y hys)).mono (by decide)

theorem agrees_of_rowLists (ha : a.ByRows) (hb : b.ByRows)
    (h : List.Forall₂ (List.Forall₂ (sameNumber · ·)) a.rowLists b.rowLists) :
    Value.agrees sameNumber (.matrix a) (.matrix b) = true := by
  have hrows : a.rows = b.rows := by simpa [rowLists] using h.length_eq
  have hflat : List.Forall₂ (sameNumber · ·) a.data.toList b.data.toList := by
    rw [← a.flatMap_rowList, ← b.flatMap_rowList, List.flatMap_def, List.flatMap_def]
    exact List.rel_flatten h
  refine (Value.agrees_matrix_iff a b).2 ⟨hrows, ?_, fun i hi hi' => ?_⟩
  · by_cases hr : a.rows = 0
    · rw [ha.cols_eq_zero hr, hb.cols_eq_zero (hrows ▸ hr)]
    · have hlength := hflat.length_eq
      rw [Array.length_toList, Array.length_toList, a.size_data, b.size_data, ← hrows] at hlength
      exact Nat.eq_of_mul_eq_mul_left (Nat.pos_of_ne_zero hr) hlength
  · simpa using (List.forall₂_iff_get.1 hflat).2 i (by simpa using hi) (by simpa using hi')

theorem agrees_of_empty (he : a.isEmpty = true) (hr : a.rows = b.rows) (hc : a.cols = b.cols) :
    Value.agrees sameNumber (.matrix a) (.matrix b) = true := by
  refine (Value.agrees_matrix_iff a b).2 ⟨hr, hc, fun i hi _ => ?_⟩
  have hsize : a.data.size = 0 := by simpa [isEmpty] using he
  omega

theorem sameOnlyIf_ofNat (m n : Nat) : SameOnlyIf closers (Text.ofNat m) (Text.ofNat n) (m = n) :=
  (Text.sameOnlyIf_word (word_ofNat m) (word_ofNat n)).imp fun h => by
    rw [← Text.digitsValue_ofNat m, h, Text.digitsValue_ofNat]

theorem sameOnlyIf_render (ha : ∀ x ∈ a.data, Number.finite x = true → ReadsBack x.abs)
    (hb : ∀ x ∈ b.data, Number.finite x = true → ReadsBack x.abs) :
    SameOnlyIf closers a.render b.render (Value.agrees sameNumber (.matrix a) (.matrix b) = true) := by
  by_cases hrows : a.ByRows <;> by_cases hrows' : b.ByRows
  · rw [render_byRows hrows, render_byRows hrows']
    have hjoin : SameOnlyIf [']'] (Text.join [';', ' '] (a.rowLists.map rowText))
        (Text.join [';', ' '] (b.rowLists.map rowText))
        (List.Forall₂ (List.Forall₂ (sameNumber · ·)) a.rowLists b.rowLists) :=
      Text.sameOnlyIf_join (by decide) (by decide) (fun xs hxs => not_startsIn_rowText (hrows.ne_nil hxs))
        (fun ys hys => not_startsIn_rowText (hrows'.ne_nil hys))
        fun xs hxs ys hys => sameOnlyIf_rowText (fun x hx => ha x (mem_data_of_rowList hxs hx))
          fun y hy => hb y (mem_data_of_rowList hys hy)
    exact (hjoin.bracket ['[']).imp (agrees_of_rowLists hrows hrows')
  · rw [render_byRows hrows, render_bySize hrows']
    exact Text.sameOnlyIf_of_ne (by decide)
  · rw [render_bySize hrows, render_byRows hrows']
    exact Text.sameOnlyIf_of_ne (by decide)
  · rw [render_bySize hrows, render_bySize hrows']
    have hcols : SameOnlyIf [')'] ([' '] ++ Text.ofNat a.cols) ([' '] ++ Text.ofNat b.cols) (a.cols = b.cols) :=
      ((sameOnlyIf_ofNat a.cols b.cols).mono (by decide)).behind [' ']
    have hnumbers : SameOnlyIf [','] (Text.ofNat a.rows) (Text.ofNat b.rows) (a.rows = b.rows) :=
      (sameOnlyIf_ofNat a.rows b.rows).mono (by decide)
    exact ((hnumbers.append hcols).bracket "zeros(".toList).imp fun h =>
      agrees_of_empty (Classical.not_imp.1 hrows).1 h.1 h.2

theorem map_rowList {α : Type} (f : Float → α) (m : Matrix) (r : Nat) :
    (m.rowList r).map f = ((m.data.toList.map f).drop (r * m.cols)).take m.cols := by
  simp [rowList]

/-- A matrix is printed by its size and the texts of its elements. -/
theorem render_of_agrees (h : Value.agrees sameNumber (.matrix a) (.matrix b) = true) : a.render = b.render := by
  obtain ⟨hrows, hcols, hsame⟩ := (Value.agrees_matrix_iff a b).1 h
  have hsize := Value.size_eq_of_agrees h
  have htexts : a.data.toList.map Number.render = b.data.toList.map Number.render :=
    List.ext_getElem (by simpa using hsize) fun i hi hi' => by
      simpa using Number.render_of_sameNumber (hsame i (by simpa using hi) (by simpa using hi'))
  have hrow : ∀ r, (a.rowList r).map Number.render = (b.rowList r).map Number.render := fun r => by
    rw [map_rowList, map_rowList, htexts, hcols]
  have hempty : a.isEmpty = b.isEmpty := by rw [isEmpty, isEmpty, Array.isEmpty, Array.isEmpty, hsize]
  unfold render
  simp only [hempty, hrows, hcols, hrow]

end Matrix

/-! ## Kinds -/

namespace Value

/-- The kind of the value that a text begins with. -/
def kindOf : Text → ValueKind
  | 't' :: _ | 'f' :: _ => .logical
  | '\x27' :: _ | '[' :: '\x27' :: _ | '[' :: 'c' :: _ => .text
  | '[' :: _ | 'z' :: _ => .matrix
  | '\x7b' :: _ => .cell
  | 's' :: _ => .struct
  | _ => .double

theorem kindOf_of_leads {c : Char} (h : Number.leads c = true) (t : Text) :
    kindOf (c :: t) = .double ∧ kindOf ('[' :: c :: t) = .matrix := by
  constructor <;> unfold kindOf <;> split <;> simp_all [Number.leads]

theorem kindOf_text (t r : Text) : kindOf (Text.render t ++ r) = .text := by
  unfold Text.render
  split
  · next hc =>
    cases hparts : Text.spelledParts [] t with
    | nil =>
      rw [(Text.eq_nil_of_spelledParts hparts).2] at hc
      cases hc
    | cons p ps =>
      obtain ⟨rest, hcut⟩ := Text.exists_join ", ".toList p ps
      rw [hcut]
      rcases Text.exists_of_mem_spelledParts (hparts ▸ List.mem_cons_self) with ⟨u, rfl⟩ | ⟨c, rfl⟩ <;> rfl
  · rfl

theorem kindOf_matrix (m : Matrix) (r : Text) : kindOf (m.render ++ r) = .matrix := by
  by_cases h : m.ByRows
  · rw [Matrix.render_byRows h]
    cases hrows : m.rowLists with
    | nil => rfl
    | cons xs xss =>
      cases xs with
      | nil => exact (h.ne_nil (hrows ▸ List.mem_cons_self) rfl).elim
      | cons x xs =>
        obtain ⟨rest, hcut⟩ := Text.exists_join "; ".toList (Matrix.rowText (x :: xs)) (xss.map Matrix.rowText)
        obtain ⟨rest', hcut'⟩ := Text.exists_join ", ".toList (Number.render x) (xs.map Number.render)
        obtain ⟨c, t, hlead, hc⟩ := Number.exists_render x
        rw [List.map_cons, hcut, Matrix.rowText, List.map_cons, hcut', hlead]
        exact (kindOf_of_leads hc _).2
  · rw [Matrix.render_bySize h]
    rfl

theorem kindOf_render (v : Value) (r : Text) : kindOf (v.render ++ r) = v.kind := by
  cases v with
  | logical b => cases b <;> rfl
  | double x =>
    obtain ⟨c, t, hcut, hc⟩ := Number.exists_render x
    show kindOf (Number.render x ++ r) = _
    rw [hcut]
    exact (kindOf_of_leads hc _).1
  | text t => exact kindOf_text t r
  | matrix m => exact kindOf_matrix m r
  | cell items => rfl
  | struct fields => rfl

theorem sameOnlyIf_of_kind_ne {v w : Value} {ends : Text} {P : Prop} (h : v.kind ≠ w.kind) :
    SameOnlyIf ends v.render w.render P := fun r r' _ _ heq => by
  rw [← kindOf_render v r, heq, kindOf_render] at h
  exact (h rfl).elim

/-! ## Values that are printed alike -/

theorem not_startsIn_render (v : Value) : ¬ StartsIn closers v.render := by
  have opened : ∀ {c t}, c ∉ closers → ¬ StartsIn closers (c :: t) := fun hc h => hc (Text.startsIn_cons.1 h)
  cases v with
  | logical b => cases b <;> exact opened (by decide)
  | double x => exact Number.not_startsIn_render x
  | text t =>
    show ¬ StartsIn closers (Text.render t)
    unfold Text.render
    split <;> exact opened (by decide)
  | matrix m =>
    show ¬ StartsIn closers m.render
    by_cases h : m.ByRows
    · rw [Matrix.render_byRows h]
      exact opened (by decide)
    · rw [Matrix.render_bySize h]
      exact opened (by decide)
  | cell items => exact opened (by decide)
  | struct fields => exact opened (by decide)

/-- The exact digits of every finite number in the value read back. This is what printing and reading of doubles are
known for. -/
def Legible (v : Value) : Prop := ∀ x, HasNumber v.parts x → ReadsBack x.abs

theorem Legible.item {items : List Value} {v : Value} (h : (cell items).Legible) (hv : v ∈ items) : v.Legible :=
  fun x hx => h x (hx.mono fun _ hu => List.mem_cons_of_mem _ (mem_partsList.2 ⟨v, hv, hu⟩))

theorem Legible.field {fields : List (Text × Value)} {p : Text × Value} (h : (struct fields).Legible)
    (hp : p ∈ fields) : p.2.Legible :=
  fun x hx => h x (hx.mono fun _ hu => List.mem_cons_of_mem _ (mem_partsFields.2 ⟨p, hp, hu⟩))

theorem agreeItems_of_forall₂ {same : Float → Float → Bool} {vs ws : List Value}
    (h : List.Forall₂ (agrees same · ·) vs ws) : agreeItems same vs ws = true := by
  induction h with
  | nil => rfl
  | cons hfirst _ ih => rw [agreeItems, hfirst, ih]; rfl

theorem agreeFields_of_forall₂ {same : Float → Float → Bool} {fs gs : List (Text × Value)}
    (h : List.Forall₂ (fun p q => p.1 = q.1 ∧ agrees same p.2 q.2 = true) fs gs) : agreeFields same fs gs = true := by
  induction h with
  | nil => rfl
  | cons hfirst _ ih => rw [agreeFields, hfirst.1, hfirst.2, ih]; simp

def fieldText (p : Text × Value) : Text := Text.quote p.1 ++ ',' :: ([' '] ++ p.2.render)

theorem renderItems_eq (items : List Value) : renderItems items = items.map render := by
  induction items with
  | nil => rfl
  | cons v items ih => rw [renderItems, ih, List.map_cons]

theorem renderFields_eq (fields : List (Text × Value)) : renderFields fields = fields.map fieldText := by
  induction fields with
  | nil => rfl
  | cons p fields ih => simp [renderFields, ih, fieldText]

mutual

/-- Values that a text can begin with, a closing sign or a comma behind them, are equivalent. -/
theorem sameOnlyIf_render : (v w : Value) → v.Legible → w.Legible →
    SameOnlyIf closers v.render w.render (v.equivalent w = true)
  | logical b, w, _, _ => by
    cases w with
    | logical b' =>
      cases b <;> cases b'
      · exact (Text.sameOnlyIf_self _).imp fun _ => rfl
      · exact Text.sameOnlyIf_of_ne (by decide)
      · exact Text.sameOnlyIf_of_ne (by decide)
      · exact (Text.sameOnlyIf_self _).imp fun _ => rfl
    | _ => exact sameOnlyIf_of_kind_ne nofun
  | double x, w, hv, hw => by
    cases w with
    | double y =>
      exact Number.sameOnlyIf_render (fun hf => hv x (.double (by simp [parts]) hf))
        fun hf => hw y (.double (by simp [parts]) hf)
    | _ => exact sameOnlyIf_of_kind_ne nofun
  | text t, w, _, _ => by
    cases w with
    | text u => exact (Text.sameOnlyIf_render t u).imp fun h => h ▸ equivalent_refl (text t)
    | _ => exact sameOnlyIf_of_kind_ne nofun
  | matrix a, w, hv, hw => by
    cases w with
    | matrix b =>
      exact Matrix.sameOnlyIf_render (fun x hx hf => hv x (.element (by simp [parts]) hx hf))
        fun x hx hf => hw x (.element (by simp [parts]) hx hf)
    | _ => exact sameOnlyIf_of_kind_ne nofun
  | cell items, w, hv, hw => by
    cases w with
    | cell items' =>
      have hjoin : SameOnlyIf ['\x7d'] (Text.join [',', ' '] (items.map render))
          (Text.join [',', ' '] (items'.map render))
          (List.Forall₂ (agrees sameNumber · ·) items items') :=
        Text.sameOnlyIf_join (by decide) (by decide) (fun u _ => not_startsIn_render u)
          (fun u _ => not_startsIn_render u)
          fun u hu u' hu' => (sameOnlyIf_renderItems items u hu u' (hv.item hu) (hw.item hu')).mono (by decide)
      rw [← renderItems_eq, ← renderItems_eq] at hjoin
      exact (hjoin.bracket ['\x7b']).imp agreeItems_of_forall₂
    | _ => exact sameOnlyIf_of_kind_ne nofun
  | struct fields, w, hv, hw => by
    cases w with
    | struct fields' =>
      have hjoin : SameOnlyIf [')'] (Text.join [',', ' '] (fields.map fieldText))
          (Text.join [',', ' '] (fields'.map fieldText))
          (List.Forall₂ (fun p q => p.1 = q.1 ∧ agrees sameNumber p.2 q.2 = true) fields fields') :=
        Text.sameOnlyIf_join (by decide) (by decide) (fun p _ h => absurd (Text.startsIn_cons.1 h) (by decide))
          (fun p _ h => absurd (Text.startsIn_cons.1 h) (by decide))
          fun p hp q hq => (Text.sameOnlyIf_quote (by decide) p.1 q.1).append
            (((sameOnlyIf_renderFields fields p hp q.2 (hv.field hp) (hw.field hq)).mono (by decide)).behind [' '])
      rw [← renderFields_eq, ← renderFields_eq] at hjoin
      exact (hjoin.bracket "struct(".toList).imp agreeFields_of_forall₂
    | _ => exact sameOnlyIf_of_kind_ne nofun

theorem sameOnlyIf_renderItems : (vs : List Value) → ∀ v ∈ vs, ∀ w : Value, v.Legible → w.Legible →
    SameOnlyIf closers v.render w.render (v.equivalent w = true)
  | [], _, hu, _, _, _ => by cases hu
  | v :: vs, u, hu, w, hlu, hlw => by
    rcases List.mem_cons.1 hu with h | hu
    · rw [h] at hlu ⊢
      exact sameOnlyIf_render v w hlu hlw
    · exact sameOnlyIf_renderItems vs u hu w hlu hlw

theorem sameOnlyIf_renderFields : (fields : List (Text × Value)) → ∀ p ∈ fields, ∀ w : Value, p.2.Legible →
    w.Legible → SameOnlyIf closers p.2.render w.render (p.2.equivalent w = true)
  | [], _, hp, _, _, _ => by cases hp
  | (name, v) :: fields, p, hp, w, hlp, hlw => by
    rcases List.mem_cons.1 hp with h | hp
    · rw [h] at hlp ⊢
      exact sameOnlyIf_render v w hlp hlw
    · exact sameOnlyIf_renderFields fields p hp w hlp hlw

end

/-! ## Equivalent values -/

mutual

theorem render_of_agrees : (v w : Value) → agrees sameNumber v w = true → v.render = w.render
  | logical b, w, h => by
    cases w with
    | logical b' => simp_all [agrees]
    | _ => simp [agrees] at h
  | double x, w, h => by
    cases w with
    | double y => exact Number.render_of_sameNumber (by simpa only [agrees] using h)
    | _ => simp [agrees] at h
  | text t, w, h => by
    cases w with
    | text u => simp_all [agrees]
    | _ => simp [agrees] at h
  | matrix a, w, h => by
    cases w with
    | matrix b => exact Matrix.render_of_agrees h
    | _ => simp [agrees] at h
  | cell items, w, h => by
    cases w with
    | cell items' =>
      have hitems := renderItems_of_agrees items items' (by simpa only [agrees] using h)
      exact congrArg (fun ts => '\x7b' :: Text.join ", ".toList ts ++ ['\x7d']) hitems
    | _ => simp [agrees] at h
  | struct fields, w, h => by
    cases w with
    | struct fields' =>
      have hfields := renderFields_of_agrees fields fields' (by simpa only [agrees] using h)
      exact congrArg (fun ts => "struct(".toList ++ Text.join ", ".toList ts ++ [')']) hfields
    | _ => simp [agrees] at h

theorem renderItems_of_agrees : (vs ws : List Value) → agreeItems sameNumber vs ws = true →
    renderItems vs = renderItems ws
  | [], [], _ => rfl
  | [], _ :: _, h => by simp [agreeItems] at h
  | _ :: _, [], h => by simp [agreeItems] at h
  | v :: vs, w :: ws, h => by
    simp only [agreeItems, Bool.and_eq_true] at h
    rw [renderItems, renderItems, render_of_agrees v w h.1, renderItems_of_agrees vs ws h.2]

theorem renderFields_of_agrees : (fs gs : List (Text × Value)) → agreeFields sameNumber fs gs = true →
    renderFields fs = renderFields gs
  | [], [], _ => rfl
  | [], _ :: _, h => by simp [agreeFields] at h
  | _ :: _, [], h => by simp [agreeFields] at h
  | (n, v) :: fs, (m, w) :: gs, h => by
    simp only [agreeFields, Bool.and_eq_true, beq_iff_eq] at h
    rw [renderFields, renderFields, h.1.1, render_of_agrees v w h.1.2, renderFields_of_agrees fs gs h.2]

end

/-- Values are equivalent exactly if they are printed alike, so equivalence is an equivalence relation, NaN and the two
zeros included. -/
theorem equivalent_iff_render {v w : Value} (hv : v.Legible) (hw : w.Legible) :
    (v.equivalent w = true ↔ v.render = w.render) ∧ Equivalence fun v w : Value => v.equivalent w = true :=
  ⟨⟨render_of_agrees v w, (sameOnlyIf_render v w hv hw).of_eq⟩, equivalent_refl, equivalent_symm, equivalent_trans⟩

/-- Two cells of a zero, NaN and a text: the sign of the zero makes no difference. -/
theorem equivalent_iff_render_zeros :
    let v := cell [double (-0.0), double Number.nan, text "it's".toList]
    let w := cell [double 0.0, double Number.nan, text "it's".toList]
    v.Legible ∧ w.Legible ∧ v.render = "\x7b0, NaN, 'it''s'\x7d".toList ∧
      (v.equivalent w = true ↔ v.render = w.render) ∧ Equivalence fun v w : Value => v.equivalent w = true := by
  intro v w
  have legible : ∀ z : Float, ReadsBack z.abs →
      (cell [double z, double Number.nan, text "it's".toList]).Legible := by
    intro z hz x hx
    cases hx with
    | double hmem hf =>
      have hcase : x = z ∨ x = Number.nan := by simpa [parts, partsList] using hmem
      rcases hcase with rfl | rfl
      · exact hz
      · exact absurd hf (by decide +kernel)
    | element hmem _ _ => simp [parts, partsList] at hmem
  have hv : v.Legible := legible (-0.0) (by decide +kernel)
  have hw : w.Legible := legible 0.0 (by decide +kernel)
  exact ⟨hv, hw, by decide +kernel, equivalent_iff_render hv hw⟩

end Value

end ConfigScript
