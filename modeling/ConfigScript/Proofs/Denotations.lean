import ConfigScript.Evaluation
import ConfigScript.Proofs.Equivalence
import ConfigScript.Proofs.Shapes
import ConfigScript.Proofs.Writing
/-!
# The values of texts

`Denotes s t v` says that the text is written as an expression with this value, where no variable hides a
function (`Surroundings.Clear`). The text of a number denotes the same number (`Number.denotes_render`),
given that its exact digits read back; the text of a text denotes it, control characters or not
(`denotes_text`); and the text of a matrix denotes one with the same sizes and the same numbers
(`Matrix.denotes_render`).
-/

namespace ConfigScript

open Token (Writes IsWord callText)
open Value (sameNumber)

/-- No variable hides a function. -/
def Surroundings.Clear (s : Surroundings) : Prop :=
  ∀ name, Function.ofName? name ≠ none → s.workspace.lookup name = none

theorem Surroundings.clear_plain : Surroundings.Clear ⟨{}, [], []⟩ := fun _ _ => rfl

theorem Surroundings.Clear.lookup {s : Surroundings} (hs : s.Clear) {name : Text} {args : List Value} {v : Value}
    (h : Expr.callName s name args = .ok v) : s.workspace.lookup name = none := by
  refine hs name fun hnone => ?_
  rw [Expr.callName, hnone] at h
  cases h

/-- The text is written as an expression with this value. -/
def Denotes (s : Surroundings) (t : Text) (v : Value) : Prop := ∃ e, Writes t e ∧ e.eval s = .ok v

section

variable {s : Surroundings} {t w : Text} {ts : List Text} {v : Value} {vs : List Value}

theorem exists_writes (h : List.Forall₂ (Denotes s) ts vs) :
    ∃ es, List.Forall₂ Writes ts es ∧ Expr.evalList s es = .ok vs := by
  induction h with
  | nil => exact ⟨[], .nil, rfl⟩
  | cons hfirst _ ih =>
    obtain ⟨e, hw, he⟩ := hfirst
    obtain ⟨es, hws, hes⟩ := ih
    refine ⟨e :: es, .cons hw hws, ?_⟩
    rw [Expr.evalList, he, hes]
    rfl

theorem unary_negate (x : Float) : Value.unary .negate (.double x) = .ok (.double (-x)) := by
  show Except.ok (Value.ofMatrix ((Matrix.single x).map (- ·))) = _
  simp [Value.ofMatrix, Matrix.scalar?, Matrix.map, Matrix.single, Matrix.get]

theorem denotes_minus {x : Float} (h : Denotes s t (.double x)) : Denotes s ('-' :: t) (.double (-x)) := by
  obtain ⟨e, hw, he⟩ := h
  refine ⟨_, Token.writes_minus hw, ?_⟩
  rw [Expr.eval, he]
  exact unary_negate x

theorem denotes_quote (h : '\n' ∉ t) : Denotes s (Text.quote t) (.text t) :=
  ⟨_, Token.writes_quote h, by rw [Expr.eval]⟩

theorem denotes_curly (h : List.Forall₂ (Denotes s) ts vs) :
    Denotes s ('\x7b' :: (Text.join ", ".toList ts ++ ['\x7d'])) (.cell vs) := by
  obtain ⟨es, hw, he⟩ := exists_writes h
  refine ⟨_, Token.writes_curly hw, ?_⟩
  cases es with
  | nil =>
    cases he
    rfl
  | cons e es =>
    have hrows : Expr.evalRows s [e :: es] = .ok [vs] := by
      rw [Expr.evalRows, he]
      rfl
    rw [if_neg (by simp), Expr.eval, hrows]
    simp [pure, Except.pure, bind, Except.bind]

theorem denotes_square {tss : List (List Text)} {vss : List (List Value)}
    (h : List.Forall₂ (List.Forall₂ (Denotes s)) tss vss) (hne : ∀ vs ∈ vss, vs ≠ [])
    (hrows : vss.mapM Value.beside = .ok vs) (hv : Value.stacked vs = .ok v) :
    Denotes s ('[' :: (Text.join "; ".toList (tss.map (Text.join ", ".toList)) ++ [']'])) v := by
  obtain ⟨ess, hw, he⟩ : ∃ ess, List.Forall₂ (List.Forall₂ Writes) tss ess ∧
      Expr.evalRows s ess = .ok vss ∧ ∀ es ∈ ess, es ≠ [] := by
    clear hrows
    induction h with
    | nil => exact ⟨[], .nil, rfl, nofun⟩
    | @cons ts vs tss vss hfirst _ ih =>
      obtain ⟨es, hws, hes⟩ := exists_writes hfirst
      obtain ⟨ess, hwss, hess, hnes⟩ := ih fun vs hvs => hne vs (List.mem_cons_of_mem _ hvs)
      refine ⟨es :: ess, .cons hws hwss, ?_, ?_⟩
      · rw [Expr.evalRows, hes, hess]
        rfl
      · rintro es' hmem rfl
        rcases List.mem_cons.1 hmem with rfl | hmem
        · cases hes
          exact hne [] List.mem_cons_self rfl
        · exact hnes [] hmem rfl
  refine ⟨_, Token.writes_square hw he.2, ?_⟩
  rw [Expr.eval, he.1]
  exact bind_eq_ok.2 ⟨vss, rfl, bind_eq_ok.2 ⟨vs, hrows, hv⟩⟩

variable (hs : s.Clear)
include hs

theorem denotes_name (hw : IsWord t) (hk : isKeyword t = false) (h : Expr.callName s t [] = .ok v) :
    Denotes s t v := by
  refine ⟨_, Token.writes_name hw hk, ?_⟩
  rw [Expr.eval, hs.lookup h]
  exact h

theorem denotes_call (hw : IsWord w) (hk : isKeyword w = false) (h : List.Forall₂ (Denotes s) ts vs)
    (hv : Expr.callName s w vs = .ok v) : Denotes s (callText w ts) v := by
  obtain ⟨es, hws, hes⟩ := exists_writes h
  refine ⟨_, Token.writes_call hw hk hws, ?_⟩
  rw [Expr.eval, hes, hs.lookup hv]
  exact hv

end

/-! ## Numbers -/

namespace Number

/-- The number of a numeral. -/
def literal? : TokenKind → Option Float
  | .number x => some x
  | _ => none

/-- The exact text of a number is read as the number. -/
def ReadsBack (x : Float) : Prop := literal? (Token.numeral (Layout.exact.sizeText x)).kind = some x

instance (x : Float) : Decidable (ReadsBack x) := inferInstanceAs (Decidable (_ = _))

variable {s : Surroundings} {x : Float}

theorem denotes_natural (n : Nat) : Denotes s (Text.ofNat n) (.double (nearest n 0)) := by
  refine ⟨_, Token.writes_numeral (Token.spelled_ofNat n), ?_⟩
  rw [Expr.eval, Token.value_ofNat]

theorem denotes_size (h : ReadsBack x) : Denotes s (Layout.exact.sizeText x) (.double x) := by
  obtain ⟨n, hn⟩ := Token.exists_spelled x
  have hread := Token.numeral_of_spelled hn Token.delimits_nil
  rw [List.append_nil] at hread
  have hvalue : n.value = x := by
    rw [ReadsBack, hread] at h
    exact Option.some.inj h
  refine ⟨_, Token.writes_numeral hn, ?_⟩
  rw [Expr.eval, hvalue]

theorem filled_single (name : Text) (x : Float) : Function.filled name [] x = .ok (.double x) := by
  show Except.ok (Value.ofMatrix (.filled 1 1 x)) = _
  simp [Value.ofMatrix, Matrix.scalar?, Matrix.filled, Matrix.get]

theorem denotes_nan (hs : s.Clear) : Denotes s "NaN".toList (.double nan) :=
  denotes_name hs (by decide) (by decide) (filled_single "NaN".toList _)

theorem denotes_infinity (hs : s.Clear) : Denotes s "Inf".toList (.double infinity) :=
  denotes_name hs (by decide) (by decide) (filled_single "Inf".toList _)

theorem isNaN_iff (x : Float) : x.isNaN = true ↔ x.toModel.unpack = .notANumber := by
  show x.toModel.unpack.isNaN = true ↔ _
  cases x.toModel.unpack with
  | notANumber => exact iff_of_true rfl rfl
  | _ => exact iff_of_false Bool.false_ne_true nofun

theorem unpack_neg_infinity : (-infinity).toModel.unpack = .infinity .negative := by
  rw [unpack_neg, unpack_infinity]
  rfl

/-- What is neither NaN nor an infinity is finite. -/
theorem finite_of_ne (hn : x.isNaN = false) (hp : (x == infinity) = false) (hm : (x == -infinity) = false) :
    finite x = true := by
  rw [finite_iff]
  cases hu : x.toModel.unpack with
  | notANumber => rw [(isNaN_iff x).2 hu] at hn; cases hn
  | infinity sign =>
    cases sign with
    | positive =>
      rw [beq_of_unpack (hu.trans unpack_infinity.symm) (by simp [hu])] at hp
      cases hp
    | negative =>
      rw [beq_of_unpack (hu.trans unpack_neg_infinity.symm) (by simp [hu])] at hm
      cases hm
  | zero sign => rfl
  | finite sign m e hpos => rfl

/-- Nothing finite is infinite in size. -/
theorem abs_ne_of_finite (h : finite x = true) : (x.abs == 1.0 / 0.0) = false := by
  rw [Bool.eq_false_iff]
  intro heq
  have hu := unsignedZero_of_beq heq
  rw [unpack_abs, show (1.0 / 0.0 : Float) = infinity from rfl, unpack_infinity] at hu
  rw [finite_iff] at h
  generalize x.toModel.unpack = u at hu h
  cases u with
  | zero sign => cases hu
  | finite sign m e hpos => cases hu
  | infinity sign => cases h
  | notANumber => cases h

theorem exact_text_of_finite (hn : x.isNaN = false) (h : finite x = true) :
    Layout.exact.text x =
      if Layout.hasMinus x then '-' :: Layout.exact.sizeText x.abs else Layout.exact.sizeText x.abs := by
  unfold Layout.text
  rw [if_neg (hn ▸ Bool.false_ne_true), if_neg (abs_ne_of_finite h ▸ Bool.false_ne_true)]
  split
  · rfl
  · next hm => rw [abs_of_no_minus (by simpa using hm)]

/-- How a number is printed: by name, by its digits if it is whole and not too large, or in the exact layout. -/
inductive Rendering (x : Float) : Text → Prop
  | nan : x.isNaN = true → Rendering x "NaN".toList
  | infinity : (x == infinity) = true → Rendering x "Inf".toList
  | minusInfinity : (x == -infinity) = true → Rendering x ('-' :: "Inf".toList)
  | whole : isWhole x = true → x.abs < digitsUpTo → ¬ x < 0.0 → Rendering x (Text.ofNat (toNat x))
  | minusWhole : isWhole x = true → x.abs < digitsUpTo → x < 0.0 → Rendering x ('-' :: Text.ofNat (toNat (-x)))
  | size : finite x = true → Layout.hasMinus x = false → Rendering x (Layout.exact.sizeText x.abs)
  | minusSize : finite x = true → Layout.hasMinus x = true → Rendering x ('-' :: Layout.exact.sizeText x.abs)

theorem rendering (x : Float) : Rendering x (render x) := by
  unfold render
  split
  · next hn => exact .nan hn
  next hn =>
  split
  · next hp => exact .infinity hp
  next hp =>
  split
  · next hm => exact .minusInfinity hm
  next hm =>
  split
  · next hw =>
    obtain ⟨hwhole, hsmall⟩ := Bool.and_eq_true_iff.1 hw
    split
    · next hneg => exact .minusWhole hwhole (of_decide_eq_true hsmall) hneg
    · next hneg => exact .whole hwhole (of_decide_eq_true hsmall) hneg
  · rw [Bool.not_eq_true] at hn hp hm
    have hf := finite_of_ne hn hp hm
    rw [exact_text_of_finite hn hf]
    split
    · next hminus => exact .minusSize hf hminus
    · next hminus => exact .size hf (by simpa using hminus)

/-- The text of a number is written as the number. -/
theorem denotes_render (hs : s.Clear) (hr : finite x = true → ReadsBack x.abs) :
    ∃ y, Denotes s (render x) (.double y) ∧ sameNumber y x = true := by
  have h := rendering x
  generalize render x = t at h ⊢
  cases h with
  | nan hn =>
    have hnan : Number.nan.isNaN = true := by decide +kernel
    refine ⟨Number.nan, denotes_nan hs, ?_⟩
    rw [sameNumber, hnan, hn]
    exact Bool.or_true _
  | infinity hp =>
    refine ⟨Number.infinity, denotes_infinity hs, sameNumber_symm ?_⟩
    rw [sameNumber, hp]
    rfl
  | minusInfinity hm =>
    refine ⟨-Number.infinity, denotes_minus (denotes_infinity hs), sameNumber_symm ?_⟩
    rw [sameNumber, hm]
    rfl
  | whole hwhole hsmall hneg => exact ⟨_, denotes_natural _, sameNumber_nearest hwhole hsmall hneg⟩
  | minusWhole hwhole hsmall hneg => exact ⟨_, denotes_minus (denotes_natural _), sameNumber_neg_nearest hwhole hsmall hneg⟩
  | size hf hminus =>
    refine ⟨_, denotes_size (hr hf), ?_⟩
    rw [abs_of_no_minus hminus]
    exact sameNumber_refl x
  | minusSize hf hminus => exact ⟨_, denotes_minus (denotes_size (hr hf)), sameNumber_neg_abs hminus⟩

end Number

/-! ## Texts -/

section

variable {s : Surroundings} {t run : Text}

theorem not_mem_of_clear {c : Char} (h : t.any isControl = false) (hc : isControl c = true) : c ∉ t := fun hm =>
  List.any_eq_false.1 h c hm hc

theorem characterOf_nearest (name : Text) (c : Char) :
    Function.characterOf name (Number.nearest c.toNat 0) = .ok c := by
  have hlt : c.toNat < 2 ^ 53 := by
    have hc : c.toNat < 2 ^ 32 := c.val.toNat_lt
    omega
  obtain ⟨hle, hwhole, hnat⟩ := Number.nearest_of_counted (Number.counted_of_lt hlt)
  have hvalid : c.toNat.isValidChar := c.valid
  unfold Function.characterOf
  rw [hnat, if_pos (by simp [hle, hwhole, hvalid]), Char.ofNat_toNat]

theorem denotes_control (hs : s.Clear) (c : Char) : Denotes s (Text.spellControl c) (.text [c]) := by
  have hcall : Expr.callName s "char".toList [.double (Number.nearest c.toNat 0)] = .ok (.text [c]) := by
    show Function.characters "char".toList [.double (Number.nearest c.toNat 0)] = _
    simp [Function.characters, Function.one, Function.numbersOf, Value.matrix?, Value.scalar?, Matrix.single,
      characterOf_nearest, bind, Except.bind, pure, Except.pure]
  have hname : "char(".toList = "char".toList ++ ['('] := rfl
  have hparens : ∀ w t : Text, w ++ ['('] ++ t ++ [')'] = w ++ '(' :: (t ++ [')']) := fun w t => by simp
  have hspell : Text.spellControl c = callText "char".toList [Text.ofNat c.toNat] :=
    calc Text.spellControl c
      _ = "char".toList ++ ['('] ++ Text.ofNat c.toNat ++ [')'] := congrArg (· ++ Text.ofNat c.toNat ++ [')']) hname
      _ = "char".toList ++ '(' :: (Text.ofNat c.toNat ++ [')']) := hparens _ _
      _ = callText "char".toList [Text.ofNat c.toNat] := by rw [callText, Text.join_single]
  rw [hspell]
  exact denotes_call hs (w := "char".toList) (by decide) (by decide) (.cons (Number.denotes_natural _) .nil) hcall

/-- The parts of a text with control characters are written as texts that make it up. -/
theorem denotes_spelledParts (hs : s.Clear) (hrun : run.any isControl = false) :
    ∃ ts, List.Forall₂ (fun part t => Denotes s part (.text t)) (Text.spelledParts run t) ts ∧
      ts.flatten = run.reverse ++ t := by
  have hquoted : ∃ ts, List.Forall₂ (fun part t => Denotes s part (.text t))
      (if run.isEmpty then [] else [Text.quote run.reverse]) ts ∧ ts.flatten = run.reverse := by
    cases run with
    | nil => exact ⟨[], .nil, rfl⟩
    | cons c run =>
      have hn : '\n' ∉ (c :: run).reverse := fun hm => not_mem_of_clear hrun rfl (List.mem_reverse.1 hm)
      exact ⟨[(c :: run).reverse], .cons (denotes_quote hn) .nil, by simp⟩
  induction t generalizing run with
  | nil =>
    obtain ⟨ts, hts, hflat⟩ := hquoted
    exact ⟨ts, hts, by rw [hflat, List.append_nil]⟩
  | cons c t ih =>
    unfold Text.spelledParts
    split
    · obtain ⟨ts, hts, hflat⟩ := hquoted
      obtain ⟨ts', hts', hflat'⟩ := @ih [] rfl ⟨[], .nil, rfl⟩
      refine ⟨ts ++ [c] :: ts', List.rel_append hts (.cons (denotes_control hs c) hts'), ?_⟩
      simp [hflat, hflat']
    · next hc =>
      have hrun' : (c :: run).any isControl = false := by simp [hc, hrun]
      obtain ⟨ts, hts, hflat⟩ := @ih (c :: run) hrun' ⟨[(c :: run).reverse],
        .cons (denotes_quote fun hm => not_mem_of_clear hrun' rfl (List.mem_reverse.1 hm)) .nil, by simp⟩
      exact ⟨ts, hts, by simp [hflat]⟩

theorem joinedText_texts (ts : List Text) : Value.joinedText (ts.map .text) = .ok ts.flatten := by
  induction ts with
  | nil => rfl
  | cons t ts ih =>
    rw [List.map_cons, Value.joinedText, ih]
    rfl

theorem beside_texts {ts : List Text} (h : ts ≠ []) : Value.beside (ts.map .text) = .ok (.text ts.flatten) := by
  match ts, h with
  | [t], _ => simp [Value.beside]
  | t :: u :: ts, _ =>
    have hjoin := joinedText_texts (t :: u :: ts)
    simp only [List.map_cons] at hjoin ⊢
    unfold Value.beside
    rw [if_pos (by simp [Value.isText]), hjoin]
    rfl

theorem denotes_text (hs : s.Clear) (t : Text) : Denotes s (Text.render t) (.text t) := by
  unfold Text.render
  by_cases hc : t.any isControl = true
  · rw [if_pos hc]
    obtain ⟨ts, hts, hflat⟩ := @denotes_spelledParts s t [] hs rfl
    have hflat : ts.flatten = t := hflat
    have hne : ts ≠ [] := by
      rintro rfl
      rw [← hflat] at hc
      cases hc
    have hparts : List.Forall₂ (Denotes s) (Text.spelledParts [] t) (ts.map .text) :=
      List.forall₂_map_right_iff.2 hts
    have hbeside := beside_texts hne
    rw [hflat] at hbeside
    have hrows : [ts.map Value.text].mapM Value.beside = .ok [.text t] := by
      simp [hbeside, bind, Except.bind, pure, Except.pure]
    have hsquare := denotes_square (.cons hparts .nil) (by simpa using hne) hrows rfl
    simpa [Text.join_single] using hsquare
  · rw [if_neg hc]
    exact denotes_quote (not_mem_of_clear (by simpa using hc) rfl)

end

/-! ## Matrices -/

namespace Matrix

variable {a b m : Matrix}

theorem eq_of_data (hr : a.rows = b.rows) (hc : a.cols = b.cols) (hd : a.data = b.data) : a = b := by
  cases a
  cases b
  cases hr
  cases hc
  cases hd
  rfl

theorem data_of_scalar {x : Float} (h : m.scalar? = some x) : m = single x := by
  unfold scalar? at h
  split at h
  · next hone =>
    obtain ⟨hr, hc⟩ := hone
    have hsize : m.data.size = 1 := by rw [m.size_data, hr, hc]
    refine eq_of_data hr hc ?_
    have hx : m.data[0] = x := by
      have := Option.some.inj h
      simpa [get] using this
    refine Array.ext (by rw [hsize]; rfl) fun i hi hi' => ?_
    obtain rfl : i = 0 := by omega
    simpa [single] using hx
  · cases h

/-- The rows after the first `n`, one after the other, are the elements behind them. -/
theorem flatMap_rowList (m : Matrix) : (List.range m.rows).flatMap m.rowList = m.data.toList := by
  suffices h : ∀ n ≤ m.rows, (List.range n).flatMap m.rowList = m.data.toList.take (n * m.cols) by
    rw [h m.rows (Nat.le_refl _), ← m.size_data, ← Array.length_toList, List.take_length]
  intro n hn
  induction n with
  | zero => simp
  | succ n ih =>
    rw [List.range_succ, List.flatMap_append, ih (by omega), Nat.succ_mul, List.take_add]
    simp [rowList]

end Matrix

namespace Value

variable {v : Value} {m : Matrix}

theorem matrix?_ofMatrix (m : Matrix) : (ofMatrix m).matrix? = some m := by
  unfold ofMatrix
  split
  · next x hx => rw [Matrix.data_of_scalar hx]; rfl
  · rfl

theorem kind_ofMatrix (m : Matrix) : (ofMatrix m).isText = false ∧ (ofMatrix m).isCell = false := by
  unfold ofMatrix
  split <;> exact ⟨rfl, rfl⟩

theorem mapM_ofMatrix {f : Value → Except Fault Matrix} (hf : ∀ m, f (ofMatrix m) = .ok m) (ms : List Matrix) :
    (ms.map ofMatrix).mapM f = .ok ms :=
  mapM_eq_ok.2 (List.forall₂_map_left_iff.2 (List.forall₂_same.2 fun m _ => hf m))

theorem parts_ofMatrix {ms : List Matrix} (h : ∀ m ∈ ms, m.isEmpty = false) :
    numericParts (ms.map ofMatrix) = .ok ms ∧ rowParts (ms.map ofMatrix) = .ok ms := by
  have hfilter : ms.filter (!·.isEmpty) = ms := List.filter_eq_self.2 fun m hm => by simp [h m hm]
  constructor
  · refine bind_eq_ok.2 ⟨ms, mapM_ofMatrix (fun m => ?_) ms, congrArg Except.ok hfilter⟩
    rw [matrix?_ofMatrix]
  · refine bind_eq_ok.2 ⟨ms, mapM_ofMatrix (fun m => ?_) ms, congrArg Except.ok hfilter⟩
    rw [(kind_ofMatrix m).1, matrix?_ofMatrix]
    rfl

/-- Matrices with the same rows stand side by side. -/
theorem beside_ofMatrix {rows : Nat} {ms : List Matrix} (hne : ms ≠ []) (he : ∀ m ∈ ms, m.isEmpty = false)
    (hr : ∀ m ∈ ms, m.rows = rows) (hfits : Matrix.fits rows (Matrix.width ms) = true) :
    beside (ms.map ofMatrix) = .ok (ofMatrix (.beside rows ms hr)) := by
  match ms, hne with
  | [m], _ =>
    simp only [List.map_cons, List.map_nil, beside]
    refine congrArg (fun m => Except.ok (ofMatrix m)) (Matrix.eq_of_data (hr m (by simp)) (by simp [Matrix.beside, Matrix.width]) ?_)
    have hflat := m.flatMap_rowList
    rw [hr m (by simp)] at hflat
    simp [Matrix.beside, Matrix.besideData, hflat]
  | m :: n :: ms, _ =>
    obtain ⟨hparts, -⟩ := parts_ofMatrix he
    obtain rfl := hr m (by simp)
    rw [beside_of_numbers (by simp) (by simp [kind_ofMatrix]) (by simp [kind_ofMatrix]), hparts]
    exact (dif_pos hr).trans (if_pos hfits)

/-- Matrices with the same columns stand one below the other. -/
theorem stacked_ofMatrix {cols : Nat} {ms : List Matrix} (hne : ms ≠ []) (he : ∀ m ∈ ms, m.isEmpty = false)
    (hc : ∀ m ∈ ms, m.cols = cols) (hfits : Matrix.fits (Matrix.height ms) cols = true) :
    stacked (ms.map ofMatrix) = .ok (ofMatrix (.stack cols ms hc)) := by
  match ms, hne with
  | [m], _ =>
    simp only [List.map_cons, List.map_nil, stacked]
    refine congrArg (fun m => Except.ok (ofMatrix m)) (Matrix.eq_of_data (by simp [Matrix.stack, Matrix.height]) (hc m (by simp)) ?_)
    simp [Matrix.stack, Matrix.stackData]
  | m :: n :: ms, _ =>
    obtain ⟨-, hparts⟩ := parts_ofMatrix he
    obtain rfl := hc m (by simp)
    rw [stacked_of_numbers (by simp) (by simp) (by simp [kind_ofMatrix]), hparts]
    exact (dif_pos hc).trans (if_pos hfits)

theorem ofMatrix_single (x : Float) : ofMatrix (.single x) = .double x := by
  simp [ofMatrix, Matrix.scalar?, Matrix.single, Matrix.get]

theorem beside_doubles {ys : List Float} (hne : ys ≠ []) (hn : ys.length ≤ Matrix.maxElements) :
    beside (ys.map .double) = .ok (ofMatrix (.row ys.toArray)) := by
  have hvalues : ys.map .double = (ys.map Matrix.single).map ofMatrix := by
    rw [List.map_map]
    exact List.map_congr_left fun y _ => (ofMatrix_single y).symm
  have hr : ∀ m ∈ ys.map Matrix.single, m.rows = 1 := by
    intro m hm
    obtain ⟨y, -, rfl⟩ := List.mem_map.1 hm
    rfl
  have he : ∀ m ∈ ys.map Matrix.single, m.isEmpty = false := by
    intro m hm
    obtain ⟨y, -, rfl⟩ := List.mem_map.1 hm
    rfl
  have hwidth : Matrix.width (ys.map Matrix.single) = ys.length := by
    clear hne hn hvalues hr he
    induction ys with
    | nil => rfl
    | cons y ys ih => rw [List.map_cons, Matrix.width, ih, List.length_cons, Nat.add_comm]; rfl
  have hdata : Matrix.besideData 1 (ys.map Matrix.single) = ys.toArray := by
    simp [Matrix.besideData, List.flatMap_map, Matrix.rowList, Matrix.single]
  have hfits : Matrix.fits 1 (Matrix.width (ys.map Matrix.single)) = true := by
    rw [hwidth, Matrix.fits, Nat.one_mul]
    exact decide_eq_true hn
  rw [hvalues, beside_ofMatrix (by simpa using hne) he hr hfits]
  refine congrArg (fun m => Except.ok (ofMatrix m)) (Matrix.eq_of_data rfl ?_ hdata)
  simp [Matrix.beside, Matrix.row, hwidth]

end Value

namespace Matrix

open Number (ReadsBack finite)

variable {s : Surroundings} {m : Matrix}

theorem stackData_rows (yss : List (List Float)) :
    stackData (yss.map fun ys => row ys.toArray) = yss.flatten.toArray := by
  suffices h : ∀ data : Array Float, (yss.map fun ys => row ys.toArray).foldl (fun data m => data ++ m.data) data =
      data ++ yss.flatten.toArray by
    rw [stackData, h, Array.empty_append]
  induction yss with
  | nil => simp
  | cons ys yss ih =>
    intro data
    rw [List.map_cons, List.foldl_cons, ih]
    simp [row]

theorem height_rows (yss : List (List Float)) : height (yss.map fun ys => row ys.toArray) = yss.length := by
  induction yss with
  | nil => rfl
  | cons ys yss ih => rw [List.map_cons, height, ih, List.length_cons, Nat.add_comm]; rfl

/-- The texts of numbers are written as numbers that are the same. -/
theorem exists_denoted (hs : s.Clear) {xs : List Float}
    (h : ∀ x ∈ xs, finite x = true → ReadsBack x.abs) :
    ∃ ys, List.Forall₂ (fun t y => Denotes s t (.double y)) (xs.map Number.render) ys ∧
      List.Forall₂ (fun y x => sameNumber y x = true) ys xs := by
  induction xs with
  | nil => exact ⟨[], .nil, .nil⟩
  | cons x xs ih =>
    obtain ⟨y, hy, hsame⟩ := Number.denotes_render hs (h x List.mem_cons_self)
    obtain ⟨ys, hys, hsames⟩ := ih fun x' hx' => h x' (List.mem_cons_of_mem x hx')
    exact ⟨y :: ys, .cons hy hys, .cons hsame hsames⟩

theorem exists_denoted_rows (hs : s.Clear) {xss : List (List Float)}
    (h : ∀ xs ∈ xss, ∀ x ∈ xs, finite x = true → ReadsBack x.abs) :
    ∃ yss, List.Forall₂ (List.Forall₂ (fun t y => Denotes s t (.double y))) (xss.map (·.map Number.render)) yss ∧
      List.Forall₂ (List.Forall₂ (fun y x => sameNumber y x = true)) yss xss := by
  induction xss with
  | nil => exact ⟨[], .nil, .nil⟩
  | cons xs xss ih =>
    obtain ⟨ys, hys, hsame⟩ := exists_denoted hs (h xs List.mem_cons_self)
    obtain ⟨yss, hyss, hsames⟩ := ih fun xs' hxs' => h xs' (List.mem_cons_of_mem xs hxs')
    exact ⟨ys :: yss, .cons hys hyss, .cons hsame hsames⟩

theorem length_of_related {α β : Type} {R : α → β → Prop} {ass : List (List α)} {bss : List (List β)} {n : Nat}
    (h : List.Forall₂ (List.Forall₂ R) ass bss) (hn : ∀ bs ∈ bss, bs.length = n) : ∀ as ∈ ass, as.length = n := by
  induction h with
  | nil => exact nofun
  | cons hfirst _ ih =>
    intro as has
    rcases List.mem_cons.1 has with rfl | has
    · rw [hfirst.length_eq]
      exact hn _ List.mem_cons_self
    · exact ih (fun bs hbs => hn bs (List.mem_cons_of_mem _ hbs)) as has

theorem mapM_beside {yss : List (List Float)} (hne : ∀ ys ∈ yss, ys ≠ [])
    (hn : ∀ ys ∈ yss, ys.length ≤ maxElements) :
    (yss.map (·.map Value.double)).mapM Value.beside =
      .ok (yss.map fun ys => Value.ofMatrix (row ys.toArray)) := by
  refine Value.mapM_eq_ok.2 ?_
  rw [List.forall₂_map_left_iff, List.forall₂_map_right_iff, List.forall₂_same]
  exact fun ys hys => Value.beside_doubles (hne ys hys) (hn ys hys)

theorem filled_of_counted (name : Text) (x : Float) {rows cols : Nat} (hr : Number.Counted rows)
    (hc : Number.Counted cols) (hfits : fits rows cols = true) :
    Function.filled name [.double (Number.nearest rows 0), .double (Number.nearest cols 0)] x =
      .ok (.ofMatrix (filled rows cols x)) := by
  have hdim : ∀ {n}, Number.Counted n → Function.dimension name (.double (Number.nearest n 0)) = .ok n := by
    intro n hn
    obtain ⟨hle, hwhole, hnat⟩ := Number.nearest_of_counted hn
    unfold Function.dimension
    simp [Value.scalar?, hle, hwhole, hnat]
  simp [Function.filled, hdim hr, hdim hc, hfits, bind, Except.bind, pure, Except.pure]

theorem denotes_empty (hs : s.Clear) (hm : m.Measured) (he : m.isEmpty = true)
    (hone : ¬ (m.rows = 1 ∧ m.cols = 1)) :
    ∃ v, Denotes s m.render v ∧ v.equivalent (.matrix m) = true := by
  have h0 : m.data.size = 0 := by simpa [isEmpty] using he
  unfold render
  rw [if_pos he]
  split
  · next hsizes =>
    have hnil : ∀ vs ∈ ([] : List (List Value)), vs ≠ [] := fun vs hvs => absurd hvs List.not_mem_nil
    have hsquare : Denotes s "[]".toList .empty := @denotes_square s .empty [] [] [] .nil hnil rfl rfl
    refine ⟨.empty, hsquare, (Value.agrees_matrix_iff _ _).2 ⟨hsizes.1.symm, hsizes.2.symm, ?_⟩⟩
    intro i hi
    exact absurd hi (Nat.not_lt_zero i)
  · obtain ⟨hr, hc⟩ := hm h0
    have hfits : fits m.rows m.cols = true := by
      rw [fits, ← m.size_data, h0]
      rfl
    have hcall : Expr.callName s "zeros".toList
        [.double (Number.nearest m.rows 0), .double (Number.nearest m.cols 0)] =
          .ok (.matrix (filled m.rows m.cols 0.0)) := by
      have hvalue : Value.ofMatrix (filled m.rows m.cols 0.0) = .matrix (filled m.rows m.cols 0.0) := by
        have hscalar : (filled m.rows m.cols 0.0).scalar? = none := dif_neg hone
        rw [Value.ofMatrix, hscalar]
      exact (filled_of_counted "zeros".toList 0.0 hr hc hfits).trans (congrArg Except.ok hvalue)
    refine ⟨_, ?_, (Value.agrees_matrix_iff (filled m.rows m.cols 0.0) m).2 ⟨rfl, rfl, ?_⟩⟩
    · have := denotes_call hs (w := "zeros".toList) (by decide) (by decide)
        (.cons (Number.denotes_natural _) (.cons (Number.denotes_natural _) .nil)) hcall
      simpa [callText, Text.join] using this
    · intro i _ hi
      omega

theorem mem_data_of_rowList {xs : List Float} {x : Float} (hxs : xs ∈ (List.range m.rows).map m.rowList)
    (hx : x ∈ xs) : x ∈ m.data := by
  refine Array.mem_toList_iff.1 ?_
  rw [← m.flatMap_rowList, List.flatMap_def]
  exact List.mem_flatten.2 ⟨xs, hxs, hx⟩

/-- Rows of one length stand below each other as a matrix, which is not a single number. -/
theorem stacked_rows {yss : List (List Float)} {cols : Nat} (hne : yss ≠ []) (hnes : ∀ ys ∈ yss, ys ≠ [])
    (hcols : ∀ n ∈ yss.map fun ys => row ys.toArray, n.cols = cols) (hfits : fits yss.length cols = true)
    (hone : ¬ (yss.length = 1 ∧ cols = 1)) :
    Value.stacked (yss.map fun ys => Value.ofMatrix (row ys.toArray)) = .ok (.matrix (.stack cols _ hcols)) := by
  have hstacked : Value.stacked (yss.map fun ys => Value.ofMatrix (row ys.toArray)) =
      .ok (Value.ofMatrix (.stack cols _ hcols)) := by
    rw [← Value.stacked_ofMatrix ?_ ?_ hcols (by rwa [height_rows]), List.map_map]
    · rfl
    · exact fun hnil => hne (List.map_eq_nil_iff.1 hnil)
    · intro n hn
      obtain ⟨ys, hys, rfl⟩ := List.mem_map.1 hn
      simpa [row, isEmpty] using hnes ys hys
  have hscalar : (stack cols (yss.map fun ys => row ys.toArray) hcols).scalar? = none := by
    refine dif_neg ?_
    show ¬ (height _ = 1 ∧ cols = 1)
    rwa [height_rows]
  rw [hstacked, Value.ofMatrix, hscalar]

theorem denotes_render (hs : s.Clear) (hm : m.Measured) (hone : ¬ (m.rows = 1 ∧ m.cols = 1))
    (hmax : m.data.size ≤ maxElements) (h : ∀ x ∈ m.data, finite x = true → ReadsBack x.abs) :
    ∃ v, Denotes s m.render v ∧ v.equivalent (.matrix m) = true := by
  by_cases he : m.isEmpty = true
  · exact denotes_empty hs hm he hone
  have hpos : 0 < m.rows * m.cols := by
    rw [← m.size_data]
    apply Nat.pos_of_ne_zero
    intro h0
    exact he (by simp [isEmpty, Array.isEmpty, h0])
  have hrows := Nat.pos_of_mul_pos_right hpos
  have hcols := Nat.pos_of_mul_pos_left hpos
  obtain ⟨yss, hyss, hsame⟩ := exists_denoted_rows hs fun xs hxs x hx => h x (mem_data_of_rowList hxs hx)
  have hlength : yss.length = m.rows := by simpa using hsame.length_eq
  have hcount : ∀ ys ∈ yss, ys.length = m.cols := length_of_related hsame fun xs hxs => by
    obtain ⟨r, hr, rfl⟩ := List.mem_map.1 hxs
    exact rowList_length (List.mem_range.1 hr)
  have hne : yss ≠ [] := List.ne_nil_of_length_pos (hlength ▸ hrows)
  have hnes : ∀ ys ∈ yss, ys ≠ [] := fun ys hys => List.ne_nil_of_length_pos (hcount ys hys ▸ hcols)
  have hsmall : ∀ ys ∈ yss, ys.length ≤ maxElements := by
    intro ys hys
    rw [hcount ys hys]
    refine Nat.le_trans (Nat.le_mul_of_pos_left m.cols hrows) ?_
    rwa [← m.size_data]
  have hcolumns : ∀ n ∈ yss.map fun ys => row ys.toArray, n.cols = m.cols := by
    intro n hn
    obtain ⟨ys, hys, rfl⟩ := List.mem_map.1 hn
    simpa [row] using hcount ys hys
  have hfits : fits yss.length m.cols = true := by
    rw [hlength, fits, ← m.size_data]
    exact decide_eq_true hmax
  have hstacked := stacked_rows hne hnes hcolumns hfits (by rwa [hlength])
  refine ⟨_, ?_, (Value.agrees_matrix_iff (stack m.cols _ hcolumns) m).2 ⟨?_, rfl, ?_⟩⟩
  · have hdenoted : List.Forall₂ (List.Forall₂ (Denotes s))
        (((List.range m.rows).map m.rowList).map (·.map Number.render)) (yss.map (·.map Value.double)) :=
      List.forall₂_map_right_iff.2 (hyss.imp fun _ _ h => List.forall₂_map_right_iff.2 h)
    have hsquare := denotes_square hdenoted (by simpa using fun ys hys => hnes ys hys) (mapM_beside hnes hsmall) hstacked
    unfold render
    rw [if_neg he]
    simpa [Function.comp_def] using hsquare
  · exact (height_rows yss).trans hlength
  · intro i hi hi'
    have hflat : List.Forall₂ (fun y x => sameNumber y x = true) yss.flatten m.data.toList := by
      rw [← m.flatMap_rowList, List.flatMap_def]
      exact List.rel_flatten hsame
    have hdata : (stack m.cols _ hcolumns).data = yss.flatten.toArray := stackData_rows yss
    have := hflat.get (i := i) (by simpa [hdata] using hi) (by simpa using hi')
    simpa [hdata] using this

end Matrix

end ConfigScript
