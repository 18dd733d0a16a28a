import ConfigScript.Proofs.Outcomes
import ConfigScript.Proofs.Replaced
import ConfigScript.Proofs.Values
/-!
# What an edit does to the program

An edit is made on the text, but where the text of an occurrence is one assignment of the script's
tokens (`StandsAlone`) and the value does not run into its line (`Fits`), the new text has the old
tokens with those of the value in place (`Site.retokenize`), and so the program is the old one with
the value in this assignment (`readProgram_splice`).
-/

namespace ConfigScript

namespace Edit

open Token Program

variable {script : Text} {front value rest : List Token} {p : Spot} {semi : Token}

/-! ## Where an assignment stands -/

/-- Where the tokens of a script have an assignment and a semicolon behind its value: how this cuts
the text, and the scan at the equals sign, at the semicolon and at the end. -/
structure Site (script : Text) (front : List Token) (p : Spot) (value : List Token) (semi : Token)
    (rest : List Token) where
  head : Text
  left : Text
  right : Text
  tail : Text
  atSign : Scan
  atEnd : Scan
  last : Scan
  cut : head ++ (left ++ '=' :: (right ++ ';' :: tail)) = script
  offset : p.offset = head.byteLength
  line : p.line = 1 + head.lineBreaks
  signOffset : p.signOffset = head.byteLength + left.byteLength
  semiOffset : semi.offset = head.byteLength + (left ++ '=' :: right).byteLength
  toSign : Run .start (head ++ (left ++ '=' :: (right ++ ';' :: tail))) atSign ('=' :: (right ++ ';' :: tail))
  signGroups : atSign.groups = []
  signTokens : atSign.tokens.reverse = front ++ [⟨.word p.name, p.line, p.offset⟩]
  sign : ⟨.assign, atSign.line, atSign.offset⟩ = p.sign
  toLast : Run atEnd (';' :: tail) last []
  endGroups : atEnd.groups = []
  endOffset : atEnd.offset = semi.offset
  endTokens : atEnd.tokens.reverse = front ++ p.before value
  scanned : tokenize script = .ok last.tokens.reverse
  lastGroups : last.groups = []
  lastTokens : last.tokens.reverse = atEnd.tokens.reverse ++ semi :: rest

/-- A sign behind balanced tokens is one character of the text. -/
theorem exists_sign {s s' : Scan} {t : Text} {x : Token} {c : Char} (hr : Run s t s' []) (hn : WellNested s)
    (htok : s'.tokens.reverse = front ++ x :: rest) (hx : x.kind = .assign ∨ x.kind = .semicolon)
    (hc : ∀ c', Sign c' x.kind → c' = c) (hfront : nestAll [] (kinds front) = some [])
    (hlen : s.tokens.length ≤ front.length) :
    ∃ s₁ v, Run s t s₁ (c :: v) ∧ Run (s₁.after x.kind c) v s' [] ∧ Run s₁ (c :: v) s' [] ∧
      WellNested (s₁.after x.kind c) ∧ s₁.groups = [] ∧ s₁.tokens.reverse = front ∧
      x = ⟨x.kind, s₁.line, s₁.offset⟩ := by
  have hcomma : x.kind ≠ .comma := by
    rcases hx with hx | hx <;> simp [hx]
  obtain ⟨s₁, d, v, s₂, t₂, hr₁, hs, hr₂, hn₁, hg, htok₁, htok₂, ho, hl⟩ :=
    hr.reachOutside hn htok hcomma hfront hlen
  have hsep : x.kind = .assign ∨ x.kind.separates = true := hx.imp id fun hx => by rw [hx]; rfl
  obtain ⟨hsign, rfl, rfl⟩ := hs.sign hg htok₂ hsep
  obtain rfl := hc d hsign
  refine ⟨s₁, t₂, hr₁, hr₂, .cons hs hr₂, (Run.single hs).wellNested hn₁, hg, ?_, ?_⟩
  · rw [htok₁, List.reverse_reverse]
  · rw [← ho, ← hl]

theorem exists_site (h : tokenize script = .ok (front ++ p.before (value ++ semi :: rest)))
    (hs : semi.kind = .semicolon) (hfront : nestAll [] (kinds front) = some [])
    (hvalue : nestAll [] (kinds value) = some []) : Nonempty (Site script front p value semi rest) := by
  obtain ⟨last, hr, hlast, htok⟩ := scan_eq_ok.1 h
  -- the name
  obtain ⟨s₁, c, v, s₂, t₂, hr₁, hs₁, hr₂, hn₁, hg₁, htok₁, htok₂, hoff₁, hline₁⟩ :=
    hr.reachOutside wellNested_start htok.symm nofun hfront (Nat.zero_le _)
  -- the equals sign
  have hname : nestAll [] (kinds (front ++ [⟨.word p.name, p.line, p.offset⟩])) = some [] := by
    rw [kinds_append, nestAll_append, hfront]
    rfl
  have hsplit : last.tokens.reverse = front ++ [⟨.word p.name, p.line, p.offset⟩] ++ p.sign ::
      (value ++ semi :: rest) := by
    rw [← htok, List.append_assoc]
    rfl
  obtain ⟨atSign, u, hr₃, hr₄, -, hn₄, hg₃, htok₃, hsign⟩ :=
    @exists_sign _ _ _ _ _ _ '=' hr₂ ((Run.single hs₁).wellNested hn₁) hsplit (.inl rfl)
      (by rintro _ ⟨⟩; rfl) hname (by simp [htok₂, htok₁])
  -- the semicolon
  have hbefore : nestAll [] (kinds (front ++ p.before value)) = some [] := by
    rw [kinds_append, nestAll_append, hfront]
    exact hvalue
  have hsplit' : last.tokens.reverse = front ++ p.before value ++ semi :: rest := by
    rw [← htok, List.append_assoc]
    rfl
  obtain ⟨atEnd, tail, hr₅, -, hr₆, -, hg₅, htok₅, hsemi⟩ :=
    @exists_sign _ _ _ _ _ _ ';' hr₄ hn₄ hsplit' (.inr hs) (by rw [hs]; rintro _ ⟨⟩; rfl) hbefore
      (by
        have hlen := congrArg List.length htok₃
        simp [Scan.after, Spot.before] at hlen ⊢
        omega)
  -- the pieces of the text
  obtain ⟨head, _, ha₁⟩ := hr₁.advance
  obtain ⟨left, _, ha₃⟩ := (Run.cons hs₁ hr₃).advance
  obtain ⟨right, _, ha₅⟩ := hr₅.advance
  have htext : script = head ++ (left ++ '=' :: (right ++ ';' :: tail)) := by
    rw [ha₁.text, ha₃.text, ha₅.text]
  have hhead : s₁.offset = head.byteLength := ha₁.offset.trans (Nat.zero_add _)
  have hleft : atSign.offset = head.byteLength + left.byteLength := by rw [ha₃.offset, hhead]
  have hright : atEnd.offset = head.byteLength + (left ++ '=' :: right).byteLength := by
    rw [ha₅.offset, Scan.after, hleft, Text.byteLength_append]
    simp [Text.byteLength, Nat.add_assoc]
  have htoSign := hr₁.trans (.cons hs₁ hr₃)
  rw [ha₅.text] at htoSign
  exact ⟨{
    head, left, right, tail, atSign, atEnd, last
    cut := htext.symm
    offset := hoff₁.trans hhead
    line := hline₁.trans ha₁.line
    signOffset := (congrArg Token.offset hsign).trans hleft
    semiOffset := (congrArg Token.offset hsemi).trans hright
    toSign := htext ▸ htoSign
    signGroups := hg₃
    signTokens := htok₃
    sign := hsign.symm
    toLast := hr₆
    endGroups := hg₅
    endOffset := (congrArg Token.offset hsemi).symm
    endTokens := htok₅
    scanned := htok ▸ h
    lastGroups := hlast
    lastTokens := by rw [hsplit', htok₅] }⟩

/-! ## What a splice leaves of the text -/

/-- A text that ends in front of an equals sign has no other, if it is as long as what stands in front
of the first one. -/
theorem not_mem_of_takeWhile {left t : Text}
    (h : Text.byteLength ((left ++ '=' :: t).takeWhile (· ≠ '=')) = left.byteLength) : '=' ∉ left := by
  induction left with
  | nil => exact List.not_mem_nil
  | cons c left ih =>
    by_cases hc : c = '='
    · subst hc
      have hpos := Text.byteLength_pos (List.cons_ne_nil '=' left)
      simp [Text.byteLength] at h hpos
      omega
    · have htake : (c :: left ++ '=' :: t).takeWhile (· ≠ '=') =
          c :: (left ++ '=' :: t).takeWhile (· ≠ '=') := List.takeWhile_cons_of_pos (by simp [hc])
      rw [htake] at h
      have := ih (Nat.add_left_cancel h)
      simp [Ne.symm hc, this]

theorem leftSide_append {left : Text} (h : '=' ∉ left) (t : Text) :
    leftSide (left ++ '=' :: t) = left ++ '=' :: t.takeWhile Occurrence.isGap := by
  have hall : ∀ c ∈ left, decide (c ≠ '=') = true := by
    intro c hc
    simp only [decide_eq_true_eq]
    rintro rfl
    exact h hc
  have htake : (left ++ '=' :: t).takeWhile (· ≠ '=') = left := by
    rw [List.takeWhile_append_of_pos hall]
    simp
  unfold leftSide
  dsimp only
  rw [htake, List.drop_left]

/-- The assignment as it is spelled. -/
def Site.text (d : Site script front p value semi rest) : Text := d.left ++ '=' :: (d.right ++ [';'])

theorem Site.pieces (d : Site script front p value semi rest) : d.head ++ (d.text ++ d.tail) = script := by
  refine Eq.trans ?_ d.cut
  simp [Site.text]

theorem Site.stop (d : Site script front p value semi rest) :
    d.head.byteLength + d.text.byteLength = semi.offset + 1 := by
  have hsemi : Text.byteLength [';'] = 1 := rfl
  have htext : d.text = (d.left ++ '=' :: d.right) ++ [';'] := by simp [Site.text]
  rw [d.semiOffset, htext, Text.byteLength_append, hsemi, Nat.add_assoc]

theorem Site.takeBytes (d : Site script front p value semi rest) : script.takeBytes p.offset = d.head := by
  have h := Text.takeBytes_byteLength d.head (d.text ++ d.tail)
  rwa [d.pieces, ← d.offset] at h

theorem Site.slice (d : Site script front p value semi rest) :
    script.slice p.offset (semi.offset + 1) = d.text := by
  have h := Text.slice_byteLength d.head d.text d.tail
  rwa [d.pieces, d.stop, ← d.offset] at h

theorem Site.dropBytes (d : Site script front p value semi rest) :
    script.dropBytes (semi.offset + 1) = d.tail := by
  have h := Text.dropBytes_byteLength (d.head ++ d.text) d.tail
  rwa [List.append_assoc, d.pieces, Text.byteLength_append, d.stop] at h

/-- The text with another value in this place. -/
theorem Site.splice (d : Site script front p value semi rest) {o : Occurrence} {new : Text}
    (hstart : o.start = p.offset) (hstop : o.stop = semi.offset + 1) (hleft : '=' ∉ d.left) :
    ∃ blanks, (∀ c ∈ blanks, isSpace c = true) ∧ Edit.splice script o new =
      d.head ++ (d.left ++ '=' :: (blanks ++ (normalize new ++ ';' :: d.tail))) := by
  refine ⟨(d.right ++ [';']).takeWhile Occurrence.isGap, fun c hc => ?_, ?_⟩
  · rcases Occurrence.isGap_iff.1 (List.mem_takeWhile_imp hc) with rfl | rfl <;> rfl
  · rw [Edit.splice, Occurrence.text, hstart, hstop, d.takeBytes, d.slice, d.dropBytes, Site.text,
      leftSide_append hleft]
    simp

/-! ## The tokens of the new script -/

/-- A value does not run into its line: behind a semicolon of its own the script goes on as before,
and if the value ends in a comment, nothing but separators is behind the assignment on its line. -/
inductive Fits (script : Text) (stop : Nat) : Text → Prop
  | closed {value : Text} : Complete value → Fits script stop value
  | commented {code comment : Text} : Complete code → '\n' ∉ comment →
    (∀ toks, tokenize script = .ok toks → ∀ x ∈ toks, stop ≤ x.offset →
      x.offset < stop + (restOfLine (script.dropBytes stop)).1.byteLength → x.kind.separates = true) →
    Fits script stop (code ++ '%' :: comment)

theorem Site.retokenize (d : Site script front p value semi rest) {blanks new : Text}
    (hblanks : ∀ c ∈ blanks, isSpace c = true) (hf : Fits script (semi.offset + 1) new)
    (hnew : new.head? ≠ some '=') :
    ∃ ts value' rest', tokenize new = .ok ts ∧
      tokenize (d.head ++ (d.left ++ '=' :: (blanks ++ (new ++ ';' :: d.tail)))) =
        .ok (front ++ p.before (value' ++ rest')) ∧
      kinds value' = kinds ts ∧ Rejoins (semi :: rest) rest' := by
  -- up to the equals sign the scan goes as before
  have hsign : Run .start (d.head ++ (d.left ++ '=' :: (blanks ++ (new ++ ';' :: d.tail)))) d.atSign
      ('=' :: (blanks ++ (new ++ ';' :: d.tail))) := by
    have h := d.toSign
    rw [← List.append_assoc] at h ⊢
    exact h.exchange .assign ⟨List.cons_ne_nil _ _, by simp⟩ (.inl rfl)
  have hhead : (blanks ++ (new ++ ';' :: d.tail)).head? ≠ some '=' := by
    cases blanks with
    | cons c blanks =>
      rintro ⟨⟩
      exact absurd (hblanks '=' List.mem_cons_self) (by decide)
    | nil =>
      cases new with
      | nil => simp
      | cons c new => exact hnew
  obtain ⟨s, hb, hg, htok⟩ := @run_blanks (d.atSign.after .assign '=') (new ++ ';' :: d.tail) blanks hblanks
  have hg : s.groups = [] := hg.trans d.signGroups
  have ho : s.afterOperand = false := by
    rw [Scan.afterOperand, htok]
    rfl
  -- from there on it goes as before behind the semicolon
  have hresume : ∃ ts, tokenize new = .ok ts ∧ Resumes d.atEnd d.last s (new ++ ';' :: d.tail) ts := by
    cases hf with
    | closed hc => exact hc.resumes hg ho d.toLast d.endGroups d.lastGroups
    | commented hc hn hline =>
      refine hc.resumes_comment hn hg ho d.toLast d.endGroups d.lastGroups fun x hx hle hlt => ?_
      rw [d.endOffset] at hle hlt
      refine hline _ d.scanned x (List.mem_reverse.2 hx) hle ?_
      rw [d.dropBytes]
      exact hlt
  obtain ⟨ts, hts, @⟨s', value', rest₀, rest', hr, hg', hold, hnew', hk, hj⟩⟩ := hresume
  obtain rfl : rest₀ = semi :: rest := by
    have h := d.lastTokens
    rw [hold, List.reverse_append, List.reverse_reverse] at h
    exact List.append_cancel_left h
  refine ⟨ts, value', rest', hts, scan_eq_ok.2 ⟨s', ?_, hg', ?_⟩, hk, hj⟩
  · exact hsign.trans (.cons (step_assign d.signGroups hhead) (hb.trans hr))
  · rw [hnew', htok]
    have hsign : ⟨.assign, d.atSign.line, d.atSign.offset⟩ = p.sign := d.sign
    simp [Scan.after, d.signTokens, hsign, Spot.before]

/-! ## The program of the new script -/

/-- The tokens of a script have one plain assignment at these bytes: the name, which is no field, the
equals sign, which is the first one there, one expression, and a semicolon. -/
inductive StandsAlone (script name : Text) (start stop : Nat) : Prop
  | mk {front value rest : List Token} {p : Spot} {semi : Token} {e : Expr} :
    tokenize script = .ok (front ++ p.before (value ++ semi :: rest)) → p.name = name → p.offset = start →
    p.signOffset = start + Text.byteLength ((script.slice start stop).takeWhile (· ≠ '=')) →
    semi.kind = .semicolon → stop = semi.offset + 1 → NoDot front → Expr.ofTokens value = .ok e →
    StandsAlone script name start stop

variable {ts after : List Token} {e : Expr}

/-- An expression does not begin with a separator. -/
theorem skipSeparators_of_reads (h : ReadsExpr (value ++ rest) e after) : skipSeparators value = value := by
  cases value with
  | nil => rfl
  | cons t value =>
    have ht : t.kind.separates = false := h.begins.1
    simp [skipSeparators, ht]

/-- Tokens that spell one expression, with others behind them that start with a separator. -/
theorem readsExpr_of_ofTokens (h : Expr.ofTokens ts = .ok e) (hk : kinds value = kinds ts)
    (hskip : skipSeparators value = value) (hrest : ∀ x ∈ rest.head?, x.kind.separates = true) :
    ∃ seps, ReadsExpr value e seps ∧ ReadsExpr (value ++ rest) e (seps ++ rest) ∧
      ∀ x ∈ seps, x.kind.separates = true := by
  obtain ⟨seps, hx, hseps⟩ := exprOfTokens_eq_ok h
  have hks : kinds value = kinds (skipSeparators ts) := by
    rw [kinds_skipSeparators, ← hk, ← kinds_skipSeparators, hskip]
  obtain ⟨seps', hx', hr⟩ := hx.same hks
  have hseps' : ∀ x ∈ seps', x.kind.separates = true := by
    intro x hx
    have hm : x.kind ∈ kinds seps := hr ▸ List.mem_map_of_mem hx
    obtain ⟨y, hy, hk⟩ := List.mem_map.1 hm
    exact hk ▸ hseps y hy
  exact ⟨seps', hx', hx'.append hrest, hseps'⟩

theorem skipSeparators_append_of_all {seps : List Token} (h : ∀ x ∈ seps, x.kind.separates = true)
    (ts : List Token) : skipSeparators (seps ++ ts) = skipSeparators ts :=
  List.dropWhile_append_of_pos h

/-- Behind an expression and separators, rests that rejoin are the rests of the same statements. -/
theorem swap_of_rejoins {rest' seps seps' : List Token} (h : Rejoins rest rest')
    (hs : ∀ x ∈ seps, x.kind.separates = true) (hs' : ∀ x ∈ seps', x.kind.separates = true)
    (hx : ReadsExpr ts e (seps' ++ rest')) : Swap e ts (seps ++ rest) (seps' ++ rest') := by
  refine ⟨hx, fun ends => ?_, ?_⟩
  · have hhead : ∀ x ∈ (seps' ++ rest').head?, x.kind.separates = true := by
      cases seps' with
      | nil => exact h.head
      | cons x seps' =>
        rintro _ ⟨⟩
        exact hs' x List.mem_cons_self
    cases hr : seps' ++ rest' with
    | nil => rfl
    | cons x r =>
      rw [hr] at hhead
      simp [endsStatement, hhead x rfl]
  · rw [skipSeparators_append_of_all hs, skipSeparators_append_of_all hs']
    obtain ⟨hseps, hseps', -, hmore⟩ := h
    rw [skipSeparators_append_of_all hseps, skipSeparators_append_of_all hseps', kinds_skipSeparators,
      kinds_skipSeparators, hmore]

/-- No expression is written with an equals sign in front. -/
theorem head_of_readExpr {t : Text} (h : Runner.readExpr t = .ok e) : t.head? ≠ some '=' := by
  intro hhead
  obtain ⟨ts, hts, hx⟩ := Runner.readExpr_eq_ok.1 h
  cases t with
  | nil => cases hhead
  | cons c t =>
    obtain rfl : c = '=' := by simpa using hhead
    obtain ⟨s₁, t₁, hs, -, hscan⟩ := exists_step hts
    obtain ⟨s', hr, -, rfl⟩ := scan_eq_ok.1 hscan
    obtain ⟨u, new, ha⟩ := hr.advance
    cases hs with
    | blank hc => exact absurd hc (by decide)
    | continued hc => exact absurd hc (by simp [startsContinuation])
    | @token _ _ _ l _ hl ht =>
      rw [Scan.separated_of_groups rfl] at hl ht
      obtain ⟨gs, -, rfl⟩ := Scan.take_eq_ok.1 ht
      have hk : (Scan.start.settledKind l.kind) = l.kind := by simp [Scan.settledKind, Scan.concatenates, Scan.start]
      have htok : s'.tokens.reverse = ⟨l.kind, 1, 0⟩ :: new.reverse := by
        rw [ha.tokens, List.reverse_append, hk]
        rfl
      rw [htok] at hx
      obtain ⟨rest, hread, -⟩ := exprOfTokens_eq_ok hx
      have hl := kind_of_equals hl
      have hsep : l.kind.separates = false := by rcases hl with hl | hl <;> rw [hl] <;> rfl
      have hskip : skipSeparators (⟨l.kind, 1, 0⟩ :: new.reverse) = ⟨l.kind, 1, 0⟩ :: new.reverse :=
        List.dropWhile_cons_of_neg (by simp [hsep])
      rw [hskip] at hread
      exact hl.elim hread.begins.2.1 hread.begins.2.2

/-- The first equals sign of the assignment's text is the one that assigns. -/
theorem Site.not_mem_left (d : Site script front p value semi rest) {start stop : Nat}
    (hstart : p.offset = start) (hstop : stop = semi.offset + 1)
    (hsign : p.signOffset = start + Text.byteLength ((script.slice start stop).takeWhile (· ≠ '='))) :
    '=' ∉ d.left := by
  rw [hstop, ← hstart, d.slice, Site.text, d.signOffset, d.offset] at hsign
  exact not_mem_of_takeWhile (Nat.add_left_cancel hsign).symm

/-- With a value that does not run into its line, the new script is the old program with this value in
the assignment. -/
theorem readProgram_splice {name new : Text} {o : Occurrence} {program program' : Program} {e' : Expr}
    (hs : StandsAlone script name o.start o.stop) (hf : Fits script o.stop (normalize new))
    (hold : Runner.readProgram script = .ok program)
    (hnew : Runner.readProgram (splice script o new) = .ok program')
    (hvalue : Runner.readExpr (normalize new) = .ok e') :
    ∃ e, Replaced (o.line script) name e e' (.body program) (.body program') := by
  obtain ⟨toks, htok, hp⟩ := Runner.readProgram_eq_ok.1 hold
  cases hs with
  | @mk front value rest p semi e hspot hname hstart hsign hsemi hstop hdot he =>
    subst hname
    rw [hstop] at hf
    obtain rfl : toks = front ++ p.before (value ++ semi :: rest) := Except.ok.inj (htok.symm.trans hspot)
    -- the old value
    obtain ⟨hbal, e₁, after, hread, hswap⟩ := ofTokens_replace hp hdot
    have hsep : ∀ x ∈ (semi :: rest).head?, x.kind.separates = true := by
      rintro _ ⟨⟩
      rw [hsemi]
      rfl
    obtain ⟨seps, hx, hx₁, hseps⟩ := readsExpr_of_ofTokens he rfl (skipSeparators_of_reads hread) hsep
    obtain ⟨rfl, rfl⟩ := hread.unique hx₁
    have hnest : nestAll [] (kinds value) = some [] := by
      obtain ⟨chunk, hc, -, hb, -⟩ := hx.chunk
      rw [hc, kinds_append, nestAll_append, hb []]
      exact balanced_separators hseps []
    -- the new text and its tokens
    obtain ⟨d⟩ := exists_site htok hsemi (hbal []) hnest
    obtain ⟨blanks, hblanks, htext⟩ : ∃ blanks, (∀ c ∈ blanks, isSpace c = true) ∧ splice script o new = _ :=
      d.splice hstart.symm hstop (d.not_mem_left hstart hstop hsign)
    obtain ⟨ts, value', rest', hts, htok', hk, hj⟩ := d.retokenize hblanks hf (head_of_readExpr hvalue)
    obtain ⟨toks', htoks', hp'⟩ := Runner.readProgram_eq_ok.1 hnew
    rw [htext, htok'] at htoks'
    cases htoks'
    -- the new value
    obtain ⟨-, e₂, after', hread', -⟩ := ofTokens_replace hp' hdot
    obtain ⟨ts', hts', he'⟩ := Runner.readExpr_eq_ok.1 hvalue
    rw [hts] at hts'
    cases hts'
    obtain ⟨seps', -, hx', hseps'⟩ := readsExpr_of_ofTokens he' hk (skipSeparators_of_reads hread') hj.head
    obtain ⟨program₂, hp₂, hrep⟩ := hswap e' _ _ (swap_of_rejoins hj hseps hseps' hx')
    rw [hp'] at hp₂
    cases hp₂
    have hline : o.line script = p.line := by
      rw [Occurrence.line, ← hstart, d.takeBytes, d.line, Nat.add_comm]
    exact ⟨_, hline ▸ hrep⟩

end Edit

namespace Editor

variable {σ : Type} {r : Runner} {path name value : Text} {w w' : World σ}

/-- The scripts before and after an edit are programs and the value is an expression. If the live
assignment stands alone and the value fits its line, the programs differ in its value only. -/
theorem setValue_program {backUp : Bool} {b : Option Backup}
    (h : setValue r.engine path name value backUp w = .ok b w') :
    ∃ file file' a o program program' e',
      ScriptFile.read w.files path = .ok file ∧ ScriptFile.read w'.files path = .ok file' ∧
      locate r.engine path name w = .ok a w ∧ a.occurrence? = some o ∧
      Runner.readProgram file.content = .ok program ∧ Runner.readProgram file'.content = .ok program' ∧
      Runner.readExpr (Edit.normalize value) = .ok e' ∧
      (Edit.StandsAlone file.content name o.start o.stop →
        Edit.Fits file.content o.stop (Edit.normalize value) →
        ∃ e, Program.Replaced o.line name e e' (.body program) (.body program')) := by
  obtain ⟨file, v, w₁, l, saved, hp, hl, hs, rfl⟩ := (setValue_run_ok r.engine_keepsFiles).1 h
  obtain ⟨hname, hread, htrace, hfind, hv⟩ := prepare_run_ok.1 hp
  obtain ⟨run, w₂, w₃, before, w₄, o, after, hrun, hlive, hvalue, hbefore, ho, hcand, hafter, -⟩ :=
    verify_run_ok.1 hv
  have hwritten : ScriptFile.At (saved.put l (.file (ScriptFile.encode v.candidate.endLastLine))) path l
      v.candidate.endLastLine := FileSystem.find_put_self (hs.at hl) _
  obtain ⟨program, hold, -⟩ := Runner.execute_eq_ok.1 (congrArg Prod.fst hbefore)
  obtain ⟨program', hnew, -⟩ := Runner.execute_eq_ok.1 (congrArg Prod.fst hafter)
  obtain ⟨e', he', -⟩ := bind_eq_ok.1 (congrArg Prod.fst hvalue)
  obtain rfl : w = w₂ := congrArg Prod.snd hrun
  have hlocate := locate_run_ok.2 ⟨hname, file, v.live, hread, htrace, hfind,
    resolveLive_run_ok.2 ⟨run, hrun, hlive⟩, rfl⟩
  refine ⟨file, _, _, located file.content o, program, program', e', hread, ScriptFile.read_of_at hwritten,
    hlocate, ?_, hold, Runner.readProgram_endLastLine hnew, he', fun hstands hfits => ?_⟩
  · rw [LiveAssignment.occurrence?, List.find?_map]
    exact congrArg (Option.map _) ho
  · rw [hcand] at hnew
    exact Edit.readProgram_splice hstands hfits hold hnew he'

theorem standsAlone_branch :
    Edit.StandsAlone "if 1\n  a = 1;\nend\n".toList "a".toList 7 13 := by
  have htok : Token.tokenize "if 1\n  a = 1;\nend\n".toList =
      .ok ([⟨.word "if".toList, 1, 0⟩, ⟨.number (Number.Numeral.value ⟨['1'], [], 0⟩), 1, 3⟩, ⟨.newline, 1, 4⟩] ++
        (Program.Spot.mk "a".toList 2 7 2 9).before
          ([⟨.number (Number.Numeral.value ⟨['1'], [], 0⟩), 2, 11⟩] ++ ⟨.semicolon, 2, 12⟩ ::
            [⟨.newline, 2, 13⟩, ⟨.word "end".toList, 3, 14⟩, ⟨.newline, 3, 17⟩])) := by
    with_unfolding_all rfl
  have hdot : Program.NoDot [⟨.word "if".toList, 1, 0⟩, ⟨.number (Number.Numeral.value ⟨['1'], [], 0⟩), 1, 3⟩,
      ⟨.newline, 1, 4⟩] := by
    simp [Program.NoDot]
  exact .mk htok rfl rfl rfl rfl rfl hdot (by with_unfolding_all rfl)

set_option maxRecDepth 10000 in
/-- The assignment here stands in a branch, and the value ends in a comment. -/
theorem setValue_program_branch :
    let w : World Unit := ⟨FileSystem.single "s.m" "if 1\n  a = 1;\nend\n", ()⟩
    ∃ b w' file file' program program' e e',
      setValue Runner.plain.engine "/s.m".toList "a".toList "2 % c".toList false w = .ok b w' ∧
      ScriptFile.read w.files "/s.m".toList = .ok file ∧ ScriptFile.read w'.files "/s.m".toList = .ok file' ∧
      Runner.readProgram file.content = .ok program ∧ Runner.readProgram file'.content = .ok program' ∧
      Program.Replaced 2 "a".toList e e' (.body program) (.body program') := by
  intro w
  have hs : succeeded (setValue Runner.plain.engine "/s.m".toList "a".toList "2 % c".toList false w) = true := by
    decide +kernel
  obtain ⟨b, w', h⟩ := exists_of_succeeded hs
  obtain ⟨file, file', a, o, program, program', e', hread, hread', hlocate, ho, hold, hnew, -, himp⟩ :=
    setValue_program h
  have hfile : file.content = "if 1\n  a = 1;\nend\n".toList := by
    have hc : (ScriptFile.read w.files "/s.m".toList).toOption.map (·.content) =
        some "if 1\n  a = 1;\nend\n".toList := by decide +kernel
    rw [hread] at hc
    exact Option.some.inj hc
  have hspot : o = ⟨1, 7, 13, 2, "a = 1;".toList⟩ := by
    have hc : (outcome? (locate Runner.plain.engine "/s.m".toList "a".toList w)).bind (·.occurrence?) =
        some ⟨1, 7, 13, 2, "a = 1;".toList⟩ := by decide +kernel
    rw [hlocate] at hc
    exact Option.some.inj (ho.symm.trans hc)
  rw [hfile, hspot] at himp
  have hfits : Edit.Fits "if 1\n  a = 1;\nend\n".toList 13 (Edit.normalize "2 % c".toList) := by
    refine @Edit.Fits.commented _ _ "2 ".toList " c".toList (by decide +kernel) (by decide) fun _ _ x _ hle hlt => ?_
    have hline : Text.byteLength (Token.restOfLine (Text.dropBytes 13 "if 1\n  a = 1;\nend\n".toList)).1 = 0 := by
      decide +kernel
    rw [hline] at hlt
    omega
  obtain ⟨e, hrep⟩ := himp standsAlone_branch hfits
  exact ⟨b, w', file, file', program, program', e, e', h, hread, hread', hold, hnew, hrep⟩

/-! ## Values that run into their line -/

/-- Whether an edit succeeds and leaves the script fewer statements. -/
def drops (script value : String) : Bool :=
  let w : World Unit := ⟨FileSystem.single "s.m" script, ()⟩
  match setValue Runner.plain.engine "/s.m".toList "a".toList value.toList false w with
  | .ok _ w' =>
    match ScriptFile.read w.files "/s.m".toList, ScriptFile.read w'.files "/s.m".toList with
    | .ok file, .ok file' =>
      match Runner.readProgram file.content, Runner.readProgram file'.content with
      | .ok program, .ok program' => program'.length < program.length
      | _, _ => false
    | _, _ => false
  | .error .. => false

/-- An edit of this script succeeds, and the programs before and after it differ in more than one value. -/
def Dropped (script value : String) : Prop :=
  let w : World Unit := ⟨FileSystem.single "s.m" script, ()⟩
  ∃ b w' file file' program program',
    setValue Runner.plain.engine "/s.m".toList "a".toList value.toList false w = .ok b w' ∧
    ScriptFile.read w.files "/s.m".toList = .ok file ∧ ScriptFile.read w'.files "/s.m".toList = .ok file' ∧
    Runner.readProgram file.content = .ok program ∧ Runner.readProgram file'.content = .ok program' ∧
    ∀ line name e e', ¬ Program.Replaced line name e e' (.body program) (.body program')

theorem dropped_of_drops {script value : String} (h : drops script value = true) : Dropped script value := by
  unfold drops at h
  dsimp only at h
  split at h
  · next b w' hset =>
    split at h
    · next file file' hread hread' =>
      split at h
      · next program program' hold hnew =>
        refine ⟨b, w', file, file', program, program', hset, hread, hread', hold, hnew, ?_⟩
        intro line name e e' hrep
        exact absurd hrep.length (Nat.ne_of_lt (of_decide_eq_true h))
      · cases h
    · cases h
  · cases h

set_option maxRecDepth 10000 in
/-- A value that ends in a comment or in a continuation takes the statement behind it with it, and a
comma does not end the text that is replaced. -/
theorem setValue_program_dropped :
    Dropped "b = 2;\na = 1; b = 2;\n" "5 % c" ∧ Dropped "b = 2;\na = 1; b = 2;\n;\n" "5 ..." ∧
      Dropped "b = 2;\na = 1, b = 2;\n" "5" := by
  refine ⟨dropped_of_drops ?_, dropped_of_drops ?_, dropped_of_drops ?_⟩
  · decide +kernel
  · decide +kernel
  · decide +kernel

end Editor

end ConfigScript
