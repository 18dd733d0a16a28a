import ConfigScript.Proofs.Masked
/-!
# Semicolons that end statements

The mask counts brackets up and down, and the tokens keep a list of the open ones. In a script without
transposes in which no bracket is open at the end of a line, the count is the length of the list at
every turn of the scan (`Step.ends`). So masked text shows just the semicolons that the tokens have
outside brackets (`shows_semicolon_iff`).
-/

namespace ConfigScript

namespace Edit

open Token Mask
open Program (nest nestAll nestAll_single nestAll_append)

variable {m : State} {s s₁ : Scan} {t t₁ script : Text} {ts us toks : List Token} {gs hs : List Bracket}

/-- The byte offsets of the semicolons outside brackets, where these brackets are open in front of the tokens. -/
def ends (gs : List Bracket) : List Token → List Nat
  | [] => []
  | x :: xs => (if endsAt gs x.kind = true then [x.offset] else []) ++ ends ((nest gs x.kind).getD gs) xs

theorem ends_append (h : nestAll gs (kinds ts) = some hs) : ends gs (ts ++ us) = ends gs ts ++ ends hs us := by
  induction ts generalizing gs with
  | nil =>
    cases h
    rfl
  | cons x ts ih =>
    obtain ⟨gs', hn, hmore⟩ := Option.bind_eq_some_iff.1 h
    rw [List.cons_append, ends, ends, hn, Option.getD_some, ih hmore, List.append_assoc]

theorem ends_singleton (gs : List Bracket) (x : Token) :
    ends gs [x] = if endsAt gs x.kind = true then [x.offset] else [] := by
  rw [ends, ends, List.append_nil]

theorem endsAt_iff {kind : TokenKind} : endsAt gs kind = true ↔ gs = [] ∧ kind = .semicolon := by
  cases kind <;> simp [endsAt]

theorem mem_ends {o : Nat} (hs : nestAll gs (kinds ts) = some hs) : o ∈ ends gs ts ↔
    ∃ front line rest, ts = front ++ ⟨.semicolon, line, o⟩ :: rest ∧ nestAll gs (kinds front) = some [] := by
  induction ts generalizing gs with
  | nil => simp [ends]
  | cons x ts ih =>
    obtain ⟨gs', hn, hmore⟩ := Option.bind_eq_some_iff.1 hs
    rw [ends, hn, Option.getD_some, List.mem_append, ih hmore]
    constructor
    · rintro (ho | ⟨front, line, rest, rfl, hfront⟩)
      · split at ho
        · next he =>
          obtain ⟨rfl, hk⟩ := endsAt_iff.1 he
          obtain ⟨kind, line, offset⟩ := x
          obtain rfl : kind = .semicolon := hk
          obtain rfl : o = offset := List.mem_singleton.1 ho
          exact ⟨[], line, ts, rfl, rfl⟩
        · cases ho
      · refine ⟨x :: front, line, rest, rfl, ?_⟩
        exact Option.bind_eq_some_iff.2 ⟨gs', hn, hfront⟩
    · rintro ⟨front, line, rest, heq, hfront⟩
      cases front with
      | nil =>
        obtain ⟨rfl, rfl⟩ := List.cons.inj heq
        cases hfront
        exact .inl (by simp [endsAt])
      | cons y front =>
        obtain ⟨rfl, rfl⟩ := List.cons.inj heq
        obtain ⟨gs'', hn', hfront⟩ := Option.bind_eq_some_iff.1 hfront
        change nest gs x.kind = some gs'' at hn'
        rw [hn] at hn'
        cases hn'
        exact .inr ⟨front, line, rest, rfl, hfront⟩

/-- Only the end of a line in brackets counts as something else than it is. -/
theorem settledKind_eq {kind : TokenKind} (h : kind = .newline → s.groups = []) : s.settledKind kind = kind := by
  cases kind with
  | newline => simp [Scan.settledKind, Scan.concatenates, h rfl]
  | _ => rfl

/-- A turn of the scan has added the semicolons that end statements where the mask shows them. -/
theorem Step.ends (hs : Step s t s₁ t₁) (hm : Between m t) (hsent : sentinel ∉ t)
    (hk : ∀ x ∈ s₁.tokens, x.kind ≠ .transpose) (hd : m.depth = s.groups.length)
    (hbreak : t.head? = some '\n' → s.groups = []) :
    ∃ m' new, Between m' t₁ ∧ m'.depth = s₁.groups.length ∧ s₁.tokens = new ++ s.tokens ∧
      nestAll s.groups (kinds new.reverse) = some s₁.groups ∧
      shown m s.offset t = Edit.ends s.groups new.reverse ++ shown m' s₁.offset t₁ := by
  cases hs with
  | @blank c v hc =>
    have hplain : Plain m := hm.plain (by rintro rfl; cases hc)
    exact ⟨m, [], hplain.between _, hd, rfl, rfl, (hplain.passes_blank hc t₁).shown s.offset⟩
  | @continued c v hc =>
    have hplain : Plain m := hm.plain (by rintro rfl; exact absurd hc (by simp [startsContinuation]))
    obtain ⟨m', hm', hp⟩ := hplain.passes_continuation hc
    have hshown := hp.shown s.offset
    rw [List.cons_append, continuation_append] at hshown
    exact ⟨m', [], hm'.between _, hp.depth.trans hd, rfl, rfl, hshown⟩
  | @comment v =>
    have hplain : Plain m := hm.plain (by decide)
    have hp := hplain.passes_comment fun hmem => hsent (List.mem_cons_of_mem _ hmem)
    have hshown := hp.shown s.offset
    rw [List.cons_append, restOfLine_append] at hshown
    have hcomment := hplain.next_percent
    obtain ⟨-, hend⟩ := @restOfLine_eq v (restOfLine v).2 (restOfLine v).1 rfl
    exact ⟨m.next '%', [], ⟨hcomment.string, hcomment.continuation, fun _ => hend⟩, hp.depth.trans hd, rfl, rfl,
      hshown⟩
  | @token _ c v l hat hl ht =>
    have happ := (lexeme_append hl).1
    have hnewline : l.kind = .newline → s.groups = [] := by
      intro hkind
      obtain ⟨hsign, -, -⟩ := sign_of_lexeme hl (.inr (by rw [hkind]; rfl))
      rw [hkind] at hsign
      cases hsign
      exact hbreak rfl
    obtain ⟨gs, hn, rfl⟩ := Scan.take_eq_ok.1 ht
    rw [settledKind_eq fun hkind => (Scan.separated_groups s c v.head?).trans (hnewline hkind)] at hn hk ⊢
    rw [Scan.separated_groups] at hn
    obtain ⟨⟨m', hm'⟩, -⟩ := lexeme_masked hm hsent hat hl (hk _ List.mem_cons_self)
    have hdepth := hm'.depth s.groups gs hd hnewline hn
    have hshown := hm'.shown s.groups hd s.offset
    rw [happ] at hshown
    -- a comma in front of the token ends nothing
    rcases s.separated_cases c v.head? with hsep | ⟨-, hsep⟩
    · rw [hsep]
      refine ⟨m', [_], hm'.plain.between _, hdepth, rfl, (nestAll_single _ _).trans hn, ?_⟩
      rw [List.reverse_singleton, ends_singleton]
      exact hshown
    · rw [hsep]
      refine ⟨m', [_, _], hm'.plain.between _, hdepth, rfl, (nestAll_single _ _).trans hn, ?_⟩
      exact hshown.trans (congrArg (· ++ _) (ends_singleton s.groups ⟨l.kind, s.line, s.offset⟩).symm)

/-- Wherever a line ends, but for the lines that are continued, no bracket is open. -/
def ClosedAtBreaks (script : Text) : Prop := ∀ s t, Run .start script s ('\n' :: t) → s.groups = []

theorem Run.ends (hr : Run s t s₁ t₁) (hm : Between m t) (hsent : sentinel ∉ t)
    (hk : ∀ x ∈ s₁.tokens, x.kind ≠ .transpose) (hd : m.depth = s.groups.length)
    (hbreak : ∀ s₂ t₂, Run s t s₂ ('\n' :: t₂) → s₂.groups = []) :
    ∃ m' new, s₁.tokens = new ++ s.tokens ∧ nestAll s.groups (kinds new.reverse) = some s₁.groups ∧
      shown m s.offset t = Edit.ends s.groups new.reverse ++ shown m' s₁.offset t₁ := by
  induction hr generalizing m with
  | nil => exact ⟨m, [], rfl, rfl, rfl⟩
  | @cons s s₂ s₁ t t₂ t₁ hs hr ih =>
    obtain ⟨u, _, -, hu⟩ := hs.advance
    obtain ⟨v, later, hv⟩ := hr.advance
    have hk₂ : ∀ x ∈ s₂.tokens, x.kind ≠ .transpose := fun x hx => hk x (hv.tokens ▸ List.mem_append_right later hx)
    have hsent₂ : sentinel ∉ t₂ := fun hmem => hsent (hu.text ▸ List.mem_append_right u hmem)
    have hbreak₂ : t.head? = some '\n' → s.groups = [] := by
      intro hhead
      cases t with
      | nil => cases hhead
      | cons c t =>
        obtain rfl : c = '\n' := by simpa using hhead
        exact hbreak s t .nil
    obtain ⟨m₂, new₂, hm₂, hd₂, htok₂, hn₂, hshown₂⟩ := Step.ends hs hm hsent hk₂ hd hbreak₂
    obtain ⟨m₁, new₁, htok₁, hn₁, hshown₁⟩ := ih hm₂ hsent₂ hk hd₂ fun s₃ t₃ hr₃ => hbreak s₃ t₃ (.cons hs hr₃)
    refine ⟨m₁, new₁ ++ new₂, by rw [htok₁, htok₂, List.append_assoc], ?_, ?_⟩
    · rw [List.reverse_append, kinds_append, nestAll_append, hn₂]
      exact hn₁
    · rw [hshown₂, hshown₁, List.reverse_append, ends_append hn₂, List.append_assoc]

/-- The semicolons that masked text shows are those that the tokens have outside brackets. -/
theorem shows_semicolon_iff (h : tokenize script = .ok toks) (hsent : sentinel ∉ script)
    (hk : ∀ x ∈ toks, x.kind ≠ .transpose) (hb : ClosedAtBreaks script) (o : Nat) :
    (∃ front back, sanitize script = front ++ ';' :: back ∧ Text.byteLength front = o) ↔
      ∃ front line rest, toks = front ++ ⟨.semicolon, line, o⟩ :: rest ∧ nestAll [] (kinds front) = some [] := by
  obtain ⟨last, hr, hg, rfl⟩ := scan_eq_ok.1 h
  obtain ⟨m', new, htok, hnest, hshown⟩ := Run.ends hr (plain_start.between script) hsent
    (fun x hx => hk x (List.mem_reverse.2 hx)) rfl hb
  have htok : last.tokens.reverse = new.reverse := by rw [htok]; simp [Scan.start]
  have hall : offsetsOf ';' 0 (sanitize script) = Edit.ends [] new.reverse := by
    refine hshown.trans ?_
    have hnil : shown m' last.offset [] = [] := rfl
    rw [hnil, List.append_nil]
    rfl
  have hnest : nestAll [] (kinds new.reverse) = some last.groups := hnest
  rw [htok, ← mem_ends hnest, ← hall, mem_offsetsOf]
  simp only [Nat.zero_add, eq_comm]

/-- Whether no bracket is open at the tokens that stand where the script has a line break. -/
def closesLines (script : Text) (gs : List Bracket) : List Token → Bool
  | [] => true
  | x :: xs => (gs.isEmpty || (script.dropBytes x.offset).head? != some '\n') &&
      closesLines script ((nest gs x.kind).getD gs) xs

theorem nil_of_closesLines {x : Token} (h : closesLines script gs (ts ++ x :: us) = true)
    (hx : (script.dropBytes x.offset).head? = some '\n') (hnest : nestAll gs (kinds ts) = some hs) : hs = [] := by
  induction ts generalizing gs with
  | nil =>
    cases hnest
    simp only [List.nil_append, closesLines, Bool.and_eq_true, Bool.or_eq_true, hx] at h
    simpa using h.1
  | cons y ts ih =>
    obtain ⟨gs', hn, hmore⟩ := Option.bind_eq_some_iff.1 hnest
    rw [List.cons_append, closesLines, hn, Bool.and_eq_true] at h
    exact ih h.2 hmore

/-- Every line break that is not passed with a continuation is a token, so the tokens tell whether brackets are
open at one. -/
theorem closedAtBreaks_of_tokens (h : tokenize script = .ok toks) (hc : closesLines script [] toks = true) :
    ClosedAtBreaks script := by
  intro s t hr
  obtain ⟨u, new, ha⟩ := hr.advance
  obtain ⟨s₁, t₁, hs, -, hscan⟩ := exists_step ((scan_of_run hr).symm.trans h)
  obtain ⟨last, hr₁, -, rfl⟩ := scan_eq_ok.1 hscan
  obtain ⟨w, later, hb⟩ := hr₁.advance
  obtain ⟨x, hx, hoffset⟩ : ∃ x, s₁.tokens = x :: s.tokens ∧ x.offset = s.offset := by
    cases hs with
    | blank hc => cases hc
    | continued hc => exact absurd hc (by simp [startsContinuation])
    | token hat hl ht =>
      have hsep : s.separated '\n' t.head? = s := by simp [Scan.separated, startsElement]
      rw [hsep] at ht
      obtain ⟨gs, -, rfl⟩ := Scan.take_eq_ok.1 ht
      exact ⟨_, rfl, rfl⟩
  have htoks : last.tokens.reverse = s.tokens.reverse ++ x :: later.reverse := by
    rw [hb.tokens, hx]
    simp
  have hbreak : (script.dropBytes x.offset).head? = some '\n' := by
    have hlen : x.offset = Text.byteLength u := hoffset.trans (ha.offset.trans (Nat.zero_add _))
    rw [hlen, ha.text, Text.dropBytes_byteLength]
    rfl
  rw [htoks] at hc
  exact nil_of_closesLines hc hbreak (hr.wellNested wellNested_start)

/-- Of the five semicolons here masked text shows the last one alone: the others are in brackets, a
continuation, a string and a comment. -/
theorem shows_semicolon_iff_last :
    let script := "a = [b; ... c;\n'd;'] % e;\n;".toList
    ∃ toks, tokenize script = .ok toks ∧ ∀ o,
      (∃ front back, sanitize script = front ++ ';' :: back ∧ Text.byteLength front = o) ↔
        ∃ front line rest, toks = front ++ ⟨.semicolon, line, o⟩ :: rest ∧ nestAll [] (kinds front) = some [] := by
  intro script
  have h : tokenize script = .ok [⟨.word "a".toList, 1, 0⟩, ⟨.assign, 1, 2⟩, ⟨.opening .square, 1, 4⟩,
      ⟨.word "b".toList, 1, 5⟩, ⟨.semicolon, 1, 6⟩, ⟨.quoted "d;".toList, 2, 15⟩, ⟨.closing .square, 2, 19⟩,
      ⟨.newline, 2, 25⟩, ⟨.semicolon, 3, 26⟩] := by
    with_unfolding_all rfl
  exact ⟨_, h, shows_semicolon_iff h (by decide) (by simp) (closedAtBreaks_of_tokens h (by decide))⟩

end Edit

end ConfigScript
