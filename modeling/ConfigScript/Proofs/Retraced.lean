import ConfigScript.Proofs.Retold
/-!
# The program of a traced script

`Retraced` relates a program to the one in which some assignments to a variable append their ids to the
trace, line numbers aside. Tokens that are retold spell a program that is so related to the one that the
tokens spell (`Spells.retold`), with the ids in the order of the text.
-/

namespace ConfigScript

namespace Program

open Edit (traceExpr Retold)

/-! ## The programs -/

/-- How often a part of a program assigns the variable `name` as a whole. -/
def Spelled.assignments (name : Text) (v : Spelled) : Nat := v.targets.count (name, [])

/-- The parts are the same, line numbers aside, but for assignments to `name`, in whose place the second
appends these ids to the trace. -/
inductive Retraced (name : Text) : List Nat → Spelled → Spelled → Prop
  | assign {line line' target path e} :
    Retraced name [] (.one (.assign line target path e)) (.one (.assign line' target path e))
  | traced {line line' e id} :
    Retraced name [id] (.one (.assign line name [] e)) (.one (.assign line' traceName [] (traceExpr id)))
  | eval {line line' e} : Retraced name [] (.one (.eval line e)) (.one (.eval line' e))
  | cond {line line' ids bs bs' otherwise otherwise'} :
    Retraced name ids (.tail bs otherwise) (.tail bs' otherwise') →
    Retraced name ids (.one (.cond line bs otherwise)) (.one (.cond line' bs' otherwise'))
  | branch {ids₁ ids₂ condition body body' bs bs' otherwise otherwise'} :
    Retraced name ids₁ (.body body) (.body body') →
    Retraced name ids₂ (.tail bs otherwise) (.tail bs' otherwise') →
    Retraced name (ids₁ ++ ids₂) (.tail (.mk condition body :: bs) otherwise)
      (.tail (.mk condition body' :: bs') otherwise')
  | otherwise {ids body body'} :
    Retraced name ids (.body body) (.body body') → Retraced name ids (.tail [] (some body)) (.tail [] (some body'))
  | last : Retraced name [] (.tail [] none) (.tail [] none)
  | nil : Retraced name [] (.body []) (.body [])
  | cons {ids₁ ids₂ s s' ss ss'} :
    Retraced name ids₁ (.one s) (.one s') → Retraced name ids₂ (.body ss) (.body ss') →
    Retraced name (ids₁ ++ ids₂) (.body (s :: ss)) (.body (s' :: ss'))

variable {name : Text} {ids : List Nat}

theorem Retraced.of_one {s : Statement} {v : Spelled} (h : Retraced name ids (.one s) v) : ∃ s', v = .one s' := by
  cases h <;> exact ⟨_, rfl⟩

theorem Retraced.of_body {ss : List Statement} {v : Spelled} (h : Retraced name ids (.body ss) v) :
    ∃ ss', v = .body ss' := by
  cases h <;> exact ⟨_, rfl⟩

theorem Retraced.of_tail {bs : List Branch} {otherwise : Option (List Statement)} {v : Spelled}
    (h : Retraced name ids (.tail bs otherwise) v) : ∃ bs' otherwise', v = .tail bs' otherwise' := by
  cases h <;> exact ⟨_, _, rfl⟩

theorem Spelled.assignments_plain {line : Nat} {e : Expr} :
    (Spelled.one (.assign line name [] e)).assignments name = 1 := by
  simp [assignments, targets, Statement.targets]

theorem Spelled.assignments_branch {condition : Expr} {body : List Statement} {bs : List Branch}
    {otherwise : Option (List Statement)} : (Spelled.tail (.mk condition body :: bs) otherwise).assignments name =
      (Spelled.body body).assignments name + (Spelled.tail bs otherwise).assignments name := by
  simp [assignments, targets, Statement.branchTargets]

theorem Spelled.assignments_otherwise {body : List Statement} :
    (Spelled.tail [] (some body)).assignments name = (Spelled.body body).assignments name := rfl

theorem Spelled.assignments_cons {s : Statement} {ss : List Statement} :
    (Spelled.body (s :: ss)).assignments name =
      (Spelled.one s).assignments name + (Spelled.body ss).assignments name :=
  List.count_append ..

/-- There is no id for which there is no assignment. -/
theorem Retraced.length_le {v v' : Spelled} (h : Retraced name ids v v') : ids.length ≤ v.assignments name := by
  induction h with
  | traced => rw [Spelled.assignments_plain, List.length_singleton]
  | cond _ ih => exact ih
  | otherwise _ ih => rwa [Spelled.assignments_otherwise]
  | branch _ _ ih₁ ih₂ =>
    rw [Spelled.assignments_branch, List.length_append]
    exact Nat.add_le_add ih₁ ih₂
  | cons _ _ ih₁ ih₂ =>
    rw [Spelled.assignments_cons, List.length_append]
    exact Nat.add_le_add ih₁ ih₂
  | _ => exact Nat.zero_le _

/-! ## Tokens that are retold -/

variable {ts us rest : List Token} {e : Expr} {p : Spot} {ends : List Text}

/-- How tokens begin that are retold: the first one stays, or it is the name of an assignment that appends
an id to the trace now. -/
inductive Head (name : Text) : List Nat → Token → List Token → List Token → Prop
  | stays {t : Token} {line offset : Nat} {ts us : List Token} {ids : List Nat} :
    Retold name ids ts us → Head name ids t ts (⟨t.kind, line, offset⟩ :: us)
  | replaced {value value' rest rest' : List Token} {p q : Spot} {semi semi' : Token} {e : Expr} {id : Nat}
    {ids : List Nat} :
    p.name = name → q.name = traceName → ReadsExpr value e [] → ReadsExpr value' (traceExpr id) [] →
    semi.kind = .semicolon → semi'.kind = .semicolon → Retold name ids rest rest' →
    Head name (id :: ids) ⟨.word p.name, p.line, p.offset⟩ (p.sign :: (value ++ semi :: rest))
      (q.before (value' ++ semi' :: rest'))

theorem retold_head {t : Token} (h : Retold name ids (t :: ts) us) : Head name ids t ts us := by
  generalize hts : t :: ts = all at h
  cases h with
  | same hk =>
    subst hts
    obtain ⟨line, offset, us, rfl, hmore⟩ := kinds_eq_token hk
    exact .stays (.same hmore)
  | next hfront hdot hname hq hread hread' hsemi hsemi' hmore =>
    rcases front_cases hts with ⟨rfl, rfl, rfl⟩ | ⟨back, rfl, rfl⟩
    · obtain rfl := List.map_eq_nil_iff.1 hfront
      exact .replaced hname hq hread hread' hsemi hsemi' hmore
    · obtain ⟨line, offset, back', rfl, hback⟩ := kinds_eq_token hfront
      exact .stays (.next hback hdot.tail hname hq hread hread' hsemi hsemi' hmore)

theorem retold_nil (h : Retold name ids [] us) : ids = [] ∧ us = [] := by
  generalize hts : [] = ts at h
  cases h with
  | same hk =>
    subst hts
    exact ⟨rfl, List.map_eq_nil_iff.1 hk⟩
  | next => simp [Spot.before] at hts

theorem retold_heads (h : Retold name ids ts us) :
    (kinds us).head? = (kinds ts).head? ∨
      (kinds ts).head? = some (.word name) ∧ (kinds us).head? = some (.word traceName) := by
  cases ts with
  | nil =>
    obtain ⟨-, rfl⟩ := retold_nil h
    exact .inl rfl
  | cons t ts =>
    cases retold_head h with
    | stays => exact .inl rfl
    | replaced hname hq => exact .inr ⟨by simp [hname], by simp [Spot.before, hq]⟩

theorem retold_skip (h : Retold name ids ts us) : Retold name ids (skipSeparators ts) (skipSeparators us) := by
  cases h with
  | same hk => exact .same (by rw [kinds_skipSeparators, kinds_skipSeparators, hk])
  | next hfront hdot hname hq hread hread' hsemi hsemi' hmore =>
    rw [skipSeparators_before, skipSeparators_before]
    exact .next (by rw [kinds_skipSeparators, kinds_skipSeparators, hfront])
      (hdot.of_suffix (List.dropWhile_suffix _)) hname hq hread hread' hsemi hsemi' hmore

theorem retold_skip_cons {t : Token} {here : List Token} (h : Retold name ids ts us)
    (hskip : skipSeparators ts = t :: here) :
    ∃ t' here', skipSeparators us = t' :: here' ∧ Retold name ids (t :: here) (t' :: here') := by
  have hr := hskip ▸ retold_skip h
  generalize skipSeparators us = vs at hr ⊢
  cases retold_head hr with
  | stays hmore => exact ⟨_, _, rfl, hr⟩
  | replaced => exact ⟨_, _, rfl, hr⟩

/-- Neither the variable nor the trace ends a block. -/
def Avoids (name : Text) (ends : List Text) : Prop := name ∉ ends ∧ traceName ∉ ends

theorem atWord_of_head {w : Text} (h : (kinds ts).head? = some (.word w)) : atWord ends ts = ends.contains w := by
  match ts with
  | [] => cases h
  | ⟨k, _, _⟩ :: _ =>
    obtain rfl : k = .word w := Option.some.inj h
    rfl

theorem retold_atWord (h : Retold name ids ts us) (ha : Avoids name ends) : atWord ends us = atWord ends ts := by
  rcases retold_heads h with hh | ⟨ht, hu⟩
  · exact atWord_congr hh
  · rw [atWord_of_head ht, atWord_of_head hu, List.contains_eq_mem, List.contains_eq_mem, decide_eq_false ha.1,
      decide_eq_false ha.2]

theorem retold_endsStatement (h : Retold name ids ts us) (ha : Avoids name ends) :
    endsStatement ends us = endsStatement ends ts := by
  rcases retold_heads h with hh | ⟨ht, hu⟩
  · exact endsStatement_congr hh
  · have hword := retold_atWord h ha
    match ts, us with
    | ⟨k, _, _⟩ :: _, ⟨k', _, _⟩ :: _ =>
      obtain rfl : k = .word name := Option.some.inj ht
      obtain rfl : k' = .word traceName := Option.some.inj hu
      simp only [endsStatement, hword, TokenKind.separates]

/-- The tokens start with an equals sign, where no part of a program does. -/
def AtSign (ts : List Token) : Prop := ∃ (p : Spot) (us : List Token), ts = p.sign :: us

theorem AtSign.not_spells {part : Part} {v : Spelled} (h : AtSign ts) : ¬ Spells part ts v rest := by
  obtain ⟨p, us, rfl⟩ := h
  exact not_spells_sign

/-- Tokens without an equals sign stay, unless the last of them is the name in front of one. -/
theorem retold_chunk {chunk : List Token} (h : Retold name ids (chunk ++ rest) us)
    (hno : ∀ t ∈ chunk, t.kind ≠ .assign) :
    (∃ chunk' rest', us = chunk' ++ rest' ∧ kinds chunk' = kinds chunk ∧ Retold name ids rest rest') ∨ AtSign rest := by
  induction chunk generalizing us with
  | nil => exact .inl ⟨[], us, rfl, rfl, h⟩
  | cons t chunk ih =>
    rw [List.cons_append] at h
    generalize hmore : chunk ++ rest = more at h
    cases retold_head h with
    | @stays _ line offset _ us _ hstays =>
      rcases ih (hmore ▸ hstays) fun u hu => hno u (List.mem_cons_of_mem t hu) with ⟨chunk', rest', rfl, hk, hr⟩ | hcut
      · exact .inl ⟨⟨t.kind, line, offset⟩ :: chunk', rest', rfl, by simp [hk], hr⟩
      · exact .inr hcut
    | @replaced _ _ _ _ p =>
      cases chunk with
      | nil => exact .inr ⟨p, _, hmore⟩
      | cons u chunk =>
        obtain ⟨rfl, -⟩ := List.cons.inj hmore
        exact (hno p.sign (by simp) rfl).elim

theorem ReadsExpr.retold (hx : ReadsExpr ts e rest) (h : Retold name ids ts us) :
    (∃ rest', ReadsExpr us e rest' ∧ Retold name ids rest rest') ∨ AtSign rest := by
  obtain ⟨chunk, rfl, -, -, hno⟩ := hx.chunk
  rcases retold_chunk h hno with ⟨chunk', rest', rfl, hk, hr⟩ | hcut
  · refine .inl ⟨rest', hx.exchange hk ?_, hr⟩
    rcases retold_heads hr with hh | ⟨-, hu⟩
    · exact .inl hh
    · refine .inr fun k hkind hc => ?_
      rw [hu] at hkind
      cases hkind
      cases hc with
      | @operator level _ _ ho => cases level <;> cases ho
      | power ho => cases ho
  · exact .inr hcut

theorem Path.chunk {path : List Text} (h : Path path ts rest) :
    ∃ chunk, ts = chunk ++ rest ∧ ∀ rest', Path path (chunk ++ rest') rest' := by
  induction h with
  | nil => exact ⟨[_], rfl, fun _ => .nil⟩
  | cons _ ih =>
    obtain ⟨chunk, rfl, h⟩ := ih
    exact ⟨_ :: _ :: chunk, rfl, fun rest' => .cons (h rest')⟩

/-- A path in front of one assignment is the same in front of another one. -/
theorem Path.exchange {path : List Text} {front front' : List Token} (h : Path path (front ++ p.before us) rest)
    (hdot : NoDot front) (hk : kinds front' = kinds front) :
    ∃ back back', rest = back ++ p.before us ∧ kinds back' = kinds back ∧ NoDot back ∧
      ∀ (q : Spot) (us' : List Token), Path path (front' ++ q.before us') (back' ++ q.before us') := by
  obtain ⟨back, rfl, hleft, -⟩ := h.stops hdot
  obtain ⟨chunk, hc, hchunk⟩ := h.chunk
  rw [← List.append_assoc, List.append_cancel_right_eq] at hc
  subst hc
  obtain ⟨chunk', back', rfl, hkc, hkb⟩ := kinds_eq_append hk
  refine ⟨back, back', rfl, hkb, hdot.of_suffix (List.suffix_append chunk back), fun q us' => ?_⟩
  rw [List.append_assoc]
  obtain ⟨rest', hp, hr⟩ := (hchunk []).same (show kinds chunk' = kinds (chunk ++ []) by rw [hkc, List.append_nil])
  obtain rfl := List.map_eq_nil_iff.1 hr
  obtain ⟨chunk₂, hc, hchunk₂⟩ := hp.chunk
  rw [List.append_nil] at hc
  exact hc ▸ hchunk₂ (back' ++ q.before us')

theorem Path.retold {path : List Text} (hp : Path path ts rest) (h : Retold name ids ts us) :
    ∃ rest', Path path us rest' ∧ Retold name ids rest rest' := by
  cases h with
  | same hk =>
    obtain ⟨rest', hp', hr⟩ := hp.same hk
    exact ⟨rest', hp', .same hr⟩
  | next hfront hdot hname hq hread hread' hsemi hsemi' hmore =>
    obtain ⟨back, back', rfl, hback, hdot', hp'⟩ := hp.exchange hdot hfront
    exact ⟨_, hp' _ _, .next hback hdot' hname hq hread hread' hsemi hsemi' hmore⟩

theorem Path.untold {path : List Text} (hp : Path path us rest) (h : Retold name ids ts us) :
    ∃ rest', Path path ts rest' := by
  cases h with
  | same hk =>
    obtain ⟨rest', hp', -⟩ := hp.same hk.symm
    exact ⟨rest', hp'⟩
  | next hfront hdot =>
    obtain ⟨back, back', -, -, -, hp'⟩ := hp.exchange (hdot.of_kinds hfront) hfront.symm
    exact ⟨_, hp' _ _⟩

theorem retold_cons {t u : Token} (h : Retold name ids ts us) (hk : u.kind = t.kind) (hdot : t.kind ≠ .dot) :
    Retold name ids (t :: ts) (u :: us) := by
  cases h with
  | same hks => exact .same (by rw [kinds_cons, kinds_cons, hk, hks])
  | @next front front' _ _ _ _ _ _ _ _ _ _ _ hfront hdots hname hq hread hread' hsemi hsemi' hmore =>
    have hkinds : kinds (u :: front') = kinds (t :: front) := by rw [kinds_cons, kinds_cons, hk, hfront]
    have hone : NoDot [t] := by
      rintro x ⟨⟩
      exact hdot
    exact .next hkinds (hone.append hdots) hname hq hread hread' hsemi hsemi' hmore

/-! ## The retold program -/

/-- Neither the variable nor the trace ends the part. -/
def Part.Avoids (name : Text) : Part → Prop
  | .block ends => Program.Avoids name ends
  | _ => True

theorem avoids_of_keywords (hkey : isKeyword name = false) (h : ∀ w ∈ ends, isKeyword w = true) : Avoids name ends := by
  refine ⟨fun hn => ?_, fun hn => ?_⟩
  · rw [h name hn] at hkey
    cases hkey
  · exact absurd (h traceName hn) (by decide)

theorem retold_word {w : Text} {line offset : Nat} (hkey : isKeyword name = false) (hw : isKeyword w = true)
    (h : Retold name ids (⟨.word w, line, offset⟩ :: ts) us) :
    ∃ line' offset' us', us = ⟨.word w, line', offset'⟩ :: us' ∧ Retold name ids ts us' := by
  generalize ht : (⟨.word w, line, offset⟩ : Token) = t at h
  cases retold_head h with
  | stays hmore => exact ⟨_, _, _, by rw [← ht], hmore⟩
  | replaced hname =>
    cases ht
    rw [hname, hkey] at hw
    cases hw

/-- What the retold tokens spell: the same part, but that assignments in it append their ids to the trace. Only
in front of an equals sign, where nothing can follow, they need not. -/
def Retells (name : Text) (ids : List Nat) (part : Part) (us : List Token) (v : Spelled) (rest : List Token) : Prop :=
  (∃ ids₁ ids₂ v' rest', ids = ids₁ ++ ids₂ ∧ Spells part us v' rest' ∧ Retraced name ids₁ v v' ∧
    Retold name ids₂ rest rest') ∨ AtSign rest

variable {w : Text} {line offset : Nat}

theorem retells_assign {path : List Text} {vs : List Token} (hkey : isKeyword w = false) (hp : Path path ts vs)
    (hx : ReadsExpr vs e rest) (h : Retold name ids (⟨.word w, line, offset⟩ :: ts) us) :
    Retells name ids .statement us (.one (.assign line w path e)) rest := by
  generalize ht : (⟨.word w, line, offset⟩ : Token) = t at h
  cases retold_head h with
  | stays hmore =>
    obtain ⟨vs', hp', hvs⟩ := hp.retold hmore
    rcases hx.retold hvs with ⟨rest', hx', hrest⟩ | hcut
    · subst ht
      exact .inl ⟨[], ids, _, rest', rfl, .assign hkey hp' hx', .assign, hrest⟩
    · exact .inr hcut
  | @replaced value value' rest₀ rest₀' p q semi semi' e₀ id ids hname hq hread hread' hsemi hsemi' hmore =>
    cases ht
    cases hp with
    | nil =>
      have hsep : ∀ (semi : Token) (more : List Token), semi.kind = .semicolon →
          ∀ u ∈ (semi :: more).head?, u.kind.separates = true := by
        rintro semi more hs u ⟨⟩
        rw [hs]
        rfl
      obtain ⟨rfl, rfl⟩ := hx.unique (hread.append (hsep semi rest₀ hsemi))
      have hx' := hread'.append (hsep semi' rest₀' hsemi')
      refine .inl ⟨[id], ids, _, _, rfl, .assign (by rw [hq]; decide) .nil hx', ?_, ?_⟩
      · rw [hname, hq]
        exact .traced
      · exact retold_cons hmore (hsemi'.trans hsemi.symm) (by simp [hsemi])

theorem retells_evalWord (hkey : isKeyword w = false) (hp : ∀ path vs, ¬ Path path ts vs)
    (hx : ReadsExpr (⟨.word w, line, offset⟩ :: ts) e rest) (h : Retold name ids (⟨.word w, line, offset⟩ :: ts) us) :
    Retells name ids .statement us (.one (.eval line e)) rest := by
  rcases hx.retold h with ⟨rest', hx', hrest⟩ | hcut
  · generalize ht : (⟨.word w, line, offset⟩ : Token) = t at h
    cases retold_head h with
    | stays hmore =>
      subst ht
      refine .inl ⟨[], ids, _, rest', rfl, .evalWord hkey (fun path vs hpath => ?_) hx', .eval, hrest⟩
      obtain ⟨vs', hpath'⟩ := hpath.untold hmore
      exact hp path vs' hpath'
    | replaced => exact (hp [] _ .nil).elim
  · exact .inr hcut

theorem retells_eval {t : Token} (hk : ∀ w, t.kind ≠ .word w) (hx : ReadsExpr (t :: ts) e rest)
    (h : Retold name ids (t :: ts) us) : Retells name ids .statement us (.one (.eval t.line e)) rest := by
  rcases hx.retold h with ⟨rest', hx', hrest⟩ | hcut
  · cases retold_head h with
    | stays => exact .inl ⟨[], ids, _, rest', rfl, .eval hk hx', .eval, hrest⟩
    | @replaced _ _ _ _ p => exact (hk p.name rfl).elim
  · exact .inr hcut

/-- A statement and the block behind it. -/
theorem retells_more {t : Token} {here rest' : List Token} {s : Statement} {ss : List Statement}
    (ha : Avoids name ends) (hskip : skipSeparators ts = t :: here) (hword : atWord ends (t :: here) = false)
    (he : endsStatement ends rest = true) (h : Retold name ids ts us)
    (ih₁ : ∀ {ids us}, Retold name ids (t :: here) us → Retells name ids .statement us (.one s) rest)
    (ih₂ : ∀ {ids us}, Retold name ids rest us → Retells name ids (.block ends) us (.body ss) rest') :
    Retells name ids (.block ends) us (.body (s :: ss)) rest' := by
  obtain ⟨t', here', hskip', hhere⟩ := retold_skip_cons h hskip
  rcases ih₁ hhere with ⟨ids₁, ids', v₁, rest₁, rfl, h₁, hr₁, hrest₁⟩ | ⟨p, us', rfl⟩
  · rcases ih₂ hrest₁ with ⟨ids₂, ids₃, v₂, rest₂, rfl, h₂, hr₂, hrest₂⟩ | hcut
    · obtain ⟨s', rfl⟩ := hr₁.of_one
      obtain ⟨ss', rfl⟩ := hr₂.of_body
      refine .inl ⟨ids₁ ++ ids₂, ids₃, _, rest₂, (List.append_assoc ..).symm, ?_, .cons hr₁ hr₂, hrest₂⟩
      exact .more hskip' ((retold_atWord hhere ha).trans hword) h₁ ((retold_endsStatement hrest₁ ha).trans he) h₂
    · exact .inr hcut
  · cases he

/-- A condition, its block and the branches behind it. -/
theorem retells_clause {condition : Expr} {body : List Statement} {bs : List Branch}
    {otherwise : Option (List Statement)} {rest₁ rest₂ : List Token} (hx : ReadsExpr ts condition rest₁)
    (hs₁ : Spells (.block branchEnds) rest₁ (.body body) rest₂) (hs₂ : Spells .branches rest₂ (.tail bs otherwise) rest)
    (h : Retold name ids ts us)
    (ih₁ : ∀ {ids us}, Retold name ids rest₁ us → Retells name ids (.block branchEnds) us (.body body) rest₂)
    (ih₂ : ∀ {ids us}, Retold name ids rest₂ us → Retells name ids .branches us (.tail bs otherwise) rest) :
    (∃ ids₁ ids₂ body' bs' otherwise' rest', ids = ids₁ ++ ids₂ ∧ Clause us condition body' bs' otherwise' rest' ∧
      Retraced name ids₁ (.tail (.mk condition body :: bs) otherwise) (.tail (.mk condition body' :: bs') otherwise') ∧
      Retold name ids₂ rest rest') ∨ AtSign rest := by
  rcases hx.retold h with ⟨us₁, hx', hr⟩ | hcut
  · rcases ih₁ hr with ⟨ids₁, ids', v₁, us₂, rfl, h₁, hr₁, hrest₁⟩ | hcut
    · rcases ih₂ hrest₁ with ⟨ids₂, ids₃, v₂, us₃, rfl, h₂, hr₂, hrest₂⟩ | hcut
      · obtain ⟨body', rfl⟩ := hr₁.of_body
        obtain ⟨bs', otherwise', rfl⟩ := hr₂.of_tail
        exact .inl ⟨ids₁ ++ ids₂, ids₃, body', bs', otherwise', us₃, (List.append_assoc ..).symm, ⟨hx', h₁, h₂⟩,
          .branch hr₁ hr₂, hrest₂⟩
      · exact .inr hcut
    · exact (hcut.not_spells hs₂).elim
  · exact (hcut.not_spells hs₁).elim

/-- By induction on what the tokens spell. -/
theorem Spells.retold {part : Part} {v : Spelled} (h : Spells part ts v rest) (hkey : isKeyword name = false)
    (ha : part.Avoids name) (hr : Retold name ids ts us) : Retells name ids part us v rest := by
  have hbranch : Avoids name branchEnds := avoids_of_keywords hkey (by decide)
  have hlast : Avoids name lastEnds := avoids_of_keywords hkey (by decide)
  induction h generalizing ids us with
  | done hskip =>
    obtain ⟨rfl, hnil⟩ := retold_nil (hskip ▸ retold_skip hr)
    exact .inl ⟨[], [], _, [], rfl, .done hnil, .nil, .same rfl⟩
  | stop hskip hword =>
    obtain ⟨t', here', hskip', hhere⟩ := retold_skip_cons hr hskip
    exact .inl ⟨[], ids, _, _, rfl, .stop hskip' ((retold_atWord hhere ha).trans hword), .nil, hhere⟩
  | more hskip hword _ he _ ih₁ ih₂ => exact retells_more ha hskip hword he hr (ih₁ trivial) (ih₂ ha)
  | assign hw hp hx => exact retells_assign hw hp hx hr
  | evalWord hw hp hx => exact retells_evalWord hw hp hx hr
  | eval hk hx => exact retells_eval hk hx hr
  | cond hx h₁ h₂ ih₁ ih₂ =>
    obtain ⟨line', offset', us', rfl, hmore⟩ := retold_word hkey (by decide) hr
    rcases retells_clause hx h₁ h₂ hmore (ih₁ hbranch) (ih₂ trivial) with
      ⟨ids₁, ids₂, body', bs', otherwise', rest', rfl, ⟨hx', h₁', h₂'⟩, htail, hrest⟩ | hcut
    · exact .inl ⟨ids₁, ids₂, _, rest', rfl, .cond hx' h₁' h₂', .cond htail, hrest⟩
    · exact .inr hcut
  | elseif hx h₁ h₂ ih₁ ih₂ =>
    obtain ⟨line', offset', us', rfl, hmore⟩ := retold_word hkey (by decide) hr
    rcases retells_clause hx h₁ h₂ hmore (ih₁ hbranch) (ih₂ trivial) with
      ⟨ids₁, ids₂, body', bs', otherwise', rest', rfl, ⟨hx', h₁', h₂'⟩, htail, hrest⟩ | hcut
    · exact .inl ⟨ids₁, ids₂, _, rest', rfl, .elseif hx' h₁' h₂', htail, hrest⟩
    · exact .inr hcut
  | otherwise h₁ ih =>
    obtain ⟨line', offset', us', rfl, hmore⟩ := retold_word hkey (by decide) hr
    obtain ⟨w, _, _, rfl⟩ := word_of_atWord (h₁.atWord_rest (by decide))
    rcases ih hlast hmore with ⟨ids₁, ids₂, v', rest', rfl, h₁', hbody, hrest⟩ | ⟨p, us', hcut⟩
    · obtain ⟨body', rfl⟩ := hbody.of_body
      have hw : w ∈ lastEnds := by simpa [atWord] using h₁.atWord_rest (by decide)
      obtain ⟨line'', offset'', rest'', rfl, hmore'⟩ :=
        retold_word hkey ((show ∀ w ∈ lastEnds, isKeyword w = true by decide) w hw) hrest
      exact .inl ⟨ids₁, ids₂, _, rest'', rfl, .otherwise h₁', .otherwise hbody, hmore'⟩
    · obtain ⟨ht, -⟩ := List.cons.inj hcut
      cases ht
  | @close w line offset ts hi he =>
    generalize ht : (⟨.word w, line, offset⟩ : Token) = t at hr
    cases retold_head hr with
    | stays hmore =>
      subst ht
      exact .inl ⟨[], ids, _, _, rfl, .close hi he, .last, hmore⟩
    | @replaced _ _ _ _ p => exact .inr ⟨p, _, rfl⟩

/-- Tokens that are retold spell a program that is retraced. -/
theorem ofTokens_retold {program : Program} (h : ofTokens ts = .ok program) (hkey : isKeyword name = false)
    (hr : Retold name ids ts us) :
    ∃ program', Spells (.block []) us (.body program') [] ∧ Retraced name ids (.body program) (.body program') := by
  rcases (ofTokens_eq_ok.1 h).retold hkey (avoids_of_keywords hkey nofun) hr with
    ⟨ids₁, ids₂, v', rest', rfl, hs, hretraced, hrest⟩ | ⟨p, us', hcut⟩
  · obtain ⟨program', rfl⟩ := hretraced.of_body
    obtain ⟨rfl, rfl⟩ := retold_nil hrest
    exact ⟨program', hs, (List.append_nil ids₁).symm ▸ hretraced⟩
  · cases hcut

end Program

/-! ## The traced script -/

namespace Edit

open Token Program

variable {script name : Text} {toks : List Token} {program : Program}

/-- No continuation stands in brackets. -/
def ContinuesOutside (script : Text) : Prop :=
  ∀ s t, Run .start script s t → startsContinuation t = true → s.groups = []

theorem ContinuesOutside.signsApart (h : ContinuesOutside script) (htok : tokenize script = .ok toks) :
    SignsApart script := by
  intro s c t hr hsign hdots
  obtain ⟨s₁, t₁, hs, -, -⟩ := exists_step ((scan_of_run hr).symm.trans htok)
  have hg : s.groups = [] := by
    generalize hct : c :: t = all at hs
    cases hs with
    | blank hc =>
      cases hct
      rcases hsign with rfl | rfl <;> cases hc
    | continued hc =>
      cases hct
      rcases hsign with rfl | rfl <;> cases hc
    | comment =>
      cases hct
      rcases hsign with h | h <;> cases h
    | @token _ _ _ l hat hl ht =>
      cases hct
      have hrest : l.rest = t := by
        rcases hsign with rfl | rfl <;> · cases hl; rfl
      rw [← Scan.separated_groups s c t.head?, ← groups_of_sign hsign hl ht]
      exact h _ t (hrest ▸ hr.trans (.single (.token hat hl ht))) hdots
  simp [Scan.loose, Scan.concatenates, hg]

/-- It is enough that there are no continuations. -/
theorem continuesOutside_of_tails (h : script.tails.any startsContinuation = false) : ContinuesOutside script := by
  intro s t hr hdots
  obtain ⟨u, _, ha⟩ := hr.advance
  have hmem : t ∈ script.tails := (List.mem_tails _ _).2 ⟨u, ha.text.symm⟩
  exact absurd hdots (List.any_eq_false.1 h t hmem)

theorem checkTraceable_eq_ok :
    checkTraceable script = .ok () ↔ sentinel ∉ script ∧ Text.hasPart traceName script = false := by
  unfold checkTraceable
  split
  · next h => simp_all
  · split <;> simp_all

theorem keyword_of_isIdentifier (h : isIdentifier name = true) : isKeyword name = false := by
  cases name with
  | nil => cases h
  | cons c t =>
    simp only [isIdentifier, Bool.and_eq_true, Bool.not_eq_true'] at h
    exact h.2

/-- The program of a traced script starts the trace, and then it is the program of the script but that every
assignment among the occurrences appends its id to the trace. -/
theorem readProgram_instrument (hn : isIdentifier name = true) (hc : checkTraceable script = .ok ())
    (htok : tokenize script = .ok toks) (hk : ∀ x ∈ toks, x.kind ≠ .transpose) (ho : ContinuesOutside script)
    (hp : ofTokens toks = .ok program) (hcover : Covers name toks (Occurrence.find (sanitize script) name)) :
    ∃ line program', Runner.readProgram (instrument (sanitize script) (Occurrence.find (sanitize script) name)) =
        .ok (.assign line traceName [] (.matrix []) :: program') ∧
      Retraced name ((Occurrence.find (sanitize script) name).map Occurrence.id) (.body program) (.body program') := by
  obtain ⟨hsent, -⟩ := checkTraceable_eq_ok.1 hc
  obtain ⟨toks', htok', hplaces⟩ := tokenize_revealed htok hsent hk (ho.signsApart htok)
  -- the unmasked script spells a program too, and has the occurrences in the same places
  obtain ⟨v, rest, hspells, hbare, hrest⟩ := (ofTokens_eq_ok.1 hp).same (kinds_of_places hplaces)
  obtain ⟨program', rfl, -⟩ := Spelled.of_bare_body hbare
  obtain rfl := List.map_eq_nil_iff.1 hrest
  have hspread : Spread (fun _ => True) none 0 (unmask (sanitize script))
      ((Occurrence.find (sanitize script) name).map Occurrence.span) :=
    (spread_find hn (sanitize script)).unmask fun _ _ => trivial
  obtain ⟨us, hus, hretold⟩ := @exists_retold _ _ _ _ _ [] _ [] hspread (hcover.same hplaces) htok'
    (ofTokens_eq_ok.2 hspells) nofun
  rw [List.nil_append, ← unmask_replaceAll] at hus
  -- the line in front
  obtain ⟨q, value, semi, brk, us', htraced, hq, hread, hsemi, hbrk, hkinds⟩ := tokenize_instrument hus
  obtain ⟨program', hspells', hretraced⟩ := ofTokens_retold hp (keyword_of_isIdentifier hn)
    (hretold.of_kinds (kinds_of_places hplaces).symm hkinds)
  refine ⟨q.line, program', Runner.readProgram_eq_ok.2 ⟨_, htraced, ofTokens_eq_ok.2 ?_⟩, hretraced⟩
  have hkey : isKeyword q.name = false := by
    rw [hq]
    decide
  exact hq ▸ Spells.line hkey hread hsemi hbrk hspells'

end Edit

end ConfigScript
