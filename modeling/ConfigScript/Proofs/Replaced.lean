import ConfigScript.Proofs.Statements
import Mathlib.Data.List.DropRight
/-!
# One assignment in a program replaced

`Replaced` relates two programs that differ in the value of one plain assignment, line numbers
aside. When the tokens of a script change only in the expression of such an assignment and in the
separators behind it, the programs that they spell are so related (`ofTokens_replace`).
-/

namespace ConfigScript

/-! ## Programs without line numbers -/

mutual

def Statement.bare : Statement → Statement
  | .assign _ name path e => .assign 0 name path e
  | .eval _ e => .eval 0 e
  | .cond _ branches otherwise => .cond 0 (bareBranches branches) (bareOtherwise otherwise)

def Branch.bare : Branch → Branch
  | .mk condition body => .mk condition (bareBody body)

def bareBody : List Statement → List Statement
  | [] => []
  | s :: ss => s.bare :: bareBody ss

def bareBranches : List Branch → List Branch
  | [] => []
  | b :: bs => b.bare :: bareBranches bs

def bareOtherwise : Option (List Statement) → Option (List Statement)
  | none => none
  | some body => some (bareBody body)

end

namespace Program

/-- A part of a program with its line numbers erased. -/
def Spelled.bare : Spelled → Spelled
  | body ss => .body (bareBody ss)
  | one s => .one s.bare
  | tail bs otherwise => .tail (bareBranches bs) (bareOtherwise otherwise)

/-- In the first part one assignment `name = e` on this line is `name = e'` in the second. Nothing
else differs but the numbers of later lines. -/
inductive Replaced (line : Nat) (name : Text) (e e' : Expr) : Spelled → Spelled → Prop
  | assign : Replaced line name e e' (.one (.assign line name [] e)) (.one (.assign line name [] e'))
  | first {s s' ss ss'} :
    Replaced line name e e' (.one s) (.one s') → (Spelled.body ss').bare = (Spelled.body ss).bare →
    Replaced line name e e' (.body (s :: ss)) (.body (s' :: ss'))
  | later {s ss ss'} :
    Replaced line name e e' (.body ss) (.body ss') →
    Replaced line name e e' (.body (s :: ss)) (.body (s :: ss'))
  | firstBranch {l condition body body' bs bs' otherwise otherwise'} :
    Replaced line name e e' (.body body) (.body body') →
    (Spelled.tail bs' otherwise').bare = (Spelled.tail bs otherwise).bare →
    Replaced line name e e' (.one (.cond l (.mk condition body :: bs) otherwise))
      (.one (.cond l (.mk condition body' :: bs') otherwise'))
  | laterBranch {l b bs bs' otherwise otherwise'} :
    Replaced line name e e' (.tail bs otherwise) (.tail bs' otherwise') →
    Replaced line name e e' (.one (.cond l (b :: bs) otherwise)) (.one (.cond l (b :: bs') otherwise'))
  | tailFirst {condition body body' bs bs' otherwise otherwise'} :
    Replaced line name e e' (.body body) (.body body') →
    (Spelled.tail bs' otherwise').bare = (Spelled.tail bs otherwise).bare →
    Replaced line name e e' (.tail (.mk condition body :: bs) otherwise)
      (.tail (.mk condition body' :: bs') otherwise')
  | tailLater {b bs bs' otherwise otherwise'} :
    Replaced line name e e' (.tail bs otherwise) (.tail bs' otherwise') →
    Replaced line name e e' (.tail (b :: bs) otherwise) (.tail (b :: bs') otherwise')
  | otherwise {body body'} :
    Replaced line name e e' (.body body) (.body body') →
    Replaced line name e e' (.tail [] (some body)) (.tail [] (some body'))

theorem bareBody_length (ss : List Statement) : (bareBody ss).length = ss.length := by
  induction ss with
  | nil => rfl
  | cons s ss ih => simp [bareBody, ih]

/-- A new value neither adds nor drops a statement. -/
theorem Replaced.length {line : Nat} {name : Text} {e e' : Expr} {ss ss' : List Statement}
    (h : Replaced line name e e' (.body ss) (.body ss')) : ss'.length = ss.length := by
  generalize hv : Spelled.body ss = v at h
  generalize hv' : Spelled.body ss' = v' at h
  induction h generalizing ss ss' with
  | first _ hbare =>
    cases hv
    cases hv'
    have hbody := congrArg List.length (Spelled.body.inj hbare)
    rw [bareBody_length, bareBody_length] at hbody
    simp [hbody]
  | later _ ih =>
    cases hv
    cases hv'
    simp [ih rfl rfl]
  | _ => cases hv

/-! ## The same kinds of tokens -/

variable {ends : List Text} {ts ts' us rest rest' : List Token} {e : Expr}

theorem kinds_eq_append {chunk : List Token} (h : kinds ts' = kinds (chunk ++ rest)) :
    ∃ chunk' rest', ts' = chunk' ++ rest' ∧ kinds chunk' = kinds chunk ∧ kinds rest' = kinds rest := by
  rw [kinds_append] at h
  obtain ⟨chunk', rest', rfl, hc, hr⟩ := List.map_eq_append_iff.1 h
  exact ⟨chunk', rest', rfl, hc, hr⟩

theorem kinds_eq_token {k : TokenKind} {line offset : Nat}
    (h : kinds ts' = kinds (⟨k, line, offset⟩ :: ts)) :
    ∃ line' offset' us, ts' = ⟨k, line', offset'⟩ :: us ∧ kinds us = kinds ts := by
  rw [kinds_cons] at h
  obtain ⟨⟨k', line', offset'⟩, us, rfl, hk, hr⟩ := List.map_eq_cons_iff.1 h
  cases hk
  exact ⟨line', offset', us, rfl, hr⟩

theorem ReadsExpr.same (h : ReadsExpr ts e rest) (hk : kinds ts' = kinds ts) :
    ∃ rest', ReadsExpr ts' e rest' ∧ kinds rest' = kinds rest := by
  obtain ⟨chunk, rfl, -⟩ := id h
  obtain ⟨chunk', rest', rfl, hc, hr⟩ := kinds_eq_append hk
  exact ⟨rest', h.exchange hc (.inl (by rw [hr])), hr⟩

theorem Path.same {path : List Text} (h : Path path ts rest) (hk : kinds ts' = kinds ts) :
    ∃ rest', Path path ts' rest' ∧ kinds rest' = kinds rest := by
  induction h generalizing ts' with
  | nil =>
    obtain ⟨line, offset, us, rfl, hr⟩ := kinds_eq_token hk
    exact ⟨us, .nil, hr⟩
  | cons _ ih =>
    obtain ⟨line, offset, us, rfl, hk₁⟩ := kinds_eq_token hk
    obtain ⟨line', offset', vs, rfl, hk₂⟩ := kinds_eq_token hk₁
    obtain ⟨rest', hp, hr⟩ := ih hk₂
    exact ⟨rest', .cons hp, hr⟩

theorem kinds_skipSeparators (ts : List Token) :
    kinds (skipSeparators ts) = (kinds ts).dropWhile TokenKind.separates := by
  rw [kinds, kinds, List.dropWhile_map]
  rfl

theorem skipSeparators_same {t : Token} {here : List Token} (h : skipSeparators ts = t :: here)
    (hk : kinds ts' = kinds ts) :
    ∃ t' here', skipSeparators ts' = t' :: here' ∧ kinds (t' :: here') = kinds (t :: here) := by
  have hs : kinds (skipSeparators ts') = kinds (t :: here) := by
    rw [kinds_skipSeparators, hk, ← kinds_skipSeparators, h]
  obtain ⟨line, offset, here', hskip, -⟩ := kinds_eq_token hs
  exact ⟨_, _, hskip, hskip ▸ hs⟩

theorem Spelled.of_bare_one {v : Spelled} {s : Statement} (h : v.bare = (Spelled.one s).bare) :
    ∃ s', v = .one s' ∧ s'.bare = s.bare := by
  cases v with
  | one s' => exact ⟨s', rfl, Spelled.one.inj h⟩
  | _ => cases h

theorem Spelled.of_bare_body {v : Spelled} {ss : List Statement} (h : v.bare = (Spelled.body ss).bare) :
    ∃ ss', v = .body ss' ∧ bareBody ss' = bareBody ss := by
  cases v with
  | body ss' => exact ⟨ss', rfl, Spelled.body.inj h⟩
  | _ => cases h

theorem Spelled.of_bare_tail {v : Spelled} {bs : List Branch} {otherwise : Option (List Statement)}
    (h : v.bare = (Spelled.tail bs otherwise).bare) :
    ∃ bs' otherwise', v = .tail bs' otherwise' ∧ bareBranches bs' = bareBranches bs ∧
      bareOtherwise otherwise' = bareOtherwise otherwise := by
  cases v with
  | tail bs' otherwise' => exact ⟨bs', otherwise', rfl, Spelled.tail.inj h⟩
  | _ => cases h

/-- The same kinds of tokens spell the same part of a program, line numbers aside. -/
theorem Spells.same {part : Part} {v : Spelled} (h : Spells part ts v rest) (hk : kinds ts' = kinds ts) :
    ∃ v' rest', Spells part ts' v' rest' ∧ v'.bare = v.bare ∧ kinds rest' = kinds rest := by
  induction h generalizing ts' with
  | @done ts hskip =>
    refine ⟨_, [], .done ?_, rfl, rfl⟩
    have hs := kinds_skipSeparators ts'
    rw [hk, ← kinds_skipSeparators, hskip] at hs
    exact List.map_eq_nil_iff.1 hs
  | stop hskip hword =>
    obtain ⟨t', here', hskip', hk'⟩ := skipSeparators_same hskip hk
    exact ⟨_, _, .stop hskip' ((atWord_congr (by rw [hk'])).trans hword), rfl, hk'⟩
  | more hskip hword _ he _ ih₁ ih₂ =>
    obtain ⟨t', here', hskip', hk'⟩ := skipSeparators_same hskip hk
    obtain ⟨v₁, rest₁, h₁, hv₁, hr₁⟩ := ih₁ hk'
    obtain ⟨s', rfl, hs⟩ := Spelled.of_bare_one hv₁
    obtain ⟨v₂, rest₂, h₂, hv₂, hr₂⟩ := ih₂ hr₁
    obtain ⟨ss', rfl, hss⟩ := Spelled.of_bare_body hv₂
    refine ⟨.body (s' :: ss'), rest₂, .more hskip' ?_ h₁ ?_ h₂, ?_, hr₂⟩
    · exact (atWord_congr (by rw [hk'])).trans hword
    · exact (endsStatement_congr (by rw [hr₁])).trans he
    · simp only [Spelled.bare, bareBody, hs, hss]
  | @assign name _ _ path _ _ e _ hkey hp hx =>
    obtain ⟨line', offset', us', rfl, hk₁⟩ := kinds_eq_token hk
    obtain ⟨vs, hp', hu⟩ := hp.same hk₁
    obtain ⟨rest', hx', hr⟩ := hx.same hu
    exact ⟨.one (.assign line' name path e), rest', .assign hkey hp' hx', rfl, hr⟩
  | @evalWord name _ _ _ e _ hkey hp hx =>
    obtain ⟨rest', hx', hr⟩ := hx.same hk
    obtain ⟨line', offset', us', rfl, hk₁⟩ := kinds_eq_token hk
    refine ⟨.one (.eval line' e), rest', .evalWord hkey (fun path vs hp' => ?_) hx', rfl, hr⟩
    obtain ⟨vs', hp', -⟩ := hp'.same hk₁.symm
    exact hp path vs' hp'
  | @eval t _ e _ hword hx =>
    obtain ⟨rest', hx', hr⟩ := hx.same hk
    obtain ⟨line', offset', us', rfl, -⟩ := kinds_eq_token hk
    exact ⟨.one (.eval line' e), rest', .eval hword hx', rfl, hr⟩
  | @cond _ _ _ condition _ _ _ _ _ _ hx _ _ ih₁ ih₂ =>
    obtain ⟨line', offset', us', rfl, hk₁⟩ := kinds_eq_token hk
    obtain ⟨rest₁, hx', hr₁⟩ := hx.same hk₁
    obtain ⟨v₁, rest₂, h₁, hv₁, hr₂⟩ := ih₁ hr₁
    obtain ⟨body', rfl, hb⟩ := Spelled.of_bare_body hv₁
    obtain ⟨v₂, rest₃, h₂, hv₂, hr₃⟩ := ih₂ hr₂
    obtain ⟨bs', otherwise', rfl, hbs, ho⟩ := Spelled.of_bare_tail hv₂
    refine ⟨.one (.cond line' (.mk condition body' :: bs') otherwise'), rest₃, .cond hx' h₁ h₂, ?_, hr₃⟩
    simp only [Spelled.bare, Statement.bare, bareBranches, Branch.bare, hb, hbs, ho]
  | @elseif _ _ _ condition _ _ _ _ _ _ hx _ _ ih₁ ih₂ =>
    obtain ⟨line', offset', us', rfl, hk₁⟩ := kinds_eq_token hk
    obtain ⟨rest₁, hx', hr₁⟩ := hx.same hk₁
    obtain ⟨v₁, rest₂, h₁, hv₁, hr₂⟩ := ih₁ hr₁
    obtain ⟨body', rfl, hb⟩ := Spelled.of_bare_body hv₁
    obtain ⟨v₂, rest₃, h₂, hv₂, hr₃⟩ := ih₂ hr₂
    obtain ⟨bs', otherwise', rfl, hbs, ho⟩ := Spelled.of_bare_tail hv₂
    refine ⟨.tail (.mk condition body' :: bs') otherwise', rest₃, .elseif hx' h₁ h₂, ?_, hr₃⟩
    simp only [Spelled.bare, bareBranches, Branch.bare, hb, hbs, ho]
  | otherwise _ ih =>
    obtain ⟨line', offset', us', rfl, hk₁⟩ := kinds_eq_token hk
    obtain ⟨v₁, rest₁, h₁, hv₁, hr₁⟩ := ih hk₁
    obtain ⟨body', rfl, hb⟩ := Spelled.of_bare_body hv₁
    obtain ⟨line'', offset'', rest₂, rfl, hr₂⟩ := kinds_eq_token hr₁
    refine ⟨.tail [] (some body'), rest₂, .otherwise h₁, ?_, hr₂⟩
    simp only [Spelled.bare, bareBranches, bareOtherwise, hb]
  | close hi he =>
    obtain ⟨line', offset', us', rfl, hk₁⟩ := kinds_eq_token hk
    exact ⟨_, us', .close hi he, rfl, hk₁⟩

/-- A block does not see the separators in front of it. -/
theorem Spells.skip {v : Spelled} :
    Spells (.block ends) (skipSeparators ts) v rest ↔ Spells (.block ends) ts v rest := by
  have hidem : skipSeparators (skipSeparators ts) = skipSeparators ts := List.dropWhile_idempotent _ ts
  constructor
  · intro h
    cases h with
    | done hskip => exact .done (hidem ▸ hskip)
    | stop hskip hword => exact .stop (hidem ▸ hskip) hword
    | more hskip hword h₁ he h₂ => exact .more (hidem ▸ hskip) hword h₁ he h₂
  · intro h
    cases h with
    | done hskip => exact .done (hidem.trans hskip)
    | stop hskip hword => exact .stop (hidem.trans hskip) hword
    | more hskip hword h₁ he h₂ => exact .more (hidem.trans hskip) hword h₁ he h₂

/-! ## What stands in front of an assignment -/

/-- The place of a plain assignment: its name and its equals sign. -/
structure Spot where
  name : Text
  line : Nat
  offset : Nat
  signLine : Nat
  signOffset : Nat

namespace Spot

def sign (p : Spot) : Token := ⟨.assign, p.signLine, p.signOffset⟩

/-- The assignment here, with these tokens behind its equals sign. -/
def before (p : Spot) (us : List Token) : List Token := ⟨.word p.name, p.line, p.offset⟩ :: p.sign :: us

end Spot

/-- Leaves the open brackets as they are. -/
def Balanced (ts : List Token) : Prop := ∀ gs, nestAll gs (kinds ts) = some gs

/-- What is left of the tokens in front of an assignment when some of them are read. -/
structure Left (front back : List Token) : Prop where
  suffix : back <:+ front
  nest : ∀ gs, nestAll gs (kinds front) = nestAll gs (kinds back)

variable {p : Spot} {front back : List Token}

theorem Left.trans {middle : List Token} (h : Left front middle) (h' : Left middle back) :
    Left front back :=
  ⟨h'.suffix.trans h.suffix, fun gs => (h.nest gs).trans (h'.nest gs)⟩

theorem left_append {chunk : List Token} (h : Balanced chunk) (back : List Token) :
    Left (chunk ++ back) back := by
  refine ⟨List.suffix_append chunk back, fun gs => ?_⟩
  rw [kinds_append, nestAll_append, h gs]
  rfl

theorem Left.balanced (h : Left front back) (hb : Balanced back) : Balanced front :=
  fun gs => (h.nest gs).trans (hb gs)

theorem left_word {name : Text} {line offset : Nat} : Left (⟨.word name, line, offset⟩ :: back) back :=
  @left_append [_] (fun _ => rfl) back

/-- Does not end in a dot, so that a name behind it is no field. -/
def NoDot (front : List Token) : Prop := ∀ t ∈ front.getLast?, t.kind ≠ .dot

theorem NoDot.of_suffix (h : NoDot front) (hs : back <:+ front) : NoDot back := by
  obtain ⟨chunk, rfl⟩ := hs
  intro t ht
  refine h t ?_
  rw [List.getLast?_append, Option.mem_def.1 ht]
  rfl

theorem NoDot.tail {t : Token} (h : NoDot (t :: front)) : NoDot front :=
  h.of_suffix (List.suffix_cons t front)

theorem balanced_separators (h : ∀ t ∈ ts, t.kind.separates = true) : Balanced ts := by
  intro gs
  induction ts with
  | nil => rfl
  | cons t ts ih =>
    have ht : nest gs t.kind = some gs := by
      have := h t List.mem_cons_self
      cases hk : t.kind with
      | newline | semicolon | comma => rfl
      | _ =>
        rw [hk] at this
        cases this
    rw [kinds_cons, nestAll_cons, ht]
    exact ih fun u hu => h u (List.mem_cons_of_mem t hu)

theorem skipSeparators_before (us : List Token) :
    skipSeparators (front ++ p.before us) = skipSeparators front ++ p.before us := by
  unfold skipSeparators
  rw [List.dropWhile_append]
  split
  · next h => rw [List.isEmpty_iff.1 h]; rfl
  · rfl

theorem left_skipSeparators (front : List Token) : Left front (skipSeparators front) := by
  have hsplit : front.takeWhile (·.kind.separates) ++ skipSeparators front = front :=
    List.takeWhile_append_dropWhile
  have hsep : ∀ t ∈ front.takeWhile (·.kind.separates), t.kind.separates = true :=
    fun t ht => List.mem_takeWhile_imp (p := fun t : Token => t.kind.separates) ht
  have := left_append (balanced_separators hsep) (skipSeparators front)
  rwa [hsplit] at this

/-- An expression takes tokens from the front that are balanced and assign nothing. -/
theorem ReadsExpr.chunk (h : ReadsExpr ts e rest) :
    ∃ chunk, ts = chunk ++ rest ∧ chunk ≠ [] ∧ Balanced chunk ∧ ∀ t ∈ chunk, t.kind ≠ .assign := by
  have hlen := h.length
  obtain ⟨chunk, rfl, hread⟩ := h
  have hx := hread [] (.inr nofun)
  rw [List.append_nil] at hx
  refine ⟨chunk, rfl, ?_, fun gs => hx.nestAll gs, fun t ht hk => ?_⟩
  · rintro rfl
    simp at hlen
  · have hzero : assigns (kinds chunk) = 0 := hx.assigns
    have hpos : 0 < assigns (kinds chunk) := by
      refine List.countP_pos_iff.2 ⟨.assign, ?_, rfl⟩
      exact hk ▸ List.mem_map_of_mem ht
    omega

theorem not_readsExpr_sign : ¬ ReadsExpr (p.sign :: us) e rest := by
  intro h
  obtain ⟨chunk, hc, hne, -, hno⟩ := h.chunk
  cases chunk with
  | nil => exact hne rfl
  | cons t chunk =>
    obtain ⟨rfl, -⟩ := List.cons.inj hc
    exact hno _ List.mem_cons_self rfl

/-- No part of a program starts with an equals sign. -/
theorem not_spells_sign {part : Part} {v : Spelled} : ¬ Spells part (p.sign :: us) v rest := by
  intro h
  generalize hts : p.sign :: us = ts at h
  induction h with
  | done hskip =>
    subst hts
    cases hskip
  | stop hskip hword =>
    subst hts
    cases hskip
    cases hword
  | more hskip _ _ _ _ ih₁ _ =>
    subst hts
    cases hskip
    exact ih₁ rfl
  | eval _ hx => exact not_readsExpr_sign (hts ▸ hx)
  | _ => cases hts

/-- In front of an assignment an expression ends before its name or takes the name with it. -/
theorem ReadsExpr.stops (h : ReadsExpr (front ++ p.before us) e rest) :
    (∃ back, rest = back ++ p.before us ∧ Left front back ∧
      ∀ us', ReadsExpr (front ++ p.before us') e (back ++ p.before us')) ∨
    rest = p.sign :: us := by
  obtain ⟨chunk, hc, hne, hbal, hno⟩ := h.chunk
  have hsplit : (front ++ [⟨.word p.name, p.line, p.offset⟩]) ++ p.sign :: us = chunk ++ rest := by
    rw [← hc, Spot.before, List.append_assoc]
    rfl
  rcases List.append_eq_append_iff.1 hsplit with ⟨c, hchunk, hrest⟩ | ⟨c, hfront, hrest⟩
  · cases c with
    | nil => exact .inr hrest.symm
    | cons t c =>
      obtain ⟨rfl, -⟩ := List.cons.inj hrest
      exact (hno p.sign (by rw [hchunk]; simp) rfl).elim
  · rcases List.eq_nil_or_concat c with rfl | ⟨back, t, rfl⟩
    · exact .inr hrest
    · rw [List.concat_eq_append] at hfront hrest
      obtain ⟨rfl, ht⟩ := List.append_inj' (hfront.trans (List.append_assoc ..).symm) rfl
      obtain rfl := List.singleton_inj.1 ht
      have hrest : rest = back ++ p.before us := by
        rw [hrest, Spot.before, List.append_assoc]
        rfl
      subst hrest
      refine .inl ⟨back, rfl, left_append hbal back, fun us' => ?_⟩
      rw [List.append_assoc] at h ⊢
      refine h.exchange rfl (.inl ?_)
      cases back <;> rfl

/-! ## Replacing the value -/

/-- Tokens that may stand behind an equals sign in place of others which leave `after`: an expression
and behind it what separates it from statements that are the same. -/
structure Swap (e' : Expr) (us' after after' : List Token) : Prop where
  reads : ReadsExpr us' e' after'
  ends : ∀ ends, endsStatement ends after' = true
  behind : kinds (skipSeparators after') = kinds (skipSeparators after)

/-- The rests that two parts leave which differ in the value of one assignment. -/
def Past (after after' : List Token) : Part → List Token → List Token → Prop
  | .statement, rest, rest' => (rest = after ∧ rest' = after') ∨ kinds rest' = kinds rest
  | _, rest, rest' => kinds rest' = kinds rest

/-- How a part of a program that starts in front of an assignment goes on when what stands behind the
equals sign changes: it ends before the assignment and stays what it is, it cannot be followed by
anything, or it holds the assignment and gets its new value. -/
inductive Outcome (p : Spot) (us : List Token) (part : Part) (front : List Token) (v : Spelled)
    (rest : List Token) : Prop
  | kept {back : List Token} :
    rest = back ++ p.before us → Left front back →
    (∀ us', Spells part (front ++ p.before us') v (back ++ p.before us')) →
    Outcome p us part front v rest
  | cut : rest = p.sign :: us → Outcome p us part front v rest
  | past {e : Expr} {after : List Token} :
    Balanced front → ReadsExpr us e after →
    (∀ e' us' after', Swap e' us' after after' → ∃ v' rest', Spells part (front ++ p.before us') v' rest' ∧
      Replaced p.line p.name e e' v v' ∧ Past after after' part rest rest') →
    Outcome p us part front v rest

variable {e₀ e' : Expr} {name : Text} {line offset : Nat}

/-- The path of an assignment in front of another one ends before it. -/
theorem Path.stops {path : List Text} (h : Path path (front ++ p.before us) rest) (hdot : NoDot front) :
    ∃ back, rest = back ++ p.before us ∧ Left front back ∧
      ∀ us', Path path (front ++ p.before us') (back ++ p.before us') := by
  generalize hts : front ++ p.before us = ts at h
  induction h generalizing front with
  | nil =>
    cases front with
    | nil => cases hts
    | cons t front =>
      obtain ⟨rfl, rfl⟩ := List.cons.inj hts
      exact ⟨front, rfl, @left_append [_] (fun _ => rfl) front, fun us' => .nil⟩
  | cons _ ih =>
    match front with
    | [] => cases hts
    | [t] =>
      obtain ⟨rfl, -⟩ := List.cons.inj hts
      exact (hdot _ rfl rfl).elim
    | t :: t' :: front =>
      simp only [List.cons_append, List.cons.injEq] at hts
      obtain ⟨rfl, rfl, hts⟩ := hts
      obtain ⟨back, hrest, hleft, hp⟩ := ih hdot.tail.tail hts
      exact ⟨back, hrest, .trans (@left_append [_, _] (fun _ => rfl) front) hleft, fun us' => .cons (hp us')⟩

/-- In front of an assignment starts either the assignment or another token. -/
theorem front_cases {t : Token} (h : t :: ts = front ++ p.before us) :
    front = [] ∧ t = ⟨.word p.name, p.line, p.offset⟩ ∧ ts = p.sign :: us ∨
    ∃ back, front = t :: back ∧ ts = back ++ p.before us := by
  cases front with
  | nil =>
    obtain ⟨rfl, rfl⟩ := List.cons.inj h
    exact .inl ⟨rfl, rfl, rfl⟩
  | cons u back =>
    obtain ⟨rfl, rfl⟩ := List.cons.inj h
    exact .inr ⟨back, rfl, rfl⟩

theorem outcome_assign {path : List Text} (hdot : NoDot front)
    (hts : ⟨.word name, line, offset⟩ :: ts = front ++ p.before us) (hkey : isKeyword name = false)
    {vs : List Token} (hp : Path path ts vs) (hx : ReadsExpr vs e₀ rest) :
    Outcome p us .statement front (.one (.assign line name path e₀)) rest := by
  rcases front_cases hts with ⟨rfl, ht, rfl⟩ | ⟨back, rfl, rfl⟩
  · -- this is the assignment itself
    cases ht
    cases hp with
    | nil =>
      refine .past (fun _ => rfl) hx fun e' us' after' hs => ?_
      exact ⟨_, after', .assign hkey .nil hs.reads, .assign, .inl ⟨rfl, rfl⟩⟩
  · obtain ⟨middle, rfl, hleft, hp'⟩ := hp.stops hdot.tail
    rcases hx.stops with ⟨last, rfl, hleft', hx'⟩ | hcut
    · refine .kept rfl (left_word.trans (hleft.trans hleft')) fun us' => ?_
      exact .assign hkey (hp' us') (hx' us')
    · exact .cut hcut

theorem outcome_evalWord (hdot : NoDot front) (hts : ⟨.word name, line, offset⟩ :: ts = front ++ p.before us)
    (hkey : isKeyword name = false) (hp : ∀ path vs, ¬ Path path ts vs)
    (hx : ReadsExpr (⟨.word name, line, offset⟩ :: ts) e₀ rest) :
    Outcome p us .statement front (.one (.eval line e₀)) rest := by
  rcases front_cases hts with ⟨rfl, -, rfl⟩ | ⟨back, rfl, rfl⟩
  · exact (hp [] us .nil).elim
  · rw [← List.cons_append] at hx
    rcases hx.stops with ⟨last, rfl, hleft, hx'⟩ | hcut
    · refine .kept rfl hleft fun us' => .evalWord hkey (fun path vs hp' => ?_) (hx' us')
      obtain ⟨middle, -, -, hp'⟩ := hp'.stops hdot.tail
      exact hp path _ (hp' us)
    · exact .cut hcut

theorem outcome_eval {t : Token} (hts : t :: ts = front ++ p.before us) (hk : ∀ name, t.kind ≠ .word name)
    (hx : ReadsExpr (t :: ts) e₀ rest) :
    Outcome p us .statement front (.one (.eval t.line e₀)) rest := by
  rcases front_cases hts with ⟨-, rfl, -⟩ | ⟨back, rfl, rfl⟩
  · exact (hk p.name rfl).elim
  · rw [← List.cons_append] at hx
    rcases hx.stops with ⟨last, rfl, hleft, hx'⟩ | hcut
    · exact .kept rfl hleft fun us' => .eval hk (hx' us')
    · exact .cut hcut

theorem Replaced.of_one {s : Statement} {v : Spelled} (h : Replaced line name e e' (.one s) v) :
    ∃ s', v = .one s' := by
  cases h <;> exact ⟨_, rfl⟩

theorem Replaced.of_body {ss : List Statement} {v : Spelled} (h : Replaced line name e e' (.body ss) v) :
    ∃ ss', v = .body ss' := by
  cases h <;> exact ⟨_, rfl⟩

theorem Replaced.of_tail {bs : List Branch} {otherwise : Option (List Statement)} {v : Spelled}
    (h : Replaced line name e e' (.tail bs otherwise) v) : ∃ bs' otherwise', v = .tail bs' otherwise' := by
  cases h <;> exact ⟨_, _, rfl⟩

/-- The separators in front of a block stay when the tokens behind an assignment change. -/
theorem skip_front {t : Token} {here : List Token} (h : skipSeparators (front ++ p.before us) = t :: here) :
    ∃ start, Left front start ∧ t :: here = start ++ p.before us ∧
      ∀ us', ∃ u there, skipSeparators (front ++ p.before us') = u :: there ∧
        u :: there = start ++ p.before us' ∧ u.kind = t.kind := by
  rw [skipSeparators_before] at h
  refine ⟨skipSeparators front, left_skipSeparators front, h.symm, fun us' => ?_⟩
  rw [skipSeparators_before]
  cases hs : skipSeparators front with
  | nil =>
    rw [hs] at h
    exact ⟨_, _, rfl, rfl, congrArg Token.kind (List.cons.inj h).1⟩
  | cons u start =>
    rw [hs] at h
    exact ⟨_, _, rfl, rfl, congrArg Token.kind (List.cons.inj h).1⟩

theorem head_before (back us us' : List Token) :
    (kinds (back ++ p.before us)).head? = (kinds (back ++ p.before us')).head? := by
  cases back <;> rfl

/-- A statement and the block behind it. -/
theorem outcome_more {t : Token} {here : List Token} {s : Statement} {ss : List Statement}
    {rest₁ : List Token} (hdot : NoDot front)
    (hskip : skipSeparators (front ++ p.before us) = t :: here) (hword : atWord ends (t :: here) = false)
    (he : endsStatement ends rest₁ = true) (h₂ : Spells (.block ends) rest₁ (.body ss) rest)
    (ih₁ : ∀ front, NoDot front → t :: here = front ++ p.before us →
      Outcome p us .statement front (.one s) rest₁)
    (ih₂ : ∀ front, NoDot front → rest₁ = front ++ p.before us →
      Outcome p us (.block ends) front (.body ss) rest) :
    Outcome p us (.block ends) front (.body (s :: ss)) rest := by
  obtain ⟨start, hleft, hstart, hnew⟩ := skip_front hskip
  have hword' : ∀ u there, u.kind = t.kind → atWord ends (u :: there) = false := by
    intro u there hu
    rw [← hword]
    exact atWord_congr (by simp [hu])
  cases ih₁ start (hdot.of_suffix hleft.suffix) hstart with
  | cut hcut =>
    rw [hcut] at he
    cases he
  | @kept back hrest hback h₁ =>
    subst hrest
    have he' : ∀ us', endsStatement ends (back ++ p.before us') = true := by
      intro us'
      rw [← he]
      exact endsStatement_congr (head_before back us' us)
    have hfront := hleft.trans hback
    cases ih₂ back (hdot.of_suffix hfront.suffix) rfl with
    | cut hcut => exact .cut hcut
    | kept hrest hlast h₂ =>
      refine .kept hrest (hfront.trans hlast) fun us' => ?_
      obtain ⟨u, there, hskip', hthere, hu⟩ := hnew us'
      exact .more hskip' (hword' u there hu) (hthere ▸ h₁ us') (he' us') (h₂ us')
    | past hbal hread hswap =>
      refine .past (hfront.balanced hbal) hread fun e' us' after' hs => ?_
      obtain ⟨v', rest', h₂', hrep, hpast⟩ := hswap e' us' after' hs
      obtain ⟨ss', rfl⟩ := hrep.of_body
      obtain ⟨u, there, hskip', hthere, hu⟩ := hnew us'
      exact ⟨_, rest', .more hskip' (hword' u there hu) (hthere ▸ h₁ us') (he' us') h₂', .later hrep, hpast⟩
  | @past e after hbal hread hswap =>
    refine .past (hleft.balanced hbal) hread fun e' us' after' hs => ?_
    obtain ⟨v', rest₁', h₁, hrep, hpast⟩ := hswap e' us' after' hs
    obtain ⟨s', rfl⟩ := hrep.of_one
    obtain ⟨u, there, hskip', hthere, hu⟩ := hnew us'
    -- behind the assignment the kinds of the tokens are the same
    have hblock : kinds (skipSeparators rest₁') = kinds (skipSeparators rest₁) ∧
        endsStatement ends rest₁' = true := by
      rcases hpast with ⟨rfl, rfl⟩ | hk
      · exact ⟨hs.behind, hs.ends ends⟩
      · refine ⟨?_, (endsStatement_congr (by rw [hk])).trans he⟩
        rw [kinds_skipSeparators, kinds_skipSeparators, hk]
    obtain ⟨v₂, rest₂, h₂', hv₂, hr₂⟩ := (Spells.skip.2 h₂).same hblock.1
    obtain ⟨ss', rfl, -⟩ := Spelled.of_bare_body hv₂
    refine ⟨_, rest₂, .more hskip' (hword' u there hu) (hthere ▸ h₁) hblock.2 (Spells.skip.1 h₂'), ?_, hr₂⟩
    exact .first hrep hv₂

/-- A condition, its block and the branches behind it. -/
inductive Clause (ts : List Token) (condition : Expr) (body : List Statement) (bs : List Branch)
    (otherwise : Option (List Statement)) (rest : List Token) : Prop
  | mk {rest₁ rest₂ : List Token} :
    ReadsExpr ts condition rest₁ → Spells (.block branchEnds) rest₁ (.body body) rest₂ →
    Spells .branches rest₂ (.tail bs otherwise) rest → Clause ts condition body bs otherwise rest

/-- The block of a clause or the branches behind it get a new value. -/
def ClauseReplaced (p : Spot) (e e' : Expr) (body body' : List Statement) (bs bs' : List Branch)
    (otherwise otherwise' : Option (List Statement)) : Prop :=
  Replaced p.line p.name e e' (.body body) (.body body') ∧
    (Spelled.tail bs' otherwise').bare = (Spelled.tail bs otherwise).bare ∨
  body' = body ∧ Replaced p.line p.name e e' (.tail bs otherwise) (.tail bs' otherwise')

/-- How a clause goes on when what stands behind an equals sign changes. -/
inductive ClauseOutcome (p : Spot) (us front : List Token) (condition : Expr) (body : List Statement)
    (bs : List Branch) (otherwise : Option (List Statement)) (rest : List Token) : Prop
  | kept {back : List Token} :
    rest = back ++ p.before us → Left front back →
    (∀ us', Clause (front ++ p.before us') condition body bs otherwise (back ++ p.before us')) →
    ClauseOutcome p us front condition body bs otherwise rest
  | cut : rest = p.sign :: us → ClauseOutcome p us front condition body bs otherwise rest
  | past {e : Expr} {after : List Token} :
    Balanced front → ReadsExpr us e after →
    (∀ e' us' after', Swap e' us' after after' → ∃ body' bs' otherwise' rest',
      Clause (front ++ p.before us') condition body' bs' otherwise' rest' ∧
      ClauseReplaced p e e' body body' bs bs' otherwise otherwise' ∧ kinds rest' = kinds rest) →
    ClauseOutcome p us front condition body bs otherwise rest

theorem outcome_clause {condition : Expr} {body : List Statement} {bs : List Branch}
    {otherwise : Option (List Statement)} {rest₁ rest₂ : List Token} (hdot : NoDot front)
    (hx : ReadsExpr (front ++ p.before us) condition rest₁)
    (h₁ : Spells (.block branchEnds) rest₁ (.body body) rest₂)
    (h₂ : Spells .branches rest₂ (.tail bs otherwise) rest)
    (ih₁ : ∀ front, NoDot front → rest₁ = front ++ p.before us →
      Outcome p us (.block branchEnds) front (.body body) rest₂)
    (ih₂ : ∀ front, NoDot front → rest₂ = front ++ p.before us →
      Outcome p us .branches front (.tail bs otherwise) rest) :
    ClauseOutcome p us front condition body bs otherwise rest := by
  rcases hx.stops with ⟨back, rfl, hback, hx'⟩ | rfl
  · cases ih₁ back (hdot.of_suffix hback.suffix) rfl with
    | cut hcut =>
      subst hcut
      exact (not_spells_sign h₂).elim
    | @kept last hrest hlast h₁' =>
      subst hrest
      have hfront := hback.trans hlast
      cases ih₂ last (hdot.of_suffix hfront.suffix) rfl with
      | cut hcut => exact .cut hcut
      | kept hrest hend h₂' =>
        exact .kept hrest (hfront.trans hend) fun us' => ⟨hx' us', h₁' us', h₂' us'⟩
      | past hbal hread hswap =>
        refine .past (hfront.balanced hbal) hread fun e' us' after' hs => ?_
        obtain ⟨v', rest', h₂', hrep, hpast⟩ := hswap e' us' after' hs
        obtain ⟨bs', otherwise', rfl⟩ := hrep.of_tail
        exact ⟨body, bs', otherwise', rest', ⟨hx' us', h₁' us', h₂'⟩, .inr ⟨rfl, hrep⟩, hpast⟩
    | past hbal hread hswap =>
      refine .past (hback.balanced hbal) hread fun e' us' after' hs => ?_
      obtain ⟨v', rest₂', h₁', hrep, hpast⟩ := hswap e' us' after' hs
      obtain ⟨body', rfl⟩ := hrep.of_body
      obtain ⟨v, rest', h₂', hv, hr⟩ := h₂.same hpast
      obtain ⟨bs', otherwise', rfl, -⟩ := Spelled.of_bare_tail hv
      exact ⟨body', bs', otherwise', rest', ⟨hx' us', h₁', h₂'⟩, .inl ⟨hrep, hv⟩, hr⟩
  · exact (not_spells_sign h₁).elim

theorem word_of_atWord {t : Token} (h : atWord ends (t :: ts) = true) :
    ∃ name line offset, t = ⟨.word name, line, offset⟩ := by
  obtain ⟨kind, line, offset⟩ := t
  cases kind with
  | word name => exact ⟨name, line, offset, rfl⟩
  | _ => cases h

theorem ClauseReplaced.cond {body body' : List Statement} {bs bs' : List Branch}
    {otherwise otherwise' : Option (List Statement)} {condition : Expr}
    (h : ClauseReplaced p e e' body body' bs bs' otherwise otherwise') :
    Replaced p.line p.name e e' (.one (.cond line (.mk condition body :: bs) otherwise))
      (.one (.cond line (.mk condition body' :: bs') otherwise')) := by
  rcases h with ⟨hrep, hbare⟩ | ⟨rfl, hrep⟩
  · exact .firstBranch hrep hbare
  · exact .laterBranch hrep

theorem ClauseReplaced.tail {body body' : List Statement} {bs bs' : List Branch}
    {otherwise otherwise' : Option (List Statement)} {condition : Expr}
    (h : ClauseReplaced p e e' body body' bs bs' otherwise otherwise') :
    Replaced p.line p.name e e' (.tail (.mk condition body :: bs) otherwise)
      (.tail (.mk condition body' :: bs') otherwise') := by
  rcases h with ⟨hrep, hbare⟩ | ⟨rfl, hrep⟩
  · exact .tailFirst hrep hbare
  · exact .tailLater hrep

/-- By induction on what the tokens spell: the parts in front of the assignment stay, the one that it
belongs to gets the new value, and those behind it have the same kinds of tokens. -/
theorem Spells.outcome {part : Part} {v : Spelled} (h : Spells part ts v rest) (hdot : NoDot front)
    (hts : ts = front ++ p.before us) : Outcome p us part front v rest := by
  induction h generalizing front with
  | done hskip =>
    subst hts
    rw [skipSeparators_before] at hskip
    simp [Spot.before] at hskip
  | @stop ends ts t here hskip hword =>
    subst hts
    obtain ⟨start, hleft, hstart, hnew⟩ := skip_front hskip
    refine .kept hstart hleft fun us' => ?_
    obtain ⟨u, there, hskip', hthere, hu⟩ := hnew us'
    rw [← hthere]
    refine .stop hskip' ?_
    rw [← hword]
    exact atWord_congr (by simp [hu])
  | more hskip hword _ he h₂ ih₁ ih₂ =>
    subst hts
    exact outcome_more hdot hskip hword he h₂ (fun _ => ih₁) (fun _ => ih₂)
  | assign hkey hp hx => exact outcome_assign hdot hts hkey hp hx
  | evalWord hkey hp hx => exact outcome_evalWord hdot hts hkey hp hx
  | eval hk hx => exact outcome_eval hts hk hx
  | cond hx h₁ h₂ ih₁ ih₂ =>
    rcases front_cases hts with ⟨-, -, rfl⟩ | ⟨back, rfl, rfl⟩
    · exact (not_readsExpr_sign hx).elim
    cases outcome_clause hdot.tail hx h₁ h₂ (fun _ => ih₁) (fun _ => ih₂) with
    | cut hcut => exact .cut hcut
    | kept hrest hback hc =>
      refine .kept hrest (left_word.trans hback) fun us' => ?_
      obtain ⟨hx', h₁', h₂'⟩ := hc us'
      exact .cond hx' h₁' h₂'
    | past hbal hread hswap =>
      refine .past (left_word.balanced hbal) hread fun e' us' after' hs => ?_
      obtain ⟨body', bs', otherwise', rest', ⟨hx', h₁', h₂'⟩, hrep, hr⟩ := hswap e' us' after' hs
      exact ⟨_, rest', .cond hx' h₁' h₂', hrep.cond, .inr hr⟩
  | elseif hx h₁ h₂ ih₁ ih₂ =>
    rcases front_cases hts with ⟨-, -, rfl⟩ | ⟨back, rfl, rfl⟩
    · exact (not_readsExpr_sign hx).elim
    cases outcome_clause hdot.tail hx h₁ h₂ (fun _ => ih₁) (fun _ => ih₂) with
    | cut hcut => exact .cut hcut
    | kept hrest hback hc =>
      refine .kept hrest (left_word.trans hback) fun us' => ?_
      obtain ⟨hx', h₁', h₂'⟩ := hc us'
      exact .elseif hx' h₁' h₂'
    | past hbal hread hswap =>
      refine .past (left_word.balanced hbal) hread fun e' us' after' hs => ?_
      obtain ⟨body', bs', otherwise', rest', ⟨hx', h₁', h₂'⟩, hrep, hr⟩ := hswap e' us' after' hs
      exact ⟨_, rest', .elseif hx' h₁' h₂', hrep.tail, hr⟩
  | @otherwise _ _ _ body t rest h₁ ih =>
    rcases front_cases hts with ⟨-, -, rfl⟩ | ⟨back, rfl, rfl⟩
    · exact (not_spells_sign h₁).elim
    obtain ⟨_, _, _, rfl⟩ := word_of_atWord (h₁.atWord_rest (by decide))
    cases ih hdot.tail rfl with
    | cut hcut =>
      obtain ⟨ht, -⟩ := List.cons.inj hcut
      cases ht
    | kept hrest hback h₁' =>
      rcases front_cases hrest with ⟨-, -, rfl⟩ | ⟨last, rfl, rfl⟩
      · exact .cut rfl
      · exact .kept rfl (left_word.trans (hback.trans left_word)) fun us' => .otherwise (h₁' us')
    | past hbal hread hswap =>
      refine .past (left_word.balanced hbal) hread fun e' us' after' hs => ?_
      obtain ⟨v', rest', h₁', hrep, hpast⟩ := hswap e' us' after' hs
      obtain ⟨body', rfl⟩ := hrep.of_body
      obtain ⟨line', offset', rest'', rfl, hr⟩ := kinds_eq_token hpast
      exact ⟨_, rest'', .otherwise h₁', .otherwise hrep, hr⟩
  | close hi he =>
    rcases front_cases hts with ⟨-, -, rfl⟩ | ⟨back, rfl, rfl⟩
    · exact .cut rfl
    · exact .kept rfl left_word fun us' => .close hi he

/-- If tokens spell a program, what stands in front of one of its assignments has no open brackets and
what stands behind the equals sign starts with an expression. With another expression there the
program is the same but for the value of the assignment. -/
theorem ofTokens_replace {program : Program} (h : ofTokens (front ++ p.before us) = .ok program)
    (hdot : NoDot front) :
    Balanced front ∧ ∃ e after, ReadsExpr us e after ∧ ∀ e' us' after', Swap e' us' after after' →
      ∃ program', ofTokens (front ++ p.before us') = .ok program' ∧
        Replaced p.line p.name e e' (.body program) (.body program') := by
  cases (ofTokens_eq_ok.1 h).outcome hdot rfl with
  | kept hrest => simp [Spot.before] at hrest
  | cut hcut => cases hcut
  | @past e after hbal hread hswap =>
    refine ⟨hbal, e, after, hread, fun e' us' after' hs => ?_⟩
    obtain ⟨v', rest', hs', hrep, hpast⟩ := hswap e' us' after' hs
    obtain ⟨program', rfl⟩ := hrep.of_body
    obtain rfl : rest' = [] := List.map_eq_nil_iff.1 hpast
    exact ⟨program', ofTokens_eq_ok.2 hs', hrep⟩

end Program

end ConfigScript
