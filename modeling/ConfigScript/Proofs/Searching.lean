import ConfigScript.Editor
import ConfigScript.Proofs.Relocated
/-!
# What the search for occurrences finds

The search goes through masked text from left to right, over one character, over a name that is compared or is a
field, or over a whole statement. What it finds are statements (`stands_of_mem_spans`), and it passes over none: a
statement begins neither inside a name nor where the search has looked and gone on (`exists_mem_spans`). So the
occurrences are the one list of statements, in order, that every statement of the text begins in
(`findOccurrences_located`).
-/

namespace ConfigScript

namespace Edit

open Occurrence (lastOr spans isGap)

variable {name t u gap gap' body body' back back' masked : Text} {before : Option Char} {offset start stop stop' : Nat}
  {os os' : List Occurrence}

/-! ## Statements in a text -/

/-- From `start` to `stop` stands a statement `name = …;`. The name begins a word and is not behind a dot, blanks and
an equals sign follow that is not the first of two, and the semicolon is the first one behind it, on its line. The
text has this character in front and this offset. -/
inductive Stands (name : Text) (before : Option Char) (offset : Nat) : Text → Nat → Nat → Prop
  | mk {front gap body back : Text} : Parts gap body → isWordBoundary (lastOr before front) name.head? = true →
      lastOr before front ≠ some '.' → body.head? ≠ some '=' →
      Stands name before offset (front ++ (statement name gap body ++ back)) (offset + front.byteLength)
        (offset + (front ++ statement name gap body).byteLength)

theorem Stands.le (h : Stands name before offset t start stop) : offset ≤ start ∧ start < stop := by
  obtain @⟨front, gap, body, back, -, -, -, -⟩ := h
  have hpos : 0 < (statement name gap body).byteLength := Text.byteLength_pos (by simp [statement])
  rw [Text.byteLength_append]
  omega

/-- What stands in the rest of a text stands in the text. -/
theorem Stands.pass (h : Stands name (lastOr before u) (offset + u.byteLength) t start stop) :
    Stands name before offset (u ++ t) start stop := by
  obtain @⟨front, gap, body, back, hparts, hword, hdot, hsign⟩ := h
  rw [← lastOr_append] at hword hdot
  have h := @Stands.mk name before offset (u ++ front) gap body back hparts hword hdot hsign
  simpa only [List.append_assoc, Text.byteLength_append, Nat.add_assoc] using h

/-- What stands in a text behind its front stands in the rest. -/
theorem Stands.behind (h : Stands name before offset (u ++ t) start stop) (hle : offset + u.byteLength ≤ start) :
    Stands name (lastOr before u) (offset + u.byteLength) t start stop := by
  generalize hcut : u ++ t = whole at h
  obtain @⟨front, gap, body, back, hparts, hword, hdot, hsign⟩ := h
  obtain ⟨more, rfl, rfl⟩ : ∃ more, front = u ++ more ∧ t = more ++ (statement name gap body ++ back) := by
    rcases List.append_eq_append_iff.1 hcut with ⟨more, hfront, ht⟩ | ⟨more, rfl, ht⟩
    · exact ⟨more, hfront, ht⟩
    · -- the front is no longer than the text in front of the statement
      obtain rfl : more = [] := by
        by_contra hne
        have hpos := Text.byteLength_pos hne
        rw [Text.byteLength_append] at hle
        omega
      exact ⟨[], by simp, by simpa using ht.symm⟩
  rw [lastOr_append] at hword hdot
  have h := @Stands.mk name (lastOr before u) (offset + u.byteLength) more gap body back hparts hword hdot hsign
  simpa only [List.append_assoc, Text.byteLength_append, Nat.add_assoc] using h

/-- A statement in front of a text is spelled in one way. -/
theorem statement_inj (h : Parts gap body) (h' : Parts gap' body')
    (hcut : statement name gap body ++ back = statement name gap' body' ++ back') : gap = gap' ∧ body = body' := by
  rw [statement_append, statement_append] at hcut
  obtain ⟨rfl, hbody⟩ := append_cons_inj h.ne_sign h'.ne_sign (List.append_cancel_left hcut)
  exact ⟨rfl, (append_cons_inj (fun hm => (h.body _ hm).1 rfl) (fun hm => (h'.body _ hm).1 rfl) hbody).1⟩

theorem Stands.stop_unique (h : Stands name before offset t start stop)
    (h' : Stands name before offset t start stop') : stop = stop' := by
  generalize hstart : start = start' at h'
  obtain @⟨front, gap, body, back, hparts, -, -, -⟩ := h
  generalize hcut : front ++ (statement name gap body ++ back) = whole at h'
  obtain @⟨front', gap', body', back', hparts', -, -, -⟩ := h'
  obtain ⟨rfl, hbehind⟩ := Text.append_inj hcut (Nat.add_left_cancel hstart)
  obtain ⟨rfl, rfl⟩ := statement_inj hparts hparts' hbehind
  rfl

/-! ## The search finds statements, and all of them -/

theorem stands_of_mem_spans (hn : isIdentifier name = true) (h : (start, stop) ∈ spans name before offset t) :
    Stands name before offset t start stop := by
  induction before, t using spans_induction hn generalizing offset with
  | nil =>
    rw [spans_nil] at h
    cases h
  | skip before c t hno ih =>
    rw [spans_skip hno] at h
    have hrest : Stands name (lastOr before [c]) (offset + Text.byteLength [c]) t start stop := ih h
    exact hrest.pass
  | pass before gap body tail hparts hword hpass ih =>
    rw [spans_pass hn hparts tail hword hpass] at h
    rw [statement_append]
    exact (ih h).pass
  | found before gap body tail hparts hword hpass ih =>
    rw [spans_found hn hparts tail hword hpass] at h
    rw [not_or] at hpass
    rcases List.mem_cons.1 h with heq | h
    · cases heq
      exact @Stands.mk name before start [] gap body tail hparts hword hpass.2 hpass.1
    · refine Stands.pass (u := statement name gap body) ?_
      have hlast : lastOr before (statement name gap body) = some ';' := by
        simp [lastOr, statement, List.getLast?_cons, List.getLast?_append]
      rw [hlast]
      exact ih h

/-- No statement begins inside a name. -/
theorem Stands.not_inside (hn : isIdentifier name = true) (h : Stands name before offset (name ++ t) start stop)
    (hlt : offset < start) : offset + name.byteLength ≤ start := by
  by_contra hinside
  generalize hcut : name ++ t = whole at h
  obtain @⟨front, gap, body, back, -, hword, -, -⟩ := h
  have hnonempty : front ≠ [] := by
    rintro rfl
    exact absurd hlt (Nat.lt_irrefl offset)
  -- what stands in front of it is a piece of the name
  have hfront : ∀ c ∈ front, Token.isNamePart c = true := by
    rcases List.append_eq_append_iff.1 hcut with ⟨more, rfl, -⟩ | ⟨more, hname, -⟩
    · rw [Text.byteLength_append] at hinside
      omega
    · exact fun c hc => namePart_of_identifier hn c (hname ▸ List.mem_append_left more hc)
  obtain ⟨a, letters, hname, ha⟩ := exists_head hn
  have hlast := List.getLast?_eq_some_getLast hnonempty
  have hmem := List.getLast_mem hnonempty
  have hword' : isWordCharacter (front.getLast hnonempty) = true := isWordCharacter_of_namePart (hfront _ hmem)
  have hhead : isWordCharacter a = true :=
    isWordCharacter_of_namePart (namePart_of_identifier hn a (hname ▸ List.mem_cons_self))
  simp [isWordBoundary, lastOr, hlast, hname, hword', hhead] at hword

/-- Every statement begins in a span that is found. -/
theorem exists_mem_spans (hn : isIdentifier name = true) (h : Stands name before offset t start stop) :
    ∃ span ∈ spans name before offset t, span.1 ≤ start ∧ start < span.2 := by
  induction before, t using spans_induction hn generalizing offset with
  | nil before =>
    generalize hnil : ([] : Text) = whole at h
    cases h
    simp [statement] at hnil
  | skip before c t hno ih =>
    rw [spans_skip hno]
    have hbehind : offset + c.utf8Size ≤ start := by
      generalize hcut : c :: t = whole at h hno
      obtain @⟨front, gap, body, back, hparts, hword, -, -⟩ := h
      cases front with
      | nil =>
        -- a statement here would have been found
        obtain ⟨a, letters, rfl, -⟩ := exists_head hn
        obtain ⟨rfl, -⟩ := List.cons.inj hcut
        refine (hno hword ?_).elim
        rw [List.nil_append, statement_append]
        exact .mk hparts
      | cons d front =>
        obtain ⟨rfl, -⟩ := List.cons.inj hcut
        rw [Text.byteLength]
        omega
    have hrest : Stands name (lastOr before [c]) (offset + Text.byteLength [c]) t start stop := Stands.behind h hbehind
    exact ih hrest
  | pass before gap body tail hparts hword hpass ih =>
    rw [spans_pass hn hparts tail hword hpass]
    rw [statement_append] at h
    have hlt : offset < start := by
      generalize hcut : name ++ (gap ++ '=' :: (body ++ ';' :: tail)) = whole at h
      obtain @⟨front, gap', body', back, hparts', -, hdot, hsign⟩ := h
      cases front with
      | cons d front =>
        have hpos := Text.byteLength_pos (List.cons_ne_nil d front)
        omega
      | nil =>
        -- the statement here is compared or a field
        rw [← statement_append, List.nil_append] at hcut
        obtain ⟨rfl, rfl⟩ := statement_inj hparts hparts' hcut
        exact (hpass.elim hsign hdot).elim
    exact ih (h.behind (h.not_inside hn hlt))
  | found before gap body tail hparts hword hpass ih =>
    rw [spans_found hn hparts tail hword hpass]
    by_cases hlt : start < offset + (statement name gap body).byteLength
    · exact ⟨_, List.mem_cons_self, h.le.1, hlt⟩
    · have hrest := h.behind (Nat.le_of_not_lt hlt)
      have hlast : lastOr before (statement name gap body) = some ';' := by
        simp [lastOr, statement, List.getLast?_cons, List.getLast?_append]
      rw [hlast] at hrest
      obtain ⟨span, hspan, hcovers⟩ := ih hrest
      exact ⟨span, List.mem_cons_of_mem _ hspan, hcovers⟩

theorem spans_pairwise (hn : isIdentifier name = true) (before : Option Char) (offset : Nat) (t : Text) :
    (spans name before offset t).Pairwise fun span span' => span.2 ≤ span'.1 := by
  induction before, t using spans_induction hn generalizing offset with
  | nil =>
    rw [spans_nil]
    exact .nil
  | skip before c t hno ih =>
    rw [spans_skip hno]
    exact ih _
  | pass before gap body tail hparts hword hpass ih =>
    rw [spans_pass hn hparts tail hword hpass]
    exact ih _
  | found before gap body tail hparts hword hpass ih =>
    rw [spans_found hn hparts tail hword hpass]
    exact .cons (fun span hspan => le_of_mem_spans hn hspan) (ih _)

/-! ## Lists of occurrences -/

/-- Occurrences counted from one, in order and apart from each other. Each is a statement of the text, and every
statement begins in one of them. -/
structure Located (name masked : Text) (os : List Occurrence) : Prop where
  ids : os.map Occurrence.id = List.range' 1 os.length
  ordered : os.Pairwise fun o o' => o.stop ≤ o'.start
  stand : ∀ o ∈ os, Stands name none 0 masked o.start o.stop
  complete : ∀ start stop, Stands name none 0 masked start stop → ∃ o ∈ os, o.start ≤ start ∧ start < o.stop

theorem located_find (hn : isIdentifier name = true) (masked : Text) :
    Located name masked (Occurrence.find masked name) where
  ids := find_ids masked name
  ordered := by
    have hspans := spans_pairwise hn none 0 masked
    rw [← find_spans, List.pairwise_map] at hspans
    exact hspans
  stand o ho := by
    have hspan := List.mem_map_of_mem (f := Occurrence.span) ho
    rw [find_spans] at hspan
    exact stands_of_mem_spans hn hspan
  complete start stop h := by
    obtain ⟨span, hspan, hcovers⟩ := exists_mem_spans hn h
    rw [← find_spans] at hspan
    obtain ⟨o, ho, rfl⟩ := List.mem_map.1 hspan
    exact ⟨o, ho, hcovers⟩

/-- Occurrences from this offset on, and every statement from there on begins in one of them. -/
structure LocatedFrom (name masked : Text) (offset : Nat) (os : List Occurrence) : Prop where
  ordered : os.Pairwise fun o o' => o.stop ≤ o'.start
  stand : ∀ o ∈ os, Stands name none 0 masked o.start o.stop
  from_offset : ∀ o ∈ os, offset ≤ o.start
  complete : ∀ start stop, offset ≤ start → Stands name none 0 masked start stop →
    ∃ o ∈ os, o.start ≤ start ∧ start < o.stop

theorem LocatedFrom.tail {o : Occurrence} (h : LocatedFrom name masked offset (o :: os)) :
    LocatedFrom name masked o.stop os where
  ordered := (List.pairwise_cons.1 h.ordered).2
  stand o' ho' := h.stand o' (List.mem_cons_of_mem o ho')
  from_offset := (List.pairwise_cons.1 h.ordered).1
  complete start stop hle hs := by
    have hlt := (h.stand o List.mem_cons_self).le.2
    have hoffset := h.from_offset o List.mem_cons_self
    obtain ⟨o', ho', hcovers⟩ := h.complete start stop (by omega) hs
    rcases List.mem_cons.1 ho' with rfl | ho'
    · omega
    · exact ⟨o', ho', hcovers⟩

/-- The first occurrence of one list starts no later than those of another. -/
theorem LocatedFrom.first_le {o : Occurrence} (h : LocatedFrom name masked offset (o :: os))
    (h' : LocatedFrom name masked offset os') : ∀ o' ∈ os', o.start ≤ o'.start := by
  intro o' ho'
  obtain ⟨p, hp, hle, -⟩ := h.complete o'.start o'.stop (h'.from_offset o' ho') (h'.stand o' ho')
  rcases List.mem_cons.1 hp with rfl | hp
  · exact hle
  · have hbehind := (List.pairwise_cons.1 h.ordered).1 p hp
    have hlt := (h.stand o List.mem_cons_self).le.2
    omega

theorem LocatedFrom.spans_unique (h : LocatedFrom name masked offset os)
    (h' : LocatedFrom name masked offset os') : os.map Occurrence.span = os'.map Occurrence.span := by
  induction os generalizing offset os' with
  | nil =>
    cases os' with
    | nil => rfl
    | cons o' os' =>
      obtain ⟨o, ho, -⟩ := h.complete o'.start o'.stop (h'.from_offset o' List.mem_cons_self)
        (h'.stand o' List.mem_cons_self)
      cases ho
  | cons o os ih =>
    have hcovered := h'.complete o.start o.stop (h.from_offset o List.mem_cons_self) (h.stand o List.mem_cons_self)
    cases os' with
    | nil =>
      obtain ⟨o', ho', -⟩ := hcovered
      cases ho'
    | cons o' os' =>
      have hstart : o.start = o'.start :=
        Nat.le_antisymm (h.first_le h' o' List.mem_cons_self) (h'.first_le h o List.mem_cons_self)
      have hstands := h.stand o List.mem_cons_self
      have hstop : o.stop = o'.stop := hstands.stop_unique (hstart ▸ h'.stand o' List.mem_cons_self)
      have htail := h'.tail
      rw [← hstop] at htail
      rw [List.map_cons, List.map_cons, ih h.tail htail, Occurrence.span, Occurrence.span, hstart, hstop]

theorem Located.from_start (h : Located name masked os) : LocatedFrom name masked 0 os :=
  ⟨h.ordered, h.stand, fun _ _ => Nat.zero_le _, fun start stop _ => h.complete start stop⟩

/-- A text has one such list. -/
theorem Located.unique (h : Located name masked os) (h' : Located name masked os') :
    os = os' := by
  have hspans := h.from_start.spans_unique h'.from_start
  have hlength : os.length = os'.length := by simpa using congrArg List.length hspans
  have hids : os.map Occurrence.id = os'.map Occurrence.id := by rw [h.ids, h'.ids, hlength]
  refine List.ext_getElem hlength fun i hi hi' => ?_
  have hspan : os[i].span = os'[i].span := by
    have hget := congrArg (·[i]?) hspans
    simpa [hi, hi'] using hget
  have hid : os[i].id = os'[i].id := by
    have hget := congrArg (·[i]?) hids
    simpa [hi, hi'] using hget
  obtain ⟨hstart, hstop⟩ := Prod.mk.inj hspan
  exact Occurrence.mk.injEq .. ▸ ⟨hstart, hstop, hid⟩

end Edit

namespace Editor

open Edit (Located Occurrence)

/-- For every masked text and name there is one list of the statements that no other one in it covers, in order and
counted from one. The search ends with this list, and with an error if no statement stands in the text. -/
theorem findOccurrences_located {name : Text} (hn : isIdentifier name = true) (masked : Text) :
    ∃ os, Located name masked os ∧ (∀ os', Located name masked os' → os' = os) ∧
      findOccurrences masked name = if os.isEmpty then .error (.notAssigned name) else .ok os := by
  have hfind := Edit.located_find hn masked
  refine ⟨Occurrence.find masked name, hfind, fun os' h' => h'.unique hfind, ?_⟩
  unfold findOccurrences
  cases Occurrence.find masked name with
  | nil => rfl
  | cons o os => rfl

/-- On the line of the statement that is found the name is compared, is a field, and is compared once more in the
value. -/
theorem findOccurrences_located_once :
    let masked := "if a == 1, s.a = 2; a = a == 3; end".toList
    let name := "a".toList
    isIdentifier name = true ∧ ∃ os, Located name masked os ∧ (∀ os', Located name masked os' → os' = os) ∧
      (findOccurrences masked name = if os.isEmpty then .error (.notAssigned name) else .ok os) ∧
      os = [⟨20, 31, 1⟩] := by
  intro masked name
  have hn : isIdentifier name = true := by decide
  obtain ⟨os, hlocated, hunique, hresult⟩ := findOccurrences_located hn masked
  have hos : os = [⟨20, 31, 1⟩] := by
    rw [← hunique _ (Edit.located_find hn masked)]
    decide +kernel
  exact ⟨hn, os, hlocated, hunique, hresult, hos⟩

end Editor

end ConfigScript
