import ConfigScript.Proofs.Results
/-!
# Setting fields

A field is set along a path, as it is read: at every struct on the way the one field of the path
changes and the others stay (`Value.setField_of_fields`). So what is set is read back, a path that leads
elsewhere reads as before, and only the last value set at a path counts. The variables are the
fields of one more struct (`Workspace.assign_eq_ok`), and so all of this holds of assignments
(`Workspace.assign_lens`).
-/

namespace ConfigScript

namespace Table

/-- Of two entries of one name the later stays. -/
theorem insert_insert {α : Type} (name : Text) (a b : α) (t : Table α) :
    insert name b (insert name a t) = insert name b t := by
  induction t with
  | nil => simp [insert]
  | cons p rest ih =>
    obtain ⟨n, e⟩ := p
    cases hc : compare name n with
    | lt => simp [insert, hc]
    | eq => simp [insert, hc]
    | gt => simp [insert, hc, ih]

end Table

namespace Value

variable {v w new : Value} {field : Text} {fields : Table Value} {p q path : List Text}

/-! ## Reading along a path -/

/-- The value at the end of a path of fields. -/
def read (v : Value) (path : List Text) : Except Fault Value :=
  path.foldlM (fun v field => Expr.readField field v) v

theorem read_nil : v.read [] = .ok v := rfl

theorem read_cons : v.read (field :: path) = Expr.readField field v >>= (·.read path) := rfl

/-- The value is a struct or an empty matrix, so a field of it can be set. -/
def Opens (v : Value) : Prop := (∃ fields, v = .struct fields) ∨ v.isBlankMatrix = true

/-- The fields of a struct. An empty matrix counts as a struct without fields. -/
def fields? (v : Value) : Option (Table Value) :=
  match v with
  | struct fields => some fields
  | v => if v.isBlankMatrix then some [] else none

theorem opens_iff : v.Opens ↔ ∃ fields, v.fields? = some fields := by
  cases v with
  | struct fields => exact iff_of_true (.inl ⟨fields, rfl⟩) ⟨fields, rfl⟩
  | matrix m => cases hm : m.isEmpty <;> simp [Opens, fields?, isBlankMatrix, hm]
  | _ => simp [Opens, fields?, isBlankMatrix]

theorem opens_struct (fields : Table Value) : (struct fields).Opens := .inl ⟨fields, rfl⟩

/-- A field is read from the fields there are. -/
theorem readField_eq_ok_iff : Expr.readField field v = .ok w ↔
    ∃ fields, v.fields? = some fields ∧ fields.lookup field = some w := by
  cases v with
  | struct fields =>
    simp only [Expr.readField, fields?, Option.some.injEq, exists_eq_left']
    cases fields.lookup field <;> simp
  | matrix m => cases hm : m.isEmpty <;> simp [Expr.readField, fields?, isBlankMatrix, hm]
  | _ => simp [Expr.readField, fields?, isBlankMatrix]

theorem read_cons_eq_ok : v.read (field :: path) = .ok w ↔
    ∃ fields old, v.fields? = some fields ∧ fields.lookup field = some old ∧ old.read path = .ok w := by
  rw [read_cons, bind_eq_ok]
  simp only [readField_eq_ok_iff]
  constructor
  · rintro ⟨old, ⟨fields, hf, hl⟩, h⟩
    exact ⟨fields, old, hf, hl, h⟩
  · rintro ⟨fields, old, hf, hl, h⟩
    exact ⟨old, ⟨fields, hf, hl⟩, h⟩

/-! ## Setting along a path -/

/-- What an assignment goes on with at a field: a missing one is a struct without fields. -/
def entry (fields : Table Value) (field : Text) : Value := (fields.lookup field).getD (.struct [])

theorem entry_insert_self : entry (fields.insert field v) field = v := by
  rw [entry, Table.lookup_insert_self, Option.getD_some]

theorem read_entry (h : fields.lookup field = none) (hp : p ≠ []) : (entry fields field).read p ≠ .ok w := by
  obtain ⟨g, p, rfl⟩ := List.exists_cons_of_ne_nil hp
  rw [entry, h, Option.getD_none, ne_eq, read_cons_eq_ok]
  rintro ⟨_, old, hf, hl, -⟩
  cases hf
  cases hl

/-- One level of an assignment: the field of the path changes, and the others stay. -/
theorem setField_of_fields (h : v.fields? = some fields) : v.setField (field :: path) new =
    (entry fields field).setField path new >>= fun u => .ok (.struct (fields.insert field u)) := by
  cases v with
  | struct => cases h; rfl
  | matrix m =>
    cases hm : m.isEmpty with
    | true =>
      obtain rfl : [] = fields := by simpa [fields?, isBlankMatrix, hm] using h
      rw [setField, isBlankMatrix, hm]
      rfl
    | false => simp [fields?, isBlankMatrix, hm] at h
  | _ => cases h

theorem setField_of_no_fields (h : v.fields? = none) :
    v.setField (field :: path) new = .error (.setFieldOf field v.kind) := by
  cases v with
  | struct => cases h
  | matrix m =>
    cases hm : m.isEmpty with
    | true => simp [fields?, isBlankMatrix, hm] at h
    | false => simp [setField, isBlankMatrix, hm]
  | _ => rfl

theorem setField_cons_eq_ok : v.setField (field :: path) new = .ok w ↔ ∃ fields u, v.fields? = some fields ∧
    (entry fields field).setField path new = .ok u ∧ .struct (fields.insert field u) = w := by
  cases h : v.fields? with
  | none => simp [setField_of_no_fields h]
  | some fields => simp [setField_of_fields h, bind_eq_ok]

/-- A field can be set at the end of a path if there is a struct or an empty matrix wherever the path
comes through something. -/
theorem exists_setField : (∃ w, v.setField path new = .ok w) ↔
    ∀ q u, q <+: path → q ≠ path → v.read q = .ok u → u.Opens := by
  induction path generalizing v with
  | nil => exact iff_of_true ⟨new, rfl⟩ fun q u hq hne => absurd (List.prefix_nil.1 hq) hne
  | cons field path ih =>
    constructor
    · rintro ⟨w, h⟩ q u hq hne hu
      obtain ⟨fields, u', hf, hset, rfl⟩ := setField_cons_eq_ok.1 h
      cases q with
      | nil =>
        cases hu
        exact opens_iff.2 ⟨fields, hf⟩
      | cons f q =>
        obtain ⟨rfl, hprefix⟩ := List.cons_prefix_cons.1 hq
        obtain ⟨_, old, hf', hl, hu⟩ := read_cons_eq_ok.1 hu
        cases hf.symm.trans hf'
        refine ih.1 ⟨u', hset⟩ q u hprefix (fun h => hne (congrArg _ h)) ?_
        rwa [entry, hl]
    · intro h
      obtain ⟨fields, hf⟩ := opens_iff.1 (h [] v List.nil_prefix nofun rfl)
      obtain ⟨u, hu⟩ := @ih (entry fields field) |>.2 fun q u hq hne hu => by
        cases hl : fields.lookup field with
        | none =>
          -- the missing struct is made, and nothing is read behind it
          cases q with
          | nil =>
            rw [entry, hl] at hu
            cases hu
            exact opens_struct []
          | cons f q => exact absurd hu (read_entry hl nofun)
        | some old =>
          rw [entry, hl] at hu
          exact h (field :: q) u (List.cons_prefix_cons.2 ⟨rfl, hq⟩) (fun h => hne (List.cons.inj h).2)
            (read_cons_eq_ok.2 ⟨fields, old, hf, hl, hu⟩)
      exact ⟨_, setField_cons_eq_ok.2 ⟨fields, u, hf, hu, rfl⟩⟩

/-- What is set is read back. -/
theorem read_setField (h : v.setField path new = .ok w) : w.read path = .ok new := by
  induction path generalizing v w with
  | nil =>
    cases h
    rfl
  | cons field path ih =>
    obtain ⟨fields, u, hf, hu, rfl⟩ := setField_cons_eq_ok.1 h
    exact read_cons_eq_ok.2 ⟨_, u, rfl, Table.lookup_insert_self field u fields, ih hu⟩

/-- A path that leads elsewhere reads as before. -/
theorem read_setField_apart (h : v.setField path new = .ok w) (hq : ¬ q <+: path) (hp : ¬ path <+: q)
    (u : Value) : w.read q = .ok u ↔ v.read q = .ok u := by
  induction path generalizing v w q with
  | nil => exact absurd List.nil_prefix hp
  | cons field path ih =>
    obtain ⟨fields, new', hf, hset, rfl⟩ := setField_cons_eq_ok.1 h
    cases q with
    | nil => exact absurd List.nil_prefix hq
    | cons f q =>
      rw [read_cons_eq_ok, read_cons_eq_ok, hf]
      simp only [fields?, Option.some.injEq, exists_and_left, exists_eq_left']
      by_cases hfield : f = field
      · subst hfield
        have hq' : ¬ q <+: path := fun h => hq (List.cons_prefix_cons.2 ⟨rfl, h⟩)
        have hp' : ¬ path <+: q := fun h => hp (List.cons_prefix_cons.2 ⟨rfl, h⟩)
        have hne : q ≠ [] := fun h => hq' (h ▸ List.nil_prefix)
        have hread := ih hset hq' hp'
        simp only [Table.lookup_insert_self, Option.some.injEq, exists_eq_left', hread]
        cases hl : fields.lookup f with
        | none => simp [read_entry hl hne]
        | some old => simp [entry, hl]
      · rw [Table.lookup_insert_of_ne hfield]

/-- Of two values set at one path the later counts. -/
theorem setField_setField (h : v.setField path new = .ok w) (newer : Value) :
    w.setField path newer = v.setField path newer := by
  induction path generalizing v w with
  | nil => rfl
  | cons field path ih =>
    obtain ⟨fields, u, hf, hu, rfl⟩ := setField_cons_eq_ok.1 h
    rw [setField_of_fields hf, setField_of_fields rfl, entry_insert_self, ih hu]
    simp only [Table.insert_insert]

end Value

/-! ## Reading in a script -/

namespace Expr

open Value (read_cons read_nil readField_eq_ok_iff)

variable {s : Surroundings} {v w : Value} {target : Text} {path : List Text}

/-- `target.field.field`, with the fields of the path. -/
def fieldPath (target : Text) (path : List Text) : Expr := path.foldl .field (.name target)

theorem eval_foldl_field (e : Expr) : eval s (path.foldl .field e) = eval s e >>= (·.read path) := by
  induction path generalizing e with
  | nil => cases h : eval s e <;> simp [h, read_nil, bind, Except.bind]
  | cons field path ih =>
    rw [List.foldl_cons, ih, eval]
    cases eval s e <;> simp [read_cons, bind, Except.bind]

/-- A call without arguments gives nothing that has a field. -/
theorem readField_of_callName (h : callName s target [] = .ok v) (field : Text) : readField field v ≠ .ok w := by
  intro hread
  obtain ⟨fields, rfl, hmem⟩ := Value.readField_eq_ok hread
  unfold callName at h
  split at h
  · next f _ =>
    generalize hv : Value.struct fields = v at h
    cases Function.call_gives h with
    | @struct entries hargs =>
      have hnone : entries = [] := List.eq_nil_iff_forall_not_mem.2 fun p hp => List.not_mem_nil (hargs p hp)
      cases hv
      rw [hnone] at hmem
      exact List.not_mem_nil hmem
    | filled | blanks | mapped | paired =>
      unfold Value.ofMatrix at hv
      split at hv <;> cases hv
    | flagged =>
      unfold Value.ofFlags at hv
      split at hv <;> cases hv
    | _ => cases hv
  · cases h

end Expr

namespace Workspace

open Value (read_cons_eq_ok)
open Statement (within)

variable {w w' : Workspace} {s : Surroundings} {u v : Value} {target : Text} {path q : List Text}

/-- What the variable holds at the end of the path. -/
def Holds (w : Workspace) (target : Text) (path : List Text) (v : Value) : Prop :=
  ∃ held, w.lookup target = some held ∧ held.read path = .ok v

/-- The variables are the fields of a struct. -/
theorem holds_iff : w.Holds target path v ↔ (Value.struct w).read (target :: path) = .ok v := by
  rw [read_cons_eq_ok]
  simp [Holds, Value.fields?]

theorem setField_struct : (Value.struct w).setField (target :: path) v = (w.assign target path v).map .struct := by
  rw [Value.setField_of_fields rfl, assign]
  change (Value.entry w target).setField path v >>= _ = Except.map _ ((Value.entry w target).setField path v >>= _)
  cases (Value.entry w target).setField path v <;> rfl

theorem map_struct_inj {x y : Except Fault Workspace} (h : x.map Value.struct = y.map Value.struct) : x = y := by
  cases x <;> cases y <;> cases h <;> rfl

theorem assign_eq_ok : w.assign target path v = .ok w' ↔
    (Value.struct w).setField (target :: path) v = .ok (.struct w') := by
  rw [setField_struct]
  cases w.assign target path v <;> simp [Except.map]

/-- A path of fields is read from what the variable holds. -/
theorem eval_fieldPath_of_lookup {held : Value} (h : s.workspace.lookup target = some held) :
    Expr.eval s (Expr.fieldPath target q) = held.read q := by
  rw [Expr.fieldPath, Expr.eval_foldl_field, Expr.eval, h]
  rfl

/-- Where there is no variable, a path of fields reads nothing, even if the name is one of a function. -/
theorem eval_fieldPath (hq : q ≠ []) :
    Expr.eval s (Expr.fieldPath target q) = .ok u ↔ s.workspace.Holds target q u := by
  cases hl : s.workspace.lookup target with
  | some held => simp [eval_fieldPath_of_lookup hl, Holds, hl]
  | none =>
    refine iff_of_false (fun h => ?_) (by simp [Holds, hl])
    rw [Expr.fieldPath, Expr.eval_foldl_field, Expr.eval, hl] at h
    obtain ⟨v, hv, hread⟩ := bind_eq_ok.1 h
    obtain ⟨field, q, rfl⟩ := List.exists_cons_of_ne_nil hq
    obtain ⟨next, hnext, -⟩ := bind_eq_ok.1 (Value.read_cons ▸ hread)
    exact Expr.readField_of_callName hv field hnext

/-- Assigning to a path of fields succeeds exactly if in front of its end it comes through structs and empty
matrices only. Then the path reads as what is assigned, a path of the same variable that leads
elsewhere reads as before, the other variables stay, and a second assignment to the path gives what
it would have given without the first. -/
theorem assign_lens (w : Workspace) (target : Text) (path : List Text) (v : Value) :
    ((∃ w', w.assign target path v = .ok w') ↔
      ∀ q u, q <+: path → q ≠ path → w.Holds target q u → u.Opens) ∧
    ∀ w', w.assign target path v = .ok w' →
      (∀ s, Expr.eval (within s w') (Expr.fieldPath target path) = .ok v) ∧
      (∀ s q u, ¬ q <+: path → ¬ path <+: q →
        (Expr.eval (within s w') (Expr.fieldPath target q) = .ok u ↔
          Expr.eval (within s w) (Expr.fieldPath target q) = .ok u)) ∧
      (∀ n, n ≠ target → w'.lookup n = w.lookup n) ∧
      ∀ newer, w'.assign target path newer = w.assign target path newer := by
  refine ⟨?_, fun w' h => ?_⟩
  · have hset := @Value.exists_setField (.struct w) v (target :: path)
    constructor
    · rintro ⟨w', h⟩ q u hq hne hu
      refine hset.1 ⟨_, assign_eq_ok.1 h⟩ (target :: q) u (List.cons_prefix_cons.2 ⟨rfl, hq⟩)
        (fun h => hne (List.cons.inj h).2) (holds_iff.1 hu)
    · intro h
      obtain ⟨w₁, hw⟩ := hset.2 fun q u hq hne hu => by
        cases q with
        | nil =>
          cases hu
          exact Value.opens_struct w
        | cons n q =>
          obtain ⟨rfl, hprefix⟩ := List.cons_prefix_cons.1 hq
          exact h q u hprefix (fun h => hne (congrArg _ h)) (holds_iff.2 hu)
      obtain ⟨fields, entry, -, -, rfl⟩ := Value.setField_cons_eq_ok.1 hw
      exact ⟨_, assign_eq_ok.2 hw⟩
  · have hset := assign_eq_ok.1 h
    have hread := holds_iff.2 (Value.read_setField hset)
    refine ⟨fun s => ?_, fun s q u hq hp => ?_, fun n hn => ?_, fun newer => ?_⟩
    · obtain ⟨held, hl, hv⟩ := hread
      rw [eval_fieldPath_of_lookup hl, hv]
    · have hne : q ≠ [] := fun h => hq (h ▸ List.nil_prefix)
      rw [eval_fieldPath hne, eval_fieldPath hne]
      show w'.Holds target q u ↔ w.Holds target q u
      rw [holds_iff, holds_iff]
      exact Value.read_setField_apart hset (by simpa using hq) (by simpa using hp) u
    · obtain ⟨fields, u, hf, -, heq⟩ := Value.setField_cons_eq_ok.1 hset
      cases hf
      cases heq
      exact Table.lookup_insert_of_ne hn u w
    · have hmap := Value.setField_setField hset newer
      rw [setField_struct, setField_struct] at hmap
      exact map_struct_inj hmap

/-- An empty matrix becomes a struct when a field of a field of it is set. -/
theorem assign_lens_nested :
    let w : Workspace := [("a".toList, .empty)]
    ∃ w', w.assign "a".toList ["b".toList, "c".toList] (.logical true) = .ok w' ∧
      ∀ s, Expr.eval (within s w') (Expr.fieldPath "a".toList ["b".toList, "c".toList]) = .ok (.logical true) := by
  intro w
  obtain ⟨hsuccess, hlaws⟩ := assign_lens w "a".toList ["b".toList, "c".toList] (.logical true)
  obtain ⟨w', hw'⟩ := hsuccess.2 fun q u hq hne ⟨held, hl, hu⟩ => by
    cases hl
    cases q with
    | nil =>
      cases hu
      exact .inr rfl
    | cons field q => cases hu
  exact ⟨w', hw', (hlaws w' hw').1⟩

end Workspace

end ConfigScript
