import ConfigScript.Text.Basic
/-!
# Tables

A table maps names to entries and is kept in order of the names, by code points, which is also
the order of their UTF-8 bytes. Reading one is `List.lookup`.
-/

namespace ConfigScript

abbrev Table (α : Type) := List (Text × α)

namespace Table

variable {α : Type}

/-- Adds an entry, or replaces the one of that name. -/
def insert (name : Text) (entry : α) : Table α → Table α
  | [] => [(name, entry)]
  | (n, e) :: rest =>
    match compare name n with
    | .lt => (name, entry) :: (n, e) :: rest
    | .eq => (name, entry) :: rest
    | .gt => (n, e) :: insert name entry rest

def contains (name : Text) (t : Table α) : Bool := (t.lookup name).isSome

def names (t : Table α) : List Text := t.map (·.1)

/-- A table with these entries; of two with one name the later counts. -/
def ofList (entries : List (Text × α)) : Table α :=
  entries.foldl (fun t (name, entry) => insert name entry t) []

/-- Names strictly increase. -/
def Sorted (t : Table α) : Prop := (names t).Pairwise (compare · · = .lt)

theorem compare_eq_iff {a b : Text} : compare a b = .eq ↔ a = b :=
  Std.LawfulEqOrd.compare_eq_iff_eq

theorem lookup_insert_self (name : Text) (entry : α) (t : Table α) :
    (insert name entry t).lookup name = some entry := by
  induction t with
  | nil => simp [insert]
  | cons p rest ih =>
    obtain ⟨n, e⟩ := p
    unfold insert
    split
    · simp
    · simp
    · next h =>
      have : (name == n) = false := by
        apply beq_eq_false_iff_ne.2
        rintro rfl
        simp at h
      simp [List.lookup_cons, this, ih]

theorem lookup_insert_of_ne {name other : Text} (h : other ≠ name) (entry : α) (t : Table α) :
    (insert name entry t).lookup other = t.lookup other := by
  have ho : (other == name) = false := beq_eq_false_iff_ne.2 h
  induction t with
  | nil => simp [insert, List.lookup_cons, ho]
  | cons p rest ih =>
    obtain ⟨n, e⟩ := p
    unfold insert
    split
    · simp [List.lookup_cons, ho]
    · next hc =>
      cases compare_eq_iff.1 hc
      simp [List.lookup_cons, ho]
    · simp [List.lookup_cons, ih]

theorem mem_of_lookup {name : Text} {entry : α} {t : Table α} (h : t.lookup name = some entry) :
    (name, entry) ∈ t := by
  obtain ⟨front, rest, rfl, -⟩ := List.lookup_eq_some_iff.1 h
  simp

theorem lookup_eq_none_iff {name : Text} {t : Table α} : t.lookup name = none ↔ name ∉ names t := by
  rw [List.lookup_eq_none_iff]
  constructor
  · intro h hm
    obtain ⟨p, hp, rfl⟩ := List.mem_map.1 hm
    simpa using h p hp
  · intro h p hp
    apply bne_iff_ne.2
    rintro rfl
    exact h (List.mem_map_of_mem hp)

/-- No name stands twice in a table in order, so reading it finds every entry. -/
theorem lookup_eq_some_iff {t : Table α} (hs : Sorted t) {name : Text} {entry : α} :
    t.lookup name = some entry ↔ (name, entry) ∈ t := by
  refine ⟨mem_of_lookup, fun hm => ?_⟩
  induction t with
  | nil => cases hm
  | cons p rest ih =>
    obtain ⟨n, e⟩ := p
    obtain ⟨hfirst, hrest⟩ := List.pairwise_cons.1 hs
    rcases List.mem_cons.1 hm with heq | hm
    · cases heq
      simp
    · have hlt : compare n name = .lt := hfirst name (List.mem_map_of_mem hm)
      have hne : (name == n) = false := by
        apply beq_eq_false_iff_ne.2
        rintro rfl
        simp at hlt
      rw [List.lookup_cons, hne]
      exact ih hrest hm

theorem mem_names_insert {name n : Text} {entry : α} {t : Table α} :
    n ∈ names (insert name entry t) ↔ n = name ∨ n ∈ names t := by
  induction t with
  | nil => simp [insert, names]
  | cons p rest ih =>
    obtain ⟨m, e⟩ := p
    unfold insert
    split
    · simp [names]
    · next hc =>
      cases compare_eq_iff.1 hc
      simp [names]
    · simp only [names, List.map_cons, List.mem_cons] at ih ⊢
      rw [ih]
      exact or_left_comm

theorem Sorted.insert {t : Table α} (hs : Sorted t) (name : Text) (entry : α) :
    Sorted (insert name entry t) := by
  induction t with
  | nil => simp [Table.insert, Sorted, names]
  | cons p rest ih =>
    obtain ⟨n, e⟩ := p
    obtain ⟨hfirst, hrest⟩ := List.pairwise_cons.1 hs
    unfold Table.insert
    split
    · next hc =>
      refine List.pairwise_cons.2 ⟨fun m hm => ?_, hs⟩
      rcases List.mem_cons.1 hm with rfl | hm
      · exact hc
      · exact Std.TransCmp.lt_trans hc (hfirst m hm)
    · next hc =>
      cases compare_eq_iff.1 hc
      exact List.pairwise_cons.2 ⟨hfirst, hrest⟩
    · next hc =>
      refine List.pairwise_cons.2 ⟨fun m hm => ?_, ih hrest⟩
      rcases mem_names_insert.1 hm with rfl | hm
      · exact Std.OrientedCmp.lt_of_gt hc
      · exact hfirst m hm

theorem sorted_nil : Sorted ([] : Table α) := .nil

theorem mem_insert {name : Text} {entry : α} {t : Table α} {p : Text × α} (h : p ∈ insert name entry t) :
    p = (name, entry) ∨ p ∈ t := by
  induction t with
  | nil => exact .inl (List.mem_singleton.1 h)
  | cons q rest ih =>
    obtain ⟨m, e⟩ := q
    unfold insert at h
    split at h
    · exact List.mem_cons.1 h
    · rcases List.mem_cons.1 h with h | h
      · exact .inl h
      · exact .inr (List.mem_cons_of_mem _ h)
    · rcases List.mem_cons.1 h with h | h
      · exact .inr (h ▸ List.mem_cons_self)
      · exact (ih h).imp_right (List.mem_cons_of_mem _)

theorem insert_last {name : Text} {t : Table α} (h : ∀ n ∈ names t, compare n name = .lt) (entry : α) :
    insert name entry t = t ++ [(name, entry)] := by
  induction t with
  | nil => rfl
  | cons p rest ih =>
    obtain ⟨n, e⟩ := p
    have hn : compare name n = .gt := by
      rw [Std.OrientedOrd.eq_swap, h n List.mem_cons_self]
      rfl
    unfold insert
    rw [hn]
    exact congrArg _ (ih fun m hm => h m (List.mem_cons_of_mem _ hm))

/-- A table is made of its own entries. -/
theorem ofList_of_sorted {t : Table α} (h : Sorted t) : ofList t = t := by
  suffices key : ∀ front back : Table α, Sorted (front ++ back) →
      back.foldl (fun t (name, entry) => insert name entry t) front = front ++ back from key [] t h
  intro front back
  induction back generalizing front with
  | nil => simp
  | cons p back ih =>
    intro hs
    obtain ⟨name, entry⟩ := p
    have hlast : insert name entry front = front ++ [(name, entry)] := by
      refine insert_last (fun n hn => ?_) _
      unfold Sorted names at hs
      rw [List.map_append, List.pairwise_append] at hs
      exact hs.2.2 n hn name List.mem_cons_self
    have hih := ih (front ++ [(name, entry)]) (by simpa using hs)
    simp only [List.foldl_cons, hlast, hih, List.append_assoc, List.singleton_append]

end Table

end ConfigScript
