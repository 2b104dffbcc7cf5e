/-!
# Tables in order of insertion

A finite map from names, kept as a list of pairs in which no name occurs twice.
Binding a name that is already present keeps its place; removing it and binding
it again moves it to the end. The laws say what each operation does to a look-up,
and what a binding does to the order of the names.
-/
namespace MacroScript

/-- Names with what they are bound to, first bound first. -/
@[ext] structure Table (α : Type) where
  entries : List (String × α)
  nodup : (entries.map Prod.fst).Nodup

namespace Table

variable {α : Type}

def empty : Table α := ⟨[], .nil⟩

/-- What a name is bound to. -/
def find? (table : Table α) (name : String) : Option α := table.entries.lookup name

def contains (table : Table α) (name : String) : Bool := (table.find? name).isSome

def names (table : Table α) : List String := table.entries.map Prod.fst

def size (table : Table α) : Nat := table.entries.length

/-- Replace the binding of a name, or add it behind all others. -/
def insertEntry (name : String) (value : α) : List (String × α) → List (String × α)
  | [] => [(name, value)]
  | entry :: entries =>
      if entry.1 = name then (name, value) :: entries
      else entry :: insertEntry name value entries

theorem names_insertEntry (name : String) (value : α) (entries : List (String × α)) :
    (insertEntry name value entries).map Prod.fst
      = if name ∈ entries.map Prod.fst then entries.map Prod.fst
        else entries.map Prod.fst ++ [name] := by
  induction entries with
  | nil => rfl
  | cons entry entries ih =>
      by_cases hk : entry.1 = name
      · simp [insertEntry, hk]
      · have : name ≠ entry.1 := fun h => hk h.symm
        simp only [insertEntry, hk, if_false, List.map_cons, ih, List.mem_cons, this, false_or]
        split <;> rfl

theorem nodup_insertEntry {name : String} {value : α} {entries : List (String × α)}
    (h : (entries.map Prod.fst).Nodup) : ((insertEntry name value entries).map Prod.fst).Nodup := by
  rw [names_insertEntry]
  split
  · exact h
  · rename_i hn
    rw [List.nodup_append]
    refine ⟨h, by simp, ?_⟩
    intro a ha b hb
    obtain rfl := List.mem_singleton.mp hb
    rintro rfl
    exact hn ha

def insert (table : Table α) (name : String) (value : α) : Table α :=
  ⟨insertEntry name value table.entries, nodup_insertEntry table.nodup⟩

def erase (table : Table α) (name : String) : Table α :=
  ⟨table.entries.filter fun entry => entry.1 != name,
    table.nodup.sublist (List.filter_sublist.map Prod.fst)⟩

theorem lookup_insertEntry (name other : String) (value : α) (entries : List (String × α)) :
    (insertEntry name value entries).lookup other
      = if other = name then some value else entries.lookup other := by
  induction entries with
  | nil =>
      by_cases h : other = name
      · simp [insertEntry, h]
      · have hb : (other == name) = false := by simpa using h
        simp [insertEntry, List.lookup_cons, hb, h]
  | cons entry entries ih =>
      obtain ⟨key, bound⟩ := entry
      by_cases hk : key = name
      · by_cases ho : other = name
        · simp [insertEntry, hk, ho]
        · have : (other == name) = false := by simpa using ho
          simp [insertEntry, hk, ho, List.lookup_cons, this]
      · by_cases ho : other = key
        · have : other ≠ name := fun h => hk (ho ▸ h)
          simp [insertEntry, hk, ho]
        · have hb : (other == key) = false := by simpa using ho
          simp [insertEntry, hk, List.lookup_cons, hb, ih]

@[simp] theorem find?_insert (table : Table α) (name other : String) (value : α) :
    (table.insert name value).find? other
      = if other = name then some value else table.find? other :=
  lookup_insertEntry name other value table.entries

theorem lookup_erase (name other : String) (entries : List (String × α)) :
    (entries.filter fun entry => entry.1 != name).lookup other
      = if other = name then none else entries.lookup other := by
  induction entries with
  | nil => simp
  | cons entry entries ih =>
      obtain ⟨key, bound⟩ := entry
      by_cases hk : key = name
      · subst hk
        by_cases ho : other = key
        · simpa [ho] using ih
        · have hb : (other == key) = false := by simpa using ho
          simpa [ho, List.lookup_cons, hb] using ih
      · by_cases ho : other = key
        · subst ho
          simp [hk]
        · have hb : (other == key) = false := by simpa using ho
          simpa [hk, List.lookup_cons, hb] using ih

@[simp] theorem find?_erase (table : Table α) (name other : String) :
    (table.erase name).find? other = if other = name then none else table.find? other :=
  lookup_erase name other table.entries

@[simp] theorem find?_empty (name : String) : (empty : Table α).find? name = none := rfl

theorem names_insert (table : Table α) (name : String) (value : α) :
    (table.insert name value).names
      = if name ∈ table.names then table.names else table.names ++ [name] :=
  names_insertEntry name value table.entries

theorem lookup_eq_none_iff {name : String} (entries : List (String × α)) :
    entries.lookup name = none ↔ name ∉ entries.map Prod.fst := by
  induction entries with
  | nil => simp
  | cons entry entries ih =>
      obtain ⟨key, bound⟩ := entry
      by_cases hk : name = key
      · simp [hk]
      · have hb : (name == key) = false := by simpa using hk
        simp [List.lookup_cons, hb, hk, ih]

theorem find?_eq_none_iff (table : Table α) (name : String) :
    table.find? name = none ↔ name ∉ table.names :=
  lookup_eq_none_iff table.entries

theorem contains_iff (table : Table α) (name : String) :
    table.contains name = true ↔ name ∈ table.names := by
  have h := table.find?_eq_none_iff name
  unfold contains
  cases hf : table.find? name with
  | none => simpa [hf] using h
  | some value => simpa [hf] using h

theorem contains_insert (table : Table α) (name other : String) (value : α) :
    (table.insert name value).contains other = true ↔
      other = name ∨ table.contains other = true := by
  unfold contains
  rw [find?_insert]
  by_cases h : other = name <;> simp [h]

theorem contains_erase (table : Table α) (name other : String) :
    (table.erase name).contains other = true ↔ other ≠ name ∧ table.contains other = true := by
  unfold contains
  rw [find?_erase]
  by_cases h : other = name <;> simp [h]

theorem erase_comm (table : Table α) (name other : String) :
    (table.erase name).erase other = (table.erase other).erase name := by
  simp [erase, List.filter_filter, Bool.and_comm]

/-- Removing a name that was not bound before it was inserted restores the table. -/
theorem erase_insert {table : Table α} {name : String} (value : α) (h : name ∉ table.names) :
    (table.insert name value).erase name = table := by
  have key : ∀ entries : List (String × α), name ∉ entries.map Prod.fst →
      (insertEntry name value entries).filter (fun entry => entry.1 != name) = entries := by
    intro entries
    induction entries with
    | nil => simp [insertEntry]
    | cons entry entries ih =>
        intro hn
        simp only [List.map_cons, List.mem_cons, not_or] at hn
        have hk : ¬ entry.1 = name := fun hk => hn.1 hk.symm
        simp [insertEntry, hk, ih hn.2]
  exact Table.ext (key table.entries h)

/-- The names are distinct and none of them is bound. -/
def Free (table : Table α) (names : List String) : Prop :=
  names.Nodup ∧ ∀ name ∈ names, ¬ table.contains name = true

def eraseAll (table : Table α) : List String → Table α
  | [] => table
  | name :: names => (table.erase name).eraseAll names

theorem eraseAll_erase (table : Table α) (name : String) (names : List String) :
    (table.erase name).eraseAll names = (table.eraseAll names).erase name := by
  induction names generalizing table with
  | nil => rfl
  | cons other names ih => rw [eraseAll, eraseAll, erase_comm, ih]

theorem contains_eraseAll (table : Table α) (names : List String) (other : String) :
    (table.eraseAll names).contains other = true ↔
      other ∉ names ∧ table.contains other = true := by
  induction names generalizing table with
  | nil => simp [eraseAll]
  | cons name names ih =>
      rw [eraseAll, ih, contains_erase, List.mem_cons, not_or]
      exact ⟨fun ⟨h, hn, hc⟩ => ⟨⟨hn, h⟩, hc⟩, fun ⟨⟨hn, h⟩, hc⟩ => ⟨h, hn, hc⟩⟩

theorem erase_insert_of_free {table : Table α} {name : String} (value : α)
    (h : ¬ table.contains name = true) : (table.insert name value).erase name = table :=
  erase_insert value fun hn => h ((table.contains_iff name).mpr hn)

theorem Free.insert {table : Table α} {name : String} {names : List String} (value : α)
    (h : table.Free (name :: names)) : (table.insert name value).Free names := by
  obtain ⟨hnodup, hfree⟩ := h
  rw [List.nodup_cons] at hnodup
  refine ⟨hnodup.2, fun other hother hc => ?_⟩
  rcases (contains_insert ..).mp hc with rfl | hc
  · exact hnodup.1 hother
  · exact hfree other (List.mem_cons_of_mem _ hother) hc

end Table
end MacroScript
