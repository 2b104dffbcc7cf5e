import MacroScript.Table

/-!
# Tables under a map of what is bound

How the values of a table can be replaced all at once, and how that and the
removal of names go together with the other operations. The order of the names
is part of a table, so these are equations between tables. What is found in a
table and the order of its names determine it.
-/
namespace MacroScript.Table

variable {α β : Type} {table : Table α} {name other : String} {names : List String} {value : α}
  {f : α → β}

/-- The table with everything that is bound replaced. -/
def map (f : α → β) (table : Table α) : Table β where
  entries := table.entries.map fun entry => (entry.1, f entry.2)
  nodup := by
    have h : (table.entries.map fun entry => (entry.1, f entry.2)).map Prod.fst =
        table.entries.map Prod.fst := by simp
    rw [h]
    exact table.nodup

theorem find?_map : (table.map f).find? name = (table.find? name).map f := by
  unfold find? map
  dsimp only
  induction table.entries with
  | nil => rfl
  | cons entry entries ih =>
      rw [List.map_cons, List.lookup_cons, List.lookup_cons, ih]
      cases name == entry.1 <;> rfl

theorem map_insert : (table.insert name value).map f = (table.map f).insert name (f value) := by
  have hentries : ∀ entries : List (String × α),
      (insertEntry name value entries).map (fun entry => (entry.1, f entry.2)) =
        insertEntry name (f value) (entries.map fun entry => (entry.1, f entry.2)) := by
    intro entries
    induction entries with
    | nil => rfl
    | cons entry entries ih =>
        by_cases h : entry.1 = name
        · simp [insertEntry, h]
        · simp [insertEntry, h, ih]
  exact Table.ext (hentries table.entries)

theorem map_erase : (table.erase name).map f = (table.map f).erase name := by
  refine Table.ext ?_
  simp only [map, erase, List.filter_map, Function.comp_def]

theorem map_eq_self {f : α → α} (h : ∀ name value, table.find? name = some value → f value = value) :
    table.map f = table := by
  have hentries : ∀ entries : List (String × α), (entries.map Prod.fst).Nodup →
      (∀ name value, entries.lookup name = some value → f value = value) →
      entries.map (fun entry => (entry.1, f entry.2)) = entries := by
    intro entries
    induction entries with
    | nil => exact fun _ _ => rfl
    | cons entry entries ih =>
        intro hnodup hall
        obtain ⟨key, bound⟩ := entry
        rw [List.map_cons, List.nodup_cons] at hnodup
        have hfirst : f bound = bound := hall key bound (by simp)
        have hrest : ∀ name value, entries.lookup name = some value → f value = value := by
          intro name value hfind
          refine hall name value ?_
          have hne : (name == key) = false := by
            refine beq_false_of_ne ?_
            rintro rfl
            rw [(lookup_eq_none_iff entries).mpr hnodup.1] at hfind
            cases hfind
          rw [List.lookup_cons, hne]
          exact hfind
        rw [List.map_cons, hfirst, ih hnodup.2 hrest]
  exact Table.ext (hentries table.entries table.nodup h)

theorem of_mem_insert {entry : String × α} (h : entry ∈ (table.insert name value).entries) :
    entry = (name, value) ∨ entry ∈ table.entries := by
  have hentries : ∀ entries : List (String × α), entry ∈ insertEntry name value entries →
      entry = (name, value) ∨ entry ∈ entries := by
    intro entries
    induction entries with
    | nil => simp [insertEntry]
    | cons first entries ih =>
        intro hmem
        by_cases hname : first.1 = name
        · rw [insertEntry, if_pos hname] at hmem
          exact (List.mem_cons.mp hmem).imp_right (List.mem_cons_of_mem first)
        · rw [insertEntry, if_neg hname] at hmem
          obtain rfl | hmem := List.mem_cons.mp hmem
          · exact .inr List.mem_cons_self
          · exact (ih hmem).imp_right (List.mem_cons_of_mem first)
  exact hentries table.entries h

/-- What is found behind an insertion is new or was there. -/
theorem of_find?_insert {value' : α} (h : (table.insert name value).find? other = some value') :
    (other = name ∧ value' = value) ∨ table.find? other = some value' := by
  rw [find?_insert] at h
  split at h
  case isTrue hother => exact .inl ⟨hother, (Option.some.inj h).symm⟩
  case isFalse => exact .inr h

theorem of_find?_erase {value' : α} (h : (table.erase name).find? other = some value') :
    table.find? other = some value' := by
  rw [find?_erase] at h
  split at h
  case isTrue => cases h
  case isFalse => exact h

theorem names_map : (table.map f).names = table.names := by
  simp [names, map]

/-- A table is what is found in it, and the order of the names. -/
theorem eq_of_find?_eq {table table' : Table α} (hnames : table.names = table'.names)
    (hfind : ∀ name, table.find? name = table'.find? name) : table = table' := by
  have hentries : ∀ entries entries' : List (String × α),
      entries.map Prod.fst = entries'.map Prod.fst → (entries.map Prod.fst).Nodup →
      (∀ name, entries.lookup name = entries'.lookup name) → entries = entries' := by
    intro entries
    induction entries with
    | nil => exact fun entries' hkeys _ _ => (List.map_eq_nil_iff.mp hkeys.symm).symm
    | cons entry entries ih =>
        intro entries' hkeys hnodup hall
        cases entries' with
        | nil => cases hkeys
        | cons entry' entries' =>
            obtain ⟨key, value⟩ := entry
            obtain ⟨key', value'⟩ := entry'
            rw [List.map_cons, List.map_cons, List.cons.injEq] at hkeys
            obtain ⟨rfl, hkeys⟩ := hkeys
            rw [List.map_cons, List.nodup_cons] at hnodup
            have hvalue : value = value' := by simpa using hall key
            have hrest : ∀ name, entries.lookup name = entries'.lookup name := by
              intro name
              by_cases hname : name = key
              · subst hname
                rw [(lookup_eq_none_iff entries).mpr hnodup.1,
                  (lookup_eq_none_iff entries').mpr (hkeys ▸ hnodup.1)]
              · simpa [List.lookup_cons, beq_false_of_ne hname] using hall name
            rw [hvalue, ih entries' hkeys hnodup.2 hrest]
  exact Table.ext (hentries table.entries table'.entries hnames table.nodup hfind)

theorem find?_eraseAll :
    (table.eraseAll names).find? name = if name ∈ names then none else table.find? name := by
  induction names generalizing table with
  | nil => simp [eraseAll]
  | cons other names ih =>
      rw [eraseAll, ih, find?_erase]
      by_cases h : name = other <;> simp [h]

theorem erase_insert_of_ne (h : name ≠ other) :
    (table.insert name value).erase other = (table.erase other).insert name value := by
  have hentries : ∀ entries : List (String × α),
      (insertEntry name value entries).filter (fun entry => entry.1 != other) =
        insertEntry name value (entries.filter fun entry => entry.1 != other) := by
    intro entries
    induction entries with
    | nil => simp [insertEntry, h]
    | cons entry entries ih =>
        by_cases hname : entry.1 = name
        · simp [insertEntry, hname, h]
        · rw [insertEntry, if_neg hname]
          by_cases hother : entry.1 = other
          · rw [List.filter_cons_of_neg (by simp [hother]), List.filter_cons_of_neg (by simp [hother]),
              ih]
          · rw [List.filter_cons_of_pos (by simp [hother]), List.filter_cons_of_pos (by simp [hother]),
              ih, insertEntry, if_neg hname]
  exact Table.ext (hentries table.entries)

theorem eraseAll_insert_of_not_mem (h : name ∉ names) :
    (table.insert name value).eraseAll names = (table.eraseAll names).insert name value := by
  induction names generalizing table with
  | nil => rfl
  | cons other names ih =>
      rw [List.mem_cons, not_or] at h
      rw [eraseAll, eraseAll, erase_insert_of_ne h.1, ih h.2]

end MacroScript.Table
