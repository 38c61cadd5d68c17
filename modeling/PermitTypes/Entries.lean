namespace PermitTypes.Entries

variable {κ α β : Type}

def names (entries : List (κ × α)) : List κ := entries.map (·.1)

variable [DecidableEq κ]

/-- A name that is there already keeps its place and takes the new value. -/
def put (name : κ) (value : α) : List (κ × α) → List (κ × α)
  | [] => [(name, value)]
  | (n, v) :: rest => if n = name then (n, value) :: rest else (n, v) :: put name value rest

theorem names_put (name : κ) (value : α) (entries : List (κ × α)) :
    names (put name value entries) =
      if name ∈ names entries then names entries else names entries ++ [name] := by
  induction entries with
  | nil => rfl
  | cons e rest ih =>
    obtain ⟨n, v⟩ := e
    by_cases h : n = name
    · subst h; simp [put, names]
    · have hn : name ≠ n := fun e => h e.symm
      simp only [put, if_neg h, names, List.map_cons, List.mem_cons, hn, false_or] at *
      rw [ih]
      by_cases hm : name ∈ List.map (·.1) rest <;> simp [hm]

theorem lookup_put (name : κ) (value : α) (entries : List (κ × α)) (other : κ) :
    (put name value entries).lookup other =
      if other = name then some value else entries.lookup other := by
  induction entries with
  | nil =>
    by_cases h : other = name
    · simp [put, h]
    · have hb : (other == name) = false := by simpa using h
      simp [put, List.lookup_cons, h, hb]
  | cons e rest ih =>
    obtain ⟨n, v⟩ := e
    by_cases h : n = name
    · subst h
      by_cases ho : other = n
      · simp [put, ho]
      · have hb : (other == n) = false := by simpa using ho
        simp [put, List.lookup_cons, ho, hb]
    · simp only [put, if_neg h, List.lookup_cons]
      by_cases ho : other = n
      · subst ho; simp [h]
      · have hb : (other == n) = false := by simpa using ho
        rw [hb]; exact ih

/-- Equality without regard to order, for entries whose names are distinct. -/
def agree (same : α → β → Bool) (left : List (κ × α)) (right : List (κ × β)) : Bool :=
  left.length == right.length &&
    left.all fun e => (right.lookup e.1).any (same e.2)

end PermitTypes.Entries
