import Mathlib.Data.List.Induction
import Mathlib.Data.List.Nodup
import PermitTypes.Entries

namespace PermitTypes.Entries

variable {κ α : Type}

theorem names_cons (e : κ × α) (entries : List (κ × α)) :
    names (e :: entries) = e.1 :: names entries :=
  rfl

theorem names_append (a b : List (κ × α)) : names (a ++ b) = names a ++ names b :=
  List.map_append

variable [DecidableEq κ]

theorem lookup_eq_none_iff {name : κ} {entries : List (κ × α)} :
    entries.lookup name = none ↔ name ∉ names entries := by
  rw [List.lookup_eq_none_iff]
  simp only [names, List.mem_map, not_exists, not_and]
  exact forall₂_congr fun e _ => bne_iff_ne.trans ne_comm

theorem lookup_cons_self (name : κ) (a : α) (entries : List (κ × α)) :
    ((name, a) :: entries).lookup name = some a :=
  List.lookup_cons_self

theorem lookup_cons_of_ne {name : κ} {e : κ × α} (h : name ≠ e.1)
    (entries : List (κ × α)) : (e :: entries).lookup name = entries.lookup name := by
  rw [List.lookup_cons, beq_false_of_ne h]

theorem mem_of_lookup {name : κ} {a : α} {entries : List (κ × α)}
    (h : entries.lookup name = some a) : (name, a) ∈ entries := by
  induction entries with
  | nil => cases h
  | cons e entries ih =>
      obtain ⟨m, b⟩ := e
      by_cases hm : name = m
      · subst hm
        rw [lookup_cons_self] at h
        cases h
        exact List.mem_cons_self
      · rw [lookup_cons_of_ne hm] at h
        exact List.mem_cons_of_mem _ (ih h)

theorem lookup_of_mem {entries : List (κ × α)} (h : (names entries).Nodup) {e : κ × α}
    (he : e ∈ entries) : entries.lookup e.1 = some e.2 := by
  induction entries with
  | nil => cases he
  | cons first entries ih =>
      obtain ⟨hfirst, hrest⟩ := List.nodup_cons.1 h
      rcases List.mem_cons.1 he with rfl | he
      · exact lookup_cons_self ..
      · rw [lookup_cons_of_ne, ih hrest he]
        exact fun heq => hfirst (List.mem_map.2 ⟨e, he, heq⟩)

theorem lookup_map {β : Type} (f : α → β) (entries : List (κ × α)) (name : κ) :
    (entries.map fun e => (e.1, f e.2)).lookup name = (entries.lookup name).map f := by
  induction entries with
  | nil => rfl
  | cons e entries ih =>
      obtain ⟨n, a⟩ := e
      rw [List.map_cons]
      by_cases h : name = n
      · subst h
        rw [lookup_cons_self, lookup_cons_self]
        rfl
      · rw [lookup_cons_of_ne h, lookup_cons_of_ne h, ih]

theorem filterMap_lookup_of_nodup {entries : List (κ × α)} (h : (names entries).Nodup) :
    ((names entries).filterMap fun name => (entries.lookup name).map fun a => (name, a)) =
      entries := by
  induction entries with
  | nil => rfl
  | cons e entries ih =>
      obtain ⟨n, v⟩ := e
      obtain ⟨hn, hnodup⟩ := List.nodup_cons.1 h
      rw [names_cons, List.filterMap_cons, lookup_cons_self]
      have hrest : ∀ name ∈ names entries,
          ((n, v) :: entries).lookup name = entries.lookup name := by
        intro name hname
        have hne : name ≠ n := by
          rintro rfl
          exact hn hname
        exact lookup_cons_of_ne hne entries
      refine congrArg ((n, v) :: ·) ((List.filterMap_congr fun name hname => ?_).trans (ih hnodup))
      rw [hrest name hname]

theorem put_of_not_mem {name : κ} {entries : List (κ × α)} (h : name ∉ names entries)
    (a : α) : put name a entries = entries ++ [(name, a)] := by
  induction entries with
  | nil => rfl
  | cons e entries ih =>
      rw [names_cons, List.mem_cons, not_or] at h
      rw [put, if_neg (Ne.symm h.1), ih h.2]
      rfl

theorem nodup_names_put {entries : List (κ × α)} (h : (names entries).Nodup) (name : κ)
    (a : α) : (names (put name a entries)).Nodup := by
  rw [names_put]
  by_cases hm : name ∈ names entries
  · rwa [if_pos hm]
  · rw [if_neg hm]
    exact List.nodup_append_comm.1 (List.nodup_cons.2 ⟨hm, h⟩)

/-- Entries put one after the other. -/
def puts (start entries : List (κ × α)) : List (κ × α) :=
  entries.foldl (fun taken e => put e.1 e.2 taken) start

theorem puts_concat (start entries : List (κ × α)) (e : κ × α) :
    puts start (entries ++ [e]) = put e.1 e.2 (puts start entries) :=
  List.foldl_concat ..

theorem nodup_names_puts {start : List (κ × α)} (h : (names start).Nodup)
    (entries : List (κ × α)) : (names (puts start entries)).Nodup := by
  induction entries using List.reverseRecOn with
  | nil => exact h
  | append_singleton entries e ih =>
      rw [puts_concat]
      exact nodup_names_put ih e.1 e.2

theorem puts_of_nodup {start entries : List (κ × α)}
    (h : (names (start ++ entries)).Nodup) : puts start entries = start ++ entries := by
  induction entries generalizing start with
  | nil => exact (List.append_nil start).symm
  | cons e entries ih =>
      have hmem : e.1 ∉ names start := by
        rw [names_append, names_cons] at h
        exact fun hm => (List.nodup_append.1 h).2.2 _ hm _ List.mem_cons_self rfl
      rw [List.append_cons] at h ⊢
      rw [← ih h, ← put_of_not_mem hmem]
      rfl

theorem lookup_puts_nil (entries : List (κ × α)) (name : κ) :
    (puts [] entries).lookup name = entries.reverse.lookup name := by
  induction entries using List.reverseRecOn with
  | nil => rfl
  | append_singleton entries e ih =>
      rw [puts_concat, lookup_put, ih, List.reverse_concat]
      by_cases h : name = e.1
      · subst h
        rw [if_pos rfl]
        exact (lookup_cons_self e.1 e.2 _).symm
      · rw [if_neg h, lookup_cons_of_ne h]

theorem names_puts_nil (entries : List (κ × α)) :
    names (puts [] entries) = (names entries).eraseDups := by
  induction entries using List.reverseRecOn with
  | nil => rfl
  | append_singleton entries e ih =>
      have hmem : e.1 ∈ names (puts [] entries) ↔ e.1 ∈ names entries := by
        rw [ih, List.mem_eraseDups]
      rw [puts_concat, names_put, names_append, List.eraseDups_append]
      by_cases h : e.1 ∈ names entries
      · have hr : (names [e]).removeAll (names entries) = [] := by
          simpa [names, List.removeAll] using h
        rw [if_pos (hmem.2 h), ih, hr]
        exact (List.append_nil _).symm
      · have hr : (names [e]).removeAll (names entries) = [e.1] := by
          simpa [names, List.removeAll] using h
        rw [if_neg (mt hmem.1 h), ih, hr]
        rfl

theorem mem_of_mem_put {name : κ} {a : α} {entries : List (κ × α)} {e : κ × α}
    (h : e ∈ put name a entries) : e = (name, a) ∨ e ∈ entries := by
  induction entries with
  | nil => exact .inl (List.mem_singleton.1 h)
  | cons e' entries ih =>
      obtain ⟨n, b⟩ := e'
      by_cases hn : n = name
      · subst hn
        rw [put, if_pos rfl] at h
        rcases List.mem_cons.1 h with rfl | h
        · exact .inl rfl
        · exact .inr (List.mem_cons_of_mem _ h)
      · rw [put, if_neg hn] at h
        rcases List.mem_cons.1 h with rfl | h
        · exact .inr List.mem_cons_self
        · exact (ih h).imp id (List.mem_cons_of_mem _)

theorem mem_of_mem_puts {entries : List (κ × α)} {e : κ × α}
    (h : e ∈ puts [] entries) : e ∈ entries := by
  induction entries using List.reverseRecOn with
  | nil => exact h
  | append_singleton entries e' ih =>
      rw [puts_concat] at h
      rcases mem_of_mem_put h with rfl | h
      · exact List.mem_append_right _ List.mem_cons_self
      · exact List.mem_append_left _ (ih h)

end PermitTypes.Entries
