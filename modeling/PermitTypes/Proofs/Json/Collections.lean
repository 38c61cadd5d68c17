import PermitTypes.Json.Form
import PermitTypes.Proofs.Entries
import PermitTypes.Proofs.Json.Objects

namespace PermitTypes.Json

open Grammar Meaning

variable {α : Type} {r : Reader α} {D E : Raw → Option α}

theorem outcome_listElements (r : Reader α) (D : Raw → Option α) (taken : List α)
    (ts : List Raw) :
    outcome (fun taken t => (D t).map (· :: taken)) (listElements r).finish taken ts =
      (ts.mapM D).map (taken.reverse ++ ·) := by
  induction ts generalizing taken with
  | nil => simp [outcome, listElements, Except.toOption]
  | cons t ts ih =>
      rw [outcome_cons, List.mapM_cons]
      cases D t with
      | none => rfl
      | some a =>
          simp only [Option.map_some, Option.bind_some, ih, Option.bind_eq_bind, Option.pure_def]
          cases ts.mapM D with
          | none => rfl
          | some as => simp

theorem listElements_steps (h : Reads r D E) :
    (listElements r).Steps (fun _ => True) (fun taken t => (D t).map (· :: taken))
      (fun taken t => (E t).map (· :: taken)) where
  start := trivial
  keeps _ _ := trivial
  stop h := by cases h
  reads {taken reader} _ hr := by
    cases hr
    exact h.map (· :: taken)

theorem meaning_listElements (r : Reader α) (D : Raw → Option α) :
    (listElements r).meaning (fun taken t => (D t).map (· :: taken)) = elements D := by
  funext t
  cases t with
  | array ts =>
      change outcome _ _ [] ts = ts.mapM D
      rw [outcome_listElements]
      exact Option.map_id'
  | _ => rfl

theorem mapM_below {β : Type} {f g : α → Option β} (h : ∀ {a b}, f a = some b → g a = some b)
    {as : List α} {bs : List β} (hbs : as.mapM f = some bs) : as.mapM g = some bs := by
  induction as generalizing bs with
  | nil => exact hbs
  | cons a as ih =>
      rw [List.mapM_cons] at hbs ⊢
      obtain ⟨b, hb, hbs⟩ := Option.bind_eq_some_iff.1 hbs
      obtain ⟨cs, hcs, hbs⟩ := Option.bind_eq_some_iff.1 hbs
      exact Option.bind_eq_some_iff.2 ⟨b, h hb, Option.bind_eq_some_iff.2 ⟨cs, ih hcs, hbs⟩⟩

theorem elements_below (h : ∀ {t a}, D t = some a → E t = some a) {t : Raw} {as : List α}
    (has : elements D t = some as) : elements E t = some as := by
  cases t with
  | array ts => exact mapM_below h has
  | _ => cases has

theorem Reads.listElements (h : Reads r D E) :
    ReadsInside '[' (listElements r).reader (elements D) (elements E) := by
  rw [← meaning_listElements r D, ← meaning_listElements r E]
  exact Elements.readsInside (listElements_steps h)

/-- Entries put in the order of a text leave each name at its first place with its last value. -/
theorem lastValues_eq_puts (entries : List (String × α)) :
    lastValues entries = Entries.puts [] entries := by
  have hnil : (Entries.names ([] : List (String × α))).Nodup := List.nodup_nil
  have hnodup := Entries.nodup_names_puts hnil entries
  rw [lastValues, ← Entries.filterMap_lookup_of_nodup hnodup, Entries.names_puts_nil]
  simp only [Entries.lookup_puts_nil]
  rfl

theorem outcome_mapMembers (r : Reader α) (D : Raw → Option α) (taken : List (String × α))
    (items : List (String × Raw)) :
    outcome (fun taken m => (D m.2).map fun a => Entries.put m.1 a taken) (mapMembers r).finish
        taken items =
      (items.mapM fun m => (D m.2).map fun a => (m.1, a)).map (Entries.puts taken) := by
  induction items generalizing taken with
  | nil => rfl
  | cons m items ih =>
      rw [outcome_cons, List.mapM_cons]
      cases D m.2 with
      | none => rfl
      | some a =>
          simp only [Option.map_some, Option.bind_some, ih, Option.bind_eq_bind, Option.pure_def]
          cases items.mapM fun m => (D m.2).map fun a => (m.1, a) with
          | none => rfl
          | some as => rfl

theorem mapMembers_steps (h : Reads r D E) :
    (mapMembers r).Steps (fun taken m => (D m.2).map fun a => Entries.put m.1 a taken)
      (fun taken m => (E m.2).map fun a => Entries.put m.1 a taken) where
  stop h := by cases h
  reads {taken name reader} hr := by
    cases hr
    exact h.map fun a => Entries.put name a taken

theorem meaning_mapMembers (r : Reader α) (D : Raw → Option α) :
    (mapMembers r).meaning (fun taken m => (D m.2).map fun a => Entries.put m.1 a taken) =
      entries D := by
  funext t
  cases t with
  | object ms =>
      rw [entries_object]
      refine Option.bind_congr fun items _ => ?_
      rw [funext lastValues_eq_puts]
      exact outcome_mapMembers r D [] items
  | _ => rfl

theorem entries_below (h : ∀ {t a}, D t = some a → E t = some a) {t : Raw}
    {es : List (String × α)} (hes : entries D t = some es) : entries E t = some es := by
  cases t with
  | object ms =>
      obtain ⟨items, hitems, hes⟩ := Option.bind_eq_some_iff.1 hes
      obtain ⟨values, hvalues, hes⟩ := Option.bind_eq_some_iff.1 hes
      refine Option.bind_eq_some_iff.2 ⟨items, hitems,
        Option.bind_eq_some_iff.2 ⟨values, mapM_below ?_ hvalues, hes⟩⟩
      intro m value hm
      obtain ⟨a, ha, rfl⟩ := Option.map_eq_some_iff.1 hm
      exact Option.map_eq_some_iff.2 ⟨a, h ha, rfl⟩
  | _ => cases hes

theorem Reads.mapMembers (h : Reads r D E) :
    ReadsInside '{' (mapMembers r).reader (entries D) (entries E) := by
  rw [← meaning_mapMembers r D, ← meaning_mapMembers r E]
  exact Members.readsInside (mapMembers_steps h)

end PermitTypes.Json
