import PermitTypes.Json.Record
import PermitTypes.Proofs.Json.Collections

namespace PermitTypes.Json.Record

open Grammar Meaning

variable {δ α : Type}

/-- A draft into which the given parts have been put, in the order of the names. -/
def assemble (D : String → Raw → Option (δ → δ)) (given : String → Option Raw) :
    List String → δ → Option δ
  | [], d => some d
  | name :: names, d =>
    match given name with
    | none => assemble D given names d
    | some t => (D name t).bind fun set => assemble D given names (set d)

def Commute (D : String → Raw → Option (δ → δ)) (n n' : String) : Prop :=
  ∀ {t t' set set'}, D n t = some set → D n' t' = some set' → ∀ d, set (set' d) = set' (set d)

theorem Commute.of_map {β γ : Type} {D : String → Raw → Option (δ → δ)} {n n' : String}
    {M : Raw → Option β} {M' : Raw → Option γ} {f : β → δ → δ} {f' : γ → δ → δ}
    (h : ∀ t, D n t = (M t).map f) (h' : ∀ t, D n' t = (M' t).map f')
    (hc : ∀ b c d, f b (f' c d) = f' c (f b d)) : Commute D n n' := by
  intro t t' set set' hset hset' d
  rw [h] at hset
  rw [h'] at hset'
  obtain ⟨b, -, rfl⟩ := Option.map_eq_some_iff.1 hset
  obtain ⟨c, -, rfl⟩ := Option.map_eq_some_iff.1 hset'
  exact hc b c d

section

variable {D E : String → Raw → Option (δ → δ)} {given given' : String → Option Raw}
  {names : List String}

theorem assemble_of_none {name : String} (h : given name = none) (d : δ) :
    assemble D given (name :: names) d = assemble D given names d := by
  simp only [assemble, h]

theorem assemble_of_some {name : String} {t : Raw} (h : given name = some t) (d : δ) :
    assemble D given (name :: names) d =
      (D name t).bind fun set => assemble D given names (set d) := by
  simp only [assemble, h]

/-- An absent part is as good as one with a value that the draft has already. -/
theorem assemble_default {β : Type} {name : String} {M : Raw → Option β} {f : β → δ → δ}
    {a : β} {d : δ} (hD : ∀ t, D name t = (M t).map f) (hd : f a d = d) :
    assemble D given (name :: names) d =
      (withDefault a M (given name)).bind fun a => assemble D given names (f a d) := by
  cases hg : given name with
  | none =>
      rw [assemble_of_none hg, withDefault, Option.bind_some, hd]
  | some t =>
      rw [assemble_of_some hg, hD, withDefault, Option.bind_map]
      rfl

theorem assemble_congr (h : ∀ name ∈ names, given name = given' name) (d : δ) :
    assemble D given names d = assemble D given' names d := by
  induction names generalizing d with
  | nil => rfl
  | cons name names ih =>
      have hn := h name List.mem_cons_self
      have ih' := ih fun n hn => h n (List.mem_cons_of_mem name hn)
      cases hg : given name with
      | none => rw [assemble_of_none hg, assemble_of_none (hn ▸ hg), ih']
      | some t =>
          rw [assemble_of_some hg, assemble_of_some (hn ▸ hg)]
          exact Option.bind_congr fun set _ => ih' (set d)

theorem assemble_nothing (h : ∀ name ∈ names, given name = none) (d : δ) :
    assemble D given names d = some d := by
  induction names with
  | nil => rfl
  | cons name names ih =>
      rw [assemble_of_none (h name List.mem_cons_self)]
      exact ih fun n hn => h n (List.mem_cons_of_mem name hn)

theorem assemble_below (h : ∀ name ∈ names, ∀ {t set}, D name t = some set → E name t = some set)
    {d d' : δ} (hd : assemble D given names d = some d') :
    assemble E given names d = some d' := by
  induction names generalizing d with
  | nil => exact hd
  | cons name names ih =>
      have ih' := fun d => @ih (fun n hn => h n (List.mem_cons_of_mem name hn)) d
      cases hg : given name with
      | none =>
          rw [assemble_of_none hg] at hd ⊢
          exact ih' d hd
      | some t =>
          rw [assemble_of_some hg] at hd ⊢
          obtain ⟨set, hset, hd⟩ := Option.bind_eq_some_iff.1 hd
          rw [h name List.mem_cons_self hset]
          exact ih' (set d) hd

/-- A part may as well be put in before all others. -/
theorem assemble_first (hnodup : names.Nodup) (hcomm : names.Pairwise (Commute D)) {name : String}
    {t : Raw} (hmem : name ∈ names) (hnone : given name = none) (ht : given' name = some t)
    (h : ∀ n, n ≠ name → given' n = given n) (d : δ) :
    assemble D given' names d = (D name t).bind fun set => assemble D given names (set d) := by
  induction names generalizing d with
  | nil => cases hmem
  | cons n names ih =>
      obtain ⟨hn, hnodup⟩ := List.nodup_cons.1 hnodup
      obtain ⟨hcomm, hcomm'⟩ := List.pairwise_cons.1 hcomm
      by_cases he : n = name
      · subst he
        rw [assemble_of_some ht]
        refine Option.bind_congr fun set _ => ?_
        rw [assemble_of_none hnone]
        refine assemble_congr (fun m hm => h m ?_) (set d)
        rintro rfl
        exact hn hm
      · have hmem' := (List.mem_cons.1 hmem).resolve_left (Ne.symm he)
        have ih' := ih hnodup hcomm' hmem'
        cases hg : given n with
        | none =>
            rw [assemble_of_none ((h n he).trans hg), ih']
            exact Option.bind_congr fun set _ => (assemble_of_none hg (set d)).symm
        | some t' =>
            rw [assemble_of_some ((h n he).trans hg)]
            simp only [ih', assemble_of_some hg]
            rw [Option.bind_comm]
            refine Option.bind_congr fun set hset => Option.bind_congr fun set' hset' => ?_
            rw [hcomm name hmem' hset' hset]

end

def names (r : Record δ α) : List String := r.fields.map (·.name)

def meaning (r : Record δ α) (D : String → Raw → Option (δ → δ)) (t : Raw) : Option α :=
  (parts r.names t).bind fun given =>
    (assemble D given r.names r.draft).bind fun d => (r.finish d).toOption

/-- The parts of a record are read for what they mean, and do not get in each other's way. -/
structure Meanings (r : Record δ α) (D E : String → Raw → Option (δ → δ)) : Prop where
  nodup : r.names.Nodup
  commute : r.names.Pairwise (Commute E)
  reads : ∀ field ∈ r.fields, Reads field.value (D field.name) (E field.name)

namespace Meanings

variable {r : Record δ α} {D E : String → Raw → Option (δ → δ)}

theorem below (h : r.Meanings D E) :
    ∀ name ∈ r.names, ∀ {t set}, D name t = some set → E name t = some set := by
  intro name hname t set hset
  obtain ⟨field, hfield, rfl⟩ := List.mem_map.1 hname
  exact (h.reads field hfield).below hset

theorem commute_within (h : r.Meanings D E) : r.names.Pairwise (Commute D) :=
  h.commute.imp_of_mem fun hn hn' hc _ _ _ _ hset hset' d =>
    hc (h.below _ hn hset) (h.below _ hn' hset') d

theorem meaning_below (h : r.Meanings D E) {t : Raw} {a : α} (ha : r.meaning D t = some a) :
    r.meaning E t = some a := by
  obtain ⟨given, hgiven, ha⟩ := Option.bind_eq_some_iff.1 ha
  obtain ⟨d, hd, ha⟩ := Option.bind_eq_some_iff.1 ha
  exact Option.bind_eq_some_iff.2 ⟨given, hgiven,
    Option.bind_eq_some_iff.2 ⟨d, assemble_below h.below hd, ha⟩⟩

end Meanings

section

variable (r : Record δ α) (D E : String → Raw → Option (δ → δ))

def listedStep (st : Listed δ) (t : Raw) : Option (Listed δ) :=
  match st.remaining with
  | [] => none
  | field :: others => (D field.name t).map fun set => ⟨set st.draft, others⟩

variable {r D E}

theorem elements_steps (h : r.Meanings D E) :
    r.elements.Steps (fun st => ∀ field ∈ st.remaining, field ∈ r.fields) (listedStep D)
      (listedStep E) where
  start _ hfield := hfield
  keeps {st st' t} hvalid hst := by
    obtain ⟨d, remaining⟩ := st
    cases remaining with
    | nil => cases hst
    | cons field others =>
        obtain ⟨set, -, rfl⟩ := Option.map_eq_some_iff.1 hst
        exact fun f hf => hvalid f (List.mem_cons_of_mem field hf)
  stop {st} hst t := by
    obtain ⟨d, remaining⟩ := st
    cases remaining with
    | nil => rfl
    | cons field others => cases hst
  reads {st reader} hvalid hst := by
    obtain ⟨d, remaining⟩ := st
    cases remaining with
    | nil => cases hst
    | cons field others =>
        cases hst
        exact (h.reads field (hvalid field List.mem_cons_self)).map fun set => (⟨set d, others⟩ : Listed δ)

theorem toOption_finish_elements (st : Listed δ) :
    (r.elements.finish st).toOption = (r.finish st.draft).toOption := by
  simp only [elements]
  cases r.finish st.draft <;> rfl

theorem outcome_elements {fields : List (Field δ)} (hnodup : (fields.map (·.name)).Nodup)
    (ts : List Raw) (d : δ) :
    outcome (listedStep D) r.elements.finish ⟨d, fields⟩ ts =
      if ts.length ≤ fields.length then
        (assemble D (fun name => ((fields.map (·.name)).zip ts).lookup name)
          (fields.map (·.name)) d).bind fun d => (r.finish d).toOption
      else none := by
  induction ts generalizing fields d with
  | nil =>
      rw [List.length_nil, if_pos (Nat.zero_le _), assemble_nothing (by simp)]
      exact toOption_finish_elements ⟨d, fields⟩
  | cons t ts ih =>
      rw [outcome_cons]
      cases fields with
      | nil => rfl
      | cons field fields =>
          obtain ⟨hn, hnodup⟩ := List.nodup_cons.1 hnodup
          have hrest : ∀ name ∈ fields.map (·.name),
              ((field.name :: fields.map (·.name)).zip (t :: ts)).lookup name =
                ((fields.map (·.name)).zip ts).lookup name := by
            intro name hname
            have hne : name ≠ field.name := by
              rintro rfl
              exact hn hname
            exact Entries.lookup_cons_of_ne hne _
          rw [List.map_cons, assemble_of_some (Entries.lookup_cons_self field.name t _)]
          simp only [listedStep, List.length_cons, Nat.add_le_add_iff_right]
          cases D field.name t with
          | none => simp
          | some set =>
              refine (ih hnodup (set d)).trans ?_
              rw [Option.bind_some, assemble_congr hrest]

theorem meaning_elements (h : r.names.Nodup) (ts : List Raw) :
    r.elements.meaning (listedStep D) (.array ts) = r.meaning D (.array ts) := by
  refine (outcome_elements h ts r.draft).trans ?_
  simp only [meaning, parts, names, List.length_map]
  by_cases hl : ts.length ≤ r.fields.length
  · rw [if_pos hl, if_pos hl]
    rfl
  · rw [if_neg hl, if_neg hl]
    rfl

variable (r D)

def namedStep (st : Named δ) (item : String × Raw) : Option (Named δ) :=
  if item.1 ∈ r.names then
    if item.1 ∈ st.seen then none
    else (D item.1 item.2).map fun set => ⟨set st.draft, item.1 :: st.seen⟩
  else some st

/-- The names of parts among the names of members. -/
def knownNames (items : List (String × Raw)) : List String :=
  (items.map (·.1)).filter (· ∈ r.names)

variable {r D}

theorem mem_of_find? {name : String} {field : Field δ}
    (h : r.fields.find? (·.name = name) = some field) :
    field ∈ r.fields ∧ field.name = name ∧ name ∈ r.names := by
  have hfield := List.mem_of_find?_eq_some h
  have hname := List.find?_some h
  obtain rfl : field.name = name := of_decide_eq_true hname
  exact ⟨hfield, rfl, List.mem_map_of_mem hfield⟩

theorem not_mem_of_find? {name : String} (h : r.fields.find? (·.name = name) = none) :
    name ∉ r.names := by
  intro hname
  obtain ⟨field, hfield, rfl⟩ := List.mem_map.1 hname
  exact List.find?_eq_none.1 h field hfield (decide_eq_true rfl)

theorem members_steps (h : r.Meanings D E) :
    r.members.Steps (namedStep r D) (namedStep r E) where
  stop {st name cause} hst t := by
    simp only [members] at hst
    split at hst
    · cases hst
    · rename_i field hfind
      split at hst
      · rename_i hseen
        simp only [namedStep, if_pos (mem_of_find? hfind).2.2, if_pos hseen]
      · cases hst
  reads {st name reader} hst := by
    simp only [members] at hst
    split at hst
    · rename_i hfind
      cases hst
      simp only [namedStep, if_neg (not_mem_of_find? hfind)]
      exact .ignored st
    · rename_i field hfind
      obtain ⟨hfield, rfl, hname⟩ := mem_of_find? hfind
      split at hst
      · cases hst
      · rename_i hseen
        cases hst
        simp only [namedStep, if_pos hname, if_neg hseen]
        exact (h.reads field hfield).map fun set => (⟨set st.draft, field.name :: st.seen⟩ : Named δ)

theorem toOption_finish_members (st : Named δ) :
    (r.members.finish st).toOption = (r.finish st.draft).toOption := by
  simp only [members]
  cases r.finish st.draft <;> rfl

theorem knownNames_cons_of_mem {item : String × Raw} (h : item.1 ∈ r.names)
    (items : List (String × Raw)) :
    knownNames r (item :: items) = item.1 :: knownNames r items :=
  List.filter_cons_of_pos (decide_eq_true h)

theorem knownNames_cons_of_not_mem {item : String × Raw} (h : item.1 ∉ r.names)
    (items : List (String × Raw)) : knownNames r (item :: items) = knownNames r items :=
  List.filter_cons_of_neg (by simpa using h)

theorem fresh_cons_iff {name : String} {names seen : List String} (hseen : name ∉ seen) :
    ((name :: names).Nodup ∧ ∀ n ∈ name :: names, n ∉ seen) ↔
      name ∉ names ∧ names.Nodup ∧ ∀ n ∈ names, n ∉ name :: seen := by
  rw [List.nodup_cons, List.forall_mem_cons, and_assoc]
  refine and_congr_right fun hn => and_congr_right fun _ => ?_
  constructor
  · rintro ⟨-, h⟩ n hm hc
    rcases List.mem_cons.1 hc with rfl | hc
    · exact hn hm
    · exact h n hm hc
  · intro h
    exact ⟨hseen, fun n hm hc => h n hm (List.mem_cons_of_mem name hc)⟩

theorem outcome_members (hnodup : r.names.Nodup) (hcomm : r.names.Pairwise (Commute D))
    (items : List (String × Raw)) (d : δ) (seen : List String) :
    outcome (namedStep r D) r.members.finish ⟨d, seen⟩ items =
      if (knownNames r items).Nodup ∧ ∀ name ∈ knownNames r items, name ∉ seen then
        (assemble D (fun name => items.lookup name) r.names d).bind fun d => (r.finish d).toOption
      else none := by
  induction items generalizing d seen with
  | nil =>
      rw [if_pos ⟨List.nodup_nil, by simp [knownNames]⟩, assemble_nothing (by simp)]
      exact toOption_finish_members ⟨d, seen⟩
  | cons item items ih =>
      obtain ⟨name, t⟩ := item
      rw [outcome_cons]
      by_cases hname : name ∈ r.names
      · rw [knownNames_cons_of_mem hname, namedStep, if_pos hname]
        by_cases hseen : name ∈ seen
        · have hno : ¬ ((name :: knownNames r items).Nodup ∧
              ∀ n ∈ name :: knownNames r items, n ∉ seen) :=
            fun h => h.2 name List.mem_cons_self hseen
          rw [if_pos hseen, if_neg hno]
          rfl
        · rw [if_neg hseen, if_congr (fresh_cons_iff hseen) rfl rfl]
          by_cases hn : name ∈ knownNames r items
          · rw [if_neg fun h => h.1 hn]
            cases D name t with
            | none => rfl
            | some set =>
                refine (ih (set d) (name :: seen)).trans (if_neg fun h => ?_)
                exact h.2 name hn List.mem_cons_self
          · have hnone : items.lookup name = none := by
              rw [Entries.lookup_eq_none_iff]
              exact fun hm => hn (List.mem_filter.2 ⟨hm, decide_eq_true hname⟩)
            have hother : ∀ n, n ≠ name → ((name, t) :: items).lookup n = items.lookup n :=
              fun n hne => Entries.lookup_cons_of_ne hne items
            rw [assemble_first hnodup hcomm hname hnone (Entries.lookup_cons_self name t items)
              hother]
            cases D name t with
            | none => simp
            | some set =>
                refine (ih (set d) (name :: seen)).trans (if_congr ?_ rfl rfl)
                exact (and_iff_right hn).symm
      · have hrest : ∀ n ∈ r.names, ((name, t) :: items).lookup n = items.lookup n := by
          intro n hn
          have hne : n ≠ name := by
            rintro rfl
            exact hname hn
          exact Entries.lookup_cons_of_ne hne items
        rw [knownNames_cons_of_not_mem hname, assemble_congr hrest, ← ih, namedStep, if_neg hname]
        rfl

theorem meaning_members (h : r.names.Nodup) (hcomm : r.names.Pairwise (Commute D))
    (ms : List (List Nat × Raw)) :
    r.members.meaning (namedStep r D) (.object ms) = r.meaning D (.object ms) := by
  simp only [Members.meaning, meaning, parts]
  cases hitems : named ms with
  | none => rfl
  | some items =>
      refine (outcome_members h hcomm items r.draft []).trans ?_
      have hfresh : ((knownNames r items).Nodup ∧ ∀ name ∈ knownNames r items, name ∉ []) ↔
          (knownNames r items).Nodup :=
        and_iff_left fun _ _ => List.not_mem_nil
      rw [if_congr hfresh rfl rfl]
      change _ = (if (knownNames r items).Nodup then some fun name => items.lookup name
        else none).bind _
      by_cases hn : (knownNames r items).Nodup
      · rw [if_pos hn, if_pos hn]
        rfl
      · rw [if_neg hn, if_neg hn]
        rfl

theorem bracketed (r : Record δ α) (D : String → Raw → Option (δ → δ)) :
    Form.Bracketed (r.meaning D) :=
  ⟨rfl, fun _ => rfl, fun _ => rfl, fun _ => rfl⟩

theorem reads (h : r.Meanings D E) : Reads r.form.reader (r.meaning D) (r.meaning E) := by
  have hmeans := fun D => (bracketed r D).means (f := r.form) rfl rfl
  refine Form.reads h.meaning_below (hmeans D) (hmeans E) ?_ ?_
  · refine (Elements.readsInside (elements_steps h)).congr fun ht => ?_
    obtain ⟨ts, rfl⟩ := exists_array_of_value ht
    exact ⟨meaning_elements h.nodup ts, meaning_elements h.nodup ts⟩
  · refine (Members.readsInside (members_steps h)).congr fun ht => ?_
    obtain ⟨ms, rfl⟩ := exists_object_of_value ht
    exact ⟨meaning_members h.nodup h.commute_within ms, meaning_members h.nodup h.commute ms⟩

theorem closedForm_reads {E : Raw → Option α} (hE : Form.Bracketed E) (expected : String) :
    Reads (closedForm expected).reader (fun _ => none) E :=
  Form.reads (fun h => nomatch h)
    (Form.Bracketed.means ⟨rfl, fun _ => rfl, fun _ => rfl, fun _ => rfl⟩ rfl rfl)
    (hE.means rfl rfl) (fun _ => rfl) (fun _ => rfl)

end

end PermitTypes.Json.Record
