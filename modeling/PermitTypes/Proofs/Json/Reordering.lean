import PermitTypes.Proofs.EntryOrder
import PermitTypes.Proofs.Json.Collections

namespace PermitTypes.Json.Grammar

/-- Values that differ in the order of members with different names, at whatever depth. -/
inductive Raw.Reordered : Raw → Raw → Prop
  | refl (t : Raw) : Raw.Reordered t t
  | trans {t u v : Raw} (htu : Raw.Reordered t u) (huv : Raw.Reordered u v) : Raw.Reordered t v
  | swap (before after : List (List Nat × Raw)) {m n : List Nat × Raw}
      (h : text? m.1 ≠ text? n.1) :
      Raw.Reordered (.object (before ++ m :: n :: after)) (.object (before ++ n :: m :: after))
  | member (before after : List (List Nat × Raw)) (name : List Nat) {t u : Raw}
      (h : Raw.Reordered t u) :
      Raw.Reordered (.object (before ++ (name, t) :: after))
        (.object (before ++ (name, u) :: after))
  | element (before after : List Raw) {t u : Raw} (h : Raw.Reordered t u) :
      Raw.Reordered (.array (before ++ t :: after)) (.array (before ++ u :: after))

/-- The values of the members of one name, in their order. -/
def run (name : Option String) (members : List (List Nat × Raw)) : List Raw :=
  (members.filter fun m => text? m.1 = name).map (·.2)

theorem run_append (name : Option String) (before after : List (List Nat × Raw)) :
    run name (before ++ after) = run name before ++ run name after := by
  rw [run, List.filter_append, List.map_append]
  rfl

theorem run_cons (name : Option String) (m : List Nat × Raw) (members : List (List Nat × Raw)) :
    run name (m :: members) =
      if text? m.1 = name then m.2 :: run name members else run name members := by
  rw [run, List.filter_cons]
  by_cases h : text? m.1 = name
  · rw [if_pos h, if_pos (decide_eq_true h)]
    rfl
  · rw [if_neg h, if_neg (mt of_decide_eq_true h)]
    rfl

/-- What reordering keeps of a value: the values of each name in their order. -/
inductive Raw.Aligned : Raw → Raw → Prop
  | leaf (t : Raw) : Raw.Aligned t t
  | array {ts us : List Raw} (h : List.Forall₂ Raw.Reordered ts us) :
      Raw.Aligned (.array ts) (.array us)
  | object {ms ns : List (List Nat × Raw)}
      (h : ∀ name, List.Forall₂ Raw.Reordered (run name ms) (run name ns)) :
      Raw.Aligned (.object ms) (.object ns)

theorem forall₂_reordered_refl (ts : List Raw) : List.Forall₂ Raw.Reordered ts ts :=
  List.forall₂_same.2 fun t _ => .refl t

theorem forall₂_reordered_trans {ts us vs : List Raw} (htu : List.Forall₂ Raw.Reordered ts us)
    (huv : List.Forall₂ Raw.Reordered us vs) : List.Forall₂ Raw.Reordered ts vs := by
  induction htu generalizing vs with
  | nil => exact huv
  | cons htu _ ih =>
      cases huv with
      | cons huv hrest => exact .cons (htu.trans huv) (ih hrest)

theorem Raw.Aligned.trans {t u v : Raw} (htu : t.Aligned u) (huv : u.Aligned v) : t.Aligned v := by
  cases htu with
  | leaf => exact huv
  | array htu =>
      cases huv with
      | leaf => exact .array htu
      | array huv => exact .array (forall₂_reordered_trans htu huv)
  | object htu =>
      cases huv with
      | leaf => exact .object htu
      | object huv => exact .object fun name => forall₂_reordered_trans (htu name) (huv name)

theorem Raw.Reordered.aligned {t u : Raw} (h : t.Reordered u) : t.Aligned u := by
  induction h with
  | refl t => exact .leaf t
  | trans _ _ htu huv => exact htu.trans huv
  | @swap before after m n hne =>
      refine .object fun name => ?_
      have hrun : run name (before ++ m :: n :: after) = run name (before ++ n :: m :: after) := by
        rw [run_append, run_append, run_cons, run_cons, run_cons, run_cons]
        refine congrArg _ ?_
        split
        · rename_i hm
          rw [if_neg (fun hn => hne (hm.trans hn.symm)), if_neg (fun hn => hne (hm.trans hn.symm))]
        · rfl
      rw [hrun]
      exact forall₂_reordered_refl _
  | member before after name h _ =>
      refine .object fun name => ?_
      rw [run_append, run_append, run_cons, run_cons]
      refine List.rel_append (forall₂_reordered_refl _) ?_
      split
      · exact .cons h (forall₂_reordered_refl _)
      · exact forall₂_reordered_refl _
  | element before after h _ =>
      exact .array (List.rel_append (forall₂_reordered_refl before)
        (.cons h (forall₂_reordered_refl after)))

theorem Raw.Reordered.of_array {ts : List Raw} {u : Raw} (h : (Raw.array ts).Reordered u) :
    ∃ us, u = .array us ∧ List.Forall₂ Raw.Reordered ts us := by
  cases h.aligned with
  | leaf => exact ⟨ts, rfl, forall₂_reordered_refl ts⟩
  | array hus => exact ⟨_, rfl, hus⟩

theorem Raw.Reordered.of_object {ms : List (List Nat × Raw)} {u : Raw}
    (h : (Raw.object ms).Reordered u) :
    ∃ ns, u = .object ns ∧ ∀ name, List.Forall₂ Raw.Reordered (run name ms) (run name ns) := by
  cases h.aligned with
  | leaf => exact ⟨ms, rfl, fun name => forall₂_reordered_refl (run name ms)⟩
  | object hns => exact ⟨_, rfl, hns⟩

/-- Members whose names are all different may be put in any order. -/
theorem reordered_of_perm {ms ns : List (List Nat × Raw)} (h : ms.Perm ns)
    (hnodup : (ms.map fun m => text? m.1).Nodup) : (Raw.object ms).Reordered (.object ns) := by
  suffices hprefix : ∀ before, (Raw.object (before ++ ms)).Reordered (.object (before ++ ns)) from
    hprefix []
  induction h with
  | nil => exact fun before => .refl _
  | cons m _ ih =>
      intro before
      have hrest := ih (List.nodup_cons.1 hnodup).2 (before ++ [m])
      rwa [List.append_assoc, List.append_assoc] at hrest
  | swap m n ms =>
      intro before
      have hne : text? n.1 ≠ text? m.1 :=
        fun heq => (List.nodup_cons.1 hnodup).1 (List.mem_cons.2 (.inl heq))
      exact .swap before ms hne
  | trans hms _ ih ih' =>
      intro before
      exact (ih hnodup before).trans (ih' ((hms.map _).nodup_iff.1 hnodup) before)

end PermitTypes.Json.Grammar

namespace PermitTypes.Json.Meaning

open Grammar Entries

variable {α : Type} {meaning : Raw → Option α} {R : α → α → Prop}

/-- A meaning that members put in another order do not change, up to some relation. -/
def Steady (meaning : Raw → Option α) (R : α → α → Prop) : Prop :=
  ∀ t u : Raw, t.Reordered u → ∀ a, meaning t = some a → ∃ b, meaning u = some b ∧ R a b

theorem string_steady : Steady string Eq := by
  intro t u h s hs
  cases h.aligned with
  | leaf => exact ⟨s, hs, rfl⟩
  | array => cases hs
  | object => cases hs

theorem flag_steady : Steady flag Eq := by
  intro t u h b hb
  cases h.aligned with
  | leaf => exact ⟨b, hb, rfl⟩
  | array => cases hb
  | object => cases hb

theorem Steady.nullable (hsteady : Steady meaning R) :
    Steady (nullable meaning) (Option.Rel R) := by
  intro t u h o ho
  have hcases : t = .null ∧ u = .null ∨ t ≠ .null ∧ u ≠ .null := by
    cases h.aligned with
    | leaf => tauto
    | array => exact .inr ⟨Raw.noConfusion, Raw.noConfusion⟩
    | object => exact .inr ⟨Raw.noConfusion, Raw.noConfusion⟩
  rcases hcases with ⟨rfl, rfl⟩ | ⟨ht, hu⟩
  · obtain rfl := Option.some.inj ho
    exact ⟨none, rfl, .none⟩
  · rw [Reads.nullable_of_ne ht] at ho
    obtain ⟨a, ha, rfl⟩ := Option.map_eq_some_iff.1 ho
    obtain ⟨b, hb, hr⟩ := hsteady _ _ h _ ha
    exact ⟨some b, by rw [Reads.nullable_of_ne hu, hb]; rfl, .some hr⟩

theorem Steady.bind (hsteady : Steady meaning R) {given given' : Option Raw}
    (h : Option.Rel Raw.Reordered given given') {a : α} (ha : given.bind meaning = some a) :
    ∃ b, given'.bind meaning = some b ∧ R a b := by
  cases h with
  | none => cases ha
  | some h => exact hsteady _ _ h _ ha

theorem Steady.withDefault (hsteady : Steady meaning R) {default : α} (hdefault : R default default)
    {given given' : Option Raw} (h : Option.Rel Raw.Reordered given given') {a : α}
    (ha : withDefault default meaning given = some a) :
    ∃ b, withDefault default meaning given' = some b ∧ R a b := by
  cases h with
  | none =>
      obtain rfl := Option.some.inj ha
      exact ⟨default, rfl, hdefault⟩
  | some h => exact hsteady _ _ h _ ha

theorem Steady.mapM (hsteady : Steady meaning R) {ts us : List Raw} {as : List α}
    (h : List.Forall₂ Raw.Reordered ts us) (ha : ts.mapM meaning = some as) :
    ∃ bs, us.mapM meaning = some bs ∧ List.Forall₂ R as bs := by
  induction h generalizing as with
  | nil =>
      obtain rfl : [] = as := Option.some.inj ha
      exact ⟨[], rfl, .nil⟩
  | cons h _ ih =>
      rw [List.mapM_cons] at ha
      obtain ⟨a', ha', htail⟩ := Option.bind_eq_some_iff.1 ha
      obtain ⟨as', has', htail⟩ := Option.bind_eq_some_iff.1 htail
      obtain ⟨b, hb, hr⟩ := hsteady _ _ h _ ha'
      obtain ⟨bs, hbs, hrs⟩ := ih has'
      obtain rfl := Option.some.inj htail
      exact ⟨b :: bs, by rw [List.mapM_cons, hb, hbs]; rfl, .cons hr hrs⟩

theorem Steady.elements (hsteady : Steady meaning R) :
    Steady (elements meaning) (List.Forall₂ R) := by
  intro t u h as has
  cases t with
  | array ts =>
      obtain ⟨us, rfl, hus⟩ := h.of_array
      exact hsteady.mapM hus has
  | _ => cases has

theorem run_none_eq_nil_iff {ms : List (List Nat × Raw)} :
    run none ms = [] ↔ ∃ items, named ms = some items := by
  induction ms with
  | nil => exact ⟨fun _ => ⟨[], rfl⟩, fun _ => rfl⟩
  | cons m ms ih =>
      rw [run_cons, named_cons]
      cases text? m.1 with
      | none => simp
      | some name => simp [ih]

theorem run_eq_valuesOf {ms : List (List Nat × Raw)} {items : List (String × Raw)}
    (h : named ms = some items) (name : String) : run (some name) ms = valuesOf name items := by
  induction ms generalizing items with
  | nil =>
      obtain rfl : [] = items := Option.some.inj h
      rfl
  | cons m ms ih =>
      obtain ⟨name', items', hname, hitems, rfl⟩ := named_cons_eq_some.1 h
      rw [run_cons, valuesOf_cons, hname, ih hitems]
      simp only [Option.some.injEq]

/-- Members that all have names, put in another order. -/
theorem named_reordered {ms : List (List Nat × Raw)} {u : Raw} {items : List (String × Raw)}
    (h : (Raw.object ms).Reordered u) (hitems : named ms = some items) :
    ∃ ns items', u = .object ns ∧ named ns = some items' ∧
      ∀ name, List.Forall₂ Raw.Reordered (valuesOf name items) (valuesOf name items') := by
  obtain ⟨ns, rfl, hruns⟩ := h.of_object
  have hnone := hruns none
  rw [run_none_eq_nil_iff.2 ⟨items, hitems⟩, List.forall₂_nil_left_iff] at hnone
  obtain ⟨items', hitems'⟩ := run_none_eq_nil_iff.1 hnone
  refine ⟨ns, items', rfl, hitems', fun name => ?_⟩
  rw [← run_eq_valuesOf hitems, ← run_eq_valuesOf hitems']
  exact hruns (some name)

theorem head?_rel {α β : Type} {R : α → β → Prop} {as : List α} {bs : List β}
    (h : List.Forall₂ R as bs) : Option.Rel R as.head? bs.head? := by
  cases h with
  | nil => exact .none
  | cons h _ => exact .some h

theorem getLast?_rel {α β : Type} {R : α → β → Prop} {as : List α} {bs : List β}
    (h : List.Forall₂ R as bs) : Option.Rel R as.getLast? bs.getLast? := by
  rw [← List.head?_reverse, ← List.head?_reverse]
  exact head?_rel (List.rel_reverse h)

theorem lookup_zip_rel (known : List String) {ts us : List Raw}
    (h : List.Forall₂ Raw.Reordered ts us) (name : String) :
    Option.Rel Raw.Reordered ((known.zip ts).lookup name) ((known.zip us).lookup name) := by
  induction h generalizing known with
  | nil =>
      rw [List.zip_nil_right]
      exact .none
  | cons h _ ih =>
      cases known with
      | nil => exact .none
      | cons key known =>
          rw [List.zip_cons_cons, List.zip_cons_cons, List.lookup_cons, List.lookup_cons]
          cases name == key with
          | true => exact .some h
          | false => exact ih known

theorem nodup_filter_iff {p : String → Bool} {names : List String} :
    (names.filter p).Nodup ↔ ∀ name, p name = true → names.count name ≤ 1 := by
  rw [List.nodup_iff_count_le_one]
  refine forall_congr' fun name => ?_
  cases hp : p name with
  | true => simp [List.count_filter hp]
  | false =>
      have hnot : name ∉ names.filter p := fun h => by
        rw [List.mem_filter, hp] at h
        exact Bool.false_ne_true h.2
      rw [List.count_eq_zero_of_not_mem hnot]
      simp

/-- A record may have its members in any order. -/
theorem parts_reordered {known : List String} {t u : Raw} (h : t.Reordered u)
    {given : String → Option Raw} (hgiven : parts known t = some given) :
    ∃ given', parts known u = some given' ∧
      ∀ name, Option.Rel Raw.Reordered (given name) (given' name) := by
  cases t with
  | array ts =>
      obtain ⟨us, rfl, hus⟩ := h.of_array
      rw [parts] at hgiven
      split at hgiven
      · rename_i hlength
        obtain rfl := Option.some.inj hgiven
        rw [hus.length_eq] at hlength
        exact ⟨_, if_pos hlength, lookup_zip_rel known hus⟩
      · cases hgiven
  | object ms =>
      obtain ⟨items, hitems, hgiven⟩ := Option.bind_eq_some_iff.1 hgiven
      obtain ⟨ns, items', rfl, hitems', hvalues⟩ := named_reordered h hitems
      have hnodup : ((names items).filter (· ∈ known)).Nodup ↔
          ((names items').filter (· ∈ known)).Nodup := by
        simp only [nodup_filter_iff, count_names, (hvalues _).length_eq]
      have hlookup (name : String) :
          Option.Rel Raw.Reordered (items.lookup name) (items'.lookup name) := by
        rw [lookup_eq_head?, lookup_eq_head?]
        exact head?_rel (hvalues name)
      split at hgiven
      · rename_i hitemsNodup
        obtain rfl := Option.some.inj hgiven
        refine ⟨fun name => items'.lookup name,
          Option.bind_eq_some_iff.2 ⟨items', hitems', ?_⟩, hlookup⟩
        exact if_pos (hnodup.1 hitemsNodup)
      · cases hgiven
  | _ => cases hgiven

/-- What is read name by name, given whether each value has a meaning. -/
def valued (meaning : Raw → Option α) (items : List (String × Raw)) :
    Option (List (String × α)) :=
  items.mapM fun m => (meaning m.2).map fun a => (m.1, a)

theorem valued_cons_eq_some {m : String × Raw} {items : List (String × Raw)}
    {values : List (String × α)} : valued meaning (m :: items) = some values ↔
      ∃ a rest, meaning m.2 = some a ∧ valued meaning items = some rest ∧
        values = (m.1, a) :: rest := by
  rw [valued, List.mapM_cons]
  cases meaning m.2 with
  | none => simp
  | some a =>
      cases hrest : valued meaning items with
      | none =>
          rw [valued] at hrest
          simp [hrest]
      | some rest =>
          rw [valued] at hrest
          simp [hrest, eq_comm]

theorem exists_valued {items : List (String × Raw)}
    (h : ∀ m ∈ items, ∃ a, meaning m.2 = some a) :
    ∃ values, valued meaning items = some values := by
  induction items with
  | nil => exact ⟨[], rfl⟩
  | cons m items ih =>
      obtain ⟨⟨a, ha⟩, hrest⟩ := List.forall_mem_cons.1 h
      obtain ⟨rest, hvalues⟩ := ih hrest
      exact ⟨_, valued_cons_eq_some.2 ⟨a, rest, ha, hvalues, rfl⟩⟩

theorem exists_of_mapM {ts : List Raw} {as : List α} (h : ts.mapM meaning = some as) :
    ∀ t ∈ ts, ∃ a, meaning t = some a := by
  induction ts generalizing as with
  | nil => exact fun _ ht => nomatch ht
  | cons t ts ih =>
      rw [List.mapM_cons] at h
      obtain ⟨a, ha, h⟩ := Option.bind_eq_some_iff.1 h
      obtain ⟨rest, hrest, -⟩ := Option.bind_eq_some_iff.1 h
      exact List.forall_mem_cons.2 ⟨⟨a, ha⟩, ih hrest⟩

theorem valuesOf_valued {items : List (String × Raw)} {values : List (String × α)}
    (h : valued meaning items = some values) (name : String) :
    (valuesOf name items).mapM meaning = some (valuesOf name values) := by
  induction items generalizing values with
  | nil =>
      obtain rfl : [] = values := Option.some.inj h
      rfl
  | cons m items ih =>
      obtain ⟨a, rest, ha, hrest, rfl⟩ := valued_cons_eq_some.1 h
      rw [valuesOf_cons, valuesOf_cons]
      split
      · rw [List.mapM_cons, ha, ih hrest]
        rfl
      · exact ih hrest

theorem lookup_lastValues (name : String) (values : List (String × α)) :
    (lastValues values).lookup name = (valuesOf name values).getLast? := by
  rw [lastValues_eq_puts, lookup_puts_nil, lookup_reverse_eq_getLast?]

theorem nodup_lastValues (values : List (String × α)) : (names (lastValues values)).Nodup := by
  have hnil : (names ([] : List (String × α))).Nodup := List.nodup_nil
  rw [lastValues_eq_puts]
  exact nodup_names_puts hnil values

/-- Of a repeated name the last value counts, wherever names between change their places. -/
theorem Steady.entries (hsteady : Steady meaning R) : Steady (entries meaning) (Rearranged R) := by
  intro t u h es hes
  cases t with
  | object ms =>
      rw [entries_object] at hes
      obtain ⟨items, hitems, hes⟩ := Option.bind_eq_some_iff.1 hes
      obtain ⟨values, hvalues, rfl⟩ := Option.map_eq_some_iff.1 hes
      obtain ⟨ns, items', rfl, hitems', hrel⟩ := named_reordered h hitems
      have hruns (name : String) := hsteady.mapM (hrel name) (valuesOf_valued hvalues name)
      obtain ⟨values', hvalues'⟩ : ∃ values', valued meaning items' = some values' := by
        refine exists_valued fun m hm => ?_
        obtain ⟨bs, hbs, -⟩ := hruns m.1
        exact exists_of_mapM hbs m.2 (mem_valuesOf.2 hm)
      refine ⟨lastValues values', ?_, ?_⟩
      · rw [entries_object, hitems']
        exact Option.map_eq_some_iff.2 ⟨values', hvalues', rfl⟩
      · refine rearranged_of_forall_lookup (nodup_lastValues values) (nodup_lastValues values')
          fun name => ?_
        obtain ⟨bs, hbs, hr⟩ := hruns name
        obtain rfl := Option.some.inj (hbs.symm.trans (valuesOf_valued hvalues' name))
        rw [lookup_lastValues, lookup_lastValues]
        exact getLast?_rel hr
  | _ => cases hes

end PermitTypes.Json.Meaning
