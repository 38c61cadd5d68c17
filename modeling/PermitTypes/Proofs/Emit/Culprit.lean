import PermitTypes.Proofs.Emit.Success

namespace PermitTypes.Emit

open Schema

/-- What stands in the way of a result. -/
def failure? {ε α : Type} : Except ε α → Option ε
  | .ok _ => none
  | .error e => some e

theorem failure?_eq_some_iff {ε α : Type} {x : Except ε α} {e : ε} :
    failure? x = some e ↔ x = .error e := by
  cases x <;> simp [failure?]

theorem failure?_eq_none_iff {ε α : Type} {x : Except ε α} :
    failure? x = none ↔ ∃ a, x = .ok a := by
  cases x <;> simp [failure?]

/-- Of two steps the first failure counts, where the second step fails in one way whatever it is
given. -/
theorem failure?_bind {ε α β : Type} (x : Except ε α) {f : α → Except ε β} {e : Option ε}
    (h : ∀ a, failure? (f a) = e) : failure? (x >>= f) = (failure? x).or e := by
  cases x with
  | ok a => exact h a
  | error e' => rfl

theorem failure?_bind_ok {ε α β : Type} (x : Except ε α) (f : α → β) :
    failure? (x >>= fun a => .ok (f a)) = failure? x := by
  cases x <;> rfl

mutual

/-- The property, and behind it what an object holds, in the order of declaration. Nested fields of
other kinds are not looked at. -/
def visits : Property → List Property
  | ⟨kind, optional, list, none⟩ => [⟨kind, optional, list, none⟩]
  | ⟨kind, optional, list, some fields⟩ =>
    ⟨kind, optional, list, some fields⟩ :: if kind = .object then fieldVisits fields else []

def fieldVisits : List (String × Property) → List Property
  | [] => []
  | (_, p) :: rest => visits p ++ fieldVisits rest

end

theorem visits_eq (p : Property) :
    visits p = p :: if p.kind = .object then fieldVisits (p.fields.getD []) else [] := by
  obtain ⟨kind, optional, list, fields⟩ := p
  cases fields <;> simp [visits, fieldVisits]

/-- A property of a container, or, time and again, of an object that is reached. -/
inductive Reaches (fields : Fields) : Property → Prop
  | field {name : String} {p : Property} (h : (name, p) ∈ fields) : Reaches fields p
  | inside {name : String} {p q : Property} {inner : Fields} (hp : Reaches fields p)
      (hkind : p.kind = .object) (hinner : p.fields = some inner) (h : (name, q) ∈ inner) :
      Reaches fields q

mutual

theorem reaches_of_mem_visits {fields : Fields} {q : Property} : (p : Property) →
    Reaches fields p → q ∈ visits p → Reaches fields q
  | ⟨kind, optional, list, none⟩, hp, h => by
      rw [visits, List.mem_singleton] at h
      exact h ▸ hp
  | ⟨kind, optional, list, some inner⟩, hp, h => by
      rw [visits, List.mem_cons] at h
      rcases h with rfl | h
      · exact hp
      · by_cases hkind : kind = .object
        · rw [if_pos hkind] at h
          exact reaches_of_mem_fieldVisits inner (fun _ he => hp.inside hkind rfl he) h
        · rw [if_neg hkind] at h
          exact absurd h List.not_mem_nil

theorem reaches_of_mem_fieldVisits {fields : Fields} {q : Property} :
    (inner : List (String × Property)) → (∀ e, e ∈ inner → Reaches fields e.2) →
      q ∈ fieldVisits inner → Reaches fields q
  | [], _, h => by cases h
  | (name, p) :: rest, hinner, h => by
      rw [fieldVisits, List.mem_append] at h
      rcases h with h | h
      · exact reaches_of_mem_visits p (hinner (name, p) List.mem_cons_self) h
      · exact reaches_of_mem_fieldVisits rest
          (fun e he => hinner e (List.mem_cons_of_mem _ he)) h

end

theorem visits_subset_fieldVisits {name : String} {p : Property} {fields : Fields}
    (h : (name, p) ∈ fields) : visits p ⊆ fieldVisits fields := by
  induction fields with
  | nil => cases h
  | cons e rest ih =>
      obtain ⟨n, q⟩ := e
      rw [fieldVisits]
      rcases List.mem_cons.1 h with he | h
      · cases he
        exact List.subset_append_left _ _
      · exact List.Subset.trans (ih h) (List.subset_append_right _ _)

mutual

theorem visits_subset {q : Property} : (p : Property) → q ∈ visits p → visits q ⊆ visits p
  | ⟨kind, optional, list, none⟩, h => by
      rw [visits, List.mem_singleton] at h
      rw [h]
      exact List.Subset.refl _
  | ⟨kind, optional, list, some inner⟩, h => by
      rw [visits, List.mem_cons] at h
      rcases h with rfl | h
      · exact List.Subset.refl _
      · by_cases hkind : kind = .object
        · rw [if_pos hkind] at h
          rw [visits, if_pos hkind]
          exact List.subset_cons_of_subset _ (fieldVisits_subset inner h)
        · rw [if_neg hkind] at h
          exact absurd h List.not_mem_nil

theorem fieldVisits_subset {q : Property} : (fields : List (String × Property)) →
    q ∈ fieldVisits fields → visits q ⊆ fieldVisits fields
  | [], h => by cases h
  | (name, p) :: rest, h => by
      rw [fieldVisits, List.mem_append] at h
      rw [fieldVisits]
      rcases h with h | h
      · exact List.Subset.trans (visits_subset p h) (List.subset_append_left _ _)
      · exact List.Subset.trans (fieldVisits_subset rest h) (List.subset_append_right _ _)

end

theorem mem_fieldVisits_iff {fields : Fields} {p : Property} :
    p ∈ fieldVisits fields ↔ Reaches fields p := by
  constructor
  · exact reaches_of_mem_fieldVisits fields fun _ he => .field he
  · intro h
    have hself (q : Property) : q ∈ visits q := by
      rw [visits_eq]
      exact List.mem_cons_self
    induction h with
    | field h => exact visits_subset_fieldVisits h (hself _)
    | @inside name p q inner hp hkind hinner h ih =>
        have hvisits : fieldVisits inner ⊆ visits p := by
          rw [visits_eq, if_pos hkind, hinner]
          exact List.subset_cons_self _ _
        exact fieldVisits_subset fields ih (hvisits (visits_subset_fieldVisits h (hself _)))

def unknownTag? (p : Property) : Option String :=
  match p.kind with
  | .unknown tag => some tag
  | _ => none

theorem unknownTag?_eq_some_iff {p : Property} {tag : String} :
    unknownTag? p = some tag ↔ p.kind = .unknown tag := by
  obtain ⟨kind, optional, list, fields⟩ := p
  cases kind <;> simp [unknownTag?]

theorem unknownTag?_eq_none_iff {p : Property} :
    unknownTag? p = none ↔ ∀ tag, p.kind ≠ .unknown tag := by
  obtain ⟨kind, optional, list, fields⟩ := p
  cases kind <;> simp [unknownTag?]

/-- The failure of a traversal in this order, which stops at the first tag that means nothing. -/
def unknownKind? (visited : List Property) : Option Failure :=
  (visited.findSome? unknownTag?).map .unknownKind

theorem unknownKind?_append (a b : List Property) :
    unknownKind? (a ++ b) = (unknownKind? a).or (unknownKind? b) := by
  rw [unknownKind?, List.findSome?_append, Option.map_or]
  rfl

theorem unknownKind?_eq_some_iff {visited : List Property} {tag : String} :
    unknownKind? visited = some (.unknownKind tag) ↔
      ∃ before p after, visited = before ++ p :: after ∧ p.kind = .unknown tag ∧
        ∀ q ∈ before, ∀ other, q.kind ≠ .unknown other := by
  simp only [unknownKind?, Option.map_eq_some_iff, Failure.unknownKind.injEq, exists_eq_right,
    List.findSome?_eq_some_iff, unknownTag?_eq_some_iff, unknownTag?_eq_none_iff]

theorem unknownKind?_eq_none_iff {visited : List Property} :
    unknownKind? visited = none ↔ ∀ p ∈ visited, ∀ tag, p.kind ≠ .unknown tag := by
  rw [unknownKind?, Option.map_eq_none_iff, List.findSome?_eq_none_iff]
  simp only [unknownTag?_eq_none_iff]

mutual

theorem failure?_propertyLines (name : String) : (p : Property) →
    failure? (propertyLines name p) = unknownKind? (visits p)
  | ⟨kind, optional, list, fields⟩ => by
      rw [visits_eq]
      cases hs : scalarType kind with
      | some type =>
          rw [propertyLines_of_scalarType name hs]
          cases kind <;> first | rfl | cases hs
      | none =>
          cases kind with
          | object =>
              have hbody : failure? (fieldLines (fields.getD [])) =
                  unknownKind? (fieldVisits (fields.getD [])) := by
                cases fields with
                | none => rfl
                | some fields => exact failure?_fieldLines fields
              rw [propertyLines_object, failure?_bind_ok, hbody]
              rfl
          | unknown tag =>
              rw [propertyLines_unknown]
              rfl
          | _ => cases hs

theorem failure?_fieldLines : (fields : List (String × Property)) →
    failure? (fieldLines fields) = unknownKind? (fieldVisits fields)
  | [] => rfl
  | (name, p) :: rest => by
      have hrest (first : List String) :
          failure? (fieldLines rest >>= fun others => (.ok (first ++ others) : Lines)) =
            unknownKind? (fieldVisits rest) := by
        rw [failure?_bind_ok, failure?_fieldLines rest]
      rw [fieldLines, failure?_bind _ hrest, failure?_propertyLines name p, fieldVisits,
        unknownKind?_append]

end

theorem failure?_block (head : String) (fields : Fields) :
    failure? (block head fields) = unknownKind? (fieldVisits fields) := by
  rw [block, failure?_bind_ok, failure?_fieldLines]

theorem failure?_branchLines (shapes : List Fields) :
    failure? (branchLines shapes) = unknownKind? (shapes.flatMap fieldVisits) := by
  induction shapes with
  | nil => rfl
  | cons shape rest ih =>
      have hrest (first : List String) :
          failure? (branchLines rest >>= fun others => (.ok (indent first ++ others) : Lines)) =
            unknownKind? (rest.flatMap fieldVisits) := by
        rw [failure?_bind_ok, ih]
      rw [branchLines, failure?_bind _ hrest, failure?_block, List.flatMap_cons,
        unknownKind?_append]

/-- The containers whose fields are rendered, in the order of their lines. -/
def renderedShapes : Option Filter → List Fields
  | none => []
  | some (.shape fields) => [fields]
  | some (.union shapes) => shapes

def rendered (permit : Permit) : List Fields :=
  renderedShapes permit.filter ++ permit.effect.toList

def permitVisits (permit : Permit) : List Property := (rendered permit).flatMap fieldVisits

theorem mem_permitVisits_iff {permit : Permit} {p : Property} :
    p ∈ permitVisits permit ↔ ∃ fields ∈ rendered permit, Reaches fields p := by
  simp only [permitVisits, List.mem_flatMap, mem_fieldVisits_iff]

theorem failure?_filterLines (optional : Bool) {filter : Filter} (h : filter ≠ .union []) :
    failure? (filterLines optional filter) =
      unknownKind? ((renderedShapes (some filter)).flatMap fieldVisits) := by
  cases filter with
  | shape fields =>
      rw [filterLines, failure?_block, renderedShapes, List.flatMap_singleton]
  | union shapes =>
      cases shapes with
      | nil => exact absurd rfl h
      | cons shape rest =>
          rw [filterLines, failure?_bind_ok, failure?_branchLines,
            renderedShapes]
          simp

theorem failure?_effectLines (effect : Option Fields) :
    failure? (facet effectLines effect) = unknownKind? (effect.toList.flatMap fieldVisits) := by
  cases effect with
  | none => rfl
  | some fields => rw [facet, effectLines, failure?_block, Option.toList, List.flatMap_singleton]

theorem permitLines_emptyUnion (options : Options) {permit : Permit}
    (h : permit.filter = some (.union [])) : permitLines options permit = .error .emptyUnion := by
  rw [permitLines, h]
  rfl

/-- An empty union apart, a permit fails as one traversal of its containers does. -/
theorem failure?_permitLines (options : Options) {permit : Permit}
    (h : permit.filter ≠ some (.union [])) :
    failure? (permitLines options permit) = unknownKind? (permitVisits permit) := by
  have hfilter : failure? (facet (filterLines options.filterOptional) permit.filter) =
      unknownKind? ((renderedShapes permit.filter).flatMap fieldVisits) := by
    cases hp : permit.filter with
    | none => rfl
    | some filter =>
        rw [hp] at h
        exact failure?_filterLines _ fun he => h (congrArg some he)
  have hextend (filter effect : List String) :
      failure? (facet (fun schema => .ok [extendLine schema]) permit.extended >>= fun extension =>
        (.ok (filter ++ effect ++ extension) : Lines)) = none := by
    cases permit.extended <;> rfl
  have heffect (filter : List String) :
      failure? (facet effectLines permit.effect >>= fun effect =>
        facet (fun schema => .ok [extendLine schema]) permit.extended >>= fun extension =>
          (.ok (filter ++ effect ++ extension) : Lines)) =
        unknownKind? (permit.effect.toList.flatMap fieldVisits) := by
    rw [failure?_bind _ (hextend filter), Option.or_none, failure?_effectLines]
  rw [permitLines, failure?_bind _ heffect, hfilter, permitVisits, rendered, List.flatMap_append,
    unknownKind?_append]

theorem permitLines_eq_emptyUnion_iff {options : Options} {permit : Permit} :
    permitLines options permit = .error .emptyUnion ↔ permit.filter = some (.union []) := by
  constructor
  · intro hl
    refine Decidable.byContradiction fun h => ?_
    have hf := failure?_permitLines options h
    rw [failure?_eq_some_iff.2 hl, unknownKind?] at hf
    obtain ⟨tag, -, ht⟩ := Option.map_eq_some_iff.1 hf.symm
    cases ht
  · exact permitLines_emptyUnion options

theorem permitLines_eq_unknownKind_iff {options : Options} {permit : Permit} {tag : String} :
    permitLines options permit = .error (.unknownKind tag) ↔
      permit.filter ≠ some (.union []) ∧
        unknownKind? (permitVisits permit) = some (.unknownKind tag) := by
  by_cases h : permit.filter = some (.union [])
  · rw [permitLines_emptyUnion options h]
    simp [h]
  · rw [← failure?_eq_some_iff, failure?_permitLines options h]
    simp [h]

theorem permitLines_succeeds_iff {options : Options} {permit : Permit} :
    (∃ lines, permitLines options permit = .ok lines) ↔
      permit.filter ≠ some (.union []) ∧ unknownKind? (permitVisits permit) = none := by
  by_cases h : permit.filter = some (.union [])
  · rw [permitLines_emptyUnion options h]
    simp [h]
  · rw [← failure?_eq_none_iff, failure?_permitLines options h]
    simp [h]

theorem exists_unknownKind?_iff {permit : Permit} :
    (∃ tag, unknownKind? (permitVisits permit) = some (.unknownKind tag)) ↔
      ∃ fields ∈ rendered permit, ∃ p, Reaches fields p ∧ ∃ tag, p.kind = .unknown tag := by
  constructor
  · rintro ⟨tag, h⟩
    obtain ⟨before, p, after, hv, hp, -⟩ := unknownKind?_eq_some_iff.1 h
    have hmem : p ∈ permitVisits permit := by
      rw [hv]
      exact List.mem_append_right _ List.mem_cons_self
    obtain ⟨fields, hf, hr⟩ := mem_permitVisits_iff.1 hmem
    exact ⟨fields, hf, p, hr, tag, hp⟩
  · rintro ⟨fields, hf, p, hr, tag, hp⟩
    cases hu : (permitVisits permit).findSome? unknownTag? with
    | some first => exact ⟨first, congrArg (Option.map Failure.unknownKind) hu⟩
    | none =>
        have hp' := List.findSome?_eq_none_iff.1 hu p (mem_permitVisits_iff.2 ⟨fields, hf, hr⟩)
        exact absurd hp (unknownTag?_eq_none_iff.1 hp' tag)

theorem failure?_permitLines_extend (options : Options) (permit : Permit)
    (extend : Option String) :
    failure? (permitLines options { permit with extend }) =
      failure? (permitLines options permit) := by
  have hfilter : ({ permit with extend } : Permit).filter = permit.filter := rfl
  by_cases h : permit.filter = some (.union [])
  · rw [permitLines_emptyUnion options h, permitLines_emptyUnion options (hfilter.trans h)]
  · have h' : ({ permit with extend } : Permit).filter ≠ some (.union []) := h
    rw [failure?_permitLines options h, failure?_permitLines options h']
    rfl

/-- The failure of the first permit that has one, with the name of the permit. -/
def permitFailure? (options : Options) (e : String × Permit) : Option DocumentFailure :=
  (failure? (permitLines options e.2)).map (⟨e.1, ·⟩)

theorem failure?_permitBodies (options : Options) (permits : List (String × Permit)) :
    failure? (permitBodies options permits) = permits.findSome? (permitFailure? options) := by
  induction permits with
  | nil => rfl
  | cons e rest ih =>
      obtain ⟨name, permit⟩ := e
      rw [permitBodies, List.findSome?_cons, permitFailure?]
      cases permitLines options permit with
      | error cause => rfl
      | ok lines =>
          exact (failure?_bind_ok _ _).trans ih

theorem failure?_documentText (options : Options) (document : Document) :
    failure? (documentText options document) =
      document.permits.findSome? (permitFailure? options) := by
  rw [documentText, failure?_bind_ok, failure?_permitBodies]

theorem failure?_linesText (options : Options) (document : Document) :
    failure? (linesText options document) =
      document.permits.findSome? (permitFailure? options) := by
  rw [linesText, failure?_bind_ok, failure?_permitBodies]

theorem findSome?_permitFailure?_eq_some_iff {options : Options}
    {permits : List (String × Permit)} {f : DocumentFailure} :
    permits.findSome? (permitFailure? options) = some f ↔
      ∃ before permit after, permits = before ++ (f.permit, permit) :: after ∧
        permitLines options permit = .error f.cause ∧
        ∀ e ∈ before, ∃ lines, permitLines options e.2 = .ok lines := by
  have hnone (e : String × Permit) :
      permitFailure? options e = none ↔ ∃ lines, permitLines options e.2 = .ok lines := by
    rw [permitFailure?, Option.map_eq_none_iff, failure?_eq_none_iff]
  have hsome (e : String × Permit) :
      permitFailure? options e = some f ↔
        e.1 = f.permit ∧ permitLines options e.2 = .error f.cause := by
    obtain ⟨name, cause⟩ := f
    simp only [permitFailure?, Option.map_eq_some_iff, failure?_eq_some_iff,
      DocumentFailure.mk.injEq]
    constructor
    · rintro ⟨cause', hl, rfl, rfl⟩
      exact ⟨rfl, hl⟩
    · rintro ⟨rfl, hl⟩
      exact ⟨cause, hl, rfl, rfl⟩
  rw [List.findSome?_eq_some_iff]
  constructor
  · rintro ⟨before, ⟨name, permit⟩, after, rfl, he, hb⟩
    obtain ⟨rfl, hl⟩ := (hsome _).1 he
    exact ⟨before, permit, after, rfl, hl, fun e h => (hnone e).1 (hb e h)⟩
  · rintro ⟨before, permit, after, rfl, hl, hb⟩
    exact ⟨before, _, after, rfl, (hsome _).2 ⟨rfl, hl⟩, fun e h => (hnone e).2 (hb e h)⟩

/-- An empty union of shapes fails a permit, else the first tag without meaning that is reached in
the order of declaration, filter before effect. The first permit that fails does so for its
document, whichever text is asked for. -/
theorem emission_fails_at_first_culprit :
    (∀ (options : Options) (permit : Permit),
      (permitLines options permit = .error .emptyUnion ↔ permit.filter = some (.union [])) ∧
      ((∃ tag, permitLines options permit = .error (.unknownKind tag)) ↔
        permit.filter ≠ some (.union []) ∧
          ∃ fields ∈ rendered permit, ∃ p, Reaches fields p ∧ ∃ tag, p.kind = .unknown tag) ∧
      (∀ tag, permitLines options permit = .error (.unknownKind tag) ↔
        permit.filter ≠ some (.union []) ∧
          ∃ before p after, permitVisits permit = before ++ p :: after ∧
            p.kind = .unknown tag ∧ ∀ q ∈ before, ∀ other, q.kind ≠ .unknown other) ∧
      ((∃ lines, permitLines options permit = .ok lines) ↔
        permit.filter ≠ some (.union []) ∧
          ∀ fields ∈ rendered permit, ∀ p, Reaches fields p → ∀ tag, p.kind ≠ .unknown tag) ∧
      ∀ extend, failure? (permitLines options { permit with extend }) =
        failure? (permitLines options permit)) ∧
    ∀ (options : Options) (document : Document),
      failure? (documentText options document) = failure? (linesText options document) ∧
      ∀ f, documentText options document = .error f ↔
        (∃ before permit after, document.permits = before ++ (f.permit, permit) :: after ∧
          permitLines options permit = .error f.cause ∧
          ∀ e ∈ before, ∃ lines, permitLines options e.2 = .ok lines) ∧
        f.message = "Failed to emit permit '" ++ f.permit ++ "': " ++ f.cause.message := by
  refine ⟨fun options permit => ⟨permitLines_eq_emptyUnion_iff, ?_, fun tag => ?_, ?_,
    failure?_permitLines_extend options permit⟩, fun options document => ⟨?_, fun f => ?_⟩⟩
  · simp only [permitLines_eq_unknownKind_iff, exists_and_left, exists_unknownKind?_iff]
  · rw [permitLines_eq_unknownKind_iff, unknownKind?_eq_some_iff]
  · rw [permitLines_succeeds_iff, unknownKind?_eq_none_iff]
    refine and_congr_right fun _ => ⟨fun h fields hf p hr => ?_, fun h p hp => ?_⟩
    · exact h p (mem_permitVisits_iff.2 ⟨fields, hf, hr⟩)
    · obtain ⟨fields, hf, hr⟩ := mem_permitVisits_iff.1 hp
      exact h fields hf p hr
  · rw [failure?_documentText, failure?_linesText]
  · rw [← failure?_eq_some_iff, failure?_documentText, findSome?_permitFailure?_eq_some_iff]
    exact (and_iff_left rfl).symm

/-- The tag that a text field hides in its nested fields fails nothing; the tag in the object of the
last branch does, before that of the effect. -/
example :
    permitLines {}
      { filter := some (.union
          [[("id", { kind := .text, fields := some [("a", { kind := .unknown "hidden" })] })],
            [("at", .object [("b", { kind := .unknown "blob" })])]])
        effect := some [("c", { kind := .unknown "late" })] } =
      .error (.unknownKind "blob") := by
  rfl

end PermitTypes.Emit
