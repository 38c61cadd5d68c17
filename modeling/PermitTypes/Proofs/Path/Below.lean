import PermitTypes.Proofs.Path.Steps

namespace PermitTypes.Path

/-- The pieces to which others are joined. -/
def base (p : Path) : List Name :=
  if p.pieces.getLast? = some (.text "") then p.pieces.dropLast else p.pieces

theorem pieces_join {p q : Path} (h : q.isAbsolute = false) :
    (p.join q).pieces = p.base ++ q.pieces := by
  rw [join, base, h, if_neg Bool.false_ne_true]
  split <;> rfl

theorem pieces_eq_base (p : Path) : p.pieces = p.base ∨ p.pieces = p.base ++ [.text ""] := by
  rw [base]
  split
  · next h =>
      obtain ⟨init, hi⟩ := List.getLast?_eq_some_iff.1 h
      exact .inr (by rw [hi, List.dropLast_concat])
  · exact .inl rfl

theorem stepsOf_base (p : Path) : stepsOf p.base = p.steps := by
  rw [steps]
  rcases pieces_eq_base p with h | h
  · rw [h]
  · rw [h, stepsOf_append, stepsOf_cons_idle rfl]
    exact (List.append_nil _).symm

theorem steps_join {p q : Path} (h : q.isAbsolute = false) :
    (p.join q).steps = p.steps ++ q.steps := by
  rw [steps, pieces_join h, stepsOf_append, stepsOf_base]
  rfl

/-- A name that a path can end in: it leads one level down. -/
structure IsName (name : Name) : Prop where
  step : isIdle name = false
  down : name ≠ ".."
  slashFree : name.has '/' = false

instance (name : Name) : Decidable (IsName name) :=
  decidable_of_iff (isIdle name = false ∧ name ≠ ".." ∧ name.has '/' = false)
    ⟨fun ⟨hstep, hdown, hslash⟩ => ⟨hstep, hdown, hslash⟩,
      fun h => ⟨h.step, h.down, h.slashFree⟩⟩

theorem IsName.ne_empty {name : Name} (h : IsName name) : name ≠ "" := by
  rintro rfl
  exact absurd h.step (by decide)

/-- A text without slashes is joined as one name. -/
theorem IsName.joinText_eq {name : String} (h : IsName name) (p : Path) :
    p.joinText name = p.joinName name := by
  rw [joinText, ofText_of_not_mem (Name.has_text_eq_false.1 h.slashFree), joinName]

theorem isAbsolute_singleton (piece : Name) : (Path.mk [piece]).isAbsolute = false := by
  unfold isAbsolute
  split
  · next h => cases h
  · rfl

theorem pieces_joinName (p : Path) (name : Name) :
    (p.joinName name).pieces = p.base ++ [name] :=
  pieces_join (isAbsolute_singleton name)

theorem steps_joinName {name : Name} (h : IsName name) (p : Path) :
    (p.joinName name).steps = p.steps ++ [name] := by
  rw [joinName, steps_join (isAbsolute_singleton name)]
  exact congrArg (p.steps ++ ·) (stepsOf_cons_step h.step [])

/-- A joined path is empty only if both its parts are. -/
theorem eq_empty_of_joinText {p : Path} {text : String} (hp : p.pieces ≠ [])
    (h : (p.joinText text).pieces = [.text ""]) : p.pieces = [.text ""] ∧ text = "" := by
  cases ha : (ofText text).isAbsolute with
  | true =>
      rw [joinText, join, if_pos ha] at h
      have hpath : ofText text = ⟨[""]⟩ := by rw [← h]
      rw [hpath] at ha
      cases ha
  | false =>
      rw [joinText, pieces_join ha, List.append_eq_singleton_iff] at h
      rcases h with ⟨hbase, htext⟩ | ⟨-, hnil⟩
      · refine ⟨?_, eq_empty_of_pieces_ofText htext⟩
        rcases pieces_eq_base p with he | he
        · exact absurd (he.trans hbase) hp
        · rw [he, hbase]
          rfl
      · exact absurd hnil (sound_ofText text).ne_nil

/-- The path that goes on with names. -/
def below (p : Path) (names : List Name) : Path := names.foldl joinName p

theorem below_cons (p : Path) (name : Name) (names : List Name) :
    p.below (name :: names) = (p.joinName name).below names :=
  rfl

theorem base_of_concat_name {p : Path} {init : List Name} {name : Name}
    (hp : p.pieces = init ++ [name]) (h : name ≠ "") : p.base = p.pieces := by
  rw [base, hp, List.getLast?_concat, if_neg (by simpa using h)]

theorem pieces_below {names : List Name} (h : ∀ n ∈ names, IsName n) (hne : names ≠ [])
    (p : Path) : (p.below names).pieces = p.base ++ names := by
  induction names generalizing p with
  | nil => exact absurd rfl hne
  | cons name names ih =>
      have hname : IsName name := h name List.mem_cons_self
      have hpieces := pieces_joinName p name
      rw [below_cons]
      cases names with
      | nil => exact hpieces
      | cons next names =>
          rw [ih (fun n hn => h n (List.mem_cons_of_mem _ hn)) (List.cons_ne_nil _ _),
            base_of_concat_name hpieces hname.ne_empty, hpieces, List.append_assoc]
          rfl

theorem steps_below {names : List Name} (h : ∀ n ∈ names, IsName n) (p : Path) :
    (p.below names).steps = p.steps ++ names := by
  cases names with
  | nil => exact (List.append_nil _).symm
  | cons name names =>
      rw [steps, pieces_below h (List.cons_ne_nil _ _), stepsOf_append, stepsOf_base,
        stepsOf_eq_self fun x hx => (h x hx).step]

theorem below_injective {p : Path} {a b : List Name} (ha : ∀ n ∈ a, IsName n)
    (hb : ∀ n ∈ b, IsName n) (h : p.below a = p.below b) : a = b := by
  have hs := congrArg steps h
  rwa [steps_below ha, steps_below hb, List.append_cancel_left_eq] at hs

theorem Sound.below {p : Path} (h : p.Sound) {names : List Name} (hn : ∀ n ∈ names, IsName n) :
    (p.below names).Sound := by
  induction names generalizing p with
  | nil => exact h
  | cons name names ih =>
      obtain ⟨hname, hnames⟩ := List.forall_mem_cons.1 hn
      exact ih (h.joinName hname.slashFree) hnames

theorem lead_of_step {x : Name} (h : isIdle x = false) (rest : List Name) :
    (Path.mk (x :: rest)).lead = [] := by
  unfold lead
  split
  · next hx => cases hx; exact absurd h (by decide)
  · next hx => cases hx; exact absurd h (by decide)
  · rfl

theorem after_idle {x : Name} (h : isIdle x = true) (steps pieces : List Name) :
    after steps (x :: pieces) = after steps pieces := by
  cases steps with
  | nil =>
      rw [after, after, dropIdle, dropIdle, List.dropWhile_cons_of_pos h]
  | cons step steps => rw [after, if_pos h]

theorem after_steps {names : List Name} (h : ∀ n ∈ names, isIdle n = false)
    (pieces : List Name) : after (stepsOf pieces) (pieces ++ names) = some names := by
  induction pieces with
  | nil =>
      have hfront : dropIdle names = names := by
        cases names with
        | nil => rfl
        | cons n names =>
            exact List.dropWhile_cons_of_neg (by simp [h n List.mem_cons_self])
      rw [List.nil_append, stepsOf, List.filter_nil, after, hfront, dropIdleEnd_eq_self h]
  | cons x pieces ih =>
      by_cases hx : isIdle x = true
      · rw [stepsOf_cons_idle hx, List.cons_append, after_idle hx, ih]
      · rw [Bool.not_eq_true] at hx
        rw [stepsOf_cons_step hx, List.cons_append, after, if_neg (by simp [hx]), if_pos rfl, ih]

theorem components_eq (p : Path) :
    p.components = leadComponent p.lead ++ p.steps.map bodyComponent := by
  rw [components, steps_eq]
  rfl

theorem isEmpty_components_iff {p : Path} :
    p.components.isEmpty = true ↔ p.lead = [] ∧ p.steps = [] := by
  rw [components_eq, List.isEmpty_iff, List.append_eq_nil_iff, List.map_eq_nil_iff]
  refine and_congr_left fun _ => ?_
  unfold lead
  split <;> simp [leadComponent]

theorem lead_cons {x : Name} {a b : List Name} (ha : a ≠ []) (hb : b ≠ []) :
    (Path.mk (x :: a)).lead = (Path.mk (x :: b)).lead := by
  obtain ⟨y, a, rfl⟩ := List.exists_cons_of_ne_nil ha
  obtain ⟨z, b, rfl⟩ := List.exists_cons_of_ne_nil hb
  by_cases hx : isIdle x = true
  · have hcases : x = "" ∨ x = "." := by simpa [isIdle] using hx
    rcases hcases with rfl | rfl <;> rfl
  · rw [Bool.not_eq_true] at hx
    rw [lead_of_step hx, lead_of_step hx]

theorem lead_below {p : Path} (hp : p.components.isEmpty = false) {names : List Name}
    (h : ∀ n ∈ names, IsName n) : (p.below names).lead = p.lead := by
  by_cases hne : names = []
  · rw [hne]
    rfl
  have hbelow : p.below names = ⟨p.base ++ names⟩ := by
    rw [← pieces_below h hne p]
  obtain ⟨pieces⟩ := p
  match pieces with
  | [] => exact absurd hp (by decide)
  | [x] =>
      by_cases hx : x = ""
      · subst hx
        exact absurd hp (by decide)
      · have hbase : (Path.mk [x]).base = [x] :=
          base_of_concat_name (p := ⟨[x]⟩) (List.nil_append _).symm hx
        rw [hbelow, hbase, List.singleton_append]
        by_cases hd : x = "."
        · subst hd
          rfl
        · have hstep : isIdle x = false := by simp [isIdle, hx, hd]
          rw [lead_of_step hstep, lead_of_step hstep]
  | x :: y :: rest =>
      have hbase : ∃ tail, (Path.mk (x :: y :: rest)).base = x :: tail := by
        rw [base]
        split
        · exact ⟨(y :: rest).dropLast, rfl⟩
        · exact ⟨y :: rest, rfl⟩
      obtain ⟨tail, ht⟩ := hbase
      rw [hbelow, ht, List.cons_append]
      exact lead_cons (List.append_ne_nil_of_right_ne_nil _ hne) (List.cons_ne_nil _ _)

theorem isAbsolute_iff {p : Path} : p.isAbsolute = true ↔ p.lead = [.text ""] := by
  obtain ⟨pieces⟩ := p
  match pieces with
  | [] => simp [isAbsolute, lead]
  | [x] =>
      by_cases hx : x = "."
      · subst hx
        simp [isAbsolute, lead]
      · simp [isAbsolute, lead, hx]
  | x :: y :: rest =>
      by_cases hx : x = ""
      · subst hx
        simp [isAbsolute, lead]
      · by_cases hd : x = "."
        · subst hd
          simp [isAbsolute, lead]
        · simp [isAbsolute, lead, hx, hd]

theorem base_of_isEmpty_components {p : Path} (h : p.components.isEmpty = true) :
    p.base = [] := by
  obtain ⟨hlead, hsteps⟩ := isEmpty_components_iff.1 h
  obtain ⟨pieces⟩ := p
  have hidle : ∀ x ∈ pieces, isIdle x = true := by
    intro x hx
    simpa using List.filter_eq_nil_iff.1 hsteps x hx
  match pieces with
  | [] => rfl
  | x :: rest =>
      have hcases : x = "" ∨ x = "." := by simpa [isIdle] using hidle x List.mem_cons_self
      rcases hcases with rfl | rfl
      · cases rest with
        | nil => rfl
        | cons y rest => cases hlead
      · cases hlead

/-- No name that follows changes the root or the leading dot. -/
theorem lead_below_eq (p : Path) {names : List Name} (hn : ∀ n ∈ names, IsName n) :
    (p.below names).lead = p.lead := by
  by_cases hp : p.components.isEmpty = true
  · cases names with
    | nil => rfl
    | cons name names =>
        have hbelow : p.below (name :: names) = ⟨name :: names⟩ := by
          rw [Path.mk.injEq, pieces_below hn (List.cons_ne_nil _ _),
            base_of_isEmpty_components hp, List.nil_append]
        rw [hbelow, lead_of_step (hn name List.mem_cons_self).step, (isEmpty_components_iff.1 hp).1]
  · exact lead_below (Bool.eq_false_iff.2 hp) hn

theorem isAbsolute_below (p : Path) {names : List Name} (hn : ∀ n ∈ names, IsName n) :
    (p.below names).isAbsolute = p.isAbsolute := by
  rw [Bool.eq_iff_iff, isAbsolute_iff, isAbsolute_iff, lead_below_eq p hn]

theorem map_bodyComponent {names : List Name} (hn : ∀ n ∈ names, IsName n) :
    names.map bodyComponent = names.map .name :=
  List.map_congr_left fun name hname => if_neg (hn name hname).down

theorem components_below (p : Path) {names : List Name} (hn : ∀ n ∈ names, IsName n) :
    (p.below names).components = p.components ++ names.map .name := by
  rw [components_eq, components_eq, lead_below_eq p hn, steps_below hn, List.map_append,
    map_bodyComponent hn, List.append_assoc]

theorem base_join {p q : Path} (h : q.isAbsolute = false) (hq : q.pieces ≠ []) :
    (p.join q).base = p.base ++ q.base := by
  rw [base, pieces_join h, List.getLast?_append_of_ne_nil _ hq, base.eq_def q]
  split
  · exact List.dropLast_append_of_ne_nil hq
  · rfl

/-- To go on with names and to join a path in front can be done in either order. -/
theorem join_below (p : Path) {q : Path} (hq : q.Sound) {names : List Name}
    (hn : ∀ n ∈ names, IsName n) : p.join (q.below names) = (p.join q).below names := by
  by_cases hne : names = []
  · rw [hne]
    rfl
  cases ha : q.isAbsolute with
  | true => rw [join, join, isAbsolute_below q hn, ha, if_pos rfl, if_pos rfl]
  | false =>
      have hpieces : (p.join (q.below names)).pieces = ((p.join q).below names).pieces := by
        rw [pieces_join ((isAbsolute_below q hn).trans ha), pieces_below hn hne,
          pieces_below hn hne, base_join ha hq.ne_nil, List.append_assoc]
      exact congrArg Path.mk hpieces

/-- The pieces that follow the lead are those of the path and then the names. -/
theorem exists_body_below (p : Path) (hp : p.components.isEmpty = false) {names : List Name}
    (h : ∀ n ∈ names, IsName n) :
    ∃ front, (p.below names).body = front ++ names ∧ stepsOf front = p.steps := by
  by_cases hne : names = []
  · subst hne
    exact ⟨p.body, (List.append_nil _).symm, (steps_eq p).symm⟩
  have hpieces := pieces_eq (p.below names)
  rw [lead_below hp h, pieces_below h hne] at hpieces
  rcases List.append_eq_append_iff.1 hpieces with ⟨more, hm, hn⟩ | ⟨more, hm, hn⟩
  · have hmore : more = [] := by
      refine List.eq_nil_iff_forall_not_mem.2 fun x hx => ?_
      have hidle : isIdle x = true :=
        idle_of_mem_lead (p := p) (hm ▸ List.mem_append_right _ hx)
      have hstep : isIdle x = false := (h x (hn ▸ List.mem_append_left _ hx)).step
      rw [hidle] at hstep
      cases hstep
    subst hmore
    rw [List.append_nil] at hm
    refine ⟨[], hn.symm, ?_⟩
    rw [← stepsOf_base, ← hm, stepsOf_eq_nil fun _ => idle_of_mem_lead]
    rfl
  · refine ⟨more, hn, ?_⟩
    rw [← stepsOf_base, hm, stepsOf_append, stepsOf_eq_nil fun _ => idle_of_mem_lead]
    rfl

/-- Seen from a path, what goes on from it with names has these names left. -/
theorem stripBase_below (p : Path) {names : List Name} (h : ∀ n ∈ names, IsName n) :
    (p.below names).stripBase p = some (assemble [] names) := by
  have hidle : ∀ n ∈ names, isIdle n = false := fun n hn => (h n hn).step
  rw [stripBase]
  by_cases hp : p.components.isEmpty = true
  · rw [if_pos hp]
    by_cases hne : names = []
    · subst hne
      obtain ⟨hlead, hsteps⟩ := isEmpty_components_iff.1 hp
      have hbody : dropIdleEnd p.body = [] := by
        obtain ⟨-, hb⟩ | ⟨init, last, -, -, hs⟩ := dropIdleEnd_cases p.body
        · exact hb
        · rw [steps_eq, hs] at hsteps
          simp at hsteps
      rw [show p.below [] = p from rfl, hlead, hbody]
    · have hbelow : p.below names = ⟨names⟩ := by
        rw [Path.mk.injEq, pieces_below h hne, base_of_isEmpty_components hp, List.nil_append]
      obtain ⟨name, rest, rfl⟩ := List.exists_cons_of_ne_nil hne
      have hlead := lead_of_step (hidle name List.mem_cons_self) rest
      rw [hbelow, body, hlead, List.length_nil, List.drop_zero, dropIdleEnd_eq_self hidle]
  · rw [Bool.not_eq_true] at hp
    obtain ⟨front, hb, hf⟩ := exists_body_below p hp h
    have hafter : after (p.body.filter (!isIdle ·)) (p.below names).body = some names := by
      rw [hb, show p.body.filter (!isIdle ·) = stepsOf front from (steps_eq p ▸ hf).symm]
      exact after_steps hidle front
    rw [hp, if_neg Bool.false_ne_true, if_pos (lead_below hp h).symm, hafter]
    rfl

/-- A component that is a step, as it is spelled. -/
def Component.step? : Component → Option Name
  | root => none
  | here => none
  | up => some ".."
  | name piece => some piece

theorem step?_bodyComponent (piece : Name) : (bodyComponent piece).step? = some piece := by
  rw [bodyComponent]
  split
  · next h => exact congrArg some h.symm
  · rfl

/-- The steps of a path are known from its components. -/
theorem filterMap_components (p : Path) : p.components.filterMap Component.step? = p.steps := by
  have hlead : (leadComponent p.lead).filterMap Component.step? = [] := by
    unfold leadComponent
    split <;> rfl
  rw [components_eq, List.filterMap_append, hlead, List.nil_append, List.filterMap_map,
    show Component.step? ∘ bodyComponent = some from funext step?_bodyComponent,
    List.filterMap_some]

theorem steps_of_fileName? {p : Path} {name : Name} (h : p.fileName? = some name) :
    (∃ init, p.steps = init ++ [name]) ∧ name ≠ ".." := by
  have hlast : p.components.getLast? = some (.name name) := by
    rw [fileName?] at h
    split at h
    · next hl => rw [hl, Option.some.inj h]
    · cases h
  obtain ⟨init, hi⟩ := List.getLast?_eq_some_iff.1 hlast
  refine ⟨⟨init.filterMap Component.step?, ?_⟩, ?_⟩
  · rw [← filterMap_components, hi, List.filterMap_append]
    rfl
  · rintro rfl
    have hmem : Component.name ".." ∈ p.components :=
      hi ▸ List.mem_append_right _ List.mem_cons_self
    rw [components_eq, List.mem_append, List.mem_map] at hmem
    rcases hmem with hmem | ⟨piece, -, hp⟩
    · unfold leadComponent at hmem
      split at hmem <;> simp at hmem
    · rw [bodyComponent] at hp
      split at hp
      · cases hp
      · next hne => exact hne (Component.name.inj hp)

theorem Sound.slashFree_steps {p : Path} (h : p.Sound) : ∀ x ∈ p.steps, x.has '/' = false :=
  fun x hx => h.slashFree x (List.mem_of_mem_filter hx)

/-- The last component of a path that a text is cut into leads one level down. -/
theorem Sound.isName_fileName {p : Path} (h : p.Sound) {name : Name}
    (hn : p.fileName? = some name) : IsName name := by
  obtain ⟨⟨init, hs⟩, hup⟩ := steps_of_fileName? hn
  have hmem : name ∈ p.steps := hs ▸ List.mem_append_right _ List.mem_cons_self
  exact ⟨idle_of_mem_stepsOf hmem, hup, h.slashFree_steps name hmem⟩

section Assemble

variable {names : List Name}

theorem pieces_assemble_nil (hne : names ≠ []) : (assemble [] names).pieces = names :=
  assemble_of_ne_nil [] hne

theorem sound_assemble (h : ∀ n ∈ names, IsName n) : (assemble [] names).Sound := by
  by_cases hne : names = []
  · subst hne
    constructor <;> simp [assemble, Name.has]
  · have hpieces := pieces_assemble_nil hne
    exact ⟨by rwa [hpieces], fun x hx => (h x (by rwa [hpieces] at hx)).slashFree⟩

theorem isAbsolute_assemble (h : ∀ n ∈ names, IsName n) :
    (assemble [] names).isAbsolute = false := by
  cases names with
  | nil => rfl
  | cons name names =>
      rw [Bool.eq_false_iff, ne_eq, isAbsolute_iff]
      have hpath : assemble [] (name :: names) = ⟨name :: names⟩ := rfl
      rw [hpath, lead_of_step (h name List.mem_cons_self).step]
      exact (List.cons_ne_nil _ _).symm

theorem steps_assemble (h : ∀ n ∈ names, IsName n) : (assemble [] names).steps = names := by
  rw [stepsOf_assemble (fun _ hx => absurd hx List.not_mem_nil),
    stepsOf_eq_self fun x hx => (h x hx).step]

theorem components_assemble (h : ∀ n ∈ names, IsName n) :
    (assemble [] names).components = names.map .name := by
  cases names with
  | nil => rfl
  | cons first rest =>
      have hlead : (assemble [] (first :: rest)).lead = [] :=
        lead_of_step (h first List.mem_cons_self).step rest
      rw [components_eq, hlead, steps_assemble h, map_bodyComponent h]
      rfl

theorem parent?_assemble (h : ∀ n ∈ names, IsName n) :
    (assemble [] names).parent?.getD (ofText "") = assemble [] names.dropLast := by
  cases names with
  | nil => rfl
  | cons name rest =>
      have hidle : ∀ x ∈ name :: rest, isIdle x = false := fun x hx => (h x hx).step
      have hpath : assemble [] (name :: rest) = ⟨name :: rest⟩ := rfl
      have hlead : (assemble [] (name :: rest)).lead = [] := by
        rw [hpath, lead_of_step (h name List.mem_cons_self).step]
      have hbody : dropIdleEnd (assemble [] (name :: rest)).body = name :: rest := by
        rw [body, hlead]
        exact dropIdleEnd_eq_self hidle
      rw [parent?, hbody, hlead]
      simp only [Option.getD_some]
      rw [dropIdleEnd_eq_self fun x hx => hidle x (List.dropLast_subset _ hx)]

end Assemble

end PermitTypes.Path
