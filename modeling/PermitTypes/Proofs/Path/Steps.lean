import Mathlib.Data.List.DropRight
import PermitTypes.Path
import PermitTypes.Proofs.Utf8

namespace PermitTypes.Path

theorem cut_ne_nil (cs : List Char) : cut cs ≠ [] := by
  induction cs with
  | nil => exact List.cons_ne_nil _ _
  | cons c cs ih =>
      rw [cut]
      split
      · exact List.cons_ne_nil _ _
      · cases hc : cut cs with
        | nil => exact absurd hc ih
        | cons first rest => exact List.cons_ne_nil _ _

theorem cut_cons_of_ne {c : Char} (h : c ≠ '/') {cs first : List Char} {rest : List (List Char)}
    (hc : cut cs = first :: rest) : cut (c :: cs) = (c :: first) :: rest := by
  rw [cut, if_neg h, hc]
  rfl

theorem cut_append_slash {first : List Char} (h : '/' ∉ first) (rest : List Char) :
    cut (first ++ '/' :: rest) = first :: cut rest := by
  induction first with
  | nil => exact if_pos rfl
  | cons c first ih =>
      rw [List.mem_cons, not_or] at h
      exact cut_cons_of_ne (Ne.symm h.1) (ih h.2)

theorem cut_of_not_mem {cs : List Char} (h : '/' ∉ cs) : cut cs = [cs] := by
  induction cs with
  | nil => rfl
  | cons c cs ih =>
      rw [List.mem_cons, not_or] at h
      exact cut_cons_of_ne (Ne.symm h.1) (ih h.2)

theorem slash_not_mem_of_mem_cut {cs piece : List Char} (h : piece ∈ cut cs) : '/' ∉ piece := by
  induction cs generalizing piece with
  | nil =>
      rw [List.mem_singleton.1 h]
      exact List.not_mem_nil
  | cons c cs ih =>
      by_cases hc : c = '/'
      · rw [cut, if_pos hc, List.mem_cons] at h
        rcases h with rfl | h
        · exact List.not_mem_nil
        · exact ih h
      · obtain ⟨first, rest, hcut⟩ := List.exists_cons_of_ne_nil (cut_ne_nil cs)
        rw [cut_cons_of_ne hc hcut, List.mem_cons] at h
        rw [hcut] at ih
        rcases h with rfl | h
        · rw [List.mem_cons, not_or]
          exact ⟨Ne.symm hc, ih List.mem_cons_self⟩
        · exact ih (List.mem_cons_of_mem _ h)

theorem span_cons (piece : Name) (pieces : List Name) :
    span (piece :: pieces) = piece.size + 1 + span pieces := rfl

theorem span_append (a b : List Name) : span (a ++ b) = span a + span b := by
  induction a with
  | nil => exact (Nat.zero_add _).symm
  | cons piece a ih =>
      rw [List.cons_append, span_cons, span_cons, ih, Nat.add_assoc (piece.size + 1)]

theorem size_le_of_prefix {p q : Path} (h : q.pieces <+: p.pieces) : q.size ≤ p.size := by
  obtain ⟨more, hp⟩ := h
  rw [size, size, ← hp, span_append]
  omega

/-- A path has pieces, and a slash is in none of them. -/
structure Sound (p : Path) : Prop where
  ne_nil : p.pieces ≠ []
  slashFree : ∀ piece ∈ p.pieces, piece.has '/' = false

theorem sound_ofText (text : String) : (ofText text).Sound := by
  constructor
  · simpa [ofText] using cut_ne_nil text.toList
  · intro piece h
    obtain ⟨cs, hcs, rfl⟩ := List.mem_map.1 h
    rw [Name.has_text_eq_false, String.toList_ofList]
    exact slash_not_mem_of_mem_cut hcs

theorem ofText_of_not_mem {name : String} (h : '/' ∉ name.toList) :
    ofText name = ⟨[.text name]⟩ := by
  rw [ofText, cut_of_not_mem h, List.map_singleton, String.ofList_toList]

/-- The path can be written as a text. -/
def IsText (p : Path) : Prop := ∀ piece ∈ p.pieces, piece.text?.isSome = true

theorem Sound.ofText_text {p : Path} (h : p.Sound) (htext : p.IsText) : ofText p.text = p := by
  obtain ⟨pieces⟩ := p
  obtain ⟨hne, hslash⟩ := h
  rw [text]
  induction pieces with
  | nil => exact absurd rfl hne
  | cons piece rest ih =>
      obtain ⟨hfirst, hothers⟩ := List.forall_mem_cons.1 htext
      cases piece with
      | raw bytes noText => cases hfirst
      | text piece =>
          have hpiece : '/' ∉ piece.toList :=
            Name.has_text_eq_false.1 (hslash _ List.mem_cons_self)
          cases rest with
          | nil =>
              rw [List.map_singleton, String.intercalate_singleton, Name.shown_text,
                ofText_of_not_mem hpiece]
          | cons next rest =>
              have hrest := ih hothers (List.cons_ne_nil _ _)
                fun x hx => hslash x (List.mem_cons_of_mem _ hx)
              rw [ofText, Path.mk.injEq] at hrest
              rw [List.map_cons, List.map_cons, String.intercalate_cons_cons, ofText,
                String.toList_append, String.toList_append, List.append_assoc]
              refine congrArg Path.mk ?_
              rw [show "/".toList = ['/'] from rfl, List.singleton_append, Name.shown_text,
                cut_append_slash hpiece, List.map_cons, ← List.map_cons, hrest,
                String.ofList_toList]

/-- Only the empty text is one empty piece. -/
theorem eq_empty_of_pieces_ofText {text : String} (h : (ofText text).pieces = [.text ""]) :
    text = "" := by
  obtain ⟨first, hcut, hfirst⟩ := List.map_eq_singleton_iff.1 h
  have hnil : first = [] := by simpa using congrArg String.toList (Name.text.inj hfirst)
  rw [hnil] at hcut
  rw [← String.toList_eq_nil_iff]
  cases hs : text.toList with
  | nil => rfl
  | cons c cs =>
      rw [hs] at hcut
      by_cases hc : c = '/'
      · rw [cut, if_pos hc] at hcut
        exact absurd (List.cons.inj hcut).2 (cut_ne_nil cs)
      · obtain ⟨piece, rest, hpiece⟩ := List.exists_cons_of_ne_nil (cut_ne_nil cs)
        rw [cut_cons_of_ne hc hpiece] at hcut
        cases hcut

theorem Sound.join {p q : Path} (hp : p.Sound) (hq : q.Sound) : (p.join q).Sound := by
  rw [Path.join]
  split
  · exact hq
  · split
    · refine ⟨List.append_ne_nil_of_right_ne_nil _ hq.ne_nil, fun piece h => ?_⟩
      rcases List.mem_append.1 h with h | h
      · exact hp.slashFree piece (List.dropLast_subset _ h)
      · exact hq.slashFree piece h
    · refine ⟨List.append_ne_nil_of_right_ne_nil _ hq.ne_nil, fun piece h => ?_⟩
      rcases List.mem_append.1 h with h | h
      · exact hp.slashFree piece h
      · exact hq.slashFree piece h

theorem Sound.joinText {p : Path} (h : p.Sound) (text : String) : (p.joinText text).Sound :=
  h.join (sound_ofText text)

theorem Sound.joinName {p : Path} (h : p.Sound) {name : Name} (hname : name.has '/' = false) :
    (p.joinName name).Sound :=
  h.join ⟨List.cons_ne_nil _ _, List.forall_mem_singleton.2 hname⟩

/-- The pieces that lead somewhere. -/
def stepsOf (pieces : List Name) : List Name := pieces.filter (!isIdle ·)

def steps (p : Path) : List Name := stepsOf p.pieces

theorem stepsOf_append (a b : List Name) : stepsOf (a ++ b) = stepsOf a ++ stepsOf b :=
  List.filter_append ..

theorem stepsOf_cons_idle {piece : Name} (h : isIdle piece = true) (pieces : List Name) :
    stepsOf (piece :: pieces) = stepsOf pieces :=
  List.filter_cons_of_neg (by simp [h])

theorem stepsOf_cons_step {piece : Name} (h : isIdle piece = false) (pieces : List Name) :
    stepsOf (piece :: pieces) = piece :: stepsOf pieces :=
  List.filter_cons_of_pos (by simp [h])

theorem stepsOf_eq_self {pieces : List Name} (h : ∀ x ∈ pieces, isIdle x = false) :
    stepsOf pieces = pieces :=
  List.filter_eq_self.2 fun x hx => by simp [h x hx]

theorem stepsOf_eq_nil {pieces : List Name} (h : ∀ x ∈ pieces, isIdle x = true) :
    stepsOf pieces = [] :=
  List.filter_eq_nil_iff.2 fun x hx => by simp [h x hx]

theorem idle_of_mem_stepsOf {pieces : List Name} {x : Name} (h : x ∈ stepsOf pieces) :
    isIdle x = false := by
  simpa using (List.mem_filter.1 h).2

theorem pieces_eq (p : Path) : p.pieces = p.lead ++ p.body := by
  have h : p.lead <+: p.pieces := by
    rw [lead]
    split
    · next hp => exact ⟨_, hp.symm⟩
    · next hp => exact ⟨_, hp.symm⟩
    · exact List.nil_prefix
  obtain ⟨rest, hr⟩ := h
  rw [body, ← hr, List.drop_left]

theorem lead_cases (p : Path) : p.lead = [] ∨ p.lead = [.text ""] ∨ p.lead = [.text "."] := by
  rw [lead]
  split
  · exact .inr (.inl rfl)
  · exact .inr (.inr rfl)
  · exact .inl rfl

theorem idle_of_mem_lead {p : Path} {x : Name} (h : x ∈ p.lead) : isIdle x = true := by
  rcases lead_cases p with hl | hl | hl
  · rw [hl] at h
    cases h
  · rw [hl, List.mem_singleton] at h
    rw [h]
    rfl
  · rw [hl, List.mem_singleton] at h
    rw [h]
    rfl

theorem steps_eq (p : Path) : p.steps = stepsOf p.body := by
  rw [steps, pieces_eq, stepsOf_append, stepsOf_eq_nil fun _ => idle_of_mem_lead, List.nil_append]

theorem dropIdleEnd_concat_idle {x : Name} (h : isIdle x = true) (pieces : List Name) :
    dropIdleEnd (pieces ++ [x]) = dropIdleEnd pieces :=
  List.rdropWhile_concat_pos isIdle pieces x h

theorem dropIdleEnd_concat_step {x : Name} (h : isIdle x = false) (pieces : List Name) :
    dropIdleEnd (pieces ++ [x]) = pieces ++ [x] :=
  List.rdropWhile_concat_neg isIdle pieces x (by simp [h])

theorem dropIdleEnd_prefix_self (pieces : List Name) : dropIdleEnd pieces <+: pieces :=
  List.rdropWhile_prefix isIdle pieces

theorem stepsOf_dropIdleEnd (pieces : List Name) :
    stepsOf (dropIdleEnd pieces) = stepsOf pieces := by
  induction pieces using List.reverseRecOn with
  | nil => rfl
  | append_singleton pieces x ih =>
      by_cases h : isIdle x = true
      · rw [dropIdleEnd_concat_idle h, ih, stepsOf_append, stepsOf_cons_idle h]
        exact (List.append_nil _).symm
      · rw [Bool.not_eq_true] at h
        rw [dropIdleEnd_concat_step h]

theorem stepsOf_rdropWhile (pieces : List Name) :
    stepsOf (List.rdropWhile (· = .text "") pieces) = stepsOf pieces := by
  induction pieces using List.reverseRecOn with
  | nil => rfl
  | append_singleton pieces x ih =>
      by_cases h : x = ""
      · subst h
        rw [List.rdropWhile_concat_pos _ _ _ (by simp), ih, stepsOf_append]
        exact (List.append_nil _).symm
      · rw [List.rdropWhile_concat_neg _ _ _ (by simpa using h)]

theorem dropIdleEnd_cases (pieces : List Name) :
    (stepsOf pieces = [] ∧ dropIdleEnd pieces = []) ∨
      ∃ init last, isIdle last = false ∧ dropIdleEnd pieces = init ++ [last] ∧
        stepsOf pieces = stepsOf init ++ [last] := by
  induction pieces using List.reverseRecOn with
  | nil => exact .inl ⟨rfl, rfl⟩
  | append_singleton pieces x ih =>
      by_cases h : isIdle x = true
      · rw [dropIdleEnd_concat_idle h, stepsOf_append, stepsOf_cons_idle h]
        simpa [stepsOf] using ih
      · rw [Bool.not_eq_true] at h
        refine .inr ⟨pieces, x, h, dropIdleEnd_concat_step h pieces, ?_⟩
        rw [stepsOf_append, stepsOf_cons_step h]
        rfl

theorem dropIdleEnd_eq_self {pieces : List Name} (h : ∀ x ∈ pieces, isIdle x = false) :
    dropIdleEnd pieces = pieces := by
  cases hp : pieces.reverse with
  | nil =>
      rw [List.reverse_eq_nil_iff.1 hp]
      rfl
  | cons x rest =>
      have hx : isIdle x = false := by
        refine h x ?_
        rw [← List.mem_reverse, hp]
        exact List.mem_cons_self
      have he : pieces = rest.reverse ++ [x] := by
        rw [← List.reverse_reverse pieces, hp, List.reverse_cons]
      rw [he, dropIdleEnd_concat_step hx]

theorem stepsOf_assemble {front : List Name} (h : ∀ x ∈ front, isIdle x = true)
    (pieces : List Name) : (assemble front pieces).steps = stepsOf pieces := by
  unfold assemble
  split
  · rfl
  · rfl
  · rw [steps, stepsOf_append, stepsOf_eq_nil h, List.nil_append]

/-- Its last piece leads somewhere, if any piece does. -/
def Trimmed (p : Path) : Prop :=
  p.steps ≠ [] → ∃ init last, p.pieces = init ++ [last] ∧ isIdle last = false

theorem assemble_of_ne_nil (front : List Name) {pieces : List Name} (h : pieces ≠ []) :
    (assemble front pieces).pieces = front ++ pieces := by
  unfold assemble
  split
  · exact absurd rfl h
  · exact absurd rfl h
  · rfl

/-- The path above another one takes all its steps but the last. -/
structure Above (p q : Path) : Prop where
  steps : q.steps = p.steps.dropLast
  trimmed : q.Trimmed
  front : q.steps ≠ [] → q.pieces <+: p.pieces
  empty : q.steps = [] →
    q.pieces = [.text "", .text ""] ∨ q.pieces = [.text "."] ∨ q.pieces = [.text ""]

theorem exists_parent? {p : Path} (h : p.steps ≠ []) : ∃ q, p.parent? = some q ∧ Above p q := by
  have hbody : dropIdleEnd p.body ≠ [] := by
    intro he
    rw [steps_eq, ← stepsOf_dropIdleEnd, he] at h
    exact h rfl
  obtain ⟨hnil, -⟩ | ⟨init, last, hl, he, hs⟩ := dropIdleEnd_cases p.body
  · exact absurd (steps_eq p ▸ hnil) h
  have hparent : p.parent? = some (assemble p.lead (dropIdleEnd init)) := by
    rw [parent?]
    split
    · next hn _ => exact absurd hn hbody
    · next hn _ => exact absurd hn hbody
    · rw [he, List.dropLast_concat]
  have hsteps : (assemble p.lead (dropIdleEnd init)).steps = stepsOf init := by
    rw [stepsOf_assemble fun _ => idle_of_mem_lead, stepsOf_dropIdleEnd]
  refine ⟨_, hparent, ?_, fun hne => ?_, fun hne => ?_, fun hnil => ?_⟩
  · rw [hsteps, steps_eq, hs, List.dropLast_concat]
  · obtain ⟨hn, -⟩ | ⟨init', last', hl', he', -⟩ := dropIdleEnd_cases init
    · exact absurd (hsteps.trans hn) hne
    · refine ⟨p.lead ++ init', last', ?_, hl'⟩
      rw [he', assemble_of_ne_nil _ (by simp), List.append_assoc]
  · have hinit : dropIdleEnd init ≠ [] := by
      intro hn
      rw [hsteps, ← stepsOf_dropIdleEnd, hn] at hne
      exact hne rfl
    rw [assemble_of_ne_nil _ hinit, pieces_eq p, List.prefix_append_right_inj]
    exact (dropIdleEnd_prefix_self init).trans
      ((List.prefix_append init [last]).trans (he ▸ dropIdleEnd_prefix_self p.body))
  · obtain ⟨-, hn⟩ | ⟨init', last', hl', -, hs'⟩ := dropIdleEnd_cases init
    · rw [hn]
      rcases lead_cases p with hl | hl | hl
      · rw [hl]
        exact .inr (.inr rfl)
      · rw [hl]
        exact .inl rfl
      · rw [hl]
        exact .inr (.inl rfl)
    · rw [hsteps, hs'] at hnil
      exact absurd hnil (by simp)

theorem Above.sound {p q : Path} (h : Above p q) (hp : p.Sound) : q.Sound := by
  by_cases hq : q.steps = []
  · rcases h.empty hq with he | he | he
    · constructor <;> simp [he, Name.has]
    · constructor <;> simp [he, Name.has]
    · constructor <;> simp [he, Name.has]
  · refine ⟨fun hn => hq (by rw [Path.steps, hn]; rfl), fun x hx => ?_⟩
    exact hp.slashFree x ((h.front hq).subset hx)

/-- What is above a path without steps is empty. -/
theorem parent?_of_idle {p q : Path} (hs : p.steps = []) (h : p.parent? = some q) :
    q = ⟨[""]⟩ := by
  have hbody : dropIdleEnd p.body = [] := by
    rcases dropIdleEnd_cases p.body with ⟨-, hb⟩ | ⟨init, last, -, -, hl⟩
    · exact hb
    · simp [steps_eq, hl] at hs
  rw [parent?, hbody] at h
  split at h
  · exact (Option.some.inj h).symm
  · cases h
  · contradiction

theorem steps_parent? {p q : Path} (h : p.parent? = some q) : q.steps = p.steps.dropLast := by
  by_cases hs : p.steps = []
  · rw [parent?_of_idle hs h, hs]
    rfl
  · obtain ⟨other, hother, habove⟩ := exists_parent? hs
    rw [Option.some.inj (h.symm.trans hother), habove.steps]

theorem Sound.parent {p q : Path} (hp : p.Sound) (h : p.parent? = some q) : q.Sound := by
  by_cases hs : p.steps = []
  · rw [parent?_of_idle hs h]
    constructor <;> simp [Name.has]
  · obtain ⟨other, hother, habove⟩ := exists_parent? hs
    obtain rfl := Option.some.inj (h.symm.trans hother)
    exact habove.sound hp

end PermitTypes.Path
