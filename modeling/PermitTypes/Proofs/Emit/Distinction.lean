import PermitTypes.Proofs.Emit.NormalForm

namespace PermitTypes.Emit.NormalForm

open Schema

def Indented (line : String) : Prop := ∃ rest, line = "  " ++ rest

/-- The lines of a block end where these begin. -/
def Outer (lines : List String) : Prop := ∀ line ∈ lines.head?, ¬ Indented line

theorem not_indented {line : String} {c : Char} (h : line.toList.head? = some c) (hc : c ≠ ' ') :
    ¬ Indented line := by
  rintro ⟨rest, rfl⟩
  rw [String.toList_append] at h
  exact hc (Option.some.inj h).symm

theorem outer_nil : Outer [] := by
  simp [Outer]

theorem outer_cons {line : String} {c : Char} (h : line.toList.head? = some c) (hc : c ≠ ' ')
    (rest : List String) : Outer (line :: rest) := by
  simpa [Outer] using not_indented h hc

theorem indent_append_inj {a b r s : List String} (hr : Outer r) (hs : Outer s)
    (h : indent a ++ r = indent b ++ s) : a = b ∧ r = s := by
  induction a generalizing b with
  | nil =>
      cases b with
      | nil => exact ⟨rfl, h⟩
      | cons y b =>
          change r = ("  " ++ y) :: (indent b ++ s) at h
          exact absurd ⟨y, rfl⟩ (hr ("  " ++ y) (by rw [h]; rfl))
  | cons x a ih =>
      cases b with
      | nil =>
          change ("  " ++ x) :: (indent a ++ r) = s at h
          exact absurd ⟨x, rfl⟩ (hs ("  " ++ x) (by rw [← h]; rfl))
      | cons y b =>
          change ("  " ++ x) :: (indent a ++ r) = ("  " ++ y) :: (indent b ++ s) at h
          obtain ⟨hxy, htail⟩ := List.cons.inj h
          obtain ⟨rfl, hrs⟩ := ih htail
          exact ⟨by rw [(String.append_right_inj _).1 hxy], hrs⟩

/-- A run of elements ends where the first other one stands. -/
theorem append_inj_of_run {α : Type} {p : α → Bool} {v w a b : List α} (hv : ∀ x ∈ v, p x = false)
    (hw : ∀ x ∈ w, p x = false) (ha : ∀ x ∈ a.head?, p x = true) (hb : ∀ x ∈ b.head?, p x = true)
    (h : v ++ a = w ++ b) : v = w ∧ a = b := by
  induction v generalizing w with
  | nil =>
      cases w with
      | nil => exact ⟨rfl, h⟩
      | cons d w =>
          have hd := ha d (by rw [← List.nil_append a, h]; rfl)
          rw [hw d List.mem_cons_self] at hd
          cases hd
  | cons c v ih =>
      cases w with
      | nil =>
          have hc := hb c (by rw [← List.nil_append b, ← h]; rfl)
          rw [hv c List.mem_cons_self] at hc
          cases hc
      | cons d w =>
          obtain ⟨rfl, htail⟩ := List.cons.inj h
          obtain ⟨rfl, hab⟩ := ih (fun x hx => hv x (List.mem_cons_of_mem _ hx))
            (fun x hx => hw x (List.mem_cons_of_mem _ hx)) htail
          exact ⟨rfl, hab⟩

theorem blank_free_append_inj {v w a b : List Char} (hv : ' ' ∉ v) (hw : ' ' ∉ w)
    (h : v ++ ' ' :: a = w ++ ' ' :: b) : v = w ∧ a = b := by
  have hfree : ∀ {u : List Char}, ' ' ∉ u → ∀ x ∈ u, (x == ' ') = false :=
    fun hu x hx => beq_false_of_ne fun e => hu (e ▸ hx)
  obtain ⟨hrun, hrest⟩ :=
    append_inj_of_run (hfree hv) (hfree hw) (by simp) (by simp) h
  exact ⟨hrun, (List.cons.inj hrest).2⟩

theorem append_last_blank_inj {v w a b : List Char} (hv : ' ' ∉ v) (hw : ' ' ∉ w)
    (h : a ++ ' ' :: v = b ++ ' ' :: w) : a = b ∧ v = w := by
  have hr := congrArg List.reverse h
  simp only [List.reverse_append, List.reverse_cons, List.append_assoc, List.singleton_append]
    at hr
  obtain ⟨h1, h2⟩ := blank_free_append_inj (by simpa using hv) (by simpa using hw) hr
  exact ⟨List.reverse_inj.1 h2, List.reverse_inj.1 h1⟩

theorem blank_not_mem_valueText (list : Bool) (type : Option Scalar) :
    ' ' ∉ (valueText list type).toList := by
  cases list <;> rcases type with _ | _ | _ | _ | _ | _ <;> decide

theorem valueText_inj {list list' : Bool} {type type' : Option Scalar}
    (h : valueText list type = valueText list' type') : list = list' ∧ type = type' := by
  cases list <;> cases list' <;> rcases type with _ | _ | _ | _ | _ | _ <;>
    rcases type' with _ | _ | _ | _ | _ | _ <;> revert h <;> decide

/-- The last blank of a line stands between the label and the value, whatever the name is. -/
theorem firstLine_inj {label label' : String} {list list' : Bool} {type type' : Option Scalar}
    (h : firstLine label list type = firstLine label' list' type') :
    label = label' ∧ list = list' ∧ type = type' := by
  have hl := congrArg String.toList h
  simp only [firstLine, String.toList_append] at hl
  change (label.toList ++ ([':'] ++ [' '])) ++ _ = (label'.toList ++ ([':'] ++ [' '])) ++ _ at hl
  simp only [← List.append_assoc] at hl
  rw [List.append_assoc, List.append_assoc (label'.toList ++ [':'])] at hl
  obtain ⟨hc, hv⟩ := append_last_blank_inj (blank_not_mem_valueText list type)
    (blank_not_mem_valueText list' type') hl
  exact ⟨String.toList_inj.1 (List.append_cancel_right hc), valueText_inj (String.toList_inj.1 hv)⟩

theorem outer_closeLine (list : Bool) (rest : List String) : Outer (closeLine list :: rest) := by
  cases list <;> exact outer_cons (c := '\x7d') (by decide) (by decide) rest

theorem containerLines_inj : {a b : List Field} → containerLines a = containerLines b → a = b
  | [], [], _ => rfl
  | [], .scalar .. :: _, h => by simp [containerLines, Field.lines] at h
  | [], .nested .. :: _, h => by simp [containerLines, Field.lines] at h
  | .scalar .. :: _, [], h => by simp [containerLines, Field.lines] at h
  | .nested .. :: _, [], h => by simp [containerLines, Field.lines] at h
  | .scalar .. :: a, .scalar .. :: b, h => by
      simp only [containerLines, Field.lines, List.cons_append, List.nil_append] at h
      obtain ⟨hf, hrest⟩ := List.cons.inj h
      obtain ⟨rfl, rfl, ht⟩ := firstLine_inj hf
      cases ht
      rw [containerLines_inj hrest]
  | .scalar .. :: _, .nested .. :: _, h => by
      simp only [containerLines, Field.lines, List.cons_append] at h
      exact absurd (firstLine_inj (List.cons.inj h).1).2.2 (by simp)
  | .nested .. :: _, .scalar .. :: _, h => by
      simp only [containerLines, Field.lines, List.cons_append] at h
      exact absurd (firstLine_inj (List.cons.inj h).1).2.2 (by simp)
  | .nested _ list fields :: a, .nested _ list' fields' :: b, h => by
      simp only [containerLines, Field.lines, List.cons_append, List.append_assoc,
        List.nil_append] at h
      obtain ⟨hf, hblock⟩ := List.cons.inj h
      obtain ⟨rfl, rfl, -⟩ := firstLine_inj hf
      obtain ⟨hfields, hrest⟩ :=
        indent_append_inj (outer_closeLine list _) (outer_closeLine list _) hblock
      rw [containerLines_inj hfields, containerLines_inj (List.cons.inj hrest).2]

theorem outer_brace (rest : List String) : Outer ("\x7d" :: rest) :=
  outer_cons (c := '\x7d') (by decide) (by decide) rest

/-- A block ends at the first line that is not indented. -/
theorem blockLines_append_inj {head head' : String} {a b : Container} {r s : List String}
    (h : blockLines head a ++ r = blockLines head' b ++ s) : head = head' ∧ a = b ∧ r = s := by
  simp only [blockLines, List.cons_append, List.append_assoc, List.nil_append] at h
  obtain ⟨hhead, hblock⟩ := List.cons.inj h
  obtain ⟨hfields, hrest⟩ := indent_append_inj (outer_brace r) (outer_brace s) hblock
  exact ⟨hhead, containerLines_inj hfields, (List.cons.inj hrest).2⟩

theorem branches_inj {head : String} {a b : List Container}
    (h : a.flatMap (blockLines head) = b.flatMap (blockLines head)) : a = b := by
  induction a generalizing b with
  | nil =>
      cases b with
      | nil => rfl
      | cons y b => simp [blockLines] at h
  | cons x a ih =>
      cases b with
      | nil => simp [blockLines] at h
      | cons y b =>
          rw [List.flatMap_cons, List.flatMap_cons] at h
          obtain ⟨-, rfl, hrest⟩ := blockLines_append_inj h
          rw [ih hrest]

theorem extendPart_inj {a b : Option String} (h : extendPart a = extendPart b) : a = b := by
  match a, b, h with
  | none, none, _ => rfl
  | some type, some type', h =>
      have hline := (List.cons.inj h).1
      rw [String.append_left_inj, String.append_right_inj] at hline
      rw [hline]

theorem ne_of_toList_ne {s t : String} (h : s.toList ≠ t.toList) : s ≠ t :=
  fun e => h (congrArg String.toList e)

theorem effect_ne_extend (type : String) :
    "effect: \x7b" ≠ "extend: " ++ type ++ "ExtendType" := by
  apply ne_of_toList_ne
  simp [String.toList_append]

theorem effectPart_inj {a b : Option Container} {x y : Option String}
    (h : effectPart a ++ extendPart x = effectPart b ++ extendPart y) : a = b ∧ x = y := by
  match a, b, h with
  | none, none, h => exact ⟨rfl, extendPart_inj h⟩
  | some fields, some fields', h =>
      obtain ⟨-, rfl, hrest⟩ := blockLines_append_inj h
      exact ⟨rfl, extendPart_inj hrest⟩
  | none, some fields, h =>
      cases x with
      | none => cases h
      | some type => exact absurd (List.cons.inj h).1.symm (effect_ne_extend type)
  | some fields, none, h =>
      cases y with
      | none => cases h
      | some type => exact absurd (List.cons.inj h).1 (effect_ne_extend type)

theorem outer_effect_extend (effect : Option Container) (extend : Option String) :
    Outer (effectPart effect ++ extendPart extend) := by
  cases effect with
  | some fields => exact outer_cons (c := 'e') (by decide) (by decide) _
  | none =>
      cases extend with
      | none => exact outer_nil
      | some type =>
          exact outer_cons (c := 'e') (by simp [String.toList_append]) (by decide) []

def shapeHead (optional : Bool) : String := "filter" ++ filterMark optional ++ ": \x7b"

def unionHead (optional : Bool) : String := "filter" ++ filterMark optional ++ ":"

theorem shapeHead_inj {o o' : Bool} (h : shapeHead o = shapeHead o') : o = o' := by
  cases o <;> cases o' <;> revert h <;> decide

theorem unionHead_inj {o o' : Bool} (h : unionHead o = unionHead o') : o = o' := by
  cases o <;> cases o' <;> revert h <;> decide

theorem shapeHead_ne_unionHead (o o' : Bool) : shapeHead o ≠ unionHead o' := by
  cases o <;> cases o' <;> decide

theorem selector_lines_append_inj {o o' : Bool} {a b : Selector} {r s : List String}
    (hr : Outer r) (hs : Outer s) (h : a.lines o ++ r = b.lines o' ++ s) :
    o = o' ∧ a = b ∧ r = s := by
  match a, b, h with
  | .shape fields, .shape fields', h =>
      obtain ⟨hhead, rfl, hrest⟩ := blockLines_append_inj h
      exact ⟨shapeHead_inj hhead, rfl, hrest⟩
  | .union shapes, .union shapes', h =>
      obtain ⟨hhead, hbody⟩ := List.cons.inj h
      obtain ⟨hbranches, hrest⟩ := indent_append_inj hr hs hbody
      exact ⟨unionHead_inj hhead, by rw [branches_inj hbranches], hrest⟩
  | .shape fields, .union shapes, h =>
      exact absurd (List.cons.inj h).1 (shapeHead_ne_unionHead o o')
  | .union shapes, .shape fields, h =>
      exact absurd (List.cons.inj h).1.symm (shapeHead_ne_unionHead o' o)

theorem selector_lines_ne (o : Bool) (a : Selector) (r : List String) (effect : Option Container)
    (extend : Option String) : a.lines o ++ r ≠ effectPart effect ++ extendPart extend := by
  intro h
  have hf : ∃ line, (a.lines o ++ r).head? = some line ∧ line.toList.head? = some 'f' := by
    cases a with
    | shape fields => exact ⟨shapeHead o, rfl, by cases o <;> decide⟩
    | union shapes => exact ⟨unionHead o, rfl, by cases o <;> decide⟩
  obtain ⟨line, hline, hc⟩ := hf
  rw [h] at hline
  match effect, extend, hline with
  | some fields, _, hline =>
      obtain rfl := Option.some.inj hline
      revert hc
      decide
  | none, some type, hline =>
      obtain rfl := Option.some.inj hline
      simp [String.toList_append] at hc

theorem filterPart_inj {a b : Option (Bool × Selector)} {e e' : Option Container}
    {x x' : Option String}
    (h : filterPart a ++ (effectPart e ++ extendPart x) =
      filterPart b ++ (effectPart e' ++ extendPart x')) :
    a = b ∧ effectPart e ++ extendPart x = effectPart e' ++ extendPart x' := by
  match a, b, h with
  | none, none, h => exact ⟨rfl, h⟩
  | some (o, selector), some (o', selector'), h =>
      obtain ⟨rfl, rfl, hrest⟩ := selector_lines_append_inj (outer_effect_extend e x)
        (outer_effect_extend e' x') h
      exact ⟨rfl, hrest⟩
  | some (o, selector), none, h => exact absurd h (selector_lines_ne o selector _ e' x')
  | none, some (o, selector), h => exact absurd h.symm (selector_lines_ne o selector _ e x)

theorem lines_injective : Function.Injective Form.lines := by
  rintro ⟨filter, effect, extend⟩ ⟨filter', effect', extend'⟩ h
  simp only [Form.lines, List.append_assoc] at h
  obtain ⟨rfl, hrest⟩ := filterPart_inj h
  obtain ⟨rfl, rfl⟩ := effectPart_inj hrest
  rfl

/-- Two permits that have lines have the same lines exactly if they have the same normal form.
Field names may be any texts, also ones that look like lines. -/
theorem permitLines_eq_iff_normalForm_eq {o₁ o₂ : Options} {p₁ p₂ : Permit}
    {l₁ l₂ : List String} (h₁ : permitLines o₁ p₁ = .ok l₁) (h₂ : permitLines o₂ p₂ = .ok l₂) :
    l₁ = l₂ ↔ normalForm o₁ p₁ = normalForm o₂ p₂ := by
  rw [lines_of_permitLines h₁, lines_of_permitLines h₂]
  exact lines_injective.eq_iff

/-- A field named `  x` behind an empty object, and a field `x` inside it. -/
theorem blank_name_is_not_nesting :
    permitLines {} { effect := some [("a", .object []), ("  x", .ofTag "text")] } =
        .ok ["effect: \x7b", "  a: \x7b", "  \x7d", "    x: string", "\x7d"] ∧
      permitLines {} { effect := some [("a", .object [("x", .ofTag "uuid")])] } =
        .ok ["effect: \x7b", "  a: \x7b", "    x: string", "  \x7d", "\x7d"] ∧
      normalForm {} { effect := some [("a", .object []), ("  x", .ofTag "text")] } ≠
        normalForm {} { effect := some [("a", .object [("x", .ofTag "uuid")])] } := by
  have h₁ : permitLines {} { effect := some [("a", .object []), ("  x", .ofTag "text")] } =
      .ok ["effect: \x7b", "  a: \x7b", "  \x7d", "    x: string", "\x7d"] := by rfl
  have h₂ : permitLines {} { effect := some [("a", .object [("x", .ofTag "uuid")])] } =
      .ok ["effect: \x7b", "  a: \x7b", "    x: string", "  \x7d", "\x7d"] := by rfl
  exact ⟨h₁, h₂, mt (permitLines_eq_iff_normalForm_eq h₁ h₂).2 (by decide)⟩

end PermitTypes.Emit.NormalForm
