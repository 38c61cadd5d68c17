import PermitTypes.Proofs.Path.Below

namespace PermitTypes.Path

variable {p q : Path} {name : Name}

theorem components_joinName (h : IsName name) (p : Path) :
    (p.joinName name).components = p.components ++ [.name name] :=
  components_below p (List.forall_mem_singleton.2 h)

theorem fileName?_joinName (h : IsName name) (p : Path) :
    (p.joinName name).fileName? = some name := by
  rw [fileName?, components_joinName h, List.getLast?_concat]

theorem parent?_of_body {front : List Name} {last : Name} (hb : p.body = front ++ [last])
    (hl : isIdle last = false) : p.parent? = some (assemble p.lead (dropIdleEnd front)) := by
  rw [parent?, hb, dropIdleEnd_concat_step hl]
  split
  · next hn _ => simp at hn
  · next hn _ => simp at hn
  · rw [List.dropLast_concat]

/-- The lead of a path does not reach its last step. -/
theorem exists_body {init : List Name} {last : Name} (hp : p.pieces = init ++ [last])
    (hl : isIdle last = false) : ∃ front, p.body = front ++ [last] := by
  have hpieces := pieces_eq p
  rcases List.eq_nil_or_concat' p.body with hb | ⟨front, x, hb⟩
  · have hmem : last ∈ p.lead := by
      rw [hb, List.append_nil, hp] at hpieces
      rw [← hpieces]
      exact List.mem_append_right _ List.mem_cons_self
    rw [idle_of_mem_lead hmem] at hl
    cases hl
  · rw [hb, hp, ← List.append_assoc] at hpieces
    rw [hb, (List.append_inj' hpieces rfl).2]
    exact ⟨front, rfl⟩

theorem body_joinName (h : IsName name) (hbase : p.base = p.pieces) :
    (p.joinName name).body = p.body ++ [name] := by
  have hpieces := pieces_eq (p.joinName name)
  have hlead : (p.joinName name).lead = p.lead := lead_below_eq p (List.forall_mem_singleton.2 h)
  rw [pieces_joinName, hbase, hlead, pieces_eq p, List.append_assoc] at hpieces
  exact (List.append_cancel_left hpieces).symm

theorem parent?_joinName_of_step {init : List Name} {last : Name} (h : IsName name)
    (hp : p.pieces = init ++ [last]) (hl : isIdle last = false) :
    (p.joinName name).parent? = some p := by
  have hne : last ≠ "" := by
    rintro rfl
    exact absurd hl (by decide)
  obtain ⟨front, hfront⟩ := exists_body hp hl
  have hbody := body_joinName h (base_of_concat_name hp hne)
  have hlead : (p.joinName name).lead = p.lead := lead_below_eq p (List.forall_mem_singleton.2 h)
  have hpath : assemble p.lead p.body = p := by
    rw [Path.mk.injEq, assemble_of_ne_nil _ (by simp [hfront]), ← pieces_eq p]
  rw [parent?_of_body hbody h.step, hlead, hfront, dropIdleEnd_concat_step hl, ← hfront, hpath]

/-- The path above another one is above whatever else is joined to it. -/
theorem Above.parent?_joinName (h : Above p q) (hname : IsName name) :
    (q.joinName name).parent? = some q := by
  by_cases hs : q.steps = []
  · obtain ⟨pieces⟩ := q
    have hjoined : (Path.mk pieces).joinName name = ⟨(Path.mk pieces).base ++ [name]⟩ := by
      rw [Path.mk.injEq, pieces_joinName]
    have hparent {front : List Name} (hlead : ((Path.mk pieces).joinName name).lead = front)
        (hpieces : (Path.mk pieces).base = front) :
        ((Path.mk pieces).joinName name).parent? = some (assemble front []) := by
      have hbody : ((Path.mk pieces).joinName name).body = [] ++ [name] := by
        rw [body, hlead, hjoined, hpieces, List.drop_left, List.nil_append]
      rw [parent?_of_body hbody hname.step, hlead]
      rfl
    rcases h.empty hs with rfl | rfl | rfl
    · exact hparent (by rw [hjoined]; rfl) rfl
    · exact hparent (by rw [hjoined]; rfl) rfl
    · exact hparent (by rw [hjoined]; exact lead_of_step hname.step []) rfl
  · obtain ⟨init, last, hp, hl⟩ := h.trimmed hs
    exact parent?_joinName_of_step hname hp hl

/-- To join names at once or one after another makes no difference. -/
theorem joinName_join_assemble {dirs : List Name} (hdirs : ∀ n ∈ dirs, IsName n)
    (h : IsName name) (p : Path) :
    (p.join (assemble [] dirs)).joinName name = p.below (dirs ++ [name]) := by
  have hbase : (assemble [] dirs).base = dirs := by
    rcases List.eq_nil_or_concat' dirs with rfl | ⟨front, last, rfl⟩
    · rfl
    · have hpieces := pieces_assemble_nil (List.concat_ne_nil last front)
      have hlast : IsName last := hdirs last (List.mem_append_right _ List.mem_cons_self)
      rw [base_of_concat_name hpieces hlast.ne_empty, hpieces]
  have hnames : ∀ n ∈ dirs ++ [name], IsName n := by
    simpa [or_imp, forall_and] using ⟨hdirs, h⟩
  rw [Path.mk.injEq, pieces_joinName, pieces_below hnames (by simp),
    base_join (isAbsolute_assemble hdirs) (sound_assemble hdirs).ne_nil, hbase, List.append_assoc]

end PermitTypes.Path
