import PermitTypes.Proofs.Files.Directories

namespace PermitTypes.Files

open PermitTypes.Path (isIdle stepsOf)
open View

/-- A path that ends in a name, with the path above it. -/
structure Output (p above : Path) (name : Name) : Prop where
  pieces : ∃ front, p.pieces = front ++ [name]
  name : Path.IsName name
  parent : p.parent? = some above
  above : Path.Above p above
  sound : p.Sound

namespace Output

variable {p q : Path} {name : Name}

theorem exists_front (h : Output p q name) :
    ∃ front, p.pieces = front ++ [name] ∧ stepsOf front = q.steps := by
  obtain ⟨front, hp⟩ := h.pieces
  refine ⟨front, hp, ?_⟩
  rw [h.above.steps, Path.steps, hp, Path.stepsOf_append, Path.stepsOf_cons_step h.name.step]
  exact (List.dropLast_concat ..).symm

theorem slashFree_above (h : Output p q name) : ∀ x ∈ q.pieces, x.has '/' = false :=
  (h.above.sound h.sound).slashFree

theorem spelled_eq (h : Output p q name) : spelled p = name :: spelled q := by
  obtain ⟨front, hp, hf⟩ := h.exists_front
  have hsteps : p.steps = q.steps ++ [name] := by
    rw [Path.steps, hp, Path.stepsOf_append, hf, Path.stepsOf_cons_step h.name.step]
    rfl
  rw [spelled, hsteps, settle_append]
  exact move_name h.name.step h.name.down _

end Output

theorem spelled_joinName {p : Path} {name : Name} (h : Path.IsName name) :
    spelled (p.joinName name) = name :: spelled p := by
  rw [spelled, Path.steps_joinName h, settle_append]
  exact move_name h.step h.down _

theorem spelled_joinText {p : Path} {name : String} (h : Path.IsName name) :
    spelled (p.joinText name) = .text name :: spelled p := by
  rw [h.joinText_eq, spelled_joinName h]

/-- What a path is joined to is a directory if the whole leads anywhere. -/
theorem walk_base_of_find {v : View} {p : Path} {name : Name} {place : Place}
    (hfind : v.find (p.joinName name) = .ok place) :
    v.walk [] p.base = .ok (spelled p) ∧ v (spelled p) = some .directory := by
  unfold View.find at hfind
  split at hfind
  · cases hfind
  · rw [Path.pieces_joinName, walk_append] at hfind
    cases hw : v.walk [] p.base with
    | error t => rw [hw] at hfind; cases hfind
    | ok other =>
        rw [hw] at hfind
        have hother : other = spelled p := by
          rw [walk_eq_settle hw, spelled, ← Path.stepsOf_base, settle_stepsOf]
        subst hother
        refine ⟨rfl, by_contra fun hd => ?_⟩
        have hstep : v.step (spelled p) name = .ok place := (v.walk_singleton _ _).symm.trans hfind
        rw [step_of_not_directory hd] at hstep
        cases hstep

/-- In a directory, a name is missing only where its place is empty. -/
theorem view_of_missing {v : View} {p : Path} {name : Name} (h : Path.IsName name)
    (hwalk : v.walk [] p.base = .ok (spelled p)) (hdir : v (spelled p) = some .directory)
    (hmissing : v.find (p.joinName name) = .error .missing) :
    v (spelled (p.joinName name)) = none := by
  unfold View.find at hmissing
  split at hmissing
  · next t hr =>
      have hcomponents : (p.joinName name).components.isEmpty = false := by
        rw [Bool.eq_false_iff, ne_eq, Path.isEmpty_components_iff, Path.steps_joinName h]
        simp
      exact absurd (Except.error.inj hmissing ▸ hr) (Node.refusal?_ne_missing hcomponents)
  · rw [Path.pieces_joinName, walk_append, hwalk] at hmissing
    have hstep : v.step (spelled p) name = .error .missing :=
      (v.walk_singleton _ name).symm.trans hmissing
    rw [step_name hdir h.step h.down] at hstep
    rw [spelled_joinName h]
    by_contra hne
    rw [if_pos (Option.isSome_iff_ne_none.2 hne)] at hstep
    split at hstep <;> cases hstep

/-- Next to something that is there, a name is missing only where its place is empty. -/
theorem view_of_find_missing {v : View} {p : Path} {a b : Name} (hb : Path.IsName b)
    {place : Place} (hthere : v.find (p.joinName a) = .ok place)
    (hmissing : v.find (p.joinName b) = .error .missing) : v (spelled (p.joinName b)) = none := by
  obtain ⟨hwalk, hdir⟩ := walk_base_of_find hthere
  exact view_of_missing hb hwalk hdir hmissing

theorem exists_output {p : Path} {name : Name} (hp : p.Sound) (h : Path.IsName name) :
    ∃ above, Output (p.joinName name) above name := by
  have hsteps := Path.steps_joinName h p
  obtain ⟨above, hparent, habove⟩ := Path.exists_parent? (p := p.joinName name) (by simp [hsteps])
  exact ⟨above, ⟨_, Path.pieces_joinName p name⟩, h, hparent, habove, hp.joinName h.slashFree⟩

namespace Node

variable {root : Node} {p q : Path} {name : Name}

/-- Some file could stand at an output, as far as its name and path go. -/
def Nameable (p : Path) (name : Name) : Prop :=
  refusal? p = none ∧ Spot.isLongName name = false

theorem step_output (h : Output p q name) {v : View}
    (hd : v.reach [] q.steps = .directory (spelled q)) (hn : Spot.isLongName name = false) :
    v.step (spelled q) name =
      if (v (spelled p)).isSome then .ok (spelled p) else .error .missing := by
  rw [step_name (reach_eq_directory_iff.1 hd).2 h.name.step h.name.down, hn,
    if_neg Bool.false_ne_true, h.spelled_eq]

theorem walk_output (h : Output p q name) {v : View}
    (hd : v.reach [] q.steps = .directory (spelled q)) :
    v.walk [] p.pieces = v.step (spelled q) name := by
  obtain ⟨front, hp, hf⟩ := h.exists_front
  rw [← hf, reach_stepsOf] at hd
  rw [hp, walk_append, (reach_eq_directory_iff.1 hd).1]
  exact walk_singleton v _ name

theorem reach_of_ready {v : View} (h : Ready v q) :
    v.reach [] q.steps = .directory (spelled q) := by
  obtain ⟨-, place, hreach⟩ := h
  rw [hreach, reach_eq_settle hreach]
  rfl

theorem read_output (h : Output p q name) {v : View} (hready : Ready v q)
    (hn : Nameable p name) {content : ByteArray} (hc : v (spelled p) = some (.file content)) :
    v.find p = .ok (spelled p) ∧ v.read p = .ok content := by
  have hreach := reach_of_ready hready
  have hfind : v.find p = .ok (spelled p) := by
    simp only [View.find, hn.1, walk_output h hreach, step_output h hreach hn.2, hc,
      Option.isSome_some, if_true]
  refine ⟨hfind, ?_⟩
  simp only [View.read, hfind, hc]

/-- A file whose name and path are fit for it has the place of its spelling as target. -/
theorem target_output (h : Output p q name) (hready : Ready root.view q)
    (hr : refusal? p = none) :
    ∃ spot, spot.place = spelled q ∧ spot.node.child? name = root.at? (spelled p) ∧
      if Spot.isLongName name then ∃ t, root.target p = .error t
      else root.target p = .ok ⟨spot, some name, false⟩ := by
  have hreach := reach_of_ready hready
  obtain ⟨front, hp, hf⟩ := h.exists_front
  rw [← hf, reach_stepsOf] at hreach
  obtain ⟨spot, hplace, hcases, hat⟩ := target_of_directory hp h.name.step hr hreach
  refine ⟨spot, hplace, by rw [child?_of_at? hat, h.spelled_eq], ?_⟩
  have hstep := step_name (reach_eq_directory_iff.1 hreach).2 h.name.step h.name.down
  cases hl : Spot.isLongName name with
  | true =>
      rw [hl, if_pos rfl] at hstep
      rcases hcases with ⟨hv, -⟩ | ⟨t, -, -, -, ht⟩ | ⟨next, hv, -⟩
      · rw [hstep] at hv
        cases hv
      · exact ⟨t, ht⟩
      · rw [hstep] at hv
        cases hv
  | false =>
      rw [hl, if_neg Bool.false_ne_true] at hstep
      rcases hcases with ⟨-, ht⟩ | ⟨t, hm, -, hv, -⟩ | ⟨next, -, ht⟩
      · exact ht
      · rw [hstep] at hv
        split at hv
        · cases hv
        · exact absurd (Except.error.inj hv).symm hm
      · rw [if_neg h.name.down] at ht
        exact ht

theorem writeAt_of_target (h : Output p q name) (hwf : root.WellFormed)
    (hready : Ready root.view q) {spot : Spot} (hplace : spot.place = spelled q)
    (hchild : spot.node.child? name = root.at? (spelled p))
    (htarget : root.target p = .ok ⟨spot, some name, false⟩)
    (hfree : Free root.view (spelled p)) (text : String) :
    ∃ after, root.writeAt p text = .ok after ∧ after.WellFormed ∧
      after.view = Function.update root.view (spelled p) (some (.file text.toUTF8)) ∧
      (root.view (spelled p) = some (.file text.toUTF8) → after = root) := by
  refine ⟨root.setBelow spot name (.file text.toUTF8), ?_, ?_, ?_, fun hsame => ?_⟩
  · simp only [writeAt, htarget, Bool.false_eq_true, if_false]
    split
    · next entries he =>
        rw [hchild] at he
        exact absurd (by rw [view, he]; rfl) hfree.ne_directory
    · next he =>
        rw [hchild] at he
        exact absurd (by rw [view, he]; rfl) hfree.ne_special
    · rfl
  · rw [setBelow, List.reverse_cons]
    exact WellFormed.set (.file _) h.name hwf
  · have hdir : root.view spot.place = some .directory := by
      rw [hplace]
      exact (reach_eq_directory_iff.1 (reach_of_ready hready)).2
    have hold : root.view (name :: spot.place) ≠ some .directory := by
      rw [hplace, ← h.spelled_eq]
      exact hfree.ne_directory
    rw [view_setBelow (isLeaf_file _) hdir hold, hplace, ← h.spelled_eq]
    rfl
  · refine setBelow_of_view ?_
    rwa [hplace, ← h.spelled_eq]

/-- A directory or a special entry is not written over. -/
theorem exists_trouble_of_not_free {spot : Spot}
    (hchild : spot.node.child? name = root.at? (spelled p))
    (htarget : root.target p = .ok ⟨spot, some name, false⟩)
    (hfree : ¬ Free root.view (spelled p)) (text : String) :
    ∃ t, root.writeAt p text = .error t := by
  simp only [Free, not_forall] at hfree
  obtain ⟨e, he, hkind⟩ := hfree
  obtain ⟨n, hn, rfl⟩ := Option.map_eq_some_iff.1 he
  have hchild' : spot.node.child? name = some n := hchild.trans hn
  cases n with
  | file content => exact absurd rfl hkind
  | directory entries => exact ⟨.isDirectory, by simp [writeAt, htarget, hchild']⟩
  | special => exact ⟨.noDevice, by simp [writeAt, htarget, hchild']⟩

/-- Everything that writing can do where the directory of a file is there. -/
theorem writeAt_output (h : Output p q name) (hwf : root.WellFormed) (hready : Ready root.view q)
    (text : String) :
    ((¬ Nameable p name ∨ ¬ Free root.view (spelled p)) ∧
      ∃ t, root.writeAt p text = .error t) ∨
    (Nameable p name ∧ Free root.view (spelled p) ∧
      ∃ after, root.writeAt p text = .ok after ∧ after.WellFormed ∧
        after.view = Function.update root.view (spelled p) (some (.file text.toUTF8)) ∧
        (root.view (spelled p) = some (.file text.toUTF8) → after = root)) := by
  cases hr : refusal? p with
  | some t =>
      refine .inl ⟨.inl fun hn => ?_, t, by simp only [writeAt, target, hr]⟩
      rw [hn.1] at hr
      cases hr
  | none =>
      obtain ⟨spot, hplace, hchild, htarget⟩ := target_output h hready hr
      cases hl : Spot.isLongName name with
      | true =>
          rw [hl, if_pos rfl] at htarget
          obtain ⟨t, ht⟩ := htarget
          refine .inl ⟨.inl fun hn => ?_, t, by simp only [writeAt, ht]⟩
          rw [hn.2] at hl
          cases hl
      | false =>
          rw [hl, if_neg Bool.false_ne_true] at htarget
          by_cases hfree : Free root.view (spelled p)
          · exact .inr ⟨⟨hr, hl⟩, hfree,
              writeAt_of_target h hwf hready hplace hchild htarget hfree text⟩
          · obtain ⟨t, ht⟩ := exists_trouble_of_not_free hchild htarget hfree text
            exact .inl ⟨.inr hfree, t, ht⟩

end Node

end PermitTypes.Files
