import PermitTypes.Proofs.Files.Making

namespace PermitTypes.Files

open PermitTypes.Path (isIdle)
open View

namespace Node

variable {root : Node} {p : Path}

theorem refusal?_eq_none_iff :
    refusal? p = none ↔ hasZero p = false ∧ p.pieces ≠ [.text ""] ∧ isLongPath p = false := by
  rw [refusal?]
  cases hasZero p with
  | true => simp
  | false =>
      by_cases he : p.pieces = [.text ""]
      · simp [he]
      · cases isLongPath p <;> simp [he]

theorem exists_refusal_of_isLongPath (h : isLongPath p = true) : ∃ t, refusal? p = some t := by
  refine Option.ne_none_iff_exists'.1 fun hnone => ?_
  rw [(refusal?_eq_none_iff.1 hnone).2.2] at h
  cases h

theorem hasZero_eq_false {q : Path} (h : hasZero p = false)
    (hnames : ∀ x ∈ q.pieces, x ∈ p.pieces ∨ isIdle x = true) : hasZero q = false := by
  rw [hasZero, List.any_eq_false] at h ⊢
  intro x hx
  rcases hnames x hx with hx | hx
  · exact h x hx
  · have hcases : x = "" ∨ x = "." := by simpa [isIdle] using hx
    rcases hcases with rfl | rfl <;> decide

theorem isLongPath_eq_false {q : Path} (h : isLongPath p = false)
    (hsize : q.size ≤ p.size) : isLongPath q = false := by
  rw [isLongPath, decide_eq_false_iff_not] at h ⊢
  omega

/-- A path with no other names than one that is not refused, and no longer, is not refused
either, unless it is empty. -/
theorem refusal?_of_le {q : Path} (h : refusal? p = none)
    (hnames : ∀ x ∈ q.pieces, x ∈ p.pieces ∨ x = "")
    (hsize : q.size ≤ p.size) (hne : q.pieces ≠ [.text ""]) :
    refusal? q = none := by
  rw [refusal?_eq_none_iff] at h ⊢
  obtain ⟨hzero, -, hlong⟩ := h
  refine ⟨hasZero_eq_false hzero fun x hx => ?_, hne, isLongPath_eq_false hlong hsize⟩
  exact (hnames x hx).imp_right fun he => by rw [he]; rfl

/-- The way to a path that is not refused is not refused either. -/
theorem refusal?_of_front {q : Path} (h : refusal? p = none) (hq : q.pieces <+: p.pieces)
    (hne : q.pieces ≠ [.text ""]) : refusal? q = none :=
  refusal?_of_le h (fun _ hx => .inl (hq.subset hx)) (Path.size_le_of_prefix hq) hne

theorem IsTree.of_keeps {after : Node} (h : root.IsTree) (hk : Keeps root.view after.view)
    (hwf : after.WellFormed) : after.IsTree := by
  refine ⟨?_, hwf⟩
  have hroot : root.view [] = some .directory := by rw [view_nil, h.top]
  have hafter := hk.directory hroot
  rw [view_nil] at hafter
  exact Option.some.inj hafter

/-- What the attempt to make directories leaves: they are there, or something blocks their way. -/
structure Made (root : Node) (p : Path) (result : Except Trouble Unit) (after : Node) : Prop where
  tree : after.IsTree
  adds : Adds root.view after.view
  reach : (result = .ok () ∧ ∃ place, after.view.reach [] p.steps = .directory place) ∨
    ∃ t, result = .error t ∧ after.view.reach [] p.steps = .blocked

theorem made_of_ensured (above : Path) (hroot : root.IsTree)
    (hslash : ∀ x ∈ p.pieces, x.has '/' = false) (hr : refusal? p = none) (ht : p.Trimmed)
    (habove : above.steps = p.steps.dropLast) {place : Place}
    (h : root.view.reach [] above.steps = .directory place) :
    ∃ result after, root.run (Disk.ensureDirectory p) = (result, after) ∧
      Made root p result after := by
  cases ensured hroot.top hr ht with
  | there hreach hrun => exact ⟨_, _, hrun, hroot, .refl _ _, .inl ⟨rfl, _, hreach⟩⟩
  | blocked hreach _ hrun => exact ⟨_, _, hrun, hroot, .refl _ _, .inr ⟨_, rfl, hreach⟩⟩
  | missing _ hm _ =>
      rw [← habove, h] at hm
      cases hm
  | made _ hrun hadds hthere hwf =>
      exact ⟨_, _, hrun, hroot.of_keeps hadds.keeps (hwf hroot.wellFormed hslash), hadds,
        .inl ⟨rfl, _, hthere⟩⟩

/-- A path whose way is missing has one above it that leads to some directory. -/
theorem exists_above_of_missing (htop : root.entry = .directory)
    (hm : root.view.reach [] p.steps.dropLast = .missing) :
    ∃ q, p.parent? = some q ∧ Path.Above p q ∧ q.steps ≠ [] := by
  have hsteps : p.steps.dropLast ≠ [] := by
    intro he
    rw [he, reach_idle htop (fun x (h : x ∈ []) => absurd h List.not_mem_nil)] at hm
    cases hm
  have hne : p.steps ≠ [] := by
    intro he
    rw [he] at hsteps
    exact hsteps rfl
  obtain ⟨q, hq, habove⟩ := Path.exists_parent? hne
  exact ⟨q, hq, habove, habove.steps ▸ hsteps⟩

theorem reach_of_above_blocked {q : Path} (habove : Path.Above p q) (hq : q.steps ≠ []) {v : View}
    (h : v.reach [] q.steps = .blocked) : v.reach [] p.steps = .blocked := by
  have hne : p.steps ≠ [] := by
    intro he
    rw [habove.steps, he] at hq
    exact hq rfl
  rw [← List.dropLast_concat_getLast hne, ← habove.steps, reach_append, h]

/-- By induction on the number of directories that may be missing: one that cannot be made is made
once more when those above it are there. -/
theorem run_makeDirectoriesWithin {depth : Nat} (hroot : root.IsTree)
    (hslash : ∀ x ∈ p.pieces, x.has '/' = false) (hr : refusal? p = none) (ht : p.Trimmed)
    (hd : p.steps.length ≤ depth) :
    ∃ result after, root.run (Disk.makeDirectoriesWithin depth p) = (result, after) ∧
      Made root p result after := by
  induction depth generalizing p root with
  | zero =>
      have hsteps : p.steps = [] := List.length_eq_zero_iff.1 (Nat.le_zero.1 hd)
      have hreach : root.view.reach [] p.steps = .directory [] := by
        rw [hsteps]
        exact reach_idle hroot.top (fun _ h => absurd h List.not_mem_nil)
      exact made_of_ensured p hroot hslash hr ht (by rw [hsteps]; rfl) hreach
  | succ depth ih =>
      rw [Disk.makeDirectoriesWithin, run_bind]
      cases ensured hroot.top hr ht with
      | there hreach hrun =>
          rw [hrun]
          exact ⟨_, _, rfl, hroot, .refl _ _, .inl ⟨rfl, _, hreach⟩⟩
      | @blocked t hreach hm hrun =>
          rw [hrun]
          refine ⟨.error t, root, ?_, hroot, .refl _ _, .inr ⟨t, rfl, hreach⟩⟩
          cases t with
          | missing => exact absurd rfl hm
          | _ => rfl
      | made _ hrun hadds hthere hwf =>
          rw [hrun]
          exact ⟨_, _, rfl, hroot.of_keeps hadds.keeps (hwf hroot.wellFormed hslash), hadds,
            .inl ⟨rfl, _, hthere⟩⟩
      | missing hreach hm hrun =>
          rw [hrun]
          obtain ⟨q, hq, habove, hqne⟩ := exists_above_of_missing hroot.top hm
          have hfront := habove.front hqne
          obtain ⟨result, after, hrun', hmade⟩ := ih hroot
            (fun x hx => hslash x (hfront.subset hx))
            (refusal?_of_front hr hfront fun he => hqne (by rw [Path.steps, he]; rfl))
            habove.trimmed (by rw [habove.steps, List.length_dropLast]; omega)
          simp only [hq, run_bind, hrun']
          rcases hmade.reach with ⟨rfl, place, hplace⟩ | ⟨t, rfl, hblocked⟩
          · obtain ⟨result, last, hrun'', hmade'⟩ := made_of_ensured q hmade.tree hslash hr ht
              habove.steps hplace
            exact ⟨result, last, hrun'', hmade'.tree, hmade.adds.trans hmade'.adds, hmade'.reach⟩
          · exact ⟨.error t, after, rfl, hmade.tree, hmade.adds,
              .inr ⟨t, rfl, reach_of_above_blocked habove hqne hblocked⟩⟩

theorem run_makeDirectoriesWithin_of_settled {result : Except Trouble Unit} {after : Node}
    (h : root.run (Disk.ensureDirectory p) = (result, after)) (hm : result ≠ .error .missing)
    (depth : Nat) : root.run (Disk.makeDirectoriesWithin depth p) = (result, after) := by
  cases depth with
  | zero => exact h
  | succ depth =>
      rw [Disk.makeDirectoriesWithin, run_bind, h]
      cases result with
      | ok => rfl
      | error t =>
          cases t with
          | missing => exact absurd rfl hm
          | _ => rfl

/-- Directories that are there are left alone. -/
theorem run_makeDirectories_of_ready (htop : root.entry = .directory) (ht : p.Trimmed)
    (h : Ready root.view p) : root.run (Disk.makeDirectories p) = (.ok (), root) := by
  obtain ⟨hp, place, hreach⟩ := h
  rw [Disk.makeDirectories]
  split
  · rfl
  · next hc =>
      cases ensured htop (hp.resolve_left hc) ht with
      | there _ hrun => exact run_makeDirectoriesWithin_of_settled hrun (by simp) _
      | blocked hr _ _ => rw [hreach] at hr; cases hr
      | missing hr _ _ => rw [hreach] at hr; cases hr
      | made hr _ _ _ _ => rw [hreach] at hr; cases hr

theorem makeDirectoryAt_of_refusal {t : Trouble} (h : refusal? p = some t) :
    root.makeDirectoryAt p = .error t := by
  simp only [makeDirectoryAt, target, h]

theorem refusal?_ne_exists : refusal? p ≠ some .exists := by
  unfold refusal?
  split
  · simp
  · split
    · simp
    · split <;> simp

/-- A refused path is not missing, unless it is empty. -/
theorem refusal?_ne_missing (h : p.components.isEmpty = false) : refusal? p ≠ some .missing := by
  unfold refusal?
  split
  · simp
  · split
    · next he =>
        have hp : p = ⟨[""]⟩ := by rw [← he]
        rw [hp] at h
        exact absurd h (by decide)
    · split <;> simp

/-- Where directories can never be, the attempt fails and changes nothing. -/
theorem run_makeDirectories_of_stuck (htop : root.entry = .directory) (ht : p.Trimmed)
    (h : Stuck root.view p) :
    ∃ t, root.run (Disk.makeDirectories p) = (.error t, root) := by
  obtain ⟨hp, hstuck⟩ := h
  rw [Disk.makeDirectories, hp, if_neg Bool.false_ne_true]
  cases hr : refusal? p with
  | some t =>
      have hrun : root.run (Disk.ensureDirectory p) = (.error t, root) :=
        run_ensureDirectory_of_error (makeDirectoryAt_of_refusal hr)
          fun he => refusal?_ne_exists (he ▸ hr)
      refine ⟨t, run_makeDirectoriesWithin_of_settled hrun ?_ _⟩
      exact fun he => refusal?_ne_missing hp (Except.error.inj he ▸ hr)
  | none =>
      have hblocked := hstuck.resolve_left (fun hne => hne hr)
      cases ensured htop hr ht with
      | there h _ => rw [hblocked] at h; cases h
      | @blocked t _ hm hrun =>
          exact ⟨t, run_makeDirectoriesWithin_of_settled hrun (by simpa using hm) _⟩
      | missing h _ _ => rw [hblocked] at h; cases h
      | made h _ _ _ _ => rw [hblocked] at h; cases h

/-- Directories are made, or they can never be. -/
theorem run_makeDirectories (hroot : root.IsTree) (hslash : ∀ x ∈ p.pieces, x.has '/' = false)
    (ht : p.Trimmed) :
    ∃ result after, root.run (Disk.makeDirectories p) = (result, after) ∧ after.IsTree ∧
      Adds root.view after.view ∧
      ((result = .ok () ∧ Ready after.view p) ∨ ∃ t, result = .error t ∧ Stuck after.view p) := by
  cases hc : p.components.isEmpty with
  | true =>
      have hsteps := (Path.isEmpty_components_iff.1 hc).2
      have hready : Ready root.view p := by
        refine ⟨.inl hc, [], ?_⟩
        rw [hsteps]
        exact reach_idle hroot.top (fun _ h => absurd h List.not_mem_nil)
      exact ⟨_, _, run_makeDirectories_of_ready hroot.top ht hready, hroot, .refl _ _,
        .inl ⟨rfl, hready⟩⟩
  | false =>
      cases hr : refusal? p with
      | some t =>
          have hstuck : Stuck root.view p := ⟨hc, .inl (by simp [hr])⟩
          obtain ⟨t, hrun⟩ := run_makeDirectories_of_stuck hroot.top ht hstuck
          exact ⟨_, _, hrun, hroot, .refl _ _, .inr ⟨t, rfl, hstuck⟩⟩
      | none =>
          have hd : p.steps.length ≤ p.components.length := by
            rw [Path.components_eq, List.length_append, List.length_map]
            omega
          obtain ⟨result, after, hrun, hmade⟩ := run_makeDirectoriesWithin hroot hslash hr ht hd
          rw [Disk.makeDirectories, hc, if_neg Bool.false_ne_true]
          refine ⟨result, after, hrun, hmade.tree, hmade.adds, ?_⟩
          rcases hmade.reach with ⟨hok, hplace⟩ | ⟨t, hk, hblocked⟩
          · exact .inl ⟨hok, .inr hr, hplace⟩
          · exact .inr ⟨t, hk, hc, .inr hblocked⟩

end Node

end PermitTypes.Files
