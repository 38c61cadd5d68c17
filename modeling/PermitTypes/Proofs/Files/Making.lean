import PermitTypes.Proofs.Files.Walking

namespace PermitTypes.Files

open PermitTypes.Path (isIdle stepsOf)

namespace View

variable {v w : View}

theorem step_ne_exists {place : Place} {piece : Name} :
    v.step place piece ≠ .error .exists := by
  rcases step_cases v place piece with ⟨-, hs⟩ | ⟨-, -, hs⟩ | ⟨-, -, hs⟩ |
    ⟨-, -, -, ⟨-, hs⟩ | ⟨-, -, hs⟩ | ⟨-, -, hs⟩⟩ <;> rw [hs] <;> simp

/-- Files may be written at these places; elsewhere only directories are new. -/
structure Changes (places : Place → Prop) (v w : View) : Prop where
  keeps : Keeps v w
  elsewhere : ∀ place, ¬ places place →
    w place = v place ∨ (v place = none ∧ w place = some .directory)

namespace Changes

variable {places others : Place → Prop} {u : View}

theorem refl (places : Place → Prop) (v : View) : Changes places v v :=
  ⟨.refl v, fun _ _ => .inl rfl⟩

theorem mono (h : Changes places v w) (hsub : ∀ place, places place → others place) :
    Changes others v w :=
  ⟨h.keeps, fun place hp => h.elsewhere place (mt (hsub place) hp)⟩

theorem trans (huv : Changes places u v) (hvw : Changes places v w) : Changes places u w := by
  refine ⟨huv.keeps.trans hvw.keeps, fun place hp => ?_⟩
  rcases hvw.elsewhere place hp with hw | ⟨hv, hw⟩
  · rw [hw]
    exact huv.elsewhere place hp
  · refine .inr ⟨?_, hw⟩
    rcases huv.elsewhere place hp with hv' | ⟨hu, -⟩
    · rw [← hv', hv]
    · exact hu

theorem file_eq (h : Changes places v w) {place : Place} (hp : ¬ places place)
    {content : ByteArray} (hv : v place = some (.file content)) :
    w place = some (.file content) := by
  rcases h.elsewhere place hp with hw | ⟨hnone, -⟩
  · rw [hw, hv]
  · rw [hnone] at hv
    cases hv

theorem file_of_after (h : Changes places v w) {place : Place} (hp : ¬ places place)
    {content : ByteArray} (hw : w place = some (.file content)) :
    v place = some (.file content) := by
  rcases h.elsewhere place hp with hv | ⟨-, hd⟩
  · rw [← hv, hw]
  · rw [hd] at hw
    cases hw

end Changes

/-- What is new is a directory, and nothing else changes. -/
abbrev Adds (v w : View) : Prop := Changes (fun _ => False) v w

theorem Adds.changes (h : Adds v w) (places : Place → Prop) : Changes places v w :=
  h.mono fun _ hp => hp.elim

theorem changes_update {place : Place} {e : Entry}
    (h : ∀ e', v place = some e' → e.kind = e'.kind) :
    Changes (· = place) v (Function.update v place (some e)) := by
  constructor
  · intro other e' he
    by_cases ho : other = place
    · subst ho
      exact ⟨e, Function.update_self .., h e' he⟩
    · exact ⟨e', (Function.update_of_ne ho ..).trans he, rfl⟩
  · intro other ho
    exact .inl (Function.update_of_ne ho ..)

/-- A file can be written there: nothing is there, or another file. -/
def Free (v : View) (place : Place) : Prop := ∀ e, v place = some e → e.kind = .file

theorem Free.ne_directory {place : Place} (h : Free v place) : v place ≠ some .directory :=
  fun hd => nomatch h _ hd

theorem Free.ne_special {place : Place} (h : Free v place) : v place ≠ some .special :=
  fun hs => nomatch h _ hs

theorem Keeps.not_free (hvw : Keeps v w) {place : Place} (h : ¬ Free v place) :
    ¬ Free w place := by
  refine fun hfree => h fun e he => ?_
  obtain ⟨e', he', hk⟩ := hvw place e he
  rw [← hk, hfree e' he']

theorem changes_file {place : Place} (h : Free v place) (content : ByteArray) :
    Changes (· = place) v (Function.update v place (some (.file content))) :=
  changes_update fun e he => (h e he).symm

theorem adds_update {place : Place} (h : v place = none) :
    Adds v (Function.update v place (some .directory)) := by
  have hchanges : Changes (· = place) v (Function.update v place (some .directory)) := by
    refine changes_update fun e' he => ?_
    rw [h] at he
    cases he
  refine ⟨hchanges.keeps, fun other _ => ?_⟩
  by_cases ho : other = place
  · subst ho
    exact .inr ⟨h, Function.update_self ..⟩
  · exact hchanges.elsewhere other ho

/-- The directories that lead to a path are there. -/
def Ready (v : View) (p : Path) : Prop :=
  (p.components.isEmpty = true ∨ Node.refusal? p = none) ∧
    ∃ place, v.reach [] p.steps = .directory place

/-- The directories that lead to a path can never be there: the path is refused, or something stands
in its way. -/
def Stuck (v : View) (p : Path) : Prop :=
  p.components.isEmpty = false ∧
    (Node.refusal? p ≠ none ∨ v.reach [] p.steps = .blocked)

theorem Ready.mono {root : Node} {p : Path} (h : Ready root.view p) (hw : Keeps root.view w) :
    Ready w p := by
  obtain ⟨hp, place, hr⟩ := h
  exact ⟨hp, place, Node.reach_of_keeps hw hr (by simp)⟩

theorem Stuck.mono {root : Node} {p : Path} (h : Stuck root.view p) (hw : Keeps root.view w) :
    Stuck w p := by
  obtain ⟨hp, hr⟩ := h
  exact ⟨hp, hr.imp id fun hr => Node.reach_of_keeps hw hr (by simp)⟩

end View

open View

namespace Node

/-- What a command answers, and the tree that it leaves. -/
def run {α : Type} (root : Node) (command : StateM Node α) : α × Node := command root

theorem run_bind {α β : Type} (root : Node) (x : StateM Node α) (f : α → StateM Node β) :
    root.run (x >>= f) = (root.run x).2.run (f (root.run x).1) :=
  rfl

theorem run_pure {α : Type} (root : Node) (a : α) : root.run (pure a) = (a, root) :=
  rfl

theorem run_kind (root : Node) (p : Path) : root.run (Disk.kind p) = (root.kindAt p, root) :=
  rfl

theorem run_read (root : Node) (p : Path) : root.run (Disk.read p) = (root.readAt p, root) :=
  rfl

/-- A change that fails leaves the tree as it is. -/
def changed (root : Node) (result : Except Trouble Node) : Except Trouble Unit × Node :=
  match result with
  | .ok after => (.ok (), after)
  | .error t => (.error t, root)

theorem run_write (root : Node) (p : Path) (text : String) :
    root.run (Disk.write p text) = root.changed (root.writeAt p text) :=
  rfl

theorem run_makeDirectory (root : Node) (p : Path) :
    root.run (Disk.makeDirectory p) = root.changed (root.makeDirectoryAt p) :=
  rfl

theorem run_isThere (root : Node) (p : Path) :
    root.run (Disk.isThere p) = ((root.kindAt p).isOk, root) := by
  rw [Disk.isThere, run_bind, run_kind]
  cases root.kindAt p <;> rfl

theorem run_isDirectory (root : Node) (p : Path) :
    root.run (Disk.isDirectory p) = (decide (root.kindAt p = .ok .directory), root) := by
  rw [Disk.isDirectory, run_bind, run_kind]
  cases root.kindAt p with
  | error t => simp [run_pure]
  | ok kind => cases kind <;> simp [run_pure]

theorem run_ensureDirectory_of_ok {root after : Node} {p : Path}
    (h : root.makeDirectoryAt p = .ok after) :
    root.run (Disk.ensureDirectory p) = (.ok (), after) := by
  rw [Disk.ensureDirectory, run_bind, run_makeDirectory, h]
  rfl

theorem run_ensureDirectory_of_error {root : Node} {p : Path} {t : Trouble}
    (h : root.makeDirectoryAt p = .error t) (ht : t ≠ .exists) :
    root.run (Disk.ensureDirectory p) = (.error t, root) := by
  rw [Disk.ensureDirectory, run_bind, run_makeDirectory, h]
  cases t with
  | «exists» => exact absurd rfl ht
  | _ => rfl

theorem run_ensureDirectory_of_exists {root : Node} {p : Path}
    (h : root.makeDirectoryAt p = .error .exists) :
    root.run (Disk.ensureDirectory p) =
      (if root.kindAt p = .ok .directory then .ok () else .error .exists, root) := by
  rw [Disk.ensureDirectory, run_bind, run_makeDirectory, h]
  simp only [changed, run_bind, run_isDirectory]
  by_cases hk : root.kindAt p = .ok .directory
  · simp only [hk, decide_true, if_true, run_pure]
  · simp only [hk, decide_false, if_false, Bool.false_eq_true, run_pure]

theorem kindAt_eq_directory_iff {root : Node} {p : Path} (h : refusal? p = none) :
    root.kindAt p = .ok .directory ↔ ∃ place, root.view.reach [] p.pieces = .directory place := by
  simp only [kindAt_eq_ok_iff, View.find, h, reach_eq_directory_iff]
  refine exists_congr fun place => ?_
  constructor
  · rintro ⟨e, hw, he, hk⟩
    cases e with
    | file content => cases hk
    | special => cases hk
    | directory => exact ⟨hw, he⟩
  · rintro ⟨hw, he⟩
    exact ⟨.directory, hw, he, rfl⟩

section Ending

variable {root : Node} {p : Path} {front : List Name} {last : Name}

/-- The target of a path that ends in a step. -/
theorem target_of_walk (hp : p.pieces = front ++ [last]) (hl : isIdle last = false)
    (hr : refusal? p = none) :
    root.target p =
      match (Spot.ofRoot root).walk front with
      | .error t => .error t
      | .ok spot =>
        match spot.step last with
        | .error .missing => .ok ⟨spot, some last, false⟩
        | .error t => .error t
        | .ok _ => .ok ⟨spot, if last = ".." then none else some last, false⟩ := by
  have hne : last ≠ "" := by
    rintro rfl
    exact absurd hl (by decide)
  have hdot : last ≠ "." := by
    rintro rfl
    exact absurd hl (by decide)
  have hbare : ((front ++ [last]).reverse.dropWhile (· = .text "")).reverse = front ++ [last] :=
    List.rdropWhile_concat_neg _ _ _ (by simpa using hne)
  simp only [target, hr, hp, hbare, List.getLast?_concat, List.dropLast_concat, Nat.lt_irrefl,
    decide_false]
  cases (Spot.ofRoot root).walk front with
  | error t => rfl
  | ok spot =>
      cases hs : spot.step last with
      | error t => cases t <;> simp only [hs]
      | ok next =>
          by_cases hu : last = ".."
          · subst hu
            simp only [hs, decide_true, Bool.or_true, if_true]
          · simp only [hs, hu, hdot, decide_false, Bool.or_false, Bool.false_eq_true, if_false]

theorem target_of_missing (hp : p.pieces = front ++ [last]) (hl : isIdle last = false)
    (hr : refusal? p = none) (h : root.view.reach [] front = .missing) :
    root.target p = .error .missing := by
  rw [target_of_walk hp hl hr, walk_error_iff.2 (reach_eq_missing_iff.1 h)]

/-- Where the way to the last step is blocked there is no target, and what is wrong is neither that
something is missing nor that something is there. -/
theorem target_of_blocked (hp : p.pieces = front ++ [last]) (hl : isIdle last = false)
    (hr : refusal? p = none) (h : root.view.reach [] front = .blocked) :
    ∃ t, t ≠ .missing ∧ t ≠ .exists ∧ root.target p = .error t := by
  rw [target_of_walk hp hl hr]
  rcases reach_eq_blocked h with ⟨t, hm, he, hw⟩ | ⟨place, hw, hd⟩
  · exact ⟨t, hm, he, by rw [walk_error_iff.2 hw]⟩
  · obtain ⟨spot, hs, rfl⟩ := exists_walk hw
    have hv := (view_place_of_walk hs).2
    obtain ⟨n, above⟩ := spot
    cases n with
    | file content => exact ⟨.notDirectory, by decide, by decide, by simp only [hs, Spot.step]⟩
    | special => exact ⟨.notDirectory, by decide, by decide, by simp only [hs, Spot.step]⟩
    | directory entries => exact absurd hv hd

/-- In a directory the target depends on the last step alone. -/
theorem target_of_directory (hp : p.pieces = front ++ [last]) (hl : isIdle last = false)
    (hr : refusal? p = none) {place : Place} (h : root.view.reach [] front = .directory place) :
    ∃ spot, spot.place = place ∧
      ((root.view.step place last = .error .missing ∧
          root.target p = .ok ⟨spot, some last, false⟩) ∨
        (∃ t, t ≠ .missing ∧ t ≠ .exists ∧ root.view.step place last = .error t ∧
          root.target p = .error t) ∨
        (∃ next, root.view.step place last = .ok next ∧
          root.target p = .ok ⟨spot, if last = ".." then none else some last, false⟩)) ∧
      root.at? place = some spot.node := by
  obtain ⟨spot, hs, hplace⟩ := exists_walk (reach_eq_directory_iff.1 h).1
  have hstep := Spot.step_place (Spot.leads_walk (Spot.leads_ofRoot root) hs) last
  have hat := Spot.at?_place_of_walk hs
  rw [hplace] at hstep hat
  refine ⟨spot, hplace, ?_, hat⟩
  have htarget : root.target p = _ := target_of_walk hp hl hr
  simp only [hs] at htarget
  cases hn : spot.step last with
  | error t =>
      rw [hn] at hstep
      simp only [hn] at htarget
      by_cases hm : t = .missing
      · subst hm
        exact .inl ⟨hstep.symm, htarget⟩
      · refine .inr (.inl ⟨t, hm, ?_, hstep.symm, ?_⟩)
        · rintro rfl
          exact step_ne_exists hstep.symm
        · rw [htarget]
          cases t with
          | missing => exact absurd rfl hm
          | _ => rfl
  | ok next =>
      rw [hn] at hstep
      simp only [hn] at htarget
      exact .inr (.inr ⟨next.place, hstep.symm, htarget⟩)

theorem child?_of_at? {place : Place} {n : Node} (h : root.at? place = some n) (name : Name) :
    n.child? name = root.at? (name :: place) := by
  rw [at?_cons, h]
  rfl

theorem makeDirectoryAt_of_missing (hp : p.pieces = front ++ [last]) (hl : isIdle last = false)
    (hr : refusal? p = none) {place : Place} (h : root.view.reach [] front = .directory place)
    (hs : root.view.step place last = .error .missing) :
    ∃ after, root.makeDirectoryAt p = .ok after ∧ last ≠ ".." ∧
      root.view (last :: place) = none ∧
      after.view = Function.update root.view (last :: place) (some .directory) ∧
      (root.WellFormed → last.has '/' = false → after.WellFormed) := by
  have hfree : last ≠ ".." ∧ root.view (last :: place) = none := by
    rcases step_cases root.view place last with ⟨-, hv⟩ | ⟨-, -, hv⟩ | ⟨-, -, hv⟩ |
      ⟨-, -, hu, ⟨-, hv⟩ | ⟨-, -, hv⟩ | ⟨-, hn, hv⟩⟩ <;> rw [hv] at hs <;> cases hs
    exact ⟨hu, hn⟩
  obtain ⟨hu, hnone⟩ := hfree
  obtain ⟨spot, hplace, hcases, hat⟩ := target_of_directory hp hl hr h
  have htarget : root.target p = .ok ⟨spot, some last, false⟩ := by
    rcases hcases with ⟨-, ht⟩ | ⟨t, hm, -, hv, -⟩ | ⟨next, hv, -⟩
    · exact ht
    · rw [hs] at hv
      exact absurd (Except.error.inj hv).symm hm
    · rw [hs] at hv
      cases hv
  have hchild : spot.node.child? last = none := by
    rw [child?_of_at? hat]
    exact Option.map_eq_none_iff.1 hnone
  subst hplace
  refine ⟨root.setBelow spot last empty, ?_, hu, hnone, ?_, fun hwf hslash => ?_⟩
  · simp only [makeDirectoryAt, htarget, hchild]
  · refine view_setBelow isLeaf_empty (reach_eq_directory_iff.1 h).2 ?_
    rw [hnone]
    exact Option.some_ne_none _ ∘ Eq.symm
  · rw [setBelow, List.reverse_cons]
    exact wellFormed_empty.set ⟨hl, hu, hslash⟩ hwf

theorem makeDirectoryAt_of_there (hp : p.pieces = front ++ [last]) (hl : isIdle last = false)
    (hr : refusal? p = none) {place next : Place} (h : root.view.reach [] front = .directory place)
    (hs : root.view.step place last = .ok next) : root.makeDirectoryAt p = .error .exists := by
  obtain ⟨spot, hplace, hcases, hat⟩ := target_of_directory hp hl hr h
  have htarget : root.target p = .ok ⟨spot, if last = ".." then none else some last, false⟩ := by
    rcases hcases with ⟨hv, -⟩ | ⟨t, -, -, hv, -⟩ | ⟨-, -, ht⟩
    · rw [hs] at hv
      cases hv
    · rw [hs] at hv
      cases hv
    · exact ht
  by_cases hu : last = ".."
  · simp only [makeDirectoryAt, htarget, hu, if_true]
  · have hnext : root.view (last :: place) ≠ none := by
      have hthere := root.closed_view.step hs
      rwa [step_eq_move hs, move_name hl hu] at hthere
    cases hc : spot.node.child? last with
    | none =>
        rw [child?_of_at? hat] at hc
        rw [view, hc] at hnext
        exact absurd rfl hnext
    | some n => simp only [makeDirectoryAt, htarget, hu, if_false, hc]

theorem makeDirectoryAt_of_error (hp : p.pieces = front ++ [last]) (hl : isIdle last = false)
    (hr : refusal? p = none) {place : Place} (h : root.view.reach [] front = .directory place)
    {t : Trouble} (hs : root.view.step place last = .error t) (ht : t ≠ .missing) :
    t ≠ .exists ∧ root.makeDirectoryAt p = .error t := by
  obtain ⟨spot, -, hcases, -⟩ := target_of_directory hp hl hr h
  rcases hcases with ⟨hv, -⟩ | ⟨t', -, he, hv, htarget⟩ | ⟨next, hv, -⟩
  · rw [hs] at hv
    exact absurd (Except.error.inj hv) ht
  · rw [hs] at hv
    cases hv
    exact ⟨he, by simp only [makeDirectoryAt, htarget]⟩
  · rw [hs] at hv
    cases hv

theorem steps_of_pieces (hp : p.pieces = front ++ [last]) (hl : isIdle last = false) :
    p.steps = stepsOf front ++ [last] := by
  rw [Path.steps, hp, Path.stepsOf_append]
  exact congrArg (stepsOf front ++ ·) (Path.stepsOf_cons_step hl [])

theorem reach_steps (hp : p.pieces = front ++ [last]) (hl : isIdle last = false) (v : View) :
    v.reach [] p.steps =
      match v.reach [] front with
      | .directory place => v.reach place [last]
      | .missing => .missing
      | .blocked => .blocked := by
  rw [steps_of_pieces hp hl, ← reach_stepsOf v [] front]
  exact reach_append v [] (stepsOf front) [last]

/-- What can happen where a directory is to be there: it is, it never can be, the way to it is
missing, or it is made. -/
inductive Ensured (root : Node) (p : Path) : Prop
  | there {place : Place} (reach : root.view.reach [] p.steps = .directory place)
      (run : root.run (Disk.ensureDirectory p) = (.ok (), root))
  | blocked {t : Trouble} (reach : root.view.reach [] p.steps = .blocked) (ht : t ≠ .missing)
      (run : root.run (Disk.ensureDirectory p) = (.error t, root))
  | missing (reach : root.view.reach [] p.steps = .missing)
      (above : root.view.reach [] p.steps.dropLast = .missing)
      (run : root.run (Disk.ensureDirectory p) = (.error .missing, root))
  | made {after : Node} {place : Place} (reach : root.view.reach [] p.steps = .missing)
      (run : root.run (Disk.ensureDirectory p) = (.ok (), after))
      (adds : Adds root.view after.view) (there : after.view.reach [] p.steps = .directory place)
      (wellFormed : root.WellFormed → (∀ x ∈ p.pieces, x.has '/' = false) → after.WellFormed)

theorem isLongName_of_step {v : View} {place : Place} {piece : Name}
    (h : v.step place piece = .error .missing) : Spot.isLongName piece = false := by
  rcases step_cases v place piece with ⟨-, hv⟩ | ⟨-, -, hv⟩ | ⟨-, -, hv⟩ |
    ⟨-, -, -, ⟨-, hv⟩ | ⟨-, -, hv⟩ | ⟨hlong, -, hv⟩⟩ <;> rw [hv] at h <;> cases h
  exact hlong

theorem ensured_of_missing (hp : p.pieces = front ++ [last]) (hl : isIdle last = false)
    (hr : refusal? p = none) {place : Place} (h : root.view.reach [] front = .directory place)
    (hs : root.view.step place last = .error .missing) : Ensured root p := by
  obtain ⟨after, hmake, hu, hnone, hview, hwf⟩ := makeDirectoryAt_of_missing hp hl hr h hs
  have hadds : Adds root.view after.view := hview ▸ adds_update hnone
  have hfront := reach_of_keeps hadds.keeps h (by simp)
  have hthere : after.view (last :: place) = some .directory := by
    rw [hview, Function.update_self]
  have hstep : after.view.step place last = .ok (last :: place) := by
    rw [step_name (reach_eq_directory_iff.1 hfront).2 hl hu, isLongName_of_step hs, hthere]
    rfl
  have hreach : after.view.reach [] p.steps = .directory (last :: place) := by
    rw [reach_steps hp hl, hfront]
    simp only [reach, hstep, hthere, if_true]
  refine .made ?_ (run_ensureDirectory_of_ok hmake) hadds hreach ?_
  · rw [reach_steps hp hl, h]
    simp only [reach, hs]
  · intro hroot hslash
    exact hwf hroot (hslash last (by rw [hp]; simp))

theorem ensured_of_there (hp : p.pieces = front ++ [last]) (hl : isIdle last = false)
    (hr : refusal? p = none) {place next : Place} (h : root.view.reach [] front = .directory place)
    (hs : root.view.step place last = .ok next) : Ensured root p := by
  have hreach : root.view.reach [] p.steps =
      if root.view next = some .directory then .directory next else .blocked := by
    rw [reach_steps hp hl, h]
    simp only [reach, hs]
  have hkind : root.kindAt p = .ok .directory ↔ root.view next = some .directory := by
    rw [kindAt_eq_directory_iff hr, ← reach_stepsOf, ← Path.steps, hreach]
    by_cases hd : root.view next = some .directory <;> simp [hd]
  have hrun := run_ensureDirectory_of_exists (makeDirectoryAt_of_there hp hl hr h hs)
  by_cases hd : root.view next = some .directory
  · rw [if_pos (hkind.2 hd)] at hrun
    rw [if_pos hd] at hreach
    exact .there hreach hrun
  · rw [if_neg (mt hkind.1 hd)] at hrun
    rw [if_neg hd] at hreach
    exact .blocked hreach (by decide) hrun

theorem ensured_of_step (hp : p.pieces = front ++ [last]) (hl : isIdle last = false)
    (hr : refusal? p = none) : Ensured root p := by
  cases hf : root.view.reach [] front with
  | missing =>
      have hm : root.makeDirectoryAt p = .error .missing := by
        simp only [makeDirectoryAt, target_of_missing hp hl hr hf]
      refine .missing ?_ ?_ (run_ensureDirectory_of_error hm (by decide))
      · rw [reach_steps hp hl, hf]
      · rw [steps_of_pieces hp hl, List.dropLast_concat, reach_stepsOf, hf]
  | blocked =>
      obtain ⟨t, hm, he, ht⟩ := target_of_blocked hp hl hr hf
      refine .blocked ?_ hm (run_ensureDirectory_of_error ?_ he)
      · rw [reach_steps hp hl, hf]
      · simp only [makeDirectoryAt, ht]
  | directory place =>
      cases hs : root.view.step place last with
      | ok next => exact ensured_of_there hp hl hr hf hs
      | error t =>
          by_cases hm : t = .missing
          · subst hm
            exact ensured_of_missing hp hl hr hf hs
          · obtain ⟨he, hmake⟩ := makeDirectoryAt_of_error hp hl hr hf hs hm
            refine .blocked ?_ hm (run_ensureDirectory_of_error hmake he)
            rw [reach_steps hp hl, hf]
            simp only [reach, hs]

end Ending

variable {root : Node} {p : Path}

theorem reach_idle (htop : root.entry = .directory) {pieces : List Name}
    (h : ∀ x ∈ pieces, isIdle x = true) : root.view.reach [] pieces = .directory [] := by
  have hroot : root.view [] = some .directory := by rw [view_nil, htop]
  rw [← reach_stepsOf, Path.stepsOf_eq_nil h, reach, if_pos hroot]

theorem makeDirectoryAt_of_idle (htop : root.entry = .directory) (hr : refusal? p = none)
    (h : ∀ x ∈ p.pieces, isIdle x = true) : root.makeDirectoryAt p = .error .exists := by
  have hbare : (p.pieces.reverse.dropWhile (· = .text "")).reverse =
      List.rdropWhile (· = .text "") p.pieces := rfl
  simp only [makeDirectoryAt, target, hr, hbare]
  rcases List.eq_nil_or_concat' (List.rdropWhile (· = .text "") p.pieces) with
    hb | ⟨front, last, hb⟩
  · simp only [hb, List.getLast?_nil]
  · have hidle : ∀ x ∈ front ++ [last], isIdle x = true := fun x hx =>
      h x ((List.rdropWhile_prefix _ _).subset (hb ▸ hx))
    have hdot : last = "." := by
      have hcases : last = "" ∨ last = "." := by
        simpa [isIdle] using hidle last (List.mem_append_right _ List.mem_cons_self)
      have hne : List.rdropWhile (· = .text "") p.pieces ≠ [] := by simp [hb]
      have hlast := List.rdropWhile_last_not _ _ hne
      simp only [hb, List.getLast_append_singleton, decide_eq_true_eq] at hlast
      exact hcases.resolve_left hlast
    obtain ⟨spot, hs, hplace⟩ := exists_walk (reach_eq_directory_iff.1
      (reach_idle htop fun x hx => hidle x (List.mem_append_left _ hx))).1
    have hnode := (view_place_of_walk hs).2
    rw [hplace, view_nil, htop] at hnode
    obtain ⟨n, above⟩ := spot
    cases n with
    | file content => cases hnode
    | special => cases hnode
    | directory entries =>
        have hstep : (Spot.mk (.directory entries) above).step "." =
            .ok ⟨.directory entries, above⟩ := rfl
        simp only [hb, List.getLast?_concat, List.dropLast_concat, hs, hdot, hstep, decide_true,
          Bool.true_or, if_true]

theorem ensured (htop : root.entry = .directory) (hr : refusal? p = none) (ht : p.Trimmed) :
    Ensured root p := by
  by_cases hsteps : p.steps = []
  · have hidle : ∀ x ∈ p.pieces, isIdle x = true := fun x hx => by
      simpa using List.filter_eq_nil_iff.1 hsteps x hx
    have hreach := reach_idle htop hidle
    have hkind := (kindAt_eq_directory_iff hr).2 ⟨_, hreach⟩
    have hrun := run_ensureDirectory_of_exists (makeDirectoryAt_of_idle htop hr hidle)
    rw [if_pos hkind] at hrun
    rw [← reach_stepsOf] at hreach
    exact .there hreach hrun
  · obtain ⟨front, last, hp, hl⟩ := ht hsteps
    exact ensured_of_step hp hl hr

end Node

end PermitTypes.Files
