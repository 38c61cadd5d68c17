import PermitTypes.Proofs.Files.Writing

namespace PermitTypes.Files

open PermitTypes.Path (isIdle stepsOf)
open View

namespace Node

variable {root after : Node} {p : Path} {spot : Spot} {name : Name} {text : String}
  {slashed : Bool}

/-- How a target with a name comes about. -/
theorem exists_front_of_target (h : root.target p = .ok ⟨spot, some name, slashed⟩) :
    ∃ front, List.rdropWhile (· = .text "") p.pieces = front ++ [name] ∧
      (slashed = false → p.pieces.length ≤ (front ++ [name]).length) ∧
      (Spot.ofRoot root).walk front = .ok spot ∧ refusal? p = none ∧
      (spot.step name = .error .missing ∨
        (∃ next, spot.step name = .ok next) ∧ name ≠ "." ∧ name ≠ "..") := by
  have hbare : (p.pieces.reverse.dropWhile (· = .text "")).reverse =
      List.rdropWhile (· = .text "") p.pieces := rfl
  simp only [target, hbare] at h
  cases hr : refusal? p with
  | some t => rw [hr] at h; cases h
  | none =>
      rw [hr] at h
      rcases List.eq_nil_or_concat' (List.rdropWhile (· = .text "") p.pieces) with
        hb | ⟨front, last, hb⟩
      · simp [hb] at h
      · simp only [hb, List.getLast?_concat, List.dropLast_concat] at h
        cases hw : (Spot.ofRoot root).walk front with
        | error t => rw [hw] at h; cases h
        | ok found =>
            simp only [hw] at h
            cases hs : found.step last with
            | error t =>
                cases t with
                | missing =>
                    simp only [hs] at h
                    cases h
                    exact ⟨front, hb, by simp, hw, rfl, .inl hs⟩
                | _ => simp [hs] at h
            | ok next =>
                simp only [hs] at h
                split at h
                · cases h
                · next hdots =>
                    cases h
                    simp only [Bool.or_eq_true, decide_eq_true_eq, not_or] at hdots
                    exact ⟨front, hb, by simp, hw, rfl, .inr ⟨⟨next, hs⟩, hdots⟩⟩

/-- A target with a name: a directory, and a name that could stand below it. -/
structure Aim (root : Node) (p : Path) (spot : Spot) (name : Name) : Prop where
  allowed : refusal? p = none
  named : name ∈ p.pieces
  step : isIdle name = false
  down : name ≠ ".."
  short : Spot.isLongName name = false
  directory : root.view spot.place = some .directory
  node : root.at? spot.place = some spot.node

theorem aim_of_target (h : root.target p = .ok ⟨spot, some name, slashed⟩) :
    Aim root p spot name := by
  obtain ⟨front, hfront, -, hwalk, hr, hstep⟩ := exists_front_of_target h
  have hnamed : name ∈ p.pieces := by
    apply (List.rdropWhile_prefix (· = .text "") p.pieces).subset
    simp [hfront]
  have hne : name ≠ "" := by
    have hlast := List.rdropWhile_last_not (· = .text "") p.pieces (by simp [hfront])
    simpa [hfront] using hlast
  have hview : (spot.step name).map Spot.place = root.view.step spot.place name :=
    Spot.step_place (Spot.leads_walk (Spot.leads_ofRoot root) hwalk) name
  have hcases : root.view.step spot.place name = .error .missing ∨
      (∃ next, root.view.step spot.place name = .ok next) ∧ name ≠ "." ∧ name ≠ ".." := by
    rw [← hview]
    rcases hstep with hm | ⟨⟨next, hn⟩, hdots⟩
    · exact .inl (by rw [hm]; rfl)
    · exact .inr ⟨⟨next.place, by rw [hn]; rfl⟩, hdots⟩
  have hat := Spot.at?_place_of_walk hwalk
  rcases step_cases root.view spot.place name with ⟨-, hs⟩ | ⟨-, hi, hs⟩ | ⟨-, hu, hs⟩ |
    ⟨hd, hi, hu, ⟨-, hs⟩ | ⟨hl, -, -⟩ | ⟨hl, -, -⟩⟩
  · simp [hs] at hcases
  · rw [hs] at hcases
    simp [isIdle, hne] at hi
    simp [hi] at hcases
  · rw [hs] at hcases
    simp [hu] at hcases
  · simp [hs] at hcases
  · exact ⟨hr, hnamed, hi, hu, hl, hd, hat⟩
  · exact ⟨hr, hnamed, hi, hu, hl, hd, hat⟩

theorem Aim.child? (h : Aim root p spot name) :
    (spot.node.child? name).map entry = root.view (name :: spot.place) := by
  rw [child?_of_at? h.node]
  rfl

theorem Aim.wellFormed (h : Aim root p spot name) (hp : p.Sound) {n : Node} (hn : n.WellFormed)
    (hroot : root.WellFormed) : (root.setBelow spot name n).WellFormed := by
  rw [setBelow, List.reverse_cons]
  exact hn.set ⟨h.step, h.down, hp.slashFree name h.named⟩ hroot

/-- The target of a path is at the place of its spelling. -/
theorem spelled_of_target (h : root.target p = .ok ⟨spot, some name, slashed⟩) :
    spelled p = name :: spot.place := by
  obtain ⟨front, hfront, -, hwalk, -⟩ := exists_front_of_target h
  have haim := aim_of_target h
  rw [spelled, Path.steps, ← Path.stepsOf_rdropWhile, hfront, settle_stepsOf, settle_append,
    ← walk_eq_settle (view_place_of_walk hwalk).1]
  exact move_name haim.step haim.down _

theorem view_of_makeDirectoryAt (hroot : root.IsTree) (hp : p.Sound)
    (h : root.makeDirectoryAt p = .ok after) :
    after.IsTree ∧ root.view (spelled p) = none ∧
      after.view = Function.update root.view (spelled p) (some .directory) := by
  rw [makeDirectoryAt] at h
  split at h
  · cases h
  · cases h
  · next spot name slashed ht =>
      have haim := aim_of_target ht
      split at h
      · cases h
      · next hchild =>
          cases h
          have hnone : root.view (name :: spot.place) = none := by
            rw [← haim.child?, hchild]
            rfl
          have hview : (root.setBelow spot name empty).view =
              Function.update root.view (name :: spot.place) (some .directory) := by
            apply view_setBelow isLeaf_empty haim.directory
            simp [hnone]
          have hkeeps : Keeps root.view (root.setBelow spot name empty).view := by
            rw [hview]
            exact (adds_update hnone).keeps
          rw [spelled_of_target ht]
          exact ⟨hroot.of_keeps hkeeps (haim.wellFormed hp wellFormed_empty hroot.wellFormed),
            hnone, hview⟩

/-- A directory that has been made is all that is new. -/
theorem adds_of_makeDirectoryAt (hroot : root.IsTree) (hp : p.Sound)
    (h : root.makeDirectoryAt p = .ok after) : after.IsTree ∧ Adds root.view after.view := by
  obtain ⟨htree, hnone, hview⟩ := view_of_makeDirectoryAt hroot hp h
  exact ⟨htree, hview ▸ adds_update hnone⟩

/-- What writing leaves: the text stands where the path leads, in place of a file or of nothing. -/
structure Put (root : Node) (p : Path) (text : String) (after : Node) : Prop where
  tree : after.IsTree
  view : after.view = Function.update root.view (spelled p) (some (.file text.toUTF8))
  old : Free root.view (spelled p)
  /-- What it has taken the place of is found under the same path. -/
  before : root.view (spelled p) ≠ none → root.view.find p = .ok (spelled p)
  find : after.view.find p = .ok (spelled p)

theorem Put.changes (h : Put root p text after) :
    Changes (· = spelled p) root.view after.view := by
  rw [h.view]
  exact changes_file h.old _

theorem Put.read (h : Put root p text after) : after.view.read p = .ok text.toUTF8 := by
  have hfile : after.view (spelled p) = some (.file text.toUTF8) := by
    rw [h.view, Function.update_self]
  simp only [View.read, h.find, hfile]

theorem exists_target_of_writeAt (h : root.writeAt p text = .ok after) :
    ∃ spot name, root.target p = .ok ⟨spot, some name, false⟩ ∧
      (∀ n, spot.node.child? name = some n → n.kind = .file) ∧
      after = root.setBelow spot name (file text.toUTF8) := by
  rw [writeAt] at h
  split at h
  · cases h
  · cases h
  · next spot name slashed ht =>
      cases slashed with
      | true => cases h
      | false =>
          rw [if_neg Bool.false_ne_true] at h
          split at h
          · cases h
          · cases h
          · next hdirectory hspecial =>
              cases h
              refine ⟨spot, name, ht, fun n hn => ?_, rfl⟩
              cases n with
              | file content => rfl
              | directory entries => exact absurd hn (hdirectory entries)
              | special => exact absurd hn hspecial

/-- A target without slashes at its end is where the path leads. -/
theorem exists_walk_of_target (h : root.target p = .ok ⟨spot, some name, false⟩) :
    ∃ front, p.pieces = front ++ [name] ∧ root.view.walk [] front = .ok spot.place := by
  obtain ⟨front, hfront, hlength, hwalk, -⟩ := exists_front_of_target h
  refine ⟨front, ?_, (view_place_of_walk hwalk).1⟩
  rw [← hfront]
  rw [← hfront] at hlength
  exact ((List.rdropWhile_prefix _ _).eq_of_length_le (hlength rfl)).symm

theorem put_of_writeAt (hroot : root.IsTree) (hp : p.Sound)
    (h : root.writeAt p text = .ok after) : Put root p text after := by
  obtain ⟨spot, name, ht, hfree, rfl⟩ := exists_target_of_writeAt h
  have haim := aim_of_target ht
  obtain ⟨front, hpieces, hwalk⟩ := exists_walk_of_target ht
  have hplace : spelled p = name :: spot.place := spelled_of_target ht
  have hfind : ∀ {v : View}, v.walk [] front = .ok spot.place → v spot.place = some .directory →
      v (name :: spot.place) ≠ none → v.find p = .ok (name :: spot.place) := by
    intro v hw hd hn
    simp only [View.find, haim.allowed, hpieces, walk_append, hw, walk_singleton]
    rw [step_name hd haim.step haim.down, haim.short]
    simp [Option.isSome_iff_ne_none.2 hn]
  have hold : Free root.view (name :: spot.place) := by
    intro e he
    rw [← haim.child?] at he
    obtain ⟨n, hn, rfl⟩ := Option.map_eq_some_iff.1 he
    rw [kind_entry, hfree n hn]
  have hview := view_setBelow (isLeaf_file text.toUTF8) haim.directory hold.ne_directory
  have hkeeps : Keeps root.view (root.setBelow spot name (file text.toUTF8)).view := by
    rw [hview]
    exact (changes_file hold _).keeps
  rw [← hplace] at hview hold
  refine ⟨?_, hview, hold, fun hn => ?_, ?_⟩
  · exact hroot.of_keeps hkeeps (haim.wellFormed hp (.file _) hroot.wellFormed)
  · rw [hplace] at hn ⊢
    exact hfind hwalk haim.directory hn
  · rw [hplace]
    apply hfind ?_ (hkeeps.directory haim.directory)
    · rw [hview, hplace, Function.update_self]
      simp
    · rw [hkeeps.walk root.closed_view root.view_nil_ne_none, hwalk]
      simp [hwalk]

/-- What a name is found below is found itself, unless it is the empty path. -/
theorem find_of_joinName {v : View} {place : Place} (h : v.find (p.joinName name) = .ok place)
    (hne : p.pieces ≠ [.text ""]) : v.find p = .ok (spelled p) := by
  obtain ⟨hwalk, hdir⟩ := walk_base_of_find h
  have hjoined : refusal? (p.joinName name) = none := (find_eq_ok_iff.1 h).1
  have hpieces := Path.pieces_joinName p name
  rcases Path.pieces_eq_base p with hp | hp
  · have hr : refusal? p = none := by
      apply refusal?_of_front hjoined ?_ hne
      rw [hpieces, ← hp]
      exact List.prefix_append ..
    simp only [View.find, hr, hp, hwalk]
  · have hr : refusal? p = none := by
      have hbase : p.base ≠ [] := by
        intro hb
        rw [hb] at hp
        exact hne hp
      apply refusal?_of_le hjoined ?_ ?_ hne
      · intro x hx
        rw [hp] at hx
        rw [hpieces]
        simp only [List.mem_append, List.mem_singleton] at hx ⊢
        tauto
      · rw [Path.size, Path.size, hp, hpieces, Path.span_append, Path.span_append, Path.span_cons,
          Path.span_cons]
        have hnone : (Name.text "").size = 0 := rfl
        omega
    simp only [View.find, hr, hp, walk_append, hwalk, walk_singleton]
    exact step_idle hdir rfl

end Node

/-- Whatever the tree, the command changes it as the relation says. -/
def Does {α : Type} (change : View → View → Prop) (command : StateM Node α) : Prop :=
  ∀ root : Node, root.IsTree →
    (root.run command).2.IsTree ∧ change root.view (root.run command).2.view

namespace Does

variable {α β : Type} {change : View → View → Prop} [IsPreorder View change]
  {p : Path}

theorem asks (f : Node → α) : Does change (asks f) :=
  fun root hroot => ⟨hroot, Std.Refl.refl root.view⟩

theorem pure (a : α) : Does change (Pure.pure a : StateM Node α) := asks fun _ => a

theorem changes {f : Node → Except Trouble Node}
    (h : ∀ root after, root.IsTree → f root = .ok after →
      after.IsTree ∧ change root.view after.view) : Does change (changes f) := by
  intro root hroot
  have hrun : root.run (Files.changes f) = root.changed (f root) := rfl
  rw [hrun]
  cases hf : f root with
  | error t => exact ⟨hroot, Std.Refl.refl root.view⟩
  | ok after => exact h root after hroot hf

theorem bind {command : StateM Node α} (h : Does change command) {next : α → StateM Node β}
    (hnext : ∀ a, Does change (next a)) : Does change (command >>= next) := by
  intro root hroot
  obtain ⟨hmiddle, hfirst⟩ := h root hroot
  obtain ⟨hafter, hsecond⟩ := hnext (root.run command).1 _ hmiddle
  rw [Node.run_bind]
  exact ⟨hafter, IsTrans.trans _ _ _ hfirst hsecond⟩

theorem isThere (p : Path) : Does change (Disk.isThere p : StateM Node _) := by
  apply (asks (·.kindAt p)).bind
  intro kind
  cases kind <;> exact pure _

theorem isDirectory (p : Path) : Does change (Disk.isDirectory p : StateM Node _) := by
  apply (asks (·.kindAt p)).bind
  intro kind
  split <;> exact pure _

theorem ensureDirectory (h : Does change (Disk.makeDirectory p : StateM Node _)) :
    Does change (Disk.ensureDirectory p : StateM Node _) := by
  apply h.bind
  intro made
  cases made with
  | ok _ => exact pure _
  | error t =>
      cases t with
      | «exists» =>
          apply (isDirectory p).bind
          intro there
          cases there <;> exact pure _
      | _ => exact pure _

/-- Directories are made at the path and above it. -/
theorem makeDirectoriesWithin (hp : p.Sound)
    (h : ∀ q : Path, q.Sound → q.steps <+: p.steps →
      Does change (Disk.makeDirectory q : StateM Node _)) (depth : Nat) :
    Does change (Disk.makeDirectoriesWithin depth p : StateM Node _) := by
  induction depth generalizing p with
  | zero => exact ensureDirectory (h p hp List.prefix_rfl)
  | succ depth ih =>
      have hensure := ensureDirectory (h p hp List.prefix_rfl)
      apply hensure.bind
      intro ensured
      cases ensured with
      | ok _ => exact pure _
      | error t =>
          cases t with
          | missing =>
              dsimp only
              cases hq : p.parent? with
              | none => exact pure _
              | some q =>
                  have hsteps : q.steps <+: p.steps :=
                    Path.steps_parent? hq ▸ List.dropLast_prefix _
                  apply (ih (hp.parent hq) fun r hr hrq => h r hr (hrq.trans hsteps)).bind
                  intro made
                  cases made with
                  | error t => exact pure _
                  | ok _ => exact hensure
          | _ => exact pure _

theorem makeDirectories (hp : p.Sound)
    (h : ∀ q : Path, q.Sound → q.steps <+: p.steps →
      Does change (Disk.makeDirectory q : StateM Node _)) :
    Does change (Disk.makeDirectories p : StateM Node _) := by
  rw [Disk.makeDirectories]
  split
  · exact pure _
  · exact makeDirectoriesWithin hp h _

end Does

instance (places : Place → Prop) : IsPreorder View (Changes places) where
  refl := .refl places
  trans _ _ _ := .trans

/-- Whatever the tree, the command adds directories to it and nothing else. -/
def Grows {α : Type} (command : StateM Node α) : Prop :=
  ∀ root : Node, root.IsTree →
    (root.run command).2.IsTree ∧ Adds root.view (root.run command).2.view

theorem Grows.makeDirectories {p : Path} (hp : p.Sound) :
    Grows (Disk.makeDirectories p : StateM Node _) :=
  Does.makeDirectories hp fun _ hq _ => .changes fun _ _ hroot =>
    Node.adds_of_makeDirectoryAt hroot hq

end PermitTypes.Files
