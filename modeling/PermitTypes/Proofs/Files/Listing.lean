import PermitTypes.Proofs.Files.Directories

namespace PermitTypes.Files

open PermitTypes.Path (IsName)
open View

/-- Every directory on the way along the names can be listed. -/
def Listable (p : Path) : List Name → Prop
  | [] => True
  | name :: names => isLongPath p = false ∧ Listable (p.joinName name) names

/-- A file whose path goes on from another one with names. -/
structure Found (v : View) (dir p : Path) (names : List Name) : Prop where
  path : p = dir.below names
  proper : ∀ name ∈ names, IsName name
  listable : Listable dir names
  find : v.find dir = .ok (spelled dir)
  file : ∃ content, v (names.reverse ++ spelled dir) = some (.file content)

namespace View

variable {v w : View}

theorem Closed.directory (hv : v.Closed) {front : List Name} (hne : front ≠ []) {place : Place}
    (h : v (front ++ place) ≠ none) : v place = some .directory := by
  induction front with
  | nil => exact absurd rfl hne
  | cons name front ih =>
      have hbelow := hv name (front ++ place) h
      by_cases hf : front = []
      · subst hf
        exact hbelow
      · exact ih hf (by rw [hbelow]; exact Option.some_ne_none _)

/-- Where something stands behind the names, nothing on the way is missing. -/
theorem walk_names (hv : v.Closed) {names : List Name} (hnames : ∀ n ∈ names, IsName n)
    {place : Place} (h : v (names.reverse ++ place) ≠ none) :
    v.walk place names ≠ .error .missing := by
  induction names generalizing place with
  | nil => exact fun he => by cases he
  | cons name names ih =>
      have hname := hnames name List.mem_cons_self
      have hdir : v place = some .directory := hv.directory (by simp) h
      rw [List.reverse_cons, List.append_assoc, List.singleton_append] at h
      have hnext : v (name :: place) ≠ none := by
        by_cases hne : names.reverse = []
        · rwa [hne] at h
        · rw [hv.directory hne h]
          exact Option.some_ne_none _
      rw [walk, step_name hdir hname.step hname.down]
      cases Spot.isLongName name with
      | true => exact fun he => by cases he
      | false =>
          rw [if_neg Bool.false_ne_true, if_pos (Option.isSome_iff_ne_none.2 hnext)]
          exact ih (fun n hn => hnames n (List.mem_cons_of_mem _ hn)) h

/-- A path leads to the same place without a slash at its end. -/
theorem walk_base {p : Path} {start place : Place} (h : v.walk start p.pieces = .ok place) :
    v.walk start p.base = .ok place := by
  rcases Path.pieces_eq_base p with hp | hp
  · rwa [hp] at h
  · rw [hp, walk_append] at h
    cases hb : v.walk start p.base with
    | error t => rw [hb] at h; cases h
    | ok other =>
        rw [hb] at h
        have hother : v.step other "" = .ok place := (walk_singleton v other "").symm.trans h
        rw [step_eq_move hother]
        rfl

end View

namespace Found

variable {v w : View} {dir p : Path} {names : List Name}

theorem spelled_eq (h : Found v dir p names) : spelled p = names.reverse ++ spelled dir := by
  rw [spelled, h.path, Path.steps_below h.proper, settle_append, settle_names h.proper]
  rfl

theorem exists_content (h : Found v dir p names) :
    ∃ content, v (spelled p) = some (.file content) :=
  h.spelled_eq ▸ h.file

theorem find_ne_missing (hv : v.Closed) (h : Found v dir p names) : v.find p ≠ .error .missing := by
  by_cases hne : names = []
  · have hp : p = dir := by rw [h.path, hne]; rfl
    rw [hp, h.find]
    exact fun he => by cases he
  · have hcomponents : p.components.isEmpty = false := by
      rw [Bool.eq_false_iff, ne_eq, Path.isEmpty_components_iff, h.path,
        Path.steps_below h.proper, List.append_eq_nil_iff]
      exact fun he => hne he.2.2
    have hwalk : v.walk [] dir.base = .ok (spelled dir) := by
      have hfind := h.find
      unfold View.find at hfind
      split at hfind
      · cases hfind
      · exact walk_base hfind
    have hfile : v (names.reverse ++ spelled dir) ≠ none := by
      obtain ⟨content, hc⟩ := h.file
      rw [hc]
      exact Option.some_ne_none _
    unfold View.find
    cases hr : Node.refusal? p with
    | some t => exact fun he => Node.refusal?_ne_missing hcomponents (Except.error.inj he ▸ hr)
    | none =>
        simp only [h.path, Path.pieces_below h.proper hne, walk_append, hwalk]
        exact walk_names hv h.proper hfile

/-- A file that is found stays found. -/
theorem mono {root : Node} (h : Found root.view dir p names) (hw : Keeps root.view w) :
    Found w dir p names := by
  refine ⟨h.path, h.proper, h.listable, ?_, ?_⟩
  · exact Node.find_of_keeps hw h.find
  · obtain ⟨content, hc⟩ := h.file
    obtain ⟨e, he, hk⟩ := hw _ _ hc
    cases e with
    | file content => exact ⟨content, he⟩
    | directory => cases hk
    | special => cases hk

end Found

namespace Node

theorem entryPaths_eq_flatMap (p : Path) (entries : List (Name × Node)) :
    entryPaths p entries = entries.flatMap fun e => e.2.filePaths (p.joinName e.1) := by
  induction entries with
  | nil => rfl
  | cons e entries ih =>
      rw [entryPaths, ih]
      rfl

theorem get?_directory_cons (entries : List (Name × Node)) (name : Name)
    (names : List Name) :
    (directory entries).get? (name :: names) = (entries.lookup name).bind (·.get? names) := by
  rw [get?, child?]
  cases entries.lookup name <;> rfl

theorem mem_filePaths {n : Node} (h : n.WellFormed) {p q : Path} :
    q ∈ n.filePaths p ↔
      ∃ names content, n.get? names = some (file content) ∧ Listable p names ∧
        q = p.below names := by
  induction h generalizing p with
  | file content =>
      rw [filePaths, List.mem_singleton]
      constructor
      · rintro rfl
        exact ⟨[], content, rfl, trivial, rfl⟩
      · rintro ⟨names, _, hn, -, hq⟩
        cases names with
        | nil => exact hq
        | cons name names => cases hn
  | special =>
      refine iff_of_false List.not_mem_nil ?_
      rintro ⟨names, content, hn, -⟩
      cases names <;> cases hn
  | @directory entries distinct proper inside ih =>
      rw [filePaths]
      by_cases hl : isLongPath p = true
      · rw [if_pos hl]
        refine iff_of_false List.not_mem_nil ?_
        rintro ⟨names, content, hn, hlist, -⟩
        cases names with
        | nil => cases hn
        | cons name names =>
            rw [hlist.1] at hl
            cases hl
      · rw [if_neg hl, entryPaths_eq_flatMap, List.mem_flatMap]
        constructor
        · rintro ⟨e, he, hq⟩
          obtain ⟨names, content, hn, hlist, rfl⟩ := (ih e he).1 hq
          refine ⟨e.1 :: names, content, ?_, ⟨by simpa using hl, hlist⟩, rfl⟩
          rw [get?_directory_cons, Entries.lookup_of_mem distinct he]
          exact hn
        · rintro ⟨names, content, hn, hlist, rfl⟩
          cases names with
          | nil => cases hn
          | cons name names =>
              rw [get?_directory_cons, Option.bind_eq_some_iff] at hn
              obtain ⟨inner, hinner, hn⟩ := hn
              have he := Entries.mem_of_lookup hinner
              exact ⟨_, he, (ih _ he).2 ⟨names, content, hn, hlist.2, rfl⟩⟩

theorem nodup_filePaths {n : Node} (h : n.WellFormed) (p : Path) : (n.filePaths p).Nodup := by
  induction h generalizing p with
  | file content => exact List.nodup_singleton p
  | special => exact List.nodup_nil
  | @directory entries distinct proper inside ih =>
      rw [filePaths]
      split
      · exact List.nodup_nil
      · rw [entryPaths_eq_flatMap, List.nodup_flatMap]
        refine ⟨fun e he => ih e he _, ?_⟩
        refine (List.pairwise_map.1 distinct).imp_of_mem fun {a b} ha hb hab q hqa hqb => hab ?_
        obtain ⟨as, _, hna, -, rfl⟩ := (mem_filePaths (inside a ha)).1 hqa
        obtain ⟨bs, _, hnb, -, hq⟩ := (mem_filePaths (inside b hb)).1 hqb
        have hproper : ∀ {e : Name × Node} {names : List Name} {content : ByteArray},
            e ∈ entries → e.2.get? names = some (file content) → ∀ x ∈ e.1 :: names, IsName x := by
          intro e names content he hn x hx
          rcases List.mem_cons.1 hx with rfl | hx
          · exact proper e he
          · exact ((inside e he).get? hn).2 x hx
        rw [← Path.below_cons, ← Path.below_cons] at hq
        have heq := Path.below_injective (hproper ha hna) (hproper hb hnb) hq
        exact (List.cons.inj heq).1

variable {root : Node} {dir p : Path}

theorem mem_filesAt (h : root.WellFormed) :
    p ∈ root.filesAt dir ↔ ∃ names, Found root.view dir p names := by
  rw [filesAt]
  cases hf : root.find dir with
  | error t =>
      refine iff_of_false List.not_mem_nil ?_
      rintro ⟨names, hfound⟩
      have hfind := hfound.find
      rw [← find_place, hf] at hfind
      cases hfind
  | ok spot =>
      obtain ⟨hfind, hat⟩ := view_place_of_find hf
      have hplace : spot.place = spelled dir := place_of_find hfind
      rw [hplace] at hfind hat
      have hwf : spot.node.WellFormed := (h.get? hat).1
      have hget : ∀ names content, spot.node.get? names = some (file content) ↔
          root.view (names.reverse ++ spelled dir) = some (.file content) := by
        intro names content
        rw [view, at?, List.reverse_append, List.reverse_reverse, get?_append, ← at?, hat,
          Option.bind_some, Option.map_eq_some_iff]
        constructor
        · exact fun hn => ⟨_, hn, rfl⟩
        · rintro ⟨n, hn, he⟩
          cases n with
          | file content' => cases he; exact hn
          | directory entries => cases he
          | special => cases he
      simp only [mem_filePaths hwf]
      constructor
      · rintro ⟨names, content, hn, hlist, rfl⟩
        exact ⟨names, rfl, (hwf.get? hn).2, hlist, hfind, content, (hget names content).1 hn⟩
      · rintro ⟨names, hfound⟩
        obtain ⟨content, hc⟩ := hfound.file
        exact ⟨names, content, (hget names content).2 hc, hfound.listable, hfound.path⟩

theorem eq_of_mem_filesAt (h : root.WellFormed) {q : Path} (hp : p ∈ root.filesAt dir)
    (hq : q ∈ root.filesAt dir) (heq : p.components = q.components) : p = q := by
  obtain ⟨a, hpa⟩ := (mem_filesAt h).1 hp
  obtain ⟨b, hqb⟩ := (mem_filesAt h).1 hq
  have hsteps : p.steps = q.steps := by
    rw [← Path.filterMap_components, heq, Path.filterMap_components]
  rw [hpa.path, hqb.path, Path.steps_below hpa.proper, Path.steps_below hqb.proper,
    List.append_cancel_left_eq] at hsteps
  rw [hpa.path, hqb.path, hsteps]

theorem nodup_filesAt (h : root.WellFormed) (dir : Path) : (root.filesAt dir).Nodup := by
  rw [filesAt]
  cases hf : root.find dir with
  | error t => exact List.nodup_nil
  | ok spot => exact nodup_filePaths (h.get? (view_place_of_find hf).2).1 dir

end Node

end PermitTypes.Files
