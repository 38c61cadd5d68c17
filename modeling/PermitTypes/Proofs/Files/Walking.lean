import PermitTypes.Proofs.Files.View

namespace PermitTypes.Files

open PermitTypes.Path (isIdle stepsOf)

namespace View

variable {v w : View}

/-- One step of a path, as far as the places of a tree tell. -/
def step (v : View) (place : Place) (piece : Name) : Except Trouble Place :=
  match v place with
  | some .directory =>
    if isIdle piece then .ok place
    else if piece = ".." then .ok place.tail
    else if Spot.isLongName piece then .error .nameTooLong
    else if (v (piece :: place)).isSome then .ok (piece :: place)
    else .error .missing
  | _ => .error .notDirectory

def walk (v : View) (place : Place) : List Name → Except Trouble Place
  | [] => .ok place
  | piece :: pieces =>
    match v.step place piece with
    | .error t => .error t
    | .ok place => v.walk place pieces

def find (v : View) (p : Path) : Except Trouble Place :=
  match Node.refusal? p with
  | some t => .error t
  | none => v.walk [] p.pieces

def read (v : View) (p : Path) : Except Trouble ByteArray :=
  match v.find p with
  | .error t => .error t
  | .ok place =>
    match v place with
    | some (.file content) => .ok content
    | some .special => .error .noDevice
    | _ => .error .isDirectory

/-- Only directories hold something. -/
def Closed (v : View) : Prop := ∀ name place, v (name :: place) ≠ none → v place = some .directory

theorem step_of_not_directory {place : Place} (h : v place ≠ some .directory) (piece : Name) :
    v.step place piece = .error .notDirectory := by
  unfold step
  split
  · next hp => exact absurd hp h
  · rfl

theorem step_idle {place : Place} (h : v place = some .directory) {piece : Name}
    (hp : isIdle piece = true) : v.step place piece = .ok place := by
  simp only [step, h, hp, if_true]

theorem step_up {place : Place} (h : v place = some .directory) :
    v.step place ".." = .ok place.tail := by
  simp only [step, h, if_true]
  rfl

theorem step_name {place : Place} (h : v place = some .directory) {name : Name}
    (hi : isIdle name = false) (hu : name ≠ "..") :
    v.step place name =
      if Spot.isLongName name then .error .nameTooLong
      else if (v (name :: place)).isSome then .ok (name :: place) else .error .missing := by
  simp only [step, h, hi, hu, if_false, Bool.false_eq_true]

/-- Everything that a step can do. -/
theorem step_cases (v : View) (place : Place) (piece : Name) :
    (v place ≠ some .directory ∧ v.step place piece = .error .notDirectory) ∨
    (v place = some .directory ∧ isIdle piece = true ∧ v.step place piece = .ok place) ∨
    (v place = some .directory ∧ piece = ".." ∧ v.step place piece = .ok place.tail) ∨
    (v place = some .directory ∧ isIdle piece = false ∧ piece ≠ ".." ∧
      ((Spot.isLongName piece = true ∧ v.step place piece = .error .nameTooLong) ∨
      (Spot.isLongName piece = false ∧ v (piece :: place) ≠ none ∧
        v.step place piece = .ok (piece :: place)) ∨
      (Spot.isLongName piece = false ∧ v (piece :: place) = none ∧
        v.step place piece = .error .missing))) := by
  by_cases hd : v place = some .directory
  · refine .inr ?_
    by_cases hi : isIdle piece = true
    · exact .inl ⟨hd, hi, step_idle hd hi⟩
    · rw [Bool.not_eq_true] at hi
      by_cases hu : piece = ".."
      · subst hu
        exact .inr (.inl ⟨hd, rfl, step_up hd⟩)
      · refine .inr (.inr ⟨hd, hi, hu, ?_⟩)
        rw [step_name hd hi hu]
        cases hl : Spot.isLongName piece with
        | true => exact .inl ⟨rfl, rfl⟩
        | false =>
            cases hv : v (piece :: place) with
            | none => exact .inr (.inr ⟨rfl, rfl, rfl⟩)
            | some e => exact .inr (.inl ⟨rfl, Option.some_ne_none e, rfl⟩)
  · exact .inl ⟨hd, step_of_not_directory hd piece⟩

theorem Closed.step (hv : v.Closed) {place other : Place} {piece : Name}
    (h : v.step place piece = .ok other) : v other ≠ none := by
  rcases step_cases v place piece with ⟨-, hs⟩ | ⟨hd, -, hs⟩ | ⟨hd, -, hs⟩ |
    ⟨-, -, -, ⟨-, hs⟩ | ⟨-, hne, hs⟩ | ⟨-, -, hs⟩⟩ <;> rw [hs] at h <;> cases h
  · rw [hd]
    exact Option.some_ne_none _
  · cases place with
    | nil =>
        rw [List.tail_nil, hd]
        exact Option.some_ne_none _
    | cons name place =>
        have hp := hv name place (by rw [hd]; exact Option.some_ne_none _)
        rw [List.tail_cons, hp]
        exact Option.some_ne_none _
  · exact hne

/-- The place that a step leads to if it leads anywhere. -/
def move (place : Place) (piece : Name) : Place :=
  if isIdle piece then place else if piece = ".." then place.tail else piece :: place

/-- Where pieces lead by their spelling alone. -/
def settle (place : Place) (pieces : List Name) : Place := pieces.foldl move place

theorem settle_cons (place : Place) (piece : Name) (pieces : List Name) :
    settle place (piece :: pieces) = settle (move place piece) pieces :=
  rfl

theorem settle_append (place : Place) (a b : List Name) :
    settle place (a ++ b) = settle (settle place a) b :=
  List.foldl_append

theorem move_idle {piece : Name} (h : isIdle piece = true) (place : Place) :
    move place piece = place := by
  rw [move, if_pos h]

theorem move_name {name : Name} (hi : isIdle name = false) (hu : name ≠ "..") (place : Place) :
    move place name = name :: place := by
  rw [move, hi, if_neg Bool.false_ne_true, if_neg hu]

theorem settle_names {names : List Name} (h : ∀ n ∈ names, Path.IsName n) (place : Place) :
    settle place names = names.reverse ++ place := by
  induction names generalizing place with
  | nil => rfl
  | cons name names ih =>
      have hname := h name List.mem_cons_self
      rw [settle_cons, move_name hname.step hname.down,
        ih fun n hn => h n (List.mem_cons_of_mem _ hn)]
      simp

theorem settle_stepsOf (place : Place) (pieces : List Name) :
    settle place (stepsOf pieces) = settle place pieces := by
  induction pieces generalizing place with
  | nil => rfl
  | cons piece pieces ih =>
      by_cases h : isIdle piece = true
      · rw [Path.stepsOf_cons_idle h, settle_cons, move_idle h, ih]
      · rw [Bool.not_eq_true] at h
        rw [Path.stepsOf_cons_step h, settle_cons, settle_cons, ih]

theorem step_eq_move {place other : Place} {piece : Name}
    (h : v.step place piece = .ok other) : other = move place piece := by
  rcases step_cases v place piece with ⟨-, hs⟩ | ⟨-, hi, hs⟩ | ⟨-, rfl, hs⟩ |
    ⟨-, hi, hu, ⟨-, hs⟩ | ⟨-, -, hs⟩ | ⟨-, -, hs⟩⟩ <;> rw [hs] at h <;> cases h
  · rw [move_idle hi]
  · rfl
  · rw [move_name hi hu]

theorem walk_eq_settle {place other : Place} {pieces : List Name}
    (h : v.walk place pieces = .ok other) : other = settle place pieces := by
  induction pieces generalizing place with
  | nil => cases h; rfl
  | cons piece pieces ih =>
      rw [walk] at h
      cases hs : v.step place piece with
      | error t => rw [hs] at h; cases h
      | ok next =>
          rw [hs] at h
          rw [settle_cons, ← step_eq_move hs]
          exact ih h

theorem walk_append (v : View) (place : Place) (a b : List Name) :
    v.walk place (a ++ b) =
      match v.walk place a with
      | .error t => .error t
      | .ok other => v.walk other b := by
  induction a generalizing place with
  | nil => rfl
  | cons piece a ih =>
      rw [List.cons_append, walk, walk]
      cases v.step place piece with
      | error t => rfl
      | ok next => exact ih next

theorem walk_singleton (v : View) (place : Place) (piece : Name) :
    v.walk place [piece] = v.step place piece := by
  rw [walk]
  cases v.step place piece <;> rfl

/-- How far pieces lead: to a directory, to a directory without the next name, or against something
that no new entry can clear away. -/
inductive Reach where
  | directory (place : Place)
  | missing
  | blocked
  deriving DecidableEq

def reach (v : View) (place : Place) : List Name → Reach
  | [] => if v place = some .directory then .directory place else .blocked
  | piece :: pieces =>
    match v.step place piece with
    | .ok place => v.reach place pieces
    | .error .missing => .missing
    | .error _ => .blocked

theorem reach_of_not_directory {place : Place} (h : v place ≠ some .directory)
    (pieces : List Name) : v.reach place pieces = .blocked := by
  cases pieces with
  | nil => exact if_neg h
  | cons piece pieces => rw [reach, step_of_not_directory h]

theorem reach_cons_idle {piece : Name} (h : isIdle piece = true) (place : Place)
    (pieces : List Name) : v.reach place (piece :: pieces) = v.reach place pieces := by
  by_cases hd : v place = some .directory
  · rw [reach, step_idle hd h]
  · rw [reach_of_not_directory hd, reach_of_not_directory hd]

/-- Pieces that lead nowhere do not matter. -/
theorem reach_stepsOf (v : View) (place : Place) (pieces : List Name) :
    v.reach place (stepsOf pieces) = v.reach place pieces := by
  induction pieces generalizing place with
  | nil => rfl
  | cons piece pieces ih =>
      by_cases h : isIdle piece = true
      · rw [Path.stepsOf_cons_idle h, ih, reach_cons_idle h]
      · rw [Bool.not_eq_true] at h
        rw [Path.stepsOf_cons_step h, reach, reach]
        cases v.step place piece with
        | error t => cases t <;> rfl
        | ok next => exact ih next

theorem reach_append (v : View) (place : Place) (a b : List Name) :
    v.reach place (a ++ b) =
      match v.reach place a with
      | .directory other => v.reach other b
      | .missing => .missing
      | .blocked => .blocked := by
  induction a generalizing place with
  | nil =>
      by_cases h : v place = some .directory
      · rw [List.nil_append, reach, if_pos h]
      · rw [List.nil_append, reach_of_not_directory h, reach_of_not_directory h]
  | cons piece a ih =>
      rw [List.cons_append, reach, reach]
      cases v.step place piece with
      | error t => cases t <;> rfl
      | ok next => exact ih next

theorem reach_eq_directory_iff {place other : Place} {pieces : List Name} :
    v.reach place pieces = .directory other ↔
      v.walk place pieces = .ok other ∧ v other = some .directory := by
  induction pieces generalizing place with
  | nil =>
      rw [reach, walk]
      by_cases h : v place = some .directory
      · rw [if_pos h]
        constructor
        · rintro ⟨⟩
          exact ⟨rfl, h⟩
        · rintro ⟨⟨⟩, -⟩
          rfl
      · rw [if_neg h]
        constructor
        · rintro ⟨⟩
        · rintro ⟨⟨⟩, hd⟩
          exact absurd hd h
  | cons piece pieces ih =>
      rw [reach, walk]
      cases v.step place piece with
      | error t => cases t <;> simp
      | ok next => exact ih

theorem reach_eq_missing_iff {place : Place} {pieces : List Name} :
    v.reach place pieces = .missing ↔ v.walk place pieces = .error .missing := by
  induction pieces generalizing place with
  | nil =>
      rw [reach, walk]
      split <;> simp
  | cons piece pieces ih =>
      rw [reach, walk]
      cases v.step place piece with
      | error t => cases t <;> simp
      | ok next => exact ih

theorem reach_eq_blocked {place : Place} {pieces : List Name}
    (h : v.reach place pieces = .blocked) :
    (∃ t, t ≠ .missing ∧ t ≠ .exists ∧ v.walk place pieces = .error t) ∨
      ∃ other, v.walk place pieces = .ok other ∧ v other ≠ some .directory := by
  induction pieces generalizing place with
  | nil =>
      rw [reach] at h
      split at h
      · cases h
      · next hd => exact .inr ⟨place, rfl, hd⟩
  | cons piece pieces ih =>
      rw [reach] at h
      rw [walk]
      rcases step_cases v place piece with ⟨-, hs⟩ | ⟨-, -, hs⟩ | ⟨-, -, hs⟩ |
        ⟨-, -, -, ⟨-, hs⟩ | ⟨-, -, hs⟩ | ⟨-, -, hs⟩⟩ <;> rw [hs] at h ⊢
      · exact .inl ⟨_, by decide, by decide, rfl⟩
      · exact ih h
      · exact ih h
      · exact .inl ⟨_, by decide, by decide, rfl⟩
      · exact ih h
      · cases h

theorem reach_eq_settle {place other : Place} {pieces : List Name}
    (h : v.reach place pieces = .directory other) : other = settle place pieces :=
  walk_eq_settle (reach_eq_directory_iff.1 h).1

/-- What is there stays there and stays what it is: a file, a directory or something else. -/
def Keeps (v w : View) : Prop :=
  ∀ place e, v place = some e → ∃ e', w place = some e' ∧ e'.kind = e.kind

theorem Keeps.refl (v : View) : Keeps v v := fun _ e h => ⟨e, h, rfl⟩

theorem Keeps.trans {u : View} (huv : Keeps u v) (hvw : Keeps v w) : Keeps u w := by
  intro place e h
  obtain ⟨e', h', hk'⟩ := huv place e h
  obtain ⟨e'', h'', hk''⟩ := hvw place e' h'
  exact ⟨e'', h'', hk''.trans hk'⟩

theorem Keeps.directory (hvw : Keeps v w) {place : Place} (h : v place = some .directory) :
    w place = some .directory := by
  obtain ⟨e, he, hk⟩ := hvw place _ h
  cases e with
  | file content => cases hk
  | special => cases hk
  | directory => exact he

theorem Keeps.not_directory (hvw : Keeps v w) {place : Place} (hn : v place ≠ none)
    (h : v place ≠ some .directory) : w place ≠ some .directory := by
  obtain ⟨e, he⟩ := Option.ne_none_iff_exists'.1 hn
  obtain ⟨e', he', hk⟩ := hvw place e he
  rintro hw
  rw [hw] at he'
  cases he'
  cases e with
  | file content => cases hk
  | special => cases hk
  | directory => exact h he

theorem Keeps.ne_none (hvw : Keeps v w) {place : Place} (h : v place ≠ none) :
    w place ≠ none := by
  obtain ⟨e, he⟩ := Option.ne_none_iff_exists'.1 h
  obtain ⟨e', he', -⟩ := hvw place e he
  rw [he']
  exact Option.some_ne_none _

/-- A step goes the same way in a tree that has more, unless it had nothing to go to. -/
theorem Keeps.step (hvw : Keeps v w) {place : Place} (hn : v place ≠ none) {piece : Name}
    (h : v.step place piece ≠ .error .missing) : w.step place piece = v.step place piece := by
  rcases step_cases v place piece with ⟨hd, hs⟩ | ⟨hd, hi, hs⟩ | ⟨hd, rfl, hs⟩ |
    ⟨hd, hi, hu, ⟨hl, hs⟩ | ⟨hl, hne, hs⟩ | ⟨-, -, hs⟩⟩
  · rw [hs, step_of_not_directory (hvw.not_directory hn hd)]
  · rw [hs, step_idle (hvw.directory hd) hi]
  · rw [hs, step_up (hvw.directory hd)]
  · rw [hs, step_name (hvw.directory hd) hi hu, if_pos hl]
  · rw [hs, step_name (hvw.directory hd) hi hu, hl, if_neg Bool.false_ne_true,
      if_pos (Option.isSome_iff_ne_none.2 (hvw.ne_none hne))]
  · exact absurd hs h

theorem Keeps.walk (hvw : Keeps v w) (hv : v.Closed) {place : Place} (hn : v place ≠ none)
    {pieces : List Name} (h : v.walk place pieces ≠ .error .missing) :
    w.walk place pieces = v.walk place pieces := by
  induction pieces generalizing place with
  | nil => rfl
  | cons piece pieces ih =>
      rw [View.walk] at h ⊢
      rw [View.walk]
      cases hs : v.step place piece with
      | error t =>
          have hne : v.step place piece ≠ .error .missing := by
            intro he
            rw [he] at h
            exact h rfl
          rw [hvw.step hn hne, hs]
      | ok next =>
          rw [hs] at h
          rw [hvw.step hn (by rw [hs]; simp), hs]
          exact ih (hv.step hs) h

theorem Keeps.find (hvw : Keeps v w) (hv : v.Closed) (hn : v [] ≠ none) {p : Path}
    (h : v.find p ≠ .error .missing) : w.find p = v.find p := by
  unfold View.find at h ⊢
  cases hr : Node.refusal? p with
  | some t => rfl
  | none =>
      rw [hr] at h
      exact hvw.walk hv hn h

theorem Keeps.reach (hvw : Keeps v w) (hv : v.Closed) {place : Place} (hn : v place ≠ none)
    {pieces : List Name} (h : v.reach place pieces ≠ .missing) :
    w.reach place pieces = v.reach place pieces := by
  induction pieces generalizing place with
  | nil =>
      by_cases hd : v place = some .directory
      · rw [View.reach, View.reach, if_pos hd, if_pos (hvw.directory hd)]
      · rw [View.reach, View.reach, if_neg hd, if_neg (hvw.not_directory hn hd)]
  | cons piece pieces ih =>
      rw [View.reach] at h ⊢
      rw [View.reach]
      cases hs : v.step place piece with
      | error t =>
          have hne : v.step place piece ≠ .error .missing := by
            intro he
            rw [he] at h
            exact h rfl
          rw [hvw.step hn hne, hs]
          cases t <;> rfl
      | ok next =>
          rw [hs] at h
          rw [hvw.step hn (by rw [hs]; simp), hs]
          exact ih (hv.step hs) h

end View

open View

/-- The place that a path leads to by its spelling. -/
def spelled (p : Path) : Place := settle [] p.steps

theorem find_eq_ok_iff {v : View} {p : Path} {place : Place} :
    v.find p = .ok place ↔ Node.refusal? p = none ∧ v.walk [] p.pieces = .ok place := by
  unfold View.find
  cases Node.refusal? p <;> simp

theorem place_of_find {v : View} {p : Path} {place : Place} (h : v.find p = .ok place) :
    place = spelled p := by
  rw [spelled, Path.steps, settle_stepsOf]
  exact walk_eq_settle (find_eq_ok_iff.1 h).2

theorem find_of_isOk {v : View} {p : Path} (h : (v.find p).isOk = true) :
    v.find p = .ok (spelled p) := by
  cases hf : v.find p with
  | error t => rw [hf] at h; cases h
  | ok place => rw [place_of_find hf]

/-- A path that leads somewhere, or nowhere for good, is read as before where its place has not
changed. -/
theorem View.Keeps.read {v w : View} (hvw : Keeps v w) (hv : v.Closed) (hn : v [] ≠ none) {p : Path}
    (h : v.find p ≠ .error .missing) (hsame : w (spelled p) = v (spelled p)) :
    w.read p = v.read p := by
  unfold View.read
  rw [hvw.find hv hn h]
  cases hf : v.find p with
  | error t => rfl
  | ok place =>
      rw [place_of_find hf]
      simp only [hsame]

namespace Spot

theorem place_leave (s : Spot) : s.leave.place = s.place.tail := by
  obtain ⟨n, above⟩ := s
  cases above <;> rfl

/-- The steps of a spot are those of its place. -/
theorem step_place {root : Node} {s : Spot} (h : Leads root s.node s.above) (piece : Name) :
    (s.step piece).map place = root.view.step s.place piece := by
  have hat : root.at? s.place = some s.node := at?_of_leads h
  have hview : root.view s.place = some s.node.entry := by rw [Node.view, hat]; rfl
  obtain ⟨n, above⟩ := s
  cases n with
  | file content =>
      rw [step_of_not_directory (by rw [hview]; exact fun he => by cases he)]
      rfl
  | special =>
      rw [step_of_not_directory (by rw [hview]; exact fun he => by cases he)]
      rfl
  | directory entries =>
      have hdir : root.view (Spot.mk (.directory entries) above).place = some .directory := hview
      unfold Spot.step View.step
      simp only [hdir]
      have hchild : root.view (piece :: (Spot.mk (.directory entries) above).place) =
          (entries.lookup piece).map Node.entry := by
        rw [Node.view, Node.at?_cons, hat]
        rfl
      rw [hchild]
      split
      · rfl
      · split
        · exact congrArg Except.ok (place_leave _)
        · split
          · rfl
          · cases entries.lookup piece <;> rfl

theorem leads_ofRoot (root : Node) : Leads root (ofRoot root).node (ofRoot root).above :=
  rfl

theorem walk_place {root : Node} {s : Spot} (h : Leads root s.node s.above)
    (pieces : List Name) : (s.walk pieces).map place = root.view.walk s.place pieces := by
  induction pieces generalizing s with
  | nil => rfl
  | cons piece pieces ih =>
      rw [Spot.walk, View.walk, ← step_place h]
      cases hs : s.step piece with
      | error t => rfl
      | ok t => exact ih (leads_step h hs)

end Spot

namespace Node

theorem closed_view (root : Node) : root.view.Closed := fun _ _ => view_parent

theorem view_nil_ne_none (root : Node) : root.view [] ≠ none := Option.some_ne_none _

theorem find_of_keeps {root : Node} {w : View} (hw : Keeps root.view w) {p : Path} {place : Place}
    (h : root.view.find p = .ok place) : w.find p = .ok place := by
  rw [hw.find root.closed_view root.view_nil_ne_none (by rw [h]; simp), h]

theorem reach_of_keeps {root : Node} {w : View} (hw : Keeps root.view w) {pieces : List Name}
    {r : Reach} (h : root.view.reach [] pieces = r) (hr : r ≠ .missing) :
    w.reach [] pieces = r := by
  rw [hw.reach root.closed_view root.view_nil_ne_none (h ▸ hr), h]

theorem view_place_of_walk {root : Node} {pieces : List Name} {s : Spot}
    (h : (Spot.ofRoot root).walk pieces = .ok s) :
    root.view.walk [] pieces = .ok s.place ∧ root.view s.place = some s.node.entry := by
  have hp := Spot.walk_place (Spot.leads_ofRoot root) pieces
  rw [h] at hp
  refine ⟨hp.symm, ?_⟩
  rw [view, Spot.at?_place_of_walk h]
  rfl

theorem walk_error_iff {root : Node} {pieces : List Name} {t : Trouble} :
    (Spot.ofRoot root).walk pieces = .error t ↔ root.view.walk [] pieces = .error t := by
  have hp := Spot.walk_place (Spot.leads_ofRoot root) pieces
  rw [show (Spot.ofRoot root).place = [] from rfl] at hp
  rw [← hp]
  cases (Spot.ofRoot root).walk pieces <;> simp [Except.map]

theorem exists_walk {root : Node} {pieces : List Name} {place : Place}
    (h : root.view.walk [] pieces = .ok place) :
    ∃ s, (Spot.ofRoot root).walk pieces = .ok s ∧ s.place = place := by
  cases hs : (Spot.ofRoot root).walk pieces with
  | error t => rw [walk_error_iff.1 hs] at h; cases h
  | ok s =>
      rw [(view_place_of_walk hs).1] at h
      exact ⟨s, rfl, Except.ok.inj h⟩

theorem find_place (root : Node) (p : Path) : (root.find p).map Spot.place = root.view.find p := by
  unfold Node.find View.find
  cases refusal? p with
  | some t => rfl
  | none => exact Spot.walk_place (Spot.leads_ofRoot root) p.pieces

theorem view_place_of_find {root : Node} {p : Path} {s : Spot} (h : root.find p = .ok s) :
    root.view.find p = .ok s.place ∧ root.at? s.place = some s.node := by
  refine ⟨by rw [← find_place, h]; rfl, ?_⟩
  unfold Node.find at h
  cases hr : refusal? p with
  | some t => rw [hr] at h; cases h
  | none =>
      rw [hr] at h
      exact Spot.at?_place_of_walk h

theorem view_ne_none_of_find {root : Node} {p : Path} {place : Place}
    (h : root.view.find p = .ok place) : root.view place ≠ none := by
  rw [← find_place] at h
  cases hf : root.find p with
  | error t => rw [hf] at h; cases h
  | ok spot =>
      rw [hf] at h
      cases h
      rw [view, (view_place_of_find hf).2]
      exact Option.some_ne_none _

theorem exists_spot {root : Node} {p : Path} {place : Place} (h : root.view.find p = .ok place) :
    ∃ spot, root.find p = .ok spot ∧ spot.place = place := by
  rw [← find_place] at h
  cases hf : root.find p with
  | error t => rw [hf] at h; cases h
  | ok spot => rw [hf] at h; exact ⟨spot, rfl, Except.ok.inj h⟩

theorem exists_at?_of_keeps {root after : Node} (h : Keeps root.view after.view) {place : Place}
    {n : Node} (hn : root.at? place = some n) :
    ∃ n', after.at? place = some n' ∧ n'.kind = n.kind := by
  obtain ⟨e, he, hk⟩ := h place n.entry (by rw [view, hn]; rfl)
  obtain ⟨n', hn', rfl⟩ := Option.map_eq_some_iff.1 he
  exact ⟨n', hn', by rw [← kind_entry, hk, kind_entry]⟩

theorem isOk_kindAt (root : Node) (p : Path) : (root.kindAt p).isOk = (root.view.find p).isOk := by
  rw [← find_place, kindAt]
  cases root.find p <;> rfl

theorem readAt_eq (root : Node) (p : Path) : root.readAt p = root.view.read p := by
  rw [readAt, View.read]
  cases hf : root.find p with
  | error t =>
      rw [← find_place, hf]
      rfl
  | ok s =>
      obtain ⟨hfind, hat⟩ := view_place_of_find hf
      have hview : root.view s.place = some s.node.entry := by rw [view, hat]; rfl
      simp only [hfind, hview]
      cases s.node <;> rfl

theorem kindAt_of_find_error {root : Node} {p : Path} {t : Trouble}
    (h : root.view.find p = .error t) : root.kindAt p = .error t := by
  rw [← find_place] at h
  rw [kindAt]
  cases hf : root.find p with
  | error t' => rw [hf] at h; exact congrArg _ (Except.error.inj h)
  | ok spot => rw [hf] at h; cases h

theorem kindAt_eq_ok_iff {root : Node} {p : Path} {kind : EntryKind} :
    root.kindAt p = .ok kind ↔
      ∃ place e, root.view.find p = .ok place ∧ root.view place = some e ∧ e.kind = kind := by
  rw [kindAt]
  cases hf : root.find p with
  | error t =>
      rw [← find_place, hf]
      simp [Except.map]
  | ok s =>
      obtain ⟨hfind, hat⟩ := view_place_of_find hf
      have hview : root.view s.place = some s.node.entry := by rw [view, hat]; rfl
      rw [hfind]
      constructor
      · rintro ⟨⟩
        exact ⟨s.place, s.node.entry, rfl, hview, kind_entry _⟩
      · rintro ⟨place, e, hp, he, hk⟩
        cases hp
        rw [hview] at he
        cases he
        simp only [← hk, kind_entry]

end Node

end PermitTypes.Files
