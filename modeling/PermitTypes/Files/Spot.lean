import PermitTypes.Files.Node

namespace PermitTypes.Files

/-- Where a walk through a tree stands: a node, and the nodes that it was entered from, each with
the name of the entry, innermost first. -/
structure Spot where
  node : Node
  above : List (Name × Node)

namespace Spot

def ofRoot (root : Node) : Spot := ⟨root, []⟩

def place (s : Spot) : Place := s.above.map (·.1)

/-- One level up; there is nothing above the root. -/
def leave (s : Spot) : Spot :=
  match s.above with
  | [] => s
  | (_, n) :: above => ⟨n, above⟩

/-- The most bytes that a name may have. -/
def longestName : Nat := 255

def isLongName (name : Name) : Bool := longestName < name.size

/-- One step from a directory. -/
def step (s : Spot) (piece : Name) : Except Trouble Spot :=
  match s.node with
  | .directory entries =>
    if Path.isIdle piece then .ok s
    else if piece = ".." then .ok s.leave
    else if isLongName piece then .error .nameTooLong
    else
      match entries.lookup piece with
      | some n => .ok ⟨n, (piece, s.node) :: s.above⟩
      | none => .error .missing
  | _ => .error .notDirectory

def walk (s : Spot) : List Name → Except Trouble Spot
  | [] => .ok s
  | piece :: pieces =>
    match s.step piece with
    | .error t => .error t
    | .ok s => s.walk pieces

/-- Each node is an entry of the one before it, and the first is the root. -/
def Leads (root : Node) (n : Node) : List (Name × Node) → Prop
  | [] => n = root
  | (name, parent) :: above => parent.child? name = some n ∧ Leads root parent above

theorem at?_of_leads {root n : Node} {above : List (Name × Node)} (h : Leads root n above) :
    root.at? (above.map (·.1)) = some n := by
  induction above generalizing n with
  | nil => rw [show n = root from h]; rfl
  | cons e above ih =>
    obtain ⟨name, parent⟩ := e
    rw [List.map_cons, Node.at?_cons, ih h.2]
    exact h.1

theorem leads_leave {root : Node} {s : Spot} (h : Leads root s.node s.above) :
    Leads root s.leave.node s.leave.above := by
  obtain ⟨n, above⟩ := s
  cases above with
  | nil => exact h
  | cons e above => exact h.2

theorem leads_step {root : Node} {s t : Spot} {piece : Name} (h : Leads root s.node s.above)
    (hs : s.step piece = .ok t) : Leads root t.node t.above := by
  simp only [step] at hs
  split at hs
  · rename_i entries hn
    split at hs
    · cases hs; exact h
    · split at hs
      · cases hs; exact leads_leave h
      · split at hs
        · cases hs
        · split at hs
          · rename_i n hl
            cases hs
            refine ⟨?_, h⟩
            rw [hn]
            exact hl
          · cases hs
  · cases hs

theorem leads_walk {root : Node} {s t : Spot} {pieces : List Name}
    (h : Leads root s.node s.above) (hw : s.walk pieces = .ok t) : Leads root t.node t.above := by
  induction pieces generalizing s with
  | nil => cases hw; exact h
  | cons piece pieces ih =>
    simp only [walk] at hw
    split at hw
    · cases hw
    · rename_i hs
      exact ih (leads_step h hs) hw

theorem at?_place_of_walk {root : Node} {s : Spot} {pieces : List Name}
    (h : (ofRoot root).walk pieces = .ok s) : root.at? s.place = some s.node :=
  at?_of_leads (leads_walk (s := ofRoot root) rfl h)

end Spot

end PermitTypes.Files
