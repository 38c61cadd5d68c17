import PermitTypes.Files.Spot

namespace PermitTypes.Files

namespace Node

def hasZero (p : Path) : Bool := p.pieces.any (·.has '\x00')

/-- What is wrong with a path wherever it would lead. -/
def refusal? (p : Path) : Option Trouble :=
  if hasZero p then some .zeroInName
  else if p.pieces = [.text ""] then some .missing
  else if isLongPath p then some .nameTooLong
  else none

/-- Where a path leads, seen from the root. -/
def find (root : Node) (p : Path) : Except Trouble Spot :=
  match refusal? p with
  | some t => .error t
  | none => (Spot.ofRoot root).walk p.pieces

def kindAt (root : Node) (p : Path) : Except Trouble EntryKind :=
  match root.find p with
  | .error t => .error t
  | .ok spot => .ok spot.node.kind

def readAt (root : Node) (p : Path) : Except Trouble ByteArray :=
  match root.find p with
  | .error t => .error t
  | .ok spot =>
    match spot.node with
    | file content => .ok content
    | directory _ => .error .isDirectory
    | special => .error .noDevice

/-- Where a new entry would go: the directory, and the name if the path ends in one. Slashes at the
end are given by `slashed`. -/
structure Target where
  spot : Spot
  name : Option Name
  slashed : Bool

def target (root : Node) (p : Path) : Except Trouble Target :=
  match refusal? p with
  | some t => .error t
  | none =>
    let pieces := (p.pieces.reverse.dropWhile (· = .text "")).reverse
    let slashed := pieces.length < p.pieces.length
    match pieces.getLast? with
    | none => .ok ⟨.ofRoot root, none, slashed⟩
    | some last =>
      match (Spot.ofRoot root).walk pieces.dropLast with
      | .error t => .error t
      | .ok spot =>
        match spot.step last with
        | .error .missing => .ok ⟨spot, some last, slashed⟩
        | .error t => .error t
        | .ok _ =>
          if last = "." || last = ".." then .ok ⟨spot, none, slashed⟩
          else .ok ⟨spot, some last, slashed⟩

/-- The tree with `n` under a name in the directory of a spot. -/
def setBelow (root : Node) (spot : Spot) (name : Name) (n : Node) : Node :=
  set n (name :: spot.place).reverse root

/-- The tree in which a file holds a text. -/
def writeAt (root : Node) (p : Path) (text : String) : Except Trouble Node :=
  match root.target p with
  | .error t => .error t
  | .ok ⟨_, none, _⟩ => .error .isDirectory
  | .ok ⟨spot, some name, slashed⟩ =>
    if slashed then .error .isDirectory
    else
      match spot.node.child? name with
      | some (directory _) => .error .isDirectory
      | some special => .error .noDevice
      | _ => .ok (root.setBelow spot name (file text.toUTF8))

/-- The tree with one more directory. -/
def makeDirectoryAt (root : Node) (p : Path) : Except Trouble Node :=
  match root.target p with
  | .error t => .error t
  | .ok ⟨_, none, _⟩ => .error .exists
  | .ok ⟨spot, some name, _⟩ =>
    match spot.node.child? name with
    | some _ => .error .exists
    | none => .ok (root.setBelow spot name empty)

def filesAt (root : Node) (p : Path) : List Path :=
  match root.find p with
  | .error _ => []
  | .ok spot => spot.node.filePaths p

end Node

/-- Commands that leave the tree as it is. -/
def asks {α : Type} (f : Node → α) : StateM Node α := fun root => (f root, root)

/-- Commands that change the tree unless they fail. -/
def changes (f : Node → Except Trouble Node) : StateM Node (Except Trouble Unit) := fun root =>
  match f root with
  | .ok changed => (.ok (), changed)
  | .error t => (.error t, root)

instance : Disk (StateM Node) where
  kind p := asks (·.kindAt p)
  read p := asks (·.readAt p)
  write p text := changes (·.writeAt p text)
  makeDirectory p := changes (·.makeDirectoryAt p)
  files p := asks (·.filesAt p)

end PermitTypes.Files
