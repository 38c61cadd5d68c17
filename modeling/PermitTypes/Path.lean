import PermitTypes.Name

namespace PermitTypes

/-- The bytes of a path, cut at its slashes. An absolute path begins with an empty piece. -/
structure Path where
  pieces : List Name
  deriving DecidableEq

namespace Path

/-- The characters between slashes. -/
def cut : List Char → List (List Char)
  | [] => [[]]
  | c :: cs => if c = '/' then [] :: cut cs else (cut cs).modifyHead (c :: ·)

def ofText (text : String) : Path := ⟨(cut text.toList).map fun cs => .text (String.ofList cs)⟩

/-- The number of bytes of the pieces, with a slash behind each. -/
def span : List Name → Nat
  | [] => 0
  | piece :: pieces => piece.size + 1 + span pieces

/-- The number of bytes. There is no slash behind the last piece. -/
def size (p : Path) : Nat := span p.pieces - 1

/-- The path as it is shown, where bytes that are no text are replaced. -/
def text (p : Path) : String := "/".intercalate (p.pieces.map (·.shown))

def parts (p : Path) : List Text.Utf8.Part :=
  [Text.Utf8.Part.char '/'].intercalate (p.pieces.map (·.parts))

def quoted (p : Path) : String :=
  String.ofList ('"' :: p.parts.flatMap Text.Quoted.escapePart ++ ['"'])

def isAbsolute (p : Path) : Bool :=
  match p.pieces with
  | .text "" :: _ :: _ => true
  | _ => false

/-- An absolute path stands for itself; any other goes below, after a single slash. -/
def join (p q : Path) : Path :=
  if q.isAbsolute then q
  else if p.pieces.getLast? = some (.text "") then ⟨p.pieces.dropLast ++ q.pieces⟩
  else ⟨p.pieces ++ q.pieces⟩

def joinText (p : Path) (text : String) : Path := p.join (ofText text)

/-- What has a name in a directory. -/
def joinName (p : Path) (name : Name) : Path := p.join ⟨[name]⟩

/-- A step of a path. -/
inductive Component where
  | root
  | here
  | up
  | name (piece : Name)
  deriving DecidableEq

/-- Pieces that lead nowhere. -/
def isIdle (piece : Name) : Bool := piece = "" || piece = "."

def dropIdle (pieces : List Name) : List Name := pieces.dropWhile isIdle

def dropIdleEnd (pieces : List Name) : List Name := (pieces.reverse.dropWhile isIdle).reverse

/-- The pieces at the front that count although they are idle: the root, or a leading dot. -/
def lead (p : Path) : List Name :=
  match p.pieces with
  | .text "" :: _ :: _ => [.text ""]
  | .text "." :: _ => [.text "."]
  | _ => []

def body (p : Path) : List Name := p.pieces.drop p.lead.length

def leadComponent : List Name → List Component
  | .text "" :: _ => [.root]
  | .text "." :: _ => [.here]
  | _ => []

def bodyComponent (piece : Name) : Component := if piece = ".." then .up else .name piece

def components (p : Path) : List Component :=
  leadComponent p.lead ++ (p.body.filter (!isIdle ·)).map bodyComponent

/-- A path of these pieces, where a root and an empty path need a second piece or one at all. -/
def assemble (lead body : List Name) : Path :=
  match lead, body with
  | [.text ""], [] => ⟨["", ""]⟩
  | [], [] => ⟨[""]⟩
  | lead, body => ⟨lead ++ body⟩

/-- The path without its last component. -/
def parent? (p : Path) : Option Path :=
  match dropIdleEnd p.body, p.lead with
  | [], [.text "."] => some ⟨[""]⟩
  | [], _ => none
  | body, lead => some (assemble lead (dropIdleEnd body.dropLast))

/-- The last component, if it is a name. -/
def fileName? (p : Path) : Option Name :=
  match p.components.getLast? with
  | some (.name piece) => some piece
  | _ => none

/-- The path with another name in place of its last one, or below it when it ends in no name. -/
def withFileName (p : Path) (name : String) : Path :=
  match p.fileName? with
  | none => p.joinText name
  | some _ => (p.parent?.getD p).joinText name

/-- What follows the given steps, without idle pieces around it. -/
def after : List Name → List Name → Option (List Name)
  | [], pieces => some (dropIdleEnd (dropIdle pieces))
  | _ :: _, [] => none
  | step :: steps, piece :: pieces =>
    if isIdle piece then after (step :: steps) pieces
    else if step = piece then after steps pieces
    else none

/-- The path as seen from one of the directories that it leads through. -/
def stripBase (p base : Path) : Option Path :=
  if base.components.isEmpty then some (assemble p.lead (dropIdleEnd p.body))
  else if base.lead = p.lead then
    (after (base.body.filter (!isIdle ·)) p.body).map (assemble [])
  else none

def Component.rank : Component → Nat
  | root => 0
  | here => 1
  | up => 2
  | name _ => 3

/-- Names in the order of their bytes, after all other steps. -/
def Component.le : Component → Component → Bool
  | name a, name b => a ≤ b
  | a, b => a.rank ≤ b.rank

/-- Component by component. -/
def leComponents : List Component → List Component → Bool
  | [], _ => true
  | _ :: _, [] => false
  | a :: as, b :: bs => if a = b then leComponents as bs else a.le b

def le (p q : Path) : Bool := leComponents p.components q.components

end Path

end PermitTypes
