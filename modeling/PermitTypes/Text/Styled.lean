namespace PermitTypes.Text

/-- The looks a report gives to parts of its text. -/
inductive Style where
  | heading | good | bad | warning | bright | alarm | triumph
  deriving DecidableEq

namespace Style

def codes : Style → String
  | heading => "1;94"
  | good => "32"
  | bad => "31"
  | warning => "33"
  | bright => "97"
  | alarm => "1;31"
  | triumph => "1;32"

def start (s : Style) : String := "\u001b[" ++ s.codes ++ "m"

end Style

def styleEnd : String := "\u001b[0m"

/-- Whether text for a terminal carries its style. -/
structure Palette where
  colored : Bool

/-- What is known of the surroundings. A variable that is set means yes unless it is `0`. -/
structure Surroundings where
  terminal : Bool
  wantsColor : Option String := none
  forcesColor : Option String := none
  refusesColor : Option String := none

/-- Color is forced, else refused, else shown on a terminal that does not decline it. -/
def Palette.choose (s : Surroundings) : Palette :=
  if s.forcesColor.any (· ≠ "0") then ⟨true⟩
  else if s.refusesColor.isSome then ⟨false⟩
  else ⟨s.terminal && s.wantsColor.all (· ≠ "0")⟩

/-- A style that ends inside the text gives way to the outer one again. -/
def Palette.paint (p : Palette) (style : Style) (text : String) : String :=
  if p.colored then
    style.start ++ (styleEnd ++ style.start).intercalate (text.splitOn styleEnd) ++ styleEnd
  else text

end PermitTypes.Text
