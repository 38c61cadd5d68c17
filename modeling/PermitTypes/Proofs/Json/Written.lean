import PermitTypes.Json.Writer
import PermitTypes.Proofs.Json.Strings

namespace PermitTypes.Json

open Grammar

def points (s : String) : List Nat := s.toList.map Char.toNat

theorem text?_points (s : String) : text? (points s) = some s := by
  have hchars : ∀ cs : List Char, chars? (cs.map Char.toNat) = some cs := by
    intro cs
    induction cs with
    | nil => rfl
    | cons c cs ih =>
        rw [List.map_cons, chars?_cons (not_isSurrogate_toNat c), ih, Char.ofNat_toNat]
        rfl
  rw [text?, points, hchars]
  exact congrArg some String.ofList_toList

theorem chars_escapeChar {s rest : List Char} {ps : List Nat} (h : Chars s ps rest) (c : Char) :
    Chars (escapeChar c ++ s) (c.toNat :: ps) rest := by
  have hcontrol : ∀ n < 0x20, codeUnit '0' '0' (Nat.digitChar (n / 16)) (Nat.digitChar (n % 16)) =
      some n := by decide
  unfold escapeChar
  split
  · exact .short (by decide) h
  · exact .short (by decide) h
  · exact .short (by decide) h
  · exact .short (by decide) h
  · exact .short (by decide) h
  · exact .short (by decide) h
  · exact .short (by decide) h
  · rename_i hquote hback _ _ _ _ _
    split
    · rename_i hc
      exact .unit (hcontrol c.toNat hc) h
    · rename_i hc
      exact .plain (Nat.le_of_not_lt hc) hquote hback h

theorem writeString_append (s : String) (rest : List Char) :
    writeString s ++ rest = '"' :: (s.toList.flatMap escapeChar ++ '"' :: rest) := by
  simp [writeString]

theorem chars_writeString (s : String) (rest : List Char) :
    Chars (s.toList.flatMap escapeChar ++ '"' :: rest) (points s) rest := by
  have hchars : ∀ cs : List Char,
      Chars (cs.flatMap escapeChar ++ '"' :: rest) (cs.map Char.toNat) rest := by
    intro cs
    induction cs with
    | nil => exact .close
    | cons c cs ih =>
        rw [List.flatMap_cons, List.append_assoc]
        exact chars_escapeChar ih c
  exact hchars s.toList

theorem value_writeString (s : String) (rest : List Char) :
    Value (writeString s ++ rest) (.string (points s)) rest := by
  rw [writeString_append]
  exact .string (chars_writeString s rest)

theorem value_writeBool (b : Bool) (rest : List Char) :
    Value (writeBool b ++ rest) (.bool b) rest := by
  cases b with
  | true => exact .true
  | false => exact .false

theorem member_writeString (name : String) {s v rest : List Char} {t : Raw} (hs : Blanks s v)
    (ht : Value v t rest) : Member (writeString name ++ ':' :: s) (points name, t) rest := by
  rw [writeString_append]
  exact .mk (chars_writeString name _) .none hs ht

theorem Grammar.Value.more_elements {s rest : List Char} {t : Raw} {ts : List Raw}
    (h : Value ('[' :: s) (.array (t :: ts)) rest) : MoreElements (',' :: s) (t :: ts) rest := by
  generalize hv : '[' :: s = v at h
  cases h with
  | array hb ht hts =>
      obtain ⟨-, rfl⟩ := List.cons.inj hv
      exact .next .none hb ht hts

theorem Grammar.Value.more_members {s rest : List Char} {m : List Nat × Raw}
    {ms : List (List Nat × Raw)} (h : Value ('{' :: s) (.object (m :: ms)) rest) :
    MoreMembers (',' :: s) (m :: ms) rest := by
  generalize hv : '{' :: s = v at h
  cases h with
  | object hb hm hms =>
      obtain ⟨-, rfl⟩ := List.cons.inj hv
      exact .next .none hb hm hms

namespace Tree

mutual

/-- A tree as a value that is written. -/
def raw : Tree → Raw
  | null => .null
  | bool b => .bool b
  | number lexeme => .number lexeme.toList
  | string s => .string (points s)
  | array ts => .array (rawElements ts)
  | object ms => .object (rawMembers ms)

def rawElements : List Tree → List Raw
  | [] => []
  | t :: ts => t.raw :: rawElements ts

def rawMembers : List (String × Tree) → List (List Nat × Raw)
  | [] => []
  | (name, t) :: ms => (points name, t.raw) :: rawMembers ms

end

mutual

/-- A tree whose numbers are numbers. -/
def Lexical : Tree → Prop
  | number lexeme => Number lexeme.toList
  | array ts => LexicalElements ts
  | object ms => LexicalMembers ms
  | _ => True

def LexicalElements : List Tree → Prop
  | [] => True
  | t :: ts => t.Lexical ∧ LexicalElements ts

def LexicalMembers : List (String × Tree) → Prop
  | [] => True
  | (_, t) :: ms => t.Lexical ∧ LexicalMembers ms

end

theorem lexicalElements_iff {ts : List Tree} : LexicalElements ts ↔ ∀ t ∈ ts, t.Lexical := by
  induction ts with
  | nil => exact ⟨fun _ _ h => (nomatch h), fun _ => trivial⟩
  | cons t ts ih => rw [LexicalElements, ih, List.forall_mem_cons]

theorem lexicalMembers_iff {ms : List (String × Tree)} :
    LexicalMembers ms ↔ ∀ m ∈ ms, m.2.Lexical := by
  induction ms with
  | nil => exact ⟨fun _ _ h => (nomatch h), fun _ => trivial⟩
  | cons m ms ih => rw [LexicalMembers, ih, List.forall_mem_cons]

theorem lexicalMembers_append {a b : List (String × Tree)} (ha : LexicalMembers a)
    (hb : LexicalMembers b) : LexicalMembers (a ++ b) := by
  rw [lexicalMembers_iff] at ha hb ⊢
  intro m hm
  exact (List.mem_append.1 hm).elim (ha m) (hb m)

theorem blanks_newline (depth : Nat) (s : List Char) : Blanks (newline depth ++ s) s := by
  have hspaces : ∀ n, Blanks (List.replicate n ' ' ++ s) s := by
    intro n
    induction n with
    | zero => exact .none
    | succ n ih => exact .cons (by decide) ih
  exact .cons (by decide) (hspaces (2 * depth))

mutual

theorem value_compactOnto (t : Tree) (h : t.Lexical) (rest : List Char) :
    Value (t.compactOnto rest) t.raw rest := by
  match t, h with
  | null, _ => exact .null
  | bool b, _ => exact value_writeBool b rest
  | number lexeme, h => exact .number h
  | string s, _ => exact value_writeString s rest
  | array ts, h => exact value_compactElements ts h rest
  | object ms, h => exact value_compactMembers ms h rest

theorem value_compactElements (ts : List Tree) (h : LexicalElements ts) (rest : List Char) :
    Value ('[' :: compactElements (']' :: rest) ts) (.array (rawElements ts)) rest := by
  match ts, h with
  | [], _ => exact .emptyArray .none
  | [t], h => exact .array .none (value_compactOnto t h.1 _) (.close .none)
  | t :: u :: ts, h =>
      have hrest := value_compactElements (u :: ts) h.2 rest
      exact .array .none (value_compactOnto t h.1 _) hrest.more_elements

theorem value_compactMembers (ms : List (String × Tree)) (h : LexicalMembers ms)
    (rest : List Char) :
    Value ('{' :: compactMembers ('}' :: rest) ms) (.object (rawMembers ms)) rest := by
  match ms, h with
  | [], _ => exact .emptyObject .none
  | [(name, t)], h =>
      exact .object .none (member_writeString name .none (value_compactOnto t h.1 _)) (.close .none)
  | (name, t) :: m :: ms, h =>
      have hrest := value_compactMembers (m :: ms) h.2 rest
      exact .object .none (member_writeString name .none (value_compactOnto t h.1 _))
        hrest.more_members

end

mutual

theorem value_prettyOnto (t : Tree) (h : t.Lexical) (depth : Nat) (rest : List Char) :
    Value (t.prettyOnto depth rest) t.raw rest := by
  match t, h with
  | null, _ => exact .null
  | bool b, _ => exact value_writeBool b rest
  | number lexeme, h => exact .number h
  | string s, _ => exact value_writeString s rest
  | array [], _ => exact .emptyArray .none
  | array (t :: ts), h =>
      exact value_prettyElements (t :: ts) h (depth + 1) (blanks_newline depth (']' :: rest))
  | object [], _ => exact .emptyObject .none
  | object (m :: ms), h =>
      exact value_prettyMembers (m :: ms) h (depth + 1) (blanks_newline depth ('}' :: rest))

theorem value_prettyElements (ts : List Tree) (h : LexicalElements ts) (depth : Nat)
    {tail rest : List Char} (htail : Blanks tail (']' :: rest)) :
    Value ('[' :: prettyElements depth tail ts) (.array (rawElements ts)) rest := by
  match ts, h with
  | [], _ => exact .emptyArray htail
  | [t], h => exact .array (blanks_newline depth _) (value_prettyOnto t h.1 depth _) (.close htail)
  | t :: u :: ts, h =>
      have hrest := value_prettyElements (u :: ts) h.2 depth htail
      exact .array (blanks_newline depth _) (value_prettyOnto t h.1 depth _) hrest.more_elements

theorem value_prettyMembers (ms : List (String × Tree)) (h : LexicalMembers ms) (depth : Nat)
    {tail rest : List Char} (htail : Blanks tail ('}' :: rest)) :
    Value ('{' :: prettyMembers depth tail ms) (.object (rawMembers ms)) rest := by
  have hspace : ∀ s, Blanks (' ' :: s) s := fun s => .cons (by decide) .none
  match ms, h with
  | [], _ => exact .emptyObject htail
  | [(name, t)], h =>
      rw [prettyMembers, List.append_assoc]
      exact .object (blanks_newline depth _)
        (member_writeString name (hspace _) (value_prettyOnto t h.1 depth _)) (.close htail)
  | (name, t) :: m :: ms, h =>
      have hrest := value_prettyMembers (m :: ms) h.2 depth htail
      rw [prettyMembers, List.append_assoc]
      · exact .object (blanks_newline depth _)
          (member_writeString name (hspace _) (value_prettyOnto t h.1 depth _)) hrest.more_members
      · exact List.cons_ne_nil m ms

end

end Tree

end PermitTypes.Json
