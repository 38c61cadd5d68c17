import PermitTypes.Proofs.Emit.Tokens

namespace PermitTypes.Emit

open Token

mutual

/-- A derivation of a type: an identifier, `Array <` type `>`, `{` members `}`, or one or more times
`| {` members `}`. -/
inductive TypeTree where
  | named (name : String)
  | array (element : TypeTree)
  | record (members : List MemberTree)
  | union (first : List MemberTree) (others : List (List MemberTree))

/-- A derivation of a member: an identifier, perhaps `?`, then `:` and a type. -/
inductive MemberTree where
  | mk (name : String) (optional : Bool) (type : TypeTree)

end

/-- A derivation of a declaration: `export type`, an identifier, `= {` members `}`. -/
structure DeclTree where
  name : String
  members : List MemberTree

def optionalMark (optional : Bool) : List Token := if optional then [mark '?'] else []

mutual

/-- What a derivation derives. -/
def TypeTree.tokens : TypeTree → List Token
  | .named name => [word name]
  | .array element => word "Array" :: mark '<' :: (element.tokens ++ [mark '>'])
  | .record members => mark '{' :: (membersTokens members ++ [mark '}'])
  | .union first others =>
    mark '|' :: mark '{' :: (membersTokens first ++ mark '}' :: branchesTokens others)

def MemberTree.tokens : MemberTree → List Token
  | .mk name optional type => word name :: (optionalMark optional ++ mark ':' :: type.tokens)

def membersTokens : List MemberTree → List Token
  | [] => []
  | m :: ms => m.tokens ++ membersTokens ms

def branchesTokens : List (List MemberTree) → List Token
  | [] => []
  | ms :: rest => mark '|' :: mark '{' :: (membersTokens ms ++ mark '}' :: branchesTokens rest)

end

def DeclTree.tokens (d : DeclTree) : List Token :=
  word "export" :: word "type" :: word d.name :: mark '=' :: mark '{' ::
    (membersTokens d.members ++ [mark '}'])

def declsTokens (ds : List DeclTree) : List Token := ds.flatMap DeclTree.tokens

/-- What may follow a type. -/
def Follows (rest : List Token) : Prop := ∀ t ∈ rest.head?, t ≠ mark '|' ∧ t ≠ mark '<'

theorem follows_cons {t : Token} (h : t ≠ mark '|' ∧ t ≠ mark '<') (rest : List Token) :
    Follows (t :: rest) := by
  intro t' ht
  obtain rfl := Option.some.inj ht
  exact h

theorem Follows.ne_bar {rest : List Token} (h : Follows rest) (ts : List Token) :
    rest ≠ mark '|' :: ts := by
  rintro rfl
  exact (h _ rfl).1 rfl

theorem Follows.ne_angle {rest : List Token} (h : Follows rest) (ts : List Token) :
    rest ≠ mark '<' :: ts := by
  rintro rfl
  exact (h _ rfl).2 rfl

theorem follows_members (ms : List MemberTree) (rest : List Token) :
    Follows (membersTokens ms ++ mark '}' :: rest) := by
  cases ms with
  | nil => exact follows_cons (by decide) rest
  | cons m ms =>
      obtain ⟨name, optional, type⟩ := m
      exact follows_cons ⟨Token.noConfusion, Token.noConfusion⟩ _

theorem optionalMark_inj {a b : Bool} {r r' : List Token}
    (h : optionalMark a ++ mark ':' :: r = optionalMark b ++ mark ':' :: r') : a = b ∧ r = r' := by
  cases a <;> cases b
  · exact ⟨rfl, (List.cons.inj h).2⟩
  · cases (List.cons.inj h).1
  · cases (List.cons.inj h).1
  · exact ⟨rfl, (List.cons.inj (List.cons.inj h).2).2⟩

mutual

theorem TypeTree.tokens_append_inj (t t' : TypeTree) {r r' : List Token} (hr : Follows r)
    (hr' : Follows r') (h : t.tokens ++ r = t'.tokens ++ r') : t = t' ∧ r = r' := by
  match t, t' with
  | .named n, .named n' =>
      obtain ⟨hn, rfl⟩ := List.cons.inj h
      exact ⟨by rw [Token.word.inj hn], rfl⟩
  | .named n, .array t' => exact absurd (List.cons.inj h).2 (hr.ne_angle _)
  | .array t, .named n' => exact absurd (List.cons.inj h).2.symm (hr'.ne_angle _)
  | .array t, .array t' =>
      simp only [TypeTree.tokens, List.cons_append, List.append_assoc, List.nil_append] at h
      have hangle : ∀ rest, Follows (mark '>' :: rest) := follows_cons (by decide)
      obtain ⟨rfl, hrest⟩ := t.tokens_append_inj t' (hangle r) (hangle r')
        (List.cons.inj (List.cons.inj h).2).2
      exact ⟨rfl, (List.cons.inj hrest).2⟩
  | .record ms, .record ms' =>
      simp only [TypeTree.tokens, List.cons_append, List.append_assoc, List.nil_append] at h
      obtain ⟨rfl, rfl⟩ := membersTokens_append_inj ms ms' (List.cons.inj h).2
      exact ⟨rfl, rfl⟩
  | .union ms mss, .union ms' mss' =>
      simp only [TypeTree.tokens, List.cons_append, List.append_assoc] at h
      obtain ⟨rfl, hrest⟩ := membersTokens_append_inj ms ms' (List.cons.inj (List.cons.inj h).2).2
      obtain ⟨rfl, rfl⟩ := branchesTokens_append_inj mss mss' hr hr' hrest
      exact ⟨rfl, rfl⟩
  | .named _, .record _ => cases (List.cons.inj h).1
  | .named _, .union .. => cases (List.cons.inj h).1
  | .array _, .record _ => cases (List.cons.inj h).1
  | .array _, .union .. => cases (List.cons.inj h).1
  | .record _, .named _ => cases (List.cons.inj h).1
  | .record _, .array _ => cases (List.cons.inj h).1
  | .record _, .union .. => cases (List.cons.inj h).1
  | .union .., .named _ => cases (List.cons.inj h).1
  | .union .., .array _ => cases (List.cons.inj h).1
  | .union .., .record _ => cases (List.cons.inj h).1

theorem membersTokens_append_inj (ms ms' : List MemberTree) {r r' : List Token}
    (h : membersTokens ms ++ mark '}' :: r = membersTokens ms' ++ mark '}' :: r') :
    ms = ms' ∧ r = r' := by
  match ms, ms' with
  | [], [] => exact ⟨rfl, (List.cons.inj h).2⟩
  | [], .mk _ _ _ :: _ => cases (List.cons.inj h).1
  | .mk _ _ _ :: _, [] => cases (List.cons.inj h).1
  | .mk n o t :: ms, .mk n' o' t' :: ms' =>
      simp only [membersTokens, MemberTree.tokens, List.cons_append, List.append_assoc] at h
      obtain ⟨hn, hmark⟩ := List.cons.inj h
      obtain ⟨rfl, htype⟩ := optionalMark_inj hmark
      obtain ⟨rfl, hrest⟩ :=
        t.tokens_append_inj t' (follows_members ms r) (follows_members ms' r') htype
      obtain ⟨rfl, hr⟩ := membersTokens_append_inj ms ms' hrest
      exact ⟨by rw [Token.word.inj hn], hr⟩

theorem branchesTokens_append_inj (mss mss' : List (List MemberTree)) {r r' : List Token}
    (hr : Follows r) (hr' : Follows r')
    (h : branchesTokens mss ++ r = branchesTokens mss' ++ r') : mss = mss' ∧ r = r' := by
  match mss, mss' with
  | [], [] => exact ⟨rfl, h⟩
  | [], _ :: _ => exact absurd h (hr.ne_bar _)
  | _ :: _, [] => exact absurd h.symm (hr'.ne_bar _)
  | ms :: mss, ms' :: mss' =>
      simp only [branchesTokens, List.cons_append, List.append_assoc] at h
      obtain ⟨rfl, hrest⟩ := membersTokens_append_inj ms ms' (List.cons.inj (List.cons.inj h).2).2
      obtain ⟨rfl, rfl⟩ := branchesTokens_append_inj mss mss' hr hr' hrest
      exact ⟨rfl, rfl⟩

end

/-- Tokens derive from the grammar in one way at most. -/
theorem declsTokens_inj {ds ds' : List DeclTree} (h : declsTokens ds = declsTokens ds') :
    ds = ds' := by
  induction ds generalizing ds' with
  | nil =>
      cases ds' with
      | nil => rfl
      | cons d' ds' => cases h
  | cons d ds ih =>
      cases ds' with
      | nil => cases h
      | cons d' ds' =>
          obtain ⟨name, ms⟩ := d
          obtain ⟨name', ms'⟩ := d'
          simp only [declsTokens, List.flatMap_cons, DeclTree.tokens, List.cons_append,
            List.append_assoc, List.nil_append, List.cons.injEq, true_and] at h
          obtain ⟨hname, hmembers⟩ := h
          obtain ⟨rfl, hrest⟩ := membersTokens_append_inj ms ms' hmembers
          rw [Token.word.inj hname, ih hrest]

end PermitTypes.Emit
