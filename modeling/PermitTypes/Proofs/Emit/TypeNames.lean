import PermitTypes.Proofs.Emit.Distinction
import PermitTypes.Proofs.Emit.Legible
import PermitTypes.Proofs.Emit.Success
import PermitTypes.Proofs.Schema.RoundTrip
import PermitTypes.Schema.Decode

namespace PermitTypes.Emit

open Schema

/-- The words of a name. -/
def words (name : String) : List (List Char) :=
  (name.toList.splitOnP isSeparator).filter (!·.isEmpty)

def capitalise : List Char → List Char
  | [] => []
  | c :: cs => Text.upper c ++ cs

theorem flatMap_capitalise_filter (parts : List (List Char)) :
    (parts.filter (!·.isEmpty)).flatMap capitalise = parts.flatMap capitalise := by
  induction parts with
  | nil => rfl
  | cons part parts ih =>
      cases part with
      | nil => simpa [capitalise] using ih
      | cons c cs => simpa using ih

/-- By induction on the characters: up to the next separator all stands as it is, and what follows
it is cut into words. -/
theorem joinWords_eq (cs : List Char) :
    joinWords true cs = (cs.splitOnP isSeparator).flatMap capitalise ∧
      ∀ first rest, cs.splitOnP isSeparator = first :: rest →
        joinWords false cs = first ++ rest.flatMap capitalise := by
  induction cs with
  | nil =>
      refine ⟨rfl, ?_⟩
      rintro first rest ⟨⟩
      rfl
  | cons c cs ih =>
      obtain ⟨first, rest, hsplit⟩ :=
        List.exists_cons_of_ne_nil (List.splitOnP_ne_nil isSeparator cs)
      rw [List.splitOnP_cons_eq_if_modifyHead]
      by_cases hc : isSeparator c = true
      · simp only [joinWords, hc, if_true]
        refine ⟨ih.1, ?_⟩
        rintro _ _ ⟨⟩
        exact ih.1
      · have hfalse := ih.2 first rest hsplit
        simp only [joinWords, hc, if_true, if_false, Bool.false_eq_true, hsplit, hfalse,
          List.modifyHead_cons]
        refine ⟨by simp [capitalise], ?_⟩
        rintro _ _ ⟨⟩
        rfl

/-- The words of a name, run together with their first characters in upper case. -/
def joined (name : String) : List Char := (words name).flatMap capitalise

theorem pascalCase_eq (name : String) : pascalCase name = String.ofList (joined name) := by
  rw [pascalCase, (joinWords_eq name.toList).1, joined, words, flatMap_capitalise_filter]

theorem permitTypeName_eq_iff {a b : String} :
    permitTypeName a = permitTypeName b ↔ joined a = joined b := by
  rw [permitTypeName, permitTypeName, String.append_left_inj, pascalCase_eq, pascalCase_eq,
    String.ofList_inj]

/-- It begins with a small letter and has no capitals. -/
def isSmall : List Char → Bool
  | [] => false
  | c :: cs => c.isLower && cs.all (!·.isUpper)

/-- Small words with a dash between two of them. -/
def IsKebab (name : String) : Prop :=
  ['-'].intercalate (words name) = name.toList ∧ ∀ w ∈ words name, isSmall w

instance (name : String) : Decidable (IsKebab name) := inferInstanceAs (Decidable (_ ∧ _))

/-- The capital of a small letter gives the letter away. -/
theorem exists_upper_of_isLower {c : Char} (h : c.isLower = true) :
    ∃ u, Text.upper c = [u] ∧ u.isUpper = true ∧ c = Char.ofNat (u.toNat + 32) := by
  obtain ⟨hlow, hhigh⟩ := Bool.and_eq_true_iff.mp h
  have hsmall : 'a' ≤ c ∧ c ≤ 'z' := ⟨of_decide_eq_true hlow, of_decide_eq_true hhigh⟩
  have hlt : c.toNat < 128 := Nat.lt_of_le_of_lt hsmall.2 (by decide)
  have hall : ∀ n < 128, 'a' ≤ Char.ofNat n ∧ Char.ofNat n ≤ 'z' →
      (Char.ofNat (n - 32)).isUpper = true ∧
        Char.ofNat n = Char.ofNat ((Char.ofNat (n - 32)).toNat + 32) := by
    decide +kernel
  have hletter := hall c.toNat hlt
  rw [Char.ofNat_toNat] at hletter
  refine ⟨_, upper_of_lt hlt, ?_⟩
  rw [if_pos hsmall]
  exact hletter hsmall

theorem exists_capital {word : List Char} (h : isSmall word) :
    ∃ u cs, capitalise word = u :: cs ∧ u.isUpper = true ∧ (∀ x ∈ cs, x.isUpper = false) ∧
      word = Char.ofNat (u.toNat + 32) :: cs := by
  cases word with
  | nil => cases h
  | cons c cs =>
      simp only [isSmall, Bool.and_eq_true, List.all_eq_true, Bool.not_eq_true'] at h
      obtain ⟨u, hu, hupper, hback⟩ := exists_upper_of_isLower h.1
      refine ⟨u, cs, ?_, hupper, h.2, by rw [← hback]⟩
      rw [capitalise, hu]
      rfl

theorem isUpper_head {ws : List (List Char)} (h : ∀ w ∈ ws, isSmall w) :
    ∀ x ∈ (ws.flatMap capitalise).head?, x.isUpper = true := by
  cases ws with
  | nil => exact fun x hx => nomatch hx
  | cons w ws =>
      obtain ⟨u, cs, hcap, hupper, -⟩ := exists_capital (h w List.mem_cons_self)
      intro x hx
      rw [List.flatMap_cons, hcap] at hx
      obtain rfl := Option.some.inj hx
      exact hupper

/-- Capitals show where small words begin. -/
theorem eq_of_flatMap_capitalise {ws vs : List (List Char)} (hw : ∀ w ∈ ws, isSmall w)
    (hv : ∀ v ∈ vs, isSmall v) (h : ws.flatMap capitalise = vs.flatMap capitalise) : ws = vs := by
  induction ws generalizing vs with
  | nil =>
      cases vs with
      | nil => rfl
      | cons v vs =>
          obtain ⟨u, cs, hcap, -⟩ := exists_capital (hv v List.mem_cons_self)
          rw [List.flatMap_cons, hcap] at h
          cases h
  | cons w ws ih =>
      obtain ⟨u, cs, hcap, -, hcs, rfl⟩ := exists_capital (hw w List.mem_cons_self)
      cases vs with
      | nil =>
          rw [List.flatMap_cons, hcap] at h
          cases h
      | cons v vs =>
          obtain ⟨u', cs', hcap', -, hcs', rfl⟩ := exists_capital (hv v List.mem_cons_self)
          rw [List.forall_mem_cons] at hw hv
          rw [List.flatMap_cons, List.flatMap_cons, hcap, hcap'] at h
          obtain ⟨rfl, htail⟩ := List.cons.inj h
          obtain ⟨rfl, hrest⟩ :=
            NormalForm.append_inj_of_run hcs hcs' (isUpper_head hw.2) (isUpper_head hv.2) htail
          rw [ih hw.2 hv.2 hrest]

theorem IsKebab.eq_of_joined {a b : String} (ha : IsKebab a) (hb : IsKebab b)
    (h : joined a = joined b) : a = b := by
  rw [← String.toList_inj, ← ha.1, ← hb.1, eq_of_flatMap_capitalise ha.2 hb.2 h]

/-- The types that a document declares, one for each permit. -/
def typeNames (d : Document) : List String := d.permits.map fun e => permitTypeName e.1

def declarationHead (type : String) : String := "export type " ++ type ++ " = \x7b"

/-- A text of one declaration for each permit, in the order of the document. -/
def Declares (options : Options) (d : Document) (text : String) : Prop :=
  ∃ blocks : List (List String), text = joinBlocks (blocks.map joinLines) ∧
    List.Forall₂ (fun e block => ∃ lines, permitLines options e.2 = .ok lines ∧
      block = declarationHead (permitTypeName e.1) :: indent lines ++ ["\x7d"]) d.permits blocks

section Document

variable {options : Options} {d : Document} {source text : String}

theorem forall₂_permitBodies {permits : List (String × Permit)}
    {bodies : List (String × List String)} (h : permitBodies options permits = .ok bodies) :
    List.Forall₂ (fun e block => ∃ lines, permitLines options e.2 = .ok lines ∧
      block = declarationHead (permitTypeName e.1) :: indent lines ++ ["\x7d"]) permits
      (bodies.map fun b => declarationLines b.1 b.2) := by
  induction permits generalizing bodies with
  | nil =>
      obtain rfl := Except.ok.inj h
      exact .nil
  | cons e permits ih =>
      obtain ⟨lines, others, hlines, hothers, rfl⟩ := permitBodies_cons_eq_ok h
      exact .cons ⟨lines, hlines, rfl⟩ (ih hothers)

theorem declares_of_documentText (h : documentText options d = .ok text) :
    Declares options d text := by
  rw [documentText] at h
  obtain ⟨bodies, hbodies, htext⟩ := bind_eq_ok_iff.1 h
  have hblocks := forall₂_permitBodies hbodies
  refine ⟨_, ?_, hblocks⟩
  rw [← Except.ok.inj htext, List.map_map]
  rfl

theorem nodup_typeNames :
    (typeNames d).Nodup ↔ d.permits.Pairwise fun a b => joined a.1 ≠ joined b.1 := by
  simp only [typeNames, List.Nodup, List.pairwise_map, ne_eq, permitTypeName_eq_iff]

theorem nodup_names_of_parse (h : Document.parse source = .ok d) :
    (Entries.names d.permits).Nodup := by
  obtain ⟨t, -, ht⟩ := means_of_parse h
  obtain ⟨hdistinct, -, -⟩ := Meaning.document_held (by decide) ht
  exact hdistinct.1

/-- A document declares one type for each permit, and these are distinct if no two names are joined
to the same, as is the case where all names are in kebab case. -/
theorem typeNames_nodup_iff (hparse : Document.parse source = .ok d)
    (htext : documentText options d = .ok text) :
    Declares options d text ∧
      ((typeNames d).Nodup ↔ d.permits.Pairwise fun a b => joined a.1 ≠ joined b.1) ∧
      ((∀ e ∈ d.permits, IsKebab e.1) → (typeNames d).Nodup) := by
  refine ⟨declares_of_documentText htext, nodup_typeNames, fun hkebab => ?_⟩
  have hnames : d.permits.Pairwise fun a b => a.1 ≠ b.1 :=
    List.pairwise_map.1 (nodup_names_of_parse hparse)
  rw [nodup_typeNames]
  apply hnames.imp_of_mem
  intro a b ha hb hne hjoined
  exact hne ((hkebab a ha).eq_of_joined (hkebab b hb) hjoined)

end Document

/-- The names differ in a dash only. -/
def neighbours : Document := { permits := [("user-profile", {}), ("userprofile", {})] }

theorem neighbours_stay_apart :
    let source := "\x7b\"permit\":\x7b\"user-profile\":\x7b\x7d,\"userprofile\":\x7b\x7d\x7d\x7d"
    let text := "export type UserProfileMutatePermitType = \x7b\n\x7d\n\n" ++
      "export type UserprofileMutatePermitType = \x7b\n\x7d\n"
    Document.parse source = .ok neighbours ∧ documentText {} neighbours = .ok text ∧
      (∀ e ∈ neighbours.permits, IsKebab e.1) ∧ (typeNames neighbours).Nodup := by
  intro source text
  have hparse : Document.parse source = .ok neighbours := eq_ok_of_toOption (by decide +kernel)
  have htext : documentText {} neighbours = .ok text := eq_ok_of_toOption (by decide +kernel)
  have hkebab : ∀ e ∈ neighbours.permits, IsKebab e.1 := by decide +kernel
  exact ⟨hparse, htext, hkebab, (typeNames_nodup_iff hparse htext).2.2 hkebab⟩

/-- One name joins its words with a dash, the other one with a capital. -/
def doubles : Document := { permits := [("user-profile", {}), ("userProfile", {})] }

theorem doubles_declare_one_type :
    let source := "\x7b\"permit\":\x7b\"user-profile\":\x7b\x7d,\"userProfile\":\x7b\x7d\x7d\x7d"
    let block := "export type UserProfileMutatePermitType = \x7b\n\x7d\n"
    Document.parse source = .ok doubles ∧
      documentText {} doubles = .ok (block ++ "\n" ++ block) ∧ ¬ (typeNames doubles).Nodup := by
  refine ⟨eq_ok_of_toOption ?_, eq_ok_of_toOption ?_, ?_⟩
  · decide +kernel
  · decide +kernel
  · decide +kernel

end PermitTypes.Emit
