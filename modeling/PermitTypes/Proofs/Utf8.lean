import Mathlib.Data.List.Forall2
import PermitTypes.Name

namespace PermitTypes

namespace Text.Utf8

/-- They are what is due. -/
def Fits (due : Due) (bytes : List UInt8) : Prop :=
  List.Forall₂ (fun range b => range.1 ≤ b.toNat ∧ b.toNat ≤ range.2) due bytes

/-- The value with the digits of more bytes behind it. -/
def digits (value : Nat) (bytes : List UInt8) : Nat :=
  bytes.foldl (fun v b => v * 64 + (b.toNat - 0x80)) value

theorem digits_cons (value : Nat) (b : UInt8) (bytes : List UInt8) :
    digits value (b :: bytes) = digits (value * 64 + (b.toNat - 0x80)) bytes := by
  rw [digits, List.foldl_cons, digits]

theorem step_of_fits {s : State} {range : Nat × Nat} {due : Due} (hs : s.due = range :: due)
    {b : UInt8} (hb : range.1 ≤ b.toNat ∧ b.toNat ≤ range.2) :
    s.step b =
      if due.isEmpty then ([.char (.ofNat (s.value * 64 + (b.toNat - 0x80)))], {})
      else ([], ⟨s.seen ++ [b], s.value * 64 + (b.toNat - 0x80), due⟩) := by
  rw [State.step, hs]
  exact if_pos (by simpa using hb)

theorem parts_of_fits {s : State} {bytes : List UInt8} (hne : s.due ≠ [])
    (h : Fits s.due bytes) (rest : List UInt8) :
    s.parts (bytes ++ rest) =
      .char (.ofNat (digits s.value bytes)) :: ({} : State).parts rest := by
  induction bytes generalizing s with
  | nil => exact absurd (List.forall₂_nil_right_iff.1 h) hne
  | cons b bytes ih =>
      obtain ⟨range, due, hb, htail, hdue⟩ := List.forall₂_cons_right_iff.1 h
      rw [List.cons_append, State.parts, step_of_fits hdue hb, digits_cons]
      cases due with
      | nil =>
          rw [List.forall₂_nil_left_iff.1 htail]
          rfl
      | cons next due => exact ih (List.cons_ne_nil next due) htail

theorem exists_lead_three {b : UInt8} {v : Nat} (hb : b.toNat = v / 4096 + 0xE0)
    (hlow : 0x800 ≤ v) (hhigh : v < 0x10000) (hscalar : v < 0xD800 ∨ 0xDFFF < v) :
    ∃ low high, lead? b = some (v / 4096, [(low, high), later]) ∧ low ≤ v / 64 % 64 + 0x80 ∧
      v / 64 % 64 + 0x80 ≤ high := by
  by_cases hfirst : v / 4096 = 0
  · exact ⟨0xA0, 0xBF, by grind [lead?], by omega, by omega⟩
  by_cases hlast : v / 4096 = 13
  · exact ⟨0x80, 0x9F, by grind [lead?], by omega, by omega⟩
  · exact ⟨0x80, 0xBF, by grind [lead?, later], by omega, by omega⟩

theorem exists_lead_four {b : UInt8} {v : Nat} (hb : b.toNat = v / 262144 + 0xF0)
    (hlow : 0x10000 ≤ v) (hhigh : v < 0x110000) :
    ∃ low high, lead? b = some (v / 262144, [(low, high), later, later]) ∧
      low ≤ v / 4096 % 64 + 0x80 ∧ v / 4096 % 64 + 0x80 ≤ high := by
  by_cases hfirst : v / 262144 = 0
  · exact ⟨0x90, 0xBF, by grind [lead?], by omega, by omega⟩
  by_cases hlast : v / 262144 = 4
  · exact ⟨0x80, 0x8F, by grind [lead?], by omega, by omega⟩
  · exact ⟨0x80, 0xBF, by grind [lead?, later], by omega, by omega⟩

/-- The first byte of a character says what is due, and the others are that. -/
structure Encodes (v : Nat) (first : UInt8) (more : List UInt8) (value : Nat) (due : Due) :
    Prop where
  lead : lead? first = some (value, due)
  fits : Fits due more
  digits : digits value more = v

theorem exists_encodes (c : Char) :
    ∃ first more value due, String.utf8EncodeChar c = first :: more ∧
      Encodes c.val.toNat first more value due := by
  have hscalar := c.valid
  rw [UInt32.isValidChar, Nat.isValidChar] at hscalar
  rw [String.utf8EncodeChar]
  generalize c.val.toNat = v at hscalar ⊢
  have hbyte {n : Nat} (hn : n < 256) : (UInt8.ofNat n).toNat = n := UInt8.toNat_ofNat_of_lt' hn
  have hmore (n : Nat) : (UInt8.ofNat (n % 64 + 128)).toNat = n % 64 + 128 := hbyte (by omega)
  have hbetween {low high n : Nat} (hlow : low ≤ n % 64 + 128) (hhigh : n % 64 + 128 ≤ high) :
      low ≤ (UInt8.ofNat (n % 64 + 128)).toNat ∧ (UInt8.ofNat (n % 64 + 128)).toNat ≤ high := by
    rw [hmore]
    exact ⟨hlow, hhigh⟩
  have hlater (n : Nat) : later.1 ≤ (UInt8.ofNat (n % 64 + 128)).toNat ∧
      (UInt8.ofNat (n % 64 + 128)).toNat ≤ later.2 :=
    hbetween (by rw [later]; omega) (by rw [later]; omega)
  by_cases hone : v ≤ 0x7F
  · have hfirst : (UInt8.ofNat v).toNat = v := hbyte (by omega)
    rw [if_pos hone]
    exact ⟨_, [], v, [], rfl, by grind [lead?], .nil, rfl⟩
  by_cases htwo : v ≤ 0x7FF
  · have hfirst : (UInt8.ofNat (v / 64 % 32 + 192)).toNat = v / 64 + 192 := by
      rw [hbyte (by omega)]
      omega
    rw [if_neg hone, if_pos htwo]
    refine ⟨_, [_], v / 64, [later], rfl, by grind [lead?], .cons (hlater v) .nil, ?_⟩
    rw [digits_cons, hmore, digits, List.foldl_nil]
    omega
  by_cases hthree : v ≤ 0xFFFF
  · have hfirst : (UInt8.ofNat (v / 4096 % 16 + 224)).toNat = v / 4096 + 224 := by
      rw [hbyte (by omega)]
      omega
    obtain ⟨low, high, hlead, hlow, hhigh⟩ := exists_lead_three hfirst (by omega) (by omega)
      (by omega)
    rw [if_neg hone, if_neg htwo, if_pos hthree]
    refine ⟨_, [_, _], v / 4096, _, rfl, hlead,
      .cons (hbetween hlow hhigh) (.cons (hlater v) .nil), ?_⟩
    rw [digits_cons, digits_cons, hmore, hmore, digits, List.foldl_nil]
    omega
  · have hfirst : (UInt8.ofNat (v / 262144 % 8 + 240)).toNat = v / 262144 + 240 := by
      rw [hbyte (by omega)]
      omega
    obtain ⟨low, high, hlead, hlow, hhigh⟩ := exists_lead_four hfirst (by omega) (by omega)
    rw [if_neg hone, if_neg htwo, if_neg hthree]
    refine ⟨_, [_, _, _], v / 262144, _, rfl, hlead,
      .cons (hbetween hlow hhigh) (.cons (hlater _) (.cons (hlater v) .nil)), ?_⟩
    rw [digits_cons, digits_cons, digits_cons, hmore, hmore, hmore, digits, List.foldl_nil]
    omega

theorem parts_char (c : Char) (rest : List UInt8) :
    parts (String.utf8EncodeChar c ++ rest) = .char c :: parts rest := by
  obtain ⟨b, more, value, due, hbytes, hencodes⟩ := exists_encodes c
  have hchar : Char.ofNat (digits value more) = c := by
    rw [hencodes.digits]
    exact Char.ofNat_toNat c
  rw [hbytes, parts, List.cons_append, State.parts, State.step]
  dsimp only
  rw [first, hencodes.lead]
  cases due with
  | nil =>
      rw [List.forall₂_nil_left_iff.1 hencodes.fits] at hchar ⊢
      exact congrArg (Part.char · :: _) hchar
  | cons range due =>
      rw [← hchar]
      exact parts_of_fits (s := ⟨[b], value, _⟩) (List.cons_ne_nil range due) hencodes.fits rest

/-- Nothing of a text is broken. -/
theorem parts_text (text : String) : parts text.toUTF8.data.toList = text.toList.map .char := by
  have hbytes : text.toUTF8.data.toList = text.toList.flatMap String.utf8EncodeChar := by
    rw [String.toUTF8, ← String.utf8Encode_toList, List.utf8Encode, List.data_toByteArray]
  rw [hbytes]
  induction text.toList with
  | nil => rfl
  | cons c cs ih => rw [List.flatMap_cons, parts_char, ih, List.map_cons]

example : (parts [0x6F, 0xF0, 0x90, 0x80, 0x57]).map (·.shown) = ['o', '\uFFFD', 'W'] := by decide

end Text.Utf8

namespace Name

theorem shown_text (value : String) : (text value).shown = value := by
  rw [shown, parts, bytes, Text.Utf8.parts_text, List.map_map]
  exact (congrArg String.ofList (List.map_id value.toList)).trans String.ofList_toList

end Name

end PermitTypes
