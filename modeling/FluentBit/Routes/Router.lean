import FluentBit.Foundation.CString
import FluentBit.Foundation.Wildcard

/-! `flb_router_match` without a regular expression. A pointer into a string is
the text from it to the zero byte. -/

set_option autoImplicit false

namespace FluentBit.Router

open List Nat

def star : UInt8 := 0x2a

def strchr (text : Bytes) (letter : UInt8) : Option Bytes :=
  match text with
  | [] => none
  | first :: rest => if first = letter then some (first :: rest) else strchr rest letter

variable {text found : Bytes} {letter : UInt8}

theorem strchr_length (searched : strchr text letter = some found) : (found.drop 1).length < text.length := by
  induction text with
  | nil => cases searched
  | cons first rest ih =>
    unfold strchr at searched
    split at searched
    · cases searched
      exact lt_succ_self _
    · exact lt_succ_of_lt (ih searched)

def search (accepts : Bytes → Bool) (letter : UInt8) (tag : Bytes) : Bool :=
  match _searched : strchr tag letter with
  | none => false
  | some pos => if accepts pos then true else search accepts letter (pos.drop 1)
termination_by tag.length
decreasing_by exact strchr_length _searched

def routerMatch (tag pattern : Bytes) : Bool :=
  match pattern with
  | [] => tag.isEmpty
  | letter :: pattern =>
    if letter = star then
      match _skipped : pattern.dropWhile (· = star) with
      | [] => true
      | next :: rest => search (fun pos => routerMatch pos (next :: rest)) next tag
    else
      match tag with
      | [] => false
      | first :: tag => if first ≠ letter then false else routerMatch tag pattern
termination_by pattern.length
decreasing_by
  · have shorter := (dropWhile_sublist (fun byte => decide (byte = star)) (l := pattern)).length_le
    rw [_skipped] at shorter
    exact lt_succ_of_le shorter
  · exact lt_succ_self _

/-- `flb_router_match`: a tag that no zero byte ends is copied. -/
def flbRouterMatch (allocated : Bool) (tag : Bytes) (tagLen : Nat) (pattern : Bytes) : Bool :=
  if tag[tagLen]? ≠ some 0 then
    if !allocated then false
    else routerMatch (CString.text (tag.take tagLen ++ [0])) (CString.text pattern)
  else routerMatch (CString.text tag) (CString.text pattern)

theorem strchr_none (searched : strchr text letter = none) : letter ∉ text := by
  induction text with
  | nil => exact not_mem_nil
  | cons first rest ih =>
    unfold strchr at searched
    split at searched
    · cases searched
    · next other =>
      intro member
      cases mem_cons.mp member with
      | inl same => exact other same.symm
      | inr later => exact ih searched later

theorem strchr_some (searched : strchr text letter = some found) : ∃ rest, found = letter :: rest ∧ found <:+ text ∧
      ∀ other, letter :: other <:+ text → letter :: other = found ∨ letter :: other <:+ rest := by
  induction text with
  | nil => cases searched
  | cons first text ih =>
    unfold strchr at searched
    split at searched
    · next same =>
      cases searched
      subst same
      exact ⟨text, rfl, suffix_rfl, fun other ends => suffix_cons_iff.mp ends⟩
    · next other =>
      obtain ⟨rest, shape, inside, longest⟩ := ih searched
      refine ⟨rest, shape, inside.trans (suffix_cons first text), fun later ends => ?_⟩
      cases suffix_cons_iff.mp ends with
      | inl whole =>
        cases whole
        exact absurd rfl other
      | inr inner => exact longest later inner

theorem search_iff (accepts : Bytes → Bool) (tag : Bytes) :
    search accepts letter tag = true ↔ ∃ rest, letter :: rest <:+ tag ∧ accepts (letter :: rest) = true := by
  fun_induction search accepts letter tag with
  | case1 tag searched =>
    constructor
    · intro found
      cases found
    · intro found
      obtain ⟨rest, ends, -⟩ := found
      exact absurd (ends.subset mem_cons_self) (strchr_none searched)
  | case2 tag pos searched accepted =>
    obtain ⟨rest, rfl, ends, -⟩ := strchr_some searched
    exact iff_of_true rfl ⟨rest, ends, accepted⟩
  | case3 tag pos searched refused ih =>
    obtain ⟨rest, rfl, ends, longest⟩ := strchr_some searched
    rw [ih, drop_one, tail_cons]
    constructor
    · intro found
      obtain ⟨other, inside, accepted⟩ := found
      exact ⟨other, inside.trans ((suffix_cons letter rest).trans ends), accepted⟩
    · intro found
      obtain ⟨other, inside, accepted⟩ := found
      cases longest other inside with
      | inl same =>
        rw [same] at accepted
        exact absurd accepted refused
      | inr later => exact ⟨other, later, accepted⟩

theorem routerMatch_iff (tag pattern : Bytes) :
    routerMatch tag pattern = true ↔ tag ∈ Wildcard.language star pattern := by
  fun_induction routerMatch tag pattern with
  | case1 tag =>
    rw [Wildcard.mem_language_nil]
    exact List.isEmpty_iff
  | case2 tag pattern skipped =>
    rw [Wildcard.mem_language_run, skipped]
    exact iff_of_true rfl Wildcard.mem_language_last
  | case3 tag pattern next rest skipped ih =>
    have plain : next ≠ star := by
      have stop := List.head?_dropWhile_not (fun byte => decide (byte = star)) pattern
      rw [skipped] at stop
      simpa using stop
    rw [search_iff, Wildcard.mem_language_run, skipped, Wildcard.mem_language_star]
    constructor
    · intro found
      obtain ⟨later, ends, accepted⟩ := found
      exact ⟨next :: later, ends, (ih _).mp accepted⟩
    · intro found
      obtain ⟨later, ends, member⟩ := found
      obtain ⟨other, rfl, -⟩ := (Wildcard.mem_language_letter plain).mp member
      exact ⟨other, ends, (ih _).mpr member⟩
  | case4 letter pattern plain =>
    rw [Wildcard.mem_language_letter plain]
    constructor
    · intro wrong
      cases wrong
    · intro found
      obtain ⟨rest, shape, -⟩ := found
      cases shape
  | case5 letter pattern plain first tag other =>
    rw [Wildcard.mem_language_letter plain]
    constructor
    · intro wrong
      cases wrong
    · intro found
      obtain ⟨rest, shape, -⟩ := found
      cases shape
      exact absurd rfl other
  | case6 letter pattern plain first tag same ih =>
    cases not_not.mp same
    rw [Wildcard.mem_language_letter plain, ih]
    constructor
    · intro member
      exact ⟨tag, rfl, member⟩
    · intro found
      obtain ⟨rest, shape, member⟩ := found
      cases shape
      exact member

theorem text_terminated (absent : 0 ∉ text) (after : Bytes) : CString.text (text ++ 0 :: after) = text := by
  unfold CString.text
  rw [takeWhile_append_of_pos, takeWhile_cons_of_neg (by decide), append_nil]
  intro byte member
  simp only [ne_eq, decide_eq_true_eq]
  rintro rfl
  exact absent member

theorem getElem?_after (tag : Bytes) (next : UInt8) (after : Bytes) :
    (tag ++ next :: after)[tag.length]? = some next := by
  rw [List.getElem?_append_right (Nat.le_refl _), Nat.sub_self]
  rfl

/-- A tag of a given length is matched as a whole, whatever bytes come after it;
only a copy that cannot be allocated makes a match fail. -/
theorem flbRouterMatch_iff (tag pattern : Bytes) (next : UInt8) (afterTag afterPattern : Bytes)
    (tagText : 0 ∉ tag) (patternText : 0 ∉ pattern) :
    (flbRouterMatch true (tag ++ next :: afterTag) tag.length (pattern ++ 0 :: afterPattern) = true ↔
      tag ∈ Wildcard.language star pattern) ∧
    (flbRouterMatch false (tag ++ next :: afterTag) tag.length (pattern ++ 0 :: afterPattern) = true ↔
      next = 0 ∧ tag ∈ Wildcard.language star pattern) := by
  unfold flbRouterMatch
  rw [getElem?_after, text_terminated patternText, take_left, text_terminated tagText]
  by_cases ended : next = 0
  · subst ended
    simp [text_terminated tagText, routerMatch_iff]
  · have other : some next ≠ some (0 : UInt8) := fun same => ended (Option.some.inj same)
    simp [other, ended, routerMatch_iff]

/-- A tag inside a longer text, and a star that has to take part of what looks like the end. -/
theorem flbRouterMatch_sample : (0 : UInt8) ∉ [0x61, 0x62, 0x61, 0x62] ∧ (0 : UInt8) ∉ [0x2a, 0x61, 0x62] ∧
    flbRouterMatch true [0x61, 0x62, 0x61, 0x62, 0x58] 4 [0x2a, 0x61, 0x62, 0] = true := by
  refine ⟨by decide, by decide, ?_⟩
  refine (flbRouterMatch_iff [0x61, 0x62, 0x61, 0x62] [0x2a, 0x61, 0x62] 0x58 [] [] (by decide) (by decide)).1.mpr ?_
  have last : ([] : Bytes) ∈ Wildcard.language star [] := Wildcard.mem_language_nil.mpr rfl
  have second := (Wildcard.mem_language_letter (show (0x62 : UInt8) ≠ star by decide)).mpr ⟨[], rfl, last⟩
  have first := (Wildcard.mem_language_letter (show (0x61 : UInt8) ≠ star by decide)).mpr ⟨[0x62], rfl, second⟩
  exact Wildcard.mem_language_star.mpr ⟨[0x61, 0x62], ⟨[0x61, 0x62], rfl⟩, first⟩

end FluentBit.Router
