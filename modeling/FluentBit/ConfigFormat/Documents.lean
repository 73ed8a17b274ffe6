import FluentBit.ConfigFormat.Classic
import Mathlib.Data.List.Find

/-! Configurations as they are meant, how they are written, and what reading them should give. -/

set_option autoImplicit false

namespace FluentBit.ConfigFormat

open Ascii

/-! ### What is written -/

structure Name where
  text : Text
  nonempty : text ≠ []
  noBracket : closeBracket ∉ text
  noZero : 0 ∉ text

structure Key where
  text : Text
  nonempty : text ≠ []
  solid : ∀ byte ∈ text, isSpace byte = false
  noComment : text.head? ≠ some hash
  noGroup : text.head? ≠ some openBracket
  noZero : 0 ∉ text

structure Value where
  text : Text
  nonempty : text ≠ []
  trimmedLeft : ∀ byte, text.head? = some byte → isSpace byte = false
  trimmedRight : ∀ byte, text.getLast? = some byte → isSpace byte = false
  oneLine : newline ∉ text
  noZero : 0 ∉ text

structure Indent where
  text : Text
  nonempty : text ≠ []
  blank : ∀ byte ∈ text, isblank byte = true

structure DocGroup where
  name : Name
  pairs : List (Key × Value)

structure DocSection where
  name : Name
  pairs : List (Key × Value)
  groups : List DocGroup

def header (name : Name) : Text := openBracket :: name.text ++ [closeBracket]

def pairText (pair : Key × Value) : Text := pair.1.text ++ space :: pair.2.text

def DocGroup.lines (indent : Indent) (group : DocGroup) : List Text :=
  (indent.text ++ header group.name) :: group.pairs.map fun pair => indent.text ++ indent.text ++ pairText pair

def DocSection.lines (indent : Indent) (doc : DocSection) : List Text :=
  header doc.name :: (doc.pairs.map fun pair => indent.text ++ pairText pair) ++ doc.groups.flatMap (·.lines indent)

/-- Empty lines and lines with `#` as their first byte -/
def isFiller (line : Text) : Bool := line = [] || line.head? = some hash

structure Writes (indent : Indent) (docs : List DocSection) (lines : List Text) : Prop where
  content : lines.filter (!isFiller ·) = docs.flatMap (·.lines indent)
  fillers : ∀ line ∈ lines, isFiller line = true → newline ∉ line ∧ 0 ∉ line

def fileOf (lines : List Text) : Bytes := lines.flatMap (· ++ [newline])

/-! ### What should be read -/

def keywordType (name : Text) : SectionType :=
  match keywords.find? fun keyword => name.map tolower == keyword.1 with
  | some keyword => keyword.2
  | none => .other

def readPair (pair : Key × Value) : Text × Text := (pair.1.text.map tolower, pair.2.text)

def DocGroup.read (group : DocGroup) : Group where
  name := group.name.text
  properties := group.pairs.map readPair

def DocSection.read (typeOf : Text → SectionType) (doc : DocSection) : Section where
  type := typeOf doc.name.text
  name := doc.name.text
  properties := doc.pairs.map readPair
  groups := doc.groups.map (·.read)

def Section.extend (s more : Section) : Section :=
  { s with properties := s.properties ++ more.properties, groups := s.groups ++ more.groups }

def mergeServices : List Section → List Section
  | [] => []
  | s :: rest =>
    if s.type = .service then
      (rest.filter (·.type = .service)).foldl Section.extend s :: rest.filter (·.type ≠ .service)
    else s :: mergeServices rest

def meant (docs : List DocSection) : List Section := mergeServices (docs.map (·.read keywordType))

def Abbreviates (name : Text) : Prop :=
  (∃ keyword ∈ keywords, name.map tolower <+: keyword.1) ∧ ∀ keyword ∈ keywords, name.map tolower ≠ keyword.1

structure Plain (doc : DocSection) : Prop where
  whole : ¬Abbreviates doc.name.text
  oneLine : newline ∉ doc.name.text
  groupOneLine : ∀ group ∈ doc.groups, newline ∉ group.name.text
  groupBlank : ∀ group ∈ doc.groups, space ∈ group.name.text

/-! The type a section gets by a comparison of as many bytes as its name has, and the type whose keyword
the whole name is. -/

open List CString
open Http (strncasecmp)

theorem tolower_ne_zero {byte : UInt8} (different : byte ≠ 0) : tolower byte ≠ 0 := by
  unfold tolower
  split
  next upper =>
    simp only [Bool.and_eq_true, decide_eq_true_eq] at upper
    obtain ⟨least, most⟩ := upper
    intro zero
    have overflow := congrArg UInt8.toNat zero
    rw [UInt8.le_iff_toNat_le] at least most
    simp only [UInt8.toNat_add, UInt8.reduceToNat] at overflow least most
    omega
  · exact different

variable {name : Text}

theorem zero_not_mem_lower (noZero : 0 ∉ name) : 0 ∉ name.map tolower := by
  intro member
  obtain ⟨byte, inside, zero⟩ := mem_map.mp member
  have byteZero : byte = 0 := by
    by_contra different
    exact tolower_ne_zero different zero
  exact noZero (byteZero ▸ inside)

theorem lower_keywords : ∀ keyword ∈ keywords, keyword.1.map tolower = keyword.1 ∧ 0 ∉ keyword.1 := by
  decide

theorem strncasecmp_name_iff (noZero : 0 ∉ name) (rest : Text) {keyword : Text × SectionType}
    (known : keyword ∈ keywords) :
    strncasecmp (name ++ rest) keyword.1 name.length = .eq ↔ name.map tolower <+: keyword.1 := by
  obtain ⟨lower, kept⟩ := lower_keywords keyword known
  have front : (CString.text ((name ++ rest).map tolower)).take name.length = name.map tolower := by
    rw [map_append, text_append (zero_not_mem_lower noZero)]
    exact take_left' (length_map _)
  unfold strncasecmp strncmp
  rw [front, lower, text_eq_self kept, compareBytes_eq_iff, prefix_iff_eq_take, length_map]

theorem getSectionType_eq (noZero : 0 ∉ name) (rest : Text) : getSectionType (name ++ rest) name.length =
      ((keywords.find? fun keyword => (name.map tolower).isPrefixOf keyword.1).map (·.2)).getD .other := by
  have same : ∀ keyword ∈ keywords,
      (strncasecmp (name ++ rest) keyword.1 name.length == .eq) = (name.map tolower).isPrefixOf keyword.1 := by
    intro keyword known
    rw [Bool.eq_iff_iff, beq_iff_eq, strncasecmp_name_iff noZero rest known, isPrefixOf_iff_prefix]
  unfold getSectionType
  rw [List.find?_congr same]
  cases keywords.find? fun keyword => (name.map tolower).isPrefixOf keyword.1 with
  | none => rfl
  | some keyword => rfl

theorem keywordType_eq :
    keywordType name = ((keywords.find? fun keyword => name.map tolower == keyword.1).map (·.2)).getD .other := by
  unfold keywordType
  cases keywords.find? fun keyword => name.map tolower == keyword.1 with
  | none => rfl
  | some keyword => rfl

theorem keyword_types : ∀ keyword ∈ keywords,
    keywords.find? (fun other => keyword.1.isPrefixOf other.1) = some keyword ∧
      keywords.find? (fun other => keyword.1 == other.1) = some keyword := by
  decide

theorem keyword_known : ∀ keyword ∈ keywords, keyword.2 ≠ .other := by
  decide

theorem getSectionType_whole (noZero : 0 ∉ name) (whole : ¬Abbreviates name) (rest : Text) :
    getSectionType (name ++ rest) name.length = keywordType name := by
  rw [getSectionType_eq noZero, keywordType_eq]
  by_cases known : ∃ keyword ∈ keywords, name.map tolower = keyword.1
  · obtain ⟨keyword, member, same⟩ := known
    rw [same, (keyword_types keyword member).1, (keyword_types keyword member).2]
  · push Not at known
    have noBeginning : ∀ keyword ∈ keywords, ¬(name.map tolower).isPrefixOf keyword.1 = true := by
      intro keyword member begins
      exact whole ⟨⟨keyword, member, isPrefixOf_iff_prefix.mp begins⟩, known⟩
    rw [List.find?_eq_none.mpr noBeginning, List.find?_eq_none.mpr]
    intro keyword member equal
    exact known keyword member (beq_iff_eq.mp equal)

theorem getSectionType_abbreviated (noZero : 0 ∉ name) (short : Abbreviates name) (rest : Text) :
    getSectionType (name ++ rest) name.length ≠ .other ∧ keywordType name = .other := by
  obtain ⟨⟨keyword, member, begins⟩, noKeyword⟩ := short
  constructor
  · rw [getSectionType_eq noZero]
    have found : (keywords.find? fun keyword => (name.map tolower).isPrefixOf keyword.1).isSome := by
      rw [List.find?_isSome]
      exact ⟨keyword, member, isPrefixOf_iff_prefix.mpr begins⟩
    obtain ⟨first, first_eq⟩ := Option.isSome_iff_exists.mp found
    rw [first_eq]
    exact keyword_known first (mem_of_find?_eq_some first_eq)
  · rw [keywordType_eq, List.find?_eq_none.mpr]
    · rfl
    · intro other known equal
      exact noKeyword other known (beq_iff_eq.mp equal)

theorem getSectionType_eq_iff (noZero : 0 ∉ name) (rest : Text) :
    getSectionType (name ++ rest) name.length = keywordType name ↔ ¬Abbreviates name := by
  constructor
  · intro same short
    obtain ⟨known, unknown⟩ := getSectionType_abbreviated noZero short rest
    exact known (same.trans unknown)
  · intro whole
    exact getSectionType_whole noZero whole rest

/-! Sections are put together one by one, and the SERVICE sections end up in one. -/

open Bool

def isService (s : Section) : Bool := s.type = .service

def Cf.addSection (cf : Cf) (s : Section) : Cf :=
  match s.type, cf.service with
  | .service, some existing => cf.inSection existing (·.extend s)
  | _, _ =>
    { cf with
      service := if s.type = .service then some cf.sections.length else cf.service
      sections := cf.sections ++ [s] }

@[simp] theorem isService_extend (s more : Section) : isService (s.extend more) = isService s := rfl

theorem foldl_extend_type (s : Section) (more : List Section) : (more.foldl Section.extend s).type = s.type := by
  induction more generalizing s with
  | nil => rfl
  | cons first more ih => exact ih (s.extend first)

variable {secs : List Section} {s : Section}

theorem mergeServices_service {existing : Nat} (service : s.type = .service)
    (found : (mergeServices secs).findIdx? isService = some existing) :
    mergeServices (secs ++ [s]) = (mergeServices secs).modify existing (·.extend s) := by
  induction secs generalizing existing with
  | nil => cases found
  | cons first secs ih =>
    simp only [mergeServices, cons_append] at found ⊢
    by_cases firstService : first.type = .service
    · have head : isService ((secs.filter (·.type = .service)).foldl Section.extend first) = true := by
        unfold isService
        rw [foldl_extend_type, firstService]
        rfl
      rw [if_pos firstService, List.findIdx?_cons, head] at found
      cases found
      simp [firstService, service]
    · have head : isService first = false := by simp [isService, firstService]
      rw [if_neg firstService, List.findIdx?_cons, head] at found
      obtain ⟨later, later_eq, rfl⟩ := Option.map_eq_some_iff.mp found
      rw [if_neg firstService, if_neg firstService, ih later_eq]
      rfl

theorem mergeServices_other (other : s.type ≠ .service ∨ (mergeServices secs).findIdx? isService = none) :
    mergeServices (secs ++ [s]) = mergeServices secs ++ [s] := by
  induction secs with
  | nil =>
    simp only [mergeServices, nil_append]
    split <;> rfl
  | cons first secs ih =>
    simp only [mergeServices, cons_append] at other ⊢
    by_cases firstService : first.type = .service
    · have notService : s.type ≠ .service := by
        rcases other with notService | unknown
        · exact notService
        · have head : isService ((secs.filter (·.type = .service)).foldl Section.extend first) = true := by
            unfold isService
            rw [foldl_extend_type, firstService]
            rfl
          rw [if_pos firstService, List.findIdx?_cons, head] at unknown
          cases unknown
      simp [firstService, notService]
    · have head : isService first = false := by simp [isService, firstService]
      rw [if_neg firstService, if_neg firstService, ih]
      · rfl
      · apply other.imp_right
        intro unknown
        rw [if_neg firstService, List.findIdx?_cons, head] at unknown
        exact Option.map_eq_none_iff.mp unknown

structure Cf.Holds (cf : Cf) (secs : List Section) : Prop where
  sections : cf.sections = mergeServices secs
  service : cf.service = cf.sections.findIdx? isService

theorem findIdx?_modify_extend (all : List Section) (i : Nat) :
    (all.modify i (·.extend s)).findIdx? isService = all.findIdx? isService := by
  induction all generalizing i with
  | nil => simp
  | cons first all ih =>
    cases i with
    | zero => rw [modify_zero_cons, List.findIdx?_cons, List.findIdx?_cons, isService_extend]
    | succ i => simp [List.findIdx?_cons, ih]

theorem Cf.Holds.addSection {cf : Cf} (holds : cf.Holds secs) (s : Section) :
    (cf.addSection s).Holds (secs ++ [s]) := by
  obtain ⟨sections, service⟩ := holds
  by_cases kind : s.type = .service
  · cases known : cf.service with
    | some existing =>
      have found := service.symm.trans known
      have added : cf.addSection s = cf.inSection existing (·.extend s) := by
        unfold Cf.addSection
        simp [kind, known]
      rw [added]
      constructor
      · rw [sections] at found
        rw [mergeServices_service kind found, ← sections]
        rfl
      · exact service.trans (findIdx?_modify_extend cf.sections existing).symm
    | none =>
      have absent := service.symm.trans known
      have added : cf.addSection s =
          { cf with service := some cf.sections.length, sections := cf.sections ++ [s] } := by
        unfold Cf.addSection
        simp [kind, known]
      rw [added]
      constructor
      · rw [sections] at absent
        rw [mergeServices_other (.inr absent), ← sections]
      · have last : isService s = true := by simp [isService, kind]
        simp [absent, List.findIdx?_cons, last]
  · have added : cf.addSection s = { cf with sections := cf.sections ++ [s] } := by
      unfold Cf.addSection
      split
      next same _ => exact absurd same kind
      · rw [if_neg kind]
    rw [added]
    constructor
    · rw [mergeServices_other (.inl kind), ← sections]
    · have last : isService s = false := by simp [isService, kind]
      simp [List.findIdx?_cons, last, service]

theorem mergeServices_other_filter (all : List Section) :
    (mergeServices all).filter (·.type = .other) = all.filter (·.type = .other) := by
  induction all with
  | nil => rfl
  | cons first all ih =>
    unfold mergeServices
    split
    next service =>
      have folded := foldl_extend_type first (all.filter (·.type = .service))
      have known : ¬first.type = .other := by
        rw [service]
        decide
      simp only [filter_cons, folded, known, decide_false, false_eq_true, if_false, filter_filter]
      apply filter_congr
      intro later _
      by_cases other : later.type = .other
      · simp [other]
      · simp [other]
    · rw [filter_cons, filter_cons, ih]

theorem countP_agree {α : Type} {narrow wide : α → Bool} {all : List α} (weaker : ∀ item ∈ all, narrow item → wide item)
    (same : all.countP narrow = all.countP wide) : ∀ item ∈ all, wide item → narrow item := by
  induction all with
  | nil => simp
  | cons first all ih =>
    have laterWeaker : ∀ item ∈ all, narrow item → wide item := fun item member =>
      weaker item (mem_cons_of_mem _ member)
    have later := countP_mono_left laterWeaker
    have firstWeaker := weaker first (mem_cons_self ..)
    rw [countP_cons, countP_cons] at same
    have both : all.countP narrow = all.countP wide ∧ (wide first → narrow first) := by
      cases isNarrow : narrow first with
      | true =>
        rw [isNarrow, firstWeaker isNarrow] at same
        exact ⟨by simpa using same, fun _ => rfl⟩
      | false =>
        rw [isNarrow] at same
        cases isWide : wide first with
        | true =>
          rw [isWide] at same
          simp only [false_eq_true, if_false, if_true] at same
          omega
        | false =>
          rw [isWide] at same
          exact ⟨by simpa using same, fun impossible => impossible⟩
    intro item member
    rcases mem_cons.mp member with rfl | member
    · exact both.2
    · exact ih laterWeaker both.1 item member

end FluentBit.ConfigFormat
