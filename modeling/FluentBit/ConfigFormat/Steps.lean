import FluentBit.ConfigFormat.Lines

/-! What becomes of the lines of a file. -/

set_option autoImplicit false

namespace FluentBit.ConfigFormat

open List Option Ascii

variable (included : Cf → Text → Option Cf) {line : Text} {lines : List Text}

def readStep (r : Reader) (line : Text) : Option Reader :=
  (readLine included (chomp (line ++ [newline])) r).toOption

def lineStep (r : Reader) (line : Text) : Option Reader := if Fits line then readStep included r line else none

theorem lines_fit (r : Reader) (fit : ∀ line ∈ lines, Fits line) :
    lines.foldlM (lineStep included) r = lines.foldlM (readStep included) r := by
  induction lines generalizing r with
  | nil => rfl
  | cons line lines ih =>
    have later := fun next => ih next fun other member => fit other (mem_cons_of_mem _ member)
    have step : lineStep included r line = readStep included r line := if_pos (fit line (mem_cons_self ..))
    rw [foldlM_cons, foldlM_cons, step]
    exact bind_congr later

theorem lines_tooLong (r : Reader) (long : ∃ line ∈ lines, ¬Fits line) : lines.foldlM (lineStep included) r = none := by
  induction lines generalizing r with
  | nil => simp at long
  | cons line lines ih =>
    rw [foldlM_cons]
    by_cases fits : Fits line
    · have later : ∃ line ∈ lines, ¬Fits line := by
        obtain ⟨other, member, tooLong⟩ := long
        rcases mem_cons.mp member with rfl | member
        · exact absurd fits tooLong
        · exact ⟨other, member, tooLong⟩
      cases lineStep included r line with
      | none => rfl
      | some next => exact ih next later
    · have step : lineStep included r line = none := if_neg fits
      rw [step]
      rfl

theorem foldlM_withoutReturn (r : Reader) :
    (lines.map withoutReturn).foldlM (handle included) r = lines.foldlM (readStep included) r := by
  rw [foldlM_map]
  unfold readStep
  simp only [chomp_line]
  rfl

theorem create_eq (file : Bytes) : create included file =
    ((handledLines .start file).bind fun lines => lines.foldlM (handle included) (.start .create)).map (·.cf) := by
  rw [← readLoop_eq included 0]
  unfold create readConfig LineBuffer.start
  cases readLoop included 0 ⟨defaultBufSize, [], by decide⟩ (.start .create) file with
  | error error => rfl
  | ok r => rfl

theorem create_fileOf (clean : ∀ line ∈ lines, newline ∉ line ∧ 0 ∉ line) :
    create included (fileOf lines) = (lines.foldlM (lineStep included) (.start .create)).map (·.cf) := by
  rw [create_eq, ← append_nil (fileOf lines)]
  by_cases fit : ∀ line ∈ lines, Fits line
  · obtain ⟨next, _, _, _, run⟩ := handledLines_lines [] grown_start rfl clean fit
    rw [run, handledLines_nil, lines_fit included _ fit, ← foldlM_withoutReturn]
    simp
  · push Not at fit
    rw [handledLines_refused [] grown_start rfl clean fit, lines_tooLong included _ fit]
    rfl

/-- A file is refused when one of its lines is. -/
theorem create_refused {front rest : Text} (clean : ∀ line ∈ lines, newline ∉ line ∧ 0 ∉ line)
    (oneLine : newline ∉ front) (noZero : 0 ∉ front)
    (refused : ∀ r, lines.foldlM (lineStep included) (.start .create) = some r → readStep included r front = none) :
    create included (fileOf lines ++ (front ++ newline :: rest)) = none := by
  have all : ∀ line ∈ lines ++ [front], newline ∉ line ∧ 0 ∉ line :=
    forall_mem_append.mpr ⟨clean, by simpa using ⟨oneLine, noZero⟩⟩
  have file : fileOf lines ++ (front ++ newline :: rest) = fileOf (lines ++ [front]) ++ rest := by simp [fileOf]
  rw [create_eq, file]
  by_cases fit : ∀ line ∈ lines ++ [front], Fits line
  · obtain ⟨next, _, _, _, run⟩ := handledLines_lines rest grown_start rfl all fit
    rw [run]
    cases handledLines next rest with
    | none => rfl
    | some more =>
      rw [lines_fit included _ fun line member => fit line (mem_append_left _ member)] at refused
      rw [map_some, bind_some, foldlM_append, foldlM_withoutReturn, foldlM_append]
      cases reached : lines.foldlM (readStep included) (.start .create) with
      | none => rfl
      | some r =>
        have nothing := refused r reached
        simp [nothing]
  · push Not at fit
    rw [handledLines_refused rest grown_start rfl all fit]
    rfl

/-! What each kind of line makes of the variables of `read_config`. -/

open Http (strncasecmp)

/-! ### Texts -/

theorem isSpace_of_blank (byte : UInt8) (blank : isblank byte = true) : isSpace byte = true := by
  rcases (Bool.or_eq_true ..).mp blank with same | same
  · rw [eq_of_beq same]; rfl
  · rw [eq_of_beq same]; rfl

theorem isSpace_tolower : ∀ byte : UInt8, isSpace (tolower byte) = isSpace byte := by
  apply forall_byte
  decide +kernel

theorem tolower_eq_at : ∀ byte : UInt8, tolower byte = letter '@' → byte = letter '@' := by
  apply forall_byte
  decide +kernel

variable {c first : UInt8} {name : Name}

theorem charSearch_append {front back : Text} (absent : c ∉ front) :
    charSearch (front ++ c :: back) c = some front.length := by
  induction front with
  | nil => simp [charSearch, List.findIdx?_cons]
  | cons byte front ih =>
    obtain ⟨different, absent⟩ := not_or.mp (mem_cons.not.mp absent)
    have later := ih absent
    unfold charSearch at later ⊢
    simp [List.findIdx?_cons, Ne.symm different, later]

variable {string line rest : Text}

theorem charSearch_eq_none (absent : c ∉ string) : charSearch string c = none := by
  unfold charSearch
  rw [List.findIdx?_eq_none_iff]
  intro byte member
  rw [beq_eq_false_iff_ne]
  rintro rfl
  exact absent member

theorem charSearch_isSome (member : c ∈ string) : ∃ i, charSearch string c = some i := by
  unfold charSearch
  rw [← Option.isSome_iff_exists, List.findIdx?_isSome, List.any_eq_true]
  exact ⟨c, member, beq_self_eq_true c⟩

theorem sdsTrim_eq_self {s : Text} (left : ∀ byte, s.head? = some byte → isSpace byte = false)
    (right : ∀ byte, s.getLast? = some byte → isSpace byte = false) : sdsTrim s = some s := by
  cases s with
  | nil => rfl
  | cons first rest =>
    have kept : (first :: rest).dropWhile isSpace = first :: rest := by
      rw [dropWhile_cons, left first rfl]
      rfl
    have whole : (first :: rest).rdropWhile isSpace = first :: rest := by
      rw [rdropWhile_eq_self_iff]
      intro nonempty last
      rw [right _ (List.getLast?_eq_some_getLast nonempty)] at last
      cases last
    simp [sdsTrim, kept, whole]

theorem Key.not_mem_space (key : Key) : space ∉ key.text := by
  intro member
  have solid := key.solid _ member
  cases solid

theorem sectionProperty_pair (pair : Key × Value) :
    sectionProperty (pairText pair) pair.1.text.length pair.2.text pair.2.text.length = some (readPair pair) := by
  obtain ⟨key, value⟩ := pair
  have keyLength : key.text.length ≠ 0 := fun empty => key.nonempty (length_eq_zero_iff.mp empty)
  have valueLength : value.text.length ≠ 0 := fun empty => value.nonempty (length_eq_zero_iff.mp empty)
  have solid : ∀ byte ∈ key.text.map tolower, isSpace byte = false := by
    intro byte member
    obtain ⟨original, inside, rfl⟩ := mem_map.mp member
    rw [isSpace_tolower]
    exact key.solid original inside
  have keyTrim : sdsTrim (key.text.map tolower) = some (key.text.map tolower) := by
    apply sdsTrim_eq_self
    · intro byte first
      exact solid byte (mem_of_head? first)
    · intro byte last
      exact solid byte (mem_of_getLast? last)
  have valueTrim := sdsTrim_eq_self value.trimmedLeft value.trimmedRight
  simp [sectionProperty, keyTranslate, pairText, readPair, keyLength, keyTrim, valueTrim]

theorem not_include (noCommand : first ≠ letter '@') :
    strncasecmp (first :: rest) (ofString "@INCLUDE ") 9 ≠ .eq := by
  intro same
  unfold strncasecmp CString.strncmp at same
  rw [CString.compareBytes_eq_iff] at same
  have command : (CString.text ((ofString "@INCLUDE ").map tolower)).take 9 = letter '@' :: ofString "include " := by
    decide
  rw [command, map_cons] at same
  by_cases zero : tolower first = 0
  · simp [CString.text, zero] at same
  · simp only [CString.text, takeWhile_cons, ne_eq, zero, not_false_eq_true, decide_true, if_true,
      take_succ_cons, List.cons.injEq] at same
    exact noCommand (tolower_eq_at first same.1)

section

include included

theorem readStep_eq (r : Reader) (noReturn : line.getLast? ≠ some carriageReturn) :
    readStep included r line = (readLine included line r).toOption := by
  unfold readStep
  rw [chomp_line, withoutReturn_eq_self_iff.mpr noReturn]

theorem readStep_filler (filler : isFiller line = true) (r : Reader) : readStep included r line = some r := by
  have same : ∀ text : Text, isFiller text = true → readLine included text r = .ok r := by
    intro text kept
    cases text with
    | nil => rfl
    | cons first rest =>
      have comment : first = hash := by simpa [isFiller] using kept
      simp [readLine, comment]
  unfold readStep
  rw [chomp_line, withoutReturn]
  split
  next carriage =>
    rw [same]
    · rfl
    · cases line with
      | nil => cases carriage
      | cons first rest =>
        cases rest with
        | nil => rfl
        | cons second rest => simpa [isFiller] using filler
  · rw [same line filler]
    rfl

theorem readLine_body (rest : Text) (r : Reader) (blank : isblank first = true) :
    readLine included (first :: rest) r = bodyLine (first :: rest) r := by
  have noComment : first ≠ hash := by
    rintro rfl
    cases blank
  have noCommand : first ≠ letter '@' := by
    rintro rfl
    cases blank
  have noHeader : first ≠ openBracket := by
    rintro rfl
    cases blank
  simp [readLine, noComment, noCommand, noHeader, not_include noCommand]

end

theorem checkIndentFrom_append (indent line : Text) (level : Nat) :
    checkIndentFrom level (indent ++ line) indent = checkIndentFrom (level + indent.length) line [] := by
  induction indent generalizing level with
  | nil =>
    cases line with
    | nil => rfl
    | cons byte line => rfl
  | cons first indent ih =>
    rw [length_cons, Nat.add_comm indent.length, ← Nat.add_assoc, ← ih, cons_append]
    conv => lhs; unfold checkIndentFrom
    rw [if_pos rfl]

variable {byte : UInt8}

theorem checkIndent_once {indent : Text} (solid : isblank byte = false) :
    checkIndent (indent ++ byte :: rest) indent = .ok (.ok indent.length) := by
  unfold checkIndent
  rw [checkIndentFrom_append, Nat.zero_add]
  simp [checkIndentFrom, startsBlank, solid]

theorem checkIndent_twice (indent : Indent) (solid : isblank byte = false) :
    checkIndent (indent.text ++ (indent.text ++ byte :: rest)) indent.text =
      .ok (.groupContent (indent.text ++ indent.text).length) := by
  have extra : (indent.text ++ byte :: rest).takeWhile isblank = indent.text := by
    rw [takeWhile_append_of_pos indent.blank, takeWhile_cons_of_neg (by simp [solid]), append_nil]
  have starts : startsBlank (indent.text ++ byte :: rest) = true := by
    obtain ⟨first, more, shape⟩ := exists_cons_of_ne_nil indent.nonempty
    have blank := indent.blank first (shape ▸ mem_cons_self ..)
    simp [startsBlank, shape, blank]
  unfold checkIndent
  rw [checkIndentFrom_append, Nat.zero_add]
  simp [checkIndentFrom, starts, extra]

theorem indentOf_once (indent : Indent) (solid : isblank byte = false) :
    indentOf (indent.text ++ byte :: rest) = indent.text := by
  obtain ⟨first, more, shape⟩ := exists_cons_of_ne_nil indent.nonempty
  have blank : ∀ byte ∈ more, isblank byte = true := by
    intro other member
    exact indent.blank other (shape ▸ mem_cons_of_mem _ member)
  unfold indentOf
  rw [shape]
  simp [takeWhile_append_of_pos blank, solid]

def Reader.Indented (indent : Indent) (r : Reader) : Prop := r.indent = none ∨ r.indent = some indent.text

variable (included : Cf → Text → Option Cf) {indent : Indent} {r : Reader}

theorem readLine_indented : readLine included (indent.text ++ rest) r = bodyLine (indent.text ++ rest) r := by
  obtain ⟨first, more, shape⟩ := exists_cons_of_ne_nil indent.nonempty
  rw [shape]
  exact readLine_body included _ r (indent.blank first (shape ▸ mem_cons_self ..))

theorem readLine_once (indented : r.Indented indent) (rest : Text) (solid : isblank byte = false) :
    readLine included (indent.text ++ byte :: rest) r =
      keyLine (byte :: rest) { r with indent := some indent.text, currentGroup := none } := by
  have checked : ∀ r : Reader, indentedLine (indent.text ++ byte :: rest) indent.text r =
      keyLine (byte :: rest) { r with currentGroup := none } := by
    intro r
    unfold indentedLine
    simp [checkIndent_once solid]
  rw [readLine_indented]
  unfold bodyLine
  cases indented with
  | inl unknown =>
    simp only [unknown, indentOf_once indent solid]
    rw [if_neg (by simp), checked]
  | inr known =>
    simp [known, checked]

theorem readLine_twice (known : r.indent = some indent.text) (rest : Text) (solid : isblank byte = false) :
    readLine included (indent.text ++ indent.text ++ byte :: rest) r = keyLine (byte :: rest) r := by
  rw [append_assoc, readLine_indented]
  unfold bodyLine indentedLine
  simp only [known, checkIndent_twice indent solid]
  rw [← append_assoc, drop_left]

theorem charSearch_header (name : Name) : charSearch (header name) closeBracket = some (name.text.length + 1) := by
  have absent : closeBracket ∉ openBracket :: name.text :=
    not_mem_cons_of_ne_of_not_mem (by decide) name.noBracket
  exact charSearch_append absent

theorem readLine_header : readLine included (header name) r = .ok { r with
        cf := (r.cf.sectionCreate (name.text ++ [closeBracket]) name.text.length).1
        currentSection := some (r.cf.sectionCreate (name.text ++ [closeBracket]) name.text.length).2
        currentGroup := none
        nKeys := 0 } := by
  have search := charSearch_header name
  have notComment : openBracket ≠ hash := by decide
  have notCommand : openBracket ≠ letter '@' := by decide
  unfold header at search ⊢
  rw [cons_append] at search ⊢
  simp [readLine, notComment, notCommand, not_include notCommand, sectionLine, search]

theorem pairText_shape (pair : Key × Value) :
    ∃ first rest, pairText pair = first :: rest ∧ isblank first = false ∧ first ≠ hash ∧ first ≠ openBracket := by
  obtain ⟨key, value⟩ := pair
  obtain ⟨first, rest, shape⟩ := exists_cons_of_ne_nil key.nonempty
  refine ⟨first, rest ++ space :: value.text, by simp [pairText, shape], ?_, ?_, ?_⟩
  · have solid := key.solid first (shape ▸ mem_cons_self ..)
    by_contra blank
    rw [Bool.not_eq_false] at blank
    rw [isSpace_of_blank first blank] at solid
    cases solid
  · rintro rfl
    exact key.noComment (by rw [shape]; rfl)
  · rintro rfl
    exact key.noGroup (by rw [shape]; rfl)

theorem keyLine_pair (pair : Key × Value) {cf : Cf} (added : r.addProperty (readPair pair) = some cf) :
    keyLine (pairText pair) r = .ok { r with cf := cf, nKeys := r.nKeys + 1 } := by
  obtain ⟨first, rest, shape, _, noComment, noGroup⟩ := pairText_shape pair
  have search : charSearch (pairText pair) space = some pair.1.text.length := charSearch_append pair.1.not_mem_space
  have value : (pairText pair).drop (pair.1.text.length + 1) = pair.2.text := by
    unfold pairText
    rw [← drop_drop, drop_left]
    rfl
  have property := sectionProperty_pair pair
  have line : keyLine (pairText pair) r = pairLine (pairText pair) pair.1.text.length r := by
    rw [shape] at search ⊢
    simp [keyLine, noComment, noGroup, search]
  rw [line]
  unfold pairLine
  simp [value, pair.2.nonempty, property, added]

theorem keyLine_header {s : Nat} (blank : space ∈ name.text) (known : r.currentSection = some s)
    (noGroup : r.currentGroup = none) :
    keyLine (header name) r = .ok { r with
        cf := r.cf.inSection s fun parent => { parent with groups := parent.groups ++ [⟨name.text, []⟩] }
        currentGroup := some (((r.cf.sections[s]?).map fun parent => parent.groups.length).getD 0)
        nKeys := 0 } := by
  have search := charSearch_header name
  have inside : space ∈ header name := by simp [header, blank]
  obtain ⟨i, separator⟩ := charSearch_isSome inside
  have noComment : openBracket ≠ hash := by decide
  have named : ¬name.text.length < 1 := by
    rw [Nat.lt_one_iff, length_eq_zero_iff]
    exact name.nonempty
  unfold header at search separator ⊢
  rw [cons_append] at search separator ⊢
  simp [keyLine, noComment, separator, groupLine, search, known, noGroup, Cf.groupCreate, name.nonempty]

theorem keyLine_header_error (noBlank : space ∉ name.text) : ∃ error, keyLine (header name) r = .error error := by
  have absent : space ∉ header name := by
    intro member
    have noBracket : space ≠ openBracket ∧ space ≠ closeBracket := by decide
    exact noBlank (by simpa [header, noBracket] using member)
  have search := charSearch_eq_none absent
  have noComment : openBracket ≠ hash := by decide
  unfold header at search ⊢
  rw [cons_append] at search ⊢
  simp [keyLine, noComment, search]

end FluentBit.ConfigFormat
