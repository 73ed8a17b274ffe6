import FluentBit.ConfigFormat.Steps

/-! Reading the lines of sections adds them to the configuration one after another. -/

set_option autoImplicit false

namespace FluentBit.ConfigFormat

open List Ascii

theorem Cf.inSection_inSection (cf : Cf) (s : Nat) (first second : Section → Section) :
    (cf.inSection s first).inSection s second = cf.inSection s fun parent => second (first parent) := by
  unfold Cf.inSection
  simp only [modify_modify_eq]
  rfl

variable {parent : Section}

theorem Cf.inSection_congr {cf : Cf} {s : Nat} {first second : Section → Section}
    (found : cf.sections[s]? = some parent) (same : first parent = second parent) :
    cf.inSection s first = cf.inSection s second := by
  have sections : cf.sections.modify s first = cf.sections.modify s second := by
    apply ext_getElem?
    intro i
    rw [List.getElem?_modify, List.getElem?_modify]
    by_cases here : s = i
    · subst here
      simp [found, same]
    · simp [here]
  unfold Cf.inSection
  rw [sections]

theorem Cf.inSection_same {change : Section → Section} (same : ∀ parent, change parent = parent) (cf : Cf) (s : Nat) :
    cf.inSection s change = cf := by
  have identity : change = id := funext same
  unfold Cf.inSection
  rw [identity, modify_id]

theorem modify_last {α : Type} (front : List α) (last : α) (change : α → α) :
    (front ++ [last]).modify front.length change = front ++ [change last] := by
  induction front with
  | nil => rfl
  | cons first front ih => simpa using ih

theorem Cf.inSection_found {cf : Cf} {s : Nat} (found : cf.sections[s]? = some parent) (change : Section → Section) :
    (cf.inSection s change).sections[s]? = some (change parent) := by
  simp [Cf.inSection, found]

/-! ### Pairs and groups -/

structure Reader.At (indent : Indent) (r : Reader) (cf : Cf) (s : Nat) : Prop where
  cf_eq : r.cf = cf
  indented : r.Indented indent
  place : r.currentSection = some s

variable (included : Cf → Text → Option Cf) {indent : Indent} {r next : Reader} {cf : Cf} {s : Nat}
  {docs : List DocSection} {lines : List Text} {line text rest before front : Text} {doc : DocSection} {name : Name}

theorem pair_noReturn (pair : Key × Value) :
    (before ++ pairText pair).getLast? ≠ some carriageReturn := by
  intro last
  obtain ⟨first, rest, shape⟩ := exists_cons_of_ne_nil pair.2.nonempty
  have lastValue : pair.2.text.getLast? = some carriageReturn := by
    unfold pairText at last
    rw [shape] at last ⊢
    rw [← append_assoc, List.getLast?_append_cons, List.getLast?_cons_cons] at last
    exact last
  have solid := pair.2.trimmedRight _ lastValue
  cases solid

theorem header_noReturn (before : Text) (name : Name) : (before ++ header name).getLast? ≠ some carriageReturn := by
  unfold header
  rw [← append_assoc, List.getLast?_concat]
  decide

theorem readStep_pair (inside : r.At indent cf s) (pair : Key × Value) :
    ∃ next, readStep included r (indent.text ++ pairText pair) = some next ∧
      next.At indent (cf.inSection s (·.addProperty (readPair pair))) s := by
  obtain ⟨rfl, indented, place⟩ := inside
  obtain ⟨first, rest, shape, solid, _⟩ := pairText_shape pair
  have added : ({ r with indent := some indent.text, currentGroup := none } : Reader).addProperty (readPair pair) =
      some (r.cf.inSection s (·.addProperty (readPair pair))) := by
    simp [Reader.addProperty, place]
  rw [readStep_eq included r (pair_noReturn pair), shape, readLine_once included indented rest solid, ← shape,
    keyLine_pair pair added]
  exact ⟨_, rfl, rfl, .inr rfl, place⟩

theorem pairs_run (inside : r.At indent cf s) (pairs : List (Key × Value)) :
    ∃ next, (pairs.map fun pair => indent.text ++ pairText pair).foldlM (readStep included) r = some next ∧
      next.At indent (cf.inSection s fun parent =>
        { parent with properties := parent.properties ++ pairs.map readPair }) s := by
  induction pairs generalizing r cf with
  | nil =>
    refine ⟨r, rfl, ?_⟩
    rw [Cf.inSection_same fun parent => by simp]
    exact inside
  | cons pair pairs ih =>
    obtain ⟨next, step, after⟩ := readStep_pair included inside pair
    obtain ⟨last, run, finished⟩ := ih after
    refine ⟨last, ?_, ?_⟩
    · rw [map_cons, foldlM_cons, step]
      exact run
    · rw [Cf.inSection_inSection] at finished
      simpa [Section.addProperty] using finished

/-- In a group that was put behind the `g` others of its section, with some properties already -/
structure Reader.InGroup (indent : Indent) (r : Reader) (cf : Cf) (s : Nat) (parent : Section) (group : Group) :
    Prop where
  at_section : r.At indent (cf.inSection s fun parent => { parent with groups := parent.groups ++ [group] }) s
  known : r.indent = some indent.text
  current : r.currentGroup = some parent.groups.length

variable {group : Group} {groups : List DocGroup}

section

variable (found : cf.sections[s]? = some parent) (inside : r.InGroup indent cf s parent group)
include found inside

theorem readStep_groupPair (pair : Key × Value) :
    ∃ next, readStep included r (indent.text ++ indent.text ++ pairText pair) = some next ∧
      next.InGroup indent cf s parent (group.addProperty (readPair pair)) := by
  obtain ⟨⟨cf_eq, indented, place⟩, known, current⟩ := inside
  obtain ⟨first, rest, shape, solid, _⟩ := pairText_shape pair
  have added : r.addProperty (readPair pair) = some (cf.inSection s fun parent =>
        { parent with groups := parent.groups ++ [group.addProperty (readPair pair)] }) := by
    unfold Reader.addProperty
    simp only [place, current, cf_eq, Cf.inSection_inSection]
    rw [Cf.inSection_congr found]
    simp [modify_last]
  rw [readStep_eq included r (pair_noReturn pair), shape, readLine_twice included known rest solid, ← shape,
    keyLine_pair pair added]
  exact ⟨_, rfl, ⟨rfl, .inr known, place⟩, known, current⟩

theorem groupPairs_run (pairs : List (Key × Value)) :
    ∃ next, (pairs.map fun pair => indent.text ++ indent.text ++ pairText pair).foldlM (readStep included) r =
        some next ∧
      next.InGroup indent cf s parent { group with properties := group.properties ++ pairs.map readPair } := by
  induction pairs generalizing r group with
  | nil =>
    refine ⟨r, rfl, ?_⟩
    rw [map_nil, append_nil]
    exact inside
  | cons pair pairs ih =>
    obtain ⟨next, step, after⟩ := readStep_groupPair included found inside pair
    obtain ⟨last, run, finished⟩ := ih after
    refine ⟨last, ?_, ?_⟩
    · rw [map_cons, foldlM_cons, step]
      exact run
    · simpa [Group.addProperty] using finished

end

theorem isblank_bracket : isblank openBracket = false := by
  decide

theorem group_run (inside : r.At indent cf s) (found : cf.sections[s]? = some parent) {group : DocGroup}
    (blank : space ∈ group.name.text) : ∃ next, (group.lines indent).foldlM (readStep included) r = some next ∧
      next.At indent (cf.inSection s fun parent => { parent with groups := parent.groups ++ [group.read] }) s := by
  obtain ⟨cf_eq, indented, place⟩ := inside
  have inside : Reader.InGroup indent { r with
        cf := r.cf.inSection s fun parent => { parent with groups := parent.groups ++ [⟨group.name.text, []⟩] }
        indent := some indent.text
        currentGroup := some (((r.cf.sections[s]?).map fun parent => parent.groups.length).getD 0)
        nKeys := 0 }
      cf s parent ⟨group.name.text, []⟩ := by
    constructor
    · exact ⟨by rw [cf_eq], .inr rfl, place⟩
    · rfl
    · rw [cf_eq, found]
      rfl
  obtain ⟨last, run, finished⟩ := groupPairs_run included found inside group.pairs
  refine ⟨last, ?_, finished.at_section⟩
  have step := readStep_eq included r (header_noReturn indent.text group.name)
  have line := readLine_once included indented (group.name.text ++ [closeBracket]) isblank_bracket
  have key := keyLine_header (r := { r with indent := some indent.text, currentGroup := none }) blank place rfl
  unfold header at step key
  rw [cons_append] at step key
  rw [line, key] at step
  unfold DocGroup.lines header
  rw [foldlM_cons, cons_append, step]
  exact run

theorem group_refused (indented : r.Indented indent) {group : DocGroup} (noBlank : space ∉ group.name.text) :
    (group.lines indent).foldlM (readStep included) r = none := by
  have step := readStep_eq included r (header_noReturn indent.text group.name)
  have line := readLine_once included indented (group.name.text ++ [closeBracket]) isblank_bracket
  obtain ⟨error, key⟩ :=
    keyLine_header_error (r := { r with indent := some indent.text, currentGroup := none }) noBlank
  unfold header at step key
  rw [cons_append] at step key
  rw [line, key] at step
  unfold DocGroup.lines header
  rw [foldlM_cons, cons_append, step]
  rfl

theorem groups_run (inside : r.At indent cf s) (found : cf.sections[s]? = some parent)
    (blank : ∀ group ∈ groups, space ∈ group.name.text) :
    ∃ next, (groups.flatMap (·.lines indent)).foldlM (readStep included) r = some next ∧
      next.At indent (cf.inSection s fun parent => { parent with groups := parent.groups ++ groups.map (·.read) }) s := by
  induction groups generalizing r cf parent with
  | nil =>
    refine ⟨r, rfl, ?_⟩
    rw [Cf.inSection_same fun parent => by simp]
    exact inside
  | cons group groups ih =>
    obtain ⟨next, step, after⟩ := group_run included inside found (blank group (mem_cons_self ..))
    obtain ⟨last, run, finished⟩ := ih after (Cf.inSection_found found _) fun other member =>
      blank other (mem_cons_of_mem _ member)
    refine ⟨last, ?_, ?_⟩
    · rw [flatMap_cons, foldlM_append, step]
      exact run
    · rw [Cf.inSection_inSection] at finished
      simpa using finished

/-- A group whose name has no blank is refused. -/
theorem groups_refused (inside : r.At indent cf s) (found : cf.sections[s]? = some parent)
    (noBlank : ∃ group ∈ groups, space ∉ group.name.text) :
    (groups.flatMap (·.lines indent)).foldlM (readStep included) r = none := by
  induction groups generalizing r cf parent with
  | nil => simp at noBlank
  | cons group groups ih =>
    rw [flatMap_cons, foldlM_append]
    by_cases blank : space ∈ group.name.text
    · obtain ⟨next, step, after⟩ := group_run included inside found blank
      have later : ∃ group ∈ groups, space ∉ group.name.text := by
        obtain ⟨other, member, without⟩ := noBlank
        rcases mem_cons.mp member with rfl | member
        · exact absurd blank without
        · exact ⟨other, member, without⟩
      rw [step]
      exact ih after (Cf.inSection_found found _) later
    · rw [group_refused included inside.indented blank]
      rfl

/-! A name that goes on in the next line leaves a header without its bracket, which the reader refuses
whatever came before it. -/

inductive LineOf (indent : Indent) (docs : List DocSection) : Text → Prop where
  | header {doc : DocSection} (member : doc ∈ docs) : LineOf indent docs (header doc.name)
  | group {doc : DocSection} {group : DocGroup} (member : doc ∈ docs) (inside : group ∈ doc.groups) :
      LineOf indent docs (indent.text ++ header group.name)
  | pair (pair : Key × Value) : LineOf indent docs (indent.text ++ pairText pair)
  | groupPair (pair : Key × Value) : LineOf indent docs (indent.text ++ indent.text ++ pairText pair)

theorem lineOf_of_mem (member : line ∈ docs.flatMap (·.lines indent)) : LineOf indent docs line := by
  obtain ⟨doc, docMember, inDoc⟩ := mem_flatMap.mp member
  unfold DocSection.lines at inDoc
  rcases mem_append.mp inDoc with own | inGroups
  · rcases mem_cons.mp own with rfl | inPairs
    · exact .header docMember
    · obtain ⟨pair, _, rfl⟩ := mem_map.mp inPairs
      exact .pair pair
  · obtain ⟨group, groupMember, inGroup⟩ := mem_flatMap.mp inGroups
    rcases mem_cons.mp inGroup with rfl | inPairs
    · exact .group docMember groupMember
    · obtain ⟨pair, _, rfl⟩ := mem_map.mp inPairs
      exact .groupPair pair

theorem header_mem (member : doc ∈ docs) : header doc.name ∈ docs.flatMap (·.lines indent) :=
  mem_flatMap.mpr ⟨doc, member, mem_append_left _ (mem_cons_self ..)⟩

theorem groupHeader_mem {group : DocGroup} (member : doc ∈ docs) (inside : group ∈ doc.groups) :
    indent.text ++ header group.name ∈ docs.flatMap (·.lines indent) :=
  mem_flatMap.mpr ⟨doc, member, mem_append_right _ (mem_flatMap.mpr ⟨group, inside, mem_cons_self ..⟩)⟩

theorem Writes.lineOf (writes : Writes indent docs lines) (member : line ∈ lines) (content : isFiller line = false) :
    LineOf indent docs line := by
  apply lineOf_of_mem
  rw [← writes.content, mem_filter]
  exact ⟨member, by rw [content]; rfl⟩

theorem Writes.mem (writes : Writes indent docs lines) (member : line ∈ docs.flatMap (·.lines indent)) :
    line ∈ lines := by
  rw [← writes.content] at member
  exact mem_of_mem_filter member

def Reader.BlankIndent (r : Reader) : Prop := ∀ text, r.indent = some text → ∀ byte ∈ text, isblank byte = true

theorem keyLine_indent {key : Text} (kept : keyLine key r = .ok next) : next.indent = r.indent := by
  unfold keyLine at kept
  split at kept
  · cases kept; rfl
  next first rest =>
    split at kept
    · cases kept; rfl
    · split at kept
      · cases kept
      next i _ =>
        split at kept
        · unfold groupLine at kept
          split at kept
          · cases kept
          · split at kept
            · cases kept
            · split at kept
              · cases kept
              · split at kept
                · cases kept; rfl
                · cases kept; rfl
        · unfold pairLine at kept
          simp only at kept
          split at kept
          · cases kept
          · split at kept
            · cases kept
            · cases kept; rfl

theorem indentedLine_indent {buf : Text} (kept : indentedLine buf text r = .ok next) : next.indent = r.indent := by
  unfold indentedLine at kept
  split at kept
  · cases kept
  next level _ => exact (keyLine_indent kept).trans rfl
  · exact keyLine_indent kept

theorem bodyLine_blank {first : UInt8} (blank : isblank first = true) (before : r.BlankIndent)
    (kept : bodyLine (first :: rest) r = .ok next) : next.BlankIndent := by
  unfold bodyLine at kept
  split at kept
  next text known =>
    unfold Reader.BlankIndent
    rw [indentedLine_indent kept]
    exact before
  next unknown =>
    have found : next.indent = some (indentOf (first :: rest)) := by
      simp only at kept
      split at kept
      · cases kept; rfl
      · exact indentedLine_indent kept
    intro text known byte member
    rw [found, Option.some.injEq] at known
    subst known
    rcases mem_append.mp member with own | later
    · obtain rfl := mem_singleton.mp own
      exact blank
    · exact mem_takeWhile_imp later

theorem readStep_blank (kind : LineOf indent docs line) (before : r.BlankIndent)
    (step : readStep included r line = some next) : next.BlankIndent := by
  have body (rest : Text) (noReturn : (indent.text ++ rest).getLast? ≠ some carriageReturn)
      (step : readStep included r (indent.text ++ rest) = some next) : next.BlankIndent := by
    obtain ⟨first, more, shape⟩ := exists_cons_of_ne_nil indent.nonempty
    have blank := indent.blank first (shape ▸ mem_cons_self ..)
    rw [readStep_eq included r noReturn, shape, cons_append, readLine_body included _ r blank] at step
    cases kept : bodyLine (first :: (more ++ rest)) r with
    | error error =>
      rw [kept] at step
      cases step
    | ok after =>
      rw [kept] at step
      cases step
      exact bodyLine_blank blank before kept
  cases kind with
  | @header doc member =>
    have noReturn := header_noReturn [] doc.name
    rw [nil_append] at noReturn
    rw [readStep_eq included r noReturn, readLine_header] at step
    cases step
    exact before
  | group member inside => exact body _ (header_noReturn indent.text _) step
  | pair pair => exact body _ (pair_noReturn pair) step
  | groupPair pair =>
    rw [append_assoc] at step
    apply body _ _ step
    rw [← append_assoc]
    exact pair_noReturn pair

theorem lines_blank (before : r.BlankIndent) (kinds : ∀ line ∈ lines, isFiller line = false → LineOf indent docs line)
    (run : lines.foldlM (lineStep included) r = some next) : next.BlankIndent := by
  induction lines generalizing r with
  | nil => cases run; exact before
  | cons line lines ih =>
    have laterKinds : ∀ line ∈ lines, isFiller line = false → LineOf indent docs line := fun other member =>
      kinds other (mem_cons_of_mem _ member)
    rw [foldlM_cons] at run
    cases step : lineStep included r line with
    | none =>
      rw [step] at run
      cases run
    | some later =>
      rw [step] at run
      apply ih _ laterKinds run
      unfold lineStep at step
      split at step
      · cases filler : isFiller line with
        | true =>
          rw [readStep_filler included filler r] at step
          cases step
          exact before
        | false => exact readStep_blank included (kinds line (mem_cons_self ..) filler) before step
      · cases step

theorem readStep_refused (refused : ∀ shorter, shorter <+: front → ∃ error,
      readLine included (before ++ openBracket :: shorter) r = .error error) :
    readStep included r (before ++ openBracket :: front) = none := by
  unfold readStep
  rw [chomp_line, withoutReturn]
  split
  next carriage =>
    have more : front ≠ [] := by
      rintro rfl
      rw [List.getLast?_concat] at carriage
      cases carriage
    obtain ⟨error, failed⟩ := refused front.dropLast front.dropLast_prefix
    rw [dropLast_append_of_ne_nil (by simp), dropLast_cons_of_ne_nil more, failed]
    rfl
  · obtain ⟨error, failed⟩ := refused front prefix_rfl
    rw [failed]
    rfl

theorem header_refused (noBracket : closeBracket ∉ front) :
    ∃ error, readLine included (openBracket :: front) r = .error error := by
  have absent : closeBracket ∉ openBracket :: front := by
    rw [mem_cons]
    rintro (same | inside)
    · cases same
    · exact noBracket inside
  have notComment : openBracket ≠ hash := by decide
  have notCommand : openBracket ≠ letter '@' := by decide
  simp [readLine, notComment, notCommand, not_include notCommand, sectionLine, charSearch_eq_none absent]

def Indentation.level : Indentation → Nat
  | .ok level => level
  | .groupContent level => level

theorem checkIndentFrom_level {level : Nat} {blanks : Text} {byte : UInt8} {found : Indentation}
    (blank : ∀ byte ∈ blanks, isblank byte = true) (textBlank : ∀ byte ∈ text, isblank byte = true)
    (solid : isblank byte = false) (accepted : checkIndentFrom level (blanks ++ byte :: rest) text = .ok found) :
    found.level = level + blanks.length := by
  induction text generalizing level blanks with
  | nil =>
    have extra : ((blanks ++ byte :: rest).takeWhile isblank).length = blanks.length := by
      rw [takeWhile_append_of_pos blank, takeWhile_cons_of_neg (by simp [solid]), append_nil]
    simp only [checkIndentFrom, extra] at accepted
    split at accepted
    · split at accepted
      · cases accepted; rfl
      · cases accepted
    next noBlank =>
      cases accepted
      cases blanks with
      | nil => rfl
      | cons first blanks =>
        have starts := blank first (mem_cons_self ..)
        simp [startsBlank, starts] at noBlank
  | cons first text ih =>
    have laterBlank : ∀ byte ∈ text, isblank byte = true := fun other member =>
      textBlank other (mem_cons_of_mem _ member)
    cases blanks with
    | nil =>
      have different : byte ≠ first := by
        rintro rfl
        rw [textBlank byte (mem_cons_self ..)] at solid
        cases solid
      rw [nil_append, checkIndentFrom, if_neg different] at accepted
      split at accepted <;> cases accepted
    | cons head blanks =>
      rw [cons_append, checkIndentFrom] at accepted
      split at accepted
      · have later := ih (fun other member => blank other (mem_cons_of_mem _ member)) laterBlank accepted
        rw [later, length_cons]
        omega
      · split at accepted <;> cases accepted

theorem groupHeader_refused (before : r.BlankIndent) (noBracket : closeBracket ∉ front) :
    ∃ error, readLine included (indent.text ++ openBracket :: front) r = .error error := by
  have keys : ∀ r, ∃ error, keyLine (openBracket :: front) r = .error error := by
    intro r
    have absent : closeBracket ∉ openBracket :: front :=
      not_mem_cons_of_ne_of_not_mem (by decide) noBracket
    have noComment : openBracket ≠ hash := by decide
    simp only [keyLine, noComment, if_false, if_true]
    split
    · exact ⟨_, rfl⟩
    · exact ⟨_, by unfold groupLine; rw [charSearch_eq_none absent]⟩
  have indented : ∀ text : Text, (∀ byte ∈ text, isblank byte = true) → ∀ r,
      ∃ error, indentedLine (indent.text ++ openBracket :: front) text r = .error error := by
    intro text textBlank r
    have place : ∀ found, checkIndent (indent.text ++ openBracket :: front) text = .ok found →
        found.level = indent.text.length := by
      intro found accepted
      rw [checkIndentFrom_level indent.blank textBlank isblank_bracket accepted, Nat.zero_add]
    unfold indentedLine
    split
    · exact ⟨_, rfl⟩
    next level accepted =>
      obtain rfl : level = indent.text.length := place _ accepted
      rw [drop_left]
      exact keys _
    next level accepted =>
      obtain rfl : level = indent.text.length := place _ accepted
      rw [drop_left]
      exact keys _
  rw [readLine_indented]
  unfold bodyLine
  split
  next text known => exact indented text (before text known) r
  next unknown =>
    simp only [indentOf_once indent isblank_bracket]
    rw [if_neg (by simp)]
    exact indented indent.text indent.blank _

theorem not_mem_indent (indent : Indent) : newline ∉ indent.text ∧ 0 ∉ indent.text := by
  constructor
  · intro inside
    have blank := indent.blank _ inside
    cases blank
  · intro inside
    have blank := indent.blank _ inside
    cases blank

theorem brokenHeader_refused (place : before = [] ∨ before = indent.text) (broken : newline ∈ name.text) :
    ∃ front back, before ++ header name = front ++ newline :: back ∧ newline ∉ front ∧ 0 ∉ front ∧
      ∀ r : Reader, r.BlankIndent → readStep included r front = none := by
  obtain ⟨front, back, parts, first⟩ := eq_append_cons_of_mem broken
  have noBracket : closeBracket ∉ front := by
    intro inside
    exact name.noBracket (parts ▸ mem_append_left _ inside)
  have noZero : 0 ∉ front := by
    intro inside
    exact name.noZero (parts ▸ mem_append_left _ inside)
  have split : before ++ header name = (before ++ openBracket :: front) ++ newline :: (back ++ [closeBracket]) := by
    simp [header, parts]
  have beforeClean : newline ∉ before ∧ 0 ∉ before := by
    rcases place with rfl | rfl
    · simp
    · exact not_mem_indent indent
  have different : newline ≠ openBracket ∧ 0 ≠ openBracket := by decide
  refine ⟨_, _, split, by simp [beforeClean.1, first, different], by simp [beforeClean.2, noZero, different], ?_⟩
  intro r blankIndent
  apply readStep_refused
  intro shorter begins
  have shortNoBracket : closeBracket ∉ shorter := fun inside => noBracket (begins.subset inside)
  rcases place with rfl | rfl
  · exact header_refused included shortNoBracket
  · exact groupHeader_refused included blankIndent shortNoBracket

theorem pairText_clean (pair : Key × Value) : newline ∉ pairText pair ∧ 0 ∉ pairText pair := by
  obtain ⟨key, value⟩ := pair
  have keyLine : newline ∉ key.text := by
    intro inside
    have solid := key.solid _ inside
    cases solid
  have separator : newline ≠ space ∧ 0 ≠ space := by decide
  simp [pairText, keyLine, value.oneLine, key.noZero, value.noZero, separator]

theorem header_noZero (name : Name) : 0 ∉ header name := by
  have brackets : 0 ≠ openBracket ∧ 0 ≠ closeBracket := by decide
  simp [header, name.noZero, brackets]

theorem newline_mem_header : newline ∈ header name ↔ newline ∈ name.text := by
  have brackets : newline ≠ openBracket ∧ newline ≠ closeBracket := by decide
  simp [header, brackets]

theorem LineOf.noZero (kind : LineOf indent docs line) : 0 ∉ line := by
  have noIndent := (not_mem_indent indent).2
  cases kind with
  | header member => exact header_noZero _
  | group member inside => simp [noIndent, header_noZero]
  | pair pair | groupPair pair => simp [noIndent, (pairText_clean pair).2]

theorem lineOf_broken (kind : LineOf indent docs line) (broken : newline ∈ line) :
    ∃ before name, line = before ++ header name ∧ newline ∈ name.text ∧ (before = [] ∨ before = indent.text) ∧
      ∃ doc ∈ docs, name = doc.name ∨ ∃ group ∈ doc.groups, name = group.name := by
  have noIndent := (not_mem_indent indent).1
  cases kind with
  | @header doc member =>
    exact ⟨[], doc.name, rfl, newline_mem_header.mp broken, .inl rfl, doc, member, .inl rfl⟩
  | @group doc group member inside =>
    have inHeader : newline ∈ header group.name := (mem_append.mp broken).resolve_left noIndent
    exact ⟨indent.text, group.name, rfl, newline_mem_header.mp inHeader, .inr rfl, doc, member,
      .inr ⟨group, inside, rfl⟩⟩
  | pair pair | groupPair pair =>
    exact absurd broken (by simp [noIndent, (pairText_clean pair).1])

theorem Writes.noZero (writes : Writes indent docs lines) : ∀ line ∈ lines, 0 ∉ line := by
  intro line member
  cases filler : isFiller line with
  | true => exact (writes.fillers line member filler).2
  | false => exact (writes.lineOf member filler).noZero

/-- A line that holds the end of a line makes the file refused. -/
theorem create_broken (writes : Writes indent docs lines) (member : line ∈ lines) (broken : newline ∈ line) :
    create included (fileOf lines) = none := by
  have found : (lines.find? fun line => decide (newline ∈ line)).isSome := by
    rw [List.find?_isSome]
    exact ⟨line, member, by simpa using broken⟩
  obtain ⟨bad, bad_eq⟩ := Option.isSome_iff_exists.mp found
  obtain ⟨isBroken, before, after, parts, whole⟩ := List.find?_eq_some_iff_append.mp bad_eq
  rw [decide_eq_true_eq] at isBroken
  subst parts
  have badMember : bad ∈ before ++ bad :: after := by simp
  have noFiller : isFiller bad = false := by
    rw [← Bool.not_eq_true]
    intro filler
    exact (writes.fillers bad badMember filler).1 isBroken
  have clean : ∀ line ∈ before, newline ∉ line ∧ 0 ∉ line := by
    intro other inside
    exact ⟨by simpa using whole other inside, writes.noZero other (mem_append_left _ inside)⟩
  obtain ⟨indentation, name, rfl, nameBroken, place, _⟩ := lineOf_broken (writes.lineOf badMember noFiller) isBroken
  have blankIndent : ∀ r, before.foldlM (lineStep included) (.start .create) = some r → r.BlankIndent := by
    intro r reached
    have kinds : ∀ line ∈ before, isFiller line = false → LineOf indent docs line := by
      intro other inside content
      exact writes.lineOf (mem_append_left _ inside) content
    have start : (Reader.start .create).BlankIndent := by
      intro text known
      cases known
    exact lines_blank included start kinds reached
  obtain ⟨front, back, split, oneLine, noZero, refused⟩ := brokenHeader_refused included place nameBroken
  have file : fileOf (before ++ (indentation ++ header name) :: after) =
      fileOf before ++ (front ++ newline :: (back ++ newline :: fileOf after)) := by
    simp [fileOf, split]
  rw [file]
  exact create_refused included clean oneLine noZero fun r reached => refused r (blankIndent r reached)

end FluentBit.ConfigFormat
