import FluentBit.ConfigFormat.BrokenNames

/-! When a configuration that was written comes back as it was meant. -/

set_option autoImplicit false

namespace FluentBit.ConfigFormat

open List Option Ascii

variable (included : Cf → Text → Option Cf) {indent : Indent} {r : Reader} {secs : List Section}

/-! ### Sections -/

def readType (name : Text) : SectionType := getSectionType (name ++ [closeBracket]) name.length

theorem sectionCreate_content {cf : Cf} (holds : cf.Holds secs) (doc : DocSection) :
    ∃ (created : Cf) (s : Nat) (parent : Section),
      cf.sectionCreate (doc.name.text ++ [closeBracket]) doc.name.text.length = (created, s) ∧
      created.sections[s]? = some parent ∧
      created.inSection s (fun parent => parent.extend (doc.read readType)) = cf.addSection (doc.read readType) := by
  have length : doc.name.text.length ≠ 0 := fun empty => doc.name.nonempty (length_eq_zero_iff.mp empty)
  by_cases known : readType doc.name.text = .service ∧ ∃ existing, cf.service = some existing
  · obtain ⟨service, existing, found⟩ := known
    have position := holds.service.symm.trans found
    obtain ⟨inside, _⟩ := List.findIdx?_eq_some_iff_getElem.mp position
    refine ⟨cf, existing, cf.sections[existing], ?_, List.getElem?_eq_getElem inside, ?_⟩
    · unfold Cf.sectionCreate
      unfold readType at service
      simp [length, service, found]
    · unfold Cf.addSection
      have kind : (doc.read readType).type = .service := service
      simp [kind, found]
  · have created : cf.sectionCreate (doc.name.text ++ [closeBracket]) doc.name.text.length = ({ cf with
            service := if readType doc.name.text = .service then some cf.sections.length else cf.service
            sections := cf.sections ++ [⟨readType doc.name.text, doc.name.text, [], []⟩] }, cf.sections.length) := by
      unfold Cf.sectionCreate
      simp only [length, if_false, take_left]
      split
      next existing service found => exact absurd ⟨service, existing, found⟩ known
      · rfl
    refine ⟨_, _, ⟨readType doc.name.text, doc.name.text, [], []⟩, created, by simp, ?_⟩
    have added : cf.addSection (doc.read readType) = { cf with
          service := if readType doc.name.text = .service then some cf.sections.length else cf.service
          sections := cf.sections ++ [doc.read readType] } := by
      unfold Cf.addSection
      split
      next existing service found => exact absurd ⟨service, existing, found⟩ known
      · rfl
    rw [added]
    unfold Cf.inSection
    simp only [modify_last]
    simp [Section.extend, DocSection.read]

theorem header_run {cf : Cf} {s : Nat} (indented : r.Indented indent) (doc : DocSection)
    (created : r.cf.sectionCreate (doc.name.text ++ [closeBracket]) doc.name.text.length = (cf, s)) :
    ∃ next, readStep included r (header doc.name) = some next ∧ next.At indent cf s := by
  have step := readStep_eq included r (header_noReturn [] doc.name)
  rw [nil_append, readLine_header, created] at step
  rw [step]
  exact ⟨_, rfl, rfl, indented, rfl⟩

theorem section_run (indented : r.Indented indent) (holds : r.cf.Holds secs) {doc : DocSection}
    (blank : ∀ group ∈ doc.groups, space ∈ group.name.text) :
    ∃ next, (doc.lines indent).foldlM (readStep included) r = some next ∧ next.Indented indent ∧
      next.cf.Holds (secs ++ [doc.read readType]) := by
  obtain ⟨cf, s, parent, created, found, content⟩ := sectionCreate_content holds doc
  obtain ⟨first, header, inside⟩ := header_run included indented doc created
  obtain ⟨second, pairs, after⟩ := pairs_run included inside doc.pairs
  obtain ⟨last, groups, finished⟩ := groups_run included after (Cf.inSection_found found _) blank
  refine ⟨last, ?_, finished.indented, ?_⟩
  · unfold DocSection.lines
    rw [cons_append, foldlM_cons, header]
    simp only [bind_eq_bind, bind_some, foldlM_append, pairs]
    exact groups
  · have after := holds.addSection (doc.read readType)
    rw [← content] at after
    rw [finished.cf_eq, Cf.inSection_inSection]
    exact after

theorem section_refused (indented : r.Indented indent) (holds : r.cf.Holds secs) {doc : DocSection}
    (noBlank : ∃ group ∈ doc.groups, space ∉ group.name.text) :
    (doc.lines indent).foldlM (readStep included) r = none := by
  obtain ⟨cf, s, parent, created, found, content⟩ := sectionCreate_content holds doc
  obtain ⟨first, header, inside⟩ := header_run included indented doc created
  obtain ⟨second, pairs, after⟩ := pairs_run included inside doc.pairs
  unfold DocSection.lines
  rw [cons_append, foldlM_cons, header]
  simp only [bind_eq_bind, bind_some, foldlM_append, pairs]
  exact groups_refused included after (Cf.inSection_found found _) noBlank

def Blanks (docs : List DocSection) : Prop := ∀ doc ∈ docs, ∀ group ∈ doc.groups, space ∈ group.name.text

theorem docs_run (indented : r.Indented indent) (holds : r.cf.Holds secs) {docs : List DocSection} (blanks : Blanks docs) :
    ∃ next, (docs.flatMap (·.lines indent)).foldlM (readStep included) r = some next ∧
      next.cf.Holds (secs ++ docs.map (·.read readType)) := by
  induction docs generalizing r secs with
  | nil =>
    refine ⟨r, rfl, ?_⟩
    rw [map_nil, append_nil]
    exact holds
  | cons doc docs ih =>
    obtain ⟨next, step, nextIndented, nextHolds⟩ := section_run included indented holds (blanks doc (mem_cons_self ..))
    obtain ⟨last, run, finished⟩ := ih nextIndented nextHolds fun other member =>
      blanks other (mem_cons_of_mem _ member)
    refine ⟨last, ?_, ?_⟩
    · rw [flatMap_cons, foldlM_append, step]
      exact run
    · simpa using finished

theorem docs_refused (indented : r.Indented indent) (holds : r.cf.Holds secs) {docs : List DocSection}
    (noBlanks : ¬Blanks docs) : (docs.flatMap (·.lines indent)).foldlM (readStep included) r = none := by
  induction docs generalizing r secs with
  | nil => exact absurd (fun _ member => absurd member not_mem_nil) noBlanks
  | cons doc docs ih =>
    rw [flatMap_cons, foldlM_append]
    by_cases blank : ∀ group ∈ doc.groups, space ∈ group.name.text
    · obtain ⟨next, step, nextIndented, nextHolds⟩ := section_run included indented holds blank
      rw [step]
      apply ih nextIndented nextHolds
      intro later
      apply noBlanks
      intro other member
      rcases mem_cons.mp member with rfl | member
      · exact blank
      · exact later other member
    · push Not at blank
      rw [section_refused included indented holds blank]
      rfl

variable {docs : List DocSection} {lines : List Text}

theorem lines_content (r : Reader) :
    lines.foldlM (readStep included) r = (lines.filter (!isFiller ·)).foldlM (readStep included) r := by
  induction lines generalizing r with
  | nil => rfl
  | cons line lines ih =>
    rw [foldlM_cons]
    cases filler : isFiller line with
    | true =>
      rw [readStep_filler included filler, filter_cons_of_neg (by simp [filler])]
      exact ih r
    | false =>
      rw [filter_cons_of_pos (by simp [filler]), foldlM_cons]
      exact bind_congr ih

theorem create_clean (writes : Writes indent docs lines) (oneLine : ∀ line ∈ lines, newline ∉ line)
    (sections : List Section) : (create included (fileOf lines)).map (·.sections) = some sections ↔
      Blanks docs ∧ (∀ line ∈ lines, Fits line) ∧ sections = mergeServices (docs.map (·.read readType)) := by
  have clean : ∀ line ∈ lines, newline ∉ line ∧ 0 ∉ line := fun line member =>
    ⟨oneLine line member, writes.noZero line member⟩
  have holds : (Reader.start .create).cf.Holds [] := ⟨rfl, rfl⟩
  rw [create_fileOf included clean]
  by_cases fit : ∀ line ∈ lines, Fits line
  · rw [lines_fit included _ fit, lines_content, writes.content]
    by_cases blanks : Blanks docs
    · have indented : (Reader.start .create).Indented indent := .inl rfl
      obtain ⟨last, run, finished⟩ := docs_run included indented holds blanks
      have result := finished.sections
      rw [nil_append] at result
      rw [run]
      simp only [map_some, Option.some.injEq, result, blanks, true_and]
      constructor
      · intro same
        exact ⟨fit, same.symm⟩
      · intro same
        exact same.2.symm
    · rw [docs_refused included (.inl rfl) holds blanks]
      constructor
      · intro impossible
        cases impossible
      · intro both
        exact absurd both.1 blanks
  · have long : ∃ line ∈ lines, ¬Fits line := by
      push Not at fit
      exact fit
    rw [lines_tooLong included _ long]
    constructor
    · intro impossible
      cases impossible
    · intro both
      exact absurd both.2.1 fit

theorem mergeServices_meant : mergeServices (docs.map (·.read readType)) = meant docs ↔
    ∀ doc ∈ docs, ¬Abbreviates doc.name.text := by
  have agree (doc : DocSection) : readType doc.name.text = keywordType doc.name.text ↔ ¬Abbreviates doc.name.text :=
    getSectionType_eq_iff doc.name.noZero _
  constructor
  · intro same doc member short
    have others := congrArg (List.filter (·.type = .other)) same
    unfold meant at others
    rw [mergeServices_other_filter, mergeServices_other_filter] at others
    have counts := congrArg List.length others
    rw [← countP_eq_length_filter, ← countP_eq_length_filter, countP_map, countP_map] at counts
    have weaker : ∀ doc ∈ docs, decide (readType doc.name.text = .other) → decide (keywordType doc.name.text = .other) := by
      intro other _ unknown
      rw [decide_eq_true_eq] at unknown ⊢
      by_cases otherShort : Abbreviates other.name.text
      · exact (getSectionType_abbreviated other.name.noZero otherShort [closeBracket]).2
      · exact ((agree other).mpr otherShort).symm.trans unknown
    obtain ⟨known, unknown⟩ := getSectionType_abbreviated doc.name.noZero short [closeBracket]
    have narrow := countP_agree weaker counts doc member (decide_eq_true unknown)
    exact known (of_decide_eq_true narrow)
  · intro whole
    have same : ∀ doc ∈ docs, DocSection.read readType doc = doc.read keywordType := by
      intro doc member
      unfold DocSection.read
      rw [(agree doc).mpr (whole doc member)]
    unfold meant
    rw [map_congr_left same]

/-- A configuration that was written is read as it was meant exactly when its names are plain and its lines fit. -/
theorem create_written_iff (writes : Writes indent docs lines) :
    (create included (fileOf lines)).map (·.sections) = some (meant docs) ↔
      (∀ doc ∈ docs, Plain doc) ∧ ∀ line ∈ lines, Fits line := by
  constructor
  · intro result
    have oneLine : ∀ line ∈ lines, newline ∉ line := by
      intro line member broken
      rw [create_broken included writes member broken] at result
      cases result
    obtain ⟨blanks, fit, same⟩ := (create_clean included writes oneLine (meant docs)).mp result
    have whole := mergeServices_meant.mp same.symm
    refine ⟨?_, fit⟩
    intro doc member
    constructor
    · exact whole doc member
    · intro inside
      exact oneLine _ (writes.mem (header_mem member)) (newline_mem_header.mpr inside)
    · intro group groupMember inside
      apply oneLine _ (writes.mem (groupHeader_mem member groupMember))
      exact mem_append_right _ (newline_mem_header.mpr inside)
    · exact blanks doc member
  · rintro ⟨plain, fit⟩
    have oneLine : ∀ line ∈ lines, newline ∉ line := by
      intro line member broken
      cases filler : isFiller line with
      | true => exact (writes.fillers line member filler).1 broken
      | false =>
        obtain ⟨before, name, _, inside, _, doc, docMember, own | ⟨group, groupMember, own⟩⟩ :=
          lineOf_broken (writes.lineOf member filler) broken
        · exact (plain doc docMember).oneLine (own ▸ inside)
        · exact (plain doc docMember).groupOneLine group groupMember (own ▸ inside)
    rw [create_clean included writes oneLine]
    refine ⟨fun doc member => (plain doc member).groupBlank, fit, ?_⟩
    exact (mergeServices_meant.mpr fun doc member => (plain doc member).whole).symm

/-! ### Two groups -/

def tabIndent : Indent := ⟨[tab], by decide, forall_mem_of_all (by decide)⟩

theorem ends_of_some {last : Option UInt8} {byte : UInt8} (found : last = some byte) (solid : isSpace byte = false) :
    ∀ other, last = some other → isSpace other = false := by
  intro other same
  rw [found, Option.some.injEq] at same
  exact same ▸ solid

def nameKey : Key := ⟨ofString "Name", by decide, forall_mem_of_all (by decide), by decide, by decide, by decide⟩

def tailValue : Value :=
  ⟨ofString "tail", by decide, ends_of_some rfl (by decide), ends_of_some rfl (by decide), by decide, by decide⟩

def inputWith (group : Name) : DocSection where
  name := ⟨ofString "INPUT", by decide, by decide, by decide⟩
  pairs := [(nameKey, tailValue)]
  groups := [⟨group, [(nameKey, tailValue)]⟩]

def inputLines (group : Name) : List Text := ofString "# tail" :: (inputWith group).lines tabIndent

theorem inputLines_write (group : Name) : Writes tabIndent [inputWith group] (inputLines group) := by
  constructor
  · rfl
  · intro line member filler
    unfold inputLines at member
    rcases mem_cons.mp member with rfl | inside
    · decide
    · simp [inputWith, nameKey, tailValue, DocSection.lines, DocGroup.lines, header, tabIndent, pairText] at inside
      rcases inside with rfl | rfl | rfl | rfl <;> cases filler

def numbered : Name := ⟨ofString "GROUP 1", by decide, by decide, by decide⟩

/-- A group with a blank in its name is read as it was written. -/
theorem numbered_read :
    (create (fun _ _ => none) (fileOf (inputLines numbered))).map (·.sections) = some (meant [inputWith numbered]) := by
  apply (create_written_iff (fun _ _ => none) (inputLines_write numbered)).mpr
  constructor
  · intro doc member
    obtain rfl := mem_singleton.mp member
    constructor
    · unfold Abbreviates
      decide
    · decide
    · decide
    · decide
  · decide

def headers : Name := ⟨ofString "headers", by decide, by decide, by decide⟩

/-- A group without a blank in its name makes the reader refuse the file. -/
theorem headers_refused :
    (create (fun _ _ => none) (fileOf (inputLines headers))).map (·.sections) ≠ some (meant [inputWith headers]) := by
  intro read
  have oneLine : ∀ line ∈ inputLines headers, newline ∉ line := by decide
  obtain ⟨blanks, _⟩ := (create_clean (fun _ _ => none) (inputLines_write headers) oneLine _).mp read
  have blank := blanks (inputWith headers) (mem_singleton_self _) ⟨headers, _⟩ (mem_singleton_self _)
  exact absurd blank (by decide)

end FluentBit.ConfigFormat
