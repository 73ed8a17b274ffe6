import FluentBit.RecordAccessor.TemplateParsing

/-! The translation of a template is made of its literals and of the values of its placeholders exactly
where each placeholder is recognised and nothing behind it is lost. -/

set_option autoImplicit false

namespace FluentBit.RecordAccessor

open List Option Ascii

def Yields (buf : Bytes) (cursor : Cursor) (parts : List Part) : Prop :=
  ∃ all, parsedFrom buf cursor = some all ∧ all.filter Part.visible = parts

section

variable {buf front literal back : Bytes} {cursor : Cursor}

theorem filter_literalPart : (literalPart literal).filter Part.visible = literalPart literal := by
  unfold literalPart
  split
  · rfl
  · next some => simp [Part.visible, some]

variable {part : Part} {placeholder : Placeholder}

theorem raPlaceholder_visible {i : Nat} {stop : Int} {next : Cursor}
    (placed : raPlaceholder buf i stop = some (part, next)) : part.visible = true := by
  simp only [raPlaceholder] at placed
  split at placed
  · cases placed
    rfl
  split at placed
  · split at placed <;> cases placed <;> rfl
  · obtain ⟨key, -, equal⟩ := map_eq_some_iff.mp placed
    cases equal
    rfl

theorem parsedFrom_inside (plain : dollar ∉ literal) (shape : buf = front ++ (literal ++ back))
    (low : front.length ≤ cursor.i) (high : cursor.i ≤ front.length + literal.length) :
    parsedFrom buf cursor = parsedFrom buf { cursor with i := front.length + literal.length } := by
  have count : (literal.take (cursor.i - front.length)).length = cursor.i - front.length :=
    length_take_of_le (by omega)
  have plainRest : dollar ∉ literal.drop (cursor.i - front.length) := fun member => plain (mem_of_mem_drop member)
  have moved : buf = (front ++ literal.take (cursor.i - front.length)) ++ (literal.drop (cursor.i - front.length) ++ back) := by
    rw [shape, append_assoc, ← append_assoc (literal.take _), take_append_drop]
  rw [parsedFrom_literal plainRest moved (by rw [length_append, count]; omega)]
  congr 2
  simp only [length_append, count, length_drop]
  omega

theorem textBefore_literal :
    textBefore (front ++ (literal ++ back)) front.length (front.length + literal.length) = literalPart literal := by
  have between : ((front ++ (literal ++ back)).take (front.length + literal.length)).drop front.length = literal := by
    rw [drop_take, drop_left, Nat.add_sub_cancel_left, take_left]
  rw [textBefore, between, literalPart]
  cases literal with
  | nil => simp
  | cons byte literal => simp

theorem yields_dollar {tail : Bytes} {more : List Part} (plain : dollar ∉ literal)
    (shape : buf = front ++ (literal ++ dollar :: tail)) (continues : tail ≠ []) (pre : cursor.pre = front.length)
    (low : front.length ≤ cursor.i) (high : cursor.i ≤ front.length + literal.length) :
    Yields buf cursor (literalPart literal ++ part :: more) ↔
      ∃ next, raPlaceholder buf (front.length + literal.length) cursor.stop = some (part, next) ∧
        Yields buf { next with i := next.i + 1 } more := by
  have here : buf[front.length + literal.length]? = some dollar := by simp [shape]
  have inside : front.length + literal.length + 1 < buf.length := by
    have positive := length_pos_iff.mpr continues
    simp only [shape, length_append, length_cons]
    omega
  have before : textBefore buf cursor.pre (front.length + literal.length) = literalPart literal := by
    rw [pre, shape]
    exact textBefore_literal
  have reached : parsedFrom buf cursor = (raPlaceholder buf (front.length + literal.length) cursor.stop).bind
      fun found => (parsedFrom buf { found.2 with i := found.2.i + 1 }).map fun parts =>
        literalPart literal ++ found.1 :: parts := by
    rw [parsedFrom_inside plain shape low high, parsedFrom_dollar here inside, before]
  constructor
  · rintro ⟨all, parsed, visible⟩
    rw [reached] at parsed
    obtain ⟨⟨found, next⟩, placed, later⟩ := bind_eq_some_iff.mp parsed
    obtain ⟨parts, behind, rfl⟩ := map_eq_some_iff.mp later
    rw [filter_append, filter_literalPart, filter_cons_of_pos (raPlaceholder_visible placed)] at visible
    obtain ⟨rfl, rest⟩ := List.cons.inj (append_cancel_left visible)
    exact ⟨next, placed, parts, behind, rest⟩
  · rintro ⟨next, placed, parts, behind, rfl⟩
    refine ⟨literalPart literal ++ part :: parts, ?_, ?_⟩
    · rw [reached, placed, bind_some]
      simp [behind]
    · rw [filter_append, filter_literalPart, filter_cons_of_pos (raPlaceholder_visible placed)]

theorem yields_end {place : Nat} (plain : dollar ∉ literal) (shape : buf = front ++ literal)
    (pre : cursor.pre = front.length) (low : front.length ≤ cursor.i) (furthest : max cursor.i buf.length = place) :
    Yields buf cursor (literalPart literal) ↔
      literal = [] ∨ (cursor.stop < (place : Int) - 1 ∧ cursor.pre < place) ∨ place = 1 := by
  have reached : parsedFrom buf cursor = some (remaining buf { cursor with i := place }) := by
    by_cases past : buf.length ≤ cursor.i
    · rw [parsedFrom_end past, ← furthest, Nat.max_eq_left past]
    · have length : buf.length = front.length + literal.length := by rw [shape, length_append]
      have whole : buf = front ++ (literal ++ []) := by rw [shape, append_nil]
      have final : place = buf.length := by rw [← furthest, Nat.max_eq_right (by omega)]
      rw [parsedFrom_inside plain whole low (by omega), ← length, parsedFrom_end (Nat.le_refl _), final]
  have left : buf.drop cursor.pre = literal := by rw [shape, pre, drop_left]
  have visible : Yields buf cursor (literalPart literal) ↔
      (remaining buf { cursor with i := place }).filter Part.visible = literalPart literal := by
    simp [Yields, reached]
  rw [visible, remaining, left]
  cases literal with
  | nil =>
    simp only [true_or, iff_true]
    split <;> rfl
  | cons byte literal =>
    have literalVisible : [Part.string (byte :: literal)].filter Part.visible = literalPart (byte :: literal) := rfl
    split
    next taken => simp [literalVisible, taken]
    next notTaken => simp [literalPart, notTaken]

theorem yields_last (behind : 1 < front.length) (arrived : Arrived placeholder front.length cursor)
    (plain : dollar ∉ literal) :
    Yields (front ++ literal) cursor (literalPart literal) ↔ placeholder.Kept literal [] := by
  obtain ⟨pre, i, stop⟩ := arrived
  have low : front.length ≤ cursor.i := by
    rw [i]
    cases placeholder <;> simp
  rw [yields_end plain rfl pre low rfl, ← length_eq_zero_iff, length_append, pre]
  cases placeholder with
  | tag | tagPart number =>
    simp only at i stop
    simp only [Placeholder.Kept, implies_true, iff_true]
    omega
  | capture digit =>
    simp only at i stop
    simp only [Placeholder.Kept, iff_true]
    omega
  | key path =>
    simp only at i stop
    simp only [Placeholder.Kept, and_true]
    omega

theorem yields_item {placeholder : Placeholder} {next : Bytes} {items : List Item} (plain : dollar ∉ literal)
    (pre : cursor.pre = front.length) (low : front.length ≤ cursor.i) (high : cursor.i ≤ front.length + literal.length)
    (stops : cursor.stop ≤ front.length + literal.length) (valid : ItemsValid ((placeholder, next) :: items))
    (later : ∀ {place : Bytes} {cursor : Cursor}, 1 < place.length → Arrived placeholder place.length cursor →
      (Yields (place ++ (next ++ itemsText items)) cursor (literalPart next ++ itemsParts items) ↔
        placeholder.Kept next items ∧ ItemsSound items)) :
    Yields (front ++ (literal ++ itemsText ((placeholder, next) :: items))) cursor
        (literalPart literal ++ itemsParts ((placeholder, next) :: items)) ↔
      ItemsSound ((placeholder, next) :: items) := by
  have shape : front ++ (literal ++ itemsText ((placeholder, next) :: items)) =
      (front ++ literal) ++ dollar :: tailText placeholder next items := by
    rw [append_assoc]
    rfl
  have whole : (front ++ literal) ++ dollar :: tailText placeholder next items =
      (front ++ literal ++ dollar :: placeholder.word) ++ (next ++ itemsText items) := by
    simp [tailText]
  have word : placeholder.word ≠ [] := by
    cases placeholder <;> simp [Placeholder.word, tagWord, KeyPath.word]
  have continues : tailText placeholder next items ≠ [] := append_ne_nil_of_left_ne_nil word _
  have length : (front ++ literal).length = front.length + literal.length := length_append
  have recognised := raPlaceholder_part (front ++ literal) next items cursor.stop valid.2.1
  rw [shape, itemsParts, yields_dollar plain (append_assoc ..) continues pre low high, ← length]
  simp only [ItemsSound]
  have arrived {found : Cursor} (placed : raPlaceholder ((front ++ literal) ++ dollar :: tailText placeholder next items)
      (front ++ literal).length cursor.stop = some (placeholder.part, found)) :
      Yields ((front ++ literal) ++ dollar :: tailText placeholder next items) { found with i := found.i + 1 }
        (literalPart next ++ itemsParts items) ↔ placeholder.Kept next items ∧ ItemsSound items := by
    have behind := raPlaceholder_arrived (front ++ literal) next items valid.2.1 (by rw [length]; exact_mod_cast stops) placed
    have place : (front ++ literal).length + 1 + placeholder.word.length =
        (front ++ literal ++ dollar :: placeholder.word).length := by
      simp only [length_append, length_cons]
      omega
    have positive := length_pos_iff.mpr word
    rw [place] at behind
    rw [whole]
    exact later (by rw [← place]; omega) behind
  constructor
  · rintro ⟨found, placed, yields⟩
    exact ⟨recognised.mp ⟨found, placed⟩, (arrived placed).mp yields⟩
  · rintro ⟨readable, rest⟩
    obtain ⟨found, placed⟩ := recognised.mpr readable
    exact ⟨found, placed, (arrived placed).mpr rest⟩

theorem yields_skipped {parts : List Part} (pre : cursor.pre = front.length) (i : cursor.i = front.length + 1)
    (stop : cursor.stop < front.length) : ¬ Yields (front ++ dollar :: back) cursor (placeholder.part :: parts) := by
  rintro ⟨all, parsed, visible⟩
  have first : (front ++ dollar :: back)[cursor.pre]? = some dollar := by simp [pre]
  obtain ⟨text, rest, rfl⟩ := parsedFrom_string (by omega) (by omega) first parsed
  rw [filter_cons_of_pos rfl] at visible
  obtain ⟨equal, -⟩ := List.cons.inj visible
  cases placeholder <;> cases equal

/-- The parts behind a placeholder are the ones of the template exactly where nothing is lost and all that
follows is sound. -/
theorem yields_items (items : List Item) (behind : 1 < front.length)
    (arrived : Arrived placeholder front.length cursor) (valid : ItemsValid ((placeholder, literal) :: items)) :
    Yields (front ++ (literal ++ itemsText items)) cursor (literalPart literal ++ itemsParts items) ↔
      placeholder.Kept literal items ∧ ItemsSound items := by
  induction items generalizing placeholder literal front cursor with
  | nil =>
    simp only [itemsText, itemsParts, append_nil, ItemsSound, and_true]
    exact yields_last behind arrived valid.1
  | cons item items ih =>
    obtain ⟨next, nextLiteral⟩ := item
    obtain ⟨plain, keyValid, itemsValid⟩ := valid
    have onward (low : front.length ≤ cursor.i) (high : cursor.i ≤ front.length + literal.length)
        (stops : cursor.stop ≤ front.length + literal.length) :=
      yields_item plain arrived.pre low high stops itemsValid fun far placed => ih far placed itemsValid
    obtain ⟨pre, i, stop⟩ := arrived
    cases placeholder with
    | capture digit =>
      simp only at i stop
      rw [onward (by omega) (by omega) (by omega)]
      simp [Placeholder.Kept]
    | tag | tagPart number =>
      simp only at i stop
      cases literal with
      | nil =>
        simp only [Placeholder.Kept, reduceCtorEq, imp_false, not_true, false_and, iff_false]
        exact yields_skipped pre i stop
      | cons byte literal =>
        rw [onward (by omega) (by simp only [length_cons]; omega) (by omega)]
        simp [Placeholder.Kept]
    | key path =>
      simp only at i stop
      cases literal with
      | nil => exact absurd ((keyValid path rfl).2 dollar rfl) (by decide)
      | cons byte literal =>
        rw [onward (by omega) (by simp only [length_cons]; omega) (by omega)]
        simp [Placeholder.Kept]

theorem yields_template {template : Template} (valid : template.Valid) :
    Yields template.text { i := 0, pre := 0, stop := 0 } template.parts ↔ template.Sound := by
  obtain ⟨lead, items⟩ := template
  obtain ⟨plain, itemsValid⟩ := valid
  cases items with
  | nil =>
    have ends := @yields_end lead [] lead { i := 0, pre := 0, stop := 0 } lead.length plain rfl rfl (Nat.le_refl 0)
      (Nat.zero_max _)
    simp only [Template.text, Template.parts, Template.Sound, ItemsSound, itemsText, itemsParts, append_nil, ends,
      iff_true, ← length_eq_zero_iff]
    omega
  | cons item items =>
    obtain ⟨placeholder, next⟩ := item
    have starts := @yields_item [] lead { i := 0, pre := 0, stop := 0 } placeholder next items plain rfl (Nat.le_refl 0)
      (Nat.zero_le _) (by simp only; omega) itemsValid fun far placed => yields_items items far placed itemsValid
    exact starts

end

/-! ### Parts of a tag -/

theorem tagParts_cases (tag : Bytes) : (tag.idxOf? dot = none ∧ tagParts tag = [tag]) ∨
      ∃ word later, tag = word ++ dot :: later ∧ dot ∉ word ∧ tagParts tag = word :: tagParts later := by
  by_cases dotted : dot ∈ tag
  · right
    obtain ⟨word, later, rfl, absent⟩ := eq_append_cons_of_mem dotted
    have inside : ∀ byte ∈ word, (byte == dot) = false := by
      intro byte member
      exact beq_false_of_ne (ne_of_mem_of_not_mem member absent)
    refine ⟨word, later, rfl, absent, ?_⟩
    rw [tagParts, Segments.split_segment inside (beq_self_eq_true _), tagParts]
    rfl
  · left
    have inside : ∀ byte ∈ tag, (byte == dot) = false := by
      intro byte member
      exact beq_false_of_ne (ne_of_mem_of_not_mem member dotted)
    rw [tagParts, Segments.split_open inside]
    exact ⟨List.idxOf?_eq_none_iff.mpr dotted, rfl⟩

theorem tagParts_end {tag : Bytes} {i : Nat} (past : tag.length ≤ i) (k : Nat) :
    (tagParts (tag.drop i))[k]?.getD [] = [] := by
  rw [drop_eq_nil_of_le past]
  cases k <;> rfl

theorem drop_behind {tag word behind : Bytes} {i : Nat} (shape : tag.drop i = word ++ dot :: behind) :
    tag.drop (i + word.length + 1) = behind := by
  rw [Nat.add_assoc, ← drop_drop, shape]
  exact Segments.drop_word rfl

theorem tagPartLoop_part {tag : Bytes} {fuel i : Nat} {id : Int} (k : Nat) (enough : tag.length ≤ fuel + i)
    (later : 0 < i) (counted : 0 ≤ id) :
    ∃ found number place, tagPartLoop (id + 1 + k) tag fuel i id = (found, number, place) ∧ 0 ≤ number ∧
      found.getD [] = (tagParts (tag.drop i))[k]?.getD [] := by
  induction fuel generalizing i id k with
  | zero => exact ⟨none, id, i, rfl, counted, (tagParts_end (by omega) k).symm⟩
  | succ fuel ih =>
    rw [tagPartLoop]
    by_cases past : tag.length ≤ i
    · rw [if_pos past]
      exact ⟨none, id, i, rfl, counted, (tagParts_end past k).symm⟩
    rw [if_neg past]
    have onward (k stop : Nat) : ∃ found number place, tagPartLoop (id + 1 + (k + 1 : Nat)) tag fuel (i + stop + 1) (id + 1) =
        (found, number, place) ∧ 0 ≤ number ∧ found.getD [] = (tagParts (tag.drop (i + stop + 1)))[k]?.getD [] := by
      have wanted : id + 1 + ((k + 1 : Nat) : Int) = id + 1 + 1 + k := by omega
      rw [wanted]
      exact ih k (by omega) (by omega) (by omega)
    rcases tagParts_cases (tag.drop i) with ⟨noDot, parts⟩ | ⟨word, behind, shape, absent, parts⟩
    · simp only [noDot, parts, if_neg (Nat.ne_of_gt later)]
      cases k with
      | zero =>
        rw [if_pos (by simp)]
        exact ⟨_, _, _, rfl, by omega, rfl⟩
      | succ k =>
        have rest := onward k (tag.length - i)
        rw [tagParts_end (by omega) k] at rest
        rw [if_neg (by omega)]
        exact rest
    · have found : (tag.drop i).idxOf? dot = some word.length := by rw [shape, idxOf?_word absent]
      simp only [found, parts]
      cases k with
      | zero =>
        rw [if_pos (by simp)]
        exact ⟨_, _, _, rfl, by omega, by simp [shape]⟩
      | succ k =>
        have rest := onward k word.length
        rw [drop_behind shape] at rest
        rw [if_neg (by omega)]
        exact rest

theorem raTranslateTagPart_eq (number : Nat) (tag : Bytes) :
    raTranslateTagPart number tag = (tagParts tag)[number]?.getD [] := by
  cases tag with
  | nil => cases number <;> rfl
  | cons byte tag =>
    rw [raTranslateTagPart, length_cons, tagPartLoop, if_neg (by simp)]
    rcases tagParts_cases (byte :: tag) with ⟨noDot, parts⟩ | ⟨word, behind, shape, absent, parts⟩
    · simp only [drop_zero, noDot, parts, if_true]
      cases number with
      | zero => simp
      | succ number => simp; omega
    · have found : (byte :: tag).idxOf? dot = some word.length := by rw [shape, idxOf?_word absent]
      simp only [drop_zero, found, parts]
      cases number with
      | zero => simp [shape]
      | succ number =>
        obtain ⟨result, last, place, run, counted, value⟩ := @tagPartLoop_part (byte :: tag) tag.length
          (0 + word.length + 1) 0 number (by simp only [length_cons]; omega) (by omega) (by omega)
        have wanted : ((number + 1 : Nat) : Int) = 0 + 1 + number := by omega
        have beyond := @drop_behind (byte :: tag) word behind 0 shape
        rw [beyond] at value
        rw [if_neg (by omega), show (-1 : Int) + 1 = 0 from rfl, wanted, run]
        cases result with
        | some part => simpa using value
        | none =>
          simp only
          rw [if_neg (by omega)]
          simpa using value

variable (source : Source)

theorem translate_part (placeholder : Placeholder) : placeholder.part.translate source = placeholder.value source := by
  cases placeholder with
  | tag => rfl
  | tagPart number => exact raTranslateTagPart_eq number source.tag
  | capture digit => rfl
  | key path => rfl

theorem flbRaTranslate_visible (parts : List Part) :
    flbRaTranslate source parts = flbRaTranslate source (parts.filter Part.visible) := by
  induction parts with
  | nil => rfl
  | cons part parts ih =>
    rw [filter_cons]
    split
    next visible =>
      rw [flbRaTranslate, flatMap_cons, flbRaTranslate, flatMap_cons, ← flbRaTranslate, ih]
      rfl
    next hidden =>
      have nothing : part.translate source = [] := by
        cases part with
        | string text =>
          have empty : text = [] := by simpa [Part.visible] using hidden
          rw [empty]
          rfl
        | keymap key | regexId id | tag | tagPart id => exact absurd rfl hidden
      rw [← ih, flbRaTranslate, flatMap_cons, nothing, nil_append]
      rfl

theorem flbRaTranslate_append (front back : List Part) :
    flbRaTranslate source (front ++ back) = flbRaTranslate source front ++ flbRaTranslate source back :=
  flatMap_append

theorem flbRaTranslate_literal (literal : Bytes) : flbRaTranslate source (literalPart literal) = literal := by
  unfold literalPart
  split
  next empty => rw [empty]; rfl
  · exact append_nil literal

theorem flbRaTranslate_items (items : List Item) :
    flbRaTranslate source (itemsParts items) = itemsValue source items := by
  induction items with
  | nil => rfl
  | cons item items ih =>
    obtain ⟨placeholder, literal⟩ := item
    have first : flbRaTranslate source [placeholder.part] = placeholder.value source := by
      rw [flbRaTranslate, flatMap_singleton, translate_part]
    rw [itemsParts, ← singleton_append, flbRaTranslate_append, flbRaTranslate_append, first, flbRaTranslate_literal, ih,
      itemsValue, append_assoc]

/-- The translation is made of the literals and the values exactly where the template is sound. -/
theorem correct_iff (template : Template) (valid : template.Valid) : template.Correct ↔ template.Sound := by
  rw [← yields_template valid, Template.Correct, Yields, raParseBuffer_eq]
  constructor
  · rintro ⟨parts, parsed, visible, -⟩
    exact ⟨parts, parsed, visible⟩
  · rintro ⟨parts, parsed, visible⟩
    refine ⟨parts, parsed, visible, ?_⟩
    intro source
    rw [flbRaTranslate_visible, visible, Template.parts, flbRaTranslate_append, flbRaTranslate_literal,
      flbRaTranslate_items, Template.value]

/-- `<$TAG[1].$3$a['b.'][12], ` -/
theorem correct_sample : Template.Correct { lead := [0x3c], items := [(.tagPart 1, [dot]), (.capture 3, []),
          (.key { first := 0x61, rest := [], subkeys := [.name [0x62, 0x2e], .index 12] }, [comma, space])] } := by
  apply (correct_iff _ ?_).mpr
  · have one : Json.decimal 1 = [0x31] := by
      norm_num [Json.decimal]
      rfl
    have twelve : Json.decimal 12 = [0x31, 0x32] := by
      norm_num [Json.decimal]
      decide
    refine ⟨?_, by simp [Placeholder.Kept], rfl, trivial, ⟨by decide, ?_⟩, by simp [Placeholder.Kept], trivial⟩
    · rw [Placeholder.Recognised, one]
      decide
    · intro subkey member
      rcases mem_pair.mp member with rfl | rfl
      · exact forall_mem_cons.mpr ⟨by decide, forall_mem_singleton.mpr (by decide)⟩
      · rw [Subkey.Sound, twelve]
        decide
  · refine ⟨by decide, by decide, by simp, by decide, by simp, by decide, ?_, trivial⟩
    rintro path ⟨⟩
    exact ⟨⟨by decide, by simp⟩, by simp [Follows, isSeparator]⟩

/-- In `$TAG$1` the capture stays a text. -/
theorem capture_untranslated : Template.Valid { lead := [], items := [(.tag, []), (.capture 1, [])] } ∧
      ¬ Template.Correct { lead := [], items := [(.tag, []), (.capture 1, [])] } := by
  refine ⟨⟨by simp, by simp [ItemsValid]⟩, ?_⟩
  rintro ⟨parts, parsed, visible, -⟩
  have found : raParseBuffer [0x24, 0x54, 0x41, 0x47, 0x24, 0x31] = some [.tag, .string [0x24, 0x31]] := by decide +kernel
  obtain rfl : [Part.tag, .string [0x24, 0x31]] = parts := Option.some.inj (found.symm.trans parsed)
  exact absurd visible (by decide)

end FluentBit.RecordAccessor
