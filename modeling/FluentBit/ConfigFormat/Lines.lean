import FluentBit.ConfigFormat.Documents

/-! The loop of `read_config` reads a file line by line: a line longer than the buffer makes the buffer
grow, and one that is longer than the limit ends the reading. -/

set_option autoImplicit false

namespace FluentBit.ConfigFormat

open List Nat Ascii

/-! ### The lines that the loop handles -/

/-- The lines that the loop of `read_config` handles, or `none` when one exceeds the limit -/
def handledLines (b : LineBuffer) (file : Bytes) : Option (List Text) :=
  if _ : file ≠ [] then
    let space := b.size - b.held.length - 1
    let chunk := fgets space file
    let buf := b.text chunk.1
    if buf.getLast? = some newline then (handledLines b.emptied chunk.2).map (chomp buf :: ·)
    else if chunk.1.length < space ∧ chunk.1.getLast? ≠ some newline then
      (handledLines b.emptied chunk.2).map (buf :: ·)
    else if lineHardLimit < b.size * 2 then none
    else handledLines (b.doubled chunk.1 (fgets_room _ _)) chunk.2
  else some []
termination_by file.length
decreasing_by
  all_goals
    have room := b.room
    exact fgets_shorter (by omega) ‹file ≠ []›

variable (included : Cf → Text → Option Cf)

def handle (r : Reader) (line : Text) : Option Reader := (readLine included line r).toOption

theorem line_read {number : Nat} {b : LineBuffer} {left : Text} {lines : Option (List Text)} (line : Text) (r : Reader)
    (rest : ∀ r, (readLoop included number b r left).toOption = lines.bind fun lines => lines.foldlM (handle included) r) :
    (match readLine included line r with
      | .error error => Except.error (ReadError.line number error)
      | .ok r => readLoop included number b r left).toOption =
    (lines.map (line :: ·)).bind fun lines => lines.foldlM (handle included) r := by
  simp only [Option.bind_map, Function.comp_def, foldlM_cons, handle]
  cases readLine included line r with
  | error error => exact (Option.bind_fun_none _).symm
  | ok later => exact rest later

theorem readLoop_eq (number : Nat) (b : LineBuffer) (r : Reader) (file : Bytes) :
    (readLoop included number b r file).toOption =
      (handledLines b file).bind fun lines => lines.foldlM (handle included) r := by
  induction h : file.length using Nat.strong_induction_on generalizing number b r file with
  | h length ih =>
    subst h
    rw [readLoop, handledLines]
    by_cases more : file ≠ []
    · have room := b.room
      have shorter : (fgets (b.size - b.held.length - 1) file).2.length < file.length := fgets_shorter (by omega) more
      have round (line : Text) := line_read included line r fun later =>
        ih _ shorter (number + 1) b.emptied later _ rfl
      simp only [dif_pos more]
      split
      · exact round _
      split
      · exact round _
      split
      · rfl
      · exact ih _ shorter number _ r _ rfl
    · simp only [dif_neg more]
      rfl

/-! ### One line -/

variable {room size limit : Nat}

variable (rest : Text) {line : Text}

theorem fgets_append (oneLine : newline ∉ line) (fits : line.length ≤ room) :
    fgets room (line ++ rest) = (fgets (room - line.length) rest).map (line ++ ·) id := by
  induction line generalizing room with
  | nil => rfl
  | cons byte line ih =>
    obtain ⟨different, oneLine⟩ := not_or.mp (mem_cons.not.mp oneLine)
    obtain ⟨more, rfl⟩ := exists_eq_add_one.mpr ((Nat.zero_le _).trans_lt fits)
    have later := ih oneLine (le_of_succ_le_succ fits)
    simp [fgets, Ne.symm different, later, Prod.map]

theorem fgets_line (oneLine : newline ∉ line) (fits : line.length < room) :
    fgets room (line ++ newline :: rest) = (line ++ [newline], rest) := by
  obtain ⟨more, left⟩ := exists_eq_add_one.mpr (Nat.sub_pos_of_lt fits)
  simp [fgets_append _ oneLine fits.le, left, fgets]

theorem fgets_end (oneLine : newline ∉ line) (fits : line.length < room) : fgets room line = (line, []) := by
  obtain ⟨more, left⟩ := exists_eq_add_one.mpr (Nat.sub_pos_of_lt fits)
  have whole := fgets_append [] oneLine fits.le
  simpa [left, fgets] using whole

theorem fgets_part (oneLine : newline ∉ line) (long : room ≤ line.length) :
    fgets room (line ++ rest) = (line.take room, line.drop room ++ rest) := by
  have part := fgets_append (line.drop room ++ rest) (fun inside => oneLine (mem_of_mem_take inside))
    (length_take_le room line)
  rwa [← append_assoc, take_append_drop, length_take, min_eq_left long, Nat.sub_self, fgets, Prod.map_apply,
    append_nil] at part

def Grown (size : Nat) : Prop := ∃ doublings, doublings ≤ 13 ∧ size = defaultBufSize * 2 ^ doublings

theorem grown_limit : Grown lineHardLimit := ⟨13, Nat.le_refl _, by decide⟩

theorem Grown.le (grown : Grown size) : size ≤ lineHardLimit := by
  obtain ⟨doublings, few, rfl⟩ := grown
  have power : 2 ^ doublings ≤ 2 ^ 13 := Nat.pow_le_pow_right (by decide) few
  unfold defaultBufSize lineHardLimit
  omega

theorem Grown.double (grown : Grown size) (other : Grown limit) (below : size < limit) :
    Grown (size * 2) ∧ size * 2 ≤ limit := by
  obtain ⟨doublings, _, rfl⟩ := grown
  obtain ⟨more, few, rfl⟩ := other
  have fewer : doublings < more := (Nat.pow_lt_pow_iff_right (by decide)).mp (Nat.lt_of_mul_lt_mul_left below)
  rw [Nat.mul_assoc, ← Nat.pow_succ]
  exact ⟨⟨doublings + 1, Nat.le_trans fewer few, rfl⟩, Nat.mul_le_mul_left _ (Nat.pow_le_pow_right (by decide) fewer)⟩

def withoutReturn (line : Text) : Text := if line.getLast? = some carriageReturn then line.dropLast else line

theorem chomp_line : chomp (line ++ [newline]) = withoutReturn line := by
  unfold chomp withoutReturn
  simp

variable {b : LineBuffer}

theorem LineBuffer.text_eq {chunk : Text} (noZero : 0 ∉ b.held ++ chunk) : b.text chunk = b.held ++ chunk :=
  CString.text_eq_self noZero

section

variable (oneLine : newline ∉ b.held ++ line) (noZero : 0 ∉ b.held ++ line)
include oneLine noZero

theorem handledLines_complete (fits : b.held.length + line.length + 1 < b.size) :
    handledLines b (line ++ newline :: rest) =
      (handledLines b.emptied rest).map (withoutReturn (b.held ++ line) :: ·) := by
  have room : line.length < b.size - b.held.length - 1 := by omega
  have inLine : newline ∉ line := fun inside => oneLine (mem_append_right _ inside)
  have text : b.text (line ++ [newline]) = b.held ++ line ++ [newline] := by
    rw [LineBuffer.text, ← append_assoc, CString.text_append noZero]
    rfl
  rw [handledLines, dif_pos (by simp)]
  simp only [fgets_line rest inLine room, text, getLast?_concat, if_true, chomp_line]

theorem handledLines_end (more : line ≠ []) (fits : b.held.length + line.length + 1 < b.size) :
    handledLines b line = some [b.held ++ line] := by
  have room : line.length < b.size - b.held.length - 1 := by omega
  have inLine : newline ∉ line := fun inside => oneLine (mem_append_right _ inside)
  have noEnd {text : Text} (clean : newline ∉ text) : ¬text.getLast? = some newline :=
    fun last => clean (mem_of_getLast? last)
  rw [handledLines, dif_pos more]
  simp only [fgets_end inLine room, b.text_eq noZero, if_neg (noEnd oneLine)]
  rw [if_pos ⟨room, noEnd inLine⟩]
  rw [handledLines, dif_neg (by simp)]
  rfl

theorem handledLines_resize (long : b.size ≤ b.held.length + line.length + 1) :
    ∃ (larger : LineBuffer) (part : Nat), b.size = b.held.length + part + 1 ∧ larger.size = b.size * 2 ∧
      larger.held ++ line.drop part = b.held ++ line ∧ (line.drop part).length < line.length ∧
      handledLines b (line ++ rest) =
        if lineHardLimit < b.size * 2 then none else handledLines larger (line.drop part ++ rest) := by
  have room := b.room
  have part : b.size - b.held.length - 1 ≤ line.length := by omega
  have inLine : newline ∉ line := fun inside => oneLine (mem_append_right _ inside)
  have chunk := fgets_part rest inLine part
  have kept : 0 ∉ b.held ++ line.take (b.size - b.held.length - 1) := by
    intro zero
    apply noZero
    rw [mem_append] at zero ⊢
    exact zero.imp_right mem_of_mem_take
  have noEnd : ¬(b.held ++ line.take (b.size - b.held.length - 1)).getLast? = some newline := by
    intro last
    apply oneLine
    have inside := mem_of_getLast? last
    rw [mem_append] at inside ⊢
    exact inside.imp_right mem_of_mem_take
  have full : ¬(line.take (b.size - b.held.length - 1)).length < b.size - b.held.length - 1 := by
    rw [length_take]
    omega
  have nonempty : line ++ rest ≠ [] := by
    intro empty
    rw [(append_eq_nil_iff.mp empty).1, length_nil] at part
    omega
  refine ⟨b.doubled (line.take (b.size - b.held.length - 1)) (by rw [length_take]; omega),
    b.size - b.held.length - 1, by omega, rfl, ?_, by rw [length_drop]; omega, ?_⟩
  · exact (congrArg (· ++ _) (b.text_eq kept)).trans (by rw [append_assoc, take_append_drop])
  · rw [handledLines, dif_pos nonempty]
    simp only [chunk, b.text_eq kept, if_neg noEnd, full, false_and, if_false]

def Fits (line : Text) : Prop := line.length + 1 < lineHardLimit

instance (line : Text) : Decidable (Fits line) := inferInstanceAs (Decidable (_ < _))

variable (grown : Grown b.size)
include grown

theorem handledLines_line (fits : Fits (b.held ++ line)) : ∃ next : LineBuffer, next.held = [] ∧ Grown next.size ∧
      (∀ limit, Grown limit → (next.size ≤ limit ↔ b.size ≤ limit ∧ (b.held ++ line).length + 1 < limit)) ∧
      handledLines b (line ++ newline :: rest) =
        (handledLines next rest).map (withoutReturn (b.held ++ line) :: ·) := by
  induction h : line.length using Nat.strong_induction_on generalizing line b with
  | h length ih =>
    by_cases enough : b.held.length + line.length + 1 < b.size
    · refine ⟨b.emptied, rfl, grown, fun limit _ => ?_, handledLines_complete rest oneLine noZero enough⟩
      have covers : b.size ≤ limit → b.held.length + line.length + 1 < limit := enough.trans_le
      simpa [LineBuffer.emptied] using covers
    · obtain ⟨larger, part, filled, size, whole, shorter, round⟩ :=
        handledLines_resize (newline :: rest) oneLine noZero (Nat.not_lt.mp enough)
      have long : b.size < (b.held ++ line).length + 2 := by
        rw [length_append]
        omega
      obtain ⟨again, notOver⟩ := grown.double grown_limit (by unfold Fits at fits; omega)
      rw [round, if_neg (Nat.not_lt.mpr notOver)]
      rw [← whole] at oneLine noZero fits long ⊢
      obtain ⟨next, empty, nextGrown, bounds, later⟩ := ih _ (h ▸ shorter) oneLine noZero (size ▸ again) fits rfl
      refine ⟨next, empty, nextGrown, fun limit other => (bounds limit other).trans ?_, later⟩
      refine and_congr_left fun inside => ⟨fun twice => by omega, fun once => ?_⟩
      rw [size]
      exact (grown.double other (by omega)).2

theorem handledLines_long (long : ¬Fits (b.held ++ line)) : handledLines b (line ++ rest) = none := by
  induction h : line.length using Nat.strong_induction_on generalizing line b with
  | h length ih =>
    have notEnough : b.size ≤ b.held.length + line.length + 1 := by
      have most := grown.le
      unfold Fits at long
      rw [length_append] at long
      omega
    obtain ⟨larger, part, filled, size, whole, shorter, round⟩ := handledLines_resize rest oneLine noZero notEnough
    rw [round]
    split
    · rfl
    next notOver =>
      have again := (grown.double grown_limit (by have room := b.room; omega)).1
      rw [← whole] at oneLine noZero long
      exact ih _ (h ▸ shorter) oneLine noZero (size ▸ again) long rfl

/-- The line fills a buffer of this size or of one of its doublings. -/
def Fills (size : Nat) (line : Text) : Prop := Grown (line.length + 1) ∧ size ≤ line.length + 1

theorem handledLines_last (more : line ≠ []) (fits : Fits (b.held ++ line)) :
    Fills b.size (b.held ++ line) ∧ handledLines b line = some [] ∨
      ¬Fills b.size (b.held ++ line) ∧ handledLines b line = some [b.held ++ line] := by
  induction h : line.length using Nat.strong_induction_on generalizing line b with
  | h length ih =>
    by_cases enough : b.held.length + line.length + 1 < b.size
    · refine .inr ⟨fun fills => ?_, handledLines_end oneLine noZero more enough⟩
      have reached := fills.2
      rw [length_append] at reached
      omega
    · obtain ⟨larger, part, filled, size, whole, shorter, round⟩ :=
        handledLines_resize [] oneLine noZero (Nat.not_lt.mp enough)
      have long : b.size < (b.held ++ line).length + 2 := by
        rw [length_append]
        omega
      obtain ⟨again, notOver⟩ := grown.double grown_limit (by unfold Fits at fits; omega)
      rw [append_nil, if_neg (Nat.not_lt.mpr notOver), append_nil] at round
      rw [round]
      by_cases left : line.drop part = []
      · have filled : (b.held ++ line).length + 1 = b.size := by
          have all := drop_eq_nil_iff.mp left
          rw [length_append] at long ⊢
          omega
        rw [left, handledLines, dif_neg (by simp)]
        exact .inl ⟨⟨filled ▸ grown, filled.ge⟩, rfl⟩
      · have below : b.size < (b.held ++ line).length + 1 := by
          have some_left := length_pos_iff.mpr left
          rw [length_drop] at some_left
          rw [length_append]
          omega
        have same : Fills b.size (b.held ++ line) ↔ Fills larger.size (b.held ++ line) := by
          refine and_congr_right fun other => ⟨fun _ => ?_, fun twice => by omega⟩
          rw [size]
          exact (grown.double other below).2
        rw [same]
        rw [← whole] at oneLine noZero fits ⊢
        exact ih _ (h ▸ shorter) oneLine noZero (size ▸ again) left fits rfl

end

/-! ### All lines -/

variable {lines : List Text}

section

variable (grown : Grown b.size) (empty : b.held = []) (clean : ∀ line ∈ lines, newline ∉ line ∧ 0 ∉ line)
include grown empty clean

theorem handledLines_lines (fit : ∀ line ∈ lines, Fits line) : ∃ next : LineBuffer, next.held = [] ∧ Grown next.size ∧
      (∀ limit, Grown limit → (next.size ≤ limit ↔ b.size ≤ limit ∧ ∀ line ∈ lines, line.length + 1 < limit)) ∧
      handledLines b (fileOf lines ++ rest) = (handledLines next rest).map (lines.map withoutReturn ++ ·) := by
  induction lines generalizing b with
  | nil => exact ⟨b, empty, grown, by simp, by simp [fileOf]⟩
  | cons line lines ih =>
    obtain ⟨⟨oneLine, noZero⟩, clean⟩ := forall_mem_cons.mp clean
    obtain ⟨fits, fit⟩ := forall_mem_cons.mp fit
    have whole : b.held ++ line = line := by rw [empty, nil_append]
    rw [← whole] at oneLine noZero fits
    obtain ⟨next, nextEmpty, nextGrown, bounds, round⟩ :=
      handledLines_line (fileOf lines ++ rest) oneLine noZero grown fits
    obtain ⟨last, lastEmpty, lastGrown, lastBounds, later⟩ := ih nextGrown nextEmpty clean fit
    refine ⟨last, lastEmpty, lastGrown, fun limit other => ?_, ?_⟩
    · rw [lastBounds limit other, bounds limit other, whole, forall_mem_cons, and_assoc]
    · have split : fileOf (line :: lines) ++ rest = line ++ newline :: (fileOf lines ++ rest) := by
        simp [fileOf]
      rw [split, round, later, whole, Option.map_map]
      rfl

theorem handledLines_refused (long : ∃ line ∈ lines, ¬Fits line) : handledLines b (fileOf lines ++ rest) = none := by
  induction lines generalizing b with
  | nil => simp at long
  | cons line lines ih =>
    obtain ⟨⟨oneLine, noZero⟩, clean⟩ := forall_mem_cons.mp clean
    have whole : b.held ++ line = line := by rw [empty, nil_append]
    have split : fileOf (line :: lines) ++ rest = line ++ newline :: (fileOf lines ++ rest) := by
      simp [fileOf]
    rw [← whole] at oneLine noZero
    rw [split]
    by_cases fits : Fits line
    · obtain ⟨next, nextEmpty, nextGrown, _, round⟩ :=
        handledLines_line (fileOf lines ++ rest) oneLine noZero grown (whole.symm ▸ fits)
      have later : ∃ line ∈ lines, ¬Fits line := by simpa [fits] using long
      rw [round, ih nextGrown nextEmpty clean later]
      rfl
    · exact handledLines_long _ oneLine noZero grown (whole.symm ▸ fits)

end

theorem default_room : ([] : Text).length + 1 < defaultBufSize := by decide

def LineBuffer.start : LineBuffer := ⟨defaultBufSize, [], default_room⟩

theorem grown_start : Grown LineBuffer.start.size := ⟨0, by decide, rfl⟩

theorem handledLines_nil : handledLines b [] = some [] := by
  rw [handledLines]
  exact dif_neg (not_not.mpr rfl)

/-! ### A file whose last line may have no end -/

def contentLines (lines : List Text) (last : Text) : List Text :=
  (lines ++ if last = [] then [] else [last]).map withoutReturn

theorem fills_iff {last : Text} (most : ∀ size, Grown size → (b.size ≤ size ↔ LineBuffer.start.size ≤ size ∧
      ∀ line ∈ lines, line.length + 1 < size)) :
    Fills b.size last ↔ Grown (last.length + 1) ∧ ∀ line ∈ lines, line.length < last.length := by
  refine and_congr_right fun grown => (most _ grown).trans ?_
  obtain ⟨doublings, _, size⟩ := grown
  have least : LineBuffer.start.size ≤ last.length + 1 := by
    rw [size]
    exact Nat.le_mul_of_pos_right _ (Nat.two_pow_pos _)
  simp [least]

theorem withoutReturn_eq_self_iff {last : Text} : withoutReturn last = last ↔ last.getLast? ≠ some carriageReturn := by
  unfold withoutReturn
  split
  next cut =>
    refine iff_of_false (fun same => ?_) (not_not.mpr cut)
    have length := congrArg List.length same
    have more := length_pos_of_mem (mem_of_getLast? cut)
    rw [length_dropLast] at length
    omega
  next kept => exact iff_of_true rfl kept

/-- The lines handled are those of the file, if and only if each fits, and a last one without its end has no
carriage return there and does not fill the buffer. -/
theorem handledLines_content_iff {last : Text} (clean : ∀ line ∈ lines, newline ∉ line ∧ 0 ∉ line)
    (oneLine : newline ∉ last) (noZero : 0 ∉ last) :
    (∀ included r, (readLoop included 0 .start r (fileOf lines ++ last)).toOption =
      (handledLines .start (fileOf lines ++ last)).bind fun handled => handled.foldlM (handle included) r) ∧
    (handledLines .start (fileOf lines ++ last) = some (contentLines lines last) ↔
      (∀ line ∈ lines, Fits line) ∧ (last = [] ∨ Fits last ∧ last.getLast? ≠ some carriageReturn ∧
        ¬(Grown (last.length + 1) ∧ ∀ line ∈ lines, line.length < last.length))) := by
  refine ⟨fun included r => readLoop_eq included 0 _ r _, ?_⟩
  by_cases fit : ∀ line ∈ lines, Fits line
  · obtain ⟨next, empty, grown, most, run⟩ := handledLines_lines last grown_start rfl clean fit
    rw [run, and_iff_right fit, ← fills_iff most, contentLines, map_append]
    by_cases more : last = []
    · simp [more, handledLines_nil]
    · rw [if_neg more, or_iff_right more]
      have whole : next.held ++ last = last := by rw [empty, nil_append]
      rw [← whole] at oneLine noZero
      by_cases fits : Fits last
      · obtain ⟨fills, lost⟩ | ⟨spare, read⟩ := handledLines_last oneLine noZero grown more (whole.symm ▸ fits)
        · rw [whole] at fills
          simp [lost, fills]
        · rw [whole] at spare
          simp [read, whole, fits, spare, ← withoutReturn_eq_self_iff, eq_comm]
      · have refused := handledLines_long [] oneLine noZero grown (whole.symm ▸ fits)
        rw [append_nil] at refused
        simp [refused, fits]
  · push Not at fit
    rw [handledLines_refused last grown_start rfl clean fit]
    exact iff_of_false nofun fun both => fit.elim fun line long => long.2 (both.1 line long.1)

def twoLines : List Text := [[hash, 97], [hash, 98, 99]]

theorem handledLines_content_short : (∀ included r, (readLoop included 0 .start r (fileOf twoLines ++ [hash])).toOption =
      (handledLines .start (fileOf twoLines ++ [hash])).bind fun handled => handled.foldlM (handle included) r) ∧
    (handledLines .start (fileOf twoLines ++ [hash]) = some (contentLines twoLines [hash]) ↔
      (∀ line ∈ twoLines, Fits line) ∧ ([hash] = [] ∨ Fits [hash] ∧ [hash].getLast? ≠ some carriageReturn ∧
        ¬(Grown ([hash].length + 1) ∧ ∀ line ∈ twoLines, line.length < [hash].length))) :=
  handledLines_content_iff (by decide) (by decide) (by decide)

/-- A comment of 4095 bytes without a line end is not handled. -/
theorem handledLines_content_full : ¬∀ (lines : List Text) (last : Text),
    (∀ line ∈ lines ++ [last], newline ∉ line ∧ 0 ∉ line ∧ line.length ≤ lineHardLimit) →
      handledLines .start (fileOf lines ++ last) = some (contentLines lines last) := by
  intro handled
  obtain ⟨last, length, oneLine, noZero⟩ : ∃ last : Text, last.length = 4095 ∧ newline ∉ last ∧ 0 ∉ last :=
    ⟨replicate 4095 hash, length_replicate, fun inside => absurd (eq_of_mem_replicate inside) (by decide),
      fun inside => absurd (eq_of_mem_replicate inside) (by decide)⟩
  have more : last ≠ [] := ne_nil_of_length_pos (by omega)
  have all := handled [] last (by simp [oneLine, noZero, length, lineHardLimit])
  have fills : Fills LineBuffer.start.size last := ⟨⟨0, by decide, by rw [length]; rfl⟩, by rw [length]; decide⟩
  have fits : Fits last := by simp [Fits, length, lineHardLimit]
  obtain ⟨_, lost⟩ | ⟨spare, _⟩ := handledLines_last (b := .start) oneLine noZero grown_start more fits
  · rw [fileOf, flatMap_nil, nil_append, lost] at all
    simp [contentLines, more] at all
  · exact spare fills

end FluentBit.ConfigFormat
