import FluentBit.Foundation.CString
import FluentBit.Foundation.Tokens

/-! Lines cut at a separator, after `src/flb_utils.c`. A pointer into the line is what the line has
from there on; the zero byte that ends it is the end of the list. -/

set_option autoImplicit false

namespace FluentBit.Strings

/-- `struct flb_split_entry`. What is left of a line has no `last_pos`. -/
structure SplitEntry where
  value : Bytes
  len : Nat
  lastPos : Option Nat
deriving DecidableEq

/-- `quoted_string_len`, behind the quote: nothing if the line ends before the quote does. -/
def quotedStringLen (quote : UInt8) : Bytes → Option Nat
  | [] => none
  | [c] => if c = quote then some 0 else none
  | c :: next :: str =>
    if c = Ascii.backslash then
      if next = quote ∨ next = Ascii.backslash then (quotedStringLen quote str).map (· + 1)
      else (quotedStringLen quote (next :: str)).map (· + 1)
    else if c = quote then some 0
    else (quotedStringLen quote (next :: str)).map (· + 1)

def copyQuoted (quote : UInt8) : Nat → Bytes → Bytes × Bytes
  | 0, tokenIn => ([], tokenIn)
  | _ + 1, [] => ([], [])
  | len + 1, [c] =>
    let (token, left) := copyQuoted quote len []
    (c :: token, left)
  | len + 1, c :: next :: tokenIn =>
    if c = Ascii.backslash ∧ (next = quote ∨ next = Ascii.backslash) then
      let (token, left) := copyQuoted quote len tokenIn
      (next :: token, left)
    else
      let (token, left) := copyQuoted quote len (next :: tokenIn)
      (c :: token, left)

/-- `next_token`: the token, and how far it goes; nothing for `-1`. -/
def nextToken (str : Bytes) (separator : UInt8) (parseQuotes : Bool) : Option (Bytes × Nat) :=
  -- leading separators are skipped
  let tokenIn := str.dropWhile (· = separator)
  let skipped := str.length - tokenIn.length
  let plain : Bytes × Nat :=
    let len := match tokenIn.findIdx? (· = separator) with
      | some nextSeparator => if 0 < nextSeparator then nextSeparator else tokenIn.length
      | none => tokenIn.length
    (tokenIn.take len, skipped + len)
  match tokenIn with
  | [] => some plain
  | quote :: rest =>
    if parseQuotes = false ∨ (quote ≠ Ascii.quote ∧ quote ≠ Ascii.letter '\'') then some plain
    else
      (quotedStringLen quote rest).map fun len =>
        let (token, left) := copyQuoted quote len rest
        (token, str.length - left.length)

/-- The loop of `split`, from a position on, with the number of tokens so far; each pass moves the
position. -/
def splitFrom (line : Bytes) (separator : UInt8) (maxSplit : Int) (quoted : Bool) :
    Nat → Nat → Nat → Option (List SplitEntry)
  | 0, _, _ => some []
  | fuel + 1, i, count =>
    if i < line.length then
      match nextToken (line.drop i) separator quoted with
      | none => none
      | some (value, stop) =>
        let entry : SplitEntry := { value, len := value.length, lastPos := some (i + stop) }
        -- the separator behind the token, or the quote that ends it, is passed over
        let next := i + stop + 1
        if maxSplit ≤ (count + 1 : Nat) ∧ 0 < maxSplit ∧ next < line.length then
          some [entry, { value := line.drop next, len := line.length - next, lastPos := none }]
        else (splitFrom line separator maxSplit quoted fuel next (count + 1)).map (entry :: ·)
    else some []

/-- `split`: nothing for `NULL`. -/
def split (line : Bytes) (separator : UInt8) (maxSplit : Int) (quoted : Bool) : Option (List SplitEntry) :=
  splitFrom (CString.text line) separator maxSplit quoted (CString.text line).length 0 0

def utilsSplitQuoted (line : Bytes) (separator : UInt8) (maxSplit : Int) : Option (List SplitEntry) :=
  split line separator maxSplit true

def utilsSplit (line : Bytes) (separator : UInt8) (maxSplit : Int) : Option (List SplitEntry) :=
  split line separator maxSplit false

def tokens (result : Option (List SplitEntry)) : Option (List Bytes) := result.map (List.map SplitEntry.value)

/-! The tokens of a line without quotes: its runs, cut behind some of them. A line that goes on with
separators only has one more token, which is empty. -/

open List
open Tokens

variable {separator : UInt8} {run line left : Bytes}

def restToken (rest : Bytes) : List Bytes := if rest = [] then [] else [rest]

def cutTokens (separator : UInt8) (maxSplit : Int) (line : Bytes) : List Bytes :=
  if 0 < maxSplit then
    (runs separator line).take maxSplit.toNat ++ restToken (behind separator maxSplit.toNat line)
  else runs separator line

theorem nextToken_plain (str : Bytes) {tokenIn : Bytes} (front : str.dropWhile (· = separator) = tokenIn) {len : Nat}
    (length : (match tokenIn.findIdx? (· = separator) with
      | some nextSeparator => if 0 < nextSeparator then nextSeparator else tokenIn.length
      | none => tokenIn.length) = len) :
    nextToken str separator false = some (tokenIn.take len, str.length - tokenIn.length + len) := by
  subst front length
  rw [nextToken]
  generalize str.dropWhile (· = separator) = tokenIn
  cases tokenIn with
  | nil => rfl
  | cons symbol rest => exact if_pos (.inl rfl)

theorem findIdx_absent (inside : separator ∉ run) : run.findIdx? (· = separator) = none := by
  rw [List.findIdx?_eq_none_iff]
  intro symbol member
  have other : symbol ≠ separator := fun same => inside (same ▸ member)
  simpa using other

theorem findIdx_run (inside : separator ∉ run) :
    (run ++ separator :: line).findIdx? (· = separator) = some run.length := by
  rw [List.findIdx?_append, findIdx_absent inside, List.findIdx?_cons]
  simp

theorem nextToken_blank (gap : Nat) : nextToken (spaced separator gap []) separator false = some ([], gap) := by
  rw [nextToken_plain _ (dropWhile_spaced gap (by simp)) rfl]
  simp [spaced]

theorem nextToken_last (gap : Nat) (nonempty : run ≠ []) (inside : separator ∉ run) :
    nextToken (spaced separator gap run) separator false = some (run, gap + run.length) := by
  have front := head_ne_of_run nonempty inside []
  rw [append_nil] at front
  rw [nextToken_plain _ (dropWhile_spaced gap front) (by rw [findIdx_absent inside]), take_length]
  simp [spaced]

theorem nextToken_more (gap : Nat) (nonempty : run ≠ []) (inside : separator ∉ run) :
    nextToken (spaced separator gap (run ++ separator :: line)) separator false = some (run, gap + run.length) := by
  have front := head_ne_of_run nonempty inside (separator :: line)
  have length : (match (run ++ separator :: line).findIdx? (· = separator) with
      | some nextSeparator => if 0 < nextSeparator then nextSeparator else (run ++ separator :: line).length
      | none => (run ++ separator :: line).length) = run.length := by
    rw [findIdx_run inside]
    exact if_pos (length_pos_iff.mpr nonempty)
  rw [nextToken_plain _ (dropWhile_spaced gap front) length, take_left]
  simp [spaced]

/-! ### The loop -/

def plainTokens (separator : UInt8) (maxSplit : Int) (more : Nat) (left : Bytes) : List Bytes :=
  if 0 < maxSplit ∧ more ≤ (runs separator left).length then
    (runs separator left).take more ++ restToken (behind separator more left)
  else
    runs separator left ++ if behind separator (runs separator left).length left = [] then [] else [[]]

variable {maxSplit : Int}
variable {more i fuel count : Nat}

section

variable (due : 0 < maxSplit → 0 < more) (gap : Nat)
include due gap

theorem plainTokens_blank :
    plainTokens separator maxSplit more (spaced separator gap []) = if gap = 0 then [] else [[]] := by
  have uncut : ¬ (0 < maxSplit ∧ more ≤ 0) := fun both => Nat.not_lt_of_le both.2 (due both.1)
  rw [plainTokens, runs_spaced, runs_nil, length_nil, if_neg uncut, behind]
  simp [spaced]

theorem plainTokens_last (nonempty : run ≠ []) (inside : separator ∉ run) :
    plainTokens separator maxSplit more (spaced separator gap run) = [run] := by
  rw [plainTokens, runs_spaced, runs_run nonempty inside, length_singleton]
  split
  next both =>
    obtain rfl : more = 1 := by
      have positive := due both.1
      omega
    rw [behind, behindRun_last gap nonempty inside, behind]
    rfl
  · rw [behind, behindRun_last gap nonempty inside, behind]
    rfl

theorem plainTokens_more (nonempty : run ≠ []) (inside : separator ∉ run) (line : Bytes) :
    plainTokens separator maxSplit more (spaced separator gap (run ++ separator :: line)) =
      if 0 < maxSplit ∧ more = 1 then run :: restToken line else run :: plainTokens separator maxSplit (more - 1) line := by
  rw [plainTokens, runs_spaced, runs_more nonempty inside, length_cons]
  by_cases limited : 0 < maxSplit
  · obtain ⟨others, rfl⟩ := Nat.exists_eq_add_one_of_ne_zero (Nat.ne_of_gt (due limited))
    rw [plainTokens, behind, behindRun_more gap nonempty inside, behind, behindRun_more gap nonempty inside]
    cases others with
    | zero =>
      rw [if_pos ⟨limited, by omega⟩, if_pos ⟨limited, rfl⟩]
      rfl
    | succ others =>
      rw [if_neg (by omega : ¬ (0 < maxSplit ∧ others + 1 + 1 = 1))]
      simp only [limited, true_and, Nat.add_le_add_iff_right, Nat.add_sub_cancel, take_succ_cons]
      split
      · rfl
      · rfl
  · rw [plainTokens]
    simp [limited, behind, behindRun_more gap nonempty inside]

end

theorem drop_next (here : line.drop i = left) (stop : Nat) : line.drop (i + stop + 1) = left.drop (stop + 1) := by
  rw [← here, drop_drop, Nat.add_assoc]

theorem lt_length_iff (here : line.drop i = left) : i < line.length ↔ left ≠ [] := by
  rw [← here, ne_eq, drop_eq_nil_iff, Nat.not_le]

theorem splitFrom_ended (quoted : Bool) (here : line.drop i = []) :
    splitFrom line separator maxSplit quoted fuel i count = some [] := by
  cases fuel with
  | zero => rfl
  | succ fuel =>
    rw [splitFrom, if_neg]
    exact fun inside => (lt_length_iff here).mp inside rfl

theorem splitFrom_pass {stop : Nat} {quoted : Bool} {value : Bytes} (here : line.drop i = left)
    (goesOn : left ≠ []) (token : nextToken left separator quoted = some (value, stop)) {next : Bytes}
    (behindToken : left.drop (stop + 1) = next) : tokens (splitFrom line separator maxSplit quoted (fuel + 1) i count) =
      if maxSplit ≤ (count + 1 : Nat) ∧ 0 < maxSplit ∧ next ≠ [] then some [value, next]
      else (tokens (splitFrom line separator maxSplit quoted fuel (i + stop + 1) (count + 1))).map (value :: ·) := by
  have place : line.drop (i + stop + 1) = next := (drop_next here stop).trans behindToken
  rw [splitFrom, if_pos ((lt_length_iff here).mpr goesOn), here, token]
  simp only [lt_length_iff place, place]
  split
  · rfl
  · cases splitFrom line separator maxSplit quoted fuel (i + stop + 1) (count + 1) with
    | none => rfl
    | some later => rfl

theorem drop_run (gap : Nat) (run line : Bytes) :
    (spaced separator gap (run ++ separator :: line)).drop (gap + run.length + 1) = line := by
  have length : (spaced separator gap run).length = gap + run.length := by simp [spaced]
  have parts : spaced separator gap (run ++ separator :: line) = spaced separator gap run ++ separator :: line := by
    simp [spaced]
  rw [parts, ← length, ← drop_drop, drop_left, drop_one, tail_cons]

theorem splitFrom_plain (shape : Shape separator left) {fuel i count : Nat} (here : line.drop i = left)
    (enough : left.length ≤ fuel) (below : 0 < maxSplit → (count : Int) < maxSplit) :
    tokens (splitFrom line separator maxSplit false fuel i count) =
      some (plainTokens separator maxSplit (maxSplit - count).toNat left) := by
  have due : 0 < maxSplit → 0 < (maxSplit - count).toNat := by
    intro limited
    have := below limited
    omega
  induction shape generalizing fuel i count with
  | blank gap =>
    rw [plainTokens_blank due]
    cases gap with
    | zero =>
      rw [splitFrom_ended false here]
      rfl
    | succ gap =>
      cases fuel with
      | zero => simp [spaced] at enough
      | succ fuel =>
        have passed : (spaced separator (gap + 1) []).drop (gap + 1 + 1) = [] := by simp [spaced]
        rw [splitFrom_pass here (by simp [spaced]) (nextToken_blank (gap + 1)) passed, if_neg (by simp),
          splitFrom_ended false ((drop_next here (gap + 1)).trans passed)]
        rfl
  | @last gap run nonempty inside =>
    have positive := length_pos_iff.mpr nonempty
    have length : (spaced separator gap run).length = gap + run.length := by simp [spaced]
    rw [plainTokens_last due gap nonempty inside]
    cases fuel with
    | zero => omega
    | succ fuel =>
      have passed : (spaced separator gap run).drop (gap + run.length + 1) = [] := by
        rw [drop_eq_nil_iff]
        omega
      have goesOn : spaced separator gap run ≠ [] := by
        intro empty
        rw [empty, length_nil] at length
        omega
      rw [splitFrom_pass here goesOn (nextToken_last gap nonempty inside) passed, if_neg (by simp),
        splitFrom_ended false ((drop_next here _).trans passed)]
      rfl
  | @more gap run later nonempty inside rest ih =>
    have length : (spaced separator gap (run ++ separator :: later)).length = gap + (run.length + (later.length + 1)) := by
      simp [spaced]
    have goesOn : spaced separator gap (run ++ separator :: later) ≠ [] := by
      intro empty
      rw [empty, length_nil] at length
      omega
    have passed := @drop_run separator gap run later
    have spec := plainTokens_more due gap nonempty inside later
    cases fuel with
    | zero => omega
    | succ fuel =>
      rw [splitFrom_pass here goesOn (nextToken_more gap nonempty inside) passed]
      by_cases limited : 0 < maxSplit
      · have before := below limited
        by_cases final : maxSplit ≤ (count + 1 : Nat)
        · have one : (maxSplit - count).toNat = 1 := by omega
          rw [if_pos ⟨limited, one⟩] at spec
          rw [spec]
          by_cases empty : later = []
          · subst empty
            rw [if_neg (by simp), splitFrom_ended false ((drop_next here _).trans passed)]
            rfl
          · rw [if_pos ⟨final, limited, empty⟩, restToken, if_neg empty]
        · have others : (maxSplit - count).toNat - 1 = (maxSplit - (count + 1 : Nat)).toNat := by omega
          rw [if_neg (by omega), others] at spec
          rw [spec, if_neg (fun both => final both.1),
            ih ((drop_next here _).trans passed) (by omega) (by omega) (by omega)]
          rfl
      · rw [if_neg (fun both => limited both.1)] at spec
        rw [spec, if_neg (fun both => limited both.2.1),
          ih ((drop_next here _).trans passed) (by omega) (fun positive => absurd positive limited)
            (fun positive => absurd positive limited)]
        simp [plainTokens, limited]

theorem utilsSplit_tokens (nulFree : 0 ∉ line) :
    tokens (utilsSplit line separator maxSplit) = some (plainTokens separator maxSplit maxSplit.toNat line) := by
  have whole := @splitFrom_plain separator line line maxSplit (shape separator line) line.length 0 0 rfl (Nat.le_refl _)
    (fun limited => limited)
  rw [Int.natCast_zero, Int.sub_zero] at whole
  rw [utilsSplit, split, CString.text_eq_self nulFree]
  exact whole

/-- The runs of a line are its tokens, cut where they have to be, and none is empty, if and only if
the line is cut or it has no separators at its end but the one that ends its last run. -/
theorem utilsSplit_runs_iff {line : Bytes} (nulFree : 0 ∉ line) (separator : UInt8) (maxSplit : Int) :
    (tokens (utilsSplit line separator maxSplit) = some (cutTokens separator maxSplit line) ∧
      ∀ found ∈ tokens (utilsSplit line separator maxSplit), ∀ token ∈ found, token ≠ []) ↔
      (0 < maxSplit ∧ maxSplit ≤ (runs separator line).length) ∨
        (¬ [separator, separator] <:+ line ∧ line ≠ [separator]) := by
  rw [utilsSplit_tokens nulFree, ← behind_runs_iff]
  by_cases cut : 0 < maxSplit ∧ maxSplit ≤ (runs separator line).length
  · have cutThere : maxSplit.toNat ≤ (runs separator line).length := by omega
    rw [plainTokens, if_pos ⟨cut.1, cutThere⟩, cutTokens, if_pos cut.1]
    refine iff_of_true ⟨rfl, ?_⟩ (.inl cut)
    intro found same token member
    cases same
    rcases mem_append.mp member with isRun | isRest
    · exact ne_nil_of_mem_runs (mem_of_mem_take isRun)
    · rw [restToken] at isRest
      split at isRest
      · cases isRest
      next nonempty => exact mem_singleton.mp isRest ▸ nonempty
  · have uncut : ¬ (0 < maxSplit ∧ maxSplit.toNat ≤ (runs separator line).length) := by omega
    have whole : cutTokens separator maxSplit line = runs separator line := by
      rw [cutTokens]
      split
      next limited =>
        have all : (runs separator line).length < maxSplit.toNat := by omega
        rw [behind_all all, take_of_length_le (Nat.le_of_lt all)]
        exact append_nil _
      · rfl
    rw [plainTokens, if_neg uncut, whole, or_iff_right cut]
    by_cases clean : behind separator (runs separator line).length line = []
    · rw [if_pos clean, append_nil]
      refine iff_of_true ⟨rfl, ?_⟩ clean
      intro found same token member
      cases same
      exact ne_nil_of_mem_runs member
    · rw [if_neg clean]
      refine iff_of_false ?_ clean
      intro both
      exact both.2 _ rfl [] (by simp) rfl

/-- A line that ends in two separators has an empty token. -/
theorem trailing_separators_empty_token :
    tokens (utilsSplit (Ascii.ofString "a,,") Ascii.comma (-1)) = some [Ascii.ofString "a", []] ∧
      cutTokens Ascii.comma (-1) (Ascii.ofString "a,,") = [Ascii.ofString "a"] := by
  decide

/-- The condition is met by an ordinary line. -/
theorem utilsSplit_runs_pair :
    tokens (utilsSplit (Ascii.ofString "aa,bb") Ascii.comma 2) = some (cutTokens Ascii.comma 2 (Ascii.ofString "aa,bb")) :=
  ((utilsSplit_runs_iff (by decide) Ascii.comma 2).mpr (.inr (by decide))).1

/-! Tokens in quotes come back from a line in which they are joined by a separator. -/

variable {separator : UInt8} {token more line : Bytes} {maxSplit : Int}

def escapeQuoted (c : UInt8) : Bytes :=
  if c = Ascii.quote ∨ c = Ascii.backslash then [Ascii.backslash, c] else [c]

def quoteToken (token : Bytes) : Bytes := Ascii.quote :: (token.flatMap escapeQuoted ++ [Ascii.quote])

def joinTokens (separator : UInt8) (list : List Bytes) : Bytes :=
  [separator].intercalate (list.map quoteToken)

/-! ### One token -/

theorem quotedStringLen_close : quotedStringLen Ascii.quote (Ascii.quote :: more) = some 0 := by
  cases more with
  | nil => rfl
  | cons next more => rfl

variable {c : UInt8}

theorem quotedStringLen_plain (notQuote : c ≠ Ascii.quote) (notBackslash : c ≠ Ascii.backslash) (str : Bytes) :
    quotedStringLen Ascii.quote (c :: str) = (quotedStringLen Ascii.quote str).map (· + 1) := by
  cases str with
  | nil => exact if_neg notQuote
  | cons next str => rw [quotedStringLen, if_neg notBackslash, if_neg notQuote]

theorem quotedStringLen_escape (special : c = Ascii.quote ∨ c = Ascii.backslash) (str : Bytes) :
    quotedStringLen Ascii.quote (Ascii.backslash :: c :: str) = (quotedStringLen Ascii.quote str).map (· + 1) := by
  rw [quotedStringLen, if_pos rfl, if_pos special]

theorem quotedStringLen_token :
    quotedStringLen Ascii.quote (token.flatMap escapeQuoted ++ Ascii.quote :: more) = some token.length := by
  induction token with
  | nil => exact quotedStringLen_close
  | cons c token ih =>
    rw [flatMap_cons, append_assoc, escapeQuoted]
    split
    next special =>
      rw [cons_append, singleton_append, quotedStringLen_escape special, ih]
      rfl
    next plain =>
      rw [not_or] at plain
      rw [singleton_append, quotedStringLen_plain plain.1 plain.2, ih]
      rfl

theorem copyQuoted_plain (notBackslash : c ≠ Ascii.backslash) (len : Nat) (str : Bytes) :
    copyQuoted Ascii.quote (len + 1) (c :: str) =
      (c :: (copyQuoted Ascii.quote len str).1, (copyQuoted Ascii.quote len str).2) := by
  cases str with
  | nil => rfl
  | cons next str => rw [copyQuoted, if_neg fun both => notBackslash both.1]

theorem copyQuoted_escape (special : c = Ascii.quote ∨ c = Ascii.backslash) (len : Nat) (str : Bytes) :
    copyQuoted Ascii.quote (len + 1) (Ascii.backslash :: c :: str) =
      (c :: (copyQuoted Ascii.quote len str).1, (copyQuoted Ascii.quote len str).2) := by
  rw [copyQuoted, if_pos ⟨rfl, special⟩]

theorem copyQuoted_token : copyQuoted Ascii.quote token.length (token.flatMap escapeQuoted ++ Ascii.quote :: more) =
      (token, Ascii.quote :: more) := by
  induction token with
  | nil => rfl
  | cons c token ih =>
    rw [flatMap_cons, append_assoc, length_cons, escapeQuoted]
    split
    next special => rw [cons_append, singleton_append, copyQuoted_escape special, ih]
    next plain =>
      rw [not_or] at plain
      rw [singleton_append, copyQuoted_plain plain.2, ih]

theorem nextToken_quoted (notQuote : separator ≠ Ascii.quote) (gap : Nat) :
    nextToken (spaced separator gap (quoteToken token ++ more)) separator true =
      some (token, gap + (token.flatMap escapeQuoted).length + 1) := by
  have shape : quoteToken token ++ more = Ascii.quote :: (token.flatMap escapeQuoted ++ Ascii.quote :: more) := by
    simp [quoteToken]
  have front : ∀ symbol ∈ (quoteToken token ++ more).head?, symbol ≠ separator := by
    rw [shape]
    intro symbol member
    cases member
    exact notQuote.symm
  rw [nextToken, dropWhile_spaced gap front, shape]
  simp only [quotedStringLen_token, copyQuoted_token, Option.map_some]
  rw [if_neg (by simp)]
  congr 2
  simp only [spaced, length_append, length_replicate, length_cons]
  omega

theorem drop_quoted (gap : Nat) (token more : Bytes) :
    (spaced separator gap (quoteToken token ++ more)).drop (gap + (token.flatMap escapeQuoted).length + 1 + 1) = more := by
  have parts : spaced separator gap (quoteToken token ++ more) = (List.replicate gap separator ++ quoteToken token) ++ more := by
    simp [spaced]
  have length : (List.replicate gap separator ++ quoteToken token).length =
      gap + (token.flatMap escapeQuoted).length + 1 + 1 := by
    simp only [quoteToken, length_append, length_replicate, length_cons, length_nil]
    omega
  rw [parts, ← length, drop_left]

/-! ### The loop -/

def joinedTail (separator : UInt8) (list : List Bytes) : Bytes :=
  list.flatMap fun token => separator :: quoteToken token

theorem joinTokens_cons (separator : UInt8) (token : Bytes) (list : List Bytes) :
    joinTokens separator (token :: list) = quoteToken token ++ joinedTail separator list := by
  induction list generalizing token with
  | nil => simp [joinTokens, joinedTail, List.intercalate]
  | cons next list ih =>
    have later := ih next
    simp only [joinTokens, joinedTail, List.intercalate, map_cons, flatMap_cons] at later ⊢
    simp [later]

theorem splitFrom_quoted (notQuote : separator ≠ Ascii.quote) (list : List Bytes) {gap fuel i count : Nat}
    (here : line.drop i = spaced separator gap (quoteToken token ++ joinedTail separator list))
    (enough : list.length < fuel) (room : 0 < maxSplit → (count + 1 + list.length : Nat) ≤ maxSplit) :
    tokens (splitFrom line separator maxSplit true fuel i count) = some (token :: list) := by
  induction list generalizing token gap fuel i count with
  | nil =>
    cases fuel with
    | zero => cases enough
    | succ fuel =>
      have goesOn : spaced separator gap (quoteToken token ++ joinedTail separator []) ≠ [] := by
        simp [spaced, quoteToken]
      have behindToken := @drop_quoted separator gap token []
      rw [splitFrom_pass here goesOn (nextToken_quoted notQuote gap) behindToken, if_neg (by simp),
        splitFrom_ended true ((drop_next here _).trans behindToken)]
      rfl
  | cons next list ih =>
    cases fuel with
    | zero => cases enough
    | succ fuel =>
      have goesOn : spaced separator gap (quoteToken token ++ joinedTail separator (next :: list)) ≠ [] := by
        simp [spaced, quoteToken]
      have behindToken := @drop_quoted separator gap token (joinedTail separator (next :: list))
      have uncut : ¬ (maxSplit ≤ (count + 1 : Nat) ∧ 0 < maxSplit ∧ joinedTail separator (next :: list) ≠ []) := by
        rintro ⟨full, limited, _⟩
        have fits := room limited
        rw [length_cons] at fits
        omega
      -- the separator is in front of the next token
      have later : joinedTail separator (next :: list) = spaced separator 1 (quoteToken next ++ joinedTail separator list) := by
        simp [joinedTail, spaced]
      have place := ((drop_next here _).trans behindToken).trans later
      rw [splitFrom_pass here goesOn (nextToken_quoted notQuote gap) behindToken, if_neg uncut,
        ih place (Nat.lt_of_succ_lt_succ enough) (fun limited => by
          have fits := room limited
          rw [length_cons] at fits
          omega)]
      rfl

theorem joinedTail_length (separator : UInt8) (list : List Bytes) :
    list.length ≤ (joinedTail separator list).length := by
  induction list with
  | nil => exact Nat.le_refl _
  | cons token list ih =>
    rw [joinedTail] at ih
    rw [joinedTail, flatMap_cons, length_append, length_cons, length_cons]
    omega

theorem mem_quoteToken {symbol : UInt8} (member : symbol ∈ quoteToken token) :
    symbol = Ascii.quote ∨ symbol = Ascii.backslash ∨ symbol ∈ token := by
  rw [quoteToken, mem_cons, mem_append, mem_flatMap, mem_singleton] at member
  rcases member with isQuote | ⟨c, inToken, escaped⟩ | isQuote
  · exact .inl isQuote
  · rw [escapeQuoted] at escaped
    split at escaped
    · rcases mem_cons.mp escaped with isBackslash | same
      · exact .inr (.inl isBackslash)
      · exact .inr (.inr (mem_singleton.mp same ▸ inToken))
    · exact .inr (.inr (mem_singleton.mp escaped ▸ inToken))
  · exact .inl isQuote

theorem joinTokens_nulFree (notNul : separator ≠ 0) {list : List Bytes} (nulFree : ∀ token ∈ list, 0 ∉ token) :
    0 ∉ joinTokens separator list := by
  have quoted : ∀ token ∈ list, 0 ∉ quoteToken token := by
    intro token member zero
    rcases mem_quoteToken zero with isQuote | isBackslash | inToken
    · exact absurd isQuote (by decide)
    · exact absurd isBackslash (by decide)
    · exact nulFree token member inToken
  cases list with
  | nil => exact not_mem_nil
  | cons first list =>
    rw [joinTokens_cons, mem_append, not_or]
    refine ⟨quoted first (mem_cons_self ..), ?_⟩
    rw [joinedTail, mem_flatMap]
    rintro ⟨token, member, zero⟩
    rcases mem_cons.mp zero with isSeparator | inside
    · exact notNul isSeparator.symm
    · exact quoted token (mem_cons_of_mem _ member) inside

/-- Tokens in quotes come back whatever they hold, if the separator can be told from the quotes and the
line is not cut. -/
theorem splitQuoted_join (notQuote : separator ≠ Ascii.quote) (notNul : separator ≠ 0) {list : List Bytes}
    (nulFree : ∀ token ∈ list, 0 ∉ token) (uncut : maxSplit ≤ 0 ∨ (list.length : Int) ≤ maxSplit) :
    tokens (utilsSplitQuoted (joinTokens separator list) separator maxSplit) = some list := by
  rw [utilsSplitQuoted, split, CString.text_eq_self (joinTokens_nulFree notNul nulFree)]
  cases list with
  | nil => rfl
  | cons token list =>
    have shape := joinTokens_cons separator token list
    have length := joinedTail_length separator list
    have enough : list.length < (joinTokens separator (token :: list)).length := by
      rw [shape, length_append, quoteToken, length_cons]
      omega
    have here : (joinTokens separator (token :: list)).drop 0 =
        spaced separator 0 (quoteToken token ++ joinedTail separator list) := shape
    apply splitFrom_quoted notQuote list here enough
    intro limited
    rw [length_cons] at uncut
    omega

/-- Tokens with a separator, a quote, a backslash, and an empty one. -/
theorem splitQuoted_join_mixed :
    tokens (utilsSplitQuoted (joinTokens Ascii.comma [Ascii.ofString "a,\"", [], Ascii.ofString "\\"]) Ascii.comma 3) =
      some [Ascii.ofString "a,\"", [], Ascii.ofString "\\"] :=
  splitQuoted_join (by decide) (by decide) (by decide) (.inr (by decide))

/-- With the quote for a separator an empty token is lost, and with a limit the rest stays in one piece. -/
theorem splitQuoted_not_always :
    tokens (utilsSplitQuoted (joinTokens Ascii.quote [[], Ascii.ofString "a"]) Ascii.quote (-1)) =
        some [Ascii.ofString "a"] ∧
      tokens (utilsSplitQuoted (joinTokens Ascii.comma [Ascii.ofString "a", Ascii.ofString "b"]) Ascii.comma 1) =
        some [Ascii.ofString "a", Ascii.ofString ",\"b\""] := by
  decide

end FluentBit.Strings
