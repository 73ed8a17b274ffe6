import FluentBit.Foundation.Ascii

/-! The parser of dates and times, after `src/flb_strptime.c`, with the names of the C locale. What
`buf` and `fmt` point to is what they have from there on; the zero byte that ends them is the end of
the list. -/

set_option autoImplicit false

namespace FluentBit.Strptime

open Ascii (letter ofString isDigit isSpace tolower)

/-- `struct flb_tm`, without the names and the daylight saving of its zone. -/
structure Tm where
  sec : Int
  min : Int
  hour : Int
  mday : Int
  mon : Int
  year : Int
  wday : Int
  yday : Int
  gmtoff : Int
deriving DecidableEq

structure Fields where
  mon : Bool := false
  mday : Bool := false
  wday : Bool := false
  yday : Bool := false
  year : Bool := false

structure Scan where
  tm : Tm
  century : Int := 1900
  relyear : Int := -1
  fields : Fields := {}

abbrev Step := Scan → Bytes → Option (Scan × Bytes)

def digit (byte : UInt8) : Nat := byte.toNat - 0x30

/-- The loop of `_conv_num` behind its first digit. -/
def convLoop (ulim : Nat) : Nat → Nat → Bytes → Nat × Bytes
  | result, _, [] => (result, [])
  | result, rulim, c :: buf =>
    if result * 10 ≤ ulim ∧ rulim ≠ 0 ∧ isDigit c = true then
      convLoop ulim (result * 10 + digit c) (rulim / 10) buf
    else (result, c :: buf)

def convNum (llim ulim : Nat) : Bytes → Option (Nat × Bytes)
  | [] => none
  | c :: buf =>
    if isDigit c = true then
      let (result, left) := convLoop ulim (digit c) (ulim / 10) buf
      if result < llim ∨ ulim < result then none else some (result, left)
    else none

/-- `strncasecmp` finds no difference up to the length of the name. -/
def named (name : String) (bp : Bytes) : Bool :=
  (bp.take name.length).map tolower == (ofString name).map tolower

def findName (names : List (String × String)) (bp : Bytes) : Option (Nat × Nat) :=
  names.zipIdx.findSome? fun ((full, short), i) =>
    if named full bp then some (i, full.length) else if named short bp then some (i, short.length) else none

def days : List (String × String) :=
  [("Sunday", "Sun"), ("Monday", "Mon"), ("Tuesday", "Tue"), ("Wednesday", "Wed"), ("Thursday", "Thu"),
    ("Friday", "Fri"), ("Saturday", "Sat")]

def months : List (String × String) :=
  [("January", "Jan"), ("February", "Feb"), ("March", "Mar"), ("April", "Apr"), ("May", "May"), ("June", "Jun"),
    ("July", "Jul"), ("August", "Aug"), ("September", "Sep"), ("October", "Oct"), ("November", "Nov"),
    ("December", "Dec")]

/-- The digits of `%z` behind its sign. -/
def zoneDigits : Bytes → Option (Int × Bytes)
  | a :: b :: bp =>
    if isDigit a = true ∧ isDigit b = true then
      let offs : Int := (digit a * 10 + digit b) * 3600
      let bp := match bp with
        | c :: rest => if c = Ascii.colon then rest else c :: rest
        | [] => []
      match bp with
      | [] => some (offs, [])
      | c :: rest =>
        if isDigit c = true then
          match rest with
          | [] => none
          | d :: rest => if isDigit d = true then some (offs + digit c * 600 + digit d * 60, rest) else none
        else some (offs, c :: rest)
    else none
  | _ => none

/-- The conversion `%z` -/
def zone (bp : Bytes) : Option (Int × Bytes) :=
  let bp := bp.dropWhile isSpace
  if (ofString "GMT").isPrefixOf bp then some (0, bp.drop 3)
  else if (ofString "UT").isPrefixOf bp then some (0, bp.drop 2)
  else
    match bp with
    | [] => none
    | c :: rest =>
      if c = letter 'Z' then some (0, rest)
      else if c = letter '+' then zoneDigits rest
      else if c = letter '-' then (zoneDigits rest).map fun (offs, left) => (-offs, left)
      else if c = letter 'G' ∨ c = letter 'U' then none
      else
        match findName [("EST", "EST"), ("CST", "CST"), ("MST", "MST"), ("PST", "PST")] bp with
        | some (i, len) => some ((-5 - i) * 3600, bp.drop len)
        | none =>
          (findName [("EDT", "EDT"), ("CDT", "CDT"), ("MDT", "MDT"), ("PDT", "PDT")] bp).map fun (i, len) =>
            ((-4 - i) * 3600, bp.drop len)

def number (llim ulim : Nat) (set : Scan → Int → Scan) : Step := fun s bp =>
  (convNum llim ulim bp).map fun (i, bp) => (set s i, bp)

def monthDay : Step :=
  number 1 31 fun s i => { s with tm := { s.tm with mday := i }, fields := { s.fields with mday := true } }

def weekDay (s : Scan) (i : Int) : Scan :=
  { s with tm := { s.tm with wday := i }, fields := { s.fields with wday := true } }

def literal (c : UInt8) : Step := fun s bp =>
  match bp with
  | [] => none
  | b :: bp => if c = b then some (s, bp) else none

/-- A conversion; `nested` is `_flb_strptime` for the formats that stand for others, and `others` are
the conversions of the locale, the seconds since the epoch, the names of time zones and ISO years. -/
def convert (nested : Bytes → Step) (others : UInt8 → Step) (c : UInt8) : Step := fun s bp =>
  if c = letter '%' then literal c s bp
  else if c = letter 'D' then nested (ofString "%m/%d/%y") s bp
  else if c = letter 'F' then nested (ofString "%Y-%m-%d") s bp
  else if c = letter 'R' then nested (ofString "%H:%M") s bp
  else if c = letter 'r' then nested (ofString "%I:%M:%S %p") s bp
  else if c = letter 'T' then nested (ofString "%H:%M:%S") s bp
  else if c = letter 'A' ∨ c = letter 'a' then
    (findName days bp).map fun (i, len) => (weekDay s i, bp.drop len)
  else if c = letter 'B' ∨ c = letter 'b' ∨ c = letter 'h' then
    (findName months bp).map fun (i, len) =>
      ({ s with tm := { s.tm with mon := i }, fields := { s.fields with mon := true } }, bp.drop len)
  else if c = letter 'C' then number 0 99 (fun s i => { s with century := i * 100 }) s bp
  else if c = letter 'e' then monthDay s (if isSpace (bp.headD 0) then bp.tail else bp)
  else if c = letter 'd' then monthDay s bp
  else if c = letter 'k' ∨ c = letter 'H' then number 0 23 (fun s i => { s with tm := { s.tm with hour := i } }) s bp
  else if c = letter 'l' ∨ c = letter 'I' then number 1 12 (fun s i => { s with tm := { s.tm with hour := i } }) s bp
  else if c = letter 'j' then
    number 1 366 (fun s i =>
      { s with tm := { s.tm with yday := i - 1 }, fields := { s.fields with yday := true } }) s bp
  else if c = letter 'M' then number 0 59 (fun s i => { s with tm := { s.tm with min := i } }) s bp
  else if c = letter 'm' then
    number 1 12 (fun s i => { s with tm := { s.tm with mon := i - 1 }, fields := { s.fields with mon := true } }) s bp
  else if c = letter 'p' then
    if 12 < s.tm.hour then none
    else if named "AM" bp then
      some ({ s with tm := { s.tm with hour := if s.tm.hour = 12 then 0 else s.tm.hour } }, bp.drop 2)
    else if named "PM" bp then
      some ({ s with tm := { s.tm with hour := if s.tm.hour < 12 then s.tm.hour + 12 else s.tm.hour } }, bp.drop 2)
    else none
  else if c = letter 'S' then number 0 60 (fun s i => { s with tm := { s.tm with sec := i } }) s bp
  else if c = letter 'U' ∨ c = letter 'W' ∨ c = letter 'V' then number 0 53 (fun s _ => s) s bp
  else if c = letter 'w' then number 0 6 weekDay s bp
  else if c = letter 'u' then number 1 7 (fun s i => weekDay s (i % 7)) s bp
  else if c = letter 'g' then number 0 99 (fun s _ => s) s bp
  else if c = letter 'Y' then
    number 0 9999 (fun s i =>
      { s with relyear := -1, tm := { s.tm with year := i - 1900 }, fields := { s.fields with year := true } }) s bp
  else if c = letter 'y' then number 0 99 (fun s i => { s with relyear := i }) s bp
  else if c = letter 'z' then (zone bp).map fun (offs, bp) => ({ s with tm := { s.tm with gmtoff := offs } }, bp)
  else if c = letter 'n' ∨ c = letter 't' then some (s, bp.dropWhile isSpace)
  else others c s bp

def formatLoop (nested : Bytes → Step) (others : UInt8 → Step) : Bytes → Scan → Bytes → Option (Scan × Bytes)
  | [], s, bp => some (s, bp)
  | c :: fmt, s, bp =>
    if isSpace c then formatLoop nested others fmt s (bp.dropWhile isSpace)
    else if bp = [] then none
    else if c ≠ letter '%' then (literal c s bp).bind fun (s, bp) => formatLoop nested others fmt s bp
    else
      match fmt with
      | [] => none
      | d :: fmt => (convert nested others d s bp).bind fun (s, bp) => formatLoop nested others fmt s bp

def isleap (y : Int) : Bool := y % 4 == 0 && (y % 100 != 0 || y % 400 == 0)

def monLengths (leap : Bool) : List Int := [31, if leap then 29 else 28, 31, 30, 31, 30, 31, 31, 30, 31, 30, 31]

def leapsThruEndOf (y : Int) : Int :=
  if 0 ≤ y then y / 4 - y / 100 + y / 400
  else -((-(y + 1)) / 4 - (-(y + 1)) / 100 + (-(y + 1)) / 400 + 1)

def monthOf : List Int → Int → Int → Int × Int
  | [], mon, days => (mon, days)
  | len :: lens, mon, days => if len ≤ days then monthOf lens (mon + 1) (days - len) else (mon, days)

def complete (s : Scan) : Scan :=
  let s :=
    if s.relyear = -1 then s
    else
      let year :=
        if s.century = 1900 then if s.relyear ≤ 68 then s.relyear + 100 else s.relyear
        else s.relyear + s.century - 1900
      { s with tm := { s.tm with year }, fields := { s.fields with year := true } }
  if s.fields.year then
    let year := s.tm.year + 1900
    let lens := monLengths (isleap year)
    let s :=
      if !s.fields.yday && s.fields.mon && s.fields.mday then
        { s with
          tm := { s.tm with yday := s.tm.mday - 1 + (lens.take s.tm.mon.toNat).sum }
          fields := { s.fields with yday := true } }
      else s
    if s.fields.yday then
      let wday :=
        if s.fields.wday then s.tm.wday
        else
          (4 + (year - 1970) % 7 * (365 % 7) + leapsThruEndOf (year - 1) - leapsThruEndOf 1969 + s.tm.yday) % 7
      let (mon, days) := if s.fields.mon then (s.tm.mon, s.tm.yday) else monthOf lens 0 s.tm.yday
      { s with tm := { s.tm with wday, mon, mday := if s.fields.mday then s.tm.mday else days + 1 } }
    else s
  else s

/-- `_flb_strptime`, with formats inside of formats up to a depth -/
def strptimeFrom (others : UInt8 → Step) : Nat → Bytes → Step
  | 0, _ => fun _ _ => none
  | depth + 1, fmt => fun s bp =>
    (formatLoop (strptimeFrom others depth) others fmt s bp).map fun (s, bp) => (complete s, bp)

/-- `flb_strptime`: the fields, and where the text goes on; nothing for `NULL`. -/
def flbStrptime (others : UInt8 → Step) (buf fmt : Bytes) (tm : Tm) : Option (Tm × Bytes) :=
  (strptimeFrom others 2 fmt { tm } buf).map fun (s, bp) => (s.tm, bp)

end FluentBit.Strptime
