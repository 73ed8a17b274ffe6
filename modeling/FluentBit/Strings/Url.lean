import FluentBit.Foundation.Ascii
import FluentBit.Foundation.Separator

/-! URLs cut into their parts, after `src/flb_utils.c` and `lib/monkey/mk_core/mk_string.c`. A pointer
into a text is what the text has from there on; the zero byte that ends it is the end of the list. -/

set_option autoImplicit false

namespace FluentBit.Strings

open List Option Ascii Separator

def copySubstr (string : Bytes) (posInit posEnd : Nat) : Option Bytes :=
  if posEnd < posInit then none else some ((string.drop posInit).take (posEnd - posInit))

def copyHost (string : Bytes) (posInit posEnd : Nat) : Option Bytes :=
  if string[posInit]? = some openBracket then
    if string[posEnd - 1]? ≠ some closeBracket then none
    else copySubstr string (posInit + 1) (posEnd - 1)
  else copySubstr string posInit posEnd

abbrev slash : UInt8 := 0x2f

/-- `://` -/
def schemeEnd : Bytes := [colon, slash, slash]

def firstAt (byte : UInt8) (text : Bytes) : Option Nat := Separator.find [byte] text

structure UrlParts where
  protocol : Option Bytes := none
  host : Option Bytes := none
  port : Option Bytes := none
  uri : Option Bytes := none

def defaultPort (protocol : Bytes) : Option Bytes :=
  if protocol = ofString "http" then some (ofString "80")
  else if protocol = ofString "https" then some (ofString "443")
  else none

/-- The host, the port and the URI at `p`; nothing where the host is missing and that is checked. -/
def authority (p : Bytes) : Option UrlParts :=
  let sep := firstAt slash p
  let tmp := firstAt colon p
  let tmp := match sep, tmp with
    | some sep, some tmp => if sep < tmp then none else some tmp
    | _, _ => tmp
  match tmp with
  | some tmp =>
    (copyHost p 0 tmp).map fun host =>
      let p := p.drop (tmp + 1)
      match firstAt slash p with
      | some tmp => { host := some host, port := copySubstr p 0 tmp, uri := some (p.drop tmp) }
      | none => { host := some host, port := some p, uri := some [slash] }
  | none =>
    match firstAt slash p with
    | some tmp => some { host := copyHost p 0 tmp, uri := some (p.drop tmp) }
    | none => some { host := copyHost p 0 p.length, uri := some [slash] }

/-- `flb_utils_url_split`: the returned number, and the pointers of the caller. -/
def urlSplit (inUrl : Bytes) (out : UrlParts) : Int × UrlParts :=
  match Separator.find schemeEnd inUrl with
  | none => (-1, out)
  | some p =>
    if p = 0 then (-1, out)
    else
      match copySubstr inUrl 0 p with
      | none => (-1, out)
      | some protocol =>
        match authority (inUrl.drop (p + 3)) with
        | none => (-1, out)
        | some parts =>
          let port := match parts.port with
            | some port => some port
            | none => defaultPort protocol
          (0, { parts with protocol := some protocol, port })

/-! ### URLs -/

inductive Host where
  | name (text : Bytes)
  | ipv6 (address : Bytes)

namespace Host

def address : Host → Bytes
  | .name text => text
  | .ipv6 address => address

def text : Host → Bytes
  | .name text => text
  | .ipv6 address => openBracket :: (address ++ [closeBracket])

def Written : Host → Prop
  | .name text => colon ∉ text ∧ slash ∉ text ∧ openBracket ∉ text
  | .ipv6 address => colon ∈ address ∧ slash ∉ address ∧ closeBracket ∉ address

end Host

/-- `scheme://host[:port][/path]`; the path is what follows its slash. -/
structure Url where
  scheme : Bytes
  host : Host
  port : Option Bytes
  path : Option Bytes
  scheme_named : scheme ≠ [] ∧ colon ∉ scheme
  host_written : host.Written
  port_digits : ∀ digits ∈ port, digits.all isDigit = true

namespace Url

/-- The text behind `://`. -/
def authorityText (url : Url) : Bytes :=
  url.host.text ++ (url.port.map (colon :: ·)).getD [] ++ (url.path.map (slash :: ·)).getD []

def text (url : Url) : Bytes := url.scheme ++ schemeEnd ++ url.authorityText

def effectivePort (url : Url) : Option Bytes := url.port.or (defaultPort url.scheme)

def uri (url : Url) : Bytes := slash :: url.path.getD []

def denotes (url : Url) : Bytes × Host × Option Bytes × Bytes :=
  (url.scheme, url.host, url.effectivePort, url.uri)

end Url

def UrlParts.reassembled (parts : UrlParts) : Bytes :=
  let host := parts.host.getD []
  parts.protocol.getD [] ++ schemeEnd ++
    (if colon ∈ host then openBracket :: (host ++ [closeBracket]) else host) ++
    (parts.port.map (colon :: ·)).getD [] ++ parts.uri.getD []

def Returned (url : Url) : Prop :=
  ∀ out, ∃ parts, urlSplit url.text out = (0, parts) ∧
    parts.protocol = some url.scheme ∧ parts.host = some url.host.address ∧
    parts.port = url.effectivePort ∧ parts.uri = some url.uri ∧
    ∃ again : Url, again.text = parts.reassembled ∧ again.denotes = url.denotes

variable {front text : Bytes} {byte : UInt8}

theorem firstAt_here (absent : byte ∉ front) (more : Bytes) :
    firstAt byte (front ++ byte :: more) = some front.length := by
  have single : Separator.find [byte] (front ++ [byte]) = some front.length := find_line absent
  have found := find_append more single
  rwa [append_assoc] at found

theorem le_of_firstAt (absent : byte ∉ front) (more : Bytes) {place : Nat}
    (found : firstAt byte (front ++ more) = some place) : front.length ≤ place := by
  have here := find_occurs found
  cases Nat.lt_or_ge place front.length with
  | inl inside =>
    rw [drop_append_of_le_length (Nat.le_of_lt inside), drop_eq_getElem_cons inside] at here
    have same := (cons_prefix_cons.mp here).1
    exact absurd (same ▸ getElem_mem inside) absent
  | inr behind => exact behind

theorem firstAt_absent (absent : byte ∉ text) : firstAt byte text = none := by
  cases found : firstAt byte text with
  | none => rfl
  | some place =>
    have behind := le_of_firstAt absent [] (by rwa [append_nil])
    have inside := find_le found
    simp only [length_singleton] at inside
    exact absurd inside (Nat.not_le_of_lt (Nat.lt_succ_of_le behind))

theorem copyHost_name (plain : openBracket ∉ text) (next : Bytes) (apart : next.head? ≠ some openBracket) :
    copyHost (text ++ next) 0 text.length = some text := by
  have other : (text ++ next)[0]? ≠ some openBracket := by
    cases text with
    | nil => rwa [nil_append, ← List.head?_eq_getElem?]
    | cons first text =>
      intro same
      cases same
      exact plain (mem_cons_self ..)
  simp [copyHost, if_neg other, copySubstr]

theorem authority_ipv6 {address : Bytes} (written : (Host.ipv6 address).Written) (more : Bytes) :
    authority ((Host.ipv6 address).text ++ more) = none := by
  obtain ⟨colon, slashless, open_⟩ := written
  obtain ⟨front, back, rfl, before⟩ := eq_append_cons_of_mem colon
  have parts : (Host.ipv6 (front ++ Ascii.colon :: back)).text ++ more =
      (Ascii.openBracket :: front) ++ Ascii.colon :: (back ++ [Ascii.closeBracket] ++ more) := by
    simp [Host.text]
  have colonless : Ascii.colon ∉ Ascii.openBracket :: front := by
    simpa [Ascii.colon, Ascii.openBracket] using before
  have slashFree : slash ∉ Ascii.openBracket :: front := by
    have apart : slash ≠ Ascii.openBracket := by decide
    simp only [mem_append, not_or] at slashless
    simpa [apart] using slashless.1
  have unclosed : ((Ascii.openBracket :: front) ++ Ascii.colon :: (back ++ [Ascii.closeBracket] ++ more))[
      (Ascii.openBracket :: front).length - 1]? ≠ some Ascii.closeBracket := by
    rw [List.getElem?_append_left (by simp)]
    intro closed
    have member := mem_of_getElem? closed
    have apart : Ascii.closeBracket ≠ Ascii.openBracket := by decide
    simp only [mem_append, not_or] at open_
    exact open_.1 (by simpa [apart] using member)
  have refused : copyHost ((Ascii.openBracket :: front) ++ Ascii.colon :: (back ++ [Ascii.closeBracket] ++ more)) 0
      (Ascii.openBracket :: front).length = none := by
    exact (if_pos rfl).trans (if_pos unclosed)
  rw [parts, authority, firstAt_here colonless]
  cases found : firstAt slash ((Ascii.openBracket :: front) ++ Ascii.colon :: (back ++ [Ascii.closeBracket] ++ more)) with
  | none => simp only [refused, map_none]
  | some place =>
    have behind := le_of_firstAt slashFree _ found
    simp only [Nat.not_lt_of_le behind, if_false, refused, map_none]

theorem authority_name (written : (Host.name text).Written) {port : Option Bytes}
    (digits : ∀ given ∈ port, slash ∉ given) (path : Option Bytes) :
    authority (text ++ (port.map (colon :: ·)).getD [] ++ (path.map (slash :: ·)).getD []) =
      some { host := some text, port, uri := some (slash :: path.getD []) } := by
  obtain ⟨colonless, slashless, plain⟩ := written
  cases port with
  | none =>
    cases path with
    | none =>
      have copied := copyHost_name plain [] (by simp)
      rw [append_nil] at copied
      simp [authority, firstAt_absent colonless, firstAt_absent slashless, copied]
    | some path =>
      have copied := copyHost_name plain (slash :: path) (by simp [slash, openBracket])
      simp only [map_none, getD_none, append_nil, map_some, getD_some]
      rw [authority, firstAt_here slashless]
      cases found : firstAt colon (text ++ slash :: path) with
      | none => simp [copied]
      | some place =>
        have before : colon ∉ text ++ [slash] := by
          have apart : colon ≠ slash := by decide
          simp [colonless, apart]
        have behind : text.length < place := by
          have le := le_of_firstAt before path (by simpa using found)
          rwa [length_append] at le
        simp [behind, copied]
  | some port =>
    have slashFree := digits port rfl
    have copied (more : Bytes) := copyHost_name plain (colon :: more) (by simp [colon, openBracket])
    have before : slash ∉ text ++ colon :: port := by
      simp [slashless, slashFree, slash, colon]
    cases path with
    | none =>
      simp only [map_some, getD_some, map_none, getD_none, append_nil]
      rw [authority, firstAt_here colonless, firstAt_absent before]
      simp [copied, firstAt_absent slashFree]
    | some path =>
      simp only [map_some, getD_some]
      rw [authority, firstAt_here before, append_assoc, cons_append, firstAt_here colonless]
      have order : ¬ (text ++ colon :: port).length < text.length := by simp
      have behind : (text ++ colon :: (port ++ slash :: path)).drop (text.length + 1) = port ++ slash :: path := by
        rw [← drop_drop, drop_left]
        rfl
      simp only [order, if_false, copied, map_some, behind, firstAt_here slashFree, copySubstr,
        Nat.not_lt_zero, drop_zero, Nat.sub_zero, take_left, drop_left]

theorem urlSplit_text (url : Url) (out : UrlParts) : urlSplit url.text out = match authority url.authorityText with
      | none => (-1, out)
      | some parts => (0, { parts with protocol := some url.scheme, port := parts.port.or (defaultPort url.scheme) }) := by
  have found : Separator.find schemeEnd url.text = some url.scheme.length :=
    find_append url.authorityText (find_line url.scheme_named.2)
  have named : url.scheme.length ≠ 0 := by simpa using url.scheme_named.1
  have front : url.text.take url.scheme.length = url.scheme := by simp [Url.text]
  have behind : url.text.drop (url.scheme.length + 3) = url.authorityText := by
    rw [Url.text, ← drop_drop, append_assoc, drop_left]
    rfl
  rw [urlSplit, found]
  simp only [named, if_false, copySubstr, Nat.not_lt_zero, Nat.sub_zero, drop_zero, front, behind]
  cases authority _ with
  | none => rfl
  | some parts =>
    cases port : parts.port with
    | none => simp [port]
    | some given => simp [port]

/-! ### What is returned -/

theorem slash_not_digit {digits : Bytes} (every : digits.all isDigit = true) : slash ∉ digits := by
  intro member
  have digit := all_eq_true.mp every slash member
  exact absurd digit (by decide)

theorem defaultPort_digits {protocol port : Bytes} (default : defaultPort protocol = some port) :
    port.all isDigit = true := by
  unfold defaultPort at default
  split at default
  · cases default
    decide
  · split at default
    · cases default
      decide
    · cases default

def Url.complete (url : Url) : Url where
  scheme := url.scheme
  host := url.host
  port := url.effectivePort
  path := some (url.path.getD [])
  scheme_named := url.scheme_named
  host_written := url.host_written
  port_digits := by
    intro digits given
    cases port : url.port with
    | none => exact defaultPort_digits (by simpa [Url.effectivePort, port] using given)
    | some written =>
      have same : written = digits := by simpa [Url.effectivePort, port] using given
      exact url.port_digits digits (by rw [port, same]; rfl)

theorem Url.complete_denotes (url : Url) : url.complete.denotes = url.denotes := by
  have port : url.effectivePort.or (defaultPort url.scheme) = url.effectivePort := by
    cases given : url.port with
    | none | some port => simp [Url.effectivePort, given]
  simpa [Url.denotes, Url.complete, Url.uri, Url.effectivePort] using port

/-- Every URL with a host of no brackets is cut into its parts, and none with an IPv6 address is; a text
without `://` is refused and nothing is set. -/
theorem urlSplit_returned_iff (url : Url) : (Returned url ↔ ∃ text, url.host = .name text) ∧
      ∀ text out, ¬ schemeEnd <:+: text → urlSplit text out = (-1, out) := by
  constructor
  · cases host : url.host with
    | name text =>
      have written : (Host.name text).Written := host ▸ url.host_written
      have found := authority_name written (fun port given => slash_not_digit (url.port_digits port given)) url.path
      have colonless : colon ∉ text := written.1
      constructor
      · intro _
        exact ⟨text, rfl⟩
      · intro _ out
        refine ⟨_, by rw [urlSplit_text, Url.authorityText, host, Host.text, found], rfl, by rw [host]; rfl, rfl, rfl,
          url.complete, ?_, url.complete_denotes⟩
        simp [Url.text, Url.authorityText, Url.complete, UrlParts.reassembled, host, Host.text, colonless, Url.effectivePort]
    | ipv6 address =>
      have written : (Host.ipv6 address).Written := host ▸ url.host_written
      constructor
      · intro returned
        obtain ⟨parts, result, _⟩ := returned {}
        rw [urlSplit_text, Url.authorityText, host, append_assoc, authority_ipv6 written] at result
        have code : (-1 : Int) = 0 := congrArg Prod.fst result
        exact absurd code (by decide)
      · rintro ⟨text, impossible⟩
        cases impossible
  · intro text out absent
    cases found : Separator.find schemeEnd text with
    | none => rw [urlSplit, found]
    | some place => exact absurd ((find_occurs found).isInfix.trans (drop_suffix ..).isInfix) absent

/-- `http://[::1]:80/` -/
def loopbackUrl : Url where
  scheme := ofString "http"
  host := .ipv6 (ofString "::1")
  port := some (ofString "80")
  path := some []
  scheme_named := by decide
  host_written := ⟨by decide, by decide, by decide⟩
  port_digits := by decide

theorem loopback_refused : ¬ Returned loopbackUrl := by
  intro returned
  obtain ⟨parts, result, _⟩ := returned {}
  have code : (-1 : Int) = 0 := congrArg Prod.fst result
  exact absurd code (by decide)

/-- `http://h:80/` -/
def portUrl : Url := { loopbackUrl with
  host := .name (ofString "h")
  host_written := ⟨by decide, by decide, by decide⟩ }

theorem urlSplit_returned_portUrl : Returned portUrl ∧ urlSplit (ofString "h") {} = (-1, {}) := by
  have short : ¬ schemeEnd <:+: ofString "h" := fun inside => absurd inside.length_le (by decide)
  exact ⟨(urlSplit_returned_iff portUrl).1.mpr ⟨_, rfl⟩, (urlSplit_returned_iff portUrl).2 _ _ short⟩

end FluentBit.Strings
