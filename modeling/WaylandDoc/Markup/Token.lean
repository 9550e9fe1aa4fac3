import WaylandDoc.Markup.Delimiter

/-!
# Tokens

A document is cut into tokens without regard to what is open: tags, pieces of character data,
references, and markup that carries no content. Nothing is decoded. `scan` gives the first token
or says why there is none, `lex` all tokens up to the end or the first failure. The tokens tile
the document: `render` gives back the bytes of a token.
-/

namespace WaylandDoc

/-- Why bytes are not markup. -/
inductive MarkupError where
  | unknownMarkup
  | unclosedInstruction
  | unclosedComment
  | unclosedDoctype
  | unclosedCData
  | unclosedTag
  | namelessDoctype
  | unclosedReference
  | mismatchedEnd (expected found : String)
  | unmatchedEnd (found : String)
  deriving DecidableEq, Repr

namespace MarkupError

def message : MarkupError → String
  | unknownMarkup => "unknown or missed symbol in markup"
  | unclosedInstruction =>
    "processing instruction or xml declaration not closed: `?>` not found before end of input"
  | unclosedComment => "comment not closed: `-->` not found before end of input"
  | unclosedDoctype => "DOCTYPE not closed: `>` not found before end of input"
  | unclosedCData => "CDATA not closed: `]]>` not found before end of input"
  | unclosedTag => "tag not closed: `>` not found before end of input"
  | namelessDoctype => "`<!DOCTYPE>` declaration does not contain a name of a document type"
  | unclosedReference =>
    "entity or character reference not closed: `;` not found before end of input"
  | mismatchedEnd expected found => s!"expected `</{expected}>`, but `</{found}>` was found"
  | unmatchedEnd found => s!"close tag `</{found}>` does not match any open tag"

/-- Errors in the form of a single piece of markup; the other ones concern the document. -/
def isSyntactic : MarkupError → Bool
  | unknownMarkup | unclosedInstruction | unclosedComment | unclosedDoctype | unclosedCData
  | unclosedTag => true
  | _ => false

/-- The text of the error and those of its causes. -/
def chain (e : MarkupError) : List String :=
  [(if e.isSyntactic then "syntax error: " else "ill-formed document: ") ++ e.message, e.message]

end MarkupError

/-- A piece of a document. -/
inductive Token where
  /-- `<tag>` -/
  | start (tag : Bytes)
  /-- `<tag/>` -/
  | empty (tag : Bytes)
  /-- `</tag>` -/
  | close (tag : Bytes)
  | text (data : Bytes)
  /-- `<![CDATA[data]]>` -/
  | cdata (data : Bytes)
  /-- `&name;` -/
  | reference (name : Bytes)
  /-- A comment, processing instruction, declaration or document type, as `<markup>`. -/
  | aside (markup : Bytes)
  deriving DecidableEq, Repr

namespace Token

/-- The bytes of the token. -/
def render : Token → Bytes
  | start tag => ascii "<" ++ tag ++ ascii ">"
  | empty tag => ascii "<" ++ tag ++ ascii "/>"
  | close tag => ascii "</" ++ tag ++ ascii ">"
  | text data => data
  | cdata data => ascii "<![CDATA[" ++ data ++ ascii "]]>"
  | reference name => ascii "&" ++ name ++ ascii ";"
  | aside markup => ascii "<" ++ markup ++ ascii ">"

/-- The number of bytes of the token. -/
def width : Token → Nat
  | start tag => tag.length + 2
  | empty tag => tag.length + 3
  | close tag => tag.length + 3
  | text data => data.length
  | cdata data => data.length + 12
  | reference name => name.length + 2
  | aside markup => markup.length + 2

theorem width_eq_length_render (t : Token) : t.width = t.render.length := by
  cases t <;> simp [width, render, ascii]

/-- What a document begins with. -/
inductive Scan where
  | done
  | token (t : Token) (rest : Bytes)
  /-- Reading stopped before `rest`. -/
  | failed (e : MarkupError) (rest : Bytes)
  deriving DecidableEq, Repr

/-- A piece of markup that was cut out, or not, and then has to have the right form. -/
def Scan.ofCut (unclosed : MarkupError) (form : Bytes → Except MarkupError Token) :
    Option (Bytes × Bytes) → Scan
  | none => .failed unclosed []
  | some (content, rest) =>
    match form content with
    | .ok t => .token t rest
    | .error e => .failed e rest

/-- A tag is empty if it ends in a slash. -/
def ofTag (content : Bytes) : Token :=
  if content.getLast? = some (byte '/') then .empty content.dropLast else .start content

def ofComment (content : Bytes) : Except MarkupError Token :=
  if (ascii "!--").isPrefixOf content then .ok (.aside content) else .error .unclosedComment

def ofCData (content : Bytes) : Except MarkupError Token :=
  if (ascii "![CDATA[").isPrefixOf content then .ok (.cdata (content.drop 8).dropLast.dropLast)
  else .error .unclosedCData

def lowerCase (b : UInt8) : UInt8 := if byte 'A' ≤ b ∧ b ≤ byte 'Z' then b + 32 else b

/-- The keyword of a document type may be in any case, and a name follows it. -/
def ofDoctype (content : Bytes) : Except MarkupError Token :=
  if (content.take 8).map lowerCase ≠ ascii "!doctype" then .error .unclosedDoctype
  else if (content.drop 8).all isBlank then .error .namelessDoctype
  else .ok (.aside content)

/-- One question mark does not both begin and end an instruction. -/
def ofInstruction (content : Bytes) : Except MarkupError Token :=
  if content.length ≤ 1 then .error .unclosedInstruction else .ok (.aside content)

/-- Markup that begins with `<!`; `s` follows these bytes. The marks that end a comment come after
the first three bytes of it, whatever they are. -/
def scanDeclaration : Bytes → Scan
  | [] => .failed .unknownMarkup [byte '!']
  | b :: s =>
    if b = byte '-' then
      match s with
      | [] => .failed .unclosedComment []
      | c :: s =>
        .ofCut .unclosedComment ofComment ((Delimiter.marks (byte '-') 2).cut 0 [c, b, byte '!'] s)
    else if b = byte '[' then
      .ofCut .unclosedCData ofCData ((Delimiter.marks (byte ']') 2).cut 0 [b, byte '!'] s)
    else if b = byte 'D' ∨ b = byte 'd' then
      .ofCut .unclosedDoctype ofDoctype (Delimiter.nesting.cut 0 [b, byte '!'] s)
    else .failed .unknownMarkup (byte '!' :: b :: s)

/-- Markup; `s` follows the `<`. -/
def scanMarkup (s : Bytes) : Scan :=
  match s with
  | [] => .failed .unclosedTag []
  | b :: t =>
    if b = byte '!' then scanDeclaration t
    else if b = byte '?' then
      .ofCut .unclosedInstruction ofInstruction ((Delimiter.marks (byte '?') 1).cut 1 [b] t)
    else if b = byte '/' then
      .ofCut .unclosedTag (fun content => .ok (.close content)) (Delimiter.quotes.cut none [] t)
    else .ofCut .unclosedTag (fun content => .ok (ofTag content)) (Delimiter.quotes.cut none [] s)

/-- Bytes of a reference: it ends at a semicolon, and other markup may not begin before. -/
def inReference (b : UInt8) : Bool := b != byte ';' && b != byte '&' && b != byte '<'

/-- A reference; `s` follows the `&`. -/
def scanReference (s : Bytes) : Scan :=
  match s.dropWhile inReference with
  | [] => .failed .unclosedReference []
  | b :: rest =>
    if b = byte ';' then .token (.reference (s.takeWhile inReference)) rest
    else .failed .unclosedReference (b :: rest)

/-- Bytes of character data. -/
def inText (b : UInt8) : Bool := b != byte '<' && b != byte '&'

def scan : Bytes → Scan
  | [] => .done
  | b :: s =>
    if b = byte '<' then scanMarkup s
    else if b = byte '&' then scanReference s
    else .token (.text (b :: s.takeWhile inText)) (s.dropWhile inText)

theorem length_lt_of_ofCut {σ : Type} {d : Delimiter σ} {state : σ} {seen s rest : Bytes}
    {e : MarkupError} {form : Bytes → Except MarkupError Token} {t : Token}
    (h : Scan.ofCut e form (d.cut state seen s) = .token t rest) : rest.length < s.length := by
  unfold Scan.ofCut at h
  split at h
  · cases h
  · rename_i hc
    have := Delimiter.length_lt_of_cut hc
    split at h <;> cases h
    exact this

theorem length_lt_of_scanDeclaration {s rest : Bytes} {t : Token}
    (h : scanDeclaration s = .token t rest) : rest.length < s.length := by
  unfold scanDeclaration at h
  split at h
  · cases h
  · rename_i b s
    split at h
    · split at h
      · cases h
      · exact Nat.lt_succ_of_lt (Nat.lt_succ_of_lt (length_lt_of_ofCut h))
    · split at h
      · exact Nat.lt_succ_of_lt (length_lt_of_ofCut h)
      · split at h
        · exact Nat.lt_succ_of_lt (length_lt_of_ofCut h)
        · cases h

theorem length_lt_of_scanMarkup {s rest : Bytes} {t : Token}
    (h : scanMarkup s = .token t rest) : rest.length < s.length := by
  unfold scanMarkup at h
  split at h
  · cases h
  · rename_i b s
    split at h
    · exact Nat.lt_succ_of_lt (length_lt_of_scanDeclaration h)
    · split at h
      · exact Nat.lt_succ_of_lt (length_lt_of_ofCut h)
      · split at h
        · exact Nat.lt_succ_of_lt (length_lt_of_ofCut h)
        · exact length_lt_of_ofCut h

theorem length_le_of_scanReference {s rest : Bytes} {t : Token}
    (h : scanReference s = .token t rest) : rest.length ≤ s.length := by
  have hle := length_dropWhile_le inReference s
  unfold scanReference at h
  split at h
  · cases h
  · rename_i hd
    rw [hd] at hle
    split at h <;> cases h
    exact Nat.le_of_succ_le hle

/-- A token takes at least one byte. -/
theorem length_lt_of_scan {s rest : Bytes} {t : Token} (h : scan s = .token t rest) :
    rest.length < s.length := by
  unfold scan at h
  split at h
  · cases h
  · rename_i b s
    split at h
    · exact Nat.lt_succ_of_lt (length_lt_of_scanMarkup h)
    · split at h
      · exact Nat.lt_succ_of_le (length_le_of_scanReference h)
      · cases h
        exact Nat.lt_succ_of_le (length_dropWhile_le inText s)

/-- How the tokens of a document end: with it, or `width` bytes further on, where reading the next
token failed. -/
inductive Ending where
  | complete
  | broken (e : MarkupError) (width : Nat)
  deriving DecidableEq, Repr

/-- The tokens of `s` after `seen`, the latest first. -/
def lexFrom (seen : List Token) (s : Bytes) : List Token × Ending :=
  match _h : scan s with
  | .done => (seen.reverse, .complete)
  | .token t rest => lexFrom (t :: seen) rest
  | .failed e rest => (seen.reverse, .broken e (s.length - rest.length))
termination_by s.length
decreasing_by exact length_lt_of_scan _h

/-- The tokens of a document and how they end. -/
def lex (s : Bytes) : List Token × Ending := lexFrom [] s

end Token

end WaylandDoc
