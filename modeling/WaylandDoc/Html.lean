import WaylandDoc.Markup.Reference

/-!
# HTML

Documents are built from text and elements and then printed, so text is always escaped and every
tag has its partner, apart from those of elements without content.
-/

namespace WaylandDoc

/-- The name and the attributes of an element. -/
structure HtmlTag where
  name : String
  attributes : List (String × String) := []
  deriving DecidableEq, Repr

inductive Html where
  | nothing
  | text (s : String)
  /-- An element without content and without an end tag. -/
  | void (tag : HtmlTag)
  | element (tag : HtmlTag) (body : Html)
  | append (first second : Html)
  deriving DecidableEq, Repr

/-- The start tag. -/
def HtmlTag.opening (tag : HtmlTag) : String :=
  let attributes := tag.attributes.map fun (name, value) => s!" {name}=\"{value}\""
  "<" ++ tag.name ++ String.join attributes ++ ">"

/-- The end tag. -/
def HtmlTag.closing (tag : HtmlTag) : String := "</" ++ tag.name ++ ">"

namespace Html

instance : Append Html := ⟨append⟩

/-- The pieces one after the other. -/
def join (pieces : List Html) : Html := pieces.foldr append nothing

/-- A line break. -/
def newline : Html := text "\n"

/-- The piece on a line of its own. -/
def line (piece : Html) : Html := piece ++ newline

/-- An element that takes several lines: its tags and each piece of its body end one. -/
def block (tag : HtmlTag) (body : Html) : Html := line (element tag (newline ++ body))

/-- Prints the piece after `printed`. -/
def renderAfter (printed : String) : Html → String
  | nothing => printed
  | text s => printed ++ escape s
  | void tag => printed ++ tag.opening
  | element tag body => renderAfter (printed ++ tag.opening) body ++ tag.closing
  | append first second => renderAfter (renderAfter printed first) second

def render (h : Html) : String := renderAfter "" h

end Html

end WaylandDoc
