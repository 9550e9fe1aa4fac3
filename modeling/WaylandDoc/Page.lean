import WaylandDoc.Html
import WaylandDoc.Protocol.Basic
import WaylandDoc.Text.Blank

/-!
# The page of a protocol

The HTML documentation of a protocol. It depends on the tree alone and lists children in document
order: for every interface its enums, its requests and its events.
-/

namespace WaylandDoc

open Html (text element line block join)

namespace Page

def styleSheet : String :=
  "body \x7b font-family: sans-serif; margin: 2em; \x7d\n" ++
  "h1 \x7b border-bottom: 2px solid #444; \x7d\n" ++
  "h2 \x7b background: #dde4ee; padding: 0.3em; \x7d\n" ++
  "table \x7b border-collapse: collapse; margin-bottom: 1em; width: 100%; \x7d\n" ++
  "th, td \x7b border: 1px solid #999; padding: 0.2em 0.5em; text-align: left; " ++
    "vertical-align: top; \x7d\n" ++
  "th \x7b background: #eee; \x7d\n" ++
  "td.label \x7b font-weight: bold; width: 10em; \x7d\n" ++
  "tr.arg-summary td \x7b font-style: italic; \x7d\n" ++
  "pre \x7b background: #f6f6f6; padding: 0.5em; white-space: pre-wrap; \x7d\n"

/-- An element with a class. -/
def classed (name cls : String) : HtmlTag := ⟨name, [("class", cls)]⟩

/-- A cell over several columns. -/
def spanning (name : String) (columns : Nat) : HtmlTag := ⟨name, [("colspan", toString columns)]⟩

def row (cells : List Html) : Html := element ⟨"tr", []⟩ (join cells)

def cell (content : Html) : Html := element ⟨"td", []⟩ content

def heading (content : String) : Html := element ⟨"th", []⟩ (text content)

/-- A row with a label and a value. -/
def labelled (label value : String) : Html :=
  line (row [element (classed "td" "label") (text label), cell (text value)])

/-- A row with the title of a table. -/
def title (content : String) : Html :=
  line (row [element (spanning "th" 2) (text content)])

/-- A row that holds a table. -/
def innerTable (cls : String) (columns : List String) (rows : List Html) : Html :=
  if rows.isEmpty then .nothing
  else
    let table := block (classed "table" cls) (line (row (columns.map heading)) ++ join rows)
    line (row [element (spanning "td" 2) (.newline ++ table)])

/-- The piece for a value, and nothing where there is none. -/
def ifGiven {α : Type} (value : Option α) (piece : α → Html) : Html :=
  match value with
  | some x => piece x
  | none => .nothing

/-- The piece where the condition holds. -/
def ifSo (condition : Bool) (piece : Html) : Html := if condition then piece else .nothing

def descriptionRows (d : Description) : Html :=
  labelled "Summary" d.summary ++ labelled "Description" (trim d.body)

/-- The summary that counts: a node's own, or else that of its description. -/
def summary? (own : Option String) (description : Option Description) : Option String :=
  own.or (description.map Description.summary)

def ofEntry (entry : Entry) : Html :=
  let since := match entry.since with
    | some since => if since = 1 then "" else s!" (since {since})"
    | none => ""
  line <| element (classed "tr" "entry") <| join [
    cell (text entry.name),
    cell (text entry.value),
    cell (text ((summary? entry.summary entry.description).getD "") ++ text since)]

def ofEnum (e : Enum) : Html :=
  block (classed "table" "enum") <| join [
    title ("Enum: " ++ e.name ++ if e.bitfield then " (bitfield)" else ""),
    ifGiven e.since fun since => labelled "Since" (toString since),
    ifGiven e.description descriptionRows,
    innerTable "entries" ["Name", "Value", "Summary"] (e.entries.map ofEntry)]

/-- Whether the argument may be null, if its type leaves that open. -/
def nullability (arg : Arg) : String :=
  if arg.type.isNullable then if arg.nullable then "TRUE" else "FALSE" else "Not Supported"

/-- The types that leave open whether the argument may be null are those of strings, objects, new
objects and arrays. -/
inductive Nullability : Arg → String → Prop where
  | unsupported {arg : Arg} (h : arg.type ∉ [.string, .object, .newId, .array]) :
    Nullability arg "Not Supported"
  | nullable {arg : Arg} (h : arg.type ∈ [.string, .object, .newId, .array])
    (hnullable : arg.nullable = true) : Nullability arg "TRUE"
  | required {arg : Arg} (h : arg.type ∈ [.string, .object, .newId, .array])
    (hnullable : arg.nullable = false) : Nullability arg "FALSE"

theorem nullability_iff {arg : Arg} {cell : String} :
    Nullability arg cell ↔ cell = nullability arg := by
  have htype : arg.type.isNullable ↔ arg.type ∈ [.string, .object, .newId, .array] := by
    simp [ArgType.isNullable_iff]
  constructor
  · rintro (h | ⟨h, hnullable⟩ | ⟨h, hnullable⟩)
    · simp [nullability, htype, h]
    · simp [nullability, htype, h, hnullable]
    · simp [nullability, htype, h, hnullable]
  · rintro rfl
    by_cases h : arg.type ∈ [.string, .object, .newId, .array]
    · cases hnullable : arg.nullable with
      | true =>
        have hcell : nullability arg = "TRUE" := by simp [nullability, htype, h, hnullable]
        exact hcell ▸ .nullable h hnullable
      | false =>
        have hcell : nullability arg = "FALSE" := by simp [nullability, htype, h, hnullable]
        exact hcell ▸ .required h hnullable
    · have hcell : nullability arg = "Not Supported" := by simp [nullability, htype, h]
      exact hcell ▸ .unsupported h

def ofArg (arg : Arg) : Html :=
  let type := arg.type.cType ++ match arg.enum with
    | some enum => s!" (enum {enum})"
    | none => ""
  let cells := line <| element (classed "tr" "arg") <| join [
    cell (text arg.name),
    cell (text type),
    cell (text (nullability arg)),
    cell (text (arg.interface.getD ""))]
  cells ++ ifGiven (summary? arg.summary arg.description) fun summary =>
    line <| element (classed "tr" "arg-summary") <| join [
      cell .nothing,
      element (spanning "td" 3) (text summary)]

def kindName : MessageKind → String
  | .request => "Request"
  | .event => "Event"

def ofMessage (kind : MessageKind) (m : Message) : Html :=
  block (classed "table" "message") <| join [
    title (kindName kind ++ ": " ++ m.name),
    ifSo m.destructor (labelled "Type" "destructor"),
    ifSo (m.since != 1) (labelled "Since" (toString m.since)),
    ifGiven m.deprecatedSince fun since => labelled "Deprecated Since" (toString since),
    ifGiven m.description descriptionRows,
    innerTable "args" ["Name", "Type", "Nullable", "Interface"] (m.args.map ofArg)]

/-- A heading and what it is about; nothing if there is nothing. -/
def part (name : String) (pieces : List Html) : Html :=
  if pieces.isEmpty then .nothing else line (element ⟨"h3", []⟩ (text name)) ++ join pieces

def ofInterface (i : Interface) : Html :=
  block (classed "div" "interface") <| join [
    line (element ⟨"h2", []⟩ (text s!"Interface Name:{i.name} Version {i.version}")),
    block (classed "table" "description") <|
      match i.description with
      | some d => descriptionRows d
      | none => labelled "Summary" "NONE" ++ labelled "Description" "NONE",
    part "Enumerations" (i.enums.map ofEnum),
    part "Requests" (i.requests.map (ofMessage .request)),
    part "Events" (i.events.map (ofMessage .event))]

def body (p : Protocol) : Html :=
  join [
    line (element ⟨"h1", []⟩ (text ("Protocol: " ++ p.name))),
    ifGiven p.description fun d =>
      block (classed "table" "description") (descriptionRows d),
    ifGiven p.copyright fun copyright =>
      part "Copyright" [line (element ⟨"pre", []⟩ (text (trim copyright)))],
    join (p.interfaces.map ofInterface)]

def ofProtocol (p : Protocol) : Html :=
  block ⟨"html", []⟩ <|
    block ⟨"head", []⟩ (join [
      line (.void ⟨"meta", [("charset", "utf-8")]⟩),
      line (element ⟨"title", []⟩ (text (p.name ++ " protocol"))),
      block ⟨"style", []⟩ (text styleSheet)]) ++
    block ⟨"body", []⟩ (body p)

end Page

/-- The HTML documentation of a protocol. -/
def Protocol.toHtml (p : Protocol) : String := "<!DOCTYPE html>\n" ++ (Page.ofProtocol p).render

end WaylandDoc
