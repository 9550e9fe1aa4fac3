import WaylandDoc.Document
import WaylandDoc.Files
import WaylandDoc.Page

/-!
# The command line

The arguments are one path and at most one log level; they are read from left to right. A run
reads the file and answers with an exit code, the text for standard output and log records. The
text is the whole page, or nothing if anything failed, and the level decides only which records
are shown.
-/

namespace WaylandDoc

/-- What the arguments ask for. -/
inductive Invocation where
  | version
  | help
  | page (path : String) (level : Level)
  deriving DecidableEq, Repr

def Level.ofName? : String → Option Level
  | "error" => some .error
  | "warn" => some .warn
  | "info" => some .info
  | "debug" => some .debug
  | "trace" => some .trace
  | _ => none

namespace Invocation

/-- Arguments that are no options: all that do not begin with a dash, and the dash itself. -/
def isOperand (arg : String) : Bool := !arg.startsWith "-" || arg == "-"

/-- Reads arguments after those that gave `level` and `path`. Behind `--` there are no more options.
Asking for the version or for help ends the reading. -/
def ofArgsAfter (level : Option Level) (path : Option String) (options : Bool) :
    List String → Option Invocation
  | [] => path.map (page · (level.getD .info))
  | arg :: args =>
    if !options || isOperand arg then
      if path.isSome ∨ arg = "" then none else ofArgsAfter level (some arg) options args
    else if arg = "--" then ofArgsAfter level path false args
    else if arg = "--version" ∨ arg.startsWith "-V" then some version
    else if arg = "--help" ∨ arg.startsWith "-h" then some help
    else if level.isSome then none
    else if arg = "--log-level" then
      match args with
      | [] => none
      | name :: args => (Level.ofName? name).bind fun l => ofArgsAfter (some l) path options args
    else if arg.startsWith "--log-level=" then
      (Level.ofName? (arg.drop 12).toString).bind fun l => ofArgsAfter (some l) path options args
    else none

/-- What the arguments ask for, if they are well formed. -/
def ofArgs? (args : List String) : Option Invocation := ofArgsAfter none none true args

end Invocation

/-- The part of the program that writes a record. -/
inductive Origin where
  | program
  | reader
  deriving DecidableEq, Repr

def Origin.name : Origin → String
  | program => "wl_protocol_html"
  | reader => "wl_protocol_html::parser"

structure Record where
  level : Level
  origin : Origin
  text : String
  deriving DecidableEq, Repr

namespace Record

def ofNotice (n : Notice) : Record := ⟨n.level, .reader, n.text⟩

/-- Level, origin and text; the level is padded to five characters. -/
def label (r : Record) : String :=
  let padding := String.ofList (List.replicate (5 - r.level.name.length) ' ')
  s!"{r.level.name}{padding} {r.origin.name}] {r.text}"

end Record

structure Answer where
  code : Nat
  output : String := ""
  records : List Record := []
  deriving DecidableEq, Repr

namespace Answer

def versionText : String := "wl-protocol-html 0.1.0\n"

def helpText : String :=
  "Renders a wayland protocol description as an HTML document on stdout.\n\n" ++
  "Usage: wl-protocol-html [OPTIONS] <PROTOCOL>\n\n" ++
  "Options:\n" ++
  "      --log-level <LOG_LEVEL>  trace, debug, info, warn or error [default: info]\n" ++
  "  -h, --help                   Print help\n" ++
  "  -V, --version                Print version\n"

/-- A run that fails after it wrote `records`. -/
def failed (records : List Record) (text : String) : Answer :=
  { code := 1, records := records ++ [⟨.error, .program, text⟩] }

/-- The answer for the contents of the file at `path`, with the records of all levels. -/
def ofContents (path : String) : Except FileError Bytes → Answer
  | .error e => failed [] s!"Could not read {path}: {e.message}"
  | .ok input =>
    let parsed := parse input
    let records := parsed.notices.map Record.ofNotice
    match parsed.result with
    | .error e => failed records s!"{path}:{e.line}: {e.error.message}"
    | .ok p =>
      let summary := s!"Parsed protocol {p.name} with {p.interfaces.length} interfaces"
      { code := 0, output := p.toHtml, records := records ++ [⟨.debug, .program, summary⟩] }

/-- Leaves out the records that the level does not show. -/
def atLevel (a : Answer) (level : Level) : Answer :=
  { a with records := a.records.filter (level.shows ·.level) }

/-- The answer to arguments that are not well formed. -/
def usage : Answer := { code := 2 }

/-- The answer to the arguments; `read` gives the contents of files. -/
def ofArgs (args : List String) (read : String → Except FileError Bytes) : Answer :=
  match Invocation.ofArgs? args with
  | none => usage
  | some .version => { code := 0, output := versionText }
  | some .help => { code := 0, output := helpText }
  | some (.page path level) => (ofContents path (read path)).atLevel level

end Answer

end WaylandDoc
