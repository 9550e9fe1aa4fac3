import WaylandDoc.Main
import WaylandDoc.Markup.Tiling
import WaylandDoc.Proofs.Bounds
import WaylandDoc.Proofs.Attachment
import WaylandDoc.Proofs.CharacterData
import WaylandDoc.Proofs.Validity
import WaylandDoc.Proofs.PageTags
import WaylandDoc.Proofs.Outline
import WaylandDoc.Proofs.Acceptance
import WaylandDoc.Proofs.Encoding
import WaylandDoc.Proofs.Writing
import WaylandDoc.Proofs.Written
import WaylandDoc.Proofs.Assembly
import WaylandDoc.Proofs.RoundTrip
import WaylandDoc.Proofs.Extension
import WaylandDoc.Proofs.Truncation
import WaylandDoc.Proofs.PageSymbols
import WaylandDoc.Proofs.PageContent
import WaylandDoc.Proofs.Notices
import WaylandDoc.Proofs.Behind
import WaylandDoc.Proofs.Fragments
import WaylandDoc.Proofs.Completion
import WaylandDoc.Proofs.Walk
import WaylandDoc.Proofs.Division
import WaylandDoc.Proofs.Foreign
import WaylandDoc.Proofs.Rendering
import WaylandDoc.Proofs.Rewriting
import WaylandDoc.Proofs.Additions
import WaylandDoc.Proofs.Agreement
import WaylandDoc.Proofs.Spelling
import WaylandDoc.Proofs.Lines
import WaylandDoc.Proofs.Mark
import WaylandDoc.Proofs.Expansion
import WaylandDoc.Proofs.Narration
import WaylandDoc.Proofs.Answers
import WaylandDoc.Proofs.References
import WaylandDoc.Proofs.Earlier
import WaylandDoc.Proofs.Siblings
import WaylandDoc.Proofs.Interleaving
