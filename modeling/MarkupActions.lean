import MarkupActions.CommandLine.Session
import MarkupActions.Json.Reader
import MarkupActions.Main
import MarkupActions.Proofs.Layouts
import MarkupActions.Proofs.Disabling
import MarkupActions.Proofs.Letters
import MarkupActions.Proofs.Scanning
import MarkupActions.Proofs.Rewriting
import MarkupActions.Proofs.Regions
import MarkupActions.Proofs.Closing
import MarkupActions.Proofs.Shadows
import MarkupActions.Proofs.Edits
import MarkupActions.Proofs.Patching
import MarkupActions.Proofs.Standing
import MarkupActions.Proofs.Payloads
import MarkupActions.Proofs.Renaming
import MarkupActions.Proofs.Containment
import MarkupActions.Proofs.Respelling
import MarkupActions.Proofs.Holding
import MarkupActions.Proofs.Edges
import MarkupActions.Proofs.Shells
import MarkupActions.Proofs.Passes
import MarkupActions.Proofs.Wrapped
import MarkupActions.Proofs.Enclosed
import MarkupActions.Proofs.Injection
import MarkupActions.Proofs.Remains
import MarkupActions.Proofs.Runs
import MarkupActions.Proofs.Trails
import MarkupActions.Proofs.Hiding
import MarkupActions.Proofs.Openers
import MarkupActions.Proofs.Unclosed
import MarkupActions.Proofs.Lone
import MarkupActions.Proofs.Precedence
import MarkupActions.Proofs.Styles
import MarkupActions.Proofs.Attributes
import MarkupActions.Proofs.RoundTrip
import MarkupActions.Proofs.Frames
import MarkupActions.Proofs.Framed
import MarkupActions.Proofs.Hunks
import MarkupActions.Proofs.Covers
import MarkupActions.Proofs.Shading
import MarkupActions.Proofs.Renamed
import MarkupActions.Proofs.Tables
import MarkupActions.Proofs.Idempotence
import MarkupActions.Proofs.Cuts
import MarkupActions.Proofs.Views
import MarkupActions.Proofs.Tidy
import MarkupActions.Proofs.Untouched
import MarkupActions.Proofs.Verbatim
import MarkupActions.Proofs.Solitary
import MarkupActions.Proofs.AttributeForm
import MarkupActions.Proofs.Turns
import MarkupActions.Proofs.JsonTexts
import MarkupActions.Proofs.JsonForms
import MarkupActions.Proofs.Silencing
import MarkupActions.Proofs.Stricter
import MarkupActions.Proofs.Lookups
import MarkupActions.Proofs.WellFormed
import MarkupActions.Proofs.Placing
import MarkupActions.Proofs.Planned
import MarkupActions.Proofs.Searching
import MarkupActions.Proofs.Removal
import MarkupActions.Proofs.Contents
import MarkupActions.Proofs.Seams
import MarkupActions.Proofs.Unfencing
import MarkupActions.Proofs.Bodies
import MarkupActions.Proofs.EditBlocks
import MarkupActions.Proofs.Changes
import MarkupActions.Proofs.MultiEdits
import MarkupActions.Proofs.Entities
import MarkupActions.Proofs.Dangling
import MarkupActions.Proofs.NestedEdits
import MarkupActions.Proofs.LiveTokens
import MarkupActions.Proofs.Retiring
import MarkupActions.Proofs.FixedTags
import MarkupActions.Proofs.Swapping
import MarkupActions.Proofs.TomlStrings
import MarkupActions.Proofs.TomlValues
import MarkupActions.Proofs.TomlSections
import MarkupActions.Proofs.SavedSettings
