import MarkupEditor.Editing.Handle
import MarkupEditor.Json.Reader
import MarkupEditor.Main
import MarkupEditor.Markup.Tokens
import MarkupEditor.Server.Config
import MarkupEditor.Server.Routes
import MarkupEditor.Proofs.Printer.RoundTrip
import MarkupEditor.Proofs.Printer.Regeneration
import MarkupEditor.Proofs.Printer.Spellings
import MarkupEditor.Proofs.Editing.Forms
import MarkupEditor.Proofs.Markup.Walks
import MarkupEditor.Proofs.Editing.Marks
import MarkupEditor.Proofs.Editing.Tagging
import MarkupEditor.Proofs.Editing.Legibility
import MarkupEditor.Proofs.Editing.Sessions
import MarkupEditor.Proofs.Editing.Generations
import MarkupEditor.Proofs.Editing.LockstepEdits
import MarkupEditor.Proofs.Editing.Areas
import MarkupEditor.Proofs.Editing.Rewriting
import MarkupEditor.Proofs.Store.Saves
import MarkupEditor.Proofs.Store.Slots
import MarkupEditor.Proofs.Store.Lanes
import MarkupEditor.Proofs.CommandLine.LastSave
import MarkupEditor.Proofs.Server.Components
import MarkupEditor.Proofs.Files.Ways
import MarkupEditor.Proofs.Json.Strings
import MarkupEditor.Proofs.Store.Files
import MarkupEditor.Proofs.Editing.Removals
import MarkupEditor.Proofs.Editing.Commuting
import MarkupEditor.Proofs.Editing.Liveness
import MarkupEditor.Proofs.Editing.Picks
import MarkupEditor.Proofs.Editing.ElementForms
import MarkupEditor.Proofs.Editing.Stripping
import MarkupEditor.Proofs.Editing.Retagging
import MarkupEditor.Proofs.Editing.AttributeEdits
import MarkupEditor.Proofs.Parser.Slices
import MarkupEditor.Proofs.Parser.Tokens
import MarkupEditor.Proofs.Parser.Keyed
import MarkupEditor.Proofs.Editing.StyleKeeping
import MarkupEditor.Proofs.Printer.Reparsing
import MarkupEditor.Proofs.Editing.SpreadStyles
import MarkupEditor.Proofs.Editing.StyleNames
import MarkupEditor.Proofs.Editing.Repeating
import MarkupEditor.Proofs.Editing.AspectFrames
import MarkupEditor.Proofs.Parser.Termination
import MarkupEditor.Proofs.Parser.Escaped
import MarkupEditor.Proofs.Text.StringLiterals
import MarkupEditor.Proofs.Text.References
import MarkupEditor.Proofs.Parser.ErrorPlaces
import MarkupEditor.Proofs.Markup.Reports
import MarkupEditor.Proofs.Parser.Unmarked
import MarkupEditor.Proofs.Editing.Acyclic
import MarkupEditor.Proofs.Editing.InStep
