import DomainAtlas.Source
import DomainAtlas.Model.Place
import DomainAtlas.TypeGuard
import DomainAtlas.Printer
import DomainAtlas.Validation.Rules
import DomainAtlas.Editing.Session
import DomainAtlas.Main
import DomainAtlas.Proofs.Grammar.Phrase
import DomainAtlas.Proofs.Grammar.Reads
import DomainAtlas.Proofs.Grammar.Members
import DomainAtlas.Proofs.Grammar.Contexts
import DomainAtlas.Proofs.Grammar.Maps
import DomainAtlas.Proofs.Grammar.Documents
import DomainAtlas.Proofs.Text.Quoted
import DomainAtlas.Proofs.Token.Scan
import DomainAtlas.Proofs.Token.Slices
import DomainAtlas.Proofs.Token.Spans
import DomainAtlas.Proofs.Text.Trim
import DomainAtlas.Proofs.Printing.Spelling
import DomainAtlas.Proofs.Model.WellFormed
import DomainAtlas.Proofs.Printing.Types
import DomainAtlas.Proofs.Model.Fields
import DomainAtlas.Proofs.Printing.Members
import DomainAtlas.Proofs.Printing.Blocks
import DomainAtlas.Proofs.Printing.Elements
import DomainAtlas.Proofs.Printing.Maps
import DomainAtlas.Proofs.Grammar.Yields
import DomainAtlas.Proofs.Model.OfSource
import DomainAtlas.Proofs.Printing.RoundTrip
import DomainAtlas.Proofs.Validation.Groups
import DomainAtlas.Proofs.Validation.Codes
import DomainAtlas.Proofs.Validation.Keeping
import DomainAtlas.Proofs.Validation.SharedNames
import DomainAtlas.Proofs.Validation.Validity
import DomainAtlas.Proofs.Validation.SharedReports
import DomainAtlas.Proofs.Editing.Places
import DomainAtlas.Proofs.Editing.Clean
import DomainAtlas.Proofs.Editing.Growing
import DomainAtlas.Proofs.Editing.Batches
import DomainAtlas.Proofs.Editing.Preserving
import DomainAtlas.Proofs.Editing.NormalForms
import DomainAtlas.Proofs.Editing.Targets
import DomainAtlas.Proofs.Editing.Appending
import DomainAtlas.Proofs.Editing.Identities
import DomainAtlas.Proofs.Editing.Singly
import DomainAtlas.Proofs.Grammar.Locality
import DomainAtlas.Proofs.Grammar.Boundaries
import DomainAtlas.Proofs.Grammar.Recovery
import DomainAtlas.Proofs.Grammar.Diagnostics
import DomainAtlas.Proofs.Editing.WellNamed
import DomainAtlas.Proofs.Editing.Written
import DomainAtlas.Proofs.Grammar.Places
import DomainAtlas.Proofs.Model.ParseErrors
import DomainAtlas.Proofs.Grammar.Trivia
import DomainAtlas.Proofs.CommandLine.Files
import DomainAtlas.Proofs.CommandLine.Formatting
import DomainAtlas.Proofs.Grammar.Truncation
import DomainAtlas.Proofs.Grammar.Stalls
import DomainAtlas.Proofs.Grammar.StalledMaps
import DomainAtlas.Proofs.Grammar.Incomplete
import DomainAtlas.Proofs.Model.BrokenOff
import DomainAtlas.Proofs.Model.TypeGuard
import DomainAtlas.Proofs.Model.CanonicalTypes
import DomainAtlas.Proofs.Printing.AcceptedTypes
import DomainAtlas.Proofs.Validation.ByCode
import DomainAtlas.Proofs.Validation.Traversal
import DomainAtlas.Proofs.Validation.TypeReports
import DomainAtlas.Proofs.Validation.MapReports
import DomainAtlas.Proofs.Token.Longest
import DomainAtlas.Proofs.Token.Malformed
import DomainAtlas.Proofs.Model.Interleaving
import DomainAtlas.Proofs.Printing.RelationshipForms
import DomainAtlas.Proofs.Editing.Independence
import DomainAtlas.Proofs.Editing.Refusals
import DomainAtlas.Proofs.Editing.Suggestions
import DomainAtlas.Proofs.Token.Positions
import DomainAtlas.Proofs.Token.Literals
import DomainAtlas.Proofs.Model.TypeRefReports
import DomainAtlas.Proofs.Printing.TextLines
import DomainAtlas.Proofs.Printing.Pen
import DomainAtlas.Proofs.Printing.LineContents
import DomainAtlas.Proofs.Printing.Indentation
import DomainAtlas.Proofs.Text.Words
import DomainAtlas.Proofs.Printing.Names
import DomainAtlas.Proofs.Validation.Repetitions
