import Docweave.Document
import Docweave.Listing
import Docweave.Text.Case
import Docweave.Pattern.Reader
import Docweave.Date.Limit
import Docweave.Params
import Docweave.Matcher.Wording
import Docweave.Matcher.Descriptor
import Docweave.Matchers
import Docweave.Generator.Builtin
import Docweave.Supply
import Docweave.Directive.Copy
import Docweave.Directive.Content
import Docweave.Directive.Made
import Docweave.Composition
import Docweave.Registry
import Docweave.CommandLine
import Docweave.Main
import Docweave.Proofs.Store.Changes
import Docweave.Proofs.Store.Laws
import Docweave.Proofs.Store.InPlace
import Docweave.Proofs.Composing.Completeness
import Docweave.Proofs.References.Overlays
import Docweave.Proofs.References.Part
import Docweave.Proofs.Composing.Ending
import Docweave.Proofs.Composing.Backends
import Docweave.Proofs.Resolving.Composed
import Docweave.Proofs.Resolving.Documents
import Docweave.Proofs.Composing.Untouched
import Docweave.Proofs.Making.Counting
import Docweave.Proofs.Pointer.Canonical
import Docweave.Proofs.Making.Sharing
import Docweave.Proofs.Including.Contents
import Docweave.Proofs.Composing.Placing
import Docweave.Proofs.Including.Isolation
import Docweave.Proofs.Including.Caching
import Docweave.Proofs.Composing.Lining
import Docweave.Proofs.Composing.Repeating
import Docweave.Proofs.Composing.Stalling
import Docweave.Proofs.Composing.InsideOut
import Docweave.Proofs.Resolving.WritingBack
import Docweave.Proofs.Resolving.Returning
import Docweave.Proofs.Resolving.Cycles
import Docweave.Proofs.Store.Removals
import Docweave.Proofs.Matching.Structure
import Docweave.Proofs.References.Copying
import Docweave.Proofs.Including.Nesting
import Docweave.Proofs.Including.Inert
import Docweave.Proofs.Addresses
import Docweave.Proofs.Passing
import Docweave.Proofs.Matching.Explaining
import Docweave.Proofs.Matching.Storing
import Docweave.Proofs.Leaves
import Docweave.Proofs.Pointer.Ancestry
import Docweave.Proofs.Pointer.Escaping
import Docweave.Proofs.Locations
import Docweave.Proofs.Matching.Casing
import Docweave.Proofs.Matching.Numbers
import Docweave.Proofs.CommandLine.Rooting
import Docweave.Proofs.Listing
import Docweave.Proofs.Including.Keeping
import Docweave.Proofs.References.Tracing
import Docweave.Proofs.References.Ending
