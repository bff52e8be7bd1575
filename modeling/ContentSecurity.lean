import ContentSecurity.Policy.Json
import ContentSecurity.Policy.Reading
import ContentSecurity.Proofs.Grammar.Language
import ContentSecurity.Source.Digest
import ContentSecurity.Proofs.Grammar.Classes
import ContentSecurity.Proofs.Grammar.Commitment
import ContentSecurity.Proofs.Grammar.Parts
import ContentSecurity.Proofs.Grammar.Derivation
import ContentSecurity.Proofs.Grammar.Trees
import ContentSecurity.Proofs.Grammar.Lists
import ContentSecurity.Proofs.Directive.Clause
import ContentSecurity.Proofs.Policy.Clauses
import ContentSecurity.Proofs.Source.Forms
import ContentSecurity.Proofs.Source.Reading
import ContentSecurity.Proofs.Source.Lists
import ContentSecurity.Proofs.Directive.Items
import ContentSecurity.Proofs.Directive.Values
import ContentSecurity.Proofs.Text.Joined
import ContentSecurity.Proofs.Policy.Reading
import ContentSecurity.Proofs.Directive.WellFormed
import ContentSecurity.Proofs.Directive.Canonical
import ContentSecurity.Proofs.Policy.Placement
import ContentSecurity.Proofs.Policy.Rendering
import ContentSecurity.Proofs.Policy.RoundTrip
import ContentSecurity.Proofs.Faultless
import ContentSecurity.Proofs.Policy.Occurrences
import ContentSecurity.Proofs.Policy.Piecewise
import ContentSecurity.Proofs.Policy.Editing
import ContentSecurity.Proofs.Policy.Naming
import ContentSecurity.Proofs.Policy.Limits
import ContentSecurity.Proofs.Directive.Respelling
import ContentSecurity.Proofs.Policy.Rewriting
import ContentSecurity.Proofs.Policy.LetterCase
import ContentSecurity.Proofs.Policy.Spacing
import ContentSecurity.Proofs.Policy.Equivalence
import ContentSecurity.Proofs.Policy.JsonForm
import ContentSecurity.Proofs.Policy.Merging
import ContentSecurity.Proofs.Grammar.Nodes
import ContentSecurity.Proofs.Grammar.StandAlone
import ContentSecurity.Proofs.Grammar.Attempts
import ContentSecurity.Proofs.Grammar.Lockstep
import ContentSecurity.Proofs.Grammar.Mismatch
import ContentSecurity.Proofs.Directive.WordByWord
import ContentSecurity.Proofs.Base64
import ContentSecurity.Proofs.Policy.Batches
import ContentSecurity.Proofs.Policy.NoneAlone
import ContentSecurity.Proofs.Source.Digest
import ContentSecurity.Proofs.Source.Texts
import ContentSecurity.Proofs.Grammar.Search
import ContentSecurity.Proofs.Source.Shapes
import ContentSecurity.Proofs.Policy.Log
