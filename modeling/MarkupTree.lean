import MarkupTree.Attributes.Basic
import MarkupTree.Attributes.Lemmas
import MarkupTree.Hash
import MarkupTree.Node.Basic
import MarkupTree.Node.Build
import MarkupTree.Node.Equality
import MarkupTree.Node.Hash
import MarkupTree.Node.Offset
import MarkupTree.Node.Source
import MarkupTree.Report
import MarkupTree.Span
import MarkupTree.Tag
import MarkupTree.Proofs.Attributes.Equality
import MarkupTree.Proofs.Attributes.History
import MarkupTree.Proofs.Attributes.Interleaving
import MarkupTree.Proofs.Attributes.Summary
import MarkupTree.Proofs.Draft.Parts
import MarkupTree.Proofs.Draft.Recoveries
import MarkupTree.Proofs.Hash.Classes
import MarkupTree.Proofs.Node.Changed
import MarkupTree.Proofs.Node.Equality
import MarkupTree.Proofs.Node.Forest
import MarkupTree.Proofs.Node.Hash
import MarkupTree.Proofs.Node.Interchange
import MarkupTree.Proofs.Node.Label
import MarkupTree.Proofs.Node.Replace
import MarkupTree.Proofs.Node.WellFormed
import MarkupTree.Proofs.Offset.Deepest
import MarkupTree.Proofs.Offset.Descent
import MarkupTree.Proofs.Offset.Nested
import MarkupTree.Proofs.Offset.Reordered
import MarkupTree.Proofs.Source.AttributeWrite
import MarkupTree.Proofs.Source.Characters
import MarkupTree.Proofs.Source.Context
import MarkupTree.Proofs.Source.Delimited
import MarkupTree.Proofs.Source.Layout
import MarkupTree.Proofs.Source.Unambiguous
import MarkupTree.Proofs.Source.Visible
import MarkupTree.Proofs.Tag.Grammar
import MarkupTree.Proofs.Tag.Opening
import MarkupTree.Proofs.Tag.Strict
import MarkupTree.Proofs.Tag.Truncated
