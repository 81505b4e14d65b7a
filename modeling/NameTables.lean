import NameTables.Arrangement
import NameTables.CommandLine.Arguments
import NameTables.CommandLine.Run
import NameTables.Descriptor
import NameTables.Failure
import NameTables.FileStore
import NameTables.FileStore.Location
import NameTables.Format
import NameTables.Format.Basic
import NameTables.Format.FlatReader
import NameTables.Format.FlatWriter
import NameTables.Format.Lacking
import NameTables.Format.NestedReader
import NameTables.Format.NestedWriter
import NameTables.Format.Record
import NameTables.Format.Row
import NameTables.Format.Sink
import NameTables.Join
import NameTables.Main
import NameTables.Name
import NameTables.Names
import NameTables.Nesting
import NameTables.OrderedMap
import NameTables.Projection
import NameTables.Proofs.CommandLine.Convert
import NameTables.Proofs.CommandLine.Defaults
import NameTables.Proofs.CommandLine.Effects
import NameTables.Proofs.CommandLine.Runs
import NameTables.Proofs.Descriptor.Cuts
import NameTables.Proofs.Descriptor.Renamed
import NameTables.Proofs.FileStore
import NameTables.Proofs.FirstFailure
import NameTables.Proofs.Flat.Order
import NameTables.Proofs.Flat.Permutation
import NameTables.Proofs.Flat.Rereading
import NameTables.Proofs.Flat.RoundTrip
import NameTables.Proofs.Flat.Steps
import NameTables.Proofs.Flat.Written
import NameTables.Proofs.Format.Cells
import NameTables.Proofs.Format.Complete
import NameTables.Proofs.Format.Deletion
import NameTables.Proofs.Format.FirstFault
import NameTables.Proofs.Format.Headers
import NameTables.Proofs.Format.Lacking
import NameTables.Proofs.Format.Legible
import NameTables.Proofs.Format.LineEnds
import NameTables.Proofs.Format.Portable
import NameTables.Proofs.Format.Records
import NameTables.Proofs.Format.Refused
import NameTables.Proofs.Format.Returns
import NameTables.Proofs.Format.Rows
import NameTables.Proofs.Format.Ties
import NameTables.Proofs.Format.Unordered
import NameTables.Proofs.Format.Words
import NameTables.Proofs.Join.Converse
import NameTables.Proofs.Join.Failing
import NameTables.Proofs.Join.Fallback
import NameTables.Proofs.Join.Meaning
import NameTables.Proofs.Join.Own
import NameTables.Proofs.Join.Unmoved
import NameTables.Proofs.Labels
import NameTables.Proofs.Nested.Canonical
import NameTables.Proofs.Nested.Comments
import NameTables.Proofs.Nested.Concatenation
import NameTables.Proofs.Nested.Enclosing
import NameTables.Proofs.Nested.FullTarget
import NameTables.Proofs.Nested.Grammar
import NameTables.Proofs.Nested.Hierarchy
import NameTables.Proofs.Nested.Listing
import NameTables.Proofs.Nested.Order
import NameTables.Proofs.Nested.Preorder
import NameTables.Proofs.Nested.Projected
import NameTables.Proofs.Nested.Rendering
import NameTables.Proofs.Nested.Rereading
import NameTables.Proofs.Nested.RoundTrip
import NameTables.Proofs.Nested.Sorting
import NameTables.Proofs.Nested.Steps
import NameTables.Proofs.Nested.Unordered
import NameTables.Proofs.Nested.Written
import NameTables.Proofs.OrderedMap
import NameTables.Proofs.Projection.Composition
import NameTables.Proofs.Projection.Declared
import NameTables.Proofs.Projection.Failing
import NameTables.Proofs.Projection.First
import NameTables.Proofs.Projection.Meaning
import NameTables.Proofs.Projection.Moved
import NameTables.Proofs.Projection.Own
import NameTables.Proofs.Projection.Plain
import NameTables.Proofs.Projection.Reversal
import NameTables.Proofs.Table.Agreement
import NameTables.Proofs.Table.Coherence
import NameTables.Proofs.Table.Content
import NameTables.Proofs.Table.Declarations
import NameTables.Proofs.Table.EditRuns
import NameTables.Proofs.Table.Merging
import NameTables.Proofs.Table.Origins
import NameTables.Proofs.Table.OwnDeclarations
import NameTables.Proofs.Table.References
import NameTables.Proofs.Table.Rekeys
import NameTables.Proofs.Table.Requests
import NameTables.Proofs.Table.Retargets
import NameTables.Table
import NameTables.Table.Index
import NameTables.Table.Lookup
import NameTables.Table.Path
import NameTables.Table.Ranking
import NameTables.Table.Rekey
import NameTables.Text.Hidden
import NameTables.Text.Line
import NameTables.Text.Quoted
import NameTables.Text.Split
