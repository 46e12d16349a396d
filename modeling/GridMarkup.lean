import GridMarkup.ClassName
import GridMarkup.ClassName.Rule
import GridMarkup.Command.Arguments
import GridMarkup.Command.Duration
import GridMarkup.Command.Message
import GridMarkup.Command.Run
import GridMarkup.Compile
import GridMarkup.Diagnostic
import GridMarkup.Element
import GridMarkup.Expansion
import GridMarkup.Fault
import GridMarkup.FileTree
import GridMarkup.FileTree.Compile
import GridMarkup.Grid
import GridMarkup.Grid.Tags
import GridMarkup.Main
import GridMarkup.Notice
import GridMarkup.OpenElements
import GridMarkup.Path
import GridMarkup.Position
import GridMarkup.Proofs.Addresses
import GridMarkup.Proofs.Attributes
import GridMarkup.Proofs.Batches
import GridMarkup.Proofs.Blocks
import GridMarkup.Proofs.Boundaries
import GridMarkup.Proofs.Buffers
import GridMarkup.Proofs.ClassLists
import GridMarkup.Proofs.Classes
import GridMarkup.Proofs.Closing
import GridMarkup.Proofs.Codec
import GridMarkup.Proofs.Conditional
import GridMarkup.Proofs.Conversion
import GridMarkup.Proofs.Cursors
import GridMarkup.Proofs.Cutting
import GridMarkup.Proofs.Decoding.Blocks
import GridMarkup.Proofs.Decoding.Clashes
import GridMarkup.Proofs.Decoding.Reading
import GridMarkup.Proofs.Decoding.Rows
import GridMarkup.Proofs.Directories
import GridMarkup.Proofs.Document
import GridMarkup.Proofs.Drafts
import GridMarkup.Proofs.Excerpts
import GridMarkup.Proofs.Extending
import GridMarkup.Proofs.Faults
import GridMarkup.Proofs.Frames
import GridMarkup.Proofs.Grid
import GridMarkup.Proofs.InTurn
import GridMarkup.Proofs.Joined
import GridMarkup.Proofs.Layout
import GridMarkup.Proofs.LineEnds.Blocks
import GridMarkup.Proofs.LineEnds.Compiling
import GridMarkup.Proofs.LineEnds.Expanding
import GridMarkup.Proofs.LineEnds.Reading
import GridMarkup.Proofs.LineEnds.Text
import GridMarkup.Proofs.LineEnds.Writing
import GridMarkup.Proofs.Nesting
import GridMarkup.Proofs.Normalising
import GridMarkup.Proofs.OpenBlocks
import GridMarkup.Proofs.OpenRows
import GridMarkup.Proofs.Origins
import GridMarkup.Proofs.Passes
import GridMarkup.Proofs.Positions
import GridMarkup.Proofs.RawText
import GridMarkup.Proofs.ReadBack
import GridMarkup.Proofs.Reading
import GridMarkup.Proofs.References
import GridMarkup.Proofs.Repairs
import GridMarkup.Proofs.RoundTrip
import GridMarkup.Proofs.RowFrames
import GridMarkup.Proofs.Rows
import GridMarkup.Proofs.Rules
import GridMarkup.Proofs.Scanned
import GridMarkup.Proofs.Search
import GridMarkup.Proofs.Sent
import GridMarkup.Proofs.Slices
import GridMarkup.Proofs.Sources
import GridMarkup.Proofs.Stages
import GridMarkup.Proofs.Templates
import GridMarkup.Proofs.Trees
import GridMarkup.Proofs.Verbatim
import GridMarkup.Proofs.Vocabulary
import GridMarkup.Proofs.Walk
import GridMarkup.Proofs.Written
import GridMarkup.Reply
import GridMarkup.Resource.Block
import GridMarkup.Resource.Conditional
import GridMarkup.Resource.Kind
import GridMarkup.Resource.Layout
import GridMarkup.Scan
import GridMarkup.Scan.Attributes
import GridMarkup.Stage
import GridMarkup.Text.Blank
import GridMarkup.Text.Escape
import GridMarkup.Text.Indentation
import GridMarkup.Text.Lines
import GridMarkup.Text.Reference
import GridMarkup.Text.Search
import GridMarkup.Token
import GridMarkup.Token.Classes
import GridMarkup.Token.Json
import GridMarkup.Token.Write
