import ConditionalText.Main
import ConditionalText.Proofs.Nesting.Blocks
import ConditionalText.Proofs.Predicate.Lookup
import ConditionalText.Proofs.Preprocess.Offsets
import ConditionalText.Proofs.Preprocess.Output
import ConditionalText.Proofs.SourceMap.Segments
import ConditionalText.Proofs.SourceMap.Vlq
import ConditionalText.Proofs.SourceMap.Decoding
import ConditionalText.Proofs.Directive.Pattern
import ConditionalText.Proofs.Directive.Lines
import ConditionalText.Proofs.Preprocess.Faults
import ConditionalText.Proofs.Predicate.Operands
import ConditionalText.Proofs.Predicate.Precedence
import ConditionalText.Proofs.Predicate.Rendering
import ConditionalText.Proofs.Preprocess.Relocation
import ConditionalText.Proofs.Preprocess.Concatenation
import ConditionalText.Proofs.Preprocess.LineEndings
import ConditionalText.Proofs.Preprocess.Extension
import ConditionalText.Proofs.Preprocess.OutputLines
import ConditionalText.Proofs.Preprocess.Checked
import ConditionalText.Proofs.Files.Path
import ConditionalText.Proofs.Files.Tree
import ConditionalText.Proofs.Files.Directories
import ConditionalText.Proofs.CommandLine.JobOrder
import ConditionalText.Proofs.Files.DirectoryRun
import ConditionalText.Proofs.Nesting.InPlace
import ConditionalText.Proofs.Predicate.Composition
import ConditionalText.Proofs.Preprocess.Relevance
import ConditionalText.Proofs.Files.Effects
import ConditionalText.Proofs.Predicate.Comparison
import ConditionalText.Proofs.Cuts.Marks
import ConditionalText.Proofs.Predicate.ViablePrefix
import ConditionalText.Proofs.Text.Location
import ConditionalText.Proofs.SourceMap.VlqCodec
import ConditionalText.Proofs.CommandLine.Environment
import ConditionalText.Proofs.SourceMap.JsonText
