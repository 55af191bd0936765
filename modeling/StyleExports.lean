import StyleExports.Main
import StyleExports.Stylesheet.Outline
import StyleExports.Proofs.Synthesis.Bindings
import StyleExports.Proofs.Synthesis.Defaults
import StyleExports.Proofs.Synthesis.Reading
import StyleExports.Proofs.Synthesis.Repeat
import StyleExports.Proofs.Stylesheet.Sound
import StyleExports.Proofs.Stylesheet.Tiling
import StyleExports.Proofs.Stylesheet.Cutting
import StyleExports.Proofs.Passthrough
import StyleExports.Proofs.EsModule.Resume
import StyleExports.Proofs.EsModule.Leads
import StyleExports.Proofs.EsModule.DefaultExport
import StyleExports.Proofs.Synthesis.Merge
import StyleExports.Proofs.Extraction.LastWrite
import StyleExports.Proofs.Stylesheet.Nesting
import StyleExports.Proofs.Stylesheet.Meaning
import StyleExports.Proofs.Stylesheet.Replacement
import StyleExports.Proofs.Extraction.Rejection
import StyleExports.Proofs.Stylesheet.Remainder
import StyleExports.Proofs.Extraction.Again
import StyleExports.Proofs.Tree.Preorder
import StyleExports.Proofs.Stylesheet.Printing
import StyleExports.Proofs.Extraction.Rendering
import StyleExports.Proofs.Build.TwoPhases
import StyleExports.Proofs.Build.Interleaving
import StyleExports.Proofs.Build.NameClash
import StyleExports.Proofs.Text.Quoted
import StyleExports.Proofs.Tree.Json
import StyleExports.Proofs.Fragment.Legible
import StyleExports.Proofs.EsModule.Parted
import StyleExports.Proofs.EsModule.Separate
import StyleExports.Proofs.EsModule.Removal
import StyleExports.Proofs.EsModule.Retention
import StyleExports.Proofs.EsModule.Ranges
import StyleExports.Proofs.EsModule.Ending
import StyleExports.Proofs.EsModule.Commented
import StyleExports.Proofs.EsModule.Layout
import StyleExports.Proofs.Build.Output
import StyleExports.Proofs.Command.Written
import StyleExports.Proofs.Extraction.Collision
import StyleExports.Proofs.Build.Additional
import StyleExports.Proofs.EsModule.Initialiser
import StyleExports.Proofs.EsModule.Pattern
import StyleExports.Proofs.Tree.Repeated
import StyleExports.Proofs.Tree.RoundTrip
import StyleExports.Proofs.Build.Exports
import StyleExports.Proofs.Build.Suffixed
import StyleExports.Proofs.Extraction.Offences
import StyleExports.Proofs.Build.ClassNames
import StyleExports.Proofs.Stylesheet.Widening
import StyleExports.Proofs.Stylesheet.Parted
import StyleExports.Proofs.Command.Discovered
import StyleExports.Proofs.Command.Spared
import StyleExports.Proofs.Command.Initial
import StyleExports.Proofs.Build.ClassSuffixes
import StyleExports.Proofs.EsModule.Seam
import StyleExports.Proofs.Casing
import StyleExports.Proofs.Config.Excluded
