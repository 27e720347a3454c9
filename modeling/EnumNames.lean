import EnumNames.Code.Artifact
import EnumNames.Code.Emitter
import EnumNames.Code.Layout
import EnumNames.Code.StringLiteral
import EnumNames.CommandLine
import EnumNames.Diagnostic.Basic
import EnumNames.Diagnostic.Code
import EnumNames.Diagnostic.Span
import EnumNames.Enumeration.Counter
import EnumNames.Enumeration.Resolve
import EnumNames.Enumeration.Table
import EnumNames.Enumeration.Underlying
import EnumNames.Failure
import EnumNames.Files.Access
import EnumNames.Files.Errno
import EnumNames.Files.Publish
import EnumNames.Files.Tree
import EnumNames.Grammar.Cursor
import EnumNames.Grammar.Forest
import EnumNames.Grammar.Match
import EnumNames.Grammar.Rule
import EnumNames.Grammar.Token
import EnumNames.Log
import EnumNames.Main
import EnumNames.Numeral
import EnumNames.Options
import EnumNames.Path
import EnumNames.Run
import EnumNames.Source.Comment
import EnumNames.Source.Declaration
import EnumNames.Source.IntLiteral
import EnumNames.Source.Load
import EnumNames.Source.Parse
import EnumNames.Source.Rune
import EnumNames.Text.Blank
import EnumNames.Text.Digit
import EnumNames.Text.Lowercase
import EnumNames.Text.Position
import EnumNames.Text.Printable
import EnumNames.Text.Quoted
import EnumNames.Text.Ranges
import EnumNames.Text.Split
import EnumNames.Text.Utf8
import EnumNames.Text.Word
import EnumNames.Proofs.DeclaredValues
import EnumNames.Proofs.IotaRule
import EnumNames.Proofs.DepthBound
import EnumNames.Proofs.Reading
import EnumNames.Proofs.Inversion
import EnumNames.Proofs.NestedText
import EnumNames.Proofs.Lexemes
import EnumNames.Proofs.Unplaced
import EnumNames.Proofs.RuneValue
import EnumNames.Proofs.WrittenBlock
import EnumNames.Proofs.BlockReading
import EnumNames.Proofs.ParsedNames
import EnumNames.Proofs.BalancedText
import EnumNames.Proofs.LayoutText
import EnumNames.Proofs.SectionFile
import EnumNames.Proofs.GeneratedFile
import EnumNames.Proofs.Regeneration
import EnumNames.Proofs.Boundary
import EnumNames.Proofs.NestedReading
import EnumNames.Proofs.DeclarationEnd
import EnumNames.Proofs.JoinedDeclarations
import EnumNames.Proofs.NodePlaces
import EnumNames.Proofs.SpecSeparation
import EnumNames.Proofs.AtomicOutput
import EnumNames.Proofs.OtherTypes
import EnumNames.Proofs.CodeLines
import EnumNames.Proofs.QuotedText
import EnumNames.Proofs.StringMethod
import EnumNames.Proofs.FileRows
import EnumNames.Proofs.MapKeys
import EnumNames.Proofs.DisplayOptions
import EnumNames.Proofs.BlockEntries
import EnumNames.Proofs.IndependentBlocks
import EnumNames.Proofs.RefusedSpecs
import EnumNames.Proofs.FirstOffence
import EnumNames.Proofs.AnalysisFailures
import EnumNames.Proofs.LineEnds
import EnumNames.Proofs.LineEndMatching
import EnumNames.Proofs.LineEndPlaces
import EnumNames.Proofs.Outline
import EnumNames.Proofs.LineEndReading
import EnumNames.Proofs.QuotedLiteral
import EnumNames.Proofs.GroupScanner
import EnumNames.Proofs.Locations
import EnumNames.Proofs.Extents
import EnumNames.Proofs.Seam
import EnumNames.Proofs.CutReading
import EnumNames.Proofs.RejectedFile
import EnumNames.Proofs.IntegerText
import EnumNames.Proofs.EmittedCode
import EnumNames.Proofs.LongLiteral
import EnumNames.Proofs.EmissionOutcomes
import EnumNames.Proofs.ValueSlice
import EnumNames.Proofs.NameMap
import EnumNames.Proofs.GuardSection
import EnumNames.Proofs.LocalNames
import EnumNames.Proofs.CommentPieces
import EnumNames.Proofs.IntegerLiterals
import EnumNames.Proofs.ArrayTypes
import EnumNames.Proofs.SourceDirectory
import EnumNames.Proofs.PathSpelling
import EnumNames.Proofs.RecordedTable
import EnumNames.Proofs.RuneSpelling
import EnumNames.Proofs.EmitterCalls
