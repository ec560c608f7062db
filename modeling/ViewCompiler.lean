import ViewCompiler.Assembly
import ViewCompiler.Ast
import ViewCompiler.Ast.Expr
import ViewCompiler.Ast.Parse
import ViewCompiler.Ast.Reading
import ViewCompiler.Bytes
import ViewCompiler.Catalog
import ViewCompiler.Catalog.Builtin
import ViewCompiler.Checksum
import ViewCompiler.Code
import ViewCompiler.Code.Lower
import ViewCompiler.Code.Text
import ViewCompiler.CommandLine
import ViewCompiler.Diagnostic
import ViewCompiler.Environment
import ViewCompiler.Files
import ViewCompiler.Fingerprint
import ViewCompiler.GeneratedFile
import ViewCompiler.Log
import ViewCompiler.Log.Filter
import ViewCompiler.Log.Logger
import ViewCompiler.Log.Options
import ViewCompiler.Main
import ViewCompiler.Model
import ViewCompiler.Model.Analyze
import ViewCompiler.Model.Body
import ViewCompiler.Model.Finding
import ViewCompiler.Model.Header
import ViewCompiler.Service
import ViewCompiler.SourceFile
import ViewCompiler.Symbol
import ViewCompiler.Symbol.Table
import ViewCompiler.Template
import ViewCompiler.Template.Item
import ViewCompiler.Template.Name
import ViewCompiler.Template.Parse
import ViewCompiler.Template.Scan
import ViewCompiler.Template.Source
import ViewCompiler.Template.Write
import ViewCompiler.Token
import ViewCompiler.Token.Literal
import ViewCompiler.Token.Scan
import ViewCompiler.Unit
import ViewCompiler.Proofs.Findings
import ViewCompiler.Proofs.Lookup
import ViewCompiler.Proofs.Typing
import ViewCompiler.Proofs.BodyTyping
import ViewCompiler.Proofs.Headers
import ViewCompiler.Proofs.TypedModel
import ViewCompiler.Proofs.Resolved
import ViewCompiler.Proofs.LoweringTotal
import ViewCompiler.Proofs.Evaluation
import ViewCompiler.Proofs.ExprSimulation
import ViewCompiler.Proofs.StmtSimulation
import ViewCompiler.Proofs.LoweringMeaning
import ViewCompiler.Proofs.BlockConsumption
import ViewCompiler.Proofs.MemberConsumption
import ViewCompiler.Proofs.Numerals
import ViewCompiler.Proofs.RenderAppended
import ViewCompiler.Proofs.Lexemes
import ViewCompiler.Proofs.Scanning
import ViewCompiler.Proofs.WrittenTokens
import ViewCompiler.Proofs.WrittenMarkup
import ViewCompiler.Proofs.TemplateSoundness
import ViewCompiler.Proofs.Outlines
import ViewCompiler.Proofs.DeclaredNames
import ViewCompiler.Proofs.BuiltEnvironment
import ViewCompiler.Proofs.DeclarationPass
import ViewCompiler.Proofs.MarkupReading
import ViewCompiler.Proofs.ComponentBinding
import ViewCompiler.Proofs.ComponentIdentity
import ViewCompiler.Proofs.ControlFlow
import ViewCompiler.Proofs.CodeTyping
import ViewCompiler.Proofs.LoweringTyping
import ViewCompiler.Proofs.StatementTyping
import ViewCompiler.Proofs.ChildBlocks
import ViewCompiler.Proofs.FunctionTyping
import ViewCompiler.Proofs.Unplaced
import ViewCompiler.Proofs.SimilarReadings
import ViewCompiler.Proofs.NamedMethods
import ViewCompiler.Proofs.UniqueNames
import ViewCompiler.Proofs.Symbols
import ViewCompiler.Proofs.ModuleTyping
import ViewCompiler.Proofs.Linking
import ViewCompiler.Proofs.SymbolClosure
import ViewCompiler.Proofs.TypePreservation
import ViewCompiler.Proofs.MarkupImage
import ViewCompiler.Proofs.PrintedComponent
import ViewCompiler.Proofs.TemplatePlaces
import ViewCompiler.Proofs.TemplateImage
import ViewCompiler.Proofs.ReportOverrides
import ViewCompiler.Proofs.CodeBraces
import ViewCompiler.Proofs.SingleComponent
import ViewCompiler.Proofs.SingleReports
import ViewCompiler.Proofs.Walks
import ViewCompiler.Proofs.BlockExtent
import ViewCompiler.Proofs.DeclarationsInserted
import ViewCompiler.Proofs.MarkupBraces
import ViewCompiler.Proofs.DeclarationGate
import ViewCompiler.Proofs.TokenOffsets
import ViewCompiler.Proofs.CrossedText
import ViewCompiler.Proofs.TemplateOrigins
import ViewCompiler.Proofs.CopiedLines
import ViewCompiler.Proofs.Inheritance
import ViewCompiler.Proofs.ObjectLayout
import ViewCompiler.Proofs.Relabelling
import ViewCompiler.Proofs.RelabelledBodies
import ViewCompiler.Proofs.FileOrder
import ViewCompiler.Proofs.CircularReports
import ViewCompiler.Proofs.SeparateUnits
import ViewCompiler.Proofs.ErrorCodes
import ViewCompiler.Proofs.CircularBases
import ViewCompiler.Proofs.LinkedImage
import ViewCompiler.Proofs.LibraryOrder
import ViewCompiler.Proofs.LibraryClosure
import ViewCompiler.Proofs.LibraryLoading
import ViewCompiler.Proofs.QuietSteps
import ViewCompiler.Proofs.LookupReports
import ViewCompiler.Proofs.ProjectShape
import ViewCompiler.Proofs.ServiceHistory
import ViewCompiler.Proofs.ProcessHistory
import ViewCompiler.Proofs.PrintedModule
import ViewCompiler.Proofs.BuilderCalls
import ViewCompiler.Proofs.RenderProtocol
import ViewCompiler.Proofs.Grammar
import ViewCompiler.Proofs.GrammarSoundness
import ViewCompiler.Proofs.GrammarCompleteness
import ViewCompiler.Proofs.TreePrinter
import ViewCompiler.Proofs.PrintParse
import ViewCompiler.Proofs.ExpressionExtent
import ViewCompiler.Proofs.TemplatePrinter
import ViewCompiler.Proofs.TemplateRoundTrip
import ViewCompiler.Proofs.NameResolution
import ViewCompiler.Proofs.MalformedBodies
import ViewCompiler.Proofs.MalformedMembers
import ViewCompiler.Proofs.Progress
import ViewCompiler.Proofs.AddressText
import ViewCompiler.Proofs.StructTypes
import ViewCompiler.Proofs.NestedTags
import ViewCompiler.Proofs.TagNesting
import ViewCompiler.Proofs.NotedFindings
import ViewCompiler.Proofs.UnusedReports
import ViewCompiler.Proofs.UserLines
import ViewCompiler.Proofs.LineDirectives
import ViewCompiler.Proofs.TokenLayout
import ViewCompiler.Proofs.TextModes
import ViewCompiler.Proofs.MappedLines
import ViewCompiler.Proofs.CheckedReading
import ViewCompiler.Proofs.CheckedTokens
import ViewCompiler.Proofs.CheckedStretches
import ViewCompiler.Proofs.CheckedTags
import ViewCompiler.Proofs.CheckedTemplates
import ViewCompiler.Proofs.Checksums
import ViewCompiler.Proofs.SmallEdits
import ViewCompiler.Proofs.ShownRecords
import ViewCompiler.Proofs.JsonReading
import ViewCompiler.Proofs.JsonRecords
import ViewCompiler.Proofs.QuotedLiterals
import ViewCompiler.Proofs.BitwiseChecksum
import ViewCompiler.Proofs.ConstantTexts
import ViewCompiler.Proofs.StringPool
import ViewCompiler.Proofs.LegibleModules
import ViewCompiler.Proofs.Listing
import ViewCompiler.Proofs.CodeReader
import ViewCompiler.Proofs.TextReader
import ViewCompiler.Proofs.StringRequests
import ViewCompiler.Proofs.StringReferences
