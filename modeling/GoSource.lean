import GoSource.Unicode.Ranges
import GoSource.Unicode.Letter
import GoSource.Unicode.DecimalDigit
import GoSource.Unicode.Uppercase
import GoSource.Unicode.Concealed
import GoSource.Text.Segment
import GoSource.Text.Pos
import GoSource.Text.SourceFile
import GoSource.Text.Lossy
import GoSource.Text.Rune
import GoSource.Token
import GoSource.Diagnostic
import GoSource.Text.Reader
import GoSource.Literal.Number
import GoSource.Literal.Integer
import GoSource.Literal.Escape
import GoSource.Literal.Quoted
import GoSource.Literal.Shown
import GoSource.Lexeme
import GoSource.TokenStream
import GoSource.Scanner
import GoSource.Listing
import GoSource.Tree.Basic
import GoSource.Tree.NodeMap
import GoSource.Grammar.State
import GoSource.Grammar.Rules
import GoSource.Grammar.Parameter
import GoSource.Grammar.TypeExpr
import GoSource.Grammar.Expression
import GoSource.Grammar.Statement
import GoSource.Grammar.Declaration
import GoSource.Grammar.Parse
import GoSource.Typing.Kind
import GoSource.Typing.Target
import GoSource.Typing.Fingerprint
import GoSource.Typing.Shape
import GoSource.Typing.Table
import GoSource.Typing.Fault
import GoSource.Typing.Layout
import GoSource.Typing.Completion
import GoSource.Typing.Construct
import GoSource.Typing.Relation
import GoSource.Package.Object
import GoSource.Package.Fault
import GoSource.Package.State
import GoSource.Package.Collect
import GoSource.Package.Meaning
import GoSource.Package.TypeExpr
import GoSource.Package.Value
import GoSource.Package.Declaration
import GoSource.Package.Resolve
import GoSource.CommandLine.FileTree
import GoSource.CommandLine
import GoSource.Main
import GoSource.Proofs.Grammar.Move
import GoSource.Proofs.Grammar.Agree
import GoSource.Proofs.Grammar.Primitive
import GoSource.Proofs.Grammar.Parameter
import GoSource.Proofs.Grammar.TypeExpr
import GoSource.Proofs.Grammar.Expression
import GoSource.Proofs.Grammar.Statement
import GoSource.Proofs.Grammar.Declaration
import GoSource.Proofs.Grammar.Closure
import GoSource.Proofs.Grammar.File
import GoSource.Proofs.Grammar.Totality
import GoSource.Proofs.Grammar.Leaves
import GoSource.Proofs.Grammar.Forest
import GoSource.Proofs.Scanner.Runes
import GoSource.Proofs.Scanner.Lossless
import GoSource.Proofs.Scanner.Words
import GoSource.Proofs.Grammar.Forward
import GoSource.Proofs.Grammar.TypeWords
import GoSource.Proofs.Grammar.SignatureWords
import GoSource.Proofs.Typing.Canonical
import GoSource.Proofs.Typing.Completable
import GoSource.Proofs.Typing.Completing
import GoSource.Proofs.Typing.Descriptors
import GoSource.Proofs.Typing.Ending
import GoSource.Proofs.Typing.Fingerprints
import GoSource.Proofs.Typing.Frozen
import GoSource.Proofs.Typing.Layouts
import GoSource.Proofs.Typing.Reachable
import GoSource.Proofs.Typing.Writable
import GoSource.Proofs.Package.Universe
import GoSource.Proofs.Package.Denotes
import GoSource.Proofs.Scanner.Semicolons
import GoSource.Proofs.Scanner.Lines
import GoSource.Proofs.Package.Spelling
import GoSource.Proofs.Grammar.VariableWords
import GoSource.Proofs.Package.Variable
import GoSource.Proofs.Package.RoundTrip
import GoSource.Proofs.Package.Descent
import GoSource.Proofs.Package.Work
import GoSource.Proofs.Package.Conduct
import GoSource.Proofs.Package.Lawful
import GoSource.Proofs.Package.Collected
import GoSource.Proofs.Package.Passes
import GoSource.Proofs.Package.Isolation
import GoSource.Proofs.Package.Order
import GoSource.Proofs.Grammar.Restart
import GoSource.Proofs.Grammar.Traces
import GoSource.Proofs.Grammar.Twins
import GoSource.Proofs.Grammar.TwinRuns
import GoSource.Proofs.Grammar.Budget
import GoSource.Proofs.Package.Containment
import GoSource.Proofs.Typing.Tidy
import GoSource.Proofs.Package.Tame
import GoSource.Proofs.Package.Keeping
import GoSource.Proofs.Package.Careful
import GoSource.Proofs.Package.Layered
import GoSource.Proofs.Package.Recursion
import GoSource.Proofs.Scanner.Quoted
import GoSource.Proofs.Scanner.Locality
import GoSource.Proofs.Scanner.Respelling
import GoSource.Proofs.Scanner.Comments
import GoSource.Proofs.Grammar.Lookahead
import GoSource.Proofs.Grammar.Rendering
import GoSource.Proofs.Grammar.ExpressionWords
import GoSource.Proofs.Grammar.Printing
import GoSource.Proofs.Scanner.Positions
import GoSource.Proofs.Scanner.Rebinding
import GoSource.Proofs.Grammar.Imports
import GoSource.Proofs.Package.ImportPaths
import GoSource.Proofs.Typing.Renaming
import GoSource.Proofs.Typing.Forms
import GoSource.Proofs.Typing.Founded
import GoSource.Proofs.Typing.Mirrors
import GoSource.Proofs.Typing.Likeness
import GoSource.Proofs.Typing.Mimics
import GoSource.Proofs.Typing.Pristine
import GoSource.Proofs.Package.Tallies
import GoSource.Proofs.Package.Blind
import GoSource.Proofs.Package.Afresh
import GoSource.Proofs.Literal.Quoting
import GoSource.Proofs.Scanner.Reading
import GoSource.Proofs.Scanner.TextEnd
import GoSource.Proofs.Grammar.Located
import GoSource.Proofs.Literal.NumberGrammar
import GoSource.Proofs.Literal.NumberParts
import GoSource.Proofs.Literal.NumberClasses
import GoSource.Proofs.Literal.IntegerValues
import GoSource.Proofs.Scanner.QuotedTexts
import GoSource.Proofs.Grammar.Visits
import GoSource.Proofs.Scanner.Flaws
import GoSource.Proofs.Scanner.FlawReports
import GoSource.Proofs.Grammar.ErrorLines
import GoSource.Proofs.Grammar.ArrayWords
import GoSource.Proofs.Grammar.Tags
import GoSource.Proofs.Grammar.Modes
import GoSource.Proofs.Grammar.Brackets
import GoSource.Proofs.Grammar.Deeds
import GoSource.Proofs.Grammar.DeedRuns
import GoSource.Proofs.Grammar.Headers
import GoSource.Proofs.Grammar.Attached
import GoSource.Proofs.Scanner.Rewinding
import GoSource.Proofs.Typing.MethodSets
import GoSource.Proofs.Typing.Relations
import GoSource.Proofs.Typing.Persistence
import GoSource.Proofs.Package.Expresses
import GoSource.Proofs.Package.Senses
import GoSource.Proofs.Package.Standing
import GoSource.Proofs.Package.Signifies
import GoSource.Proofs.Package.Grounds
import GoSource.Proofs.Package.Entities
import GoSource.Proofs.Package.Answering
import GoSource.Proofs.Package.Soundness
import GoSource.Proofs.Package.Honest
import GoSource.Proofs.Package.Given
import GoSource.Proofs.Package.Sanity
import GoSource.Proofs.Package.Agreement
import GoSource.Proofs.Grammar.Abreast
import GoSource.Proofs.Grammar.AbreastEnds
import GoSource.Proofs.Grammar.SameWords
import GoSource.Proofs.Grammar.SpeltTypes
import GoSource.Proofs.Package.Entered
import GoSource.Proofs.Package.SameTypes
import GoSource.Proofs.Typing.Declared
import GoSource.Proofs.Package.Methods
import GoSource.Proofs.Grammar.Grouping
import GoSource.Proofs.Scanner.Listing
