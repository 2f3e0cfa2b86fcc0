import Quilon.Ast.Nodes
import Quilon.Library.Transition
import Quilon.Library.Worklist
import Quilon.Ast.Reachability
import Quilon.Ast.Within
import Quilon.Deferral
import Quilon.Machine
import Quilon.Typechecker.Overloads
import Quilon.Codegen.Mangle
import Quilon.Codegen.Equiv.Mangle
import Quilon.Machine.Transitions
import Quilon.Machine.Provenance
import Quilon.Ast.Equiv.Reachability
import Quilon.Machine.Equiv.Slots
import Quilon.Deferral.Equiv.LaunchScopes
import Quilon.Machine.Equiv.Launches
import Quilon.Deferral.Equiv.Walk
import Quilon.Deferral.Equiv.Forces
import Quilon.Machine.Equiv.Promises
import Quilon.Runtime.Equiv.Scheduler
import Quilon.Runtime.Scheduler
import Quilon.Runtime.Equiv.Deferred
import Quilon.Runtime.Equiv.Guards
import Quilon.Runtime.Equiv.LaunchScope
import Quilon.Runtime.Equiv.AtomicBinding
import Quilon.Runtime.Equiv.Server
import Quilon.Codegen.Equiv.AtomicSections
import Quilon.Typechecker.FiberSharing
import Quilon.Typechecker.Equiv.FiberSharing
import Quilon.Machine.Sharing
import Quilon.Machine.Equiv.Names
import Quilon.Machine.Equiv.Sharing
import Quilon.Runtime.Trap
import Quilon.Runtime.Equiv.Trap
import Quilon.Library.Counting
import Quilon.Runtime.Blocking
import Quilon.Runtime.Equiv.Blocking
import Quilon.Library.Segments
import Quilon.Runtime.Stdin
import Quilon.Runtime.Equiv.Stdin
import Quilon.Runtime.Connection
import Quilon.Runtime.Equiv.Connection
import Quilon.Runtime.FiberStacks
import Quilon.Runtime.Equiv.FiberStacks
import Quilon.Library.Positions
import Quilon.Codegen.Evaluation
import Quilon.Codegen.Equiv.Evaluation
import Quilon.Ast.Equiv.Captures
import Quilon.Library.Lookup
import Quilon.Codegen.Occurrences
import Quilon.Codegen.NameTables
import Quilon.Codegen.Equiv.NameTables
import Quilon.Codegen.Equiv.ProgramNames
import Quilon.Library.Subslice
import Quilon.Runtime.Http
import Quilon.Runtime.Equiv.Http
import Quilon.Library.Graphemes
import Quilon.Library.GraphemeSeams
import Quilon.Library.Utf8
import Quilon.Runtime.Text
import Quilon.Runtime.Equiv.Text
import Quilon.Library.Aggregates
import Quilon.Ast.Types
import Quilon.Typechecker.TypeDeclarations
import Quilon.Typechecker.Equiv.TypeDeclarations
import Quilon.Codegen.Sums
import Quilon.Codegen.Equiv.SumLayouts
import Quilon.Codegen.Equiv.SumValues
import Quilon.Codegen.Equiv.ResultPayloads
import Quilon.Codegen.Equiv.SumBits
import Quilon.Codegen.Equiv.Sums
import Quilon.Testing.Registry
import Quilon.Testing.Selection
import Quilon.Testing.Meaning
import Quilon.Testing.Equiv.Selection
import Quilon.Testing.Equiv.PlainFiles
import Quilon.Testing.Equiv.Offered
import Quilon.Runtime.Equiv.Joining
import Quilon.Library.Offsets
import Quilon.Runtime.Indexing
import Quilon.Runtime.Equiv.Indexing
import Quilon.Library.GraphemeCuts
import Quilon.Runtime.Equiv.Matching
import Quilon.Runtime.Framing
import Quilon.Runtime.Equiv.Chunks
import Quilon.Runtime.Equiv.Framing
import Quilon.Library.Utf8Prefix
import Quilon.Runtime.Streaming
import Quilon.Runtime.Equiv.Streaming
import Quilon.Library.HashTable
import Quilon.Runtime.Collections
import Quilon.Runtime.Equiv.Collections
import Quilon.Library.BinarySearch
import Quilon.Diagnostics.SourceMap
import Quilon.Diagnostics.Equiv.SourceMap
import Quilon.Library.DepthFirst
import Quilon.Ast.Walk
import Quilon.Modules.Loader
import Quilon.Modules.Equiv.Search
import Quilon.Modules.Equiv.Linking
import Quilon.Typechecker.Registration
import Quilon.Typechecker.Equiv.Overloads
import Quilon.Library.Utf8Ascii
import Quilon.Corelib.Text
import Quilon.Corelib.BlankLine
import Quilon.Corelib.Equiv.Text
import Quilon.Corelib.Equiv.BlankLine
import Quilon.Corelib.Equiv.Url
import Quilon.Corelib.Equiv.Cli
import Quilon.Corelib.Cli
import Quilon.Library.Positional
import Quilon.Library.Results
import Quilon.Library.Overlay
import Quilon.Typechecker.RecordUpdate
import Quilon.Typechecker.Equiv.RecordUpdate
import Quilon.Codegen.RecordUpdate
import Quilon.Codegen.Equiv.RecordParts
import Quilon.Codegen.Equiv.RecordUpdate
import Quilon.Library.CountedLoop
import Quilon.Codegen.Ranges
import Quilon.Codegen.Equiv.RangeBounds
import Quilon.Codegen.Equiv.Ranges
import Quilon.Library.Nesting
import Quilon.Runtime.Bidi
import Quilon.Lexer.Token
import Quilon.Lexer.Scan
import Quilon.Lexer.Tokenize
import Quilon.Lexer.Equiv.Segments
import Quilon.Lexer.Equiv.Lexemes
import Quilon.Lexer.Equiv.Controls
import Quilon.Lexer.Equiv.TrojanSource
import Quilon.Lexer.Equiv.StringBounds
import Quilon.Deferral.Equiv.FixedPoint
import Quilon.Runtime.Equiv.Numbers
import Quilon.Codegen.Equiv.Rendering
import Quilon.Lsp.Equiv.Wire
import Quilon.Runtime.Equiv.Inboxes
