import Wasmsh.ExtentAgreement
import Wasmsh.Isolation
import Wasmsh.ScalarAssignment
import Wasmsh.FunctionLocals
import Wasmsh.PrefixAssignments
import Wasmsh.ErrorReports
import Wasmsh.CommandTemplates
import Wasmsh.ArrayLiterals
import Wasmsh.IndexedArrays
import Wasmsh.QuoteFlags
import Wasmsh.QuoteRoundTrip
import Wasmsh.ExtglobTexts
import Wasmsh.OperandDepth
import Wasmsh.ForLists
import Wasmsh.FsAtomicity
import Wasmsh.FsPermissions
import Wasmsh.FsListing
import Wasmsh.ShortCircuit
import Wasmsh.ArithBytes
import Wasmsh.ArithLexemes
import Wasmsh.ArithReturns
import Wasmsh.Pipe
import Wasmsh.VmExecutor
import Wasmsh.Redirects
import Wasmsh.NetworkAgreement
import Wasmsh.LexerCoverage
import Wasmsh.PrintedCommands
import Wasmsh.WaitingParser
import Wasmsh.SimpleCommandLoop
import Wasmsh.SimpleCommands
import Wasmsh.Library.FieldSplitting
import Wasmsh.FieldSplits
import Wasmsh.FileRewrites
import Wasmsh.Unzip
import Wasmsh.Tar
import Wasmsh.TarTrees
import Wasmsh.TarRoundTrip
import Wasmsh.TarNames
import Wasmsh.Conditionals
import Wasmsh.Parameters
import Wasmsh.Substrings
import Wasmsh.PatternRemoval
import Wasmsh.SymlinkChains
import Wasmsh.Library.Replacing
import Wasmsh.PatternSubstitution
import Wasmsh.ParameterOperators
import Wasmsh.DefaultOperators
import Wasmsh.EmptyCommands
import Wasmsh.WordTexts
import Wasmsh.Divisions
import Wasmsh.GlobLanguage
import Wasmsh.PendingErrors
import Wasmsh.RegexLiterals
import Wasmsh.PosixRegex
import Wasmsh.RegexReplacing
import Wasmsh.SedScripts
import Wasmsh.SedCycle
import Wasmsh.SedReference
import Wasmsh.GrepSearch
import Wasmsh.QuotedPatterns
import Wasmsh.NamerefCircles
import Wasmsh.BraceGroups
import Wasmsh.BraceExpansion
import Wasmsh.TestBuiltin
import Wasmsh.HeadTail
import Wasmsh.ShellQuote
import Wasmsh.GrepContext
import Wasmsh.Getopts
import Wasmsh.Library.Lcs
import Wasmsh.DiffVerdict
import Wasmsh.Printf
import Wasmsh.DiffScript
import Wasmsh.HeaderNames
import Wasmsh.SeqTerms
import Wasmsh.HexDumps
import Wasmsh.Calendar
import Wasmsh.Captures
