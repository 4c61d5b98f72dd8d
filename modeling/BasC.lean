import BasC.Cli.QuotedWildcards
import BasC.Cli.Wildcard
import BasC.Cli.Redirection
import BasC.Lib.Traced
import BasC.Util.PrefixMap
import BasC.Cli.Parser
import BasC.Cli.Offered
import BasC.Cli.ArgvBounds
import BasC.Cli.Statements
import BasC.Cli.Truncation
import BasC.Cli.ReadCommand
import BasC.Cli.AliasExpansion
import BasC.Cli.AliasChain
import BasC.Cli.AliasTransparency
import BasC.Locale.Unicode
import BasC.Lib.Refinement
import BasC.Util.PrefixMapRuns
import BasC.Cli.OptRender
import BasC.Base.ItemListRuns
import BasC.Base.Memory
import BasC.Cli.OptCursor
import BasC.Base.ItemList
import BasC.Cli.Sequencing
import BasC.Cli.AliasResolution
import BasC.Cli.AliasTermination
import BasC.Cli.AliasCycles
import BasC.Cli.Comments
import BasC.Lib.Loop
import BasC.Base.Numerals
import BasC.Base.Scanf
import BasC.Proc.Pid
import BasC.App.Ppid
import BasC.Proc.PathFind
import BasC.Proc.SelfExe
import BasC.Cli.Program
import BasC.Io.File
import BasC.Lib.Transition
import BasC.Proc.Timer
import BasC.Proc.TimerThreads
import BasC.Base.Str
import BasC.Proc.FormatGdb
import BasC.Proc.Backtrace
import BasC.Base.TextList
import BasC.Base.TextListSequence
import BasC.Base.TextListRuns
import BasC.Base.Widening
import BasC.Cli.ArgsExpansion
import BasC.Cli.UnbalancedQuotes
import BasC.Cli.BraceItems
import BasC.Cli.EarlyFilter
import BasC.Cli.WildcardFilter
import BasC.Cli.OptAccount
import BasC.Cli.RedirectionCuts
import BasC.Cli.RedirectionOrder
import BasC.Cli.RedirectionSpelling
import BasC.Cli.RedirectionPieces
import BasC.Cli.RedirectionSpacing
import BasC.Cli.OptLetters
import BasC.Lib.RunningBest
import BasC.Util.PrefixMapSearch
import BasC.Util.PrefixMapHistory
import BasC.Base.ItemListStates
import BasC.Base.ItemListFailures
import BasC.Base.ItemListCapacity
import BasC.Base.ItemListDefined
import BasC.Base.TextListUnique
import BasC.Locale.UnicodeRuns
import BasC.Base.StrTokens
import BasC.Base.StrLines
import BasC.Proc.FrameLines
import BasC.Proc.GdbOutput
import BasC.Proc.GdbFormat
import BasC.Proc.TimerIntervals
import BasC.Proc.TimerPolls
import BasC.Cli.OptMemory
import BasC.Lib.TextBuffer
import BasC.Base.TextListJoin
import BasC.Lib.Comparison
import BasC.Base.StringOrder
import BasC.Lib.Occurrence
import BasC.Base.WideSearch
import BasC.Base.StrWords
import BasC.Cli.AliasHistory
import BasC.Proc.Stackdump
import BasC.Proc.Console
import BasC.Proc.ConsoleRuns
import BasC.Proc.ConsoleStatus
import BasC.Proc.HighlightColors
import BasC.Cli.Reporting
import BasC.Lib.Ledger
import BasC.Base.ItemListHeap
import BasC.Base.ItemListPrograms
import BasC.Lib.Ownership
import BasC.Cli.ArgsHeap
import BasC.Cli.ArgsOwnership
import BasC.Cli.ArgsPlaces
import BasC.Lib.Lifetime
import BasC.Cli.ArgvLifetime
import BasC.Proc.ThreadsHeap
import BasC.Proc.ThreadsOwnership
import BasC.Cli.AliasHeap
import BasC.Cli.AliasOwnership
import BasC.Proc.TopThreads
import BasC.Log.Lines
import BasC.Log.Verbosity
import BasC.Log.Uncolored
import BasC.Proc.DumpFd
