import Ucg.Lib.Iteration
import Ucg.Lib.Segments
import Ucg.Lib.Search
import Ucg.Match
import Ucg.Lib.Simd
import Ucg.LiteralMatch
import Ucg.CodeUnitTable
import Ucg.AnalyzeRegex
import Ucg.ScanFile
import Ucg.ScanFilePcre
import Ucg.ScanInvariant
import Ucg.Soundness
import Ucg.Termination
import Ucg.Regex
import Ucg.RegexScan
import Ucg.Completeness
import Ucg.PhantomLines
import Ucg.LiteralPath
import Ucg.Constructor
import Ucg.Quoting
import Ucg.TextSearch
import Ucg.LiteralOption
import Ucg.FirstByte
import Ucg.Lib.Transition
import Ucg.SyncQueue
import Ucg.WorkerPool
import Ucg.Completion
import Ucg.Wakeup
import Ucg.Conservation
import Ucg.DirTree
import Ucg.Traversal
import Ucg.Lib.SortedMap
import Ucg.Strings
import Ucg.TypeManager
import Ucg.Lib.LastSuch
import Ucg.TypeTables
import Ucg.TypeSelection
import Ucg.TypeDefinitions
import Ucg.NetEffect
import Ucg.OptionParser
import Ucg.ArgParse
import Ucg.LastOption
import Ucg.IgnoreDir
import Ucg.TypeWords
import Ucg.FileSelectionOptions
import Ucg.FileLookup
import Ucg.IgnoreFile
import Ucg.Pipeline
import Ucg.ExitStatus
import Ucg.PoolView
import Ucg.FollowedTraversal
import Ucg.VisitedDirs
import Ucg.ReachedDirs
import Ucg.FileData
import Ucg.FirstHit
import Ucg.Lib.Popcount
import Ucg.LineCount
import Ucg.Lib.Fifo
import Ucg.QueueClients
import Ucg.CloseWaiters
import Ucg.PullFront
import Ucg.PushedDirs
import Ucg.TypeRuns
import Ucg.LeftoverGlobs
import Ucg.DefinitionEffects
import Ucg.ActiveTypes
import Ucg.Lib.RegexText
import Ucg.SkipAhead
import Ucg.LiteralPrefix
import Ucg.EntryTypes
import Ucg.FileBuffer
import Ucg.Lib.CHeap
import Ucg.BufferHeap
import Ucg.TypeNames
import Ucg.CompiledLookup
import Ucg.Terminator
import Ucg.FilterSpecs
import Ucg.RepeatedDefinitions
import Ucg.Lib.Positional
import Ucg.Microstring
import Ucg.Lib.FixedTable
import Ucg.FirstByteTables
import Ucg.Lib.Intervals
import Ucg.Lib.ByteMask
import Ucg.SingleByteSearch
import Ucg.RcFile
import Ucg.Paths
import Ucg.CleanUpPath
import Ucg.Ancestors
import Ucg.ProjectRC
import Ucg.Print
import Ucg.PrintedOutput
import Ucg.Highlighting
import Ucg.PoolProgress
import Ucg.PoolTermination
import Ucg.TraversalEnds
import Ucg.Program
import Ucg.ProgramRuns
import Ucg.ProgramResult
import Ucg.GrepLines
import Ucg.PrintedMatches
import Ucg.TwoEngines
import Ucg.Shortcuts
import Ucg.FileIDAccess
import Ucg.FileIDSafety
import Ucg.Lib.LockOrder
import Ucg.FileIDProgress
import Ucg.FoundFiles
import Ucg.SearchedFiles
import Ucg.ProgramOptions
import Ucg.CommandLine
import Ucg.ConfigFiles
