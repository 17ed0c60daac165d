import Courses.Lib.Runs
import Courses.Lib.Digraph
import Courses.SimpleDb.LockManager
import Courses.SimpleDb.LockSystem
import Courses.SimpleDb.LockEffects
import Courses.SimpleDb.Deadlock
import Courses.SimpleDb.DeadlockCoverage
import Courses.Lib.Bytes
import Courses.SimpleDb.HeapPage
import Courses.SimpleDb.PageRoundTrip
import Courses.Lib.TxStore
import Courses.SimpleDb.BufferPool
import Courses.SimpleDb.PoolLocks
import Courses.SimpleDb.TwoPhaseLocking
import Courses.SimpleDb.PoolContents
import Courses.SimpleDb.Atomicity
import Courses.Lib.Alloc
import Courses.Lib.Linked
import Courses.SearchEngine.LinkedList
import Courses.SearchEngine.HashTable
import Courses.Lib.Assoc
import Courses.SearchEngine.HashTableChains
import Courses.SearchEngine.HashTableMap
import Courses.MallocLab.Model
import Courses.MallocLab.FreeList
import Courses.MallocLab.Retile
import Courses.MallocLab.Coalesce
import Courses.MallocLab.Split
import Courses.MallocLab.Calls
import Courses.MallocLab.Realloc
import Courses.MallocLab.Client
import Courses.Lib.Disk
import Courses.SearchEngine.FileIndexWriter
import Courses.SearchEngine.FileIndexReader
import Courses.SearchEngine.IndexEncoding
import Courses.SearchEngine.IndexDecoding
import Courses.SearchEngine.IndexRoundTrip
import Courses.MapReduce.Model
import Courses.MapReduce.Tasks
import Courses.MapReduce.Meaning
import Courses.MapReduce.Schedule
import Courses.MapReduce.Distributed
import Courses.HttpServer.Connection
import Courses.Lib.Crc
import Courses.SearchEngine.IndexChecksum
import Courses.HttpServer.FileRequest
import Courses.Lib.BubbleSort
import Courses.SearchEngine.HashTableDrain
import Courses.SearchEngine.LinkedListSort
import Courses.SearchEngine.InvertedIndex
import Courses.SearchEngine.QueryRanking
import Courses.SearchEngine.QueryAnswers
import Courses.SearchEngine.FileCrawler
import Courses.SearchEngine.QueryProcessor
import Courses.SearchEngine.QueryAgreement
import Courses.SearchEngine.IndexChecker
import Courses.SearchEngine.CheckedIndex
import Courses.HttpServer.RequestParser
import Courses.HttpServer.ServerLoop
import Courses.HttpServer.ThreadPool
import Courses.HttpServer.ThreadPoolRuns
import Courses.SimpleDb.PoolCache
import Courses.Lib.PullIter
import Courses.SimpleDb.Operators
import Courses.SimpleDb.OperatorRuns
import Courses.Lib.RandomAccess
import Courses.SimpleDb.LogFile
import Courses.SimpleDb.LogRecords
import Courses.SimpleDb.LogTruncation
import Courses.SimpleDb.LogActive
import Courses.Lib.Numbers
import Courses.SimpleDb.HeapFileEncoder
import Courses.SimpleDb.HeapFileRoundTrip
import Courses.Scheme.Reader
import Courses.Scheme.Words
import Courses.Scheme.Lines
import Courses.Scheme.Reading
import Courses.Scheme.RoundTrip
import Courses.Lib.Components
import Courses.Lib.Rows
import Courses.SimpleDb.LogicalPlan
import Courses.SimpleDb.QueryMeaning
import Courses.SimpleDb.JoinedRows
import Courses.SimpleDb.JoinPlanning
import Courses.SimpleDb.QueryPlanning
import Courses.MallocLab.Coalescing
import Courses.PyCombinator.Reader
import Courses.PyCombinator.Printing
import Courses.PyCombinator.Parsing
import Courses.PyCombinator.RoundTrip
import Courses.Shell.Parsers
import Courses.Shell.Agreement
import Courses.Lib.Nearest
import Courses.PointSets.KdTree
import Courses.PointSets.Agreement
import Courses.Lib.BestFirst
import Courses.Lib.PriorityQueue
import Courses.Puzzle.Moves
import Courses.Puzzle.Solver
import Courses.Puzzle.Solvability
import Courses.Lib.SwapClasses
import Courses.Puzzle.Reachability
import Courses.Lib.Effects
import Courses.Scheme.Objects
import Courses.Scheme.Evaluator
import Courses.Scheme.Frames
import Courses.MallocLab.Requests
import Courses.SearchEngine.LinkedListCursor
import Courses.SearchEngine.HashTableTraversal
import Courses.SearchEngine.DocTable
import Courses.SearchEngine.CrawlFileTree
import Courses.Lib.Intervals
import Courses.SearchEngine.WordSplitting
import Courses.SearchEngine.IndexLayout
import Courses.Lib.Regression
import Courses.Lib.Requests
import Courses.SearchEngine.HashTableRequests
import Courses.SearchEngine.RefusedInsert
import Courses.HttpServer.Escaping
import Courses.HttpServer.UrlHistory
import Courses.SearchEngine.ReaderSafety
import Courses.SimpleDb.SlotAccounting
import Courses.SimpleDb.HeapFileScan
import Courses.SimpleDb.LockRecords
import Courses.SimpleDb.PageAddressing
import Courses.Lib.Grouping
import Courses.SimpleDb.Aggregator
import Courses.SimpleDb.Aggregate
import Courses.Grid.Percolation
import Courses.Lib.Sessions
import Courses.Queues.Deque
import Courses.Queues.RandomizedQueue
import Courses.T9.Dictionary
import Courses.T9.Lookup
import Courses.Scheme.LetForm
import Courses.Collinear.FastCollinearPoints
import Courses.Collinear.Bases
import Courses.Collinear.Reports
import Courses.Jos.StabSearch
import Courses.Jos.StabBrackets
import Courses.PyCombinator.Grammar
import Courses.Shell.Grammar
import Courses.Shell.Printing
import Courses.Shell.Pointers
import Courses.Jos.FormatReading
import Courses.Jos.NumberFormat
import Courses.Jos.BufferPrint
import Courses.Lib.Clusters
import Courses.Maps.KMeans
import Courses.Ants.Colony
import Courses.Ants.Game
import Courses.Ants.NearestBee
import Courses.Ants.Changes
import Courses.Ants.WellPlaced
import Courses.Ants.Deployment
import Courses.Exercises.ConnectN
import Courses.Exercises.ConnectNWins
import Courses.Exercises.Gasp
import Courses.Exercises.Mobiles
import Courses.Exercises.Trade
import Courses.Exercises.Vector
import Courses.Maps.Predictor
import Courses.Exercises.CacheGeometry
import Courses.Exercises.Derive
import Courses.Exercises.LinkCycles
import Courses.Exercises.Quadratic
import Courses.Exercises.CountChange
import Courses.SimpleDb.EnumerateSubsets
import Courses.Ants.StatusEffects
import Courses.Exercises.Hog
import Courses.Jos.Console
import Courses.Jos.Display
import Courses.Jos.Monitor
