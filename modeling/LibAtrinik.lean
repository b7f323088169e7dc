import LibAtrinik.PathfindingPartial
import LibAtrinik.PathfindingBreadth
import LibAtrinik.PathfindingTermination
import LibAtrinik.PacketWriterRun
import LibAtrinik.MapMessage
import LibAtrinik.AssetProtocol
import LibAtrinik.ProcessCheckAll
import LibAtrinik.ProcessOutput
import LibAtrinik.ToolkitBodies
import LibAtrinik.StreamGame
import LibAtrinik.StreamChannel
import LibAtrinik.SharedStringsRun
import LibAtrinik.MempoolHistory
import LibAtrinik.MempoolCounters
import LibAtrinik.CurlCache
import LibAtrinik.MapReading
import LibAtrinik.MapReadingBytes
import LibAtrinik.MapScopes
import LibAtrinik.MapScopeRun
import LibAtrinik.PacketScopeSimilar
import LibAtrinik.PacketScopeRun
import LibAtrinik.SocketRendezvousCanonical
import LibAtrinik.QuicRaceOutcome
import LibAtrinik.PunchCandidates
import LibAtrinik.SocketStunMessages
import LibAtrinik.PacketReaderSafety
import LibAtrinik.PathfindingBest
import LibAtrinik.PathfindingCounters
import LibAtrinik.PathNormalize
import LibAtrinik.PathSafe
import LibAtrinik.CliOptionsValues
import LibAtrinik.PasswordRecords
import LibAtrinik.SubnetCompare
import LibAtrinik.ProcessDrain
import LibAtrinik.MempoolZeroed
import LibAtrinik.CheckedInt
import LibAtrinik.RoundedLine
import LibAtrinik.Bresenham
import LibAtrinik.RejectionSampling
import LibAtrinik.AffineOrbit
import LibAtrinik.Rng
import LibAtrinik.RngTermination
import LibAtrinik.SortedBlocks
import LibAtrinik.SortLinkedListSorted
import LibAtrinik.TerminatedText
import LibAtrinik.StringFields
import LibAtrinik.HexCodecs
import LibAtrinik.StdioStream
import LibAtrinik.PathFiles
import LibAtrinik.PathSecret
import LibAtrinik.RootDigits
import LibAtrinik.IntegerMath
import LibAtrinik.PowerOfTwo
import LibAtrinik.DelimitedText
import LibAtrinik.StringWords
import LibAtrinik.PathfindingIndex
import LibAtrinik.PathfindingEmission
import LibAtrinik.PathfindingEvents
import LibAtrinik.PathfindingOpenHeap
import LibAtrinik.PathfindingTree
import LibAtrinik.CurlTransfer
import LibAtrinik.CurlPins
import LibAtrinik.CurlMutex
import LibAtrinik.StringBufferMemory
import LibAtrinik.PasswordVerify
import LibAtrinik.PathfindingSettled
import LibAtrinik.ConsoleQueue
import LibAtrinik.RendezvousClient
import LibAtrinik.FileTree
import LibAtrinik.PathDirectories
import LibAtrinik.SignedSelection
import LibAtrinik.Logger
import LibAtrinik.LoggerRuns
import LibAtrinik.Substitution
import LibAtrinik.StringReplace
import LibAtrinik.CurlLifecycle
import LibAtrinik.CliOptionsWritten
