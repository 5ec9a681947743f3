import TeradataCpt.Library.ChainedPasses
import TeradataCpt.Library.DrawOrder
import TeradataCpt.Cpt
import TeradataCpt.Passes
import TeradataCpt.KeyTables
import TeradataCpt.FieldCipher
import TeradataCpt.Library.RangePatches
import TeradataCpt.CptJni
import TeradataCpt.Fields
import TeradataCpt.Policies
import TeradataCpt.Formats
import TeradataCpt.Library.RangeOverlaps
import TeradataCpt.Overlaps
import TeradataCpt.Platforms
import TeradataCpt.Safety
import TeradataCpt.JavaApi
import TeradataCpt.StringApis
import TeradataCpt.Utf8Safety
import TeradataCpt.Library.Runs
import TeradataCpt.Propagation
import TeradataCpt.Barriers
import TeradataCpt.InPlace
import TeradataCpt.AllocationFailures
import TeradataCpt.ScratchBuffers
import TeradataCpt.PolicyBuilding
import TeradataCpt.PolicyChecks
import TeradataCpt.ByteRanges
import TeradataCpt.Library.Utf8Groups
import TeradataCpt.Utf8Validation
import TeradataCpt.Mirrors
import TeradataCpt.InverseTables
import TeradataCpt.CStrings
import TeradataCpt.GbkStrings
import TeradataCpt.Library.Interaction
import TeradataCpt.NativeCode
import TeradataCpt.JniProtocol
import TeradataCpt.JniCalls
import TeradataCpt.JniRuns
import TeradataCpt.JniSessions
import TeradataCpt.HeapCode
import TeradataCpt.HeapDiscipline
import TeradataCpt.HeapRuns
import TeradataCpt.PolicyApi
import TeradataCpt.SecretFields
import TeradataCpt.LegacyStrings
import TeradataCpt.PolicyObjects
import TeradataCpt.LibraryLoading
import TeradataCpt.RangeReads
import TeradataCpt.FieldClasses
