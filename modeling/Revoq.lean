import Revoq.Abandon
import Revoq.Availability
import Revoq.Binding
import Revoq.Capacity
import Revoq.Crew
import Revoq.FailedRotation
import Revoq.HandOff
import Revoq.HeapMerge
import Revoq.HousekeepingCpus
import Revoq.JoinIdentity
import Revoq.LateArrivals
import Revoq.LinearMerge
import Revoq.LiveMerge
import Revoq.LoadFailures
import Revoq.MappingLedger
import Revoq.MergedReplay
import Revoq.MultiWriter
import Revoq.NumberParsing
import Revoq.NumberedJournals
import Revoq.PageAccess
import Revoq.PageFullness
import Revoq.PageNames
import Revoq.PageRetirement
import Revoq.PageSearch
import Revoq.PassiveReaders
import Revoq.PythonReader
import Revoq.ResumeSafety
import Revoq.ResumeScan
import Revoq.SeekAgain
import Revoq.StringUtils
import Revoq.TextEdits
import Revoq.TimeOrder
import Revoq.Wakeups
import Revoq.WarmupRing
import Revoq.WarmupTransparency
