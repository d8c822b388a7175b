import EbpfMemleak.Accounting
import EbpfMemleak.Ledger
import EbpfMemleak.Handover
import EbpfMemleak.Saturation
import EbpfMemleak.MissedFree
import EbpfMemleak.Realloc
import EbpfMemleak.Concurrent.Statistics
import EbpfMemleak.Concurrent.Frees
import EbpfMemleak.Lib.Enumeration
import EbpfMemleak.Lib.TopN
import EbpfMemleak.Lib.BinaryHeap
import EbpfMemleak.Report
import EbpfMemleak.Agreement
import EbpfMemleak.Elf
import EbpfMemleak.FailedCalls
import EbpfMemleak.Grouping
import EbpfMemleak.Noninterference
import EbpfMemleak.Memalign
import EbpfMemleak.Decoding
import EbpfMemleak.Sampling
import EbpfMemleak.Commutation
import EbpfMemleak.Nested
import EbpfMemleak.Kinds
import EbpfMemleak.Lib.Text
import EbpfMemleak.MapsFile
import EbpfMemleak.LibcPath
import EbpfMemleak.Concurrent.Programs
import EbpfMemleak.Concurrent.Filters
import EbpfMemleak.Concurrent.Remaining
import EbpfMemleak.Lib.Footprint
import EbpfMemleak.Concurrent.Atomicity
import EbpfMemleak.Outstanding
import EbpfMemleak.Loader
import EbpfMemleak.Concurrent.Pending
import EbpfMemleak.Kallsyms
import EbpfMemleak.StackTraces
import EbpfMemleak.Window
import EbpfMemleak.Concurrent.Lag
import EbpfMemleak.Narrowing
import EbpfMemleak.Concurrent.Progress
import EbpfMemleak.Workaround
import EbpfMemleak.Monitoring
import EbpfMemleak.RawRecords
import EbpfMemleak.Output
import EbpfMemleak.Room
