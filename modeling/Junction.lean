import Junction.CloseOnExec
import Junction.MemFsRename
import Junction.Futex
import Junction.AdvisoryLockWait
import Junction.SharedPipe
import Junction.UnixNames
import Junction.UnixConnections
import Junction.EPollLevel
import Junction.EPollOneShot
import Junction.SignalFrames
import Junction.InterruptedLocks
import Junction.PidRuns
import Junction.WaitingParents
import Junction.ExitStatusRuns
import Junction.SetBreak
import Junction.ElfConfined
import Junction.ElfRoundTrip
import Junction.JifRoundTrip
import Junction.AppendingWriters
import Junction.ZeroLengthTransfers
import Junction.LegalNames
import Junction.EventFd
import Junction.Exec
import Junction.WaitResults
import Junction.Sendfile
import Junction.MessageBatches
import Junction.DirectoryScans
import Junction.Netlink
