import Xv6Filter.Proofs.Blocking
import Xv6Filter.Proofs.Bounded
import Xv6Filter.Proofs.DirectoryMap
import Xv6Filter.Proofs.ExactCopies
import Xv6Filter.Proofs.Exhaustion
import Xv6Filter.Proofs.FailedOpen
import Xv6Filter.Proofs.ForkFailure
import Xv6Filter.Proofs.Grep
import Xv6Filter.Proofs.GrepMatch
import Xv6Filter.Proofs.HeapClient
import Xv6Filter.Proofs.LinkCounts
import Xv6Filter.Proofs.Loader
import Xv6Filter.Proofs.OrphanReclaim
import Xv6Filter.Proofs.PathSplit
import Xv6Filter.Proofs.Pids
import Xv6Filter.Proofs.PipeWakeup
import Xv6Filter.Proofs.Printf
import Xv6Filter.Proofs.Quota
import Xv6Filter.Proofs.ReadBounds
import Xv6Filter.Proofs.ReadOnly
import Xv6Filter.Proofs.Reservation
import Xv6Filter.Proofs.Sched
import Xv6Filter.Proofs.SharedWrites
import Xv6Filter.Proofs.Spelling
import Xv6Filter.Proofs.Sv39Map
