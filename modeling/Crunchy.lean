import Crunchy.Proofs.IdeCache
import Crunchy.Proofs.Ext2RoundTrip
import Crunchy.Proofs.ChainBounds
import Crunchy.Proofs.UserHeap
import Crunchy.Proofs.Allocators
import Crunchy.Proofs.PageActs
import Crunchy.Proofs.Teardown
import Crunchy.Proofs.Ext2Refusal
import Crunchy.Proofs.Path
import Crunchy.Proofs.Keyboard
import Crunchy.Proofs.ChainSearch
import Crunchy.Proofs.IdeHandler
import Crunchy.Proofs.Spinlock
import Crunchy.Proofs.LassJumps
import Crunchy.Proofs.LassModRm
import Crunchy.Proofs.Ext2Full
import Crunchy.Proofs.Ext2Places
import Crunchy.Proofs.HeapAligned
import Crunchy.Proofs.PageCopy
import Crunchy.Proofs.PagingUnmap
import Crunchy.Proofs.BulkMapping
import Crunchy.Proofs.Unmapped
import Crunchy.Proofs.ReverseTranslation
import Crunchy.Proofs.KsymFind
import Crunchy.Proofs.KsymTable
import Crunchy.Proofs.PrintfEnds
import Crunchy.Proofs.BufferList
import Crunchy.Proofs.DirScan
import Crunchy.Proofs.Ext2Seek
import Crunchy.Proofs.PrintfStrings
import Crunchy.Proofs.StringLib
import Crunchy.Proofs.HeapStrings
import Crunchy.Proofs.Streams
import Crunchy.Proofs.VgaCursor
import Crunchy.Proofs.NumeralValues
import Crunchy.Proofs.PageBitmap
import Crunchy.User.Lquad
import Crunchy.Arch.Boot
