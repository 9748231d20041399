import Coda.Util.Bitvect
import Coda.Rwcdb.Store
import Coda.Rvm.TreeRuns
import Coda.Util.BstreeRuns
import Coda.Secure.RoundTrip
import Coda.Secure.Pbkdf
import Coda.Lwp.Lock
import Coda.Sftp.Limits
import Coda.Sftp.Wrap
import Coda.Rpc2.MultiRpc
import Coda.Tunnel.Short
import Coda.Tunnel.Aborts
import Coda.Dir.Convert
import Coda.Dir.Termination
import Coda.Resolve.Compensation
import Coda.Resolve.RemoveUpdate
import Coda.Volutil.Ancient
import Coda.Volutil.Restore
import Coda.Venus.VolentSafe
import Coda.Vice.CallbackSafe
import Coda.Vice.LockOrder
import Coda.Al.External
import Coda.Al.IdArray
import Coda.Al.Walk
import Coda.Al.PdbNames
import Coda.Al.PdbPack
import Coda.Vv.Inconsist
import Coda.Al.PdbDelete
import Coda.Util.BitmapCopy
import Coda.Rvm.Checksum
import Coda.Rds.Heap
import Coda.Venus.Partial
import Coda.Sftp.Request
import Coda.Venus.Reintegrateable
