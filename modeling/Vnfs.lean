import Vnfs.Slot
import Vnfs.Sync.WriteAllOrder
import Vnfs.Nfs.WriteBatchCorrect
import Vnfs.Nfs.ReadPoolStream
import Vnfs.Sync.CloseRetry
import Vnfs.Nfs.LinkWalk
import Vnfs.Sync.StreamDelivery
import Vnfs.Sync.CopyTree
import Vnfs.Nfs.CopyBatches
import Vnfs.PathIoAttribution
import Vnfs.Nfs.ReadAll
import Vnfs.Sync.DeferredCleanup
import Vnfs.LookupManyResults
import Vnfs.Nfs.OpenPathBatch
import Vnfs.Nfs.DeferredCloses
import Vnfs.Nfs.OpenOutcomesRollback
import Vnfs.Nfs.CursorReads
import Vnfs.Nfs.WriteAdmission
import Vnfs.Nfs.AttrDecoding
import Vnfs.Nfs.SetattrEncoding
import Vnfs.Smb.IndependentPaths
import Vnfs.Smb.OpenCompound
import Vnfs.CAbi.CloseVector
import Vnfs.Auto.Dispatch
import Vnfs.Auto.RenameRoutes
import Vnfs.Smb.FileTime
import Vnfs.AdbLayout
