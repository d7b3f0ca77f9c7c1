import BrewFs.Chunk.CachedRuns
import BrewFs.Chunk.CacheRemoval
import BrewFs.Chunk.DiskAccounting
import BrewFs.Chunk.Compact.Reclamation
import BrewFs.Meta.Database.TruncateContents
import BrewFs.Meta.Redis.Removal
import BrewFs.Meta.Database.EntryTypes
import BrewFs.Meta.Database.LinkTables
import BrewFs.Meta.Database.PosixLocks
import BrewFs.Meta.Redis.SessionLocks
import BrewFs.Meta.Database.CoalescedLifecycle
import BrewFs.Meta.Redis.ChunkVersion
import BrewFs.Vfs.HandleGate
import BrewFs.Vfs.WriteOrder
import BrewFs.Vfs.Reader.ReadSessions
import BrewFs.Vfs.Cache.WriteBack
import BrewFs.Vfs.Cache.SparseBytes
import BrewFs.Vfs.Writer.CommitEpoch
import BrewFs.Vfs.Writer.CommitClaims
import BrewFs.Vfs.Writer.OverlayOrder
import BrewFs.Vfs.Writer.CachedWrites
import BrewFs.Vfs.Reader.SliceLists
import BrewFs.Meta.Client.SliceCache
import BrewFs.Meta.Client.PathCache
import BrewFs.Meta.Client.DirectoryCache
import BrewFs.Native.Sessions
import BrewFs.Native.Attributes
import BrewFs.Native.FrameFlight
import BrewFs.Native.Uvarint
import BrewFs.Meta.WriteAgreement
import BrewFs.Meta.ControlAcl
import BrewFs.Meta.PosixAcl
import BrewFs.Chunk.PersistedUpload
import BrewFs.Chunk.SingleFlight
import BrewFs.Chunk.Fragmentation
import BrewFs.Chunk.VectoredWriter
import BrewFs.Meta.Database.GlobalLocks
