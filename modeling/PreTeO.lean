import PreTeO.Lib.Run
import PreTeO.Common.LlQueue
import PreTeO.Fs.HandleRun
import PreTeO.Common.LlLeftover
import PreTeO.Common.MemCpy
import PreTeO.Common.Wildcmp
import PreTeO.Common.Printf
import PreTeO.Lib.Bytes
import PreTeO.Sync.MutexRun
import PreTeO.Bdev.CacheShare
import PreTeO.Mgfs3.BlockRemoval
import PreTeO.Mgfs3.BootDir
import PreTeO.Mgfs3.DirMap
import PreTeO.Fs.BufferFail
import PreTeO.Mem.PmaSearch
import PreTeO.Mem.PmaArray
import PreTeO.Mem.PmaUndo
import PreTeO.Mem.PmaCodec
import PreTeO.Mem.PmaParts
import PreTeO.X86.VmmTranslate
import PreTeO.X86.VmmMapped
import PreTeO.X86.Pml4
import PreTeO.X86.IsaDma
import PreTeO.X86.ElfLoad
import PreTeO.Sys.Blender
import PreTeO.Mem.RingHeapRun
import PreTeO.Ext.BTreeRun
import PreTeO.Bdev.IdeCommand
import PreTeO.Bdev.IdePio
import PreTeO.Bdev.AhciSlots
import PreTeO.Sync.Broadcast
import PreTeO.Sys.RepositoryRun
import PreTeO.Mgfs3.IoctlBalance
import PreTeO.Bdev.VolumeIsolation
import PreTeO.Bdev.VolumeBytes
import PreTeO.Fs.RootLinks
import PreTeO.Fs.RootOpen
import PreTeO.Sys.TimerHistory
import PreTeO.Sys.TimerCallbacks
import PreTeO.Mgfs3.FileRead
import PreTeO.Mgfs3.DirInner
import PreTeO.Mgfs3.SoftLinks
import PreTeO.Mgfs3.DirRename
import PreTeO.Mgfs3.BitmapRun
import PreTeO.Mem.SlabFacts
import PreTeO.Bdev.CacheBstate
import PreTeO.Sync.Event
import PreTeO.Sys.SysLog
import PreTeO.Boot.Menu
import PreTeO.Ext.XmlSelect
import PreTeO.Ext.XmlParse
import PreTeO.Ext.Env
import PreTeO.Common.IntParameter
import PreTeO.Common.DivStr
import PreTeO.X86.VmmSpace
import PreTeO.Mgfs3.BootLoad
import PreTeO.Sys.BlenderTurns
import PreTeO.Sys.TimerProgress
