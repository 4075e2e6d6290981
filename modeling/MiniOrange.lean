import MiniOrange.Logic.Wp
import MiniOrange.Bytes.Block
import MiniOrange.Fs.Format
import MiniOrange.Fs.Entry
import MiniOrange.Fs.Machine
import MiniOrange.Fs.Volume
import MiniOrange.Fs.Code
import MiniOrange.Fs.Session
import MiniOrange.Fs.Primitives
import MiniOrange.Fs.Lookup
import MiniOrange.Fs.File
import MiniOrange.Fs.Tree
import MiniOrange.Fs.Search
import MiniOrange.Fs.Path
import MiniOrange.Fs.Frame
import MiniOrange.Fs.Grow
import MiniOrange.Fs.Write
import MiniOrange.Fs.Chunk
import MiniOrange.Fs.WriteChunk
import MiniOrange.Fs.Data
import MiniOrange.Fs.Release
import MiniOrange.Fs.Truncate
import MiniOrange.Fs.Operations
import MiniOrange.Fs.Append
import MiniOrange.Fs.Create
import MiniOrange.Fs.Remove
import MiniOrange.Fs.Names
import MiniOrange.Fs.Solid
import MiniOrange.Fs.Preserve
import MiniOrange.Fs.Run
import MiniOrange.Logic.Check
import MiniOrange.Tools.Minifs
import MiniOrange.Tools.Fsck
import MiniOrange.Logic.Sweep
import MiniOrange.Tools.FsckLoad
import MiniOrange.Tools.FsckWalk
import MiniOrange.Tools.Mkfs
import MiniOrange.Tools.Built
import MiniOrange.Tools.Image
import MiniOrange.Tools.Imports
import MiniOrange.Fs.Namespace
import MiniOrange.Tools.Flat
import MiniOrange.Tools.Agreement
import MiniOrange.Tools.Upkeep
import MiniOrange.Fs.Content
import MiniOrange.Tools.Refine
import MiniOrange.Fs.Crash
import MiniOrange.Tools.Faults
import MiniOrange.Fs.Pace
import MiniOrange.Kernel.Panic
import MiniOrange.Logic.Run
import MiniOrange.Proc.Scheduler
import MiniOrange.Proc.Protocol
import MiniOrange.Proc.Refine
import MiniOrange.Proc.Lifecycle
import MiniOrange.Logic.Word32
import MiniOrange.Mm.Heap
import MiniOrange.Logic.Tiling
import MiniOrange.Mm.Layout
import MiniOrange.Mm.HeapSpec
import MiniOrange.Mm.HeapGrowth
import MiniOrange.Mm.HeapRun
import MiniOrange.Logic.Bitmap
import MiniOrange.Mm.Pmm
import MiniOrange.Proc.RoundRobin
import MiniOrange.Proc.Parents
import MiniOrange.Logic.Lexical
import MiniOrange.Syscall.Path
import MiniOrange.Proc.Belongings
import MiniOrange.Syscall.Directory
import MiniOrange.Syscall.Agree
import MiniOrange.Logic.Holding
import MiniOrange.Vfs.Calls
import MiniOrange.Vfs.Effect
import MiniOrange.Vfs.Bookkeeping
import MiniOrange.Vfs.FailedOpen
import MiniOrange.Proc.Pids
import MiniOrange.Proc.Sleep
import MiniOrange.Fs.Footprint
import MiniOrange.Fs.Inodes
import MiniOrange.Vfs.Identity
import MiniOrange.Fs.Scan
import MiniOrange.Proc.Elf
import MiniOrange.Mm.Mmu
import MiniOrange.Mm.Paging
import MiniOrange.Mm.AddressSpace
import MiniOrange.Mm.Usercopy
import MiniOrange.Proc.Loader
import MiniOrange.Fs.Room
import MiniOrange.Vfs.Transfer
import MiniOrange.Syscall.Io
import MiniOrange.Proc.Exception
import MiniOrange.Mm.Mapping
import MiniOrange.Tools.Codec
import MiniOrange.Logic.Text
import MiniOrange.User.Edit
import MiniOrange.Tools.QemuTest
