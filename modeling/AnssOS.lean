import AnssOS.Foundation.Transition
import AnssOS.Foundation.RingBuffer
import AnssOS.Foundation.Ledger
import AnssOS.Exec.Pipe
import AnssOS.Exec.Task
import AnssOS.Exec.Kernel
import AnssOS.Exec.Machine
import AnssOS.Exec.Inversion
import AnssOS.Exec.Steps
import AnssOS.Exec.Context
import AnssOS.Exec.Ownership
import AnssOS.Foundation.Tally
import AnssOS.Exec.PipeRefs
import AnssOS.Exec.PipeBooks
import AnssOS.Exec.Wait
import AnssOS.Exec.ExitStatus
import AnssOS.Foundation.ByteMemory
import AnssOS.Foundation.FoldLog
import AnssOS.Foundation.PageForest
import AnssOS.Mm.Pmm
import AnssOS.Mm.PmmExact
import AnssOS.Mm.Heap
import AnssOS.Foundation.Tiling
import AnssOS.Mm.Blocks
import AnssOS.Mm.KernelHeap
import AnssOS.Mm.Vmm
import AnssOS.Exec.Elf
import AnssOS.Mm.PageOwnership
import AnssOS.Mm.AddressMap
import AnssOS.Exec.ElfBounds
import AnssOS.Exec.ElfRounds
import AnssOS.Exec.ElfLayout
import AnssOS.Exec.Picture
import AnssOS.Exec.ElfShows
import AnssOS.Exec.ElfContents
import AnssOS.Exec.EnoughPages
import AnssOS.Exec.InitialStack
import AnssOS.Exec.Break
import AnssOS.Userland.BrkHeap
import AnssOS.Userland.Words
import AnssOS.Userland.Highlight
import AnssOS.Userland.LineEditor
import AnssOS.Userland.Escapes
import AnssOS.Exec.LoadFailure
import AnssOS.Exec.ForkFailure
import AnssOS.Foundation.RoundRobin
import AnssOS.Exec.Bypass
import AnssOS.Exec.Files
import AnssOS.Exec.Opening
import AnssOS.Exec.Holdings
import AnssOS.Exec.Dangling
import AnssOS.Exec.Offsets
import AnssOS.Exec.DirScan
import AnssOS.Foundation.LinkedForest
import AnssOS.Foundation.Utf8
import AnssOS.Fs.Vfs
import AnssOS.Fs.Paths
import AnssOS.Fs.Grove
import AnssOS.Fs.Subtree
import AnssOS.Fs.VfsTree
import AnssOS.Fs.DotNames
import AnssOS.Fs.Walks
import AnssOS.Fs.Listing
import AnssOS.Fs.Blkfs
import AnssOS.Fs.Records
import AnssOS.Fs.Replay
import AnssOS.Fs.Persistence
import AnssOS.Fs.Decoding
import AnssOS.Fs.DiskPut
import AnssOS.Fs.Move
import AnssOS.Fs.Footprint
import AnssOS.Fs.Contents
import AnssOS.Fs.Copy
import AnssOS.Mm.CloneUser
import AnssOS.Mm.OutOfTables
import AnssOS.Userland.History
import AnssOS.Userland.Tile
import AnssOS.Console.Fbconsole
import AnssOS.Userland.Vt
import AnssOS.Userland.VtConsole
import AnssOS.Userland.Backend
import AnssOS.Drivers.Virtqueue
import AnssOS.Drivers.Nvme
import AnssOS.Drivers.XhciRing
import AnssOS.Drivers.UsbTransfer
import AnssOS.Drivers.BulkChain
import AnssOS.Drivers.BlockDevice
import AnssOS.Drivers.Hda
import AnssOS.Drivers.Keyboards
import AnssOS.Userland.Scarf
import AnssOS.Userland.ScarfKeys
import AnssOS.Userland.Words
import AnssOS.Userland.Highlight
import AnssOS.Userland.LineEditor
import AnssOS.Userland.Escapes
