import FiFi.Library.StateMachine
import FiFi.Library.LinkedList
import FiFi.Library.Computation
import FiFi.Library.RadixForest
import FiFi.Library.RingBuffer
import FiFi.Fd.Table
import FiFi.Fd.PipeCount
import FiFi.Fd.Inherit
import FiFi.Fd.Owners
import FiFi.Pmm.Alloc
import FiFi.Pmm.Invariant
import FiFi.Pmm.Zones
import FiFi.Pmm.Partition
import FiFi.Pmm.Dma32
import FiFi.Vmm.PageTable
import FiFi.Vmm.Invariant
import FiFi.Vmm.Steps
import FiFi.Vmm.Ops
import FiFi.Vmm.Range
import FiFi.Vmm.Pagemap
import FiFi.Vmm.Hardware
import FiFi.Vmm.Frames
import FiFi.Vmm.Access
import FiFi.Vmm.Built
import FiFi.Vmm.Shared
import FiFi.Vmm.Tables
import FiFi.Vmm.Half
import FiFi.Vmm.KernelHalf
import FiFi.Fork.Clone
import FiFi.Fork.Exact
import FiFi.Thread.Table
import FiFi.Syscall.Memory
import FiFi.Syscall.Growth
import FiFi.Syscall.Space
import FiFi.Syscall.Isolation
import FiFi.Syscall.AllOrNothing
import FiFi.Exec.Load
import FiFi.Exec.Loaded
import FiFi.Thread.Memory
import FiFi.Thread.Invariant
import FiFi.Thread.Reap
import FiFi.Thread.Lifecycle
import FiFi.Thread.Children
import FiFi.Thread.Boot
import FiFi.Thread.Safety
import FiFi.Process.Table
import FiFi.Process.Rules
import FiFi.Process.Signals
import FiFi.Process.Descriptors
import FiFi.Process.Zombies
import FiFi.Tcp.Conn
import FiFi.Tcp.Receive
import FiFi.Tcp.Send
import FiFi.Tcp.Close
import FiFi.Dhcp.Client
import FiFi.Library.ByteStore
import FiFi.Ext2.Driver
import FiFi.Ext2.Calls
import FiFi.Ext2.Volume
import FiFi.Ext2.Sound
import FiFi.Ext2.Primitives
import FiFi.Ext2.Read
import FiFi.Ext2.Records
import FiFi.Exec.Image
import FiFi.Exec.Arguments
import FiFi.Exec.Fidelity
import FiFi.Exec.Run
import FiFi.Exec.Segments
import FiFi.Exec.Sequence
import FiFi.Exec.Stack
import FiFi.Exec.Steps
import FiFi.Ext2.Extent
import FiFi.Ext2.Listing
import FiFi.Fd.Unique
import FiFi.Library.KeyedTable
import FiFi.Library.Traced
import FiFi.Sched.Order
import FiFi.Sched.Scheduler
import FiFi.Syscall.Undisturbed
import FiFi.Syscall.UserMemory
import FiFi.Syscall.UserPointers
import FiFi.Thread.Cycles
import FiFi.Thread.Stacks
import FiFi.Vfs.Components
import FiFi.Vfs.FailedOpen
import FiFi.Vfs.FileMap
import FiFi.Vfs.FileSize
import FiFi.Vfs.Layers
import FiFi.Vfs.Naming
import FiFi.Vfs.Path
import FiFi.Vfs.Ramfs
import FiFi.Vfs.RoundTrip
import FiFi.Net.Checksum
import FiFi.Net.Host
import FiFi.Net.Datagram
import FiFi.Http.Get
import FiFi.Initrd.Archive
import FiFi.Library.CString
import FiFi.Initrd.RoundTrip
import FiFi.Process.Slots
import FiFi.Process.Birth
import FiFi.Virtio.NetRx
import FiFi.Virtio.NetDistinct
import FiFi.Virtio.BlkRequest
import FiFi.Virtio.BlkAnswers
import FiFi.Vfs.Copy
import FiFi.Ush.Shell
import FiFi.Ush.Source
import FiFi.Vmm.FrameLaw
import FiFi.Ext2.Blocks
import FiFi.Ext2.Store
import FiFi.Ext2.Overwrite
import FiFi.Ext2.Clean
import FiFi.Fd.PipeRing
import FiFi.Syscall.PipeRead
import FiFi.Vfs.NormalForm
import FiFi.Vfs.Merge
import FiFi.Vmm.Teardown
import FiFi.Library.BlockList
import FiFi.Umalloc.Blocks
import FiFi.Umalloc.Code
import FiFi.Umalloc.Break
import FiFi.Umalloc.Calls
import FiFi.Umalloc.Session
import FiFi.Umalloc.Sizes
import FiFi.Heap.Code
import FiFi.Heap.Blocks
import FiFi.Heap.Served
import FiFi.Heap.Session
import FiFi.Heap.Apart
import FiFi.Fd.Dup2
import FiFi.Process.Waiting
import FiFi.Ext2.Mount
import FiFi.Ext2.FirstFit
import FiFi.Ext2.Unchanged
import FiFi.Ext2.Dirents
import FiFi.Ext2.Mkdir
import FiFi.Ext2.Partial
import FiFi.Ext2.Resolved
import FiFi.Ext2.Frames
import FiFi.Ext2.Delete
import FiFi.Ext2.Tiles
import FiFi.Ext2.Entries
import FiFi.Ext2.Directory
import FiFi.Ext2.Entry
import FiFi.Ext2.Edit
import FiFi.Ext2.Create
import FiFi.Ext2.Conserve
import FiFi.Ext2.FailedWrite
import FiFi.Library.OnesComplement
import FiFi.Net.Internet
import FiFi.Tcp.Checksum
import FiFi.Net.ArpCache
import FiFi.Library.Parts
import FiFi.Http.Url
import FiFi.Dns.Receive
import FiFi.Dns.Query
import FiFi.Library.Region
import FiFi.Initrd.Safety
import FiFi.Ush.Environment
import FiFi.Ush.Jobs
import FiFi.Ush.Tokens
import FiFi.Console.Font
import FiFi.Console.Scrollback
import FiFi.Work.Queue
import FiFi.Work.Timer
import FiFi.Keyboard.Scancode
import FiFi.Keyboard.Modifiers
import FiFi.Hid.Descriptor
import FiFi.Hid.Semantics
import FiFi.Hid.Touchpad
import FiFi.Library.Bits
import FiFi.Hid.Extract
import FiFi.Hid.Motion
import FiFi.Library.Sink
import FiFi.Ulibc.Format
import FiFi.Ulibc.Pieces
import FiFi.Ulibc.Vsnprintf
import FiFi.Acpi.Aml
import FiFi.Acpi.AutoReg
import FiFi.Ulibc.Numerals
import FiFi.Library.Block
import FiFi.Library.RingStack
import FiFi.Editor.State
import FiFi.Editor.Undo
import FiFi.Editor.Search
import FiFi.Editor.Replace
import FiFi.Editor.Lines
import FiFi.Editor.Comment
import FiFi.Editor.Save
import FiFi.Editor.Commands
import FiFi.Editor.Invariant
import FiFi.Editor.Kept
import FiFi.Editor.Consistent
