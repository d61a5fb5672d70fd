import Cosiris.Lib.Prog
import Cosiris.Lib.Ring
import Cosiris.Lib.Runs
import Cosiris.Lib.Bytes
import Cosiris.Lib.Fields
import Cosiris.Lib.SlotMap
import Cosiris.Lib.Paths
import Cosiris.Lib.Ownership
import Cosiris.Kernel.Files
import Cosiris.Cofs.Device
import Cosiris.Cofs.Inode
import Cosiris.Cofs.Tree
import Cosiris.Cofs.Sound
import Cosiris.Cofs.BlockMap
import Cosiris.Cofs.ReadWrite
import Cosiris.Cofs.Truncate
import Cosiris.Cofs.Cache
import Cosiris.Cofs.Image
import Cosiris.Cofs.Contents
import Cosiris.Cofs.Dir
import Cosiris.Cofs.Entries
import Cosiris.Cofs.Invariant
import Cosiris.Cofs.Nodes
import Cosiris.Cofs.Lookup
import Cosiris.Cofs.Insert
import Cosiris.Cofs.Remove
import Cosiris.Cofs.Calls
import Cosiris.Cofs.Accounting
import Cosiris.Cofs.Effects
import Cosiris.Cofs.Links
import Cosiris.Cofs.Tidy
import Cosiris.Cofs.DirMap
import Cosiris.Cofs.Alloc
import Cosiris.Cofs.Range
import Cosiris.Cofs.Names
import Cosiris.Cofs.Format
import Cosiris.Cofs.Formatted
import Cosiris.Cofs.Holes
import Cosiris.Cofs.Mount
import Cosiris.Cofs.Boundary
import Cosiris.Vfs.Canonize
import Cosiris.Pipe.Buffer
import Cosiris.Pipe.Stream
import Cosiris.Pipe.Wakeup
import Cosiris.Pipe.Ends
import Cosiris.Pipe.Broken
import Cosiris.Hd.Queue
import Cosiris.Hd.Recycle
import Cosiris.Hd.Sharing
import Cosiris.Libc.Malloc
import Cosiris.Libc.Tiling
import Cosiris.Libc.Heap
import Cosiris.Libc.Invalid
import Cosiris.Libc.Bounded
import Cosiris.Libc.Realloc
import Cosiris.Libc.File
import Cosiris.Libc.Output
import Cosiris.Libc.Printf
import Cosiris.Libc.Truncation
import Cosiris.Libc.Conversions
import Cosiris.Libc.Scanf
import Cosiris.Libc.Digits
import Cosiris.Libc.PrintScan
import Cosiris.Libc.Tokens
import Cosiris.Libc.Matches
import Cosiris.Shell.Tokens
import Cosiris.Shell.Parse
import Cosiris.Shell.RoundTrip
import Cosiris.Shell.Pipeline
import Cosiris.Libc.Input
import Cosiris.Libc.Render
import Cosiris.Mem.Paging
import Cosiris.Mem.Frames
import Cosiris.Mem.Mapping
import Cosiris.Mem.Blocks
import Cosiris.Mem.Clone
import Cosiris.Mem.Release
import Cosiris.Mem.Accounts
import Cosiris.Mem.Threads
import Cosiris.Mem.KernelHeap
import Cosiris.Mem.Boot
import Cosiris.Mem.Sbrk
import Cosiris.Net.Frame
import Cosiris.Net.Bounds
import Cosiris.Lib.References
import Cosiris.Kernel.Descriptors
import Cosiris.Kernel.Slots
import Cosiris.Kernel.Records
import Cosiris.Kernel.Tables
import Cosiris.Kernel.Tasks
import Cosiris.Kernel.WaitExit
import Cosiris.Kernel.Signals
import Cosiris.Kernel.Awaken
import Cosiris.Kernel.Handlers
import Cosiris.Kernel.Numbers
import Cosiris.Kernel.Scheduler
import Cosiris.Kernel.Deadline
import Cosiris.Kernel.Lists
import Cosiris.Kernel.Packet
import Cosiris.Kernel.Terminal
import Cosiris.Kernel.Screen
import Cosiris.Kernel.Escapes
import Cosiris.Kernel.Keyboard
import Cosiris.Kernel.Editor
import Cosiris.Kernel.Input
import Cosiris.Kernel.Clock
import Cosiris.Vfs.Namei
import Cosiris.Vfs.Paths
import Cosiris.Vfs.Removal
import Cosiris.Vfs.Position
import Cosiris.Vfs.Bname
import Cosiris.Lib.Masks
import Cosiris.Lib.OnesSum
import Cosiris.Lib.RoundRobin
import Cosiris.Lib.Links
import Cosiris.Lib.Custody
import Cosiris.Net.Route
import Cosiris.Kernel.Bmap
import Cosiris.Net.Sock
import Cosiris.Net.Ports
import Cosiris.Net.Udp
import Cosiris.Net.Accept
import Cosiris.Net.Echo
import Cosiris.Net.Arp
import Cosiris.Net.Buffers
import Cosiris.Net.Ne2000
import Cosiris.Net.Dns
import Cosiris.Net.Codec
import Cosiris.Net.Response
import Cosiris.Net.Answers
import Cosiris.Net.Names
import Cosiris.Net.Hostname
import Cosiris.Net.Dhcp
import Cosiris.Kernel.Bitmap
import Cosiris.Kernel.Exec
import Cosiris.Kernel.Arguments
import Cosiris.Kernel.Breakpoints
