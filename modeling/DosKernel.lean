import DosKernel.Lib.Runs
import DosKernel.Frames.Geometry
import DosKernel.Paging.Isolation
import DosKernel.Paging.KernelHalf
import DosKernel.Syscall.Read
import DosKernel.Process.Switching
import DosKernel.Process.Conservation
import DosKernel.Process.Realloc
import DosKernel.Process.Queue
import DosKernel.Process.WaitRuns
import DosKernel.Process.Timer
import DosKernel.Process.Semaphore
import DosKernel.Process.Waiters
import DosKernel.Process.Signals
import DosKernel.Process.Records
import DosKernel.Fs.Sequential
import DosKernel.Fs.Relative
import DosKernel.Drivers.Tty
import DosKernel.Drivers.E1000
import DosKernel.Drivers.Pci
import DosKernel.Net.Checksums
import DosKernel.Net.Arp
import DosKernel.Net.Handshake
import DosKernel.Net.Dhcp
import DosKernel.Process.RoundRobin
import DosKernel.Paging.KernelPages
import DosKernel.Paging.Copying
import DosKernel.Process.Aligned
import DosKernel.Process.FailedFork
import DosKernel.Process.Exec
import DosKernel.Process.FailedExec
import DosKernel.Process.ExecSpace
import DosKernel.Process.Vectors
import DosKernel.Process.ExecFrames
import DosKernel.Process.Arguments
import DosKernel.Process.Image
import DosKernel.Process.SignalFrames
import DosKernel.Fs.FailedOpen
import DosKernel.Fs.Ext2Reads
import DosKernel.Fs.Clamping
import DosKernel.Fs.Ext2Directory
import DosKernel.Syscall.Descriptors
import DosKernel.Drivers.Output
import DosKernel.Fs.Iso9660Reads
import DosKernel.Fs.Iso9660Directory
import DosKernel.Fs.FatInit
import DosKernel.Fs.FatChains
import DosKernel.Fs.FatDirectory
import DosKernel.Fs.Ext2Lookup
import DosKernel.Net.NextHop
import DosKernel.Net.UdpZero
import DosKernel.Net.Acknowledgements
import DosKernel.Net.DnsQuery
import DosKernel.Net.DnsRecords
import DosKernel.Net.DhcpOptions
import DosKernel.Libc.FieldWidths
import DosKernel.Libc.Blocks
import DosKernel.Libc.Bounds
import DosKernel.Libc.Comparison
import DosKernel.Libc.Strtol
import DosKernel.Boot.Cmdline
import DosKernel.Lib.Quicksort
import DosKernel.Libc.Qsort
import DosKernel.Libc.Bsearch
import DosKernel.Libc.FormatReads
import DosKernel.Libc.StaleBytes
import DosKernel.Process.Tasks
import DosKernel.Process.TimerWait
import DosKernel.Userland.Stdio
import DosKernel.Fs.FatPacking
import DosKernel.Libc.Strstr
import DosKernel.Libc.Strtok
import DosKernel.Drivers.Addressing
import DosKernel.Lib.Locking
import DosKernel.Lib.Simulation
import DosKernel.Process.Spinlock
import DosKernel.Frames.Locked
import DosKernel.Drivers.E1000Send
import DosKernel.Net.Network
import DosKernel.Net.Deliveries
import DosKernel.Net.Resolution
import DosKernel.Drivers.Keyboard
import DosKernel.Drivers.Paper
import DosKernel.Drivers.Ramdisk
import DosKernel.Drivers.Redraw
import DosKernel.Fs.Mounts
import DosKernel.Userland.Shell
import DosKernel.Fs.Cursors
import DosKernel.Lib.FirstValues
import DosKernel.Userland.Ls
import DosKernel.Boot.Multiboot
import DosKernel.Net.DnsResolver
import DosKernel.Boot.Acpi
