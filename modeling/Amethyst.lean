import Amethyst.Console
import Amethyst.Glyph
import Amethyst.Heap
import Amethyst.HeapSafety
import Amethyst.HeapSpace
import Amethyst.HeapStack
import Amethyst.Installer.Checked
import Amethyst.Installer.DirBalance
import Amethyst.Installer.DirLookup
import Amethyst.Installer.DirOpen
import Amethyst.Installer.DirScan
import Amethyst.Installer.Disk
import Amethyst.Installer.DiskOpen
import Amethyst.Installer.DiskStatus
import Amethyst.Installer.DisplayName
import Amethyst.Installer.DivideError
import Amethyst.Installer.Fat12
import Amethyst.Installer.FatChain
import Amethyst.Installer.FatData
import Amethyst.Installer.FatEntry
import Amethyst.Installer.FileBlocks
import Amethyst.Installer.FileContent
import Amethyst.Installer.FileResult
import Amethyst.Installer.Loading
import Amethyst.Installer.MergeCalls
import Amethyst.Installer.Mount
import Amethyst.Installer.Paging
import Amethyst.Installer.PathDescent
import Amethyst.Installer.StringOrder
import Amethyst.Installer.VolumeLabel
import Amethyst.Installer.VolumeListing
import Amethyst.Installer.VolumeRead
import Amethyst.Kernel.Exceptions
import Amethyst.Kernel.Layout
import Amethyst.Kernel.Pci
import Amethyst.Kernel.Syscalls
import Amethyst.Numeral
import Amethyst.Printf.Call
import Amethyst.Printf.Decimal
import Amethyst.RealMode
import Amethyst.Screen
import Amethyst.Stage1.Load
import Amethyst.Stage2.Fs
import Amethyst.Stage2.FsRead
import Amethyst.Stage2.FsResult
import Amethyst.Stdlib
import Amethyst.Vga
