import Ristux.Ext2.RoundTrip
import Ristux.Ext2.InPlace
import Ristux.Ext2.Sparse
import Ristux.Kernel.Session
import Ristux.Kernel.ThreadGroup
import Ristux.Kernel.Accounting
import Ristux.Kernel.PipeWake
import Ristux.Kernel.PipeStream
import Ristux.Kernel.TtyStream
import Ristux.Kernel.TtyWait
import Ristux.Kernel.ExitMemory
import Ristux.Kernel.Dents
import Ristux.Linker.Reach
import Ristux.Vfs.TreeRuns
import Ristux.Vfs.PathAlgebra
import Ristux.Net.Segments
import Ristux.Net.Listener
import Ristux.Net.HalfClose
import Ristux.Memory.HeapRuns
import Ristux.Memory.FrameRuns
import Ristux.Memory.CloneFailure
import Ristux.Memory.InitialStack
import Ristux.Userland.Wildcard
import Ristux.Userland.Tar
import Ristux.Userland.Expr
import Ristux.Userland.Patch
import Ristux.Userland.ArKeeps
