import HelinKern.Theorems.Break
import HelinKern.Theorems.BootFrames
import HelinKern.Theorems.HeapAccount
import HelinKern.Theorems.DeadTasks
import HelinKern.Theorems.ProcessTree
import HelinKern.Theorems.Reentry
import HelinKern.Theorems.CowFault
import HelinKern.Theorems.Queue
import HelinKern.Theorems.Clist
import HelinKern.Theorems.Inherit
import HelinKern.Theorems.Pipe
import HelinKern.Theorems.SocketStream
import HelinKern.Theorems.ShmPages
import HelinKern.Theorems.IpcObjects
import HelinKern.Theorems.UserPointer
import HelinKern.Theorems.ArrayAccess
import HelinKern.Theorems.Cpio
import HelinKern.Theorems.Lookup
import HelinKern.Theorems.MountList
import HelinKern.Theorems.TmpfsNode
import HelinKern.Theorems.Users
import HelinKern.Theorems.FileOffset
import HelinKern.Theorems.NodeTypes
import HelinKern.Theorems.AbsentPid
import HelinKern.Theorems.Mprotect
import HelinKern.Theorems.Mapping
import HelinKern.Theorems.Mbr
import HelinKern.Theorems.MbrParse
import HelinKern.Theorems.Pthread
import HelinKern.Theorems.Elf
import HelinKern.Theorems.FatDir
import HelinKern.Theorems.Ext2
import HelinKern.Theorems.FatCache
import HelinKern.Theorems.Fat
import HelinKern.Theorems.Msg
import HelinKern.Theorems.FreshMemory
import HelinKern.Theorems.Paging64
import HelinKern.Theorems.Sv39
import HelinKern.Theorems.Filo
import HelinKern.Theorems.ExitStatus
import HelinKern.Theorems.TmpfsBlocks
import HelinKern.Theorems.Strtok
import HelinKern.Theorems.ExecHeap
import HelinKern.Theorems.PartTab
import HelinKern.Theorems.Iso9660
import HelinKern.Theorems.Separation
import HelinKern.Theorems.TaskTable
import HelinKern.Theorems.Clock
import HelinKern.Theorems.Input
