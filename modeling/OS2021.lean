import OS2021.Fs.Session
import OS2021.Fs.Location
import OS2021.Fs.GroupCommit
import OS2021.Fs.Allocator
import OS2021.Fs.Lifecycle
import OS2021.Fs.Namei
import OS2021.Core.FreeList
import OS2021.Core.SysExec
import OS2021.Core.ForkCopy
import OS2021.Core.Writev
import OS2021.User.Sh.Parsecmd
import OS2021.Core.Sleeplock
import OS2021.Fs.Lru
import OS2021.Core.Console
import OS2021.Driver.Sd
import OS2021.User.Mkfs.Agreement
import OS2021.Core.Handoff
import OS2021.Core.Arena
import OS2021.Fs.Threads
import OS2021.Core.LoadImage
import OS2021.Common.Format
