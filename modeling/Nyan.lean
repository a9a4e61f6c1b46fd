import Nyan.Allocator.BitmapRun
import Nyan.Allocator.TableGrowth
import Nyan.Console.ControlSequence
import Nyan.Console.CursorBounds
import Nyan.Console.LineDiscipline
import Nyan.Console.TtyWaiters
import Nyan.Elf.Execution
import Nyan.Elf.Image
import Nyan.Fs.DirectoryScan
import Nyan.Fs.OpenCall
import Nyan.Fs.PipeWaiters
import Nyan.Fs.ScatteredRead
import Nyan.Fs.Seek
import Nyan.Fs.UnlinkEntry
import Nyan.Fs.WorkingDirectory
import Nyan.Keyboard.Modifiers
import Nyan.Lib.FormatString
import Nyan.Lib.FormatWidth
import Nyan.Logger.RoundTrip
import Nyan.Paging.CopyOnWrite
import Nyan.Runtime.Memmove
import Nyan.Syscall.Nanosleep
import Nyan.Task.AlignedAreas
import Nyan.Task.ProcessEntry
import Nyan.Task.ProcessTree
import Nyan.Task.ReadyQueue
import Nyan.Task.SignalConfinement
import Nyan.Task.SignalWake
import Nyan.Task.Spawn
import Nyan.Task.StackCheck
import Nyan.Task.WaitStatus
