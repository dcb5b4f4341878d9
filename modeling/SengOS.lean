import SengOS.Disk.Recovery
import SengOS.Fs.CrashCalls
import SengOS.Fs.ReadAll
import SengOS.Fs.Reclaim
import SengOS.Fs.Format
import SengOS.Fs.Pwd
import SengOS.Fs.Append
import SengOS.Kernel.Creation
import SengOS.Kernel.Holders
import SengOS.Kernel.MutexProtocol
import SengOS.Kernel.Inheritance
import SengOS.Kernel.Deadlock
import SengOS.Kernel.Coalesce
import SengOS.Kernel.FrameRuns
import SengOS.Kernel.Slab
import SengOS.Kernel.SemProtocol
import SengOS.Kernel.RwOrder
import SengOS.Kernel.ReadSafety
import SengOS.Kernel.LiveCount
import SengOS.Kernel.StackOwners
import SengOS.Kernel.SleepQueue
import SengOS.Kernel.Quanta
import SengOS.Kernel.Uncontended
import SengOS.Kernel.SleepTimes
import SengOS.Kernel.RoundRobin
import SengOS.Kernel.ForkName
import SengOS.Kernel.ForkStack
import SengOS.Vga.Ansi
import SengOS.Vga.Paper
import SengOS.Vga.Blank
import SengOS.Vga.Box
import SengOS.Disk.Checksum
import SengOS.Keyboard.Modifiers
import SengOS.Keyboard.Readline
import SengOS.Shell.Numbers
import SengOS.Vga.Printf
import SengOS.Kernel.SystemCalls
import SengOS.Fs.Service
import SengOS.Shell.Texts
