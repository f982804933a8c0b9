import LsePc.Host.Sysemu
import LsePc.Host.Answers
import LsePc.Host.Damage
import LsePc.Host.Handshake
import LsePc.Host.Serial
import LsePc.Host.DevList
import LsePc.Host.Script
import LsePc.Host.ReadLoop
import LsePc.Host.Monitor
import LsePc.Supervisor.MainLoop
import LsePc.Supervisor.Session
import LsePc.Supervisor.Report
import LsePc.Supervisor.OcdRest
import LsePc.Tools.Independence
import LsePc.Tools.Operands
import LsePc.Tools.Bin2mif
import LsePc.Tools.RamDump
import LsePc.Tools.Syntax
import LsePc.Bridge.BusCycle
import LsePc.Bios.Cpio
import LsePc.Bios.Paging
import LsePc.Bios.PrintFile
import LsePc.Bios.Blocks
import LsePc.Bios.Lookup
import LsePc.Bios.PrintfContract
import LsePc.Bios.BootPaging
import LsePc.Bios.Exceptions
import LsePc.System.Typing
