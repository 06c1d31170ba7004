import Tomahawk.Net.Ownership
import Tomahawk.Net.PacketRings
import Tomahawk.Net.Delivery
import Tomahawk.Net.Dhcp
import Tomahawk.Users.Privilege
import Tomahawk.Users.Shadow
import Tomahawk.Block.Durability
import Tomahawk.Memory.CloneFidelity
import Tomahawk.Ramfs.Liveness
import Tomahawk.Proc.PipeEnds
import Tomahawk.Proc.Exec
import Tomahawk.Proc.Signals
import Tomahawk.Proc.ThreadLists
import Tomahawk.Proc.Accounting
import Tomahawk.Syscall.ImageSafety
import Tomahawk.Fat32.WriteLimits
import Tomahawk.Fat32.CurrentDirectory
import Tomahawk.Fat32.Accounting
import Tomahawk.Net.NetbufBounds
import Tomahawk.Fat32.Lifetime
import Tomahawk.Fat32.Guards
import Tomahawk.Fat32.LongNames
import Tomahawk.Vfs.Resolve
import Tomahawk.Console.Masked
import Tomahawk.Net.Routing
import Tomahawk.Net.Reception
import Tomahawk.Net.ArpCache
import Tomahawk.Net.Dns
