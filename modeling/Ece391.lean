import Ece391.Devices.Masks
import Ece391.Devices.Rtc
import Ece391.FileSys.Listing
import Ece391.FileSys.Volume
import Ece391.Fish.Animation
import Ece391.Kernel.Arguments
import Ece391.Kernel.Attribution
import Ece391.Kernel.Brackets
import Ece391.Kernel.Console
import Ece391.Kernel.Faults
import Ece391.Kernel.Inheritance
import Ece391.Kernel.Listings
import Ece391.Kernel.Loading
import Ece391.Kernel.Reentry
import Ece391.Kernel.Rolls
import Ece391.Kernel.Slots
import Ece391.Kernel.Vidmap
import Ece391.Lib.Blocks
import Ece391.Lib.Memcpy
import Ece391.Lib.Printf
import Ece391.Syscall.Buffers
import Ece391.Syscall.Failure
import Ece391.Syscall.Streaming
import Ece391.Syscall.Window
import Ece391.User.Matches
import Ece391.User.Shell
import Ece391.User.Volumes
