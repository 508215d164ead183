import Solcompat.Lib.LinkedList
import Solcompat.Lib.Rearrange
import Solcompat.Sort.Correct
import Solcompat.Sort.Safety
import Solcompat.Printf.Grow
import Solcompat.Printf.Render
import Solcompat.Printf.Vsnprintf
import Solcompat.Inet.RoundTrip
import Solcompat.Getopt.RoundTrip
import Solcompat.Getopt.LongOnly
import Solcompat.Getopt.Plus
import Solcompat.Env.Updates
import Solcompat.Filesystem.Allocate
import Solcompat.Filesystem.Listing
import Solcompat.Filesystem.Mkdtemp
import Solcompat.Filesystem.FlockRuns
import Solcompat.Lib.Arena
import Solcompat.Lib.Bits
import Solcompat.Lib.Blocks
import Solcompat.Lib.Buffer
import Solcompat.Lib.Checked
import Solcompat.Lib.Handles
import Solcompat.Lib.Polling
import Solcompat.Lib.Contents
import Solcompat.Lib.Linearize
import Solcompat.Lib.Machine
import Solcompat.Lib.Segments
import Solcompat.Lib.Tokens
import Solcompat.Lib.Trace
import Solcompat.Fenv.Refinement
import Solcompat.Atomic.Linearizable
import Solcompat.Atomic.PlainAccess
import Solcompat.Cxa.Capacity
import Solcompat.Cxa.Late
import Solcompat.At.Locked
import Solcompat.At.Paths
import Solcompat.At.Plain
import Solcompat.At.Unlocked
import Solcompat.Descriptor.Flags
import Solcompat.Descriptor.Mapping
import Solcompat.Descriptor.Terminal
import Solcompat.Process.Groups
import Solcompat.Process.SearchError
import Solcompat.Socket.Cmsg
import Solcompat.Socket.Walk
import Solcompat.Network.IfAddrs
import Solcompat.Network.Ownership
import Solcompat.Network.Interfaces
import Solcompat.Network.AddrList
import Solcompat.Network.NameInfo
import Solcompat.Network.Names
import Solcompat.Network.Requests
import Solcompat.Network.Results
import Solcompat.Stdio.Getdelim
import Solcompat.Stdio.Vectored
import Solcompat.Stdio.Dprintf
import Solcompat.Wchar.WellFormed
import Solcompat.Install.Rerun
import Solcompat.Install.LongLong
import Solcompat.Install.Prepend
import Solcompat.Install.Recipe
import Solcompat.Text.Concat
import Solcompat.Text.Copies
import Solcompat.Text.Search
import Solcompat.Text.Strsep
import Solcompat.Time.Deadline
import Solcompat.Time.Model
import Solcompat.Time.Poll
import Solcompat.Time.Sleep
import Solcompat.Time.TimedWait
import Solcompat.Time.Timegm
import Solcompat.Locale.Brackets
import Solcompat.Locale.Ownership
import Solcompat.Random.Egd
import Solcompat.Random.Seeding
import Solcompat.Memstream.Fixed
import Solcompat.Memstream.NoTrace
import Solcompat.Memstream.Registry
