import Vlibc.Aio
import Vlibc.Crypt.Digest
import Vlibc.Env.Handed
import Vlibc.Env.Map
import Vlibc.Ftw
import Vlibc.Iconv.Resume
import Vlibc.Inet.Aton
import Vlibc.Inet.RoundTrip
import Vlibc.Memory.AlignedResize
import Vlibc.Memory.Alignment
import Vlibc.Memory.Recycle
import Vlibc.Memory.Release
import Vlibc.Overflow
import Vlibc.Printf.Bounds
import Vlibc.Printf.Descriptor
import Vlibc.Pthread.Barrier
import Vlibc.Pthread.Keys
import Vlibc.Pthread.Once
import Vlibc.Pthread.Readers
import Vlibc.Pthread.Semaphore
import Vlibc.Regex.Captures
import Vlibc.Regex.Search
import Vlibc.Scanf
import Vlibc.Search.HashCapacity
import Vlibc.Search.Walk
import Vlibc.Spawn
import Vlibc.Stdio.CallerBuffer
import Vlibc.Stdio.Position
import Vlibc.Stdio.Records
import Vlibc.Stdio.Rewind
import Vlibc.Stdio.Seekable
import Vlibc.Stdlib.Random
import Vlibc.Stdlib.Wcsto
import Vlibc.Strings.Bounded
import Vlibc.Tempfile
import Vlibc.Time.Calendar
import Vlibc.Time.Strftime
import Vlibc.Time.Zone
import Vlibc.Vis
import Vlibc.Wordexp.Quoting
import Vlibc.Wordexp.Safety
