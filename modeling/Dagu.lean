import Dagu.Sock.Server
import Dagu.Sock.Shutdown
import Dagu.Sock.Accept
import Dagu.Jsondb.Bufio
import Dagu.Jsondb.ParseFile
import Dagu.Digraph.Condition
import Dagu.Go.Utf8
import Dagu.Engine.Start
import Dagu.Go.Md5
import Dagu.Go.Filepath
import Dagu.Go.Sort
import Dagu.Go.Time
import Dagu.Jsondb.Names
import Dagu.Jsondb.Latest
import Dagu.Go.Clean
import Dagu.Go.Match
import Dagu.Jsondb.Glob
import Dagu.Go.Os
import Dagu.Jsondb.Compact
import Dagu.Jsondb.Rename
import Dagu.Go.Pattern
import Dagu.Jsondb.History
import Dagu.Jsondb.Readers
import Dagu.Jsondb.Renamed
import Dagu.Jsondb.RemoveOld
import Dagu.Jsondb.Store
