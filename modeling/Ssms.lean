import Ssms.Kernel.Buffer
import Ssms.Amf0.Encode
import Ssms.Protocol.PropertyTable
import Ssms.Amf0.Grammar
import Ssms.Amf0.Decode
import Ssms.Amf0.Soundness
import Ssms.Amf0.RoundTrip
import Ssms.Amf0.Copy
import Ssms.Amf0.StrictArray
import Ssms.Lib.Decimal
import Ssms.Lib.Rfc8259
import Ssms.Kernel.Utility
import Ssms.Json.Parse
import Ssms.Json.RoundTrip
import Ssms.Json.Names
import Ssms.Json.Convert
import Ssms.App.Coroutine
import Ssms.App.WaitGroup
import Ssms.App.HttpConn
import Ssms.App.ResponseOnly
import Ssms.Kernel.SystemTime
import Ssms.Amf0.EcmaArray
import Ssms.Amf0.Utf8
import Ssms.App.ThreadContext
import Ssms.Lib.NumberValue
import Ssms.Kernel.Fixed
import Ssms.Json.Literal
import Ssms.Json.Tree
import Ssms.Kernel.Kbps
import Ssms.App.Log
import Ssms.Kernel.ErrorChain
import Ssms.Kernel.BitBuffer
import Ssms.Kernel.Script
import Ssms.Json.JsonParse
import Ssms.Json.Build
import Ssms.Json.Filling
import Ssms.Json.Freeing
import Ssms.Json.Parsed
import Ssms.Json.Dumped
import Ssms.Json.Unicode
import Ssms.App.Features
import Ssms.App.LatestVersion
