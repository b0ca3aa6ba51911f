import Swish.Erlang.Registry
import Swish.Supervisor.Shutdown
import Swish.EventMgr.Owners
import Swish.GenServer.Call
import Swish.GenServer.Fold
import Swish.HashTable.Refinement
import Swish.Json.RoundTrip
import Swish.Json.WriteObject
import Swish.Json.Invalid
import Swish.Json.Buffer
import Swish.Json.Completeness
import Swish.Json.Paths
import Swish.Base64.Encode
import Swish.Gatekeeper.Timeout
import Swish.Supervisor.Stop
import Swish.WebSocket.Control
import Swish.WebSocket.Order
import Swish.WebSocket.InPlace
import Swish.Match.Clauses
import Swish.Http.Aligned
import Swish.Http.Search
import Swish.Http.Percent
import Swish.Http.Headers
import Swish.Http.Uploads
import Swish.Http.Limits
import Swish.Http.Form
import Swish.Http.Paths
import Swish.Http.Waiters
import Swish.Db.Wake
import Swish.Db.Truth
import Swish.Db.Bindings
import Swish.Db.Retry
import Swish.Supervisor.Intensity
import Swish.Parallel.Caller
import Swish.Parallel.Cleanup
import Swish.Parallel.Map
import Swish.Match.Correct
import Swish.Erlang.Earliest
import Swish.NaturalString.Layout
import Swish.Cli.Accounts
import Swish.WebSocket.Heartbeat
import Swish.Html.Reader
import Swish.Html.ReadBack
import Swish.Db.Sql
import Swish.Db.Placeholders
import Swish.WrapText.Text
import Swish.Lib.Fill
import Swish.WrapText.Paragraphs
import Swish.WrapText.Lines
import Swish.Osi.StringToUtf8
import Swish.Lib.Blocks
import Swish.Sha1.Standard
import Swish.Digest.Digest
import Swish.Digest.Hex
import Swish.Lib.Chain
import Swish.Lib.Settles
import Swish.Osi.SendRequest
import Swish.Sqlite.StatementList
import Swish.Sqlite.Worker
import Swish.Lib.Search
import Swish.Pregexp.Groups
import Swish.Pregexp.Literal
