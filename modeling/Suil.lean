import Suil.Basic.Base58
import Suil.Basic.Base64
import Suil.Basic.Base64Text
import Suil.Basic.BlobJson
import Suil.Basic.Buffer
import Suil.Basic.BufferRoom
import Suil.Basic.Bytes
import Suil.Basic.CString
import Suil.Basic.Config
import Suil.Basic.Exception
import Suil.Basic.Filled
import Suil.Basic.Json
import Suil.Basic.JsonMap
import Suil.Basic.JsonMember
import Suil.Basic.JsonScan
import Suil.Basic.JsonString
import Suil.Basic.JsonText
import Suil.Basic.OBuffer
import Suil.Basic.Str
import Suil.Basic.StrHash
import Suil.Basic.StrNumber
import Suil.Basic.StrOrder
import Suil.Basic.StrStrip
import Suil.Basic.StrSub
import Suil.Basic.Strncmp
import Suil.Basic.UrlCodec
import Suil.Basic.Utf8
import Suil.Cmdl.Cmd
import Suil.Cmdl.Parsing
import Suil.Cmdl.Registering
import Suil.Email.Data
import Suil.Email.Recipients
import Suil.Http.Auth
import Suil.Http.BodyAccess
import Suil.Http.Broadcast
import Suil.Http.CaseMap
import Suil.Http.CaseMapLaws
import Suil.Http.ClientForm
import Suil.Http.ClientHandle
import Suil.Http.ClientUrlForm
import Suil.Http.Cookies
import Suil.Http.FileCache
import Suil.Http.FileRoot
import Suil.Http.FileServer
import Suil.Http.Headers
import Suil.Http.HttpParser
import Suil.Http.Jwt
import Suil.Http.JwtAuthorization
import Suil.Http.JwtSession
import Suil.Http.Middlewares
import Suil.Http.Multipart
import Suil.Http.MultipartAtomic
import Suil.Http.MultipartSafe
import Suil.Http.MultipartText
import Suil.Http.ParseCookies
import Suil.Http.QueryLookup
import Suil.Http.QueryString
import Suil.Http.ReadFile
import Suil.Http.Receive
import Suil.Http.Request
import Suil.Http.RequestTarget
import Suil.Http.Response
import Suil.Http.UrlForm
import Suil.Http.Validators
import Suil.Http.WebSock
import Suil.Http.WebSockFrame
import Suil.Http.WebSockSession
import Suil.Http.WriteResponse
import Suil.Ipc.Lock
import Suil.Ipc.Supervision
import Suil.Lib.AssocMap
import Suil.Lib.Backtrack
import Suil.Lib.Cursor
import Suil.Lib.Lines
import Suil.Lib.LittleEndian
import Suil.Lib.Lua
import Suil.Lib.Positional
import Suil.Lib.Scope
import Suil.Lib.StepMachine
import Suil.Lib.TicketQueue
import Suil.Lib.Traced
import Suil.Mustache.Accepting
import Suil.Mustache.Escape
import Suil.Mustache.Fragments
import Suil.Mustache.Nesting
import Suil.Mustache.Parsing
import Suil.Mustache.Reference
import Suil.Mustache.Rendering
import Suil.Mustache.Template
import Suil.Net.Tcp
import Suil.Redis.Command
import Suil.Redis.Entries
import Suil.Redis.Operations
import Suil.Redis.Reply
import Suil.Redis.Resp
import Suil.Redis.Transaction
import Suil.Routing.AddSteps
import Suil.Routing.Atomic
import Suil.Routing.Compatible
import Suil.Routing.Find
import Suil.Routing.Optimize
import Suil.Routing.Params
import Suil.Routing.Router
import Suil.Routing.Rules
import Suil.Routing.Select
import Suil.Routing.Tags
import Suil.Routing.Trie
import Suil.Rpc.JsonRpc
import Suil.Rpc.Methods
import Suil.Rpc.SuilRpc
import Suil.Rpc.TxRx
import Suil.Scc.Agreement
import Suil.Scc.Header
import Suil.Scc.Program
import Suil.Sql.ArrayText
import Suil.Sql.Arrays
import Suil.Sql.Orm
import Suil.Sql.Parameters
import Suil.Sql.Pool
import Suil.Sql.Results
import Suil.Sql.StatementCache
import Suil.Sql.Transaction
import Suil.Wire.Access
import Suil.Wire.Boards
import Suil.Wire.Breadboard
import Suil.Wire.Codec
import Suil.Wire.Heapboard
import Suil.Wire.HexStr
import Suil.Wire.Room
