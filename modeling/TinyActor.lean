import TinyActor.Proofs.Arg
import TinyActor.Proofs.Blocking
import TinyActor.Proofs.Buffer
import TinyActor.Proofs.Bufio
import TinyActor.Proofs.Closures
import TinyActor.Proofs.Collect
import TinyActor.Proofs.Csv
import TinyActor.Proofs.Delims
import TinyActor.Proofs.Dict
import TinyActor.Proofs.Encoding
import TinyActor.Proofs.Form
import TinyActor.Proofs.Frames
import TinyActor.Proofs.Fuse
import TinyActor.Proofs.Html
import TinyActor.Proofs.Http
import TinyActor.Proofs.Link
import TinyActor.Proofs.Literal
import TinyActor.Proofs.Message
import TinyActor.Proofs.Monitor
import TinyActor.Proofs.Native
import TinyActor.Proofs.Path
import TinyActor.Proofs.Places
import TinyActor.Proofs.Positions
import TinyActor.Proofs.Precedence
import TinyActor.Proofs.Preempt
import TinyActor.Proofs.Process
import TinyActor.Proofs.Random
import TinyActor.Proofs.Redirect
import TinyActor.Proofs.Registry
import TinyActor.Proofs.Release
import TinyActor.Proofs.Response
import TinyActor.Proofs.Room
import TinyActor.Proofs.RunQueue
import TinyActor.Proofs.Scope
import TinyActor.Proofs.Serve
import TinyActor.Proofs.Sort
import TinyActor.Proofs.Split
import TinyActor.Proofs.Strconv
import TinyActor.Proofs.Supervisor
import TinyActor.Proofs.Sweep
import TinyActor.Proofs.Symbols
import TinyActor.Proofs.Timer
import TinyActor.Proofs.Tls
import TinyActor.Proofs.Url
import TinyActor.Proofs.Walk
import TinyActor.Proofs.Word
