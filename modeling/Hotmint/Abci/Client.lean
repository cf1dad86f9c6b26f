/-
`hotmint-abci`: the client of an application in another process, over a socket.

* `Request`, `Response`, `Codec`: `protocol.rs`.  The fields of the requests and responses
  are kept as bytes, and the encoding is a parameter;
* `Server`: `handle_connection` of `server.rs`.  It answers the frames of each connection in
  order; what it answers to each is a parameter;
* `Stream`, `Attempt`: a connection, as the bytes written to it and how many bytes of the
  answers were read, and what the operating system does in one attempt;
* `Client.callOnce`, `Client.call`, `Client.invoke`: `client.rs`.  Deadlines are not counted:
  a read may end early in any attempt.
-/
import Hotmint.Library.Frames
import Hotmint.Types.Basic

namespace Hotmint.Abci

/-! ### `protocol.rs` -/

/-- The variants of `Request`, and of `Response`. -/
inductive Kind
  | info
  | initChain
  | createPayload
  | validateBlock
  | validateTx
  | executeBlock
  | onCommit
  | onEvidence
  | onOfflineValidators
  | extendVote
  | verifyVoteExtension
  | query
  | listSnapshots
  | loadSnapshotChunk
  | offerSnapshot
  | applySnapshotChunk
  | tracksAppHash
deriving DecidableEq, Repr

/-- `Request`. -/
structure Request where
  kind : Kind
  body : Bytes
deriving DecidableEq, Repr

/-- `Response`. -/
structure Response where
  kind : Kind
  body : Bytes
deriving DecidableEq, Repr

/-- `is_commit_path`. -/
def Request.isCommitPath (req : Request) : Bool :=
  match req.kind with
  | .executeBlock | .onCommit | .onEvidence => true
  | _ => false

/-- `may_retry_after_write`. -/
def Request.mayRetryAfterWrite (req : Request) : Bool :=
  match req.kind with
  | .info | .validateBlock | .validateTx | .verifyVoteExtension | .query | .listSnapshots
  | .loadSnapshotChunk | .tracksAppHash => true
  | _ => false

/-- `encode_request` and `decode_response`. -/
structure Codec where
  encodeRequest : Request → Bytes
  decodeResponse : Bytes → Option Response

/-- `MAX_FRAME_SIZE`, and `MAX_FRAME` of the client. -/
def maxFrame : ℕ := 64 * 1024 * 1024

/-! ### `server.rs` -/

/-- A server in a run: the encoded response to each frame of each connection, nothing where
the request does not decode and the connection is closed. -/
structure Server where
  answer : (conn index : ℕ) → Bytes → Option Bytes

/-- `handle_connection`: the responses to the frames of a connection, from a frame on.  A
response that is too long for a frame ends the connection. -/
def Server.handleConnection (server : Server) (conn : ℕ) : ℕ → List Bytes → List Bytes
  | _, [] => []
  | index, frame :: frames =>
    match server.answer conn index frame with
    | none => []
    | some resp =>
      if maxFrame < resp.length then []
      else resp :: server.handleConnection conn (index + 1) frames

/-! ### The socket -/

/-- `UnixStream`: a connection, with its read and write timeout in seconds, the bytes written
to it, and the number of bytes read from it. -/
structure Stream where
  id : ℕ
  timeout : Option ℕ
  sent : Bytes
  taken : ℕ
deriving DecidableEq, Repr

/-- `IPC_TIMEOUT`. -/
def ipcTimeout : ℕ := 5

/-- `set_timeouts`, where it succeeds. -/
def Stream.setTimeouts (s : Stream) (commitPath : Bool) : Stream :=
  { s with timeout := if commitPath then none else some ipcTimeout }

/-- All that the server writes to a connection that carried some bytes. -/
def Server.replies (server : Server) (conn : ℕ) (sent : Bytes) : Bytes :=
  ((server.handleConnection conn 0 (Frames.frames maxFrame sent)).map Frames.frame).flatten

/-- What there is to read. -/
def Stream.available (s : Stream) (server : Server) : Bytes :=
  (server.replies s.id s.sent).drop s.taken

/-- What one `write` returns: the number of bytes written, or an error. -/
inductive WriteResult
  | wrote (n : ℕ)
  | failed
deriving DecidableEq, Repr

/-- How a `read_exact` ends: with all bytes, or with an error or a timeout after some. -/
inductive ReadResult
  | done
  | failed (consumed : ℕ)
deriving DecidableEq, Repr

/-- What happens in one attempt: whether the connection is made and its timeouts are set,
the results of the first writes (the later ones take all they are given) and of the flush,
and how the two reads end. -/
structure Attempt where
  connect : Bool
  timeouts : Bool
  writes : List WriteResult
  flush : Bool
  header : ReadResult
  body : ReadResult
deriving DecidableEq, Repr

/-! ### `client.rs`: frames -/

/-- The error sources of a write. -/
inductive WriteFault
  /-- `frame size .. exceeds max ..`. -/
  | tooLong (length : ℕ)
  /-- `failed to write frame`. -/
  | writeZero
  | io
deriving DecidableEq, Repr

/-- `FrameWriteError`. -/
structure FrameWriteError where
  source : WriteFault
  bytesWritten : ℕ
deriving DecidableEq, Repr

/-- How far a write came: the bytes counted, the bytes delivered, and the write results not
yet used. -/
structure Progress where
  bytesWritten : ℕ
  delivered : Bytes
  writes : List WriteResult
deriving DecidableEq, Repr

/-- `write_all_tracked`. -/
def writeAllTracked :
    List WriteResult → Bytes → ℕ → Bytes → Except FrameWriteError Unit × Progress
  | writes, [], count, delivered => (.ok (), ⟨count, delivered, writes⟩)
  | [], b :: buf, count, delivered =>
    (.ok (), ⟨count + (b :: buf).length, delivered ++ (b :: buf), []⟩)
  | .failed :: writes, _ :: _, count, delivered =>
    (.error ⟨.io, count⟩, ⟨count, delivered, writes⟩)
  | .wrote n :: writes, b :: buf, count, delivered =>
    -- a writer reports at most the bytes it was given
    let n := min n (b :: buf).length
    if n = 0 then (.error ⟨.writeZero, count⟩, ⟨count, delivered, writes⟩)
    else writeAllTracked writes ((b :: buf).drop n) (count + n) (delivered ++ (b :: buf).take n)

/-- `write_frame_sync`, with the bytes delivered. -/
def writeFrameSync (a : Attempt) (payload : Bytes) : Except FrameWriteError Unit × Bytes :=
  if maxFrame < payload.length then (.error ⟨.tooLong payload.length, 0⟩, [])
  else
    match writeAllTracked a.writes (Frames.lenBytes payload.length) 0 [] with
    | (.error err, p) => (.error err, p.delivered)
    | (.ok (), p) =>
      match writeAllTracked p.writes payload p.bytesWritten p.delivered with
      | (.error err, p) => (.error err, p.delivered)
      | (.ok (), p) =>
        if a.flush then (.ok (), p.delivered) else (.error ⟨.io, p.bytesWritten⟩, p.delivered)

/-- `read_exact`, with the number of bytes consumed.  Where fewer bytes come than asked for,
it fails after them. -/
def readExact (n : ℕ) (result : ReadResult) (available : Bytes) : Option Bytes × ℕ :=
  if n = 0 then (some [], 0)
  else
    match result with
    | .done =>
      if n ≤ available.length then (some (available.take n), n) else (none, available.length)
    | .failed consumed => (none, min (min consumed (n - 1)) available.length)

/-- The errors of a read. -/
inductive ReadFault
  /-- `frame size .. exceeds max ..`. -/
  | tooLong (length : ℕ)
  | io
deriving DecidableEq, Repr

/-- `read_frame_sync`, with the number of bytes consumed. -/
def readFrameSync (a : Attempt) (available : Bytes) : Except ReadFault Bytes × ℕ :=
  match readExact 4 a.header available with
  | (none, consumed) => (.error .io, consumed)
  | (some lenBuf, consumed) =>
    let len := Frames.ofLenBytes lenBuf
    if maxFrame < len then (.error (.tooLong len), consumed)
    else
      match readExact len a.body (available.drop consumed) with
      | (none, consumed') => (.error .io, consumed + consumed')
      | (some buf, consumed') => (.ok buf, consumed + consumed')

/-! ### `client.rs`: calls -/

/-- `CallFailure`. -/
inductive CallFailure
  | connect
  | write (err : FrameWriteError)
  | read (err : ReadFault)
deriving DecidableEq, Repr

/-- The errors of `call`. -/
inductive CallError
  /-- `apply IPC timeout policy`. -/
  | timeoutPolicy
  /-- `retry request after pre-write IPC failure`. -/
  | retryWrite (failure : CallFailure)
  /-- `retry idempotent request after IPC read failure`. -/
  | retryRead (failure : CallFailure)
  /-- `IPC request failed; not retrying ambiguous post-write failure`. -/
  | notRetried (failure : CallFailure)
  /-- `decode response`. -/
  | decodeResponse
deriving DecidableEq, Repr

/-- What happens in one call: whether the timeout policy can be applied to the cached
connection, and the two attempts. -/
structure CallEnv where
  policy : Bool
  first : Attempt
  second : Attempt
deriving DecidableEq, Repr

/-- `IpcApplicationClient`: the cached connection, with the number of connections opened so
far and, for each attempt that had one, the connection and the bytes delivered to it. -/
structure Client where
  conn : Option Stream
  opened : ℕ
  attempts : List (ℕ × Bytes)
deriving DecidableEq, Repr

namespace Client

/-- `new`. -/
def new : Client := ⟨none, 0, []⟩

/-- The connection of an attempt. -/
def connect (c : Client) (commitPath : Bool) (a : Attempt) : Option Stream × Client :=
  match c.conn with
  | some s => (some s, c)
  | none =>
    if a.connect then
      let s : Stream := ⟨c.opened, none, [], 0⟩
      let s := s.setTimeouts commitPath
      if a.timeouts then (some s, { c with conn := some s, opened := c.opened + 1 })
      else (none, { c with opened := c.opened + 1 })
    else (none, c)

/-- `call_once`. -/
def callOnce (c : Client) (server : Server) (payload : Bytes) (commitPath : Bool) (a : Attempt) :
    Except CallFailure Bytes × Client :=
  match c.connect commitPath a with
  | (none, c) => (.error .connect, c)
  | (some s, c) =>
    let (written, delivered) := writeFrameSync a payload
    let s := { s with sent := s.sent ++ delivered }
    let c := { c with attempts := c.attempts ++ [(s.id, delivered)] }
    match written with
    | .error err => (.error (.write err), { c with conn := some s })
    | .ok () =>
      let (read, consumed) := readFrameSync a (s.available server)
      let c := { c with conn := some { s with taken := s.taken + consumed } }
      match read with
      | .error err => (.error (.read err), c)
      | .ok bytes => (.ok bytes, c)

/-- The second attempt of a call, on a new connection. -/
def retry (c : Client) (server : Server) (payload : Bytes) (commitPath : Bool) (a : Attempt)
    (error : CallFailure → CallError) : Except CallError Bytes × Client :=
  match { c with conn := none }.callOnce server payload commitPath a with
  | (.ok bytes, c) => (.ok bytes, c)
  | (.error failure, c) => (.error (error failure), c)

/-- The response bytes of a call. -/
def exchange (c : Client) (codec : Codec) (server : Server) (req : Request) (env : CallEnv) :
    Except CallError Bytes × Client :=
  let payload := codec.encodeRequest req
  let commitPath := req.isCommitPath
  match c.callOnce server payload commitPath env.first with
  | (.ok bytes, c) => (.ok bytes, c)
  | (.error (.write err), c) =>
    if err.bytesWritten = 0 then c.retry server payload commitPath env.second .retryWrite
    else (.error (.notRetried (.write err)), { c with conn := none })
  | (.error (.read err), c) =>
    if req.mayRetryAfterWrite then c.retry server payload commitPath env.second .retryRead
    else (.error (.notRetried (.read err)), { c with conn := none })
  | (.error .connect, c) => (.error (.notRetried .connect), { c with conn := none })

/-- `call`. -/
def call (c : Client) (codec : Codec) (server : Server) (req : Request) (env : CallEnv) :
    Except CallError Response × Client :=
  if c.conn.isSome && !env.policy then (.error .timeoutPolicy, c)
  else
    let c : Client := { c with conn := c.conn.map fun s => s.setTimeouts req.isCommitPath }
    match c.exchange codec server req env with
    | (.error err, c) => (.error err, c)
    | (.ok bytes, c) =>
      match codec.decodeResponse bytes with
      | none => (.error .decodeResponse, c)
      | some resp => (.ok resp, c)

/-- The methods of `Application`: a call.  `validate_block` alone drops the connection when
the call fails or the response is of another kind. -/
def invoke (c : Client) (codec : Codec) (server : Server) (req : Request) (env : CallEnv) :
    Except CallError Response × Client :=
  match c.call codec server req env with
  | (.ok resp, c) =>
    if req.kind = .validateBlock ∧ resp.kind ≠ .validateBlock then
      (.ok resp, { c with conn := none })
    else (.ok resp, c)
  | (.error err, c) =>
    if req.kind = .validateBlock then (.error err, { c with conn := none }) else (.error err, c)

/-- A sequence of calls. -/
def run (c : Client) (codec : Codec) (server : Server) (calls : List (Request × CallEnv)) :
    Client :=
  calls.foldl (fun c call => (c.invoke codec server call.1 call.2).2) c

end Client

end Hotmint.Abci
