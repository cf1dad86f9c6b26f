/-
What an attempt writes.

* `writeAllTracked_spec`, `writeFrameSync_spec`: the bytes counted are the bytes
  delivered, a front part of the frame;
* `Client.callOnce_cases`: what one attempt can do;
* `written_once`: **a request that may not be retried after a write is written at most
  once**, and exactly once when the call succeeds.
-/
import Hotmint.Abci.Client

namespace Hotmint.Abci

open List

/-- **The counter is right**: what is counted is what was delivered, a front part of the
buffer, all of it on success. -/
lemma writeAllTracked_spec (writes : List WriteResult) (buf : Bytes) (count : ℕ)
    (delivered : Bytes) : ∃ done rest, buf = done ++ rest
      ∧ (writeAllTracked writes buf count delivered).2.delivered = delivered ++ done
      ∧ (writeAllTracked writes buf count delivered).2.bytesWritten = count + done.length
      ∧ ((writeAllTracked writes buf count delivered).1 = .ok () → rest = [])
      ∧ ∀ err, (writeAllTracked writes buf count delivered).1 = .error err →
        err.bytesWritten = count + done.length := by
  fun_induction writeAllTracked writes buf count delivered with
  | case1 writes count delivered =>
    exact ⟨[], [], rfl, (append_nil _).symm, rfl, fun _ => rfl, nofun⟩
  | case2 b buf count delivered =>
    exact ⟨b :: buf, [], (append_nil _).symm, rfl, rfl, fun _ => rfl, nofun⟩
  | case3 | case4 =>
    -- nothing more is written
    exact ⟨[], _, rfl, (append_nil _).symm, rfl, nofun, fun err h => by cases h; rfl⟩
  | case5 n writes b buf count delivered n' hpos ih =>
    obtain ⟨done, rest, hbuf, hdelivered, hcount, hok, herr⟩ := ih
    have hlen : ((b :: buf).take n').length = n' := by
      rw [length_take]
      exact Nat.min_eq_left (Nat.min_le_right _ _)
    refine ⟨(b :: buf).take n' ++ done, rest, ?_, ?_, ?_, hok, ?_⟩
    · rw [append_assoc, ← hbuf, take_append_drop]
    · rw [hdelivered, append_assoc]
    · rw [hcount, length_append, hlen, Nat.add_assoc]
    · intro err h
      rw [herr err h, length_append, hlen, Nat.add_assoc]

/-- **A frame write** delivers the frame when it succeeds; when it fails, it counts the
bytes it delivered. -/
lemma writeFrameSync_spec (a : Attempt) (payload : Bytes) :
    ((writeFrameSync a payload).1 = .ok () → payload.length ≤ maxFrame
        ∧ (writeFrameSync a payload).2 = Frames.frame payload)
      ∧ ∀ err, (writeFrameSync a payload).1 = .error err →
        err.bytesWritten = (writeFrameSync a payload).2.length := by
  unfold writeFrameSync
  by_cases hlong : maxFrame < payload.length
  · rw [if_pos hlong]
    exact ⟨fun h => (by cases h), fun err h => by cases h; rfl⟩
  rw [if_neg hlong]
  obtain ⟨done, rest, hbuf, hdelivered, hcount, hok, herr⟩ :=
    writeAllTracked_spec a.writes (Frames.lenBytes payload.length) 0 []
  cases hheader : writeAllTracked a.writes (Frames.lenBytes payload.length) 0 [] with
  | mk header p =>
  rw [hheader] at hdelivered hcount hok herr
  cases header with
  | error err =>
    dsimp only at hdelivered ⊢
    refine ⟨fun h => (by cases h), fun err' h => ?_⟩
    cases h
    rw [herr err rfl, hdelivered, nil_append, Nat.zero_add]
  | ok u =>
    obtain rfl := hok rfl
    rw [append_nil] at hbuf
    obtain ⟨done', rest', hbuf', hdelivered', hcount', hok', herr'⟩ :=
      writeAllTracked_spec p.writes payload p.bytesWritten p.delivered
    dsimp only at hdelivered hcount ⊢
    have hlen : p.delivered.length = p.bytesWritten := by
      rw [hdelivered, hcount, nil_append, Nat.zero_add]
    cases hpayload : writeAllTracked p.writes payload p.bytesWritten p.delivered with
    | mk body q =>
    rw [hpayload] at hdelivered' hcount' hok' herr'
    dsimp only at hdelivered' hcount' ⊢
    have hlen' : q.bytesWritten = q.delivered.length := by
      rw [hdelivered', hcount', length_append, hlen]
    cases body with
    | error err =>
      dsimp only
      refine ⟨fun h => (by cases h), fun err' h => ?_⟩
      cases h
      rw [herr' err rfl, hdelivered', length_append, hlen]
    | ok u =>
      obtain rfl := hok' rfl
      rw [append_nil] at hbuf'
      dsimp only
      split_ifs
      · refine ⟨fun _ => ⟨Nat.le_of_not_lt hlong, ?_⟩, fun _ h => (by cases h)⟩
        rw [hdelivered', hdelivered, nil_append, ← hbuf, ← hbuf', Frames.frame]
      · refine ⟨fun h => (by cases h), fun err' h => ?_⟩
        cases h
        exact hlen'

/-! ### What an attempt can do -/

/-- The connection an attempt uses: the cached one, or a new one. -/
inductive Client.Uses (c : Client) : Stream → Client → Prop
  | cached {s : Stream} (h : c.conn = some s) : Uses c s c
  | fresh {timeout : Option ℕ} {c' : Client} (h : c.conn = none)
      (hopened : c'.opened = c.opened + 1)
      (hattempts : c'.attempts = c.attempts) : Uses c ⟨c.opened, timeout, [], 0⟩ c'

/-- The outcomes of an attempt. -/
inductive Client.Attempted (c : Client) (server : Server) (payload : Bytes) (a : Attempt) :
    Except CallFailure Bytes × Client → Prop
  /-- No connection: the cache stays empty. -/
  | unconnected {c' : Client} (h : c.conn = none) (hconn : c'.conn = none)
      (hopened : c.opened ≤ c'.opened) (hattempts : c'.attempts = c.attempts) :
      Attempted c server payload a (.error .connect, c')
  /-- The frame was not written, at least not knowingly. -/
  | unwritten {s : Stream} {c' : Client} {err : FrameWriteError} {delivered : Bytes}
      (h : c.Uses s c') (hcount : err.bytesWritten = delivered.length)
      (hwrite : writeFrameSync a payload = (.error err, delivered)) :
      Attempted c server payload a (.error (.write err),
        ⟨some { s with sent := s.sent ++ delivered }, c'.opened,
          c'.attempts ++ [(s.id, delivered)]⟩)
  /-- The frame was written, and no answer read. -/
  | unanswered {s : Stream} {c' : Client} {err : ReadFault} {consumed : ℕ} (h : c.Uses s c')
      (hle : payload.length ≤ maxFrame)
      (hwrite : writeFrameSync a payload = (.ok (), Frames.frame payload))
      (hread : readFrameSync a ({ s with sent := s.sent ++ Frames.frame payload }.available server)
        = (.error err, consumed)) :
      Attempted c server payload a (.error (.read err),
        ⟨some { s with sent := s.sent ++ Frames.frame payload, taken := s.taken + consumed },
          c'.opened, c'.attempts ++ [(s.id, Frames.frame payload)]⟩)
  | answered {s : Stream} {c' : Client} {bytes : Bytes} {consumed : ℕ} (h : c.Uses s c')
      (hle : payload.length ≤ maxFrame)
      (hwrite : writeFrameSync a payload = (.ok (), Frames.frame payload))
      (hread : readFrameSync a ({ s with sent := s.sent ++ Frames.frame payload }.available server)
        = (.ok bytes, consumed)) :
      Attempted c server payload a (.ok bytes,
        ⟨some { s with sent := s.sent ++ Frames.frame payload, taken := s.taken + consumed },
          c'.opened, c'.attempts ++ [(s.id, Frames.frame payload)]⟩)

/-- **One attempt.** -/
lemma Client.callOnce_cases (c : Client) (server : Server) (payload : Bytes) (commitPath : Bool)
    (a : Attempt) : c.Attempted server payload a (c.callOnce server payload commitPath a) := by
  have huses : (∃ s, (c.connect commitPath a).1 = some s ∧ c.Uses s (c.connect commitPath a).2)
      ∨ ((c.connect commitPath a).1 = none ∧ c.conn = none ∧ (c.connect commitPath a).2.conn = none
        ∧ c.opened ≤ (c.connect commitPath a).2.opened
        ∧ (c.connect commitPath a).2.attempts = c.attempts) := by
    unfold Client.connect
    cases hconn : c.conn with
    | some s => exact .inl ⟨s, rfl, .cached hconn⟩
    | none =>
      dsimp only
      split_ifs
      · exact .inl ⟨_, rfl, .fresh hconn rfl rfl⟩
      · exact .inr ⟨rfl, rfl, rfl, Nat.le_succ _, rfl⟩
      · exact .inr ⟨rfl, rfl, hconn, le_rfl, rfl⟩
  unfold callOnce
  cases hconnect : c.connect commitPath a with
  | mk stream c' =>
  rw [hconnect] at huses
  rcases huses with ⟨s, hs, huses⟩ | ⟨hs, hnone, hnone', hopened, hattempts⟩
  · obtain rfl : stream = some s := hs
    obtain ⟨hok, herr⟩ := writeFrameSync_spec a payload
    cases hwrite : writeFrameSync a payload with
    | mk written delivered =>
    rw [hwrite] at hok herr
    cases written with
    | error err => exact .unwritten huses (herr err rfl) hwrite
    | ok u =>
      obtain ⟨hle, rfl⟩ := hok rfl
      dsimp only
      cases hread : readFrameSync a
          ({ s with sent := s.sent ++ Frames.frame payload }.available server) with
      | mk read consumed =>
      cases read with
      | error err => exact .unanswered huses hle hwrite hread
      | ok bytes => exact .answered huses hle hwrite hread
  · obtain rfl : stream = none := hs
    exact .unconnected hnone hnone' hopened hattempts

/-! ### Requests that may not be retried -/

/-- How often a frame stands in a log of attempts. -/
def timesWritten (frame : Bytes) (log : List (ℕ × Bytes)) : ℕ :=
  log.countP fun attempt => attempt.2 = frame

lemma timesWritten_append (frame : Bytes) (log log' : List (ℕ × Bytes)) :
    timesWritten frame (log ++ log') = timesWritten frame log + timesWritten frame log' :=
  countP_append

lemma Client.Uses.attempts {c c' : Client} {s : Stream} (h : c.Uses s c') :
    c'.attempts = c.attempts := by
  cases h with
  | cached h => rfl
  | fresh h hopened hattempts => exact hattempts

lemma Client.Uses.opened_le {c c' : Client} {s : Stream} (h : c.Uses s c') :
    c.opened ≤ c'.opened := by
  cases h with
  | cached h => exact le_rfl
  | fresh h hopened hattempts => exact hopened ▸ Nat.le_succ _

/-- What an attempt adds to the log: at most one write, of the whole frame when the attempt
succeeds, and of nothing like the frame when no byte was counted. -/
lemma Client.Attempted.log {c c' : Client} {server : Server} {payload : Bytes} {a : Attempt}
    {r : Except CallFailure Bytes} (h : c.Attempted server payload a (r, c')) :
    ∃ log, c'.attempts = c.attempts ++ log ∧ timesWritten (Frames.frame payload) log ≤ 1
      ∧ (∀ bytes, r = .ok bytes → timesWritten (Frames.frame payload) log = 1)
      ∧ ∀ err, r = .error (.write err) → err.bytesWritten = 0 →
        timesWritten (Frames.frame payload) log = 0 := by
  cases h with
  | unconnected h hconn hopened hattempts =>
    exact ⟨[], by rw [hattempts, append_nil], Nat.zero_le _, nofun, nofun⟩
  | @unwritten s c' err delivered huses hcount hwrite =>
    refine ⟨[(s.id, delivered)], by rw [huses.attempts], countP_le_length, nofun, ?_⟩
    intro err' heq hzero
    cases heq
    -- a frame has at least its length bytes
    have hne : delivered ≠ Frames.frame payload := by
      intro heq
      rw [hcount, heq, Frames.length_frame] at hzero
      omega
    simp [timesWritten, hne]
  | @unanswered s c' err consumed huses hle hwrite hread =>
    exact ⟨[(s.id, Frames.frame payload)], by rw [huses.attempts], countP_le_length, nofun, nofun⟩
  | @answered s c' bytes consumed huses hle hwrite hread =>
    refine ⟨[(s.id, Frames.frame payload)], by rw [huses.attempts], countP_le_length,
      fun _ _ => ?_, nofun⟩
    simp [timesWritten]

/-- A second attempt after one that wrote nothing of the frame. -/
lemma Client.retry_log (c : Client) (server : Server) (payload : Bytes) (commitPath : Bool)
    (a : Attempt) (error : CallFailure → CallError) :
    ∃ log, (c.retry server payload commitPath a error).2.attempts = c.attempts ++ log
      ∧ timesWritten (Frames.frame payload) log ≤ 1
      ∧ ∀ bytes, (c.retry server payload commitPath a error).1 = .ok bytes →
        timesWritten (Frames.frame payload) log = 1 := by
  have hcases := callOnce_cases { c with conn := none } server payload commitPath a
  unfold retry
  cases hcall : Client.callOnce { c with conn := none } server payload commitPath a with
  | mk r c' =>
  rw [hcall] at hcases
  obtain ⟨log, hattempts, hle, hok, -⟩ := hcases.log
  cases r with
  | ok bytes => exact ⟨log, hattempts, hle, fun _ _ => hok bytes rfl⟩
  | error failure => exact ⟨log, hattempts, hle, nofun⟩

lemma Client.exchange_log (c : Client) (codec : Codec) (server : Server) {req : Request}
    (h : req.mayRetryAfterWrite = false) (env : CallEnv) :
    ∃ log, (c.exchange codec server req env).2.attempts = c.attempts ++ log
      ∧ timesWritten (Frames.frame (codec.encodeRequest req)) log ≤ 1
      ∧ ∀ bytes, (c.exchange codec server req env).1 = .ok bytes →
        timesWritten (Frames.frame (codec.encodeRequest req)) log = 1 := by
  have hcases := c.callOnce_cases server (codec.encodeRequest req) req.isCommitPath env.first
  unfold exchange
  dsimp only
  cases hcall : c.callOnce server (codec.encodeRequest req) req.isCommitPath env.first with
  | mk r c' =>
  rw [hcall] at hcases
  obtain ⟨log, hattempts, hle, hok, hwrite⟩ := hcases.log
  rcases r with (_ | err | err) | bytes
  · exact ⟨log, hattempts, hle, nofun⟩
  · dsimp only
    split_ifs with hzero
    · -- no byte was counted: the frame was not written, and there is a second attempt
      obtain ⟨log', hattempts', hle', hok'⟩ := c'.retry_log server (codec.encodeRequest req)
        req.isCommitPath env.second .retryWrite
      refine ⟨log ++ log', by rw [hattempts', hattempts, append_assoc], ?_, fun bytes hr => ?_⟩
      · rw [timesWritten_append, hwrite err rfl hzero]
        omega
      · rw [timesWritten_append, hwrite err rfl hzero, hok' bytes hr]
    · exact ⟨log, hattempts, hle, nofun⟩
  · dsimp only
    rw [h, if_neg Bool.false_ne_true]
    exact ⟨log, hattempts, hle, nofun⟩
  · exact ⟨log, hattempts, hle, fun _ _ => hok bytes rfl⟩

/-- **Requests that may not be retried are written once.**  From any state of the client and
with any failures, a call with a request that may not be retried after a write puts its
frame on a connection at most once, and exactly once when it returns a response. -/
theorem written_once (codec : Codec) (server : Server) (c : Client) (req : Request)
    (env : CallEnv) (h : req.mayRetryAfterWrite = false) :
    ∃ log, (c.call codec server req env).2.attempts = c.attempts ++ log
      ∧ timesWritten (Frames.frame (codec.encodeRequest req)) log ≤ 1
      ∧ ∀ resp, (c.call codec server req env).1 = .ok resp →
        timesWritten (Frames.frame (codec.encodeRequest req)) log = 1 := by
  unfold Client.call
  split_ifs
  · exact ⟨[], (append_nil _).symm, Nat.zero_le _, nofun⟩
  · obtain ⟨log, hattempts, hle, hok⟩ := Client.exchange_log
      { c with conn := c.conn.map fun s => s.setTimeouts req.isCommitPath } codec server h env
    dsimp only
    cases hexchange : Client.exchange
        { c with conn := c.conn.map fun s => s.setTimeouts req.isCommitPath } codec server req env
      with
    | mk r c' =>
    rw [hexchange] at hattempts hok
    cases r with
    | error err => exact ⟨log, hattempts, hle, nofun⟩
    | ok bytes =>
      dsimp only
      cases codec.decodeResponse bytes with
      | none => exact ⟨log, hattempts, hle, nofun⟩
      | some resp => exact ⟨log, hattempts, hle, fun _ _ => hok bytes rfl⟩

/-! A codec and a server to run calls with: requests and responses are sent as they are, and
the server echoes. -/

def Codec.plain : Codec := ⟨fun req => req.body, fun bytes => some ⟨.query, bytes⟩⟩

def Server.echo : Server := ⟨fun _ _ frame => some frame⟩

/-- An attempt without failures. -/
def Attempt.smooth : Attempt := ⟨true, true, [], true, .done, .done⟩

/-- A request that is written in the second attempt, after the first could not write. -/
theorem written_once_retried :
    let r := Client.new.call .plain .echo ⟨.executeBlock, [7]⟩
      ⟨true, { Attempt.smooth with writes := [.failed] }, .smooth⟩
    (r.1 = .ok ⟨.query, [7]⟩ ∧ r.2.attempts = [(0, []), (1, Frames.frame [7])])
      ∧ ∃ log, r.2.attempts = Client.new.attempts ++ log ∧ timesWritten (Frames.frame [7]) log ≤ 1
        ∧ ∀ resp, r.1 = .ok resp → timesWritten (Frames.frame [7]) log = 1 :=
  ⟨by decide, written_once .plain .echo .new ⟨.executeBlock, [7]⟩ _ rfl⟩

end Hotmint.Abci
