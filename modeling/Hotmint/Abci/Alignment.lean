/-
Responses and requests stay aligned.

* `Stream.Aligned`: a connection on which whole frames were written, and everything the
  server answered was read;
* `OwnAnswer`: a response that is the server's answer to the frame the call itself wrote;
* `Attempt.Intact`: a second attempt that fails before it writes, or does not fail;
* `responses_match`: **as long as every second attempt is intact, every response answers
  its own request**;
* `response_of_earlier_request`: a second attempt that fails after it wrote leaves the
  connection with an answer outstanding, which the next call takes for its own.
-/
import Hotmint.Abci.Attempts

namespace Hotmint.Abci

open Frames List Option
variable {c c' : Client} {server : Server}

/-! ### The answers to a connection -/

/-- A frame is answered and the server goes on, or the connection ends there. -/
lemma Server.handleConnection_cons (server : Server) (conn index : ℕ) (frame : Bytes) :
    (∀ frames, server.handleConnection conn index (frame :: frames) = [])
      ∧ (∀ resp, server.answer conn index frame = some resp → maxFrame < resp.length)
    ∨ ∃ resp, server.answer conn index frame = some resp ∧ resp.length ≤ maxFrame
      ∧ ∀ frames, server.handleConnection conn index (frame :: frames)
        = resp :: server.handleConnection conn (index + 1) frames := by
  cases hanswer : server.answer conn index frame with
  | none => exact .inl ⟨fun frames => by rw [handleConnection, hanswer], nofun⟩
  | some resp =>
    by_cases hlong : maxFrame < resp.length
    · refine .inl ⟨fun frames => ?_, fun resp' h => some.inj h ▸ hlong⟩
      rw [handleConnection, hanswer]
      exact if_pos hlong
    · refine .inr ⟨resp, rfl, Nat.le_of_not_lt hlong, fun frames => ?_⟩
      rw [handleConnection, hanswer]
      exact if_neg hlong

/-- One more frame is answered if all frames before it were. -/
lemma Server.handleConnection_concat (server : Server) (conn index : ℕ) (frames : List Bytes)
    (frame : Bytes) : server.handleConnection conn index (frames ++ [frame])
        = server.handleConnection conn index frames
      ∨ (server.handleConnection conn index frames).length = frames.length
        ∧ server.handleConnection conn index (frames ++ [frame])
          = server.handleConnection conn index frames
            ++ server.handleConnection conn (index + frames.length) [frame] := by
  induction frames generalizing index with
  | nil => exact .inr ⟨rfl, rfl⟩
  | cons f frames ih =>
    rcases server.handleConnection_cons conn index f with ⟨hnone, -⟩ | ⟨resp, -, -, hsome⟩
    · exact .inl (by rw [cons_append, hnone, hnone])
    · rw [cons_append, hsome, hsome, length_cons, length_cons, cons_append,
        ← Nat.add_assoc, Nat.add_right_comm]
      refine (ih (index + 1)).imp (fun heq => by rw [heq]) fun ⟨hlen, heq⟩ => ?_
      exact ⟨by rw [hlen], by rw [heq]⟩

/-! ### Aligned connections -/

/-- A connection on which only whole frames were written, and on which all that the server
answered to them was read. -/
def Stream.Aligned (s : Stream) (server : Server) : Prop :=
  ∃ payloads : List Bytes, s.sent = (payloads.map frame).flatten
    ∧ (∀ p ∈ payloads, p.length ≤ maxFrame)
    ∧ s.taken = (server.replies s.id s.sent).length

/-- A client whose cached connection is aligned. -/
def Client.Aligned (c : Client) (server : Server) : Prop :=
  ∀ s, c.conn = some s → s.Aligned server

lemma Stream.aligned_fresh (server : Server) (id : ℕ) (timeout : Option ℕ) :
    Stream.Aligned ⟨id, timeout, [], 0⟩ server :=
  ⟨[], rfl, nofun, rfl⟩

lemma Client.Uses.aligned {s : Stream} (h : c.Uses s c')
    (haligned : c.Aligned server) : s.Aligned server := by
  cases h with
  | cached h => exact haligned s h
  | fresh h hopened hattempts => exact Stream.aligned_fresh server _ _

lemma maxFrame_lt : maxFrame < 2 ^ 32 := by decide

/-- **A frame written on an aligned connection**: nothing comes to be read, or just the
answer to that frame. -/
lemma Stream.Aligned.write {s : Stream} (h : s.Aligned server) {payload : Bytes}
    (hle : payload.length ≤ maxFrame) :
    frames maxFrame (s.sent ++ frame payload) = frames maxFrame s.sent ++ [payload]
      ∧ (({ s with sent := s.sent ++ frame payload }.available server = []
          ∧ Stream.Aligned { s with sent := s.sent ++ frame payload } server)
        ∨ ∃ resp, server.answer s.id (frames maxFrame s.sent).length payload = some resp
          ∧ resp.length ≤ maxFrame
          ∧ { s with sent := s.sent ++ frame payload }.available server = frame resp
          ∧ Stream.Aligned ⟨s.id, s.timeout, s.sent ++ frame payload,
              s.taken + (frame resp).length⟩ server) := by
  obtain ⟨payloads, hsent, hall, htaken⟩ := h
  have hsent' : s.sent ++ frame payload = ((payloads ++ [payload]).map frame).flatten := by
    rw [hsent, map_append, flatten_append, map_singleton, flatten_singleton]
  have hall' : ∀ p ∈ payloads ++ [payload], p.length ≤ maxFrame := by
    intro p hp
    rcases mem_append.mp hp with hp | hp
    · exact hall p hp
    · rwa [mem_singleton.mp hp]
  have hframes : frames maxFrame s.sent = payloads := by
    rw [hsent, frames_flatten hall maxFrame_lt]
  have hframes' : frames maxFrame (s.sent ++ frame payload) = payloads ++ [payload] := by
    rw [hsent', frames_flatten hall' maxFrame_lt]
  refine ⟨by rw [hframes, hframes'], ?_⟩
  rw [hframes]
  have hreplies : server.replies s.id s.sent
      = ((server.handleConnection s.id 0 payloads).map frame).flatten := by
    rw [Server.replies, hframes]
  have hreplies' : server.replies s.id (s.sent ++ frame payload)
      = ((server.handleConnection s.id 0 (payloads ++ [payload])).map frame).flatten := by
    rw [Server.replies, hframes']
  -- nothing more to read when the server has stopped answering
  have hsilent : server.handleConnection s.id 0 (payloads ++ [payload])
        = server.handleConnection s.id 0 payloads →
      { s with sent := s.sent ++ frame payload }.available server = []
        ∧ Stream.Aligned { s with sent := s.sent ++ frame payload } server := by
    intro heq
    have hsame : server.replies s.id (s.sent ++ frame payload) = server.replies s.id s.sent := by
      rw [hreplies', hreplies, heq]
    refine ⟨?_, payloads ++ [payload], hsent', hall', by rw [hsame, htaken]⟩
    rw [Stream.available, hsame, htaken]
    exact drop_length
  rcases server.handleConnection_concat s.id 0 payloads payload with heq | ⟨hlen, heq⟩
  · exact .inl (hsilent heq)
  · rw [Nat.zero_add] at heq
    rcases server.handleConnection_cons s.id payloads.length payload with
      ⟨hnone, -⟩ | ⟨resp, hanswer, hresp, hsome⟩
    · exact .inl (hsilent (by rw [heq, hnone, append_nil]))
    · have hmore : server.replies s.id (s.sent ++ frame payload)
          = server.replies s.id s.sent ++ frame resp := by
        rw [hreplies', hreplies, heq, hsome, Server.handleConnection, map_append,
          flatten_append, map_singleton, flatten_singleton]
      refine .inr ⟨resp, hanswer, hresp, ?_, payloads ++ [payload], hsent', hall', ?_⟩
      · rw [Stream.available, hmore, htaken]
        exact drop_left
      · rw [hmore, length_append, htaken]

/-! ### Reading one answer -/

lemma readFrameSync_nil (a : Attempt) : readFrameSync a [] = (.error .io, 0) := by
  unfold readFrameSync readExact
  cases a.header <;> simp

lemma readExact_done {n : ℕ} {available : Bytes} (h : n ≤ available.length) :
    readExact n .done available = (some (available.take n), n) := by
  unfold readExact
  by_cases hzero : n = 0
  · rw [if_pos hzero, hzero, take_zero]
  · rw [if_neg hzero]
    exact if_pos h

/-- A read that succeeds takes what it was asked for. -/
lemma readExact_some {n consumed : ℕ} {result : ReadResult} {available buf : Bytes}
    (h : readExact n result available = (some buf, consumed)) :
    buf = available.take n ∧ consumed = n := by
  unfold readExact at h
  by_cases hzero : n = 0
  · rw [if_pos hzero] at h
    obtain ⟨hbuf, rfl⟩ := Prod.mk.inj h
    rw [hzero, take_zero]
    exact ⟨(some.inj hbuf).symm, rfl⟩
  · rw [if_neg hzero] at h
    cases result with
    | failed k => cases h
    | done =>
      split_ifs at h
      · obtain ⟨hbuf, rfl⟩ := Prod.mk.inj h
        exact ⟨(some.inj hbuf).symm, rfl⟩
      · cases h

section OneFrame

variable {a : Attempt} {resp : Bytes} (hle : resp.length ≤ maxFrame)

include hle

lemma ofLenBytes_take_frame : ofLenBytes ((frame resp).take 4) = resp.length := by
  have htake := take_frame_append resp []
  rw [append_nil] at htake
  rw [htake, ofLenBytes_lenBytes (Nat.lt_of_le_of_lt hle maxFrame_lt)]

/-- **A read of a frame** that succeeds reads the frame. -/
lemma readFrameSync_frame {bytes : Bytes} {consumed : ℕ}
    (h : readFrameSync a (frame resp) = (.ok bytes, consumed)) :
    bytes = resp ∧ consumed = (frame resp).length := by
  have hdrop := drop_frame_append resp []
  rw [append_nil, append_nil] at hdrop
  unfold readFrameSync at h
  cases hheader : readExact 4 a.header (frame resp) with
  | mk lenBuf k =>
  rw [hheader] at h
  cases lenBuf with
  | none => cases h
  | some lenBuf =>
    obtain ⟨rfl, rfl⟩ := readExact_some hheader
    dsimp only at h
    rw [ofLenBytes_take_frame hle, if_neg (Nat.not_lt.mpr hle), hdrop] at h
    cases hbody : readExact resp.length a.body resp with
    | mk buf k =>
    rw [hbody] at h
    cases buf with
    | none => cases h
    | some buf =>
      obtain ⟨rfl, rfl⟩ := readExact_some hbody
      obtain ⟨hbytes, hconsumed⟩ := Prod.mk.inj h
      rw [take_length] at hbytes
      exact ⟨(Except.ok.inj hbytes).symm, by rw [← hconsumed, length_frame]⟩

/-- Reads that do not fail read the frame. -/
lemma readFrameSync_done (hheader : a.header = .done) (hbody : a.body = .done) :
    readFrameSync a (frame resp) = (.ok resp, (frame resp).length) := by
  have hdrop := drop_frame_append resp []
  rw [append_nil, append_nil] at hdrop
  have hlen := length_frame resp
  unfold readFrameSync
  rw [hheader, readExact_done (by omega)]
  dsimp only
  rw [ofLenBytes_take_frame hle, if_neg (Nat.not_lt.mpr hle), hdrop, hbody,
    readExact_done (le_rfl), take_length, hlen]

end OneFrame

/-! ### The answer to one's own request -/

/-- The response bytes of a call that was made on client `c`: the server's answer to the
frame with this payload, which was written after all frames that the connection carried
before, or as the first on a connection that was opened for the call. -/
def OwnAnswer (c : Client) (server : Server) (payload bytes : Bytes) : Prop :=
  ∃ conn sent, ((∃ s, c.conn = some s ∧ s.id = conn ∧ s.sent = sent)
      ∨ (c.opened ≤ conn ∧ sent = []))
    ∧ frames maxFrame (sent ++ frame payload) = frames maxFrame sent ++ [payload]
    ∧ server.answer conn (frames maxFrame sent).length payload = some bytes

/-- An attempt that succeeds on an aligned client returns the answer to its own frame, and
leaves the client aligned. -/
lemma Client.Attempted.own {payload : Bytes} {a : Attempt}
    {bytes : Bytes} (h : c.Attempted server payload a (.ok bytes, c'))
    (haligned : c.Aligned server) : c'.Aligned server ∧ OwnAnswer c server payload bytes := by
  cases h with
  | @answered s c₁ bytes consumed huses hle hwrite hread =>
    have hsource : (∃ s', c.conn = some s' ∧ s'.id = s.id ∧ s'.sent = s.sent)
        ∨ (c.opened ≤ s.id ∧ s.sent = []) := by
      cases huses with
      | cached h => exact .inl ⟨s, h, rfl, rfl⟩
      | fresh h hopened hattempts => exact .inr ⟨le_rfl, rfl⟩
    obtain ⟨hframes, ⟨hsilent, -⟩ | ⟨resp, hanswer, hresp, havailable, hnext⟩⟩ :=
      (huses.aligned haligned).write hle
    · rw [hsilent, readFrameSync_nil] at hread
      cases hread
    · rw [havailable] at hread
      obtain ⟨rfl, rfl⟩ := readFrameSync_frame hresp hread
      refine ⟨fun s' hs' => ?_, s.id, s.sent, hsource, hframes, hanswer⟩
      obtain rfl := some.inj hs'
      exact hnext

lemma Client.Attempted.opened_le {payload : Bytes} {a : Attempt}
    {r : Except CallFailure Bytes} (h : c.Attempted server payload a (r, c')) :
    c.opened ≤ c'.opened := by
  cases h with
  | unconnected h hconn hopened hattempts => exact hopened
  | unwritten h hcount hwrite | unanswered h hle hwrite hread
  | answered h hle hwrite hread => exact (h.opened_le :)

/-! ### Second attempts -/

/-- The first write of an attempt takes nothing. -/
def Attempt.StuckAtStart (a : Attempt) : Prop :=
  a.writes.head? = some .failed ∨ a.writes.head? = some (.wrote 0)

/-- No write of an attempt fails. -/
def Attempt.WritesAll (a : Attempt) : Prop := ∀ w ∈ a.writes, ∃ n, 0 < n ∧ w = .wrote n

/-- **An attempt on a new connection that leaves nothing behind**: no connection is made, or
no byte of the frame is written; or all of it is, and the answer is read to its end unless
the server gives none. -/
def Attempt.Intact (a : Attempt) (server : Server) (conn : ℕ) (payload : Bytes) : Prop :=
  a.connect = false ∨ a.timeouts = false ∨ maxFrame < payload.length ∨ a.StuckAtStart
    ∨ a.WritesAll ∧ (a.flush = true ∧ a.header = .done ∧ a.body = .done
      ∨ ∀ resp, server.answer conn 0 payload = some resp → maxFrame < resp.length)

/-- Writes that do not fail take the whole buffer. -/
lemma writeAllTracked_all {writes : List WriteResult} (h : ∀ w ∈ writes, ∃ n, 0 < n ∧ w = .wrote n)
    (buf : Bytes) (count : ℕ) (delivered : Bytes) :
    (writeAllTracked writes buf count delivered).1 = .ok ()
      ∧ (writeAllTracked writes buf count delivered).2.delivered = delivered ++ buf
      ∧ ∀ w ∈ (writeAllTracked writes buf count delivered).2.writes, w ∈ writes := by
  suffices hok : (writeAllTracked writes buf count delivered).1 = .ok ()
      ∧ ∀ w ∈ (writeAllTracked writes buf count delivered).2.writes, w ∈ writes by
    obtain ⟨done, rest, hbuf, hdelivered, -, hrest, -⟩ :=
      writeAllTracked_spec writes buf count delivered
    obtain rfl := hrest hok.1
    rw [append_nil] at hbuf
    exact ⟨hok.1, hbuf ▸ hdelivered, hok.2⟩
  fun_induction writeAllTracked writes buf count delivered with
  | case1 writes count delivered | case2 b buf count delivered => exact ⟨rfl, fun _ hw => hw⟩
  | case3 writes b buf count delivered =>
    obtain ⟨n, -, hn⟩ := h _ mem_cons_self
    cases hn
  | case4 n writes b buf count delivered n' hzero =>
    obtain ⟨k, hpos, hk⟩ := h _ mem_cons_self
    obtain rfl := WriteResult.wrote.inj hk
    have hmin : min n (b :: buf).length = 0 := hzero
    rw [length_cons] at hmin
    omega
  | case5 n writes b buf count delivered n' hpos ih =>
    obtain ⟨hok, hrest⟩ := ih fun w hw => h w (.tail _ hw)
    exact ⟨hok, fun w hw => .tail _ (hrest w hw)⟩

/-- A frame whose writes do not fail is delivered, whatever the flush returns. -/
lemma Attempt.WritesAll.delivered {a : Attempt} (h : a.WritesAll) {payload : Bytes}
    (hle : payload.length ≤ maxFrame) : (writeFrameSync a payload).2 = frame payload
      ∧ (a.flush = true → (writeFrameSync a payload).1 = .ok ()) := by
  unfold writeFrameSync
  rw [if_neg (Nat.not_lt.mpr hle)]
  obtain ⟨hok, hdelivered, hwrites⟩ := writeAllTracked_all h (lenBytes payload.length) 0 []
  cases hheader : writeAllTracked a.writes (lenBytes payload.length) 0 [] with
  | mk r p =>
  rw [hheader] at hok hdelivered hwrites
  obtain rfl : r = .ok () := hok
  obtain ⟨hok', hdelivered', -⟩ := writeAllTracked_all (fun w hw => h w (hwrites w hw)) payload
    p.bytesWritten p.delivered
  dsimp only at hdelivered ⊢
  cases hbody : writeAllTracked p.writes payload p.bytesWritten p.delivered with
  | mk r q =>
  rw [hbody] at hok' hdelivered'
  obtain rfl : r = .ok () := hok'
  have hframe : q.delivered = frame payload := by
    rw [show q.delivered = p.delivered ++ payload from hdelivered', hdelivered, nil_append, frame]
  split_ifs with hflush
  · exact ⟨hframe, fun _ => rfl⟩
  · exact ⟨hframe, fun h => absurd h hflush⟩

/-- Where the first write takes nothing, nothing is delivered. -/
lemma Attempt.StuckAtStart.delivered {a : Attempt} (h : a.StuckAtStart) (payload : Bytes) :
    ∃ err, writeFrameSync a payload = (.error err, []) := by
  unfold writeFrameSync
  split_ifs
  · exact ⟨_, rfl⟩
  all_goals cases hwrites : a.writes with
    | nil =>
      rw [Attempt.StuckAtStart, hwrites] at h
      rcases h with h | h <;> cases h
    | cons w writes =>
      rw [Attempt.StuckAtStart, hwrites] at h
      rcases h with h | h <;> · cases h; exact ⟨_, rfl⟩

/-- **An intact second attempt** leaves the client aligned. -/
lemma Client.callOnce_intact {payload : Bytes} {a : Attempt}
    (hnone : c.conn = none) (h : a.Intact server c.opened payload) (commitPath : Bool) :
    (c.callOnce server payload commitPath a).2.Aligned server := by
  -- without a connection there is nothing to be aligned
  by_cases hconnect : a.connect = false ∨ a.timeouts = false
  · have hmade : (c.connect commitPath a).1 = none ∧ (c.connect commitPath a).2.conn = none := by
      unfold Client.connect
      rcases hconnect with hconnect | htimeouts
      · simp [hconnect, hnone]
      · by_cases hmade : a.connect = true <;> simp [hmade, htimeouts, hnone]
    unfold callOnce
    cases hmk : c.connect commitPath a with
    | mk s c' =>
    rw [hmk] at hmade
    obtain ⟨rfl, hconn⟩ := hmade
    intro s hs
    rw [show c'.conn = some s from hs] at hconn
    cases hconn
  rw [not_or] at hconnect
  have hcases := c.callOnce_cases server payload commitPath a
  have haligned : c.Aligned server := fun s hs => by rw [hnone] at hs; cases hs
  generalize c.callOnce server payload commitPath a = r at hcases
  have hend := (h.resolve_left hconnect.1).resolve_left hconnect.2
  -- the connection is new, and its first frame is this one
  have hfresh : ∀ {s c'}, c.Uses s c' → ∃ timeout, s = ⟨c.opened, timeout, [], 0⟩ := by
    rintro s c' (hcached | ⟨-, -, -⟩)
    · rw [hnone] at hcached
      cases hcached
    · exact ⟨_, rfl⟩
  have hsole : ∀ {s c'}, c.Uses s c' → payload.length ≤ maxFrame →
      ({ s with sent := s.sent ++ frame payload }.available server = []
          ∧ Stream.Aligned { s with sent := s.sent ++ frame payload } server)
        ∨ ∃ resp, server.answer c.opened 0 payload = some resp ∧ resp.length ≤ maxFrame
          ∧ { s with sent := s.sent ++ frame payload }.available server = frame resp := by
    intro s c' huses hle
    obtain ⟨timeout, rfl⟩ := hfresh huses
    refine ((huses.aligned haligned).write hle).2.imp_right ?_
    rintro ⟨resp, hanswer, hresp, havailable, -⟩
    exact ⟨resp, hanswer, hresp, havailable⟩
  cases hcases with
  | unconnected h hconn hopened hattempts =>
    intro s hs
    rw [hconn] at hs
    cases hs
  | @unwritten s c' err delivered huses hcount hwrite =>
    intro s' hs'
    obtain rfl := some.inj hs'
    have hnothing : delivered = [] →
        Stream.Aligned { s with sent := s.sent ++ delivered } server := by
      rintro rfl
      rw [append_nil]
      exact huses.aligned haligned
    by_cases hlong : maxFrame < payload.length
    · rw [writeFrameSync, if_pos hlong] at hwrite
      exact hnothing (Prod.mk.inj hwrite).2.symm
    rcases hend.resolve_left hlong with hstuck | ⟨hall, hend⟩
    · obtain ⟨err', hwrite'⟩ := hstuck.delivered payload
      rw [hwrite'] at hwrite
      exact hnothing (Prod.mk.inj hwrite).2.symm
    · obtain ⟨hdelivered, hflush⟩ := hall.delivered (Nat.le_of_not_lt hlong)
      rw [hwrite] at hdelivered hflush
      obtain rfl : delivered = frame payload := hdelivered
      rcases hend with ⟨hflushed, -⟩ | hsilent
      · cases hflush hflushed
      · rcases hsole huses (Nat.le_of_not_lt hlong) with ⟨-, hnext⟩ | ⟨resp, hanswer, hresp, -⟩
        · exact hnext
        · exact absurd (hsilent resp hanswer) (Nat.not_lt.mpr hresp)
  | @unanswered s c' err consumed huses hle hwrite hread =>
    intro s' hs'
    obtain rfl := some.inj hs'
    rcases hsole huses hle with ⟨hnil, hnext⟩ | ⟨resp, hanswer, hresp, havailable⟩
    · rw [hnil, readFrameSync_nil] at hread
      cases hread
      exact hnext
    · rcases hend.resolve_left (Nat.not_lt.mpr hle) with hstuck |
        ⟨hall, ⟨-, hheader, hbody⟩ | hsilent⟩
      · obtain ⟨err', hwrite'⟩ := hstuck.delivered payload
        rw [hwrite'] at hwrite
        cases hwrite
      · rw [havailable, readFrameSync_done hresp hheader hbody] at hread
        cases hread
      · exact absurd (hsilent resp hanswer) (Nat.not_lt.mpr hresp)
  | answered huses hle hwrite hread =>
    exact (Attempted.own (.answered huses hle hwrite hread) haligned).1

/-! ### Calls -/

/-- The connection that the second attempt of a call would open: the first attempt used the
cached connection, or opened one. -/
def Client.retryConn (c : Client) : ℕ := c.opened + if c.conn.isNone then 1 else 0

lemma Client.Uses.opened_eq {s : Stream} (h : c.Uses s c') : c'.opened = c.retryConn := by
  unfold retryConn
  cases h with
  | cached h => rw [h]; rfl
  | fresh h hopened hattempts => rw [h, hopened]; rfl

/-- The second attempt of a call. -/
lemma Client.retry_own (c : Client) (server : Server) (payload : Bytes) (commitPath : Bool)
    (a : Attempt) (error : CallFailure → CallError) :
    (∀ bytes, (c.retry server payload commitPath a error).1 = .ok bytes →
        (c.retry server payload commitPath a error).2.Aligned server
          ∧ OwnAnswer { c with conn := none } server payload bytes)
      ∧ (a.Intact server c.opened payload →
        (c.retry server payload commitPath a error).2.Aligned server) := by
  have hcases := callOnce_cases { c with conn := none } server payload commitPath a
  have hintact := @callOnce_intact { c with conn := none } server payload a rfl
  have haligned : Client.Aligned { c with conn := none } server := fun s hs => by cases hs
  unfold retry
  cases hcall : Client.callOnce { c with conn := none } server payload commitPath a with
  | mk r c' =>
  rw [hcall] at hcases
  have hintact' : a.Intact server c.opened payload → c'.Aligned server := fun h => by
    have h' := hintact h commitPath
    rwa [hcall] at h'
  cases r with
  | error failure => exact ⟨nofun, hintact'⟩
  | ok bytes =>
    refine ⟨fun bytes' h => ?_, hintact'⟩
    obtain rfl := Except.ok.inj h
    exact hcases.own haligned

/-- A new connection of a later moment is new. -/
lemma OwnAnswer.of_later {payload bytes : Bytes}
    (h : OwnAnswer { c' with conn := none } server payload bytes) (hle : c.opened ≤ c'.opened) :
    OwnAnswer c server payload bytes := by
  obtain ⟨conn, sent, hsource, hframes, hanswer⟩ := h
  rcases hsource with ⟨s, hs, -⟩ | ⟨hopened, hsent⟩
  · cases hs
  · exact ⟨conn, sent, .inr ⟨Nat.le_trans hle hopened, hsent⟩, hframes, hanswer⟩

/-- **The response bytes of a call** on an aligned client answer its own request; and the
client stays aligned when the second attempt is intact. -/
lemma Client.Aligned.exchange (h : c.Aligned server) (codec : Codec)
    (req : Request) (env : CallEnv) : (∀ bytes, (c.exchange codec server req env).1 = .ok bytes →
        (c.exchange codec server req env).2.Aligned server
          ∧ OwnAnswer c server (codec.encodeRequest req) bytes)
      ∧ (env.second.Intact server c.retryConn (codec.encodeRequest req) →
        (c.exchange codec server req env).2.Aligned server) := by
  have hcases := c.callOnce_cases server (codec.encodeRequest req) req.isCommitPath env.first
  unfold Client.exchange
  dsimp only
  cases hcall : c.callOnce server (codec.encodeRequest req) req.isCommitPath env.first with
  | mk r c' =>
  rw [hcall] at hcases
  have hle := hcases.opened_le
  -- a call that gives up drops the connection
  have hdropped : Client.Aligned { c' with conn := none } server := fun s hs => by cases hs
  have hretry : c'.opened = c.retryConn → ∀ error,
      (∀ bytes, (c'.retry server (codec.encodeRequest req) req.isCommitPath env.second error).1
          = .ok bytes →
        (c'.retry server (codec.encodeRequest req) req.isCommitPath env.second error).2.Aligned
            server
          ∧ OwnAnswer c server (codec.encodeRequest req) bytes)
        ∧ (env.second.Intact server c.retryConn (codec.encodeRequest req) →
          (c'.retry server (codec.encodeRequest req) req.isCommitPath env.second error).2.Aligned
            server) := by
    intro hopened error
    obtain ⟨hown, hintact⟩ := c'.retry_own server (codec.encodeRequest req) req.isCommitPath
      env.second error
    exact ⟨fun bytes hr => (hown bytes hr).imp_right fun h => h.of_later hle, hopened ▸ hintact⟩
  rcases r with (_ | err | err) | bytes
  · exact ⟨nofun, fun _ => hdropped⟩
  · dsimp only
    split_ifs
    · cases hcases with
      | unwritten huses hcount hwrite => exact hretry huses.opened_eq _
    · exact ⟨nofun, fun _ => hdropped⟩
  · split_ifs
    · cases hcases with
      | unanswered huses hle hwrite hread => exact hretry huses.opened_eq _
    · exact ⟨nofun, fun _ => hdropped⟩
  · obtain ⟨hnext, hown⟩ := hcases.own h
    refine ⟨fun bytes' hr => ?_, fun _ => hnext⟩
    obtain rfl := Except.ok.inj hr
    exact ⟨hnext, hown⟩

/-- **One call** on an aligned client. -/
lemma Client.Aligned.call (h : c.Aligned server) (codec : Codec) (req : Request) (env : CallEnv) :
    (∀ resp, (c.call codec server req env).1 = .ok resp →
        (c.call codec server req env).2.Aligned server
          ∧ ∃ bytes, OwnAnswer c server (codec.encodeRequest req) bytes
            ∧ codec.decodeResponse bytes = some resp)
      ∧ (env.second.Intact server c.retryConn (codec.encodeRequest req) →
        (c.call codec server req env).2.Aligned server) := by
  unfold Client.call
  split_ifs
  · exact ⟨nofun, fun _ => h⟩
  dsimp only
  set c₁ : Client := { c with conn := c.conn.map fun s => s.setTimeouts req.isCommitPath }
  -- the timeouts do not touch what was written and read
  have haligned : c₁.Aligned server := by
    intro s hs
    obtain ⟨s₀, hs₀, rfl⟩ := map_eq_some_iff.mp hs
    exact h s₀ hs₀
  have hconn : c₁.retryConn = c.retryConn := by
    unfold retryConn
    rw [show c₁.conn.isNone = c.conn.isNone from isNone_map]
  have hown : ∀ {bytes}, OwnAnswer c₁ server (codec.encodeRequest req) bytes →
      OwnAnswer c server (codec.encodeRequest req) bytes := by
    rintro bytes ⟨conn, sent, hsource, hrest⟩
    refine ⟨conn, sent, hsource.imp_left ?_, hrest⟩
    rintro ⟨s, hs, hid, hsent⟩
    obtain ⟨s₀, hs₀, rfl⟩ := map_eq_some_iff.mp hs
    exact ⟨s₀, hs₀, hid, hsent⟩
  obtain ⟨hbytes, hnext⟩ := haligned.exchange codec req env
  rw [hconn] at hnext
  cases hexchange : c₁.exchange codec server req env with
  | mk r c' =>
  rw [hexchange] at hbytes hnext
  cases r with
  | error err => exact ⟨nofun, hnext⟩
  | ok bytes =>
    dsimp only
    cases hdecode : codec.decodeResponse bytes with
    | none => exact ⟨nofun, hnext⟩
    | some resp =>
      refine ⟨fun resp' hr => ?_, hnext⟩
      obtain rfl := Except.ok.inj hr
      obtain ⟨hnext', hbytes'⟩ := hbytes bytes rfl
      exact ⟨hnext', bytes, hown hbytes', hdecode⟩

/-- A call that leaves nothing behind: its second attempt is intact, or it is
`validate_block`, which drops the connection of a call that failed. -/
def CallEnv.Intact (env : CallEnv) (codec : Codec) (server : Server) (c : Client) (req : Request) :
    Prop :=
  req.kind = .validateBlock ∨ env.second.Intact server c.retryConn (codec.encodeRequest req)

/-- One call of a method. -/
lemma Client.Aligned.invoke (h : c.Aligned server) {codec : Codec}
    {req : Request} {env : CallEnv} (hintact : env.Intact codec server c req) :
    (c.invoke codec server req env).2.Aligned server := by
  obtain ⟨hown, hnext⟩ := h.call codec req env
  unfold Client.invoke
  cases hcall : c.call codec server req env with
  | mk r c' =>
  rw [hcall] at hown hnext
  have hdropped : Client.Aligned { c' with conn := none } server := fun s hs => by cases hs
  cases r with
  | ok resp =>
    dsimp only
    split_ifs
    · exact hdropped
    · exact (hown resp rfl).1
  | error err =>
    split_ifs with hvalidate
    · exact hdropped
    · exact hnext (hintact.resolve_left hvalidate)

/-- Sequences of calls that leave nothing behind. -/
def Client.IntactRun (codec : Codec) (server : Server) :
    Client → List (Request × CallEnv) → Prop
  | _, [] => True
  | c, (req, env) :: calls =>
    env.Intact codec server c req ∧ IntactRun codec server (c.invoke codec server req env).2 calls

/-- **A sequence of calls** that leave nothing behind keeps the client aligned. -/
lemma Client.Aligned.run (h : c.Aligned server) {codec : Codec}
    {calls : List (Request × CallEnv)} (hintact : c.IntactRun codec server calls) :
    (c.run codec server calls).Aligned server := by
  induction calls generalizing c with
  | nil => exact h
  | cons call calls ih =>
    exact ih (h.invoke hintact.1) hintact.2

/-- **Responses match their requests.**  After every sequence of calls on a new client in
which no second attempt fails after it wrote a byte, whatever a next call returns is the
server's answer to the frame that this call wrote. -/
theorem responses_match (codec : Codec) (server : Server) (calls : List (Request × CallEnv))
    (hintact : Client.new.IntactRun codec server calls) (req : Request) (env : CallEnv)
    (resp : Response)
    (h : ((Client.new.run codec server calls).call codec server req env).1 = .ok resp) :
    ∃ bytes, OwnAnswer (Client.new.run codec server calls) server (codec.encodeRequest req) bytes
      ∧ codec.decodeResponse bytes = some resp := by
  have hnew : Client.new.Aligned server := fun s hs => by cases hs
  exact (((hnew.run hintact).call codec req env).1 resp h).2

/-- Two calls: the first fails in both attempts, in the second one before it could write;
the next call gets its own answer. -/
theorem responses_match_two :
    let calls : List (Request × CallEnv) := [(⟨.query, [1]⟩,
      ⟨true, { Attempt.smooth with header := .failed 0 },
        { Attempt.smooth with writes := [.failed] }⟩)]
    let c := Client.new.run .plain .echo calls
    (c.call .plain .echo ⟨.query, [2]⟩ ⟨true, .smooth, .smooth⟩).1 = .ok ⟨.query, [2]⟩
      ∧ ∃ bytes, OwnAnswer c .echo [2] bytes
        ∧ Codec.plain.decodeResponse bytes = some ⟨.query, [2]⟩ := by
  intro calls c
  have hresp : (c.call .plain .echo ⟨.query, [2]⟩ ⟨true, .smooth, .smooth⟩).1
      = .ok ⟨.query, [2]⟩ := by decide
  have hintact : Client.new.IntactRun .plain .echo calls :=
    ⟨.inr (.inr (.inr (.inr (.inl (.inl rfl))))), trivial⟩
  exact ⟨hresp, responses_match .plain .echo calls hintact ⟨.query, [2]⟩ _ _ hresp⟩

/-- **An answer to an earlier request.**  Both attempts of a first call write the request
and time out; the second leaves its connection behind, and the next call returns the answer
to the first one. -/
theorem response_of_earlier_request :
    let calls : List (Request × CallEnv) := [(⟨.query, [1]⟩,
      ⟨true, { Attempt.smooth with header := .failed 0 },
        { Attempt.smooth with header := .failed 0 }⟩)]
    let c := Client.new.run .plain .echo calls
    (c.call .plain .echo ⟨.query, [2]⟩ ⟨true, .smooth, .smooth⟩).1 = .ok ⟨.query, [1]⟩
      ∧ ¬ ∃ bytes, OwnAnswer c .echo [2] bytes
        ∧ Codec.plain.decodeResponse bytes = some ⟨.query, [1]⟩ := by
  refine ⟨by decide, ?_⟩
  rintro ⟨bytes, ⟨conn, sent, -, -, hanswer⟩, hdecode⟩
  -- the server echoes
  obtain rfl : [2] = bytes := some.inj hanswer
  exact absurd hdecode (by decide)

end Hotmint.Abci
