/-
Peer exchange (`hotmint-network`, `peer.rs`, `pex.rs` and `handle_pex_event` of
`service.rs`).

* `PeerInfo`, `PeerBook`: the address book.  A peer is named by the text of its id;
* `Service.handlePexEvent`: what a request or a response does, and what it is answered;
* `Service.performAll`: a run of the service, the other writers of the book included;
* `handlePexRequest_cases`, `handlePexPeers_added`, `handlePexPeers_bans`: **what an event
  does to the book**;
* `pex_guarded_iff`: **roles are genuine and bans stay exactly when no event of the run
  carries an entry that is forged or that overwrites a banned one**;
* `pex_forges_and_unbans`: a list with such an entry is taken as it is, and a banned peer
  lifts its own ban.
-/
import Hotmint.Library.Retain
import Hotmint.Types.Basic

namespace Hotmint.Network

open List

/-- `PeerId`, as the text that the book has it under. -/
abbrev PeerId := String

/-- `PeerRole`. -/
inductive PeerRole
  | validator
  | fullnode
deriving DecidableEq, Repr

/-- `PeerInfo`. -/
structure PeerInfo where
  peerId : PeerId
  role : PeerRole
  validatorId : Option ℕ
  addresses : List String
  lastSeen : ℕ
  score : ℤ
deriving DecidableEq, Repr

/-- `BAN_THRESHOLD`. -/
def banThreshold : ℤ := -100

namespace PeerInfo

/-- `PeerInfo::new`, at the time `nowSecs`. -/
def new (nowSecs : ℕ) (peerId : PeerId) (role : PeerRole) (addresses : List String) : PeerInfo :=
  ⟨peerId, role, none, addresses, nowSecs, 0⟩

/-- `with_validator`. -/
def withValidator (info : PeerInfo) (vid : ℕ) : PeerInfo := { info with validatorId := some vid }

/-- `is_banned`. -/
def isBanned (info : PeerInfo) : Bool := decide (info.score ≤ banThreshold)

/-- `touch`. -/
def touch (nowSecs : ℕ) (info : PeerInfo) : PeerInfo := { info with lastSeen := nowSecs }

/-- The body of `adjust_score`: an `i32` addition that saturates, then the cap. -/
def adjustScore (delta : ℤ) (info : PeerInfo) : PeerInfo :=
  { info with score := min (max (-2147483648) (min 2147483647 (info.score + delta))) 100 }

end PeerInfo

/-- `PeerBook`. -/
abbrev PeerBook := AList fun _ : PeerId => PeerInfo

namespace PeerBook

/-- `add_peer`: the whole entry is replaced. -/
def addPeer (book : PeerBook) (info : PeerInfo) : PeerBook := book.insert info.peerId info

/-- `get_mut` and a write through it. -/
def modify (book : PeerBook) (id : PeerId) (f : PeerInfo → PeerInfo) : PeerBook :=
  match book.lookup id with
  | some info => book.insert id (f info)
  | none => book

/-- `get_random_peers`; `shuffle` is what the generator does to the candidates. -/
def getRandomPeers (shuffle : List PeerInfo → List PeerInfo) (book : PeerBook) (n : ℕ) :
    List PeerInfo :=
  (shuffle ((book.entries.map Sigma.snd).filter fun p => !p.isBanned)).take n

/-- `prune_stale`. -/
def pruneStale (nowSecs maxAgeSecs : ℕ) (book : PeerBook) : PeerBook :=
  book.retain fun id => (book.lookup id).any fun p =>
    decide (nowSecs - maxAgeSecs ≤ p.lastSeen ∨ p.role = .validator)

/-- Whether the peer has an entry that is banned. -/
def bans (book : PeerBook) (id : PeerId) : Bool := (book.lookup id).any PeerInfo.isBanned

/-- A new entry decides for its peer, and for no other. -/
lemma bans_addPeer (book : PeerBook) (info : PeerInfo) (id : PeerId) :
    bans (addPeer book info) id = if id = info.peerId then info.isBanned else book.bans id := by
  by_cases hid : id = info.peerId
  · rw [if_pos hid, hid, bans, addPeer, AList.lookup_insert, Option.any_some]
  · rw [if_neg hid, bans, addPeer, AList.lookup_insert_ne hid, bans]

end PeerBook

/-- `PexRequest`. -/
inductive PexRequest
  | getPeers
  | advertise (role : PeerRole) (validatorId : Option ℕ) (addresses : List String)
deriving DecidableEq, Repr

/-- `PexResponse`. -/
inductive PexResponse
  | peers (peers : List PeerInfo)
  | ack
deriving DecidableEq, Repr

/-- What `handle_pex_event` is told; a message that does not decode is `none`. -/
inductive PexEvent
  | requestReceived (peer : PeerId) (request : Option PexRequest)
  | responseReceived (response : Option PexResponse)
  | other
deriving DecidableEq, Repr

/-- How a request is answered. -/
inductive PexReply
  | rejectRequest
  | sendResponse (response : PexResponse)
deriving DecidableEq, Repr

/-- What an event is handled under: `peer_map` and the connected peers of the moment, the
configuration, the two clocks, the generator, and the parser of addresses with its printer. -/
structure PexEnv where
  validatorToPeer : AList fun _ : ℕ => PeerId
  peerToValidator : AList fun _ : PeerId => ℕ
  connectedPeers : List PeerId
  maxPeersPerResponse : ℕ
  privatePeerIds : List PeerId
  nowNanos : ℕ
  nowSecs : ℕ
  shuffle : List PeerInfo → List PeerInfo
  parseAddress : String → Option String

/-- The part of `NetworkService` that peer exchange uses. -/
structure Service where
  peerBook : PeerBook
  pexRateLimit : AList fun _ : PeerId => ℕ

/-- What has come of an event so far: the entries that were put into the book, in order, and
the answer. -/
structure PexOutcome where
  service : Service
  added : List PeerInfo
  reply : Option PexReply

/-- An entry is put into the book. -/
def PexOutcome.addPeer (o : PexOutcome) (info : PeerInfo) : PexOutcome :=
  { o with
    service := { o.service with peerBook := o.service.peerBook.addPeer info }
    added := o.added ++ [info] }

namespace PexEnv

/-- The peer is in `peer_map`, or connected. -/
def knows (env : PexEnv) (peer : PeerId) : Bool :=
  (env.peerToValidator.lookup peer).isSome || env.connectedPeers.contains peer

/-- The entry's validator id is routed to the entry's peer. -/
def Routed (env : PexEnv) (info : PeerInfo) : Prop :=
  ∃ vid, info.validatorId = some vid ∧ env.validatorToPeer.lookup vid = some info.peerId

/-- What is left of a claim to a role. -/
def admitClaim (env : PexEnv) (peer : PeerId) (role : PeerRole) (validatorId : Option ℕ) :
    PeerRole × Option ℕ :=
  match role, validatorId with
  | .validator, some vid =>
    if env.validatorToPeer.lookup vid = some peer then (.validator, some vid)
    else (.fullnode, none)
  | _, _ => (.fullnode, none)

/-- The entry that an advertisement makes. -/
def advertised (env : PexEnv) (peer : PeerId) (role : PeerRole) (validatorId : Option ℕ)
    (addresses : List String) : PeerInfo :=
  let claim := env.admitClaim peer role validatorId
  let info := PeerInfo.new env.nowSecs peer claim.1 ((addresses.take 8).filterMap env.parseAddress)
  match claim.2 with
  | some vid => info.withValidator vid
  | none => info

end PexEnv

namespace Service

/-- The peer's last request is less than ten seconds old. -/
def limited (s : Service) (env : PexEnv) (peer : PeerId) : Bool :=
  (s.pexRateLimit.lookup peer).any fun last => decide (env.nowNanos - last < 10 * 1000000000)

/-- `handle_pex_event`, for a request. -/
def handlePexRequest (s : Service) (env : PexEnv) (peer : PeerId) (request : Option PexRequest) :
    PexOutcome :=
  if !env.knows peer then ⟨s, [], some .rejectRequest⟩
  else if s.limited env peer then ⟨s, [], some .rejectRequest⟩
  else
    let s := { s with pexRateLimit := s.pexRateLimit.insert peer env.nowNanos }
    match request with
    | some .getPeers =>
      let peers := (s.peerBook.getRandomPeers env.shuffle env.maxPeersPerResponse).filter
        fun p => p.peerId != peer && !env.privatePeerIds.contains p.peerId
      ⟨s, [], some (.sendResponse (.peers peers))⟩
    | some (.advertise role validatorId addresses) =>
      if role = .validator ∧ validatorId = none then ⟨s, [], some .rejectRequest⟩
      else
        (⟨s, [], some (.sendResponse .ack)⟩ : PexOutcome).addPeer
          (env.advertised peer role validatorId addresses)
    | none => ⟨s, [], some .rejectRequest⟩

/-- `handle_pex_event`, for a list of peers. -/
def handlePexPeers (o : PexOutcome) (peers : List PeerInfo) : PexOutcome :=
  peers.foldl (fun o peer => if !peer.isBanned then o.addPeer peer else o) o

/-- `handle_pex_event`. -/
def handlePexEvent (s : Service) (env : PexEnv) : PexEvent → PexOutcome
  | .requestReceived peer request => s.handlePexRequest env peer request
  | .responseReceived (some (.peers peers)) => handlePexPeers ⟨s, [], none⟩ peers
  | .responseReceived _ => ⟨s, [], none⟩
  | .other => ⟨s, [], none⟩

end Service

/-- A step of the service: a PEX event, or one of the other writers of the book. -/
inductive ServiceStep
  | pex (env : PexEnv) (event : PexEvent)
  | adjustScore (peer : PeerId) (delta : ℤ)
  | connected (peer : PeerId) (nowSecs : ℕ)
  | maintenance (nowSecs pexCutoff : ℕ)

namespace Service

/-- One step. -/
def perform (s : Service) : ServiceStep → Service
  | .pex env event => (s.handlePexEvent env event).service
  | .adjustScore peer delta =>
    { s with peerBook := s.peerBook.modify peer (PeerInfo.adjustScore delta) }
  | .connected peer nowSecs =>
    { s with peerBook := s.peerBook.modify peer (PeerInfo.touch nowSecs) }
  | .maintenance nowSecs pexCutoff =>
    { peerBook := s.peerBook.pruneStale nowSecs 86400
      pexRateLimit := s.pexRateLimit.retain fun peer =>
        (s.pexRateLimit.lookup peer).any fun last => decide (pexCutoff < last) }

/-- A run. -/
def performAll (s : Service) (steps : List ServiceStep) : Service := steps.foldl perform s

end Service

/-! ### What an event does to the book -/

/-- An advertisement that is not turned away. -/
structure Accepts (s : Service) (env : PexEnv) (peer : PeerId) (role : PeerRole)
    (validatorId : Option ℕ) : Prop where
  known : env.knows peer = true
  unlimited : s.limited env peer = false
  named : ¬(role = .validator ∧ validatorId = none)

namespace PexEnv

variable (env : PexEnv) (peer : PeerId) (role : PeerRole) (validatorId : Option ℕ)
  (addresses : List String)

lemma advertised_eq : env.advertised peer role validatorId addresses =
      ⟨peer, (env.admitClaim peer role validatorId).1, (env.admitClaim peer role validatorId).2,
        (addresses.take 8).filterMap env.parseAddress, env.nowSecs, 0⟩ := by
  rcases hclaim : env.admitClaim peer role validatorId with ⟨role', _ | vid⟩
  · simp only [advertised, hclaim, PeerInfo.new]
  · simp only [advertised, hclaim, PeerInfo.new, PeerInfo.withValidator]

lemma advertised_peerId : (env.advertised peer role validatorId addresses).peerId = peer := by
  rw [advertised_eq]

/-- An advertisement is entered with a fresh score. -/
lemma advertised_isBanned : (env.advertised peer role validatorId addresses).isBanned = false := by
  rw [advertised_eq]
  rfl

/-- A claim keeps the role of a validator only for the peer that its id is routed to. -/
lemma admitClaim_validator (h : (env.admitClaim peer role validatorId).1 = .validator) :
    ∃ vid, env.validatorToPeer.lookup vid = some peer ∧
      env.admitClaim peer role validatorId = (.validator, some vid) := by
  unfold admitClaim at h ⊢
  cases role with
  | fullnode => cases h
  | validator =>
    cases validatorId with
    | none => cases h
    | some vid =>
      by_cases hrouted : env.validatorToPeer.lookup vid = some peer
      · exact ⟨vid, hrouted, if_pos hrouted⟩
      · simp only [if_neg hrouted] at h
        cases h

/-- So an advertisement is entered as a validator's only when it is. -/
lemma advertised_routed (h : (env.advertised peer role validatorId addresses).role = .validator) :
    env.Routed (env.advertised peer role validatorId addresses) := by
  rw [advertised_eq] at h ⊢
  obtain ⟨vid, hrouted, hclaim⟩ := env.admitClaim_validator peer role validatorId h
  refine ⟨vid, ?_, hrouted⟩
  rw [hclaim]

end PexEnv

namespace Service

variable (s : Service) (env : PexEnv)

/-- A request enters nothing, or it is an advertisement that is accepted, and enters it. -/
lemma handlePexRequest_cases (peer : PeerId) (request : Option PexRequest) :
    ((s.handlePexRequest env peer request).added = [] ∧
        (s.handlePexRequest env peer request).service.peerBook = s.peerBook ∧
        ∀ role validatorId addresses, request = some (.advertise role validatorId addresses) →
          ¬Accepts s env peer role validatorId) ∨
      ∃ role validatorId addresses, request = some (.advertise role validatorId addresses) ∧
        Accepts s env peer role validatorId ∧
        (s.handlePexRequest env peer request).added =
          [env.advertised peer role validatorId addresses] ∧
        (s.handlePexRequest env peer request).service.peerBook =
          s.peerBook.addPeer (env.advertised peer role validatorId addresses) := by
  unfold handlePexRequest
  by_cases hknown : env.knows peer = true
  · by_cases hlimited : s.limited env peer = true
    · rw [if_neg (by simp [hknown]), if_pos hlimited]
      refine .inl ⟨rfl, rfl, fun _ _ _ _ haccepts => ?_⟩
      rw [haccepts.unlimited] at hlimited
      cases hlimited
    · rw [if_neg (by simp [hknown]), if_neg hlimited]
      cases request with
      | none => exact .inl ⟨rfl, rfl, fun _ _ _ h => (by cases h)⟩
      | some request =>
        cases request with
        | getPeers => exact .inl ⟨rfl, rfl, fun _ _ _ h => (by cases h)⟩
        | advertise role validatorId addresses =>
          by_cases hnamed : role = .validator ∧ validatorId = none
          · simp only [if_pos hnamed]
            refine .inl ⟨trivial, trivial, fun _ _ _ h haccepts => ?_⟩
            cases h
            exact haccepts.named hnamed
          · simp only [if_neg hnamed]
            exact .inr ⟨role, validatorId, addresses, rfl,
              ⟨hknown, Bool.eq_false_iff.mpr hlimited, hnamed⟩, rfl, rfl⟩
  · rw [if_pos (by simpa using hknown)]
    exact .inl ⟨rfl, rfl, fun _ _ _ _ haccepts => hknown haccepts.known⟩

/-- Of a list, every entry that is not banned is entered. -/
lemma handlePexPeers_added (o : PexOutcome) (peers : List PeerInfo) :
    (handlePexPeers o peers).added = o.added ++ peers.filter fun p => !p.isBanned := by
  induction peers generalizing o with
  | nil => exact (append_nil _).symm
  | cons peer peers ih =>
    rw [handlePexPeers, foldl_cons]
    refine (ih _).trans ?_
    by_cases hbanned : peer.isBanned = true
    · simp [hbanned]
    · simp [hbanned, PexOutcome.addPeer]

/-- A peer is banned after a list when it was before, and the list does not overwrite it. -/
lemma handlePexPeers_bans (o : PexOutcome) (peers : List PeerInfo) (id : PeerId) :
    (handlePexPeers o peers).service.peerBook.bans id = true ↔ o.service.peerBook.bans id = true ∧
        ∀ p ∈ peers, p.isBanned = false → p.peerId ≠ id := by
  induction peers generalizing o with
  | nil => exact ⟨fun h => ⟨h, fun _ hp => (by cases hp)⟩, fun h => h.1⟩
  | cons peer peers ih =>
    rw [handlePexPeers, foldl_cons]
    refine (ih _).trans ?_
    rw [forall_mem_cons]
    by_cases hbanned : peer.isBanned = true
    · simp [hbanned]
    · have hfree : peer.isBanned = false := Bool.eq_false_iff.mpr hbanned
      simp only [hfree, Bool.not_false, if_true, PexOutcome.addPeer, PeerBook.bans_addPeer]
      by_cases hid : id = peer.peerId
      · simp [hid]
      · simp [hid, Ne.symm hid]

end Service

/-! ### Roles and bans -/

/-- Whatever entered the book as a validator's has its id routed to its peer. -/
def GenuineRoles (env : PexEnv) (o : PexOutcome) : Prop :=
  ∀ info ∈ o.added, info.role = .validator → env.Routed info

/-- Who was banned still is. -/
def KeepsBans (before after : Service) : Prop :=
  ∀ id, before.peerBook.bans id = true → after.peerBook.bans id = true

/-- An advertisement that is accepted is not of a banned peer.  Of a list, the entries that
are not banned are not of banned peers, and those of validators are routed. -/
def Harmless (s : Service) (env : PexEnv) : PexEvent → Prop
  | .requestReceived peer (some (.advertise role validatorId _)) =>
    Accepts s env peer role validatorId → s.peerBook.bans peer = false
  | .responseReceived (some (.peers peers)) => ∀ p ∈ peers, p.isBanned = false →
      s.peerBook.bans p.peerId = false ∧ (p.role = .validator → env.Routed p)
  | _ => True

namespace Service

variable (s : Service) (env : PexEnv)

/-- An entry that is not banned lifts the ban of its peer. -/
lemma keepsBans_addPeer {s' : Service} {info : PeerInfo} (hinfo : info.isBanned = false)
    (hbook : s'.peerBook = s.peerBook.addPeer info) :
    KeepsBans s s' ↔ s.peerBook.bans info.peerId = false := by
  have hbans : ∀ id, s'.peerBook.bans id =
      if id = info.peerId then false else s.peerBook.bans id := by
    intro id
    rw [hbook, PeerBook.bans_addPeer, hinfo]
  constructor
  · intro hkeeps
    rw [Bool.eq_false_iff]
    intro hbanned
    have hstill := hkeeps info.peerId hbanned
    rw [hbans, if_pos rfl] at hstill
    cases hstill
  · intro hfree id hbanned
    have hid : id ≠ info.peerId := by
      rintro rfl
      rw [hfree] at hbanned
      cases hbanned
    rw [hbans, if_neg hid]
    exact hbanned

lemma guarded_request_iff (peer : PeerId) (request : Option PexRequest) :
    GenuineRoles env (s.handlePexRequest env peer request) ∧
        KeepsBans s (s.handlePexRequest env peer request).service ↔
      Harmless s env (.requestReceived peer request) := by
  rcases s.handlePexRequest_cases env peer request with
    ⟨hadded, hbook, hrefused⟩ | ⟨role, validatorId, addresses, rfl, haccepts, hadded, hbook⟩
  · have hauthentic : GenuineRoles env (s.handlePexRequest env peer request) := by
      intro info hinfo
      rw [hadded] at hinfo
      cases hinfo
    have hkeeps : KeepsBans s (s.handlePexRequest env peer request).service := by
      intro id hid
      rw [hbook]
      exact hid
    refine iff_of_true ⟨hauthentic, hkeeps⟩ ?_
    rcases request with _ | _ | ⟨role, validatorId, addresses⟩
    · trivial
    · trivial
    · exact fun haccepts => absurd haccepts (hrefused role validatorId addresses rfl)
  · have hauthentic : GenuineRoles env (s.handlePexRequest env peer
        (some (.advertise role validatorId addresses))) := by
      intro info hinfo hrole
      rw [hadded, mem_singleton] at hinfo
      subst hinfo
      exact env.advertised_routed peer role validatorId addresses hrole
    rw [and_iff_right hauthentic,
      s.keepsBans_addPeer (env.advertised_isBanned peer role validatorId addresses) hbook,
      env.advertised_peerId]
    exact ⟨fun h _ => h, fun h => h haccepts⟩

lemma guarded_peers_iff (peers : List PeerInfo) :
    GenuineRoles env (handlePexPeers ⟨s, [], none⟩ peers) ∧
        KeepsBans s (handlePexPeers ⟨s, [], none⟩ peers).service ↔
      Harmless s env (.responseReceived (some (.peers peers))) := by
  have hadded : ∀ p, p ∈ (handlePexPeers ⟨s, [], none⟩ peers).added ↔
      p ∈ peers ∧ p.isBanned = false := by
    intro p
    rw [handlePexPeers_added, nil_append, mem_filter, Bool.not_eq_true']
  constructor
  · rintro ⟨hauthentic, hkeeps⟩ p hp hfree
    refine ⟨?_, hauthentic p ((hadded p).mpr ⟨hp, hfree⟩)⟩
    rw [Bool.eq_false_iff]
    intro hbanned
    exact ((handlePexPeers_bans _ _ _).mp (hkeeps p.peerId hbanned)).2 p hp hfree rfl
  · intro hharmless
    refine ⟨fun p hp => ?_, fun id hbanned => ?_⟩
    · obtain ⟨hp, hfree⟩ := (hadded p).mp hp
      exact (hharmless p hp hfree).2
    · refine (handlePexPeers_bans _ _ _).mpr ⟨hbanned, ?_⟩
      rintro p hp hfree rfl
      have hunbanned := (hharmless p hp hfree).1
      rw [hbanned] at hunbanned
      cases hunbanned

/-- One event. -/
lemma guarded_iff (event : PexEvent) : GenuineRoles env (s.handlePexEvent env event) ∧
        KeepsBans s (s.handlePexEvent env event).service ↔ Harmless s env event := by
  have hnothing : GenuineRoles env ⟨s, [], none⟩ ∧ KeepsBans s s :=
    ⟨fun _ h => (by cases h), fun _ h => h⟩
  cases event with
  | requestReceived peer request => exact s.guarded_request_iff env peer request
  | responseReceived response =>
    rcases response with _ | peers | _
    · exact iff_of_true hnothing trivial
    · exact s.guarded_peers_iff env peers
    · exact iff_of_true hnothing trivial
  | other => exact iff_of_true hnothing trivial

end Service

/-- **Roles are genuine and bans stay, in every step of a run, exactly when no event carries
an entry that is forged or that overwrites a banned one.** -/
theorem pex_guarded_iff (s : Service) (steps : List ServiceStep) :
    (∀ pre env event post, steps = pre ++ .pex env event :: post →
        GenuineRoles env ((s.performAll pre).handlePexEvent env event) ∧
          KeepsBans (s.performAll pre) (s.performAll (pre ++ [.pex env event]))) ↔
      ∀ pre env event post, steps = pre ++ .pex env event :: post →
        Harmless (s.performAll pre) env event := by
  have hstep : ∀ pre env event, s.performAll (pre ++ [.pex env event]) =
      ((s.performAll pre).handlePexEvent env event).service := by
    intro pre env event
    rw [Service.performAll, foldl_append]
    rfl
  refine forall_congr' fun pre => forall_congr' fun env => forall_congr' fun event =>
    forall_congr' fun post => imp_congr_right fun _ => ?_
  rw [hstep]
  exact (s.performAll pre).guarded_iff env event

/-- A banned peer that has just connected. -/
def bannedService : Service where
  peerBook := AList.singleton "peer" ⟨"peer", .fullnode, none, [], 0, -100⟩
  pexRateLimit := ∅

/-- No validator is routed anywhere. -/
def bannedEnv : PexEnv where
  validatorToPeer := ∅
  peerToValidator := ∅
  connectedPeers := ["peer"]
  maxPeersPerResponse := 32
  privatePeerIds := []
  nowNanos := 0
  nowSecs := 0
  shuffle := id
  parseAddress := some

/-- A list that has the peer as a validator, and not banned. -/
def forgedList : PexEvent :=
  .responseReceived (some (.peers [⟨"peer", .validator, some 0, [], 0, 0⟩]))

/-- The peer is in a list, as a validator that is not banned: it enters the book as one, and
its ban is gone.  An advertisement of its own lifts the ban too. -/
theorem pex_forges_and_unbans : bannedService.peerBook.bans "peer" = true ∧
      (∃ info ∈ (bannedService.handlePexEvent bannedEnv forgedList).added,
        info.role = .validator ∧ ¬bannedEnv.Routed info) ∧
      (bannedService.handlePexEvent bannedEnv forgedList).service.peerBook.bans "peer" = false ∧
      (bannedService.handlePexEvent bannedEnv
          (.requestReceived "peer" (some (.advertise .fullnode none [])))).service.peerBook.bans
        "peer" = false := by
  refine ⟨by decide, ⟨⟨"peer", .validator, some 0, [], 0, 0⟩, by decide, rfl, ?_⟩,
    by decide, by decide⟩
  rintro ⟨vid, -, hrouted⟩
  cases hrouted

end Hotmint.Network
