/-
Relaying of consensus messages (`relay_consensus_message` and `handle_command` of `service.rs` in
`hotmint-network`).

* `Relay`: the two sets of hashes, with the effects of the service;
* `relayConsensusMessage`, `handleBroadcast`: the two call sites that write to the sets;
* `Relay.perform`: a notification received, or a message broadcast by the node;
* `RelayInv`: what the sets hold is what was recorded, kept by every event (`RelayInv.perform`);
* `relay_dedup`: **a message is not relayed again before 10000 others were recorded**, and the sets
  never hold more than 20002 hashes.

What the checks in front of a relay answer is part of the event.
-/
import Hotmint.Library.Generations
import Hotmint.Library.Prefixes
import Hotmint.Network.Codec
import Hotmint.Network.Pex
import Hotmint.Types.Message

namespace Hotmint.Network

open List
variable {msg : ConsensusMessage} {trace : List RelayEffect}

/-- `MAX_NOTIFICATION_SIZE`. -/
def maxNotificationSize : ℕ := 16 * 1024 * 1024

/-- The hashes after which the sets are rotated. -/
def seenLimit : ℕ := 10000

/-- What the service does: a hash put in the active set, and the messages it sends, with the peers
they go to. -/
inductive RelayEffect
  | recorded (msg : ConsensusMessage) (msgHash : Digest)
  | relayed (msg : ConsensusMessage) (raw : Bytes) (peers : List PeerId)
  | broadcast (bytes : Bytes) (peers : List PeerId)
deriving DecidableEq

/-- `seen_active` and `seen_backup`, and the effects so far. -/
structure Relay where
  seen : Generations Digest
  trace : List RelayEffect

/-- What the service reacts to.  A notification comes with the open substreams and with what
`check_consensus_ingress_budget`, `should_accept_consensus_from_peer`, `relay_consensus` and
`should_relay_consensus_message` make of the message. -/
inductive RelayEvent
  | received (fromPeer : PeerId) (notification : Bytes) (peers : List PeerId)
      (admits : ConsensusMessage → Bool)
  | broadcast (msg : ConsensusMessage) (peers : List PeerId)

/-- No serialisation that is read as a value is shorter than the one that is written for it. -/
def WireLibraries.Shortest {α : Type} (lib : WireLibraries α) : Prop :=
  ∀ raw raw' value, lib.fromBytes raw = .ok value → lib.toAllocvec value = .ok raw' →
    raw'.length ≤ raw.length

namespace Relay

variable (lib : WireLibraries ConsensusMessage) (hash : Bytes → Digest)

/-- The service at its start. -/
def new : Relay := ⟨.empty, []⟩

/-- The hash of the canonical encoding. -/
def msgHash (msg : ConsensusMessage) : Except String Digest := (lib.toAllocvec msg).map hash

/-- A hash recorded, and what is then sent. -/
def record (r : Relay) (msg : ConsensusMessage) (h : Digest) (effect : RelayEffect) : Relay where
  seen := r.seen.record seenLimit h
  trace := r.trace ++ [.recorded msg h] ++ [effect]

/-- `relay_consensus_message`. -/
def relayConsensusMessage (r : Relay) (fromPeer : PeerId) (peers : List PeerId)
    (msg : ConsensusMessage) : Relay :=
  match msgHash lib hash msg with
  | .error _ => r
  | .ok h =>
    if r.seen.Contains h then r
    else
      match encode lib msg with
      | .error _ => r
      | .ok raw => r.record msg h (.relayed msg raw (peers.filter (· ≠ fromPeer)))

/-- `handle_command` for `NetCommand::Broadcast`. -/
def handleBroadcast (r : Relay) (peers : List PeerId) (bytes : Bytes) : Relay :=
  match decode lib bytes with
  | .error _ => { r with trace := r.trace ++ [.broadcast bytes peers] }
  | .ok msg =>
    match msgHash lib hash msg with
    | .error _ => r
    | .ok h => r.record msg h (.broadcast bytes peers)

/-- One event.  The transport refuses notifications that are too long; a message that the node
broadcasts is encoded by `NetworkSink::broadcast`. -/
def perform (r : Relay) : RelayEvent → Relay
  | .received fromPeer notification peers admits =>
    if maxNotificationSize < notification.length then r
    else
      match decode lib notification with
      | .error _ => r
      | .ok msg => if admits msg then relayConsensusMessage lib hash r fromPeer peers msg else r
  | .broadcast msg peers =>
    match encode lib msg with
    | .error _ => r
    | .ok bytes => handleBroadcast lib hash r peers bytes

/-- A run of the service. -/
def performAll (events : List RelayEvent) : Relay := events.foldl (perform lib hash) new

end Relay

/-! ### What was recorded -/

/-- The effect sends the message to peers. -/
def RelayEffect.Spreads (lib : WireLibraries ConsensusMessage) (msg : ConsensusMessage) :
    RelayEffect → Prop
  | recorded _ _ => False
  | relayed msg' _ _ => msg' = msg
  | broadcast bytes _ => encode lib msg = .ok bytes

/-- The recorded messages. -/
def recordedIn (trace : List RelayEffect) : List ConsensusMessage :=
  trace.filterMap fun
    | .recorded msg _ => some msg
    | _ => none

/-- The recorded hashes. -/
def hashesIn (trace : List RelayEffect) : List Digest :=
  trace.filterMap fun
    | .recorded _ h => some h
    | _ => none

lemma mem_recordedIn :
    msg ∈ recordedIn trace ↔ ∃ h, RelayEffect.recorded msg h ∈ trace := by
  unfold recordedIn
  rw [mem_filterMap]
  constructor
  · rintro ⟨effect, hmem, heffect⟩
    cases effect with
    | recorded msg' h =>
      cases heffect
      exact ⟨h, hmem⟩
    | relayed _ _ _ | broadcast _ _ => cases heffect
  · rintro ⟨h, hmem⟩
    exact ⟨_, hmem, rfl⟩

lemma exists_recorded {h : Digest} (hmem : h ∈ hashesIn trace) :
    ∃ msg, RelayEffect.recorded msg h ∈ trace := by
  obtain ⟨effect, hin, heffect⟩ := mem_filterMap.mp hmem
  cases effect with
  | recorded msg h' =>
    cases heffect
    exact ⟨msg, hin⟩
  | relayed _ _ _ | broadcast _ _ => cases heffect

section Codec

variable {lib : WireLibraries ConsensusMessage}

/-- No frame of the message can be read. -/
def Oversized (lib : WireLibraries ConsensusMessage) (msg : ConsensusMessage) : Prop :=
  ∃ raw, lib.toAllocvec msg = .ok raw ∧ maxDecompressedSize < raw.length

/-- What is read from a notification is not oversized. -/
lemma not_oversized_of_decode (hshort : lib.Shortest) {frame : Bytes}
    (hsize : frame.length ≤ maxNotificationSize) (hdecode : decode lib frame = .ok msg) :
    ¬ Oversized lib msg := by
  rintro ⟨raw, hraw, hlong⟩
  suffices hread : ∃ data, lib.fromBytes data = .ok msg ∧ data.length ≤ maxDecompressedSize by
    obtain ⟨data, hdata, hle⟩ := hread
    exact absurd (hshort data raw msg hdata hraw) (by omega)
  have hpostcard : ∀ data, decodePostcard lib data = .ok msg → lib.fromBytes data = .ok msg := by
    intro data hdata
    unfold decodePostcard at hdata
    cases hread : lib.fromBytes data with
    | error err =>
      rw [hread] at hdata
      cases hdata
    | ok value =>
      rw [hread] at hdata
      exact congrArg _ (Except.ok.inj hdata)
  have hlimits : maxNotificationSize = maxDecompressedSize := rfl
  unfold decode at hdecode
  split at hdecode
  · cases hdecode
  · next tag data =>
    rw [length_cons] at hsize
    split_ifs at hdecode
    · exact ⟨data, hpostcard _ hdecode, by omega⟩
    · split at hdecode
      · cases hdecode
      · split at hdecode
        · cases hdecode
        · split_ifs at hdecode with hlarge
          exact ⟨_, hpostcard _ hdecode, Nat.le_of_not_lt hlarge⟩

/-- What is broadcast and can be read is the message that was encoded. -/
lemma eq_or_oversized (hlib : lib.RoundTrips) {bytes : Bytes}
    (hencode : encode lib msg = .ok bytes) : decode lib bytes = .ok msg ∨
      Oversized lib msg ∧ ∃ err, decode lib bytes = .error err := by
  cases hraw : lib.toAllocvec msg with
  | error err =>
    unfold encode at hencode
    rw [hraw] at hencode
    cases hencode
  | ok raw =>
    have hdecode := decode_encode hlib hraw hencode
    split_ifs at hdecode with hfits
    · exact .inl hdecode
    · exact .inr ⟨⟨raw, hraw, Nat.lt_of_not_le hfits⟩, _, hdecode⟩

end Codec

/-! ### Runs -/

/-- A message that is sent was recorded right before, unless no frame of it can be read. -/
def SentAfterRecord (lib : WireLibraries ConsensusMessage) (trace : List RelayEffect) : Prop :=
  ∀ before effect msg, trace = before ++ [effect] → effect.Spreads lib msg →
    (∃ earlier h, before = earlier ++ [.recorded msg h]) ∨ Oversized lib msg

/-- Between a message that is sent and its relay, 10000 others were recorded. -/
def Deduplicated (lib : WireLibraries ConsensusMessage) (trace : List RelayEffect) : Prop :=
  ∀ before first between msg raw peers,
    trace = before ++ first :: between ++ [.relayed msg raw peers] → first.Spreads lib msg →
    ∃ others : Finset ConsensusMessage, 10000 ≤ others.card ∧ msg ∉ others
      ∧ ∀ other ∈ others, ∃ h, RelayEffect.recorded other h ∈ between

/-- What holds along a run. -/
structure RelayInv (lib : WireLibraries ConsensusMessage) (hash : Bytes → Digest) (r : Relay) :
    Prop where
  seen : r.seen = Generations.recordAll seenLimit (hashesIn r.trace)
  recorded : ∀ msg h, RelayEffect.recorded msg h ∈ r.trace → Relay.msgHash lib hash msg = .ok h
  sent : EveryPrefix (SentAfterRecord lib) r.trace
  dedup : EveryPrefix (Deduplicated lib) r.trace

namespace RelayInv

variable {lib : WireLibraries ConsensusMessage} {hash : Bytes → Digest} {r : Relay}

lemma new : RelayInv lib hash .new where
  seen := rfl
  recorded _ _ hmem := absurd hmem not_mem_nil
  sent := .nil fun before _ _ h => absurd h (by simp)
  dedup := .nil fun before _ _ _ _ _ h => absurd h (by simp)

/-- **A message that is forgotten was recorded long ago**: the messages recorded since have more
than 10000 other hashes. -/
lemma others_of_forgotten (h : RelayInv lib hash r) {earlier between : List RelayEffect}
    {first : RelayEffect} {d : Digest}
    (htrace : r.trace = earlier ++ [.recorded msg d] ++ first :: between)
    (hfirst : first.Spreads lib msg) (hforgotten : ¬ r.seen.Contains d) :
    ∃ others : Finset ConsensusMessage, 10000 ≤ others.card ∧ msg ∉ others
      ∧ ∀ other ∈ others, ∃ h, RelayEffect.recorded other h ∈ between := by
  have hhashes : hashesIn r.trace = hashesIn earlier ++ d :: hashesIn between := by
    rw [htrace]
    unfold hashesIn
    rw [filterMap_append, filterMap_append, append_assoc]
    cases first with
    | recorded _ _ => exact hfirst.elim
    | relayed _ _ _ => rfl
    | broadcast _ _ => rfl
  rw [h.seen, hhashes] at hforgotten
  have hmany := Generations.lt_card_of_forgotten hforgotten
  refine ⟨(recordedIn between).toFinset.erase msg, ?_, Finset.notMem_erase _ _, ?_⟩
  · -- every other hash is the hash of another message
    let digest : ConsensusMessage → Digest := fun m => (Relay.msgHash lib hash m).toOption.getD 0
    have hmsg : digest msg = d := by
      have hhash := h.recorded msg d (by rw [htrace]; simp)
      simp only [digest, hhash]
      rfl
    refine hmany.le.trans ((Finset.card_le_card fun x hx => ?_).trans
      (Finset.card_image_le (f := digest)))
    obtain ⟨hne, hx⟩ := Finset.mem_erase.mp hx
    obtain ⟨other, hother⟩ := exists_recorded (mem_toFinset.mp hx)
    have hhash : digest other = x := by
      have hhash := h.recorded other x (by rw [htrace]; simp [hother])
      simp only [digest, hhash]
      rfl
    refine Finset.mem_image.mpr ⟨other, Finset.mem_erase.mpr ⟨?_, ?_⟩, hhash⟩
    · rintro rfl
      exact hne (hhash.symm.trans hmsg)
    · exact mem_toFinset.mpr (mem_recordedIn.mpr ⟨x, hother⟩)
  · intro other hother
    exact mem_recordedIn.mp (mem_toFinset.mp (Finset.mem_of_mem_erase hother))

/-- An effect that is no relay. -/
lemma deduplicated_concat {effect : RelayEffect}
    (hrelay : ∀ msg raw peers, effect ≠ .relayed msg raw peers) :
    Deduplicated lib (trace ++ [effect]) := by
  intro before first between msg raw peers heq _
  exact absurd (append_inj' heq rfl).2 (by simpa using hrelay msg raw peers)

/-- **A message recorded and sent**: it is relayed only if it was forgotten. -/
lemma record (h : RelayInv lib hash r) {d : Digest} {effect : RelayEffect}
    (hhash : Relay.msgHash lib hash msg = .ok d) (hspreads : ∀ m, effect.Spreads lib m ↔ m = msg)
    (hrelay : ∀ m raw peers, effect = .relayed m raw peers →
      ¬ r.seen.Contains d ∧ ¬ Oversized lib msg) : RelayInv lib hash (r.record msg d effect) where
  seen := by
    have hhashes : hashesIn (r.record msg d effect).trace = hashesIn r.trace ++ [d] := by
      unfold hashesIn Relay.record
      rw [filterMap_append, filterMap_append, append_assoc]
      cases effect with
      | recorded _ _ => exact ((hspreads msg).mpr rfl).elim
      | relayed _ _ _ => rfl
      | broadcast _ _ => rfl
    rw [hhashes, Generations.recordAll, foldl_append, ← Generations.recordAll, ← h.seen]
    rfl
  recorded m d' hmem := by
    rcases mem_append.mp hmem with hmem | hlast
    · rcases mem_append.mp hmem with hold | hnew
      · exact h.recorded m d' hold
      · obtain ⟨rfl, rfl⟩ := RelayEffect.recorded.inj (mem_singleton.mp hnew)
        exact hhash
    · obtain rfl := mem_singleton.mp hlast
      exact ((hspreads msg).mpr rfl).elim
  sent := by
    refine (h.sent.concat fun before effect' m heq hm => ?_).concat
      fun before effect' m heq hm => ?_
    · obtain ⟨-, heffect⟩ := append_inj' heq rfl
      rw [← singleton_inj.mp heffect] at hm
      exact hm.elim
    · obtain ⟨rfl, heffect⟩ := append_inj' heq rfl
      rw [← singleton_inj.mp heffect] at hm
      exact .inl ⟨r.trace, d, by rw [(hspreads m).mp hm]⟩
  dedup := by
    refine (h.dedup.concat (deduplicated_concat fun _ _ _ heq => by cases heq)).concat ?_
    intro before first between m raw peers hall hfirst
    obtain ⟨heq, heffect⟩ := append_inj' hall rfl
    obtain rfl := singleton_inj.mp heffect
    obtain ⟨hforgotten, hfits⟩ := hrelay m raw peers rfl
    obtain rfl : m = msg := (hspreads m).mp rfl
    -- what was sent before is older than the record that goes with the relay
    rcases eq_nil_or_concat' between with rfl | ⟨between, last, rfl⟩
    · obtain ⟨-, hrecord⟩ := append_inj' heq rfl
      rw [← singleton_inj.mp hrecord] at hfirst
      exact hfirst.elim
    rw [← cons_append, ← append_assoc] at heq
    obtain ⟨htrace, -⟩ := append_inj' heq rfl
    have hbefore : before ++ [first] <+: r.trace := ⟨between, by rw [htrace]; simp⟩
    rcases h.sent _ hbefore before first m rfl hfirst with ⟨earlier, d', rfl⟩ | hover
    · obtain rfl : d' = d :=
        Except.ok.inj ((h.recorded m d' (by rw [htrace]; simp)).symm.trans hhash)
      obtain ⟨others, hcard, hout, hothers⟩ := h.others_of_forgotten htrace hfirst hforgotten
      refine ⟨others, hcard, hout, fun other hother => ?_⟩
      obtain ⟨d', hmem⟩ := hothers other hother
      exact ⟨d', mem_append_left _ hmem⟩
    · exact absurd hover hfits

/-- A message that is sent and can never be read is not recorded. -/
lemma broadcast (h : RelayInv lib hash r) {bytes : Bytes} {peers : List PeerId}
    (hover : ∀ m, encode lib m = .ok bytes → Oversized lib m) :
    RelayInv lib hash { r with trace := r.trace ++ [.broadcast bytes peers] } where
  seen := by
    unfold hashesIn
    rw [filterMap_append]
    exact h.seen.trans (by rw [← hashesIn]; exact congrArg _ (append_nil _).symm)
  recorded m d hmem := by
    rcases mem_append.mp hmem with hold | hlast
    · exact h.recorded m d hold
    · cases mem_singleton.mp hlast
  sent := by
    refine h.sent.concat fun before effect m heq hm => .inr ?_
    obtain ⟨-, heffect⟩ := append_inj' heq rfl
    rw [← singleton_inj.mp heffect] at hm
    exact hover m hm
  dedup := h.dedup.concat (deduplicated_concat fun _ _ _ heq => by cases heq)

/-- **Every event keeps the invariant.** -/
lemma perform (hlib : lib.RoundTrips) (hshort : lib.Shortest) (h : RelayInv lib hash r)
    (event : RelayEvent) : RelayInv lib hash (r.perform lib hash event) := by
  cases event with
  | received fromPeer notification peers admits =>
    unfold Relay.perform
    dsimp only
    split_ifs with hsize
    · exact h
    split
    · exact h
    next msg hdecode =>
    split_ifs
    · unfold Relay.relayConsensusMessage
      split
      · exact h
      next d hhash =>
      split_ifs with hseen
      · exact h
      split
      · exact h
      · exact h.record hhash (fun m => eq_comm) fun _ _ _ _ =>
          ⟨hseen, not_oversized_of_decode hshort (Nat.le_of_not_lt hsize) hdecode⟩
    · exact h
  | broadcast msg peers =>
    unfold Relay.perform
    dsimp only
    split
    · exact h
    next bytes hencode =>
    have hread : ∀ m, encode lib m = .ok bytes → ∀ m', decode lib bytes = .ok m' → m = m' := by
      intro m hm m' hm'
      rcases eq_or_oversized hlib hm with hdecode | ⟨-, err, hdecode⟩
      · exact Except.ok.inj (hdecode.symm.trans hm')
      · cases hdecode.symm.trans hm'
    unfold Relay.handleBroadcast
    split
    · next err herr =>
      refine h.broadcast fun m hm => ?_
      rcases eq_or_oversized hlib hm with hdecode | ⟨hover, -⟩
      · cases hdecode.symm.trans herr
      · exact hover
    next msg' hdecode =>
    split
    · exact h
    next d hhash =>
    obtain rfl := hread msg hencode msg' hdecode
    refine h.record hhash (fun m => ⟨fun hm => hread m hm _ hdecode, ?_⟩) fun _ _ _ heq => by
      cases heq
    rintro rfl
    exact hencode

/-- **A run.** -/
lemma performAll (hash : Bytes → Digest) (hlib : lib.RoundTrips) (hshort : lib.Shortest)
    (events : List RelayEvent) : RelayInv lib hash (Relay.performAll lib hash events) := by
  induction events using reverseRecOn with
  | nil => exact .new
  | append_singleton events event ih =>
    unfold Relay.performAll
    rw [foldl_append]
    exact ih.perform hlib hshort event

end RelayInv

/-- **Relay deduplication.**  In every run of the service, a message that was relayed or broadcast
is not relayed again unless 10000 other messages were recorded in between; and the two sets never
hold more than 20002 hashes, also before they are rotated. -/
theorem relay_dedup (lib : WireLibraries ConsensusMessage) (hash : Bytes → Digest)
    (hlib : lib.RoundTrips) (hshort : lib.Shortest) (events : List RelayEvent) :
    (∀ before first between msg raw peers after, (Relay.performAll lib hash events).trace
        = before ++ first :: between ++ .relayed msg raw peers :: after →
      first.Spreads lib msg →
      ∃ others : Finset ConsensusMessage, 10000 ≤ others.card ∧ msg ∉ others
        ∧ ∀ other ∈ others, ∃ h, RelayEffect.recorded other h ∈ between)
    ∧ (Relay.performAll lib hash events).seen.active.card
        + (Relay.performAll lib hash events).seen.backup.card ≤ 20002
    ∧ ∀ h, ((Relay.performAll lib hash events).seen.insert h).active.card
        + ((Relay.performAll lib hash events).seen.insert h).backup.card ≤ 20002 := by
  have hinv := RelayInv.performAll hash hlib hshort events
  obtain ⟨hactive, hbackup⟩ :=
    Generations.card_recordAll_le seenLimit (hashesIn (Relay.performAll lib hash events).trace)
  rw [← hinv.seen] at hactive hbackup
  have hlimit : seenLimit = 10000 := rfl
  refine ⟨fun before first between msg raw peers after htrace hfirst => ?_, by omega, fun h => ?_⟩
  · refine hinv.dedup _ ⟨after, ?_⟩ before first between msg raw peers rfl hfirst
    rw [htrace]
    simp
  · have hcard := Finset.card_insert_le h (Relay.performAll lib hash events).seen.active
    unfold Generations.insert
    dsimp only
    omega

/-- A wish, the only message that `oneMessage` serialises. -/
def onlyWish : ConsensusMessage := .wish 2 0 none ⟨[]⟩

/-- Libraries for one message, with frames that are not compressed. -/
def oneMessage : WireLibraries ConsensusMessage where
  toAllocvec msg := if msg = onlyWish then .ok [7] else .error "unsupported"
  fromBytes raw := if raw = [7] then .ok onlyWish else .error "unsupported"
  encodeAll raw := .ok raw
  newDecoder raw := .ok (raw, none)

lemma oneMessage_toAllocvec {raw : Bytes}
    (h : oneMessage.toAllocvec msg = .ok raw) : msg = onlyWish ∧ raw = [7] := by
  unfold oneMessage at h
  dsimp only at h
  split_ifs at h with hmsg
  exact ⟨hmsg, (Except.ok.inj h).symm⟩

lemma oneMessage_roundTrips : oneMessage.RoundTrips where
  postcard msg raw h := by
    obtain ⟨rfl, rfl⟩ := oneMessage_toAllocvec h
    rfl
  zstd raw compressed h := by
    rw [← Except.ok.inj h]
    rfl

lemma oneMessage_shortest : oneMessage.Shortest := by
  intro raw raw' msg hread hwrite
  obtain ⟨-, rfl⟩ := oneMessage_toAllocvec hwrite
  unfold oneMessage at hread
  dsimp only at hread
  split_ifs at hread with hraw
  rw [hraw]

/-- The wish from two peers, one after the other. -/
def echoed : List RelayEvent :=
  [.received "a" [tagRaw, 7] ["a", "b"] fun _ => true,
    .received "b" [tagRaw, 7] ["a", "b"] fun _ => true]

/-- The wish is relayed once. -/
theorem relay_dedup_echoed : (Relay.performAll oneMessage (fun _ => 1) echoed).trace
        = [.recorded onlyWish 1, .relayed onlyWish [tagRaw, 7] ["b"]]
      ∧ (Relay.performAll oneMessage (fun _ => 1) echoed).seen.active.card
        + (Relay.performAll oneMessage (fun _ => 1) echoed).seen.backup.card ≤ 20002 :=
  ⟨by decide +kernel,
    (relay_dedup oneMessage (fun _ => 1) oneMessage_roundTrips oneMessage_shortest echoed).2.1⟩

end Hotmint.Network
