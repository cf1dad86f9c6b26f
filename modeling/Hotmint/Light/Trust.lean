/-
The trust chain of a light client (`hotmint-light/src/lib.rs`): what any sequence of
`verify_header` and `update_validator_set` calls makes it trust.

* `LightClient.verifyHeaderCall`, `updateValidatorSetCall`: the two calls as operations on the
  client, whose writes come after the checks;
* `LightClient.perform_cases`: **all that a call can do**;
* `Session`: a client with the headers it accepted since the last change of the validator set;
* `Session.Chained`: these headers extend the block trusted then, one by one;
* `LightClient.trust_chain`: **so they do after every sequence of calls**.
-/
import Hotmint.Light.Verifiers

namespace Hotmint

open List

/-- A call of a light client. -/
inductive LightCall
  | verifyHeader (c : Crypto) (header : BlockHeader) (qc : QuorumCertificate)
  | updateValidatorSet (vs : ValidatorSet) (height : ℕ) (hash : BlockHash)

namespace LightClient

/-- `verify_header` on a client: each early exit leaves the client as it is at that point, and
the two writes are the last statements. -/
def verifyHeaderCall (c : Crypto) (client : LightClient) (header : BlockHeader)
    (qc : QuorumCertificate) : Except LightError Unit × LightClient :=
  if header.height ≤ client.trustedHeight then
    (.error (.notAboveTrusted header.height client.trustedHeight), client)
  else
    match client.trustedHash with
    | none => (.error (.noTrustedHash client.trustedHeight), client)
    | some trusted =>
      if header.height ≠ client.trustedHeight + 1 then
        (.error (.notAdjacent header.height client.trustedHeight), client)
      else if header.parentHash ≠ trusted then
        (.error (.parentMismatch trusted header.parentHash), client)
      else if qc.blockHash ≠ header.hash then
        (.error (.qcHashMismatch header.hash qc.blockHash), client)
      else
        match client.checkCertificateLoop c qc with
        | .error err => (.error err, client)
        | .ok () =>
          let client := { client with trustedHeight := header.height }
          let client := { client with trustedHash := some header.hash }
          (.ok (), client)

/-- `update_validator_set` on a client. -/
def updateValidatorSetCall (client : LightClient) (vs : ValidatorSet) (height : ℕ)
    (hash : BlockHash) : Except LightError Unit × LightClient :=
  if height < client.trustedHeight then (.error (.regression client.trustedHeight height), client)
  else
    let client := { client with trustedValidatorSet := vs }
    let client := { client with trustedHeight := height, trustedHash := some hash }
    (.ok (), client)

/-- A call and its result. -/
def perform (client : LightClient) : LightCall → Except LightError Unit × LightClient
  | .verifyHeader c header qc => client.verifyHeaderCall c header qc
  | .updateValidatorSet vs height hash => client.updateValidatorSetCall vs height hash

/-- The client after calls. -/
def performAll (client : LightClient) (calls : List LightCall) : LightClient :=
  calls.foldl (fun client call => (client.perform call).2) client

/-- The call is the function of the model, which has no client to write to. -/
lemma verifyHeaderCall_eq (c : Crypto) (client : LightClient) (header : BlockHeader)
    (qc : QuorumCertificate) : client.verifyHeaderCall c header qc
      = match client.verifyHeader c header qc with
        | .error err => (.error err, client)
        | .ok client' => (.ok (), client') := by
  unfold verifyHeaderCall verifyHeader
  rw [checkCertificateLoop_eq]
  split
  · rfl
  cases client.trustedHash with
  | none => rfl
  | some trusted =>
    dsimp only
    split_ifs
    · rfl
    · rfl
    · rfl
    · cases client.checkCertificate c qc <;> rfl

lemma updateValidatorSetCall_eq (client : LightClient) (vs : ValidatorSet) (height : ℕ)
    (hash : BlockHash) : client.updateValidatorSetCall vs height hash
      = match client.updateValidatorSet vs height hash with
        | .error err => (.error err, client)
        | .ok client' => (.ok (), client') := by
  unfold updateValidatorSetCall updateValidatorSet
  split_ifs <;> rfl

/-- The header extends the block the client trusts, with a certificate of the trusted set. -/
structure Extends (c : Crypto) (client : LightClient) (header : BlockHeader)
    (qc : QuorumCertificate) : Prop where
  height : header.height = client.trustedHeight + 1
  parent : client.trustedHash = some header.parentHash
  hash : qc.blockHash = header.hash
  certified : Certified c client.chainIdHash client.trustedValidatorSet qc

/-- **All that a call can do**: fail and change nothing, accept a header that extends the
trusted block, or move to a set and checkpoint that is not below. -/
lemma perform_cases (client : LightClient) (call : LightCall) :
    ((∃ err, (client.perform call).1 = .error err) ∧ (client.perform call).2 = client)
    ∨ (∃ c header qc, call = .verifyHeader c header qc ∧ client.Extends c header qc
      ∧ client.perform call = (.ok (), { client with
          trustedHeight := header.height, trustedHash := some header.hash }))
    ∨ ∃ vs height hash, call = .updateValidatorSet vs height hash ∧ client.trustedHeight ≤ height
      ∧ client.perform call = (.ok (), ⟨vs, height, some hash, client.chainIdHash⟩) := by
  cases call with
  | verifyHeader c header qc =>
    rw [perform, verifyHeaderCall_eq]
    cases hverify : client.verifyHeader c header qc with
    | error err => exact .inl ⟨⟨err, rfl⟩, rfl⟩
    | ok client' =>
      obtain ⟨hheight, hparent, hhash, hcert, rfl⟩ := verifyHeader_ok hverify
      obtain ⟨hquorum, hlength, hsigned⟩ := checkCertificate_ok hcert
      have hcertified := certified_iff.mpr ⟨hlength, hsigned, hquorum⟩
      exact .inr (.inl ⟨c, header, qc, rfl, ⟨hheight, hparent, hhash, hcertified⟩, rfl⟩)
  | updateValidatorSet vs height hash =>
    rw [perform, updateValidatorSetCall_eq, updateValidatorSet]
    split_ifs with hlt
    · exact .inl ⟨⟨_, rfl⟩, rfl⟩
    · exact .inr (.inr ⟨vs, height, hash, rfl, Nat.le_of_not_lt hlt, rfl⟩)

/-- The trusted height never decreases. -/
lemma trustedHeight_perform (client : LightClient) (call : LightCall) :
    client.trustedHeight ≤ (client.perform call).2.trustedHeight := by
  rcases client.perform_cases call with ⟨-, hsame⟩ | ⟨c, header, qc, -, hext, heq⟩
    | ⟨vs, height, hash, -, hle, heq⟩
  · rw [hsame]
  · rw [heq]
    have hheight := hext.height
    dsimp only
    omega
  · rw [heq]
    exact hle

lemma trustedHeight_performAll (client : LightClient) (calls : List LightCall) :
    client.trustedHeight ≤ (client.performAll calls).trustedHeight := by
  induction calls generalizing client with
  | nil => exact le_rfl
  | cons call calls ih => exact (client.trustedHeight_perform call).trans (ih _)

end LightClient

/-! ### Sessions -/

/-- An accepted header, with the client that accepted it. -/
structure AcceptedHeader where
  before : LightClient
  crypto : Crypto
  header : BlockHeader
  qc : QuorumCertificate

/-- A client, what it was after the last change of its validator set, and the headers it has
accepted since. -/
structure Session where
  base : LightClient
  accepted : List AcceptedHeader
  client : LightClient

namespace Session

/-- A session without calls. -/
def start (client : LightClient) : Session := ⟨client, [], client⟩

/-- One call: an accepted header is recorded, a new validator set starts afresh. -/
def step (s : Session) (call : LightCall) : Session :=
  match (s.client.perform call).1, call with
  | .error _, _ => { s with client := (s.client.perform call).2 }
  | .ok (), .verifyHeader c header qc =>
    { s with
      accepted := s.accepted ++ [⟨s.client, c, header, qc⟩]
      client := (s.client.perform call).2 }
  | .ok (), .updateValidatorSet .. => start (s.client.perform call).2

/-- The hash that is trusted after the first `n` accepted headers. -/
def hashAfter (s : Session) (n : ℕ) : Option BlockHash :=
  match (s.accepted.take n).getLast? with
  | some a => some a.header.hash
  | none => s.base.trustedHash

/-- The accepted headers are a chain on the block that was trusted at the last change of the
validator set, and each has a certificate of the set that was trusted when it was accepted,
which is the one set since that change. -/
structure Chained (s : Session) : Prop where
  height : s.client.trustedHeight = s.base.trustedHeight + s.accepted.length
  hash : s.client.trustedHash = s.hashAfter s.accepted.length
  set : s.client.trustedValidatorSet = s.base.trustedValidatorSet
  links : ∀ i a, s.accepted[i]? = some a → a.header.height = s.base.trustedHeight + (i + 1)
    ∧ s.hashAfter i = some a.header.parentHash
    ∧ a.before.trustedValidatorSet = s.base.trustedValidatorSet
    ∧ a.before.Extends a.crypto a.header a.qc

lemma chained_start (client : LightClient) : (start client).Chained where
  height := rfl
  hash := rfl
  set := rfl
  links i a ha := absurd ha (by simp [start])

/-- Recording a header does not change what was trusted before. -/
lemma hashAfter_append (s : Session) (a : AcceptedHeader) (client : LightClient) {n : ℕ}
    (hn : n ≤ s.accepted.length) :
    hashAfter ⟨s.base, s.accepted ++ [a], client⟩ n = s.hashAfter n := by
  unfold hashAfter
  rw [take_append_of_le_length hn]

/-- **One call keeps the chain.** -/
lemma Chained.step {s : Session} (h : s.Chained) (call : LightCall) : (s.step call).Chained := by
  rcases s.client.perform_cases call with ⟨⟨err, herr⟩, hsame⟩ | ⟨c, header, qc, rfl, hext, heq⟩
    | ⟨vs, height, hash, rfl, -, heq⟩
  · have hstep : s.step call = s := by
      unfold Session.step
      rw [herr, hsame]
    rw [hstep]
    exact h
  · have hstep : s.step (.verifyHeader c header qc)
        = ⟨s.base, s.accepted ++ [⟨s.client, c, header, qc⟩], { s.client with
            trustedHeight := header.height, trustedHash := some header.hash }⟩ := by
      unfold Session.step
      rw [heq]
    rw [hstep]
    refine ⟨?_, ?_, h.set, ?_⟩
    · rw [length_append, length_singleton, ← Nat.add_assoc, ← h.height]
      exact hext.height
    · unfold hashAfter
      rw [take_length, getLast?_concat]
    · intro i a ha
      rcases Nat.lt_trichotomy i s.accepted.length with hlt | rfl | hgt
      · rw [getElem?_append_left hlt] at ha
        rw [hashAfter_append _ _ _ (Nat.le_of_lt hlt)]
        exact h.links i a ha
      · rw [getElem?_append_right (le_rfl), Nat.sub_self] at ha
        cases ha
        rw [hashAfter_append _ _ _ (le_rfl), ← h.hash]
        refine ⟨?_, hext.parent, h.set, hext⟩
        rw [← Nat.add_assoc, ← h.height]
        exact hext.height
      · have hnone : (s.accepted ++ [⟨s.client, c, header, qc⟩])[i]? = none :=
          getElem?_eq_none (by rw [length_append, length_singleton]; omega)
        rw [hnone] at ha
        cases ha
  · have hstep : s.step (.updateValidatorSet vs height hash)
        = start ⟨vs, height, some hash, s.client.chainIdHash⟩ := by
      unfold Session.step
      rw [heq]
    rw [hstep]
    exact chained_start _

/-- The session of a sequence of calls. -/
def run (client : LightClient) (calls : List LightCall) : Session :=
  calls.foldl step (start client)

lemma chained_run (client : LightClient) (calls : List LightCall) : (run client calls).Chained := by
  suffices h : ∀ s : Session, s.Chained → (calls.foldl step s).Chained from
    h _ (chained_start client)
  intro s hs
  induction calls generalizing s with
  | nil => exact hs
  | cons call calls ih => exact ih _ (hs.step call)

/-- The session's client is the client. -/
lemma client_run (client : LightClient) (calls : List LightCall) :
    (run client calls).client = client.performAll calls := by
  suffices h : ∀ s : Session, (calls.foldl step s).client = s.client.performAll calls from
    h (start client)
  intro s
  induction calls generalizing s with
  | nil => rfl
  | cons call calls ih =>
    have hstep : (s.step call).client = (s.client.perform call).2 := by
      unfold Session.step start
      split <;> rfl
    rw [foldl_cons, ih, hstep]
    rfl

end Session

/-- **Light client trust chain.**  After every sequence of calls, with any arguments: the
trusted height has not decreased, neither over the sequence nor over a call; a call that fails
leaves the client as it was; and the headers accepted since the last change of the validator
set have consecutive heights from the checkpoint of that change, the parent of each is the hash
trusted before it, its certificate is for its hash, and certified by the set that was trusted
when it was accepted. -/
theorem LightClient.trust_chain (client : LightClient) (calls : List LightCall) :
    client.trustedHeight ≤ (client.performAll calls).trustedHeight
    ∧ (∀ (state : LightClient) (call : LightCall),
        state.trustedHeight ≤ (state.perform call).2.trustedHeight)
    ∧ (∀ (state : LightClient) (call : LightCall) (err : LightError),
        (state.perform call).1 = .error err → (state.perform call).2 = state)
    ∧ (Session.run client calls).client = client.performAll calls
    ∧ ∀ i a, (Session.run client calls).accepted[i]? = some a →
        a.header.height = (Session.run client calls).base.trustedHeight + (i + 1)
        ∧ (Session.run client calls).hashAfter i = some a.header.parentHash
        ∧ a.before.trustedHash = some a.header.parentHash
        ∧ a.qc.blockHash = a.header.hash
        ∧ a.before.trustedValidatorSet = (Session.run client calls).base.trustedValidatorSet
        ∧ Certified a.crypto a.before.chainIdHash a.before.trustedValidatorSet a.qc := by
  refine ⟨client.trustedHeight_performAll calls, trustedHeight_perform, ?_,
    Session.client_run client calls, ?_⟩
  · intro state call err herr
    rcases state.perform_cases call with ⟨-, hsame⟩ | ⟨c, header, qc, -, -, heq⟩
      | ⟨vs, height, hash, -, -, heq⟩
    · exact hsame
    · rw [heq] at herr
      cases herr
    · rw [heq] at herr
      cases herr
  · intro i a ha
    obtain ⟨hheight, hparent, hset, hext⟩ := (Session.chained_run client calls).links i a ha
    exact ⟨hheight, hparent, hext.parent, hext.hash, hset, hext.certified⟩

end Hotmint
