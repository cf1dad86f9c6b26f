/-
The commit log on disk (`hotmint-storage/src/wal.rs`), byte by byte.

* `Postcard`: the serialisation of entries, a parameter;
* `encodeEntry`, `decodeEntry`: the frame of an entry, and its parser;
* `WalFile`, `logCommitIntent`, `logCommitDone`: the open log;
* `checkRecoveryPath`: the startup check, with what it leaves of the file;
* `walFraming`: **the parser recognises every entry and every beginning of one**;
* `Crash`: what a crash during a call leaves;
* `wal_recovery`: the check after a crash.
-/
import Hotmint.Consensus.Commit
import Hotmint.Library.Framing

namespace Hotmint.Storage

open List Option

/-! ### Entries -/

/-- The height that an entry names. -/
def targetHeight : WalEntry → ℕ
  | .commitIntent height => height
  | .commitDone height => height

/-- `postcard`, for entries whose height is a `u64`: decoding gives back what was encoded,
and an encoded entry is short. -/
structure Postcard where
  toAllocvec : WalEntry → Bytes
  fromBytes : Bytes → Option WalEntry
  roundTrip : ∀ entry, targetHeight entry < 2 ^ 64 → fromBytes (toAllocvec entry) = some entry
  length_lt : ∀ entry, targetHeight entry < 2 ^ 64 → (toAllocvec entry).length < 2 ^ 32

/-- `ENTRY_MAGIC`, "WAL1". -/
def entryMagic : Bytes := [0x57, 0x41, 0x4C, 0x31]

/-- `u32::to_le_bytes`. -/
def u32ToLeBytes (n : ℕ) : Bytes :=
  [UInt8.ofNat n, UInt8.ofNat (n / 256), UInt8.ofNat (n / 256 / 256),
    UInt8.ofNat (n / 256 / 256 / 256)]

/-- `u32::from_le_bytes` on a slice of four bytes. -/
def u32FromSlice : Bytes → ℕ
  | [b₀, b₁, b₂, b₃] => u32FromLeBytes b₀ b₁ b₂ b₃
  | _ => 0

lemma u32FromSlice_toLeBytes {n : ℕ} (h : n < 2 ^ 32) : u32FromSlice (u32ToLeBytes n) = n := by
  simp only [u32ToLeBytes, u32FromSlice, u32FromLeBytes, UInt8.toNat_ofNat']
  omega

variable (c : Postcard)

/-- What `write_entry` writes. -/
def encodeEntry (entry : WalEntry) : Bytes :=
  entryMagic ++ (u32ToLeBytes (c.toAllocvec entry).length ++ c.toAllocvec entry)

/-- `decode_entry`. -/
def decodeEntry (buf : Bytes) : Parsed WalEntry :=
  if buf.length < 4 then
    if buf.isPrefixOf entryMagic then .truncated else .invalid
  else if buf.take 4 ≠ entryMagic then .invalid
  else if buf.length < 8 then .truncated
  else
    let len := u32FromSlice ((buf.drop 4).take 4)
    if buf.length < 8 + len then .truncated
    else
      match c.fromBytes ((buf.drop 8).take len) with
      | none => .invalid
      | some entry => .item entry (8 + len)

/-! ### The open log -/

/-- An open file: its bytes, and the position of the next write. -/
structure WalFile where
  bytes : Bytes
  position : ℕ
deriving DecidableEq

namespace WalFile

/-- `ConsensusWal::open`: the position is the end of the file. -/
def openAt (bytes : Bytes) : WalFile := ⟨bytes, bytes.length⟩

/-- `write_all`. -/
def writeAll (f : WalFile) (data : Bytes) : WalFile where
  bytes := f.bytes.take f.position ++ data ++ f.bytes.drop (f.position + data.length)
  position := f.position + data.length

/-- `write_entry`: the magic, the length and the payload. -/
def writeEntry (f : WalFile) (entry : WalEntry) : WalFile :=
  let payload := c.toAllocvec entry
  ((f.writeAll entryMagic).writeAll (u32ToLeBytes payload.length)).writeAll payload

/-- `truncate`. -/
def truncate (_f : WalFile) : WalFile := ⟨[], 0⟩

/-- `log_commit_intent`. -/
def logCommitIntent (f : WalFile) (targetHeight : ℕ) : WalFile :=
  f.writeEntry c (.commitIntent targetHeight)

/-- `log_commit_done`. -/
def logCommitDone (f : WalFile) (targetHeight : ℕ) : WalFile :=
  (f.writeEntry c (.commitDone targetHeight)).truncate

end WalFile

/-! ### The startup check -/

/-- The errors of the check: `corrupt or truncated WAL entry at byte offset …`. -/
inductive WalError
  | corrupt (offset : ℕ)
deriving DecidableEq, Repr

/-- The end of `check_recovery_path`, on the last entry and the bytes that are left. -/
def settleRecovery (committed : Option ℕ) (bytes : Bytes) :
    Option WalEntry → Except WalError WalRecovery × Option Bytes
  | some (.commitIntent targetHeight) =>
    if committed.any (targetHeight ≤ ·) then (.ok .clean, some [])
    else (.ok (.needsReplay targetHeight), some bytes)
  | some (.commitDone _) => (.ok .clean, some [])
  | none => (.ok .clean, some bytes)

/-- `check_recovery_path`, on a file that may be missing; it also returns what it leaves of
the file. -/
def checkRecoveryPath (file : Option Bytes) (committed : Option ℕ) :
    Except WalError WalRecovery × Option Bytes :=
  match file with
  | none => (.ok .clean, none)
  | some buf =>
    match scan (decodeEntry c) buf buf.length 0 none with
    | .complete last => settleRecovery committed buf last
    | .torn last offset => settleRecovery committed (buf.take offset) last
    | .corrupt offset => (.error (.corrupt offset), some buf)

/-! ### The frames -/

lemma length_entryMagic : entryMagic.length = 4 := rfl

lemma length_u32ToLeBytes (n : ℕ) : (u32ToLeBytes n).length = 4 := rfl

lemma length_encodeEntry (entry : WalEntry) :
    (encodeEntry c entry).length = 8 + (c.toAllocvec entry).length := by
  rw [encodeEntry, length_append, length_append, length_entryMagic, length_u32ToLeBytes]
  omega

/-- A whole frame is parsed. -/
lemma decodeEntry_encodeEntry {entry : WalEntry} (h : targetHeight entry < 2 ^ 64) (rest : Bytes) :
    decodeEntry c (encodeEntry c entry ++ rest) = .item entry (encodeEntry c entry).length := by
  have hlength := length_encodeEntry c entry
  have hmagic : (encodeEntry c entry ++ rest).take 4 = entryMagic := rfl
  have hlen : ((encodeEntry c entry ++ rest).drop 4).take 4
      = u32ToLeBytes (c.toAllocvec entry).length := rfl
  have hpayload : (encodeEntry c entry ++ rest).drop 8 = c.toAllocvec entry ++ rest := rfl
  have htotal : (encodeEntry c entry ++ rest).length = 8 + (c.toAllocvec entry).length +
    rest.length := by
    rw [length_append, hlength]
  unfold decodeEntry
  dsimp only
  rw [hmagic, hlen, hpayload, htotal, u32FromSlice_toLeBytes (c.length_lt entry h),
    if_neg (by omega), if_neg (not_not.mpr rfl), if_neg (by omega), if_neg (by omega),
    take_left, c.roundTrip entry h, hlength]

/-- **The beginning of a frame is seen to be torn.** -/
lemma decodeEntry_torn {entry : WalEntry} (h : targetHeight entry < 2 ^ 64) {tail : Bytes}
    (hpre : tail <+: encodeEntry c entry) (hne : tail ≠ encodeEntry c entry) :
    decodeEntry c tail = .truncated := by
  have hlength := length_encodeEntry c entry
  have hshort : tail.length < (encodeEntry c entry).length :=
    Nat.lt_of_le_of_ne hpre.length_le fun heq => hne (hpre.eq_of_length heq)
  unfold decodeEntry
  dsimp only
  by_cases hfour : tail.length < 4
  · have hprefix : tail.isPrefixOf entryMagic = true :=
      isPrefixOf_iff_prefix.mpr (prefix_of_prefix_length_le hpre
        (prefix_append entryMagic _) (Nat.le_of_lt hfour))
    rw [if_pos hfour, if_pos hprefix]
  · obtain ⟨rest, hrest⟩ := hpre
    have hmagic : tail.take 4 = entryMagic := by
      have htake := congrArg (take 4) hrest
      rwa [take_append_of_le_length (Nat.le_of_not_lt hfour)] at htake
    rw [if_neg hfour, if_neg (not_not.mpr hmagic)]
    by_cases height : tail.length < 8
    · rw [if_pos height]
    · -- the length is there, but not all of the payload
      have hlen : (tail.drop 4).take 4 = u32ToLeBytes (c.toAllocvec entry).length := by
        have htake := congrArg (fun bytes => (drop 4 bytes).take 4) hrest
        rwa [drop_append_of_le_length (by omega), take_append_of_le_length
          (by rw [length_drop]; omega)] at htake
      rw [if_neg height, hlen, u32FromSlice_toLeBytes (c.length_lt entry h), if_pos (by omega)]

/-- **The frames of the log.** -/
def walFraming : Framing WalEntry UInt8 where
  valid entry := targetHeight entry < 2 ^ 64
  encode := encodeEntry c
  parse := decodeEntry c
  encode_ne_nil entry _ h := by
    have hlength := congrArg length h
    rw [length_encodeEntry, length_nil] at hlength
    omega
  parse_encode _ h rest := decodeEntry_encodeEntry c h rest
  parse_torn _ h _ _ hpre hne := decodeEntry_torn c h hpre hne

/-! ### Calls and crashes -/

/-- A call of the log. -/
inductive WalCall
  | intent (targetHeight : ℕ)
  | done (targetHeight : ℕ)
deriving DecidableEq, Repr

/-- The entry that a call writes. -/
def WalCall.entry : WalCall → WalEntry
  | .intent height => .commitIntent height
  | .done height => .commitDone height

/-- A call that returns. -/
def WalFile.perform (f : WalFile) : WalCall → WalFile
  | .intent height => f.logCommitIntent c height
  | .done height => f.logCommitDone c height

/-- Calls that return, one after the other. -/
def WalFile.performAll (f : WalFile) (calls : List WalCall) : WalFile :=
  calls.foldl (WalFile.perform c) f

/-- The bytes that a crash during a call leaves: any prefix of the write behind what was
there, or any prefix of what is being truncated. -/
inductive Crash (f : WalFile) : WalCall → Bytes → Prop
  | write (call : WalCall) (n : ℕ) :
      Crash f call (f.writeAll ((encodeEntry c call.entry).take n)).bytes
  | truncation (height n : ℕ) :
      Crash f (.done height) ((f.writeEntry c (.commitDone height)).bytes.take n)

/-- The entries in the log after some calls: those since the last truncation. -/
def logged (calls : List WalCall) : List WalEntry :=
  calls.foldl (fun entries call =>
    match call with
    | .intent height => entries ++ [.commitIntent height]
    | .done _ => []) []

/-- At the end of the file a write appends. -/
lemma writeAll_openAt (bytes data : Bytes) :
    (WalFile.openAt bytes).writeAll data = WalFile.openAt (bytes ++ data) := by
  unfold WalFile.writeAll WalFile.openAt
  dsimp only
  rw [take_length, drop_of_length_le (Nat.le_add_right _ _), append_nil, length_append]

lemma writeEntry_openAt (bytes : Bytes) (entry : WalEntry) :
    (WalFile.openAt bytes).writeEntry c entry = WalFile.openAt (bytes ++ encodeEntry c entry) := by
  unfold WalFile.writeEntry
  dsimp only
  rw [writeAll_openAt, writeAll_openAt, writeAll_openAt, encodeEntry, append_assoc, append_assoc]

/-- **The file has the frames of the entries.** -/
lemma performAll_eq (calls : List WalCall) : (WalFile.openAt []).performAll c calls
      = WalFile.openAt ((walFraming c).encodeAll (logged calls)) := by
  induction calls using reverseRecOn with
  | nil => rfl
  | append_singleton calls call ih =>
    unfold WalFile.performAll logged at ih ⊢
    rw [foldl_append, foldl_cons, foldl_nil, ih, foldl_append, foldl_cons, foldl_nil]
    cases call with
    | intent height =>
      rw [WalFile.perform, WalFile.logCommitIntent, writeEntry_openAt, Framing.encodeAll_append]
      simp [walFraming]
    | done height => rfl

/-- A crash leaves a prefix of the log with the entry of the call. -/
lemma Crash.eq_take {calls : List WalCall} {call : WalCall} {bytes : Bytes}
    (h : Crash c ((WalFile.openAt []).performAll c calls) call bytes) :
    ∃ n, bytes = ((walFraming c).encodeAll (logged calls ++ [call.entry])).take n := by
  have hlog : (walFraming c).encodeAll (logged calls ++ [call.entry])
      = (walFraming c).encodeAll (logged calls) ++ encodeEntry c call.entry := by
    rw [Framing.encodeAll_append, Framing.encodeAll_cons, Framing.encodeAll_nil, append_nil]
    rfl
  rw [performAll_eq] at h
  cases h with
  | write call n =>
    refine ⟨((walFraming c).encodeAll (logged calls)).length + n, ?_⟩
    rw [hlog, writeAll_openAt, take_length_add_append]
    rfl
  | truncation height n =>
    refine ⟨n, ?_⟩
    rw [hlog, writeEntry_openAt]
    rfl

lemma mem_logged {calls : List WalCall} {entry : WalEntry} (h : entry ∈ logged calls) :
    ∃ call ∈ calls, entry = call.entry := by
  unfold logged at h
  induction calls using reverseRecOn with
  | nil => exact (not_mem_nil h).elim
  | append_singleton calls call ih =>
    rw [foldl_append, foldl_cons, foldl_nil] at h
    cases call with
    | intent height =>
      rcases mem_append.mp h with h | h
      · obtain ⟨call, hcall, heq⟩ := ih h
        exact ⟨call, mem_append_left _ hcall, heq⟩
      · exact ⟨.intent height, mem_concat_self, mem_singleton.mp h⟩
    | done height => exact (not_mem_nil h).elim

/-! ### Recovery -/

/-- **The check on a log with a torn tail** goes by the last whole entry, and cuts the tail
off. -/
lemma checkRecoveryPath_log {entries : List WalEntry}
    (h : ∀ entry ∈ entries, targetHeight entry < 2 ^ 64) {tail : Bytes}
    (htail : (walFraming c).Torn tail) (committed : Option ℕ) :
    checkRecoveryPath c (some ((walFraming c).encodeAll entries ++ tail)) committed
      = settleRecovery committed ((walFraming c).encodeAll entries) entries.getLast? := by
  have hscan := (walFraming c).scan_log h htail [] none (le_rfl)
  rw [nil_append, or_none, length_nil, Nat.zero_add] at hscan
  unfold checkRecoveryPath
  dsimp only
  rw [show scan (decodeEntry c) _ _ 0 none = _ from hscan]
  by_cases hnil : tail = []
  · rw [if_pos hnil, hnil, append_nil]
  · rw [if_neg hnil]
    dsimp only
    rw [take_left]

/-- Against a committed height, the check on the bytes is the check on the entries. -/
lemma settleRecovery_eq (entries : List WalEntry) (bytes : Bytes) (committedHeight : ℕ) :
    (settleRecovery (some committedHeight) bytes entries.getLast?).1
      = .ok (checkRecovery entries committedHeight) := by
  unfold settleRecovery checkRecovery
  cases entries.getLast? with
  | none => rfl
  | some entry =>
    cases entry with
    | commitDone height => rfl
    | commitIntent height =>
      dsimp only [any_some]
      by_cases hle : height ≤ committedHeight
      · rw [if_pos (decide_eq_true hle), if_pos hle]
      · rw [if_neg (fun hdec => hle (of_decide_eq_true hdec)), if_neg hle]

/-- The answer, what is left of the file, and that a second check gives the same answer. -/
lemma settleRecovery_spec {entries : List WalEntry}
    (h : ∀ entry ∈ entries, targetHeight entry < 2 ^ 64) (committed : Option ℕ) : ∃ answer left,
      settleRecovery committed ((walFraming c).encodeAll entries) entries.getLast?
          = (.ok answer, some left)
        ∧ (∀ height, answer = .needsReplay height ↔
          entries.getLast? = some (.commitIntent height) ∧ ∀ n ∈ committed, n < height)
        ∧ (checkRecoveryPath c (some left) committed).1 = .ok answer := by
  have hempty : (checkRecoveryPath c (some []) committed).1 = .ok .clean := rfl
  have hsame : checkRecoveryPath c (some ((walFraming c).encodeAll entries)) committed
      = settleRecovery committed ((walFraming c).encodeAll entries) entries.getLast? := by
    have hlog := checkRecoveryPath_log c h (.inl rfl) committed
    rwa [append_nil] at hlog
  cases hlast : entries.getLast? with
  | none =>
    rw [hlast] at hsame
    refine ⟨.clean, _, rfl, fun height => ⟨fun hanswer => ?_, fun hand => ?_⟩, ?_⟩
    · cases hanswer
    · cases hand.1
    · rw [hsame]
      rfl
  | some entry =>
    rw [hlast] at hsame
    cases entry with
    | commitDone target =>
      refine ⟨.clean, [], rfl, fun height => ⟨fun hanswer => ?_, fun hand => ?_⟩, hempty⟩
      · cases hanswer
      · cases hand.1
    | commitIntent target =>
      unfold settleRecovery at hsame ⊢
      dsimp only at hsame ⊢
      by_cases hstale : committed.any (target ≤ ·) = true
      · rw [if_pos hstale]
        refine ⟨.clean, [], rfl, fun height => ⟨fun hanswer => ?_, fun hand => ?_⟩, hempty⟩
        · cases hanswer
        · obtain ⟨n, hn, hle⟩ := (any_eq_true _ _).mp hstale
          have hlt := hand.2 n hn
          obtain rfl : target = height := WalEntry.commitIntent.inj (some.inj hand.1)
          exact absurd hlt (Nat.not_lt_of_le (of_decide_eq_true hle))
      · rw [if_neg hstale] at hsame ⊢
        refine ⟨.needsReplay target, _, rfl, fun height => ⟨fun hanswer => ?_, fun hand => ?_⟩, ?_⟩
        · obtain rfl : target = height := WalRecovery.needsReplay.inj hanswer
          refine ⟨rfl, fun n hn => Nat.lt_of_not_le fun hle => hstale ?_⟩
          exact (any_eq_true _ _).mpr ⟨n, hn, decide_eq_true hle⟩
        · rw [WalEntry.commitIntent.inj (some.inj hand.1)]
        · rw [hsame]

/-- **Recovery after a crash.**  After every sequence of calls and a crash that leaves any
prefix of the last write or truncation, and for every committed height (or none): the file
is a log and a torn tail; the check does not report corruption; it asks for a replay up to a
height exactly when the last whole entry is an intent for this height and the height is above
the committed one; and on the file that it leaves it gives the same answer again. -/
theorem wal_recovery (calls : List WalCall) (call : WalCall)
    (hheights : ∀ w ∈ calls ++ [call], targetHeight w.entry < 2 ^ 64) {bytes : Bytes}
    (hcrash : Crash c ((WalFile.openAt []).performAll c calls) call bytes) (committed : Option ℕ) :
    ∃ entries tail answer left, entries <+: logged calls ++ [call.entry] ∧ (walFraming c).Torn tail
        ∧ bytes = (walFraming c).encodeAll entries ++ tail
        ∧ checkRecoveryPath c (some bytes) committed = (.ok answer, some left)
        ∧ (∀ height, answer = .needsReplay height ↔
          entries.getLast? = some (.commitIntent height) ∧ ∀ n ∈ committed, n < height)
        ∧ (checkRecoveryPath c (some left) committed).1 = .ok answer := by
  have hvalid : ∀ entry ∈ logged calls ++ [call.entry], targetHeight entry < 2 ^ 64 := by
    intro entry hentry
    rcases mem_append.mp hentry with hentry | hentry
    · obtain ⟨w, hw, rfl⟩ := mem_logged hentry
      exact hheights w (mem_append_left _ hw)
    · rw [mem_singleton.mp hentry]
      exact hheights call (mem_append_right _ (mem_singleton.mpr rfl))
  obtain ⟨n, rfl⟩ := hcrash.eq_take
  obtain ⟨entries, tail, hentries, htail, heq⟩ := (walFraming c).take_encodeAll hvalid n
  have hvalid' : ∀ entry ∈ entries, targetHeight entry < 2 ^ 64 :=
    fun entry hentry => hvalid entry (hentries.subset hentry)
  obtain ⟨answer, left, hanswer, hreplay, hagain⟩ := settleRecovery_spec c hvalid' committed
  refine ⟨entries, tail, answer, left, hentries, htail, heq, ?_, hreplay, hagain⟩
  rw [heq, checkRecoveryPath_log c hvalid' htail]
  exact hanswer

/-- A serialisation of entries: a tag and the eight bytes of the height. -/
def fixedPostcard : Postcard where
  toAllocvec
    | .commitIntent height => 0 :: (u32ToLeBytes height ++ u32ToLeBytes (height / 2 ^ 32))
    | .commitDone height => 1 :: (u32ToLeBytes height ++ u32ToLeBytes (height / 2 ^ 32))
  fromBytes
    | tag :: b₀ :: b₁ :: b₂ :: b₃ :: b₄ :: b₅ :: b₆ :: b₇ :: [] =>
      let height := u32FromLeBytes b₀ b₁ b₂ b₃ + 2 ^ 32 * u32FromLeBytes b₄ b₅ b₆ b₇
      if tag = 0 then some (.commitIntent height)
      else if tag = 1 then some (.commitDone height)
      else none
    | _ => none
  roundTrip entry h := by
    cases entry with
    | commitIntent height =>
      have hheight : height < 2 ^ 64 := h
      simp only [u32ToLeBytes, u32FromLeBytes, UInt8.toNat_ofNat', cons_append,
        nil_append, if_true, some.injEq, WalEntry.commitIntent.injEq]
      omega
    | commitDone height =>
      have hheight : height < 2 ^ 64 := h
      have htag : (1 : UInt8) ≠ 0 := by decide
      simp only [u32ToLeBytes, u32FromLeBytes, UInt8.toNat_ofNat', cons_append,
        nil_append, htag, if_true, if_false, some.injEq, WalEntry.commitDone.injEq]
      omega
  length_lt entry _ := by
    cases entry <;> exact Nat.lt_of_le_of_lt (Nat.le_refl 9) (by decide)

/-- A crash in the middle of the second entry, and again after the check. -/
theorem wal_recovery_torn_done :
    let bytes := ((WalFile.openAt []).performAll fixedPostcard [.intent 5]).writeAll
      ((encodeEntry fixedPostcard (.commitDone 5)).take 7) |>.bytes
    bytes.length = 24 ∧ checkRecoveryPath fixedPostcard (some bytes) (some 4)
        = (.ok (.needsReplay 5), some (bytes.take 17))
      ∧ ∃ left, (checkRecoveryPath fixedPostcard (some bytes) (some 4)).2 = some left
        ∧ (checkRecoveryPath fixedPostcard (some left) (some 4)).1
          = (checkRecoveryPath fixedPostcard (some bytes) (some 4)).1 := by
  intro bytes
  refine ⟨by decide +kernel, by decide +kernel, ?_⟩
  obtain ⟨_, _, answer, left, -, -, -, hanswer, -, hagain⟩ := wal_recovery fixedPostcard
    [.intent 5] (.done 5) (by decide) (.write (.done 5) 7) (some 4)
  have hcheck : checkRecoveryPath fixedPostcard (some bytes) (some 4) = (.ok answer, some left) :=
    hanswer
  exact ⟨left, by rw [hcheck], by rw [hcheck]; exact hagain⟩

end Hotmint.Storage
