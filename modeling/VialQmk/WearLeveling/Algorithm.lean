import VialQmk.Library.BoundedLoop
import VialQmk.WearLeveling.LogEntry

/-!
# Wear leveling - the algorithm

The functions of {lit}`wear_leveling.c`, in the order of the file and without the
prefix {lit}`wear_leveling_`.  Each takes the state and returns its result together
with the new state.

Main results:

- Definition {lit}`writeRaw`: the loop that turns data into log entries.
- Definition {lit}`playbackLog`: the loop that replays the write log at boot.
- Definitions {lit}`init`, {lit}`erase`, {lit}`write` and {lit}`read`: the API.
-/

namespace VialQmk
namespace WearLeveling

/-- Run {lit}`f` unless the status so far already is the result. -/
def onSuccess (r : Status × State) (f : State → Status × State) : Status × State :=
  match r.1 with
  | .success => f r.2
  | _ => r

/-! ## Checksum -/

/-- {lit}`FNV1A_64_INIT` -/
def fnv1a64Init : UInt64 :=
  0xcbf29ce484222325

/-- {lit}`fnv_64a_buf` -/
def fnv64aBuf (buf : List UInt8) (hval : UInt64) : UInt64 :=
  buf.foldl (fun hval b =>
    let hval := hval ^^^ b.toUInt64
    hval + ((hval <<< 1) + (hval <<< 4) + (hval <<< 5) + (hval <<< 7) + (hval <<< 8) +
      (hval <<< 40))) hval

/-- The bytes of the member {lit}`raw64` of an entry, lowest byte first. -/
def raw64 (value : UInt64) : List UInt8 :=
  (List.range 8).map fun i => UInt8.ofNat (value.toNat >>> (8 * i))

/-- The bytes of the checksum of the logical data. -/
def checksum (c : Config) (cache : Memory UInt8) : List UInt8 :=
  raw64 (fnv64aBuf (cache.load 0 c.logicalSize) fnv1a64Init)

@[simp]
theorem checksum_length (c : Config) (cache : Memory UInt8) : (checksum c cache).length = 8 := by
  simp [checksum, raw64]

/-! ## Locking helpers -/

/-- {lit}`wear_leveling_unlock` -/
def unlock (s : State) : LockStatus × State :=
  if s.unlocked then (.unchanged, s)
  else
    let r := backingStoreUnlock s
    if r.1 then (.success, { r.2 with unlocked := true }) else (.failure, r.2)

/-- {lit}`wear_leveling_lock` -/
def lock (s : State) : LockStatus × State :=
  if s.unlocked then
    let r := backingStoreLock s
    if r.1 then (.success, { r.2 with unlocked := false }) else (.failure, r.2)
  else (.unchanged, s)

/-! ## Consolidated data -/

/-- {lit}`wear_leveling_clear_cache` -/
def clearCache (c : Config) (s : State) : State :=
  { s with cache := s.cache.fill 0 c.logicalSize 0, writeAddress := c.logStart }

/-- {lit}`wear_leveling_read_consolidated`.  The result of reading the checksum is
not looked at. -/
def readConsolidated (c : Config) (s : State) : Status × State :=
  let r := backingStoreReadBulk c 0 s.cache 0 (c.logicalSize / c.writeSize) s
  let s := { r.2.2 with cache := r.2.1 }
  if r.1 then
    let entry := backingStoreReadBulk c c.logicalSize s.stack 0 (8 / c.writeSize) s
    if entry.2.1.load 0 8 = checksum c s.cache then (.success, entry.2.2)
    else (.success, clearCache c entry.2.2)
  else (.failed, clearCache c s)

/-- {lit}`wear_leveling_write_consolidated`.  The write goes ahead when unlocking
fails. -/
def writeConsolidated (c : Config) (s : State) : Status × State :=
  let l := unlock s
  let r := backingStoreWriteBulk c 0 l.2.cache 0 (c.logicalSize / c.writeSize) l.2
  let r :=
    if r.1 then
      backingStoreWriteBulk c c.logicalSize (Memory.store (fun _ => 0) 0 (checksum c r.2.cache)) 0
        (8 / c.writeSize) r.2
    else r
  let s := if l.1 = .success then (lock r.2).2 else r.2
  (if r.1 then .consolidated else .failed, s)

/-- {lit}`wear_leveling_consolidate_force` -/
def consolidateForce (c : Config) (s : State) : Status × State :=
  let r := backingStoreErase c s
  if r.1 then
    let w := writeConsolidated c r.2
    (w.1, { w.2 with writeAddress := c.logStart })
  else (.failed, r.2)

/-- {lit}`wear_leveling_consolidate_if_needed` -/
def consolidateIfNeeded (c : Config) (s : State) : Status × State :=
  if c.backingSize ≤ s.writeAddress then consolidateForce c s else (.success, s)

/-! ## Appending to the write log -/

/-- {lit}`wear_leveling_append_raw` -/
def appendRaw (c : Config) (value : Word) (s : State) : Status × State :=
  let r := backingStoreWrite s.writeAddress value s
  if r.1 then
    consolidateIfNeeded c { r.2 with writeAddress := r.2.writeAddress + c.writeSize }
  else (.failed, r.2)

/-- {lit}`wear_leveling_write_raw_multibyte` -/
def writeRawMultibyte (c : Config) (address : ℕ) (value : List UInt8) (s : State) :
    Status × State :=
  let log := LogEntry.multibyteEntry address value
  if c.writeSize = 2 then
    onSuccess (appendRaw c (log.load 0 2) s) fun s =>
    onSuccess (appendRaw c (log.load 2 2) s) fun s =>
    onSuccess (if 1 < value.length then appendRaw c (log.load 4 2) s else (.success, s)) fun s =>
      if 3 < value.length then appendRaw c (log.load 6 2) s else (.success, s)
  else if c.writeSize = 4 then
    onSuccess (appendRaw c (log.load 0 4) s) fun s =>
      if 1 < value.length then appendRaw c (log.load 4 4) s else (.success, s)
  else appendRaw c (log.load 0 8) s

/-- The loop of {lit}`wear_leveling_write_raw`.  Each round takes at least one of the
remaining bytes, so their number bounds the rounds. -/
def writeRawLoop (c : Config) : ℕ → ℕ → List UInt8 → State → Status × State
  | 0, _, _, s => (.success, s)
  | n + 1, address, p, s =>
    if p = [] then (.success, s)
    else
      let v := (p[1]?.getD 0).toNat <<< 8 ||| (p[0]?.getD 0).toNat
      if c.writeSize = 2 ∧ 2 ≤ p.length ∧ address % 2 = 0 ∧ address < 16384 ∧ v ≤ 1 then
        onSuccess (appendRaw c ((LogEntry.makeWord01 address v).load 0 2) s) fun s =>
          writeRawLoop c n ((address + 2) % 2 ^ 32) (p.drop 2) s
      else if c.writeSize = 2 ∧ address < 64 then
        onSuccess
          (appendRaw c ((LogEntry.makeOptimized64 address (p[0]?.getD 0)).load 0 2) s) fun s =>
          writeRawLoop c n ((address + 1) % 2 ^ 32) (p.drop 1) s
      else
        let thisLength := min LogEntry.multibyteMaxBytes p.length
        onSuccess (writeRawMultibyte c address (p.take thisLength) s) fun s =>
          writeRawLoop c n ((address + thisLength) % 2 ^ 32) (p.drop thisLength) s

/-- {lit}`wear_leveling_write_raw` -/
def writeRaw (c : Config) (address : ℕ) (value : List UInt8) (s : State) : Status × State :=
  writeRawLoop c value.length address value s

/-! ## Log playback -/

/-- The local variables of {lit}`wear_leveling_playback_log`, and the state. -/
structure Playback where
  state : State
  status : Status
  cancelPlayback : Bool
  address : ℕ

/-- Stop the playback with a failure. -/
def Playback.fail (p : Playback) : Playback :=
  { p with cancelPlayback := true, status := .failed }

/-- Read the next word of the log into word {lit}`i` of the entry and go on, or stop
when the read fails.  This block stands four times in the source. -/
def fetch (c : Config) (i : ℕ) (log : LogEntry) (p : Playback)
    (next : LogEntry → Playback → Playback) : Playback :=
  let r := backingStoreRead c p.address log (c.writeSize * i) p.state
  if r.1 then next r.2.1 { p with state := r.2.2, address := p.address + c.writeSize }
  else Playback.fail { p with state := r.2.2 }

/-- {lit}`if (cond)` around {lit}`fetch`. -/
def fetchIf (cond : Prop) [Decidable cond] (c : Config) (i : ℕ) (log : LogEntry) (p : Playback)
    (next : LogEntry → Playback → Playback) : Playback :=
  if cond then fetch c i log p next else next log p

/-- {lit}`memcpy(&wear_leveling.cache[a], &log.raw8[3], l)` -/
def State.copyToCache (s : State) (a : ℕ) (log : LogEntry) (l : ℕ) : State :=
  { s with cache := s.cache.store a (log.load 3 l), trace := .memcpy a 3 l :: s.trace }

/-- {lit}`wear_leveling.cache[a] = v` -/
def State.setCache (s : State) (a : ℕ) (v : UInt8) : State :=
  { s with cache := s.cache.store a [v], trace := .assign a :: s.trace }

/-- The case {lit}`LOG_ENTRY_TYPE_MULTIBYTE` of the playback. -/
def playMultibyte (c : Config) (log : LogEntry) (p : Playback) : Playback :=
  fetchIf (c.writeSize = 2) c 1 log p fun log p =>
    let a := log.multibyteGetAddress
    let l := log.multibyteGetLength
    if c.logicalSize < a + l then p.fail
    else
      fetchIf (c.writeSize = 2 ∧ 1 < l) c 2 log p fun log p =>
      fetchIf (c.writeSize = 2 ∧ 3 < l) c 3 log p fun log p =>
      fetchIf (c.writeSize = 4 ∧ 1 < l) c 1 log p fun log p =>
        { p with state := p.state.copyToCache a log l }

/-- The case {lit}`LOG_ENTRY_TYPE_OPTIMIZED_64` of the playback. -/
def playOptimized64 (c : Config) (log : LogEntry) (p : Playback) : Playback :=
  let a := log.optimized64GetAddress
  let v := log.optimized64GetValue
  if c.logicalSize ≤ a then p.fail
  else { p with state := p.state.setCache a v }

/-- The case {lit}`LOG_ENTRY_TYPE_WORD_01` of the playback. -/
def playWord01 (c : Config) (log : LogEntry) (p : Playback) : Playback :=
  let a := log.word01GetAddress
  let v := log.word01GetValue
  if c.logicalSize ≤ a + 1 then p.fail
  else { p with state := (p.state.setCache (a + 0) v).setCache (a + 1) 0 }

/-- One round of the playback loop. -/
def playbackBody (c : Config) (p : Playback) : Playback :=
  let r := backingStoreRead c p.address p.state.stack 0 p.state
  let p := { p with state := r.2.2 }
  let log : LogEntry := r.2.1
  if r.1 then
    if log.IsEmpty c then { p with cancelPlayback := true }
    else
      let p := { p with address := p.address + c.writeSize }
      match log.getType with
      | .multibyte => playMultibyte c log p
      | .optimized64 => if c.writeSize = 2 then playOptimized64 c log p else p.fail
      | .word01 => if c.writeSize = 2 then playWord01 c log p else p.fail
      | .other => p.fail
  else p.fail

/-- The condition of the playback loop. -/
def playbackCond (c : Config) (p : Playback) : Bool :=
  !p.cancelPlayback && decide (p.address < c.backingSize)

/-- The playback before its first round. -/
def playbackStart (c : Config) (s : State) : Playback :=
  { state := s, status := .success, cancelPlayback := false, address := c.logStart }

/-- The playback loop.  Each round that does not stop it moves the address on, so the
size of the store bounds the rounds. -/
def playbackLoop (c : Config) (p : Playback) : Playback :=
  BoundedLoop.run (playbackCond c) (playbackBody c) c.backingSize p

/-- {lit}`wear_leveling_playback_log` -/
def playbackLog (c : Config) (s : State) : Status × State :=
  let p := playbackLoop c (playbackStart c s)
  let s := { p.state with writeAddress := p.address }
  if p.status = .failed then consolidateForce c s else consolidateIfNeeded c s

/-! ## The API -/

/-- {lit}`wear_leveling_init` -/
def init (c : Config) (s : State) : Status × State :=
  let r := backingStoreInit (clearCache c s)
  if r.1 then
    let r := readConsolidated c r.2
    if r.1 = .failed then (r.1, clearCache c r.2)
    else
      let r := playbackLog c r.2
      if r.1 = .failed then (r.1, clearCache c r.2) else r
  else (.failed, clearCache c r.2)

/-- {lit}`wear_leveling_erase` -/
def erase (c : Config) (s : State) : Status × State :=
  let l := unlock s
  if l.1 = .failure then (.failed, (lock l.2).2)
  else
    let r := backingStoreErase c l.2
    let s := clearCache c r.2
    if l.1 = .success then
      let k := lock s
      (if r.1 ∧ k.1 ≠ .failure then .success else .failed, k.2)
    else (if r.1 then .success else .failed, s)

/-- {lit}`wear_leveling_write` -/
def write (c : Config) (address : ℕ) (value : List UInt8) (s : State) : Status × State :=
  if c.logicalSize < (address + value.length) % 2 ^ 32 then (.failed, s)
  else if s.cache.load address value.length = value then (.success, s)
  else
    let s := { s with cache := s.cache.store address value }
    let l := unlock s
    if l.1 = .failure then (.failed, (lock l.2).2)
    else
      let r := onSuccess (writeRaw c address value l.2) (consolidateIfNeeded c)
      if l.1 = .success then
        let k := lock r.2
        (if k.1 = .failure then .failed else r.1, k.2)
      else r

/-- {lit}`wear_leveling_read` -/
def read (c : Config) (address length : ℕ) (s : State) : Status × List UInt8 :=
  if c.logicalSize < (address + length) % 2 ^ 32 then (.failed, [])
  else (.success, s.cache.load address length)

end WearLeveling
end VialQmk
