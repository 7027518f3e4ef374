import VialQmk.LegacyEeprom.Effects

/-!
# Legacy EEPROM - a boot finds what was written

A word of zero that is written by two byte entries may meet a full log at the first of them.
The compaction leaves its copy erased, and the second entry stays in the log.  The next word
that is programmed into the copy is then overwritten by that entry at the next boot, unless its
second byte is zero.

Main results:

- Definition {lit}`Call.Clean`: a call does not program such a word.
- Theorem {lit}`Call.run_effect`: the effect of a call.
- Theorem {lit}`persists`: what was written is read, before and after a boot.
-/

namespace VialQmk
namespace LegacyEeprom

open Function (update)

/-- A call of the driver. -/
inductive Call
  | byte (address : HalfWord) (dataByte : Byte)
  | word (address dataWord : HalfWord)

/-- A byte of a plain memory is written, when its address is in range. -/
def writeByte (c : Config) (contents : DataBuf) (address : ℕ) (value : Byte) : DataBuf :=
  if address < c.densityBytes then update contents address value else contents

namespace Call

/-- The call on the driver. -/
def run (c : Config) (s : State) : Call → State
  | byte address dataByte => (s.writeDataByte c address dataByte).1
  | word address dataWord => (s.writeDataWord c address dataWord).1

/-- The call on a plain memory. -/
def write (c : Config) (contents : DataBuf) : Call → DataBuf
  | byte address dataByte => writeByte c contents address.toNat dataByte
  | word address dataWord =>
    writeByte c (writeByte c contents address.toNat (dataWord.setWidth 8)) (address.toNat + 1)
      ((dataWord >>> 8).setWidth 8)

end Call

/-- A replay of the log stores a value at an address. -/
def Logged (c : Config) (flash : Flash) (address : ℕ) : Prop :=
  (replay c (logHalfWords c flash) c.writeLogBase fun _ => 0xFF).1 address ≠ 0xFF

/-- A value other than zero for the second byte of a word whose copy is erased has no entry for
that byte before it. -/
def CleanByte (c : Config) (s : State) (address : ℕ) (value : Byte) : Prop :=
  address % 2 = 1 → address < c.densityBytes → s.flash (address / 2) = feeEmptyWord →
    value ≠ 0 → ¬Logged c s.flash address

/-- The byte with an odd address that a call writes is clean. -/
def Call.Clean (c : Config) (s : State) : Call → Prop
  | byte address dataByte => CleanByte c s address.toNat dataByte
  | word address dataWord =>
    if address.toNat % 2 = 1 then CleanByte c s address.toNat (dataWord.setWidth 8)
    else CleanByte c s (address.toNat + 1) ((dataWord >>> 8).setWidth 8)

instance (c : Config) (flash : Flash) (address : ℕ) : Decidable (Logged c flash address) :=
  inferInstanceAs (Decidable (_ ≠ _))

instance (c : Config) (s : State) (address : ℕ) (value : Byte) :
    Decidable (CleanByte c s address value) :=
  inferInstanceAs (Decidable (_ → _ → _ → _ → ¬_))

instance (c : Config) (s : State) : (call : Call) → Decidable (call.Clean c s)
  | .byte _ _ => inferInstanceAs (Decidable (CleanByte _ _ _ _))
  | .word address _ => inferInstanceAs
    (Decidable (if address.toNat % 2 = 1 then CleanByte _ _ _ _ else CleanByte _ _ _ _))

/-- The memory and the flash have the same contents. -/
def InSync (c : Config) (s : State) (contents : DataBuf) : Prop :=
  ∃ es, Holds c s.flash es contents ∧
    s.emptySlot = c.writeLogBase + (encodeAll es).length ∧
    ∀ address < c.densityBytes, s.dataBuf address = contents address

variable {c : Config} {s s' : State} {contents new : DataBuf} {es : List Entry}

/-- What a call does: the flash takes the new contents, and so does the memory. -/
def Writes (c : Config) (s s' : State) (contents new : DataBuf) : Prop :=
  ∃ ops, Effect c s s' contents new ops ∧ ∀ address < c.densityBytes, s'.dataBuf address = new address

theorem Writes.inSync (h : Writes c s s' contents new) : InSync c s' new := by
  rcases h with ⟨ops, heffect, hdata⟩
  rcases heffect.held with ⟨es, hes, hslot⟩
  exact ⟨es, hes, hslot, hdata⟩

/-- Nothing changes. -/
theorem InSync.writes (h : InSync c s contents)
    (heq : ∀ address < c.densityBytes, new address = contents address) :
    Writes c s s contents new := by
  rcases h with ⟨es, hes, hslot, hdata⟩
  refine ⟨[], (Effect.refl hes hslot).congr heq, ?_⟩
  intro address haddress
  rw [hdata address haddress, heq address haddress]

/-- The memory is written first, and the flash from it. -/
theorem writes_of_effect {dataBuf : DataBuf} {ops : List FlashOperation}
    (h : Effect c { s with dataBuf := dataBuf } s' contents dataBuf ops)
    (hdata : s'.dataBuf = dataBuf)
    (heq : ∀ address < c.densityBytes, new address = dataBuf address) :
    Writes c s s' contents new := by
  have hissues : Issues c s s' ops := ⟨h.issued, h.flash_eq, h.permitted⟩
  have heffect : Effect c s s' contents dataBuf ops := ⟨hissues, h.held, h.cut⟩
  refine ⟨ops, heffect.congr heq, ?_⟩
  intro address haddress
  rw [hdata, heq address haddress]

/-- A byte without an entry, where the copy is erased. -/
theorem Holds.valuesAt_eq_nil {flash : Flash} (h : Holds c flash es contents)
    (hmax : c.writeLogBase ≤ 0x2000) {address : ℕ}
    (herased : flash (address / 2) = feeEmptyWord) (hlog : ¬Logged c flash address) :
    valuesAt address es = [] := by
  rw [← List.getLast?_eq_none_iff]
  rcases h.getLast_valuesAt herased with hnone | ⟨-, hzero⟩
  · exact hnone
  · refine absurd ?_ hlog
    rw [Logged, h.log_eq, replay_entries _ _ hmax es h.wellFormed]
    dsimp only
    rw [foldl_store, hzero, Option.getD_some]
    decide

/-! ## A byte -/

theorem writeByte_of_lt {address : ℕ} (h : address < c.densityBytes) (value : Byte) :
    writeByte c contents address value = update contents address value :=
  if_pos h

theorem writeByte_of_le {address : ℕ} (h : c.densityBytes ≤ address) (value : Byte) :
    writeByte c contents address value = contents :=
  if_neg (by omega)

/-- {lit}`EEPROM_WriteDataByte` -/
theorem writeDataByte_writes (h : InSync c s contents) (hmax : c.writeLogBase ≤ 0x2000)
    {address : HalfWord} {dataByte : Byte} (hclean : CleanByte c s address.toNat dataByte) :
    Writes c s (s.writeDataByte c address dataByte).1 contents
      (writeByte c contents address.toNat dataByte) := by
  have hdensity := c.densityBytes_eq
  have hsync := h
  rcases h with ⟨es, hes, hslot, hdata⟩
  unfold State.writeDataByte
  by_cases hrange : c.densityBytes ≤ address.toNat
  · rw [if_pos hrange, writeByte_of_le hrange]
    exact hsync.writes fun _ _ => rfl
  have hlt : address.toNat < c.densityBytes := by omega
  rw [if_neg hrange, writeByte_of_lt hlt]
  by_cases hskip : s.dataBuf address.toNat = dataByte
  · rw [if_pos hskip]
    apply hsync.writes
    intro a ha
    by_cases heq : a = address.toNat
    · rw [heq, Function.update_self, ← hskip, hdata _ hlt]
    · rw [Function.update_of_ne heq]
  rw [if_neg hskip]
  dsimp only
  generalize hbuf : update s.dataBuf address.toNat dataByte = dataBuf
  have hnew : ∀ a < c.densityBytes, update contents address.toNat dataByte a = dataBuf a := by
    intro a ha
    rw [← hbuf, Function.update_apply, Function.update_apply, hdata a ha]
  have hsame : ∀ a < c.densityBytes, a / 2 ≠ address.toNat / 2 → dataBuf a = contents a := by
    intro a ha hne
    rw [← hnew a ha, Function.update_of_ne (by rintro rfl; exact hne rfl)]
  by_cases herased : s.flash (address.toNat / 2) = feeEmptyWord
  · -- The copy of the word is erased.
    have hlog : dataBuf (2 * (address.toNat / 2) + 1) = 0 ∨
        valuesAt (2 * (address.toNat / 2) + 1) es = [] := by
      have hhalf : (2 * (address.toNat / 2) + 1) / 2 = address.toNat / 2 := by omega
      by_cases hodd : address.toNat % 2 = 1
      · have hself : 2 * (address.toNat / 2) + 1 = address.toNat := by omega
        rw [hself]
        by_cases hzero : dataByte = 0
        · left
          rw [← hbuf, Function.update_self, hzero]
        · right
          exact hes.valuesAt_eq_nil hmax herased (hclean hodd hlt herased hzero)
      · left
        rw [← hnew _ (by omega), Function.update_of_ne (by omega)]
        exact hes.eq_zero (by omega) (by rwa [hhalf])
    rcases writeDirectEntry_effect (s := { s with dataBuf := dataBuf }) hes hslot rfl (by omega)
      herased hlog hsame with ⟨ops, s', hs', heffect, hdata'⟩
    rw [hs']
    exact writes_of_effect heffect hdata' hnew
  · rw [writeDirectEntry_programmed { s with dataBuf := dataBuf } herased]
    dsimp only
    by_cases hlow : address < feeByteRange
    · have hlow' : address.toNat < 128 := hlow
      rw [if_pos hlow]
      by_cases hfull : c.writeLogLast ≤ s.emptySlot
      · rcases eepromCompact_complete (c := c) (by omega) { s with dataBuf := dataBuf } contents with
          ⟨ops, s', hs', heffect, hdata'⟩
        rw [State.eepromWriteLogByteEntry, if_pos hfull, hs']
        exact writes_of_effect heffect hdata' hnew
      · rcases writeLogByteEntry_effect (s := { s with dataBuf := dataBuf }) hes hslot hlow' hlt
          (Nat.lt_of_not_le hfull) (.inl herased) with ⟨ops, s', hs', heffect, hdata', -⟩
        have hself : dataBuf address.toNat = dataByte := by rw [← hbuf, Function.update_self]
        dsimp only at heffect
        rw [hself] at heffect
        rw [hs']
        exact writes_of_effect (heffect.congr fun a ha => (hnew a ha).symm) hdata' hnew
    · have hhigh : 128 ≤ address.toNat := Nat.le_of_not_lt hlow
      rcases writeLogWordEntry_effect (s := { s with dataBuf := dataBuf }) hes hslot hmax
        (toNat_and_even address) (by omega) (by omega) herased hsame with
        ⟨ops, s', hs', heffect, hdata'⟩
      rw [if_neg hlow, hs']
      exact writes_of_effect heffect hdata' hnew

/-! ## A word -/

/-- A word of a plain memory, at an even address. -/
theorem writeByte_word {address : ℕ} (heven : address % 2 = 0) (hlt : address < c.densityBytes)
    (value : HalfWord) :
    writeByte c (writeByte c contents address (value.setWidth 8)) (address + 1)
      ((value >>> 8).setWidth 8) = setWord contents address value := by
  have hdensity := c.densityBytes_eq
  rw [writeByte_of_lt hlt, writeByte_of_lt (by omega)]
  rfl

/-- A byte entry, with a free slot or by compaction.  Compaction writes all of the memory. -/
theorem writeLogByteEntry_complete {es : List Entry} {mid : DataBuf} (h : Holds c s.flash es mid)
    (hslot : s.emptySlot = c.writeLogBase + (encodeAll es).length) {address : HalfWord}
    (hlow : address.toNat < 128) (haddress : address.toNat < c.densityBytes)
    (hcovered : s.flash (address.toNat / 2) ≠ feeEmptyWord ∨
      address.toNat % 2 = 1 ∧ s.dataBuf address.toNat = 0) :
    ∃ ops s' new, s.eepromWriteLogByteEntry c address = (s', .complete) ∧
      Effect c s s' mid new ops ∧ s'.dataBuf = s.dataBuf ∧
      (new = s.dataBuf ∨ new = update mid address.toNat (s.dataBuf address.toNat) ∧
        ∀ slot < c.writeLogBase, s'.flash slot = s.flash slot) := by
  by_cases hfull : c.writeLogLast ≤ s.emptySlot
  · rcases eepromCompact_complete (c := c) (by omega) s mid with ⟨ops, s', hs', heffect, hdata⟩
    refine ⟨ops, s', s.dataBuf, ?_, heffect, hdata, .inl rfl⟩
    rw [State.eepromWriteLogByteEntry, if_pos hfull, hs']
  · rcases writeLogByteEntry_effect h hslot hlow haddress (Nat.lt_of_not_le hfull) hcovered with
      ⟨ops, s', hs', heffect, hdata, hflash⟩
    exact ⟨ops, s', _, hs', heffect, hdata, .inr ⟨rfl, hflash⟩⟩

/-- The first byte of a word that is written by byte entries. -/
theorem firstByte_effect (h : Holds c s.flash es contents)
    (hslot : s.emptySlot = c.writeLogBase + (encodeAll es).length) {address : HalfWord}
    (heven : address.toNat % 2 = 0) (hlow : address.toNat < 128)
    (hlt : address.toNat < c.densityBytes)
    (hprogrammed : s.flash (address.toNat / 2) ≠ feeEmptyWord)
    (hsame : ∀ a < c.densityBytes, a / 2 ≠ address.toNat / 2 → s.dataBuf a = contents a)
    {changed : Prop} [Decidable changed]
    (hchanged : ¬changed → s.dataBuf address.toNat = contents address.toNat) :
    ∃ ops s' mid, (if changed then s.eepromWriteLogByteEntry c address else (s, .complete)) =
        (s', .complete) ∧
      Effect c s s' contents mid ops ∧ s'.dataBuf = s.dataBuf ∧
      (∀ a < c.densityBytes, a ≠ address.toNat + 1 → mid a = s.dataBuf a) ∧
      (mid (address.toNat + 1) = contents (address.toNat + 1) ∨
        mid (address.toNat + 1) = s.dataBuf (address.toNat + 1)) ∧
      (s'.flash (address.toNat / 2) ≠ feeEmptyWord ∨ s.dataBuf (address.toNat + 1) = 0) := by
  have hdensity := c.densityBytes_eq
  have hother : ∀ a < c.densityBytes, a ≠ address.toNat → a ≠ address.toNat + 1 →
      s.dataBuf a = contents a := fun a ha hne hne' => hsame a ha (by omega)
  by_cases hwrite : changed
  · rw [if_pos hwrite]
    rcases writeLogByteEntry_complete h hslot hlow hlt (.inl hprogrammed) with
      ⟨ops, s', mid, hs', heffect, hdata, hmid⟩
    refine ⟨ops, s', mid, hs', heffect, hdata, ?_⟩
    rcases hmid with rfl | ⟨rfl, hflash⟩
    · -- The memory is in the flash.
      refine ⟨fun _ _ _ => rfl, .inr rfl, ?_⟩
      rcases heffect.held with ⟨es', hes', -⟩
      by_cases herased : s'.flash (address.toNat / 2) = feeEmptyWord
      · right
        apply hes'.eq_zero (by omega)
        rwa [show (address.toNat + 1) / 2 = address.toNat / 2 by omega]
      · exact .inl herased
    · refine ⟨?_, .inl (Function.update_of_ne (by omega) _ _), .inl ?_⟩
      · intro a ha hne
        by_cases heq : a = address.toNat
        · rw [heq, Function.update_self]
        · rw [Function.update_of_ne heq, hother a ha heq hne]
      · rwa [hflash _ (by omega)]
  · rw [if_neg hwrite]
    refine ⟨[], s, contents, rfl, .refl h hslot, rfl, ?_, .inl rfl, .inl hprogrammed⟩
    intro a ha hne
    by_cases heq : a = address.toNat
    · rw [heq, hchanged hwrite]
    · rw [hother a ha heq hne]

/-- Both bytes of a word that is written by byte entries. -/
theorem byteEntries_effect (h : Holds c s.flash es contents)
    (hslot : s.emptySlot = c.writeLogBase + (encodeAll es).length) {address : HalfWord}
    (heven : address.toNat % 2 = 0) (hlow : address.toNat < 128)
    (hlt : address.toNat < c.densityBytes)
    (hprogrammed : s.flash (address.toNat / 2) ≠ feeEmptyWord)
    (hsame : ∀ a < c.densityBytes, a / 2 ≠ address.toNat / 2 → s.dataBuf a = contents a)
    {oldValue dataWord : HalfWord}
    (hfirst : oldValue.setWidth 8 = dataWord.setWidth 8 →
      s.dataBuf address.toNat = contents address.toNat)
    (hsecond : oldValue >>> 8 = dataWord >>> 8 →
      s.dataBuf (address.toNat + 1) = contents (address.toNat + 1)) :
    ∃ ops s', (State.writeSecondByte c address oldValue dataWord
        (if oldValue.setWidth 8 ≠ dataWord.setWidth 8 then s.eepromWriteLogByteEntry c address
        else (s, .complete))).1 = s' ∧
      Effect c s s' contents s.dataBuf ops ∧ s'.dataBuf = s.dataBuf := by
  have hdensity := c.densityBytes_eq
  rcases firstByte_effect h hslot heven hlow hlt hprogrammed hsame
    (fun heq => hfirst (not_not.mp heq)) with
    ⟨ops, s', mid, hs', heffect, hdata, hmid, hother, hcopy⟩
  have hnext : (address + 1).toNat = address.toNat + 1 := by
    rw [BitVec.toNat_add]
    simp
    omega
  have hbetween : ∀ a < c.densityBytes, mid a = contents a ∨ mid a = s.dataBuf a := by
    intro a ha
    by_cases heq : a = address.toNat + 1
    · rwa [heq]
    · exact .inr (hmid a ha heq)
  rw [hs']
  unfold State.writeSecondByte
  dsimp only
  by_cases hwrite : oldValue >>> 8 = dataWord >>> 8
  · rw [if_neg (not_not.mpr hwrite)]
    refine ⟨ops, s', rfl, heffect.congr ?_, hdata⟩
    intro a ha
    by_cases heq : a = address.toNat + 1
    · rcases hother with hother | hother
      · rw [heq, hother, hsecond hwrite]
      · rw [heq, hother]
    · rw [hmid a ha heq]
  · rw [if_pos hwrite]
    rcases heffect.held with ⟨es', hes', hslot'⟩
    have hcovered : s'.flash ((address + 1).toNat / 2) ≠ feeEmptyWord ∨
        (address + 1).toNat % 2 = 1 ∧ s'.dataBuf (address + 1).toNat = 0 := by
      rw [hnext, hdata, show (address.toNat + 1) / 2 = address.toNat / 2 by omega]
      exact hcopy.imp_right fun hzero => ⟨by omega, hzero⟩
    rcases writeLogByteEntry_complete hes' hslot' (by omega) (by omega) hcovered with
      ⟨ops', s'', new, hs'', heffect', hdata', hnew⟩
    have hall : ∀ a < c.densityBytes, s.dataBuf a = new a := by
      intro a ha
      rcases hnew with rfl | ⟨rfl, -⟩
      · rw [hdata]
      · rw [hnext, hdata]
        by_cases heq : a = address.toNat + 1
        · rw [heq, Function.update_self]
        · rw [Function.update_of_ne heq, hmid a ha heq]
    refine ⟨ops ++ ops', s'', ?_, heffect.trans (heffect'.congr hall) hbetween,
      hdata'.trans hdata⟩
    rw [hs'']

/-- {lit}`EEPROM_WriteDataWord`, at an even address -/
theorem writeDataWord_writes (h : InSync c s contents) (hmax : c.writeLogBase ≤ 0x2000)
    {address dataWord : HalfWord} (heven : address.toNat % 2 = 0)
    (hlt : address.toNat < c.densityBytes)
    (hclean : CleanByte c s (address.toNat + 1) ((dataWord >>> 8).setWidth 8)) :
    Writes c s (s.writeDataWord c address dataWord).1 contents
      (setWord contents address.toNat dataWord) := by
  have hdensity := c.densityBytes_eq
  have hsync := h
  rcases h with ⟨es, hes, hslot, hdata⟩
  obtain ⟨word, hword⟩ : ∃ word, address.toNat = 2 * word := ⟨address.toNat / 2, by omega⟩
  have hhalf : address.toNat / 2 = word := by omega
  have hstored : ∀ a < c.densityBytes, s.dataBuf a =
      (byteOf word (wordAt s.dataBuf (2 * word)) a).getD (contents a) :=
    setWord_wordAt fun a ha _ => hdata a ha
  unfold State.writeDataWord
  rw [if_neg (by omega), if_neg (by omega), hword]
  dsimp only
  by_cases hskip : wordAt s.dataBuf (2 * word) = dataWord
  · rw [if_pos hskip]
    apply hsync.writes
    intro a ha
    rw [setWord_apply, ← hskip, ← hstored a ha, hdata a ha]
  rw [if_neg hskip]
  have hlow := wordAt_low s.dataBuf (2 * word)
  have hhigh := wordAt_high s.dataBuf (2 * word)
  generalize wordAt s.dataBuf (2 * word) = oldValue at hlow hhigh hskip ⊢
  generalize hbuf : setWord s.dataBuf (2 * word) dataWord = dataBuf
  have hnew : ∀ a < c.densityBytes, setWord contents (2 * word) dataWord a = dataBuf a := by
    intro a ha
    rw [← hbuf, setWord_apply, setWord_apply, hdata a ha]
  have hsame : ∀ a < c.densityBytes, a / 2 ≠ word → dataBuf a = contents a := by
    intro a ha hne
    rw [← hnew a ha, setWord_apply, byteOf_eq_none hne, Option.getD_none]
  have hfirst : dataBuf (2 * word) = dataWord.setWidth 8 := by
    rw [← hbuf, setWord_apply, byteOf, if_pos rfl, Option.getD_some]
  have hsecond : dataBuf (2 * word + 1) = (dataWord >>> 8).setWidth 8 := by
    rw [← hbuf, setWord_apply, byteOf, if_neg (by omega), if_pos rfl, Option.getD_some]
  by_cases herased : s.flash word = feeEmptyWord
  · have hlog : dataBuf (2 * word + 1) = 0 ∨ valuesAt (2 * word + 1) es = [] := by
      have herased' : s.flash ((2 * word + 1) / 2) = feeEmptyWord := by
        rwa [show (2 * word + 1) / 2 = word by omega]
      rw [hsecond]
      by_cases hzero : (dataWord >>> 8).setWidth 8 = 0
      · exact .inl hzero
      · rw [hword] at hclean
        exact .inr (hes.valuesAt_eq_nil hmax herased' (hclean (by omega) (by omega) herased' hzero))
    rcases writeDirectEntry_effect (s := { s with dataBuf := dataBuf }) hes hslot hhalf (by omega)
      herased hlog hsame with ⟨ops, s', hs', heffect, hdata'⟩
    rw [hs']
    exact writes_of_effect heffect hdata' hnew
  · rw [writeDirectEntry_programmed { s with dataBuf := dataBuf } (by rwa [hhalf])]
    dsimp only
    by_cases hrange : address < feeByteRange
    · have hrange' : address.toNat < 128 := hrange
      have hfirst' : oldValue.setWidth 8 = dataWord.setWidth 8 →
          dataBuf address.toNat = contents address.toNat := by
        intro heq
        rw [hword, hfirst, ← heq, hlow, hdata _ (by omega)]
      have hsecond' : oldValue >>> 8 = dataWord >>> 8 →
          dataBuf (address.toNat + 1) = contents (address.toNat + 1) := by
        intro heq
        rw [hword, hsecond, ← heq, hhigh, hdata _ (by omega)]
      rw [if_pos hrange]
      rcases byteEntries_effect (s := { s with dataBuf := dataBuf }) hes hslot heven hrange' hlt
        (by rwa [hhalf]) (by rwa [hhalf]) hfirst' hsecond' with ⟨ops, s', hs', heffect, hdata'⟩
      rw [hs']
      exact writes_of_effect heffect hdata' hnew
    · have hrange' : 128 ≤ address.toNat := Nat.le_of_not_lt hrange
      rcases writeLogWordEntry_effect (s := { s with dataBuf := dataBuf }) hes hslot hmax
        hword (by omega) (by omega) herased hsame with ⟨ops, s', hs', heffect, hdata'⟩
      rw [if_neg hrange, hs']
      exact writes_of_effect heffect hdata' hnew

/-! ## Calls -/

theorem Writes.trans {mid : DataBuf} (h : Writes c s s' contents mid) {s'' : State}
    (h' : Writes c s' s'' mid new)
    (hmid : ∀ address < c.densityBytes,
      mid address = contents address ∨ mid address = new address) :
    Writes c s s'' contents new := by
  rcases h with ⟨ops, heffect, hdata⟩
  rcases h' with ⟨ops', heffect', hdata'⟩
  exact ⟨ops ++ ops', heffect.trans heffect' hmid, hdata'⟩

/-- The effect of a call that is clean. -/
theorem Call.run_writes (h : InSync c s contents) (hmax : c.writeLogBase ≤ 0x2000) (call : Call)
    (hclean : call.Clean c s) :
    Writes c s (call.run c s) contents (call.write c contents) := by
  have hdensity := c.densityBytes_eq
  cases call with
  | byte address dataByte => exact writeDataByte_writes h hmax hclean
  | word address dataWord =>
    simp only [Call.Clean] at hclean
    simp only [Call.run, Call.write]
    by_cases hrange : c.densityBytes ≤ address.toNat
    · rw [writeByte_of_le hrange, writeByte_of_le (by omega), State.writeDataWord, if_pos hrange]
      exact h.writes fun _ _ => rfl
    have hlt : address.toNat < c.densityBytes := by omega
    by_cases hodd : address.toNat % 2 = 1
    · -- Two bytes of two words.
      rw [if_pos hodd] at hclean
      have hnext : (address + 1).toNat = address.toNat + 1 := by
        rw [BitVec.toNat_add]
        simp
        omega
      have hfirst := writeDataByte_writes h hmax hclean
      have hclean' : CleanByte c (s.writeDataByte c address (dataWord.setWidth 8)).1
          (address + 1).toNat ((dataWord >>> 8).setWidth 8) := fun hodd' => by omega
      have hsecond := writeDataByte_writes hfirst.inSync hmax hclean'
      rw [hnext] at hsecond
      have hrun : (s.writeDataWord c address dataWord).1 =
          ((s.writeDataByte c address (dataWord.setWidth 8)).1.writeDataByte c (address + 1)
            ((dataWord >>> 8).setWidth 8)).1 := by
        rw [State.writeDataWord, if_neg hrange, if_pos (by omega)]
      rw [hrun]
      apply hfirst.trans hsecond
      intro a ha
      by_cases heq : a = address.toNat + 1
      · left
        rw [writeByte_of_lt hlt, Function.update_of_ne (by omega)]
      · right
        unfold writeByte
        split_ifs
        · rw [Function.update_of_ne heq]
        · rfl
    · rw [if_neg hodd] at hclean
      rw [writeByte_word (by omega) hlt]
      exact writeDataWord_writes h hmax (by omega) hlt hclean

/-! ## Runs -/

/-- The driver after the boot of an erased flash. -/
def State.start (c : Config) : State :=
  State.eepromInit c ⟨fun _ => feeEmptyWord, fun _ => 0, 0, []⟩

/-- A call on the driver and on a plain memory.  The operations are those of the call. -/
def step (c : Config) (x : State × DataBuf) (call : Call) : State × DataBuf :=
  (call.run c { x.1 with issued := [] }, call.write c x.2)

/-- After a call every byte is read as it was written last, before and after a boot, and the call
has programmed no half word against the rules of the flash. -/
structure Persists (c : Config) (x : State × DataBuf) (call : Call) : Prop where
  read : ∀ address : HalfWord, address.toNat < c.densityBytes →
    (step c x call).1.readDataByte c address = (step c x call).2 address.toNat
  boot : ∀ (dataBuf : DataBuf) (address : HalfWord), address.toNat < c.densityBytes →
    (State.eepromInit c { (step c x call).1 with dataBuf := dataBuf }).readDataByte c address =
      (step c x call).2 address.toNat
  permitted : StateMachine.Along (FlashOperation.apply c) FlashOperation.Permitted x.1.flash
    (step c x call).1.issued

/-- An erased flash holds zeros. -/
theorem holds_erased (c : Config) : Holds c (fun _ => feeEmptyWord) [] fun _ => 0 := by
  apply holds_compacted
  · intro i _
    change feeEmptyWord = ~~~((0 : Byte) ++ (0 : Byte))
    decide
  · intro i _
    rfl

theorem inSync_start (hmax : c.writeLogBase ≤ 0x2000) :
    InSync c (State.start c) fun _ => 0 := by
  have h := (holds_erased c).eepromInit hmax ⟨fun _ => feeEmptyWord, fun _ => 0, 0, []⟩ rfl
  exact ⟨[], holds_erased c, h.2, h.1⟩

/-- What a boot reads. -/
theorem InSync.boot (h : InSync c s contents) (hmax : c.writeLogBase ≤ 0x2000)
    (dataBuf : DataBuf) {address : HalfWord} (haddress : address.toNat < c.densityBytes) :
    (State.eepromInit c { s with dataBuf := dataBuf }).readDataByte c address =
      contents address.toNat := by
  rcases h with ⟨es, hes, -, -⟩
  rw [State.readDataByte, if_pos haddress]
  exact (hes.eepromInit hmax { s with dataBuf := dataBuf } rfl).1 _ haddress

/-- A call that is clean is read as it was written. -/
theorem persists_step (hmax : c.writeLogBase ≤ 0x2000) (x : State × DataBuf) (call : Call)
    (h : InSync c x.1 x.2) (hclean : call.Clean c x.1) :
    Persists c x call ∧ InSync c (step c x call).1 (step c x call).2 := by
  have hwrites := Call.run_writes (s := { x.1 with issued := [] }) h hmax call hclean
  have hsync := hwrites.inSync
  rcases hwrites with ⟨ops, heffect, hdata⟩
  refine ⟨⟨?_, ?_, ?_⟩, hsync⟩
  · intro address haddress
    rw [State.readDataByte, if_pos haddress]
    exact hdata _ haddress
  · intro dataBuf address haddress
    exact hsync.boot hmax dataBuf haddress
  · have hissued := heffect.issued
    rw [List.nil_append] at hissued
    simp only [step]
    rw [hissued]
    exact heffect.permitted

/-- Along every run of clean calls from an erased flash, what was written is read, before and
after a boot, and no half word is programmed against the rules of the flash. -/
theorem persists (c : Config) (hmax : c.densityBytes ≤ feeAddressMaxSize) (calls : List Call)
    (hclean : StateMachine.Along (step c) (fun x call => call.Clean c x.1)
      (State.start c, fun _ => 0) calls) :
    StateMachine.Along (step c) (Persists c) (State.start c, fun _ => 0) calls := by
  have hbase : c.writeLogBase ≤ 0x2000 := by
    rw [feeAddressMaxSize] at hmax
    rw [Config.writeLogBase]
    omega
  refine StateMachine.along_of_invariant (fun x => InSync c x.1 x.2) ?_ ?_ (inSync_start hbase)
    hclean
  · intro x call h hc
    exact (persists_step hbase x call h hc).2
  · intro x call h hc
    exact (persists_step hbase x call h hc).1

/-- Two words of memory and a log of one half word. -/
def smallConfig : Config where
  pageSize := 1024
  pageCount := 1
  density := some 4
  writeLog := some 2
  pageSize_dvd := by decide
  density_checks := by simp [feeAddressMaxSize]
  writeLog_checks := by simp

/-- A word is written, a byte fills the log, and the word is written again. -/
theorem persists_small : StateMachine.Along (step smallConfig) (Persists smallConfig)
    (State.start smallConfig, fun _ => 0) [.word 0 0x0101, .byte 0 2, .word 0 0x0303] :=
  persists smallConfig (by decide) _ (by decide)

/-- A word is written, a byte fills the log, the word is set to zero and written again. -/
theorem not_persists_small : ¬StateMachine.Along (step smallConfig) (Persists smallConfig)
    (State.start smallConfig, fun _ => 0)
    [.word 0 0x0101, .byte 0 2, .word 0 0, .word 0 0x0303] := by
  rintro ⟨-, -, -, h, -⟩
  exact absurd (h.boot (fun _ => 0) 1 (by decide)) (by decide)

end LegacyEeprom
end VialQmk
