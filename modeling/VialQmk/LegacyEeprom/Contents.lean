import VialQmk.LegacyEeprom.Log

/-!
# Legacy EEPROM - what the flash holds

The flash holds the compacted copy with the entries of the log stored over it.  An entry is for
a word whose copy is programmed; only a zero for the second byte of a word may stand before one
that is not.

Main results:

- Definition {lit}`Holds`: the entries of a flash and its contents.
- Theorem {lit}`Holds.eepromInit`: a boot finds the contents.
- Theorems {lit}`Holds.append` and {lit}`Holds.program`: an entry that is appended, and a word
  that is programmed into the copy.
-/

namespace VialQmk
namespace LegacyEeprom

open Function (update)

namespace Config

variable (c : Config)

theorem densityBytes_eq : c.densityBytes = 2 * c.writeLogBase := by
  have heven : c.densityBytes % 2 = 0 := by
    unfold densityBytes
    cases h : c.density with
    | none =>
      rcases c.pageSize_dvd with ⟨k, hk⟩
      rw [Option.getD_none, hk, Nat.mul_left_comm]
      omega
    | some bytes => exact (c.density_checks bytes h).2.2
  rw [writeLogBase]
  omega

theorem densityBytes_le : c.densityBytes ≤ c.pageCount * c.pageSize := by
  unfold densityBytes
  cases h : c.density with
  | none => exact Nat.div_le_self _ _
  | some bytes => exact (c.density_checks bytes h).1

/-- The areas are inside the pages. -/
theorem writeLogLast_le : 2 * c.writeLogLast ≤ c.pageCount * c.pageSize := by
  have hdensity := c.densityBytes_eq
  have hle := c.densityBytes_le
  have hlog : c.densityBytes + c.writeLogBytes ≤ c.pageCount * c.pageSize := by
    unfold writeLogBytes
    cases h : c.writeLog with
    | none =>
      rw [Option.getD_none]
      omega
    | some bytes => exact (c.writeLog_checks bytes h).1
  rw [writeLogLast, writeLogLength]
  omega

end Config

/-! ## The compacted copy -/

/-- The contents of the compacted copy. -/
def loaded (flash : Flash) : DataBuf := fun address =>
  (byteOf (address / 2) (~~~flash (address / 2)) address).getD 0

theorem byteOf_half (address : ℕ) (value : HalfWord) :
    byteOf (address / 2) value address =
      some (if address % 2 = 0 then value.setWidth 8 else (value >>> 8).setWidth 8) := by
  unfold byteOf
  split_ifs <;> first | rfl | omega

theorem byteOf_eq_none {word address : ℕ} (hne : address / 2 ≠ word) (value : HalfWord) :
    byteOf word value address = none := by
  unfold byteOf
  rw [if_neg (by omega), if_neg (by omega)]

/-- The loop of the boot over the compacted copy. -/
theorem foldl_setWord (flash : Flash) (dataBuf : DataBuf) (n address : ℕ) :
    (List.range n).foldl (fun dataBuf i => setWord dataBuf (2 * i) (~~~flash i)) dataBuf address =
      if address < 2 * n then loaded flash address else dataBuf address := by
  induction n with
  | zero => rfl
  | succ n ih =>
    rw [List.range_succ, List.foldl_append, List.foldl_cons, List.foldl_nil, setWord_apply, ih]
    by_cases hword : address / 2 = n
    · subst hword
      rw [byteOf_half, Option.getD_some, if_pos (show address < 2 * (address / 2 + 1) by omega),
        loaded, byteOf_half, Option.getD_some]
    · rw [byteOf_eq_none hword, Option.getD_none]
      by_cases hlt : address < 2 * n
      · rw [if_pos hlt, if_pos (by omega)]
      · rw [if_neg hlt, if_neg (by omega)]

/-! ## The log -/

section Log

variable {c : Config} {flash : Flash}

theorem logHalfWords_update_log {i : ℕ} (x : HalfWord) :
    logHalfWords c (update flash (c.writeLogBase + i) x) = (logHalfWords c flash).set i x := by
  apply List.ext_getElem
  · simp [logHalfWords]
  · intro j hj _
    simp only [logHalfWords, List.getElem_map, List.getElem_range, List.getElem_set,
      Function.update_apply, Nat.add_right_inj]
    by_cases heq : i = j
    · rw [if_pos heq.symm, if_pos heq]
    · rw [if_neg (Ne.symm heq), if_neg heq]

theorem logHalfWords_update_copy {i : ℕ} (hi : i < c.writeLogBase) (x : HalfWord) :
    logHalfWords c (update flash i x) = logHalfWords c flash := by
  apply List.map_congr_left
  intro j _
  exact Function.update_of_ne (by omega) _ _

theorem getElem_logHalfWords {i : ℕ} (hi : i < c.writeLogLength) :
    (logHalfWords c flash)[i]? = some (flash (c.writeLogBase + i)) := by
  simp [logHalfWords, hi]

end Log

/-- The copy of the word of an entry is programmed, or the entry is a zero for a second byte. -/
def Entry.Covered (flash : Flash) : Entry → Prop
  | byte address value =>
    flash (address / 2) ≠ feeEmptyWord ∨ address % 2 = 1 ∧ value = 0
  | encoded word _ => flash word ≠ feeEmptyWord
  | next word _ => flash word ≠ feeEmptyWord
  | incomplete _ => True

/-- What an entry stores where the copy is erased. -/
theorem Entry.Covered.eq_zero {flash : Flash} {e : Entry} (he : e.Covered flash) {address : ℕ}
    (herased : flash (address / 2) = feeEmptyWord) {value : Byte}
    (hvalue : e.valueAt address = some value) : address % 2 = 1 ∧ value = 0 := by
  have hword : ∀ {word x}, byteOf word x address = some value → word = address / 2 := by
    intro word x hbyte
    by_contra hne
    rw [byteOf_eq_none (Ne.symm hne)] at hbyte
    cases hbyte
  cases e with
  | byte address' value' =>
    simp only [Entry.valueAt] at hvalue
    split_ifs at hvalue with heq
    subst heq
    rcases he with he | ⟨hodd, hzero⟩
    · exact absurd herased he
    · rw [← Option.some.inj hvalue]
      exact ⟨hodd, hzero⟩
  | encoded word value' =>
    rw [← hword hvalue] at herased
    exact absurd herased he
  | next word value' =>
    rw [← hword hvalue] at herased
    exact absurd herased he
  | incomplete word => cases hvalue

/-- The entries of a flash and its contents. -/
structure Holds (c : Config) (flash : Flash) (es : List Entry) (contents : DataBuf) : Prop where
  log_eq : logHalfWords c flash = encodeAll es ++
    List.replicate (c.writeLogLength - (encodeAll es).length) feeEmptyWord
  length_le : (encodeAll es).length ≤ c.writeLogLength
  wellFormed : ∀ e ∈ es, e.WellFormed c
  contents_eq : ∀ address < c.densityBytes,
    ((valuesAt address es).getLast?).getD (loaded flash address) = contents address
  covered : ∀ e ∈ es, e.Covered flash

namespace Holds

variable {c : Config} {flash : Flash} {es : List Entry} {contents : DataBuf}

/-- A boot finds the contents, whatever was in the memory. -/
theorem eepromInit (h : Holds c flash es contents) (hmax : c.writeLogBase ≤ 0x2000) (s : State)
    (hflash : s.flash = flash) :
    (∀ address < c.densityBytes, (s.eepromInit c).dataBuf address = contents address) ∧
      (s.eepromInit c).emptySlot = c.writeLogBase + (encodeAll es).length := by
  subst hflash
  rw [State.eepromInit, h.log_eq, replay_entries _ _ hmax es h.wellFormed]
  refine ⟨?_, rfl⟩
  intro address haddress
  dsimp only
  rw [foldl_store, foldl_setWord, if_pos (by rw [← c.densityBytes_eq]; exact haddress),
    h.contents_eq address haddress]

/-- The slots behind the log are erased. -/
theorem erased (h : Holds c flash es contents) {i : ℕ} (hle : (encodeAll es).length ≤ i)
    (hlt : i < c.writeLogLength) : flash (c.writeLogBase + i) = feeEmptyWord := by
  have hget := @getElem_logHalfWords c flash i hlt
  rw [h.log_eq, List.getElem?_append_right hle, List.getElem?_replicate, if_pos (by omega)] at hget
  exact (Option.some.inj hget).symm

/-- An entry at the end of the log. -/
theorem append (h : Holds c flash es contents) {flash' : Flash} {e : Entry}
    (hcopy : ∀ i < c.writeLogBase, flash' i = flash i)
    (hlog : logHalfWords c flash' = encodeAll (es ++ [e]) ++
      List.replicate (c.writeLogLength - (encodeAll (es ++ [e])).length) feeEmptyWord)
    (hroom : (encodeAll (es ++ [e])).length ≤ c.writeLogLength) (hwf : e.WellFormed c)
    (hcovered : e.Covered flash) : Holds c flash' (es ++ [e]) (e.store contents) where
  log_eq := hlog
  length_le := hroom
  wellFormed e' he' := by
    rcases List.mem_append.mp he' with he' | he'
    · exact h.wellFormed e' he'
    · rwa [List.mem_singleton.mp he']
  contents_eq address haddress := by
    have hloaded : loaded flash' address = loaded flash address := by
      have hdensity := c.densityBytes_eq
      rw [loaded, loaded, hcopy _ (by omega)]
    rw [hloaded, valuesAt_append, Entry.store, ← h.contents_eq address haddress]
    cases e.valueAt address <;> simp
  covered e' he' := by
    have hsame : e'.Covered flash ∧ e'.WellFormed c := by
      rcases List.mem_append.mp he' with he' | he'
      · exact ⟨h.covered e' he', h.wellFormed e' he'⟩
      · rw [List.mem_singleton.mp he']
        exact ⟨hcovered, hwf⟩
    have hdensity := c.densityBytes_eq
    cases e' with
    | byte address value =>
      rcases hsame with ⟨hc, -, hlt⟩
      rwa [Entry.Covered, hcopy _ (by omega)]
    | encoded word value =>
      rw [Entry.Covered, hcopy _ hsame.2]
      exact hsame.1
    | next word value =>
      rw [Entry.Covered, hcopy _ hsame.2.2.1]
      exact hsame.1
    | incomplete word => trivial

theorem congr (h : Holds c flash es contents) {contents' : DataBuf}
    (heq : ∀ address < c.densityBytes, contents' address = contents address) :
    Holds c flash es contents' where
  log_eq := h.log_eq
  length_le := h.length_le
  wellFormed := h.wellFormed
  contents_eq address haddress := by rw [h.contents_eq address haddress, heq address haddress]
  covered := h.covered

/-- The log when a half word is programmed at its end. -/
theorem log_update (h : Holds c flash es contents) (x : HalfWord)
    (hroom : (encodeAll es).length + 1 ≤ c.writeLogLength) :
    logHalfWords c (update flash (c.writeLogBase + (encodeAll es).length) x) = encodeAll es ++
      x :: List.replicate (c.writeLogLength - ((encodeAll es).length + 1)) feeEmptyWord := by
  have hfree : c.writeLogLength - (encodeAll es).length =
      c.writeLogLength - ((encodeAll es).length + 1) + 1 := by omega
  rw [logHalfWords_update_log, h.log_eq, List.set_append_right _ _ (Nat.le_refl _), Nat.sub_self,
    hfree, List.replicate_succ, List.set_cons_zero]

/-- An entry of one half word. -/
theorem appendOne (h : Holds c flash es contents) {e : Entry} {x : HalfWord}
    (hencode : e.encode = [x]) (hroom : (encodeAll es).length + 1 ≤ c.writeLogLength)
    (hwf : e.WellFormed c) (hcovered : e.Covered flash) :
    Holds c (update flash (c.writeLogBase + (encodeAll es).length) x) (es ++ [e])
      (e.store contents) := by
  have hlength : (encodeAll (es ++ [e])).length = (encodeAll es).length + 1 := by
    rw [encodeAll_append, encodeAll_singleton, hencode, List.length_append, List.length_singleton]
  apply h.append _ _ (by omega) hwf hcovered
  · intro i hi
    exact Function.update_of_ne (by omega) _ _
  · rw [h.log_update x hroom, hlength, encodeAll_append, encodeAll_singleton, hencode,
      List.append_assoc, List.singleton_append]

/-- The first half word of an entry of two: the contents are what they were. -/
theorem appendFirst (h : Holds c flash es contents) {word : ℕ} {value : HalfWord}
    (hroom : (encodeAll es).length + 2 ≤ c.writeLogLength)
    (hwf : (Entry.next word value).WellFormed c) :
    Holds c (update flash (c.writeLogBase + (encodeAll es).length)
      (0b111#3 ++ BitVec.ofNat 13 (word - 64))) (es ++ [.incomplete word]) contents := by
  have hlength : (encodeAll (es ++ [.incomplete word])).length = (encodeAll es).length + 2 := by
    rw [encodeAll_append, List.length_append]
    rfl
  have hfree : c.writeLogLength - ((encodeAll es).length + 1) =
      c.writeLogLength - ((encodeAll es).length + 2) + 1 := by omega
  refine h.append ?_ ?_ (by omega) ⟨hwf.1, hwf.2.1⟩ trivial
  · intro i hi
    exact Function.update_of_ne (by omega) _ _
  · rw [h.log_update _ (by omega), hlength, hfree, List.replicate_succ, encodeAll_append,
      encodeAll_singleton, Entry.encode, List.append_assoc]
    rfl

/-- Both half words of an entry. -/
theorem appendTwo (h : Holds c flash es contents) {word : ℕ} {value : HalfWord}
    (hroom : (encodeAll es).length + 2 ≤ c.writeLogLength)
    (hwf : (Entry.next word value).WellFormed c) (hcovered : flash word ≠ feeEmptyWord) :
    Holds c (update (update flash (c.writeLogBase + (encodeAll es).length)
        (0b111#3 ++ BitVec.ofNat 13 (word - 64)))
        (c.writeLogBase + ((encodeAll es).length + 1)) (~~~value))
      (es ++ [.next word value]) ((Entry.next word value).store contents) := by
  have hlength : (encodeAll (es ++ [.next word value])).length = (encodeAll es).length + 2 := by
    rw [encodeAll_append, List.length_append]
    rfl
  have hfree : c.writeLogLength - ((encodeAll es).length + 1) =
      c.writeLogLength - ((encodeAll es).length + 2) + 1 := by omega
  refine h.append ?_ ?_ (by omega) hwf hcovered
  · intro i hi
    rw [Function.update_of_ne (by omega), Function.update_of_ne (by omega)]
  · rw [logHalfWords_update_log, h.log_update _ (by omega), hlength, hfree, List.replicate_succ,
      encodeAll_append, encodeAll_singleton, Entry.encode, List.append_assoc,
      List.set_append_right _ _ (by omega), Nat.add_sub_cancel_left]
    rfl

/-- The values that are stored where the copy is erased. -/
theorem valuesAt_erased (h : Holds c flash es contents) {address : ℕ}
    (herased : flash (address / 2) = feeEmptyWord) :
    ∀ value ∈ valuesAt address es, address % 2 = 1 ∧ value = 0 := by
  intro value hvalue
  rcases List.mem_filterMap.mp hvalue with ⟨e, he, hat⟩
  exact (h.covered e he).eq_zero herased hat

theorem getLast_valuesAt (h : Holds c flash es contents) {address : ℕ}
    (herased : flash (address / 2) = feeEmptyWord) :
    (valuesAt address es).getLast? = none ∨
      address % 2 = 1 ∧ (valuesAt address es).getLast? = some 0 := by
  cases hlast : (valuesAt address es).getLast? with
  | none => exact .inl rfl
  | some value =>
    have hzero := h.valuesAt_erased herased value (List.mem_of_getLast? hlast)
    exact .inr ⟨hzero.1, by rw [hzero.2]⟩

/-- Where the copy is erased the contents are zero. -/
theorem eq_zero (h : Holds c flash es contents) {address : ℕ}
    (haddress : address < c.densityBytes) (herased : flash (address / 2) = feeEmptyWord) :
    contents address = 0 := by
  rw [← h.contents_eq address haddress]
  rcases h.getLast_valuesAt herased with hlast | ⟨-, hlast⟩
  · rw [hlast, Option.getD_none, loaded, herased, byteOf_half, Option.getD_some]
    split_ifs <;> decide
  · rw [hlast, Option.getD_some]

/-- A word is programmed into the copy.  The log must not have a value for its second byte,
unless this is a zero. -/
theorem program (h : Holds c flash es contents) {word : ℕ} (hword : word < c.writeLogBase)
    (herased : flash word = feeEmptyWord) {value : HalfWord} (hvalue : value ≠ 0)
    (hlog : (value >>> 8).setWidth 8 = 0 ∨ valuesAt (2 * word + 1) es = []) :
    Holds c (update flash word (~~~value)) es (setWord contents (2 * word) value) where
  log_eq := by rw [logHalfWords_update_copy hword, h.log_eq]
  length_le := h.length_le
  wellFormed := h.wellFormed
  contents_eq address haddress := by
    rw [setWord_apply]
    by_cases hhalf : address / 2 = word
    · subst hhalf
      have hloaded : loaded (update flash (address / 2) (~~~value)) address =
          if address % 2 = 0 then value.setWidth 8 else (value >>> 8).setWidth 8 := by
        rw [loaded, Function.update_self, BitVec.not_not, byteOf_half, Option.getD_some]
      rw [hloaded, byteOf_half, Option.getD_some]
      rcases h.getLast_valuesAt herased with hlast | ⟨hodd, hlast⟩
      · rw [hlast, Option.getD_none]
      · have haddress' : 2 * (address / 2) + 1 = address := by omega
        rw [haddress'] at hlog
        rcases hlog with hzero | hnil
        · rw [hlast, Option.getD_some, if_neg (by omega), hzero]
        · rw [hnil] at hlast
          cases hlast
    · rw [byteOf_eq_none hhalf, Option.getD_none, ← h.contents_eq address haddress, loaded,
        loaded, Function.update_of_ne hhalf]
  covered e he := by
    have hne : ~~~value ≠ feeEmptyWord := by
      intro heq
      apply hvalue
      rw [← BitVec.not_not (b := value), heq]
      decide
    have hkeep : ∀ slot, flash slot ≠ feeEmptyWord →
        update flash word (~~~value) slot ≠ feeEmptyWord := by
      intro slot hslot
      by_cases heq : slot = word
      · rwa [heq, Function.update_self]
      · rwa [Function.update_of_ne heq]
    have hcovered := h.covered e he
    cases e with
    | byte address x => exact hcovered.imp_left (hkeep _)
    | encoded word x => exact hkeep _ hcovered
    | next word x => exact hkeep _ hcovered
    | incomplete word => trivial

end Holds

/-- The flash after the log has been compacted. -/
theorem holds_compacted {c : Config} {flash : Flash} {dataBuf : DataBuf}
    (hcopy : ∀ i < c.writeLogBase, flash i = ~~~wordAt dataBuf (2 * i))
    (hlog : ∀ i < c.writeLogLength, flash (c.writeLogBase + i) = feeEmptyWord) :
    Holds c flash [] dataBuf where
  log_eq := by
    rw [encodeAll_nil, List.nil_append, List.length_nil, Nat.sub_zero, List.eq_replicate_iff]
    refine ⟨by simp [logHalfWords], ?_⟩
    intro x hx
    rcases List.mem_map.mp hx with ⟨i, hi, rfl⟩
    exact hlog i (List.mem_range.mp hi)
  length_le := Nat.zero_le _
  wellFormed _ he := absurd he List.not_mem_nil
  contents_eq address haddress := by
    have hdensity := c.densityBytes_eq
    rw [loaded, hcopy _ (by omega), BitVec.not_not, byteOf_half, Option.getD_some, wordAt_low,
      wordAt_high]
    simp only [valuesAt, List.filterMap_nil, List.getLast?_nil, Option.getD_none]
    by_cases hodd : address % 2 = 0
    · rw [if_pos hodd]
      congr 1
      omega
    · rw [if_neg hodd]
      congr 1
      omega
  covered _ he := absurd he List.not_mem_nil

end LegacyEeprom
end VialQmk
