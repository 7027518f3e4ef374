import VialQmk.LegacyEeprom.Contents

/-!
# Legacy EEPROM - the effects of the writes

A write takes the flash from its old contents to the new ones by a list of operations.  Each
half word that is programmed is erased before, and after any number of the programs every byte
is the old one or the new one.

Main results:

- Definition {lit}`Effect`: what a function does to the flash.
- Theorems {lit}`eepromCompact_effect`, {lit}`writeDirectEntry_effect`,
  {lit}`writeLogByteEntry_effect` and {lit}`writeLogWordEntry_effect`: the functions of the driver.
-/

namespace VialQmk
namespace LegacyEeprom

open Function (update)

/-- The operations that lead from a state to another one, each of them permitted. -/
structure Issues (c : Config) (s s' : State) (ops : List FlashOperation) : Prop where
  issued : s'.issued = s.issued ++ ops
  flash_eq : s'.flash = StateMachine.run (FlashOperation.apply c) s.flash ops
  permitted : StateMachine.Along (FlashOperation.apply c) FlashOperation.Permitted s.flash ops

/-- A program, as opposed to an erasure. -/
def FlashOperation.IsProgram : FlashOperation → Prop
  | .erasePage _ => False
  | .programHalfWord _ _ => True

/-- The operations take the flash from the old contents to the new ones. -/
structure Effect (c : Config) (s s' : State) (old new : DataBuf) (ops : List FlashOperation) :
    Prop extends Issues c s s' ops where
  held : ∃ es, Holds c s'.flash es new ∧ s'.emptySlot = c.writeLogBase + (encodeAll es).length
  cut : (∀ op ∈ ops, op.IsProgram) → ∀ n, ∃ es contents,
    Holds c (StateMachine.run (FlashOperation.apply c) s.flash (ops.take n)) es contents ∧
      ∀ address < c.densityBytes,
        contents address = old address ∨ contents address = new address

variable {c : Config} {s s' s'' : State} {old mid new : DataBuf} {es : List Entry}

namespace Issues

theorem refl (c : Config) (s : State) : Issues c s s [] where
  issued := (List.append_nil _).symm
  flash_eq := rfl
  permitted := trivial

theorem trans {ops ops' : List FlashOperation} (h : Issues c s s' ops)
    (h' : Issues c s' s'' ops') : Issues c s s'' (ops ++ ops') where
  issued := by rw [h'.issued, h.issued, List.append_assoc]
  flash_eq := by rw [h'.flash_eq, h.flash_eq, StateMachine.run_append]
  permitted := by
    rw [StateMachine.along_append, ← h.flash_eq]
    exact ⟨h.permitted, h'.permitted⟩

theorem issue {op : FlashOperation} (h : op.Permitted s.flash) :
    Issues c s (s.issue c op) [op] where
  issued := rfl
  flash_eq := rfl
  permitted := ⟨h, trivial⟩

end Issues

/-- A half word that is erased takes the value. -/
theorem apply_program {flash : Flash} {slot : ℕ} (h : flash slot = feeEmptyWord)
    (data : HalfWord) :
    FlashOperation.apply c flash (.programHalfWord slot data) = update flash slot data := by
  have hand : feeEmptyWord &&& data = data := BitVec.allOnes_and
  rw [FlashOperation.apply, h, hand]

namespace Effect

/-- Nothing is written. -/
theorem refl (h : Holds c s.flash es old)
    (hslot : s.emptySlot = c.writeLogBase + (encodeAll es).length) :
    Effect c s s old old [] where
  toIssues := .refl c s
  held := ⟨es, h, hslot⟩
  cut _ n := by
    rw [List.take_nil]
    exact ⟨es, old, h, fun _ _ => .inl rfl⟩

theorem congr {ops : List FlashOperation} (h : Effect c s s' old mid ops)
    (heq : ∀ address < c.densityBytes, new address = mid address) :
    Effect c s s' old new ops where
  toIssues := h.toIssues
  held := by
    rcases h.held with ⟨es, hes, hslot⟩
    exact ⟨es, hes.congr heq, hslot⟩
  cut hops n := by
    rcases h.cut hops n with ⟨es, contents, hes, hor⟩
    refine ⟨es, contents, hes, ?_⟩
    intro address haddress
    rw [heq address haddress]
    exact hor address haddress

/-- Two effects, one after the other, that write different bytes. -/
theorem trans {ops ops' : List FlashOperation} (h : Effect c s s' old mid ops)
    (h' : Effect c s' s'' mid new ops')
    (hmid : ∀ address < c.densityBytes, mid address = old address ∨ mid address = new address) :
    Effect c s s'' old new (ops ++ ops') where
  toIssues := h.toIssues.trans h'.toIssues
  held := h'.held
  cut hops n := by
    have hleft := h.cut (fun op hop => hops op (List.mem_append_left _ hop))
    have hright := h'.cut (fun op hop => hops op (List.mem_append_right _ hop))
    rcases Nat.le_total n ops.length with hle | hle
    · rw [List.take_append_of_le_length hle]
      rcases hleft n with ⟨es, contents, hes, hor⟩
      refine ⟨es, contents, hes, ?_⟩
      intro address haddress
      rcases hor address haddress with heq | heq
      · exact .inl heq
      · rw [heq]
        exact hmid address haddress
    · rw [List.take_append, List.take_of_length_le hle, StateMachine.run_append, ← h.flash_eq]
      rcases hright (n - ops.length) with ⟨es, contents, hes, hor⟩
      refine ⟨es, contents, hes, ?_⟩
      intro address haddress
      rcases hor address haddress with heq | heq
      · rw [heq]
        exact hmid address haddress
      · exact .inr heq

/-- One operation. -/
theorem one {op : FlashOperation} (hissues : Issues c s s' [op]) (h : Holds c s.flash es old)
    {es' : List Entry} (h' : Holds c s'.flash es' new)
    (hslot : s'.emptySlot = c.writeLogBase + (encodeAll es').length) :
    Effect c s s' old new [op] where
  toIssues := hissues
  held := ⟨es', h', hslot⟩
  cut _ n := by
    cases n with
    | zero => exact ⟨es, old, h, fun _ _ => .inl rfl⟩
    | succ n =>
      rw [List.take_succ_cons, List.take_nil, ← hissues.flash_eq]
      exact ⟨es', new, h', fun _ _ => .inr rfl⟩

end Effect

/-! ## Compaction -/

/-- The loop of {lit}`eeprom_clear`. -/
theorem foldl_erasePage (s : State) (n : ℕ) :
    ∃ ops s', (List.range n).foldl (fun s page => s.issue c (.erasePage page)) s = s' ∧
      Issues c s s' ops ∧ s'.dataBuf = s.dataBuf ∧
      (∀ page < n, .erasePage page ∈ ops) ∧
      ∀ slot, 2 * slot < n * c.pageSize → s'.flash slot = feeEmptyWord := by
  induction n with
  | zero => exact ⟨[], s, rfl, .refl c s, rfl, by simp, by simp⟩
  | succ n ih =>
    rcases ih with ⟨ops, s', hs', hissues, hdata, herase, hflash⟩
    refine ⟨ops ++ [.erasePage n], s'.issue c (.erasePage n), ?_, ?_, hdata, ?_, ?_⟩
    · rw [List.range_succ, List.foldl_append, hs', List.foldl_cons, List.foldl_nil]
    · exact hissues.trans (.issue trivial)
    · intro page hpage
      by_cases heq : page = n
      · rw [heq]
        exact List.mem_append_right _ List.mem_cons_self
      · exact List.mem_append_left _ (herase page (by omega))
    · intro slot hslot
      simp only [State.issue, FlashOperation.apply]
      split_ifs with hpage
      · rfl
      · exact hflash slot (by omega)

/-- The loop of {lit}`eeprom_compact`. -/
theorem foldl_compact (s : State) (n : ℕ) (herased : ∀ slot < n, s.flash slot = feeEmptyWord) :
    ∃ ops s', (List.range n).foldl (fun s i =>
        let value := wordAt s.dataBuf (2 * i)
        if value ≠ 0 then s.issue c (.programHalfWord i (~~~value)) else s) s = s' ∧
      Issues c s s' ops ∧ s'.dataBuf = s.dataBuf ∧ s'.emptySlot = s.emptySlot ∧
      (∀ slot < n, s'.flash slot = ~~~wordAt s.dataBuf (2 * slot)) ∧
      ∀ slot, n ≤ slot → s'.flash slot = s.flash slot := by
  induction n with
  | zero => exact ⟨[], s, rfl, .refl c s, rfl, rfl, by simp, fun _ _ => rfl⟩
  | succ n ih =>
    rcases ih (fun slot hslot => herased slot (by omega)) with
      ⟨ops, s', hs', hissues, hdata, hempty, hcopy, hrest⟩
    have hn : s'.flash n = feeEmptyWord := by
      rw [hrest n (Nat.le_refl n), herased n (by omega)]
    rw [List.range_succ, List.foldl_append, hs', List.foldl_cons, List.foldl_nil, hdata]
    by_cases hvalue : wordAt s.dataBuf (2 * n) = 0
    · refine ⟨ops, s', if_neg (not_not.mpr hvalue), hissues, hdata, hempty, ?_, ?_⟩
      · intro slot hslot
        by_cases heq : slot = n
        · rw [heq, hn, hvalue]
          rfl
        · exact hcopy slot (by omega)
      · intro slot hslot
        exact hrest slot (by omega)
    · refine ⟨_, _, if_pos hvalue, hissues.trans (.issue (.inl hn)), hdata, hempty, ?_, ?_⟩
      · intro slot hslot
        simp only [State.issue]
        rw [apply_program hn]
        by_cases heq : slot = n
        · rw [heq, Function.update_self]
        · rw [Function.update_of_ne heq]
          exact hcopy slot (by omega)
      · intro slot hslot
        simp only [State.issue]
        rw [apply_program hn, Function.update_of_ne (by omega)]
        exact hrest slot (by omega)

/-- Compaction writes the memory into the flash. -/
theorem eepromCompact_effect (hpos : 0 < c.densityBytes) (s : State) (old : DataBuf) :
    ∃ ops, Effect c s (s.eepromCompact c).1 old s.dataBuf ops ∧
      (s.eepromCompact c).1.dataBuf = s.dataBuf := by
  rcases foldl_erasePage (c := c) s c.pageCount with
    ⟨ops, cleared, hclear, hissues, hdata, herase, herased⟩
  have hlast := c.writeLogLast_le
  have hall : ∀ slot < c.writeLogLast, cleared.flash slot = feeEmptyWord := fun slot hslot =>
    herased slot (by omega)
  have hbase : c.writeLogBase ≤ c.writeLogLast := Nat.le_add_right _ _
  rcases foldl_compact (c := c) { cleared with emptySlot := c.writeLogBase } c.writeLogBase
    (fun slot hslot => hall slot (by omega)) with
    ⟨ops', compacted, hcompact, hissues', hdata', hempty, hcopy, hrest⟩
  have hsplit : (s.eepromCompact c).1 = compacted := by
    rw [← hcompact, ← hclear]
    rfl
  have hfirst : Issues c s { cleared with emptySlot := c.writeLogBase } ops :=
    ⟨hissues.issued, hissues.flash_eq, hissues.permitted⟩
  have hholds : Holds c compacted.flash [] s.dataBuf := by
    apply holds_compacted
    · intro slot hslot
      rw [hcopy slot hslot, hdata]
    · intro i hi
      rw [hrest _ (by omega)]
      exact hall _ (by rw [Config.writeLogLast]; omega)
  rw [hsplit]
  refine ⟨ops ++ ops', ⟨hfirst.trans hissues', ⟨[], hholds, hempty⟩, ?_⟩, hdata'.trans hdata⟩
  -- A page has been erased, so this is no list of programs.
  intro hops
  have hpages : 0 < c.pageCount := by
    by_contra hzero
    have hle := c.densityBytes_le
    rw [Nat.eq_zero_of_not_pos hzero, Nat.zero_mul] at hle
    omega
  exact (hops _ (List.mem_append_left _ (herase 0 hpages))).elim

/-- The result of {lit}`eeprom_compact`. -/
theorem eepromCompact_complete (hpos : 0 < c.densityBytes) (s : State) (old : DataBuf) :
    ∃ ops s', s.eepromCompact c = (s', .complete) ∧ Effect c s s' old s.dataBuf ops ∧
      s'.dataBuf = s.dataBuf := by
  rcases eepromCompact_effect hpos s old with ⟨ops, heffect, hdata⟩
  exact ⟨ops, _, rfl, heffect, hdata⟩

/-! ## Entries -/

theorem append_issues (data : HalfWord) (hslot : s.flash s.emptySlot = feeEmptyWord) :
    Issues c s (s.append c data) [.programHalfWord s.emptySlot data] :=
  ⟨rfl, rfl, .inl hslot, trivial⟩

theorem append_flash (data : HalfWord) (hslot : s.flash s.emptySlot = feeEmptyWord) :
    (s.append c data).flash = update s.flash s.emptySlot data :=
  apply_program (c := c) hslot data

/-- A byte entry when there is room for it. -/
theorem byteEntry_encode {address : HalfWord} (haddress : address.toNat < 128) (value : Byte) :
    (Entry.byte address.toNat value).encode =
      [address <<< 8 ||| value.setWidth 16] := by
  have hvalue := value.isLt
  rw [Entry.encode]
  congr 1
  apply BitVec.eq_of_toNat_eq
  have hshift : (address <<< 8).toNat = address.toNat <<< 8 := by
    rw [BitVec.toNat_shiftLeft, Nat.mod_eq_of_lt]
    rw [Nat.shiftLeft_eq]
    omega
  have hwidth : (value.setWidth 16).toNat = value.toNat := by
    rw [BitVec.toNat_setWidth]
    omega
  rw [BitVec.toNat_ofNat, BitVec.toNat_or, hshift, hwidth, ← Nat.shiftLeft_add_eq_or_of_lt hvalue,
    Nat.shiftLeft_eq]
  omega

/-- {lit}`eeprom_write_log_byte_entry`, with a free slot -/
theorem writeLogByteEntry_effect (h : Holds c s.flash es old)
    (hslot : s.emptySlot = c.writeLogBase + (encodeAll es).length) {address : HalfWord}
    (hlow : address.toNat < 128) (haddress : address.toNat < c.densityBytes)
    (hroom : s.emptySlot < c.writeLogLast)
    (hcovered : s.flash (address.toNat / 2) ≠ feeEmptyWord ∨
      address.toNat % 2 = 1 ∧ s.dataBuf address.toNat = 0) :
    ∃ ops s', s.eepromWriteLogByteEntry c address = (s', .complete) ∧
      Effect c s s' old (update old address.toNat (s.dataBuf address.toNat)) ops ∧
      s'.dataBuf = s.dataBuf ∧ ∀ slot < c.writeLogBase, s'.flash slot = s.flash slot := by
  have hlen : (encodeAll es).length + 1 ≤ c.writeLogLength := by
    rw [Config.writeLogLast] at hroom
    omega
  have hfree : s.flash s.emptySlot = feeEmptyWord := by
    rw [hslot]
    exact h.erased (Nat.le_refl _) (by omega)
  have hencode := byteEntry_encode hlow (s.dataBuf address.toNat)
  have hstore : (Entry.byte address.toNat (s.dataBuf address.toNat)).store old =
      update old address.toNat (s.dataBuf address.toNat) := by
    funext a
    simp only [Entry.store, Entry.valueAt, Function.update_apply]
    split_ifs <;> rfl
  have happend := h.appendOne hencode hlen ⟨hlow, haddress⟩ hcovered
  rw [hstore, ← hslot, ← append_flash _ hfree] at happend
  refine ⟨_, _, if_neg (by omega), .one (append_issues _ hfree) h happend ?_, rfl, ?_⟩
  · rw [encodeAll_append, encodeAll_singleton, hencode, List.length_append]
    simp only [State.append, List.length_singleton]
    omega
  · intro slot hlt
    rw [append_flash _ hfree]
    exact Function.update_of_ne (by omega) _ _

/-- The number of a word in an entry. -/
theorem wordEntry_encode {address : HalfWord} (haddress : address.toNat < 0x4000)
    (hi : BitVec 3) :
    address >>> 1 ||| (hi ++ 0#13 : HalfWord) = hi ++ BitVec.ofNat 13 (address.toNat / 2) := by
  have hhalf : (address >>> 1).toNat = address.toNat / 2 := by
    rw [BitVec.toNat_ushiftRight, Nat.shiftRight_eq_div_pow, pow_one]
  have hword : (address >>> 1).setWidth 13 = BitVec.ofNat 13 (address.toNat / 2) := by
    apply BitVec.eq_of_toNat_eq
    rw [BitVec.toNat_setWidth, hhalf, BitVec.toNat_ofNat]
  rw [eq_zero_append (x := address >>> 1) (by omega), BitVec.or_append, BitVec.zero_or,
    BitVec.or_zero, hword]

/-- The address of a word. -/
theorem toNat_and_even (address : HalfWord) :
    (address &&& 0xFFFE).toNat = 2 * (address.toNat / 2) := by
  have hsplit : address = address.extractLsb' 1 15 ++ address.extractLsb' 0 1 :=
    (@BitVec.extractLsb'_append_extractLsb' 15 1 address).symm
  have hmask : (0xFFFE : HalfWord) = BitVec.allOnes 15 ++ 0#1 := by decide
  have hhalf : (address.extractLsb' 1 15).toNat = address.toNat / 2 := by
    rw [BitVec.extractLsb'_toNat, Nat.shiftRight_eq_div_pow, pow_one]
    omega
  conv_lhs => rw [hsplit, hmask, BitVec.and_append, BitVec.and_allOnes, BitVec.and_zero]
  rw [BitVec.toNat_append, ← Nat.shiftLeft_add_eq_or_of_lt (0#1).isLt, hhalf, Nat.shiftLeft_eq]
  simp
  omega

/-- A word of the memory, stored over the old contents. -/
theorem setWord_wordAt {dataBuf : DataBuf} {word : ℕ}
    (hsame : ∀ address < c.densityBytes, address / 2 ≠ word → dataBuf address = old address) :
    ∀ address < c.densityBytes, dataBuf address =
      (byteOf word (wordAt dataBuf (2 * word)) address).getD (old address) := by
  intro address haddress
  by_cases hword : address / 2 = word
  · subst hword
    rw [byteOf_half, Option.getD_some, wordAt_low, wordAt_high]
    split_ifs
    · congr 1
      omega
    · congr 1
      omega
  · rw [byteOf_eq_none hword, Option.getD_none, hsame address haddress hword]

/-- {lit}`eeprom_write_log_word_entry`, when only the word has changed -/
theorem writeLogWordEntry_effect (h : Holds c s.flash es old)
    (hslot : s.emptySlot = c.writeLogBase + (encodeAll es).length)
    (hmax : c.writeLogBase ≤ 0x2000) {address : HalfWord} {word : ℕ}
    (hword : address.toNat = 2 * word) (hhigh : 64 ≤ word) (hlt : word < c.writeLogBase)
    (hcovered : s.flash word ≠ feeEmptyWord)
    (hsame : ∀ address < c.densityBytes, address / 2 ≠ word →
      s.dataBuf address = old address) :
    ∃ ops s', s.eepromWriteLogWordEntry c address = (s', .complete) ∧
      Effect c s s' old s.dataBuf ops ∧ s'.dataBuf = s.dataBuf := by
  have hdensity := c.densityBytes_eq
  have hlast : c.writeLogLast = c.writeLogBase + c.writeLogLength := rfl
  have hcompact := eepromCompact_complete (c := c) (by omega) s old
  have hstored := setWord_wordAt hsame
  rw [← hword] at hstored
  unfold State.eepromWriteLogWordEntry
  dsimp only
  generalize wordAt s.dataBuf address.toNat = value at hstored ⊢
  by_cases hsmall : value ≤ 1
  · -- A word of 0 or 1.
    rw [if_pos hsmall]
    by_cases hfull : c.writeLogLast < s.emptySlot + 1
    · rw [if_pos hfull]
      exact hcompact
    · have hvalue : value = 0 ∨ value = 1 := by
        have hle : value.toNat ≤ 1 := hsmall
        rcases Nat.le_one_iff_eq_zero_or_eq_one.mp hle with heq | heq
        · exact .inl (BitVec.eq_of_toNat_eq heq)
        · exact .inr (BitVec.eq_of_toNat_eq heq)
      have hfree : s.flash s.emptySlot = feeEmptyWord := by
        rw [hslot]
        exact h.erased (Nat.le_refl _) (by omega)
      obtain ⟨b, hb, hencode⟩ : ∃ b : Bool, (if b then 1 else 0) = value ∧
          (Entry.encoded word b).encode =
            [address >>> 1 ||| (feeWordEncoding ||| value <<< 13)] := by
        have haddress : address.toNat / 2 = word := by omega
        rcases hvalue with rfl | rfl
        · refine ⟨false, rfl, ?_⟩
          rw [show feeWordEncoding ||| (0 : HalfWord) <<< 13 = 0b100#3 ++ 0#13 by decide,
            wordEntry_encode (by omega), haddress]
          rfl
        · refine ⟨true, rfl, ?_⟩
          rw [show feeWordEncoding ||| (1 : HalfWord) <<< 13 = 0b101#3 ++ 0#13 by decide,
            wordEntry_encode (by omega), haddress]
          rfl
      have happend := h.appendOne hencode (by omega) hlt hcovered
      rw [← hslot, ← append_flash (c := c) _ hfree] at happend
      refine ⟨_, _, if_neg hfull, .congr (.one (append_issues _ hfree) h happend ?_) ?_, rfl⟩
      · rw [encodeAll_append, encodeAll_singleton, hencode, List.length_append]
        simp only [State.append, List.length_singleton]
        omega
      · intro a ha
        rw [hstored a ha, Entry.store, Entry.valueAt, hb]
  · -- A word and its value.
    rw [if_neg hsmall]
    by_cases hfull : c.writeLogLast < s.emptySlot + 2
    · rw [if_pos hfull]
      exact hcompact
    · have hx : (address - feeByteRange) >>> 1 ||| (feeWordEncoding ||| feeValueNext) =
          0b111#3 ++ BitVec.ofNat 13 (word - 64) := by
        have haddress : (address - feeByteRange).toNat = 2 * (word - 64) := by
          rw [BitVec.toNat_sub_of_le (by simp [BitVec.le_def, feeByteRange]; omega)]
          simp [feeByteRange]
          omega
        rw [show feeWordEncoding ||| feeValueNext = 0b111#3 ++ 0#13 by decide,
          wordEntry_encode (by omega), haddress, Nat.mul_div_cancel_left _ (by decide)]
      have hwf : (Entry.next word value).WellFormed c := by
        refine ⟨hhigh, hlt, ?_⟩
        rintro rfl
        exact hsmall (by decide)
      have hfree : s.flash s.emptySlot = feeEmptyWord := by
        rw [hslot]
        exact h.erased (Nat.le_refl _) (by omega)
      rw [if_neg hfull, hx]
      generalize hx' : (0b111#3 ++ BitVec.ofNat 13 (word - 64) : HalfWord) = x
      have hfree' : (s.append c x).flash (s.append c x).emptySlot = feeEmptyWord := by
        have hnext : (s.append c x).emptySlot = c.writeLogBase + ((encodeAll es).length + 1) := by
          rw [← Nat.add_assoc, ← hslot]
          rfl
        rw [append_flash _ hfree, hnext, Function.update_of_ne (by omega)]
        exact h.erased (by omega) (by omega)
      have hfirst := h.appendFirst (by omega) hwf
      have hboth := h.appendTwo (by omega) hwf hcovered
      rw [hx', ← hslot, ← append_flash (c := c) _ hfree] at hfirst hboth
      have hplace : c.writeLogBase + ((encodeAll es).length + 1) = (s.append c x).emptySlot := by
        rw [← Nat.add_assoc, ← hslot]
        rfl
      rw [hplace, ← append_flash (c := c) _ hfree'] at hboth
      have hissues := (append_issues x hfree).trans (append_issues (~~~value) hfree')
      suffices heffect : Effect c s ((s.append c x).append c (~~~value)) old
          ((Entry.next word value).store old) ([.programHalfWord s.emptySlot x] ++
            [.programHalfWord (s.append c x).emptySlot (~~~value)]) from
        ⟨_, _, rfl, heffect.congr hstored, rfl⟩
      refine ⟨hissues, ⟨_, hboth, ?_⟩, ?_⟩
      · rw [encodeAll_append, List.length_append]
        change s.emptySlot + 1 + 1 = c.writeLogBase + ((encodeAll es).length + 2)
        omega
      · intro _ n
        rcases n with _ | _ | n
        · exact ⟨es, old, h, fun _ _ => .inl rfl⟩
        · exact ⟨_, old, hfirst, fun _ _ => .inl rfl⟩
        · have htake : ([.programHalfWord s.emptySlot x] ++
              [.programHalfWord (s.append c x).emptySlot (~~~value)] :
                List FlashOperation).take (n + 2) =
              [.programHalfWord s.emptySlot x] ++
                [.programHalfWord (s.append c x).emptySlot (~~~value)] :=
            List.take_of_length_le (by simp)
          rw [htake, ← hissues.flash_eq]
          exact ⟨_, _, hboth, fun _ _ => .inr rfl⟩

/-- {lit}`eeprom_write_direct_entry`, when the copy of the word is programmed -/
theorem writeDirectEntry_programmed (s : State) {address : HalfWord}
    (h : s.flash (address.toNat / 2) ≠ feeEmptyWord) :
    s.eepromWriteDirectEntry c address = (s, .zero) := by
  unfold State.eepromWriteDirectEntry
  rw [toNat_and_even, Nat.mul_div_cancel_left _ (by decide)]
  exact if_neg h

/-- {lit}`eeprom_write_direct_entry`, when the copy of the word is erased and only the word has
changed -/
theorem writeDirectEntry_effect (h : Holds c s.flash es old)
    (hslot : s.emptySlot = c.writeLogBase + (encodeAll es).length) {address : HalfWord}
    {word : ℕ} (hword : address.toNat / 2 = word) (hlt : word < c.writeLogBase)
    (herased : s.flash word = feeEmptyWord)
    (hlog : s.dataBuf (2 * word + 1) = 0 ∨ valuesAt (2 * word + 1) es = [])
    (hsame : ∀ address < c.densityBytes, address / 2 ≠ word →
      s.dataBuf address = old address) :
    ∃ ops s', s.eepromWriteDirectEntry c address = (s', .complete) ∧
      Effect c s s' old s.dataBuf ops ∧ s'.dataBuf = s.dataBuf := by
  have hstored := setWord_wordAt hsame
  have hhigh := wordAt_high s.dataBuf (2 * word)
  unfold State.eepromWriteDirectEntry
  dsimp only
  rw [toNat_and_even, hword, Nat.mul_div_cancel_left _ (by decide), if_pos herased]
  generalize wordAt s.dataBuf (2 * word) = value at hstored hhigh ⊢
  by_cases hvalue : value = 0
  · -- A write isn't needed.
    have hempty : ~~~value = feeEmptyWord := by
      rw [hvalue]
      decide
    refine ⟨[], s, if_pos hempty, .congr (.refl h hslot) ?_, rfl⟩
    intro a ha
    rw [hstored a ha, hvalue]
    by_cases hhalf : a / 2 = word
    · subst hhalf
      rw [byteOf_half, Option.getD_some, h.eq_zero ha herased]
      split_ifs <;> decide
    · rw [byteOf_eq_none hhalf, Option.getD_none]
  · have hne : ~~~value ≠ feeEmptyWord := by
      intro heq
      apply hvalue
      rw [← BitVec.not_not (b := value), heq]
      decide
    have hholds := h.program hlt herased hvalue (by rwa [hhigh])
    rw [← apply_program (c := c) herased] at hholds
    refine ⟨_, _, if_neg hne, .congr (.one (.issue (.inl herased)) h hholds hslot) ?_, rfl⟩
    intro a ha
    rw [setWord_apply]
    exact hstored a ha

end LegacyEeprom
end VialQmk
