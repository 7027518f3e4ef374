import VialQmk.Combos.Ready

/-!
# Combos - the invariant of ready combos

As long as the trace is orderly the ring holds the ready combos of the ledger, all of them
are enabled, and the key buffer has all of their keys.

Main results:

- Definition {lit}`Inv`: the engine and the ledger belong together.
- Theorem {lit}`inv_pressCombo`: a combo becomes ready.
- Theorem {lit}`Round.applyCombosLoop`: each ready combo is applied once.
- Theorem {lit}`inv_clearCombos`: nothing is left once the buffer is dumped.
-/

namespace VialQmk
namespace Combos

/-! ## Invariants -/

/-- The entries are those of the table, an active one is disabled, and the ring has not
wrapped onto itself. -/
structure Shape (build : Build) (table : Table) (s : Engine) : Prop where
  table : s.table = table
  slots : s.comboBuffer.length = build.comboBufferLength
  read_lt : s.comboBufferRead < build.comboBufferLength
  write_lt : s.comboBufferWrite < build.comboBufferLength
  applied : ∀ (p : ℕ) (combo : Combo), s.combos[p]? = some combo → combo.active = true →
    combo.disabled = true
  noWrap : ∀ comboIndex, Note.queued comboIndex true ∉ s.trace

/-- A combo is enabled, and its keys are among these keycodes. -/
def Live (build : Build) (codes : List UInt16) (s : Engine) (p : ℕ) : Prop :=
  ∃ combo : Combo, s.combos[p]? = some combo ∧ combo.disabled = false ∧
    Complete build codes combo.keys

/-- The ring holds these combos, and each of them is live or spare; the keys that an
enabled combo counts as down are among the keycodes. -/
structure Holds (build : Build) (codes : List UInt16) (spare : ℕ → Prop) (s : Engine)
    (ready : List ℕ) : Prop where
  ring : RingFrom build s.comboBuffer s.comboBufferWrite s.comboBufferRead ready
  short : ready.length < build.comboBufferLength
  nodup : ready.Nodup
  live : ∀ p ∈ ready, spare p ∨ Live build codes s p
  bits : ∀ (p : ℕ) (combo : Combo), s.combos[p]? = some combo → combo.disabled = false →
    ∀ i, combo.state.testBit i = true → ∃ keycode ∈ codes, findKeyIndex combo.keys keycode = some i

/-- An enabled combo with all keys down is one of these. -/
def Full (s : Engine) (ready : List ℕ) : Prop :=
  ∀ (p : ℕ) (combo : Combo), s.combos[p]? = some combo → combo.disabled = false →
    combo.keys ≠ [] → allKeysDown combo.state combo.keys.length = true → p ∈ ready

/-- The engine and the ledger belong together. -/
structure Inv (build : Build) (table : Table) (codes : List UInt16) (s : Engine) : Prop where
  shape : Shape build table s
  holds : Holds build codes (fun _ => False) s (ledger table s.trace).ready
  full : Full s (ledger table s.trace).ready
  round : (ledger table s.trace).round = none
  lost : (ledger table s.trace).lost = false

section Invariants

variable {build : Build} {table : Table} {codes codes' : List UInt16} {spare : ℕ → Prop}
  {s : Engine} {ready : List ℕ} {p c : ℕ}

theorem Shape.note (h : Shape build table s) {n : Note}
    (hn : ∀ comboIndex, n ≠ .queued comboIndex true) : Shape build table (s.note n) :=
  ⟨h.table, h.slots, h.read_lt, h.write_lt, h.applied, fun comboIndex hmem => by
    rcases List.mem_cons.mp hmem with heq | hmem
    · exact hn comboIndex heq.symm
    · exact h.noWrap comboIndex hmem⟩

/-- An entry changes, but keeps its keys, and it is disabled if it is active. -/
theorem Shape.modify (h : Shape build table s) (c : ℕ) {f : Combo → Combo}
    (hf : ∀ combo, (f combo).keys = combo.keys ∧ (f combo).keycode = combo.keycode)
    (happlied : ∀ combo, (combo.active = true → combo.disabled = true) →
      (f combo).active = true → (f combo).disabled = true) :
    Shape build table (s.modifyCombo c f) := by
  refine ⟨(table_modifyCombo c hf s).trans h.table, h.slots, h.read_lt, h.write_lt, ?_, h.noWrap⟩
  intro p combo hp hactive
  rw [combos_modifyCombo] at hp
  split_ifs at hp with heq
  · obtain ⟨old, hold, rfl⟩ := Option.map_eq_some_iff.mp hp
    exact happlied old (h.applied p old hold) hactive
  · exact h.applied p combo hp hactive

theorem Shape.disable (h : Shape build table s) (c : ℕ) :
    Shape build table (s.modifyCombo c Combo.disable) :=
  h.modify c (fun _ => ⟨rfl, rfl⟩) fun _ _ _ => rfl

theorem Shape.dropHead (h : Shape build table s) (p : ℕ) :
    Shape build table (dropHead build s p) :=
  have hdisable := h.disable p
  ⟨hdisable.table, hdisable.slots, incrementMod_lt build.comboBufferLength_pos _,
    hdisable.write_lt, hdisable.applied, hdisable.noWrap⟩

theorem Live.mono (h : Live build codes s p) (hcodes : ∀ k ∈ codes, k ∈ codes') :
    Live build codes' s p := by
  obtain ⟨combo, hp, hdisabled, hpos, hbits, hkeys⟩ := h
  refine ⟨combo, hp, hdisabled, hpos, hbits, fun i hi => ?_⟩
  obtain ⟨keycode, hmem, hindex⟩ := hkeys i hi
  exact ⟨keycode, hcodes keycode hmem, hindex⟩

/-- Another combo changes. -/
theorem Live.modify_ne (h : Live build codes s p) (hne : c ≠ p) (f : Combo → Combo) :
    Live build codes (s.modifyCombo c f) p := by
  obtain ⟨combo, hp, hrest⟩ := h
  exact ⟨combo, by rw [combos_modifyCombo, if_neg hne, hp], hrest⟩

theorem Holds.mono (h : Holds build codes spare s ready) (hcodes : ∀ k ∈ codes, k ∈ codes') :
    Holds build codes' spare s ready := by
  refine ⟨h.ring, h.short, h.nodup, fun p hp => (h.live p hp).imp_right fun hl => hl.mono hcodes,
    ?_⟩
  intro p combo hp hdisabled i hi
  obtain ⟨keycode, hmem, hindex⟩ := h.bits p combo hp hdisabled i hi
  exact ⟨keycode, hcodes keycode hmem, hindex⟩

theorem Holds.note (h : Holds build codes spare s ready) (n : Note) :
    Holds build codes spare (s.note n) ready :=
  ⟨h.ring, h.short, h.nodup, h.live, h.bits⟩

/-- An entry that the ring does not need is disabled. -/
theorem Holds.disable (h : Holds build codes spare s ready) (hc : c ∈ ready → spare c) :
    Holds build codes spare (s.modifyCombo c Combo.disable) ready := by
  refine ⟨h.ring, h.short, h.nodup, fun p hp => ?_, ?_⟩
  · by_cases heq : c = p
    · exact Or.inl (heq ▸ hc (heq ▸ hp))
    · exact (h.live p hp).imp_right fun hl => hl.modify_ne heq _
  · intro p combo hp hdisabled
    rw [combos_modifyCombo] at hp
    split_ifs at hp
    · obtain ⟨old, _, rfl⟩ := Option.map_eq_some_iff.mp hp
      exact absurd hdisabled nofun
    · exact h.bits p combo hp hdisabled

theorem Full.mono {ready' : List ℕ} (h : Full s ready) (hsub : ∀ p ∈ ready, p ∈ ready') :
    Full s ready' :=
  fun p combo hp hdisabled hne hall => hsub p (h p combo hp hdisabled hne hall)

/-- A disabled entry does not count. -/
theorem Full.disable (h : Full s (c :: ready)) : Full (s.modifyCombo c Combo.disable) ready := by
  intro p combo hp hdisabled hne hall
  rw [combos_modifyCombo] at hp
  split_ifs at hp with heq
  · obtain ⟨old, _, rfl⟩ := Option.map_eq_some_iff.mp hp
    exact absurd hdisabled nofun
  · rcases List.mem_cons.mp (h p combo hp hdisabled hne hall) with rfl | hmem
    · exact absurd rfl heq
    · exact hmem

/-- The combo at the head is dropped. -/
theorem Holds.dropHead (h : Holds build codes spare s (p :: ready)) :
    Holds build codes spare (dropHead build s p) ready := by
  have hnot : p ∉ ready := (List.nodup_cons.mp h.nodup).1
  have htail : Holds build codes spare
      { s with comboBufferRead := build.incrementMod s.comboBufferRead } ready :=
    ⟨h.ring.2.2, Nat.lt_of_succ_lt h.short, (List.nodup_cons.mp h.nodup).2,
      fun p' hp' => h.live p' (List.mem_cons_of_mem _ hp'), h.bits⟩
  have hdisable := htail.disable (c := p) fun hmem => absurd hmem hnot
  exact ⟨hdisable.ring, hdisable.short, hdisable.nodup, hdisable.live, hdisable.bits⟩

theorem Full.dropHead (h : Full s (p :: ready)) : Full (dropHead build s p) ready :=
  h.disable

/-- Combos at the head are dropped one by one. -/
theorem holds_dropHeads {heads rest : List ℕ} (hshape : Shape build table s)
    (h : Holds build codes spare s (heads ++ rest)) (hfull : Full s (heads ++ c :: rest))
    (hc : c ∉ heads) (hlive : Live build codes s c) :
    Shape build table (heads.foldl (dropHead build) s) ∧
      Holds build codes spare (heads.foldl (dropHead build) s) rest ∧
        Full (heads.foldl (dropHead build) s) (c :: rest) ∧
          Live build codes (heads.foldl (dropHead build) s) c ∧
            (heads.foldl (dropHead build) s).trace = s.trace := by
  induction heads generalizing s with
  | nil => exact ⟨hshape, h, hfull, hlive, rfl⟩
  | cons p heads ih =>
    rw [List.mem_cons, not_or] at hc
    exact ih (hshape.dropHead p) h.dropHead hfull.dropHead hc.2
      (hlive.modify_ne (Ne.symm hc.1) Combo.disable)

end Invariants

/-! ## A combo becomes ready -/

section Press

variable {build : Build} {table : Table} {codes : List UInt16} {s : Engine} {ready : List ℕ}
  {c : ℕ} {combo : Combo}

/-- A key of an enabled combo goes down, whose keycode is among the keycodes. -/
theorem holds_setKeyDown (h : Holds build codes (fun _ => False) s ready) (hfull : Full s ready)
    (hc : s.combos[c]? = some combo) (hdisabled : combo.disabled = false) {keyIndex : ℕ}
    {keycode : UInt16} (hindex : findKeyIndex combo.keys keycode = some keyIndex)
    (hcode : keycode ∈ codes) :
    Holds build codes (fun _ => False)
        (setKeyDown c (keyStateDown build combo.state keyIndex) s) ready ∧
      Full (setKeyDown c (keyStateDown build combo.state keyIndex) s) (c :: ready) := by
  refine ⟨⟨h.ring, h.short, h.nodup, fun p hp => Or.inr ?_, ?_⟩, ?_⟩
  · obtain ⟨old, hold, hlive⟩ := (h.live p hp).resolve_left id
    by_cases heq : c = p
    · subst heq
      exact ⟨{ old with state := keyStateDown build combo.state keyIndex },
        by simp [setKeyDown, hold], hlive⟩
    · exact ⟨old, by simp [setKeyDown, hold, heq], hlive⟩
  · intro p combo' hp hdisabled' i hi
    simp only [setKeyDown, combos_modifyCombo] at hp
    split_ifs at hp with heq
    · subst heq
      rw [hc] at hp
      obtain rfl := Option.some.inj hp
      simp only [keyStateDown, Nat.testBit_mod_two_pow, Nat.testBit_or, Bool.and_eq_true,
        Bool.or_eq_true] at hi
      rcases hi.2 with hold | hnew
      · exact h.bits c combo hc hdisabled i hold
      · rw [Nat.testBit_two_pow] at hnew
        obtain rfl := of_decide_eq_true hnew
        exact ⟨keycode, hcode, hindex⟩
    · exact h.bits p combo' hp hdisabled' i hi
  · intro p combo' hp hdisabled' hne hall
    simp only [setKeyDown, combos_modifyCombo] at hp
    split_ifs at hp with heq
    · exact heq ▸ List.mem_cons_self
    · exact List.mem_cons_of_mem _ (hfull p combo' hp hdisabled' hne hall)

/-- An enabled combo with all keys down is live. -/
theorem live_of_allKeysDown (h : Holds build codes (fun _ => False) s ready)
    (hc : s.combos[c]? = some combo) (hdisabled : combo.disabled = false)
    (hpos : 0 < combo.keys.length) (hbits : combo.state < 2 ^ build.stateBits)
    (hall : allKeysDown combo.state combo.keys.length = true) : Live build codes s c := by
  have hstate : 2 ^ combo.keys.length - 1 = combo.state := of_decide_eq_true hall
  refine ⟨combo, hc, hdisabled, hpos, ?_, fun i hi => ?_⟩
  · by_contra hlt
    have hle : 2 ^ (build.stateBits + 1) ≤ 2 ^ combo.keys.length :=
      Nat.pow_le_pow_right (by omega) (by omega)
    rw [Nat.pow_succ] at hle
    have := Nat.two_pow_pos build.stateBits
    omega
  · apply h.bits c combo hc hdisabled i
    rw [← hstate, Nat.testBit_two_pow_sub_one]
    exact decide_eq_true hi

theorem trace_overlapLoop (build : Build) (c n i : ℕ) (drop : Option ℕ) (s : Engine) :
    (overlapLoop build c n i drop s).1.trace = s.trace := by
  induction n generalizing i drop s with
  | zero => rfl
  | succ n ih =>
    unfold overlapLoop
    split_ifs
    · split
      · rfl
      · split
        · exact ih _ _ s
        · dsimp only
          split_ifs
          · rfl
          · exact ih _ _ _
          · exact ih _ _ _
    · rfl

/-- What is orderly when all keys of a combo are down. -/
theorem orderly_queueCombo (h : Orderly build table (queueCombo build c combo s).trace) :
    (Note.fullyPressed c).Orderly build table (ledger table s.trace) := by
  have htrace := trace_overlapLoop build c build.comboBufferLength s.comboBufferRead none
    (s.note (.fullyPressed c))
  unfold queueCombo at h
  dsimp only at h
  split_ifs at h
  · unfold pushCombo at h
    dsimp only [Engine.note] at h htrace
    rw [htrace] at h
    exact h.1.2
  · rw [htrace] at h
    exact h.2

/-- A live combo is put into a ring with room. -/
theorem holds_pushCombo (hshape : Shape build table s)
    (h : Holds build codes (fun _ => False) s ready) (hlive : Live build codes s c)
    (hnot : c ∉ ready) (hroom : (ready ++ [c]).length < build.comboBufferLength)
    (combo : Combo) :
    Shape build table (pushCombo build c combo s) ∧
      Holds build codes (fun _ => False) (pushCombo build c combo s) (ready ++ [c]) ∧
        (pushCombo build c combo s).trace = .queued c false :: s.trace := by
  have hwrite : s.comboBufferWrite < s.comboBuffer.length := by
    rw [hshape.slots]
    exact hshape.write_lt
  have hring := h.ring.push hshape.read_lt hwrite (by simpa using hroom) c
  have hwraps : build.incrementMod s.comboBufferWrite ≠ s.comboBufferRead := by
    cases ready with
    | nil => exact hring.1.symm
    | cons p ready => exact hring.1.symm
  have htrace : (pushCombo build c combo s).trace = .queued c false :: s.trace := by
    simp [pushCombo, Engine.note, hwraps]
  refine ⟨⟨hshape.table, ?_, hshape.read_lt, ?_, hshape.applied, ?_⟩,
    ⟨hring, hroom, ?_, ?_, h.bits⟩, htrace⟩
  · exact (List.length_set ..).trans hshape.slots
  · exact incrementMod_lt build.comboBufferLength_pos _
  · intro comboIndex hmem
    rw [htrace] at hmem
    rcases List.mem_cons.mp hmem with heq | hmem
    · exact absurd heq nofun
    · exact hshape.noWrap comboIndex hmem
  · rw [List.nodup_append]
    refine ⟨h.nodup, List.nodup_singleton c, fun a ha b hb => ?_⟩
    rw [List.mem_singleton] at hb
    rintro rfl
    exact hnot (hb ▸ ha)
  · intro p hp
    rcases List.mem_append.mp hp with hp | hp
    · exact h.live p hp
    · rw [List.mem_singleton] at hp
      exact Or.inr (hp ▸ hlive)

theorem queueCombo_of_loop {s' : Engine} {d : Option ℕ}
    (h : overlapLoop build c build.comboBufferLength (s.note (.fullyPressed c)).comboBufferRead
      none (s.note (.fullyPressed c)) = (s', d)) :
    queueCombo build c combo s = if d ≠ some c then pushCombo build c combo s' else s' := by
  have hloop : overlapLoop build c build.comboBufferLength s.comboBufferRead none
      (s.note (.fullyPressed c)) = (s', d) := h
  rw [queueCombo, hloop]

/-- A combo with all keys down is put into the ring, or dropped for a longer one. -/
theorem inv_queueCombo (hshape : Shape build table s)
    (h : Holds build codes (fun _ => False) s (ledger table s.trace).ready)
    (hfull : Full s (c :: (ledger table s.trace).ready)) (hlive : Live build codes s c)
    (hround : (ledger table s.trace).round = none) (hlost : (ledger table s.trace).lost = false)
    (horderly : Orderly build table (queueCombo build c combo s).trace) :
    Inv build table codes (queueCombo build c combo s) := by
  obtain ⟨hnot, hdrops, hroom⟩ := orderly_queueCombo horderly
  have hnote : Shape build table (s.note (.fullyPressed c)) := hshape.note nofun
  have hnoted := h.note (.fullyPressed c)
  have hnone : (none : Option ℕ) ≠ some c := nofun
  have hloop := overlapLoop_heads (s := s.note (.fullyPressed c)) hnoted.ring
    (by rwa [hnote.table]) (Nat.le_of_lt h.short) hnone
  obtain ⟨heads, rest, hready, hcases⟩ := hloop
  rw [hnote.table] at hcases
  rw [hready] at hnot hnoted hfull
  rw [List.mem_append, not_or] at hnot
  obtain ⟨hshape', hholds', hfull', hlive', htrace'⟩ := holds_dropHeads (c := c) hnote hnoted
    (hfull.mono fun p hp => by simpa [or_left_comm] using hp) hnot.1 hlive
  rcases hcases with ⟨henroll, hloop⟩ | ⟨henroll, d, hd, hloop⟩
  · rw [queueCombo_of_loop hloop, if_neg (not_not.mpr rfl)]
    have hledger : ledger table ((heads.foldl (dropHead build)
        (s.note (.fullyPressed c))).modifyCombo c Combo.disable).trace =
          { ledger table s.trace with ready := rest } := by
      rw [Engine.modifyCombo, htrace', ← henroll]
      rfl
    refine ⟨hshape'.disable c, ?_, ?_, ?_, ?_⟩
    · rw [hledger]
      exact hholds'.disable fun hmem => absurd hmem hnot.2
    · rw [hledger]
      exact hfull'.disable
    · rwa [hledger]
    · rwa [hledger]
  · rw [queueCombo_of_loop hloop, if_pos hd]
    obtain ⟨hshape'', hholds'', htrace''⟩ := holds_pushCombo hshape' hholds' hlive' hnot.2
      (henroll ▸ hroom) combo
    have hledger : ledger table (pushCombo build c combo (heads.foldl (dropHead build)
        (s.note (.fullyPressed c)))).trace =
          { ledger table s.trace with ready := rest ++ [c] } := by
      rw [htrace'', htrace', ← henroll]
      rfl
    refine ⟨hshape'', ?_, ?_, ?_, ?_⟩
    · rwa [hledger]
    · rw [hledger]
      have hmoved : Full (pushCombo build c combo (heads.foldl (dropHead build)
        (s.note (.fullyPressed c)))) (c :: rest) := hfull'
      exact hmoved.mono fun p hp => by simpa [or_comm] using hp
    · rwa [hledger]
    · rwa [hledger]

theorem Shape.setKeyDown (h : Shape build table s) (c state : ℕ) :
    Shape build table (setKeyDown c state s) := by
  have hmodify := h.modify c (f := fun combo => { combo with state := state })
    (fun _ => ⟨rfl, rfl⟩) fun _ happlied => happlied
  exact ⟨hmodify.table, h.slots, h.read_lt, h.write_lt, hmodify.applied, h.noWrap⟩

/-- The first branch of {lit}`process_single_combo` keeps the invariant. -/
theorem inv_pressCombo (h : Inv build table codes s) (hc : s.combos[c]? = some combo)
    (hdisabled : combo.disabled = false) {keyIndex : ℕ} {keycode : UInt16}
    (hindex : findKeyIndex combo.keys keycode = some keyIndex) (hcode : keycode ∈ codes)
    (horderly : Orderly build table (pressCombo build c combo keyIndex s).trace) :
    Inv build table codes (pressCombo build c combo keyIndex s) := by
  have hactive : combo.active = false := by
    rw [← Bool.not_eq_true]
    intro hactive
    rw [h.shape.applied c combo hc hactive] at hdisabled
    exact absurd hdisabled nofun
  obtain ⟨hholds, hfull⟩ := holds_setKeyDown h.holds h.full hc hdisabled hindex hcode
  have hshape := h.shape.setKeyDown c (keyStateDown build combo.state keyIndex)
  have hdown : (setKeyDown c (keyStateDown build combo.state keyIndex) s).combos[c]? =
      some { combo with state := keyStateDown build combo.state keyIndex } := by
    simp [setKeyDown, hc]
  unfold pressCombo at horderly ⊢
  simp only [hactive, Bool.false_eq_true, if_false] at horderly ⊢
  generalize hs' : setKeyDown c (keyStateDown build combo.state keyIndex) s = s'
    at horderly hholds hfull hshape hdown ⊢
  have htrace : s'.trace = s.trace := hs' ▸ rfl
  split_ifs at horderly ⊢ with hall hexpired
  · have hnot : c ∉ (ledger table s.trace).ready := htrace ▸ horderly.2
    have hnote : Shape build table (s'.note (.expired c)) := hshape.note nofun
    have hnoted := hholds.note (.expired c)
    have hfulled : Full (s'.note (.expired c)) (c :: (ledger table s.trace).ready) := hfull
    have hledger : ledger table ((s'.note (.expired c)).modifyCombo c Combo.disable).trace =
        ledger table s.trace := by
      rw [← htrace]
      rfl
    refine ⟨hnote.disable c, ?_, ?_, ?_, ?_⟩
    · rw [hledger]
      exact hnoted.disable fun hmem => absurd hmem hnot
    · rw [hledger]
      exact hfulled.disable
    · rw [hledger]
      exact h.round
    · rw [hledger]
      exact h.lost
  · have hpos : 0 < combo.keys.length := Nat.zero_lt_of_lt (findKeyIndex_lt hindex)
    have hbits : keyStateDown build combo.state keyIndex < 2 ^ build.stateBits :=
      Nat.mod_lt _ (Nat.two_pow_pos _)
    have hlive := live_of_allKeysDown hholds hdown hdisabled hpos hbits hall
    rw [← htrace] at hholds hfull
    refine inv_queueCombo hshape hholds hfull hlive ?_ ?_ horderly
    · rw [htrace]
      exact h.round
    · rw [htrace]
      exact h.lost
  · refine ⟨hshape, htrace ▸ hholds, ?_, htrace ▸ h.round, htrace ▸ h.lost⟩
    rw [htrace]
    intro p combo' hp hdisabled' hne hall'
    rcases List.mem_cons.mp (hfull p combo' hp hdisabled' hne hall') with rfl | hmem
    · rw [hdown] at hp
      obtain rfl := Option.some.inj hp
      exact absurd hall' hall
    · exact hmem

end Press

/-! ## Ready combos are applied -/

section Rounds

variable {build : Build} {table : Table} {codes : List UInt16} {spare : ℕ → Prop} {s : Engine}
  {queue r : List ℕ} {p c : ℕ} {combo : Combo}

/-- A combo that must be tapped may stay in the ring after it is applied. -/
def Spare (build : Build) (table : Table) (p : ℕ) : Prop :=
  ∃ entry, table[p]? = some entry ∧ build.mustTap p entry.2 = true

theorem spare_iff (hshape : Shape build table s) (hc : s.combos[c]? = some combo) :
    Spare build table c ↔ build.mustTap c combo.keycode = true := by
  have hentry : table[c]? = some (combo.keys, combo.keycode) := by
    rw [← hshape.table, Engine.table, List.getElem?_map, hc]
    rfl
  rw [Spare, hentry]
  simp

/-- While the combos of the ring are applied: those that must not be left out are still to
be applied. -/
structure Round (build : Build) (table : Table) (s : Engine) (queue r : List ℕ) : Prop where
  shape : Shape build table s
  holds : Holds build (s.keyBuffer.map (·.keycode)) (Spare build table) s queue
  full : Full s queue
  nodup : r.Nodup
  owed : ∀ p ∈ queue, ¬ Spare build table p → p ∈ r
  sub : ∀ p ∈ r, p ∈ queue
  orderly : Orderly build table s.trace
  lost : (ledger table s.trace).lost = false

/-- An entry changes in other ways. -/
theorem Holds.keep (h : Holds build codes spare s queue) (c : ℕ) {f : Combo → Combo}
    (hf : ∀ combo, (f combo).keys = combo.keys ∧ (f combo).disabled = combo.disabled ∧
      (f combo).state = combo.state) :
    Holds build codes spare (s.modifyCombo c f) queue := by
  refine ⟨h.ring, h.short, h.nodup, fun p hp => (h.live p hp).imp_right ?_, ?_⟩
  · rintro ⟨combo, hcombo, hlive⟩
    by_cases heq : c = p
    · refine ⟨f combo, by simp [heq, hcombo], ?_⟩
      rwa [(hf combo).1, (hf combo).2.1]
    · exact ⟨combo, by simp [heq, hcombo], hlive⟩
  · intro p combo hp hdisabled
    rw [combos_modifyCombo] at hp
    split_ifs at hp
    · obtain ⟨old, hold, rfl⟩ := Option.map_eq_some_iff.mp hp
      rw [(hf old).2.1] at hdisabled
      rw [(hf old).1, (hf old).2.2]
      exact h.bits p old hold hdisabled
    · exact h.bits p combo hp hdisabled

theorem Full.keep (h : Full s queue) (c : ℕ) {f : Combo → Combo}
    (hf : ∀ combo, (f combo).keys = combo.keys ∧ (f combo).disabled = combo.disabled ∧
      (f combo).state = combo.state) : Full (s.modifyCombo c f) queue := by
  intro p combo hp hdisabled
  rw [combos_modifyCombo] at hp
  split_ifs at hp
  · obtain ⟨old, hold, rfl⟩ := Option.map_eq_some_iff.mp hp
    rw [(hf old).2.1] at hdisabled
    rw [(hf old).1, (hf old).2.2]
    exact h p old hold hdisabled
  · exact h p combo hp hdisabled

/-- An active combo is disabled. -/
theorem Shape.apply (h : Shape build table s) (c : ℕ) :
    Shape build table ((s.modifyCombo c Combo.activate).modifyCombo c Combo.disable) := by
  have hboth := h.modify c (f := Combo.disable ∘ Combo.activate) (fun _ => ⟨rfl, rfl⟩)
    fun _ _ _ => rfl
  rwa [Engine.modifyCombo, ← List.modify_modify_eq] at hboth

/-- A combo is applied, but is still in the ring. -/
def activated (build : Build) (p : ℕ) (combo : Combo) (s : Engine) : Engine :=
  ({ s with keyBuffer := (applyComboLoop build p combo 0 s.keyBuffer).1 }.modifyCombo p
    Combo.activate).note (.activated p)

/-- A combo whose keys are all in the buffer is applied. -/
theorem applyCombo_eq (hc : s.combos[c]? = some combo) (hdisabled : combo.disabled = false)
    (hkeys : Complete build (s.keyBuffer.map (·.keycode)) combo.keys) :
    applyCombo build c s = dropComboFromBuffer build c (activated build c combo s) := by
  obtain ⟨hpos, hbits, hall⟩ := hkeys
  have hzero : allKeysDown 0 combo.keys.length = false := by
    have hone := Nat.one_lt_two_pow (Nat.pos_iff_ne_zero.mp hpos)
    simp only [allKeysDown, decide_eq_false_iff_not]
    omega
  have hactivated : (applyComboLoop build c combo 0 s.keyBuffer).2 = true := by
    refine applyComboLoop_activated hbits (Nat.two_pow_pos _) hzero fun i hi => Or.inr ?_
    obtain ⟨keycode, hmem, hindex⟩ := hall i hi
    obtain ⟨q, hq, rfl⟩ := List.mem_map.mp hmem
    exact ⟨q, hq, hindex⟩
  unfold applyCombo
  simp only [hc, hdisabled, hactivated, Bool.false_eq_true, if_false, if_true]
  rfl

theorem codes_activated (build : Build) (p : ℕ) (combo : Combo) (s : Engine) :
    (activated build p combo s).keyBuffer.map (·.keycode) = s.keyBuffer.map (·.keycode) :=
  applyComboLoop_codes 0 s.keyBuffer

theorem Shape.activated (h : Shape build table s) (p : ℕ) (combo : Combo) :
    Shape build table ((activated build p combo s).modifyCombo p Combo.disable) := by
  have hbuffer : Shape build table
      { s with keyBuffer := (applyComboLoop build p combo 0 s.keyBuffer).1 } :=
    ⟨h.table, h.slots, h.read_lt, h.write_lt, h.applied, h.noWrap⟩
  exact (hbuffer.apply p).note (n := .activated p) nofun

theorem Holds.activated (h : Holds build codes spare s queue) (p : ℕ) (combo : Combo) :
    Holds build codes spare (activated build p combo s) queue := by
  have hbuffer : Holds build codes spare
      { s with keyBuffer := (applyComboLoop build p combo 0 s.keyBuffer).1 } queue :=
    ⟨h.ring, h.short, h.nodup, h.live, h.bits⟩
  exact (hbuffer.keep p (f := Combo.activate) fun _ => ⟨rfl, rfl, rfl⟩).note _

theorem Full.activated (h : Full s queue) (build : Build) (p : ℕ) (combo : Combo) :
    Full (activated build p combo s) queue := by
  have hbuffer : Full { s with keyBuffer := (applyComboLoop build p combo 0 s.keyBuffer).1 }
    queue := h
  exact hbuffer.keep p (f := Combo.activate) fun _ => ⟨rfl, rfl, rfl⟩

/-- The combo at the head is not to be applied any more. -/
theorem Round.erase (h : Round build table s (p :: queue) r) :
    (r.erase p).Nodup ∧ (∀ p' ∈ queue, ¬ Spare build table p' → p' ∈ r.erase p) ∧
      ∀ p' ∈ r.erase p, p' ∈ queue := by
  have hnot : p ∉ queue := (List.nodup_cons.mp h.holds.nodup).1
  refine ⟨h.nodup.erase p, fun p' hp' hspare => ?_, fun p' hp' => ?_⟩
  · rw [h.nodup.mem_erase_iff]
    refine ⟨?_, h.owed p' (List.mem_cons_of_mem _ hp') hspare⟩
    rintro rfl
    exact hnot hp'
  · obtain ⟨hne, hmem⟩ := h.nodup.mem_erase_iff.mp hp'
    exact (List.mem_cons.mp (h.sub p' hmem)).resolve_left hne

/-- The combo at the head must be tapped. -/
theorem Round.tapOnly (h : Round build table s (p :: queue) r) :
    Round build table (dropHead build (s.note (.tapOnly p)) p) queue (r.erase p) := by
  obtain ⟨hnodup, howed, hsub⟩ := h.erase
  have hfull : Full (s.note (.tapOnly p)) (p :: queue) := h.full
  have hshape : Shape build table (s.note (.tapOnly p)) := h.shape.note nofun
  exact ⟨hshape.dropHead p, (h.holds.note _).dropHead, hfull.dropHead, hnodup, howed, hsub,
    ⟨h.orderly, trivial⟩, h.lost⟩

theorem ledger_activated {trace : List Note} (hr : (ledger table trace).round = some r)
    (hp : p ∈ r) :
    ledger table (.activated p :: trace) =
      { ledger table trace with round := some (r.erase p) } := by
  simp [ledger, Ledger.see, hr, hp]

/-- The combo at the head is applied. -/
theorem Round.activated (h : Round build table s (p :: queue) r)
    (hr : (ledger table s.trace).round = some r) (hp : p ∈ r) (combo : Combo) :
    Round build table (dropHead build (activated build p combo s) p) queue (r.erase p) := by
  obtain ⟨hnodup, howed, hsub⟩ := h.erase
  have hshape := h.shape.activated p combo
  refine ⟨⟨hshape.table, hshape.slots, incrementMod_lt build.comboBufferLength_pos _,
    hshape.write_lt, hshape.applied, hshape.noWrap⟩, ?_, (h.full.activated build p combo).dropHead,
    hnodup, howed, hsub, ⟨h.orderly, trivial⟩, ?_⟩
  · have hcodes := codes_activated build p combo s
    have hholds := (h.holds.activated p combo).dropHead
    rw [← hcodes] at hholds
    exact hholds
  · exact (congrArg Ledger.lost (ledger_activated hr hp)).trans h.lost

/-- The loop of {lit}`apply_combos` is through. -/
theorem applyCombosLoop_nil {n : ℕ} (h : s.comboBufferRead = s.comboBufferWrite) :
    applyCombosLoop build n s.comboBufferRead s = s := by
  cases n with
  | zero => rfl
  | succ n => rw [Combos.applyCombosLoop, if_neg (not_not.mpr h)]

/-- The combo at the head has an entry, which is live if it need not be tapped. -/
theorem Round.head (h : Round build table s (p :: queue) r) :
    ∃ combo : Combo, s.combos[p]? = some combo ∧ (build.mustTap p combo.keycode = false →
      combo.disabled = false ∧ Complete build (s.keyBuffer.map (·.keycode)) combo.keys ∧
        p ∈ r) := by
  rcases h.holds.live p List.mem_cons_self with ⟨entry, hentry, htap⟩ |
    ⟨combo, hc, hdisabled, hkeys⟩
  · rw [← h.shape.table, Engine.table, List.getElem?_map] at hentry
    obtain ⟨combo, hc, rfl⟩ := Option.map_eq_some_iff.mp hentry
    exact ⟨combo, hc, fun hnot => absurd (htap.symm.trans hnot).symm Bool.false_ne_true⟩
  · refine ⟨combo, hc, fun hnot => ⟨hdisabled, hkeys, ?_⟩⟩
    refine h.owed p List.mem_cons_self ?_
    rw [spare_iff h.shape hc, hnot]
    exact Bool.false_ne_true

/-- Each ready combo is applied once. -/
theorem Round.applyCombosLoop {n : ℕ} (h : Round build table s queue r)
    (hr : (ledger table s.trace).round = some r) (hn : queue.length ≤ n) :
    Round build table (applyCombosLoop build n s.comboBufferRead s) [] [] ∧
      (ledger table (Combos.applyCombosLoop build n s.comboBufferRead s).trace).round =
        some [] := by
  induction queue generalizing s r n with
  | nil =>
    rw [applyCombosLoop_nil h.holds.ring]
    cases r with
    | nil => exact ⟨h, hr⟩
    | cons p r => exact absurd (h.sub p List.mem_cons_self) List.not_mem_nil
  | cons p queue ih =>
    obtain ⟨n, rfl⟩ := Nat.exists_eq_succ_of_ne_zero (n := n) (by
      rintro rfl
      simp at hn)
    obtain ⟨combo, hc, hlive⟩ := h.head
    have hring := h.holds.ring
    rw [Combos.applyCombosLoop, if_pos hring.1, hring.2.1]
    simp only [hc]
    have hn' : queue.length ≤ n := by simpa using hn
    cases htap : build.mustTap p combo.keycode with
    | true =>
      have hstep := h.tapOnly
      have hround : (ledger table (dropHead build (s.note (.tapOnly p)) p).trace).round =
          some (r.erase p) := by
        have hsee : (ledger table (.tapOnly p :: s.trace)).round =
            (ledger table s.trace).round.map (·.erase p) := rfl
        rw [hr] at hsee
        exact hsee
      rw [dropCombo_head (s := s.note (.tapOnly p)) build.comboBufferLength_pos hring]
      exact ih hstep hround hn'
    | false =>
      obtain ⟨hdisabled, hkeys, hmem⟩ := hlive htap
      have hstep := h.activated hr hmem combo
      rw [applyCombo_eq hc hdisabled hkeys, dropCombo_head (s := Combos.activated build p combo s)
        build.comboBufferLength_pos hring]
      have hround : (ledger table (dropHead build (Combos.activated build p combo s) p).trace).round
          = some (r.erase p) := congrArg Ledger.round (ledger_activated hr hmem)
      exact ih hstep hround hn'

/-- All ready combos are still to be applied. -/
theorem Inv.all (h : Inv build table (s.keyBuffer.map (·.keycode)) s)
    (horderly : Orderly build table s.trace) :
    Round build table s (ledger table s.trace).ready (ledger table s.trace).ready where
  shape := h.shape
  holds := ⟨h.holds.ring, h.holds.short, h.holds.nodup, fun p hp =>
    Or.inr ((h.holds.live p hp).resolve_left id), h.holds.bits⟩
  full := h.full
  nodup := h.holds.nodup
  owed := fun _ hp _ => hp
  sub := fun _ hp => hp
  orderly := horderly
  lost := h.lost

/-- The loop of {lit}`apply_combos` with its notes. -/
def applyAll (build : Build) (s : Engine) : Engine :=
  (applyCombosLoop build build.comboBufferLength s.comboBufferRead (s.note .applying)).note
    .applied

theorem ledger_applied {trace : List Note} (hround : (ledger table trace).round = some [])
    (hlost : (ledger table trace).lost = false) :
    ledger table (.applied :: trace) = ⟨[], none, false⟩ := by
  simp [ledger, Ledger.see, hround, hlost]

/-- After that no combo is pending. -/
theorem Round.applyAll (h : Round build table s queue (ledger table s.trace).ready) :
    Inv build table ((applyAll build s).keyBuffer.map (·.keycode)) (applyAll build s) ∧
      (ledger table (Combos.applyAll build s).trace).ready = [] := by
  have hstart : Round build table (s.note .applying) queue (ledger table s.trace).ready :=
    ⟨h.shape.note nofun, h.holds.note _, h.full, h.nodup, h.owed, h.sub, ⟨h.orderly, trivial⟩,
      h.lost⟩
  obtain ⟨hend, hround⟩ := hstart.applyCombosLoop (n := build.comboBufferLength) rfl
    (Nat.le_of_lt h.holds.short)
  refine ⟨⟨hend.shape.note nofun, ⟨hend.holds.ring, hend.holds.short, hend.holds.nodup, nofun,
    hend.holds.bits⟩, hend.full, rfl, ?_⟩, rfl⟩
  exact congrArg Ledger.lost (ledger_applied hround hend.lost)

/-- A combo that must be tapped is applied when a key of it is released. -/
theorem Inv.tap (h : Inv build table (s.keyBuffer.map (·.keycode)) s)
    (horderly : Orderly build table s.trace) (hc : s.combos[c]? = some combo)
    (hdisabled : combo.disabled = false) (hne : combo.keys ≠ [])
    (hall : allKeysDown combo.state combo.keys.length = true)
    (htap : build.mustTap c combo.keycode = true) :
    ∃ queue, Round build table (applyCombo build c s) queue
      (ledger table (applyCombo build c s).trace).ready := by
  have hround := h.all horderly
  have hmem := h.full c combo hc hdisabled hne hall
  have hspare : Spare build table c := (spare_iff h.shape hc).mpr htap
  obtain ⟨old, hold, _, hkeys⟩ := (h.holds.live c hmem).resolve_left id
  obtain rfl := Option.some.inj (hc.symm.trans hold)
  have hledger : ledger table (.activated c :: s.trace) =
      { ledger table s.trace with ready := (ledger table s.trace).ready.erase c } := by
    simp [ledger, Ledger.see, h.round]
  have hlost : (ledger table (.activated c :: s.trace)).lost = false :=
    (congrArg Ledger.lost hledger).trans h.lost
  have hready : (ledger table (.activated c :: s.trace)).ready =
      (ledger table s.trace).ready.erase c := congrArg Ledger.ready hledger
  have hshape := h.shape.activated c combo
  have hholds := hround.holds.activated c combo
  rw [← codes_activated build c combo s] at hholds
  have hfull := hround.full.activated build c combo
  rw [applyCombo_eq hc hdisabled hkeys]
  generalize (ledger table s.trace).ready = queue at hround hmem hready hholds hfull
  have hnodup := hround.nodup
  rcases queue with _ | ⟨first, queue⟩
  · exact absurd hmem List.not_mem_nil
  by_cases hhead : c = first
  · subst hhead
    rw [dropCombo_head (s := activated build c combo s) build.comboBufferLength_pos hholds.ring]
    rw [List.erase_cons_head] at hready
    have hready' : (ledger table (dropHead build (activated build c combo s) c).trace).ready =
        queue := hready
    refine ⟨queue, ?_⟩
    rw [← dropHead, hready']
    exact ⟨⟨hshape.table, hshape.slots, incrementMod_lt build.comboBufferLength_pos _,
      hshape.write_lt, hshape.applied, hshape.noWrap⟩, hholds.dropHead, hfull.dropHead,
      (List.nodup_cons.mp hnodup).2, fun _ hp _ => hp, fun _ hp => hp, ⟨horderly, trivial⟩, hlost⟩
  · have htail : c ∈ queue := (List.mem_cons.mp hmem).resolve_left hhead
    rw [dropCombo_tail (s := activated build c combo s) hshape.read_lt hholds.ring
      hholds.short hhead htail]
    have hready' : (ledger table
        ((activated build c combo s).modifyCombo c Combo.disable).trace).ready =
          (first :: queue).erase c := hready
    refine ⟨first :: queue, ?_⟩
    rw [hready']
    refine ⟨hshape, hholds.disable fun _ => hspare, ?_, hnodup.erase c, fun p hp hnot => ?_,
      fun p hp => List.mem_of_mem_erase hp, ⟨horderly, trivial⟩, hlost⟩
    · exact (hfull.mono fun p hp => List.mem_cons_of_mem c hp).disable
    · rw [hnodup.mem_erase_iff]
      refine ⟨?_, hp⟩
      rintro rfl
      exact hnot hspare

end Rounds

/-! ## Nothing becomes ready -/

section Quiet

variable {build : Build} {table : Table} {codes : List UInt16} {s s' : Engine} {c : ℕ}

/-- More keycodes do not hurt. -/
theorem Inv.mono {codes' : List UInt16} (h : Inv build table codes s)
    (hcodes : ∀ k ∈ codes, k ∈ codes') : Inv build table codes' s :=
  ⟨h.shape, h.holds.mono hcodes, h.full, h.round, h.lost⟩

/-- The invariant is about the entries, the ring and the trace. -/
theorem Inv.congr (h : Inv build table codes s) (hcombos : s'.combos = s.combos)
    (hring : s'.comboBuffer = s.comboBuffer) (hread : s'.comboBufferRead = s.comboBufferRead)
    (hwrite : s'.comboBufferWrite = s.comboBufferWrite) (htrace : s'.trace = s.trace) :
    Inv build table codes s' := by
  obtain ⟨hshape, hholds, hfull, hround, hlost⟩ := h
  refine ⟨⟨?_, ?_, ?_, ?_, ?_, ?_⟩, ⟨?_, ?_, ?_, ?_, ?_⟩, ?_, ?_, ?_⟩
  · rw [Engine.table, hcombos]
    exact hshape.table
  · rw [hring]
    exact hshape.slots
  · rw [hread]
    exact hshape.read_lt
  · rw [hwrite]
    exact hshape.write_lt
  · rw [hcombos]
    exact hshape.applied
  · rw [htrace]
    exact hshape.noWrap
  · rw [hring, hread, hwrite, htrace]
    exact hholds.ring
  · rw [htrace]
    exact hholds.short
  · rw [htrace]
    exact hholds.nodup
  · rw [htrace]
    unfold Live
    rw [hcombos]
    exact hholds.live
  · rw [hcombos]
    exact hholds.bits
  · unfold Full
    rw [hcombos, htrace]
    exact hfull
  · rw [htrace]
    exact hround
  · rw [htrace]
    exact hlost

/-- A note that the ledger does not heed. -/
theorem Inv.note (h : Inv build table codes s) {n : Note}
    (hn : ∀ comboIndex, n ≠ .queued comboIndex true)
    (hsee : (ledger table s.trace).see table n = ledger table s.trace) :
    Inv build table codes (s.note n) := by
  have hledger : ledger table (s.note n).trace = ledger table s.trace := hsee
  refine ⟨h.shape.note hn, ?_, ?_, ?_, ?_⟩
  · rw [hledger]
    exact h.holds.note n
  · rw [hledger]
    exact h.full
  · rw [hledger]
    exact h.round
  · rw [hledger]
    exact h.lost

/-- An entry changes, but does not become live or ready. -/
theorem Inv.keep (h : Inv build table codes s) (c : ℕ) {f : Combo → Combo}
    (hf : ∀ combo, (f combo).keys = combo.keys ∧ (f combo).disabled = combo.disabled ∧
      (f combo).state = combo.state) (hkeycode : ∀ combo, (f combo).keycode = combo.keycode)
    (happlied : ∀ combo, (combo.active = true → combo.disabled = true) →
      (f combo).active = true → (f combo).disabled = true) :
    Inv build table codes (s.modifyCombo c f) :=
  ⟨h.shape.modify c (fun combo => ⟨(hf combo).1, hkeycode combo⟩) happlied, h.holds.keep c hf,
    h.full.keep c hf, h.round, h.lost⟩

theorem trace_dropComboLoop (n i : ℕ) (s : Engine) :
    (dropComboLoop build c n i s).trace = s.trace := by
  induction n generalizing i with
  | zero => rfl
  | succ n ih =>
    unfold dropComboLoop
    dsimp only
    split_ifs
    · rfl
    · rfl
    · exact ih _
    · rfl

/-- A key release drops a combo, that is not ready or at the head. -/
theorem Inv.dropped (h : Inv build table codes s)
    (horderly : (Note.dropped c).Orderly build table (ledger table s.trace)) :
    Inv build table codes (dropComboFromBuffer build c (s.note (.dropped c))) := by
  have hshape : Shape build table (s.note (.dropped c)) := h.shape.note nofun
  have hholds := h.holds.note (.dropped c)
  have hready : (ledger table (.dropped c :: s.trace)).ready =
      (ledger table s.trace).ready.erase c := rfl
  by_cases hmem : c ∈ (ledger table s.trace).ready
  · have hhead := horderly hmem
    have hfull : Full (s.note (.dropped c)) (ledger table s.trace).ready := h.full
    rcases hqueue : (ledger table s.trace).ready with _ | ⟨first, queue⟩
    · exact absurd (hqueue ▸ hmem) List.not_mem_nil
    · rw [hqueue] at hhead hready hholds hfull
      have heq : c = first := (Option.some.inj hhead).symm
      subst heq
      rw [List.erase_cons_head] at hready
      rw [dropCombo_head build.comboBufferLength_pos hholds.ring, ← dropHead]
      have hledger : ledger table (dropHead build (s.note (.dropped c)) c).trace =
          { ledger table s.trace with ready := queue } := by
        rw [← hready]
        rfl
      refine ⟨hshape.dropHead c, ?_, ?_, ?_, ?_⟩
      · rw [hledger]
        exact hholds.dropHead
      · rw [hledger]
        exact hfull.dropHead
      · rw [hledger]
        exact h.round
      · rw [hledger]
        exact h.lost
  · rw [List.erase_of_not_mem hmem] at hready
    rw [dropComboFromBuffer, dropCombo_not_mem hholds.ring hmem]
    refine h.note nofun ?_
    simp [Ledger.see, List.erase_of_not_mem hmem]

theorem allKeysDown_zero {keys : List UInt16} (hne : keys ≠ []) :
    allKeysDown 0 keys.length = false := by
  have hone := Nat.one_lt_two_pow (Nat.pos_iff_ne_zero.mp (List.length_pos_iff.mpr hne))
  simp only [allKeysDown, decide_eq_false_iff_not]
  omega

/-- All other entries are reset. -/
theorem inv_clearCombos (h : Inv build table codes s) (hready : (ledger table s.trace).ready = []) :
    Inv build table [] (clearCombos s) := by
  have hentry : ∀ (p : ℕ) (combo : Combo), (clearCombos s).combos[p]? = some combo →
      combo.disabled = false → combo.state = 0 := by
    intro p combo hp hdisabled
    obtain ⟨old, hold, rfl⟩ := Option.map_eq_some_iff.mp
      ((List.getElem?_map ..).symm.trans hp)
    split_ifs at hdisabled ⊢ with hactive
    · exact absurd (h.shape.applied p old hold hactive) (by simp [hdisabled])
    · rfl
  have hshape : Shape build table (clearCombos s) := by
    refine ⟨?_, h.shape.slots, h.shape.read_lt, h.shape.write_lt, ?_, h.shape.noWrap⟩
    · rw [← h.shape.table]
      simp only [clearCombos, Engine.table, List.map_map]
      congr 1
      funext combo
      simp only [Function.comp]
      split_ifs <;> rfl
    · intro p combo hp hactive
      obtain ⟨old, hold, rfl⟩ := Option.map_eq_some_iff.mp
        ((List.getElem?_map ..).symm.trans hp)
      split_ifs at hactive ⊢ with hwas
      · exact h.shape.applied p old hold hactive
      · exact absurd hactive hwas
  refine ⟨hshape, ⟨h.holds.ring, h.holds.short, h.holds.nodup, ?_, ?_⟩, ?_, h.round, h.lost⟩
  · intro p hp
    have hp' : p ∈ (ledger table s.trace).ready := hp
    rw [hready] at hp'
    exact absurd hp' List.not_mem_nil
  · intro p combo hp hdisabled i hi
    rw [hentry p combo hp hdisabled, Nat.zero_testBit] at hi
    exact absurd hi Bool.false_ne_true
  · intro p combo hp hdisabled hne hall
    rw [hentry p combo hp hdisabled, allKeysDown_zero hne] at hall
    exact absurd hall Bool.false_ne_true

theorem testBit_keyStateUp {state k i : ℕ} (h : (keyStateUp state k).testBit i = true) :
    state.testBit i = true := by
  rw [keyStateUp, Nat.testBit_xor, Nat.testBit_and] at h
  by_contra hnot
  simp [hnot] at h

theorem testBit_keyStateUp_self (state k : ℕ) : (keyStateUp state k).testBit k = false := by
  rw [keyStateUp, Nat.testBit_xor, Nat.testBit_and, Nat.testBit_two_pow_self]
  simp

/-- A key of a combo goes up. -/
theorem Inv.keyUp (h : Inv build table codes s) {k : ℕ} (hk : k < (table.keys c).length) :
    Inv build table codes
      (s.modifyCombo c fun combo => { combo with state := keyStateUp combo.state k }) := by
  refine ⟨h.shape.modify c (fun _ => ⟨rfl, rfl⟩) fun _ happlied => happlied,
    ⟨h.holds.ring, h.holds.short, h.holds.nodup, fun p hp => Or.inr ?_, ?_⟩, ?_, h.round, h.lost⟩
  · obtain ⟨combo, hcombo, hlive⟩ := (h.holds.live p hp).resolve_left id
    by_cases heq : c = p
    · exact ⟨{ combo with state := keyStateUp combo.state k }, by simp [heq, hcombo], hlive⟩
    · exact ⟨combo, by simp [heq, hcombo], hlive⟩
  · intro p combo hp hdisabled i hi
    rw [combos_modifyCombo] at hp
    split_ifs at hp
    · obtain ⟨old, hold, rfl⟩ := Option.map_eq_some_iff.mp hp
      exact h.holds.bits p old hold hdisabled i (testBit_keyStateUp hi)
    · exact h.holds.bits p combo hp hdisabled i hi
  · intro p combo hp hdisabled hne hall
    rw [combos_modifyCombo] at hp
    split_ifs at hp with heq
    · obtain ⟨old, hold, rfl⟩ := Option.map_eq_some_iff.mp hp
      subst heq
      rw [← h.shape.table, keys_table hold] at hk
      have hbit := testBit_keyStateUp_self old.state k
      have hstate : 2 ^ old.keys.length - 1 = keyStateUp old.state k := of_decide_eq_true hall
      rw [← hstate, Nat.testBit_two_pow_sub_one, decide_eq_true hk] at hbit
      exact absurd hbit nofun
    · exact h.full p combo hp hdisabled hne hall

end Quiet

end Combos
end VialQmk
