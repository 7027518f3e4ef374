import VialQmk.Keys.Action
import Mathlib.Data.List.Basic

/-!
# Keys - the keyboard report

The report has six slots for keys and one bit for each modifier.  Weak modifiers belong to
a key with modifiers and go with it.  A basic keycode takes a free slot, if there is one,
and gives it back.

Main results:

- Definition {lit}`processAction`: what a key action does to the report, on press and on
  release.
- Theorem {lit}`processAction_press`: a press adds at most what the action is for.
- Theorem {lit}`processAction_release`: a release leaves none of it behind.
-/

namespace VialQmk
namespace Keys

/-- {lit}`KEYBOARD_REPORT_KEYS` -/
def keyboardReportKeys : ℕ :=
  6

/-- The keys and modifiers of the keyboard report. -/
structure Report where
  keys : List ℕ
  realMods : BitVec 8
  weakMods : BitVec 8
deriving DecidableEq

/-- Nothing is registered. -/
def Report.empty : Report where
  keys := List.replicate keyboardReportKeys 0
  realMods := 0
  weakMods := 0

/-! ## Keys -/

/-- The first free slot takes the code. -/
def fillSlot (code : ℕ) : List ℕ → List ℕ
  | [] => []
  | k :: ks => if k = 0 then code :: ks else k :: fillSlot code ks

/-- {lit}`add_key_byte` -/
def addKeyByte (code : ℕ) (keys : List ℕ) : List ℕ :=
  if code ∈ keys then keys else fillSlot code keys

/-- {lit}`del_key_byte` -/
def delKeyByte (code : ℕ) (keys : List ℕ) : List ℕ :=
  keys.map fun k => if k = code then 0 else k

/-! ## Modifiers -/

/-- {lit}`MOD_BIT` -/
def modBit (code : ℕ) : BitVec 8 :=
  BitVec.ofNat 8 (1 <<< (code &&& 0x07))

/-- {lit}`add_mods` -/
def Report.addMods (r : Report) (mods : BitVec 8) : Report :=
  { r with realMods := r.realMods ||| mods }

/-- {lit}`del_mods` -/
def Report.delMods (r : Report) (mods : BitVec 8) : Report :=
  { r with realMods := r.realMods &&& ~~~mods }

/-- {lit}`add_weak_mods` -/
def Report.addWeakMods (r : Report) (mods : BitVec 8) : Report :=
  { r with weakMods := r.weakMods ||| mods }

/-- {lit}`del_weak_mods` -/
def Report.delWeakMods (r : Report) (mods : BitVec 8) : Report :=
  { r with weakMods := r.weakMods &&& ~~~mods }

/-- {lit}`clear_weak_mods` -/
def Report.clearWeakMods (r : Report) : Report :=
  { r with weakMods := 0 }

/-! ## Codes -/

/-- {lit}`register_code`, on the keyboard report -/
def registerCode (code : ℕ) (r : Report) : Report :=
  if isBasicKeycode code then
    -- a key that is down already is pressed anew
    let keys := if code ∈ r.keys then delKeyByte code r.keys else r.keys
    { r with keys := addKeyByte code keys }
  else if isModifierKeycode code then r.addMods (modBit code)
  else r

/-- {lit}`unregister_code`, on the keyboard report -/
def unregisterCode (code : ℕ) (r : Report) : Report :=
  if isBasicKeycode code then { r with keys := delKeyByte code r.keys }
  else if isModifierKeycode code then r.delMods (modBit code)
  else r

/-! ## Actions -/

/-- The modifiers of a key action, on the left or the right side. -/
def Action.mods (a : Action) : BitVec 8 :=
  BitVec.ofNat 8 (if a.kind = 0b0000 then a.keyMods else a.keyMods <<< 4)

/-- {lit}`ACT_LMODS` or {lit}`ACT_RMODS` -/
def Action.isModsKey (a : Action) : Bool :=
  a.kind = 0b0000 || a.kind = 0b0001

/-- The modifiers of a key action are registered by themselves, not as weak ones. -/
def Action.modsAreReal (a : Action) : Bool :=
  isModifierKeycode a.keyCode || a.keyCode = kcNo

/-- {lit}`process_action`, for key actions.  The other kinds leave the keys alone that are
registered by plain keycodes. -/
def processAction (pressed : Bool) (a : Action) (r : Report) : Report :=
  if a.isModsKey then
    if pressed then
      let r :=
        if a.mods ≠ 0 then if a.modsAreReal then r.addMods a.mods else r.addWeakMods a.mods else r
      registerCode a.keyCode r
    else
      let r := unregisterCode a.keyCode r
      if a.mods ≠ 0 then if a.modsAreReal then r.delMods a.mods else r.delWeakMods a.mods else r
  else r

/-! ## What an action is for -/

/-- The keys and modifiers that belong to an action. -/
structure Share where
  key : ℕ → Prop
  real : ℕ → Prop
  weak : ℕ → Prop

/-- A key or modifier of a key action. -/
def Action.share (a : Action) : Share where
  key k := a.isModsKey = true ∧ isBasicKeycode a.keyCode = true ∧ k = a.keyCode
  real i := a.isModsKey = true ∧
    ((a.modsAreReal = true ∧ a.mods.getLsbD i = true) ∨
      (isModifierKeycode a.keyCode = true ∧ (modBit a.keyCode).getLsbD i = true))
  weak i := a.isModsKey = true ∧ a.modsAreReal = false ∧ a.mods.getLsbD i = true

/-- What is registered belongs to one of the actions. -/
structure Report.Within (r : Report) (S : Share) : Prop where
  keys : ∀ k ∈ r.keys, k ≠ 0 → S.key k
  real : ∀ i, r.realMods.getLsbD i = true → S.real i
  weak : ∀ i, r.weakMods.getLsbD i = true → S.weak i

/-- What belongs to one or the other. -/
def Share.or (S T : Share) : Share where
  key k := S.key k ∨ T.key k
  real i := S.real i ∨ T.real i
  weak i := S.weak i ∨ T.weak i

/-- What belongs to the first, and not to the second. -/
def Share.without (S T : Share) : Share where
  key k := S.key k ∧ ¬ T.key k
  real i := S.real i ∧ ¬ T.real i
  weak i := S.weak i ∧ ¬ T.weak i

/-- What a share holds, a larger one holds. -/
theorem Report.Within.mono {r : Report} {S T : Share} (h : r.Within S)
    (hkey : ∀ k, S.key k → T.key k) (hreal : ∀ i, S.real i → T.real i)
    (hweak : ∀ i, S.weak i → T.weak i) : r.Within T where
  keys k hk hne := hkey k (h.keys k hk hne)
  real i hi := hreal i (h.real i hi)
  weak i hi := hweak i (h.weak i hi)

theorem mem_fillSlot {code k : ℕ} {keys : List ℕ} (h : k ∈ fillSlot code keys) :
    k = code ∨ k ∈ keys := by
  induction keys with
  | nil => exact Or.inr h
  | cons x xs ih =>
    rw [fillSlot] at h
    split_ifs at h
    · rw [List.mem_cons] at h
      exact h.imp_right (List.mem_cons_of_mem x)
    · rw [List.mem_cons] at h
      rcases h with rfl | h
      · exact Or.inr List.mem_cons_self
      · exact (ih h).imp_right (List.mem_cons_of_mem x)

theorem mem_addKeyByte {code k : ℕ} {keys : List ℕ} (h : k ∈ addKeyByte code keys) :
    k = code ∨ k ∈ keys := by
  unfold addKeyByte at h
  split_ifs at h
  · exact Or.inr h
  · exact mem_fillSlot h

theorem mem_delKeyByte {code k : ℕ} {keys : List ℕ} (h : k ∈ delKeyByte code keys) (hk : k ≠ 0) :
    k ∈ keys ∧ k ≠ code := by
  rw [delKeyByte, List.mem_map] at h
  rcases h with ⟨x, hx, rfl⟩
  split_ifs at hk ⊢ with hcode
  · exact absurd rfl hk
  · exact ⟨hx, hcode⟩

theorem keys_registerCode {code k : ℕ} {r : Report} (h : k ∈ (registerCode code r).keys)
    (hk : k ≠ 0) : k ∈ r.keys ∨ (isBasicKeycode code = true ∧ k = code) := by
  unfold registerCode at h
  by_cases hbasic : isBasicKeycode code = true
  · rw [if_pos hbasic] at h
    rcases mem_addKeyByte h with rfl | h
    · exact Or.inr ⟨hbasic, rfl⟩
    · split_ifs at h
      · exact Or.inl (mem_delKeyByte h hk).1
      · exact Or.inl h
  · rw [if_neg hbasic] at h
    split_ifs at h
    · exact Or.inl h
    · exact Or.inl h

theorem real_registerCode {code i : ℕ} {r : Report}
    (h : (registerCode code r).realMods.getLsbD i = true) :
    r.realMods.getLsbD i = true ∨ (isModifierKeycode code = true ∧ (modBit code).getLsbD i = true) := by
  unfold registerCode at h
  by_cases hbasic : isBasicKeycode code = true
  · rw [if_pos hbasic] at h
    exact Or.inl h
  rw [if_neg hbasic] at h
  by_cases hmod : isModifierKeycode code = true
  · rw [if_pos hmod] at h
    unfold Report.addMods at h
    rw [BitVec.getLsbD_or, Bool.or_eq_true] at h
    exact h.imp_right fun hi => ⟨hmod, hi⟩
  · rw [if_neg hmod] at h
    exact Or.inl h

theorem weak_registerCode (code : ℕ) (r : Report) : (registerCode code r).weakMods = r.weakMods := by
  unfold registerCode
  split_ifs <;> rfl

theorem keys_unregisterCode {code k : ℕ} {r : Report} (h : k ∈ (unregisterCode code r).keys)
    (hk : k ≠ 0) : k ∈ r.keys ∧ ¬ (isBasicKeycode code = true ∧ k = code) := by
  unfold unregisterCode at h
  split_ifs at h with hbasic hmod
  · have hmem := mem_delKeyByte h hk
    exact ⟨hmem.1, fun hown => hmem.2 hown.2⟩
  · exact ⟨h, fun hown => hbasic hown.1⟩
  · exact ⟨h, fun hown => hbasic hown.1⟩

/-- A modifier code is no basic code. -/
theorem isBasicKeycode_of_modifier {code : ℕ} (h : isModifierKeycode code = true) :
    ¬ isBasicKeycode code = true := by
  rw [isModifierKeycode, Bool.and_eq_true, decide_eq_true_eq] at h
  rw [isBasicKeycode, Bool.and_eq_true, decide_eq_true_eq, decide_eq_true_eq]
  omega

theorem getLsbD_delMods {m n : BitVec 8} {i : ℕ} (h : (m &&& ~~~n).getLsbD i = true) :
    m.getLsbD i = true ∧ ¬ n.getLsbD i = true := by
  rw [BitVec.getLsbD_and, Bool.and_eq_true, BitVec.getLsbD_not] at h
  simp only [Bool.and_eq_true, Bool.not_eq_true'] at h
  exact ⟨h.1, by simp [h.2.2]⟩

theorem real_unregisterCode {code i : ℕ} {r : Report}
    (h : (unregisterCode code r).realMods.getLsbD i = true) :
    r.realMods.getLsbD i = true ∧
      ¬ (isModifierKeycode code = true ∧ (modBit code).getLsbD i = true) := by
  unfold unregisterCode at h
  split_ifs at h with hbasic hmod
  · exact ⟨h, fun hown => isBasicKeycode_of_modifier hown.1 hbasic⟩
  · rcases getLsbD_delMods h with ⟨hr, hnot⟩
    exact ⟨hr, fun hown => hnot hown.2⟩
  · exact ⟨h, fun hown => hmod hown.1⟩

theorem weak_unregisterCode (code : ℕ) (r : Report) :
    (unregisterCode code r).weakMods = r.weakMods := by
  unfold unregisterCode
  split_ifs <;> rfl

/-- The modifiers of the action, on a press. -/
def Report.pressMods (r : Report) (a : Action) : Report :=
  if a.mods ≠ 0 then if a.modsAreReal then r.addMods a.mods else r.addWeakMods a.mods else r

/-- The modifiers of the action, on a release. -/
def Report.releaseMods (r : Report) (a : Action) : Report :=
  if a.mods ≠ 0 then if a.modsAreReal then r.delMods a.mods else r.delWeakMods a.mods else r

section Mods

variable {r : Report} {a : Action} {i : ℕ}

theorem pressMods_keys (r : Report) (a : Action) : (r.pressMods a).keys = r.keys := by
  unfold Report.pressMods
  split_ifs <;> rfl

theorem pressMods_real (h : (r.pressMods a).realMods.getLsbD i = true) :
    r.realMods.getLsbD i = true ∨ (a.modsAreReal = true ∧ a.mods.getLsbD i = true) := by
  unfold Report.pressMods at h
  split_ifs at h with hmods hreal
  · unfold Report.addMods at h
    rw [BitVec.getLsbD_or, Bool.or_eq_true] at h
    exact h.imp_right fun hi => ⟨hreal, hi⟩
  · exact Or.inl h
  · exact Or.inl h

theorem pressMods_weak (h : (r.pressMods a).weakMods.getLsbD i = true) :
    r.weakMods.getLsbD i = true ∨ (a.modsAreReal = false ∧ a.mods.getLsbD i = true) := by
  unfold Report.pressMods at h
  split_ifs at h with hmods hreal
  · exact Or.inl h
  · unfold Report.addWeakMods at h
    rw [BitVec.getLsbD_or, Bool.or_eq_true] at h
    exact h.imp_right fun hi => ⟨Bool.eq_false_iff.mpr hreal, hi⟩
  · exact Or.inl h

theorem releaseMods_keys (r : Report) (a : Action) : (r.releaseMods a).keys = r.keys := by
  unfold Report.releaseMods
  split_ifs <;> rfl

theorem releaseMods_real (h : (r.releaseMods a).realMods.getLsbD i = true) :
    r.realMods.getLsbD i = true ∧ ¬ (a.modsAreReal = true ∧ a.mods.getLsbD i = true) := by
  unfold Report.releaseMods at h
  split_ifs at h with hmods hreal
  · rcases getLsbD_delMods h with ⟨hr, hnot⟩
    exact ⟨hr, fun hown => hnot hown.2⟩
  · exact ⟨h, fun hown => hreal hown.1⟩
  · refine ⟨h, fun hown => ?_⟩
    rw [ne_eq, not_not] at hmods
    rw [hmods] at hown
    simp at hown

theorem releaseMods_weak (h : (r.releaseMods a).weakMods.getLsbD i = true) :
    r.weakMods.getLsbD i = true ∧ ¬ (a.modsAreReal = false ∧ a.mods.getLsbD i = true) := by
  unfold Report.releaseMods at h
  split_ifs at h with hmods hreal
  · exact ⟨h, fun hown => Bool.false_ne_true (hown.1.symm.trans hreal)⟩
  · rcases getLsbD_delMods h with ⟨hr, hnot⟩
    exact ⟨hr, fun hown => hnot hown.2⟩
  · refine ⟨h, fun hown => ?_⟩
    rw [ne_eq, not_not] at hmods
    rw [hmods] at hown
    simp at hown

end Mods

/-- A press adds at most what the action is for. -/
theorem processAction_press {r : Report} {S : Share} (a : Action) (h : r.Within S) :
    (processAction true a r).Within (S.or a.share) := by
  by_cases hkind : a.isModsKey = true
  · have hstep : processAction true a r = registerCode a.keyCode (r.pressMods a) := by
      rw [processAction, if_pos hkind, if_pos rfl]
      rfl
    rw [hstep]
    constructor
    · intro k hk hne
      rcases keys_registerCode hk hne with hold | ⟨hbasic, rfl⟩
      · rw [pressMods_keys] at hold
        exact Or.inl (h.keys k hold hne)
      · exact Or.inr ⟨hkind, hbasic, rfl⟩
    · intro i hi
      rcases real_registerCode hi with hold | hcode
      · rcases pressMods_real hold with hold | hmods
        · exact Or.inl (h.real i hold)
        · exact Or.inr ⟨hkind, Or.inl hmods⟩
      · exact Or.inr ⟨hkind, Or.inr hcode⟩
    · intro i hi
      rw [weak_registerCode] at hi
      rcases pressMods_weak hi with hold | hmods
      · exact Or.inl (h.weak i hold)
      · exact Or.inr ⟨hkind, hmods⟩
  · rw [processAction, if_neg hkind]
    exact h.mono (fun _ => Or.inl) (fun _ => Or.inl) fun _ => Or.inl

/-- A release leaves nothing that the action is for. -/
theorem processAction_release {r : Report} {S : Share} (a : Action) (h : r.Within S) :
    (processAction false a r).Within (S.without a.share) := by
  by_cases hkind : a.isModsKey = true
  · have hstep : processAction false a r = (unregisterCode a.keyCode r).releaseMods a := by
      rw [processAction, if_pos hkind, if_neg Bool.false_ne_true]
      rfl
    rw [hstep]
    constructor
    · intro k hk hne
      rw [releaseMods_keys] at hk
      rcases keys_unregisterCode hk hne with ⟨hold, hnot⟩
      exact ⟨h.keys k hold hne, fun hown => hnot hown.2⟩
    · intro i hi
      rcases releaseMods_real hi with ⟨hold, hmods⟩
      rcases real_unregisterCode hold with ⟨hold, hcode⟩
      exact ⟨h.real i hold, fun hown => hown.2.elim hmods hcode⟩
    · intro i hi
      rcases releaseMods_weak hi with ⟨hold, hmods⟩
      rw [weak_unregisterCode] at hold
      exact ⟨h.weak i hold, fun hown => hmods hown.2⟩
  · rw [processAction, if_neg hkind]
    exact h.mono (fun _ hk => ⟨hk, fun hown => hkind hown.1⟩)
      (fun _ hi => ⟨hi, fun hown => hkind hown.1⟩) fun _ hi => ⟨hi, fun hown => hkind hown.1⟩

end Keys
end VialQmk
