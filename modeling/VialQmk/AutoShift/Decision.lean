import VialQmk.AutoShift.Process
import VialQmk.Library.Runs

/-!
# Auto Shift - shifted or not

A key that is taken over is settled by its own release, by the next press of a key, or by
the timeout, whichever is first.  It is to be shifted if the shift was on at its press, or
if its own press is the timeout or longer ago by then.

The code measures from one time stamp, which the release of any other auto-shifted key
overwrites, and it counts the milliseconds in 16 bits.

Main results:

- Definition {lit}`Tame`: no other auto-shifted key is released while a key is kept back,
  and it is not kept back for more than a minute.
- Theorem {lit}`decided`: in a run of such inputs every key taken over is sent once, and
  it is shifted by the rule.
-/

namespace VialQmk
namespace AutoShift

open Function (update update_self update_of_ne)
open Keys (kcNo)
open StateMachine

variable {K : Type} [DecidableEq K]

/-! ## Keys up and down -/

/-- A key that is taken over: when, and whether the shift was on. -/
structure Taken (K : Type) where
  key : K
  keycode : ℕ
  since : ℕ
  shift : Bool
deriving DecidableEq

/-- The keyboard with its clock, the keys that are down, and the key kept back. -/
structure Session (K : Type) where
  state : State K
  clock : ℕ
  held : K → Option ℕ
  pending : Option (Taken K)

/-- What happens.  A press comes with the keycode it has on its layer. -/
inductive Event (K : Type)
  | press (key : K) (keycode : ℕ)
  | release (key : K)
  | scan

/-- Some time passes, and an event meets these mods. -/
structure Input (K : Type) where
  elapsed : ℕ
  mods : UInt8
  oneshotMods : UInt8
  event : Event K

/-- The state an event meets. -/
def State.arrive (s : State K) (i : Input K) : State K :=
  { s with
    shifts := { s.shifts with mods := i.mods }
    oneshotMods := i.oneshotMods
    calls := [] }

variable (c : Config)

/-- One input.  A key that is down is not pressed, and one that is up not released. -/
def step (s : Session K) (i : Input K) : Session K :=
  let now := s.clock + i.elapsed
  let v := s.state.arrive i
  match i.event with
  | .press key keycode =>
    if (s.held key).isSome then { s with state := v, clock := now }
    else
      let t := (processAutoShift c v keycode (UInt16.ofNat now) ⟨key, true⟩).1
      { state := t
        clock := now
        held := update s.held key (some keycode)
        pending := if t.inProgress then some ⟨key, keycode, now, v.shiftHeld⟩ else none }
  | .release key =>
    match s.held key with
    | none => { s with state := v, clock := now }
    | some keycode =>
      let t := (processAutoShift c v keycode (UInt16.ofNat now) ⟨key, false⟩).1
      { state := t
        clock := now
        held := update s.held key none
        pending := if t.inProgress then s.pending else none }
  | .scan =>
    let t := matrixScan v (UInt16.ofNat now)
    { s with
      state := t
      clock := now
      pending := if t.inProgress then s.pending else none }

def Session.boot (settings : Settings) (timeout : UInt16) : Session K where
  state := .boot settings timeout
  clock := 0
  held := fun _ => none
  pending := none

/-! ## The rule -/

/-- How long ago the key was pressed, when the input arrives. -/
def Session.age (s : Session K) (p : Taken K) (i : Input K) : ℕ :=
  s.clock + i.elapsed - p.since

/-- The input settles the key: it is its own release, the press of another key, or a scan
after the timeout. -/
def Session.Settles (s : Session K) (p : Taken K) (i : Input K) : Prop :=
  match i.event with
  | .press key _ => s.held key = none
  | .release key => key = p.key
  | .scan => s.state.timeout.toNat ≤ s.age p i

/-- The rule: the shift was on at the press, or the key is held for the timeout. -/
def Session.shifts (s : Session K) (p : Taken K) (i : Input K) : Bool :=
  p.shift || s.state.timeout.toNat ≤ s.age p i

/-- What is sent for a key, and whether it is shifted. -/
def sentFor (key : K) (calls : List (Call K)) : List (ℕ × Bool) :=
  calls.filterMap fun
    | .pressUser keycode shifted (some record) =>
      if record.key = key then some (keycode, shifted) else none
    | _ => none

/-- The key kept back is sent by the rule when it is settled, and is kept back until then. -/
def Decided (s : Session K) (i : Input K) : Prop :=
  ∀ p ∈ s.pending,
    (s.Settles p i → sentFor p.key (step c s i).state.calls = [(p.keycode, s.shifts p i)]) ∧
    (¬ s.Settles p i → sentFor p.key (step c s i).state.calls = [] ∧
      (step c s i).pending = some p)

/-- The input is not the release of another auto-shifted key. -/
def Session.Undisturbed (s : Session K) (p : Taken K) (i : Input K) : Prop :=
  match i.event with
  | .release key =>
    key ≠ p.key → ∀ keycode ∈ s.held key, getAutoShiftedKey s.state.settings keycode = false
  | _ => True

/-- While a key is kept back, no other auto-shifted key is released, and the key is settled
before the 16 bits of the timer run over. -/
def Tame (s : Session K) (i : Input K) : Prop :=
  ∀ p ∈ s.pending, (s.Settles p i → s.age p i < 2 ^ 16) ∧ s.Undisturbed p i

/-! ## The variables while a key is kept back -/

/-- The static variables are those of the key kept back. -/
structure Tracks (v : State K) (p : Taken K) : Prop where
  enable : v.settings.enable = true
  shifted : getAutoShiftedKey v.settings p.keycode = true
  enabled : v.enabled = true
  inProgress : v.inProgress = true
  lastkey : v.lastkey = p.keycode
  lastshifted : v.lastshifted = p.shift
  time : v.time = UInt16.ofNat p.since
  lastrecord : v.lastrecord = some ⟨p.key, true⟩

/-- The invariant of the runs. -/
structure Inv (s : Session K) : Prop where
  noRepeat : s.state.settings.repeats = false
  clear : s.state.shifts.Clear
  idle : s.pending = none → s.state.inProgress = false
  tracks : ∀ p ∈ s.pending, Tracks s.state p
  held : ∀ p ∈ s.pending, s.held p.key = some p.keycode
  since : ∀ p ∈ s.pending, p.since ≤ s.clock

omit [DecidableEq K] in
theorem inv_boot {settings : Settings} (hrepeat : settings.repeats = false) (timeout : UInt16) :
    Inv (Session.boot (K := K) settings timeout) where
  noRepeat := hrepeat
  clear := ⟨rfl, rfl⟩
  idle _ := rfl
  tracks := by simp [Session.boot]
  held := by simp [Session.boot]
  since := by simp [Session.boot]

omit [DecidableEq K] in
/-- The 16 bits tell the time since the press. -/
theorem timeout_le_iff {since now : ℕ} {timeout : UInt16} (hle : since ≤ now)
    (hlt : now - since < 2 ^ 16) :
    timeout ≤ UInt16.ofNat now - UInt16.ofNat since ↔ timeout.toNat ≤ now - since := by
  have helapsed : (UInt16.ofNat now - UInt16.ofNat since).toNat = now - since := by
    rw [UInt16.toNat_sub, UInt16.toNat_ofNat', UInt16.toNat_ofNat']
    omega
  rw [UInt16.le_iff_toNat_le, helapsed]

section Tracks

variable {v : State K} {p : Taken K} {now : UInt16}

omit [DecidableEq K]

theorem Tracks.arrive (h : Tracks v p) (i : Input K) : Tracks (v.arrive i) p :=
  ⟨h.enable, h.shifted, h.enabled, h.inProgress, h.lastkey, h.lastshifted, h.time, h.lastrecord⟩

/-- Sending the key kept back, with the flag as the time stamp has it. -/
theorem Tracks.sendLastkey (h : Tracks v p) (hrepeat : v.settings.repeats = false)
    (hclear : v.shifts.Clear) (now : UInt16) (matrixTrigger : Bool)
    (record : Option (KeyRecord K)) :
    let t := v.sendLastkey now matrixTrigger record
    t.settings = v.settings ∧ t.shifts = v.shifts ∧ t.inProgress = false ∧
      t.shiftHeld = v.shiftHeld ∧
      ∃ shifted, t.calls = v.calls ++
          [.pressUser p.keycode shifted record, .releaseUser p.keycode shifted record] ∧
        shifted = (p.shift || decide (v.timeout ≤ now - UInt16.ofNat p.since)) := by
  rw [sendLastkey_eq hrepeat]
  refine ⟨rfl, cancel_flush hclear, rfl, ?_, _, ?_, rfl⟩
  · simp only [State.shiftHeld, cancel_flush hclear]
  · simp only [h.lastkey, h.lastshifted, h.time]

/-- Auto-shifted keys are basic keycodes: neither tap-hold keys nor shift keys. -/
theorem not_isRetro_of_shifted {settings : Settings} {keycode : ℕ}
    (h : getAutoShiftedKey settings keycode = true) :
    isRetro keycode = false ∧ keycode ≠ kcLsft ∧ keycode ≠ kcRsft := by
  have hbasic : keycode ≤ 0x64 := by
    by_contra hgt
    have hfalse : getAutoShiftedKey settings keycode = false := by
      simp only [getAutoShiftedKey]
      grind
    simp [hfalse] at h
  simp only [isRetro, kcLsft, kcRsft]
  grind

/-- The release of an auto-shifted key reaches {lit}`autoshift_end`. -/
theorem processRelease_shifted {keycode : ℕ} (henabled : v.enabled = true)
    (hshifted : getAutoShiftedKey v.settings keycode = true) (record : KeyRecord K) :
    (processRelease v keycode now record).1 = autoshiftEnd v keycode now false (some record) := by
  obtain ⟨hretro, hleft, hright⟩ := not_isRetro_of_shifted hshifted
  simp [processRelease, hretro, hleft, hright, henabled, hshifted]

/-- Another release at most notes that a shift key is up. -/
theorem processRelease_passed {keycode : ℕ} (hclear : v.shifts.Clear)
    (h : v.enabled = false ∨ getAutoShiftedKey v.settings keycode = false)
    (record : KeyRecord K) : (processRelease v keycode now record).1 = v := by
  have hleft : { v with shifts := { v.shifts with cancellingLshift := false } } = v := by
    rw [← hclear.1]
  have hright : { v with shifts := { v.shifts with cancellingRshift := false } } = v := by
    rw [← hclear.2]
  unfold processRelease
  rw [hleft, hright]
  simp only [ite_self]
  rcases h with h | h
  · simp [h]
  · simp [h]

end Tracks

/-! ## Presses -/

variable {c} {s : Session K} {i : Input K}

omit [DecidableEq K] in
theorem Inv.arrive_clear (h : Inv s) (i : Input K) : (s.state.arrive i).shifts.Clear :=
  h.clear

omit [DecidableEq K] in
/-- The flag the code computes is the one the rule asks for. -/
theorem Inv.shifts_eq (h : Inv s) {p : Taken K} (hp : p ∈ s.pending)
    (hage : s.age p i < 2 ^ 16) :
    (p.shift || decide (s.state.timeout ≤
      UInt16.ofNat (s.clock + i.elapsed) - UInt16.ofNat p.since)) = s.shifts p i := by
  have hle : p.since ≤ s.clock + i.elapsed := Nat.le_trans (h.since p hp) (Nat.le_add_right _ _)
  unfold Session.shifts
  rw [decide_eq_decide.mpr (timeout_le_iff hle hage)]
  rfl

omit [DecidableEq K] in
/-- The press settles the key kept back before anything else. -/
theorem finishPrevious_result (h : Inv s) (i : Input K) :
    let v := s.state.arrive i
    let t := finishPrevious v (UInt16.ofNat (s.clock + i.elapsed))
    t.settings = v.settings ∧ t.shifts = v.shifts ∧ t.inProgress = false ∧
      t.shiftHeld = v.shiftHeld ∧
      ∀ p ∈ s.pending, s.age p i < 2 ^ 16 →
        t.calls = [.pressUser p.keycode (s.shifts p i) (some ⟨p.key, true⟩),
          .releaseUser p.keycode (s.shifts p i) (some ⟨p.key, true⟩)] := by
  intro v
  unfold finishPrevious
  cases hpending : s.pending with
  | none =>
    have hidle : v.inProgress = false := h.idle hpending
    rw [if_neg (by simp [hidle])]
    exact ⟨rfl, rfl, hidle, rfl, fun p hp => absurd hp (by simp)⟩
  | some p =>
    have htracks : Tracks v p := (h.tracks p hpending).arrive i
    have hend : autoshiftEnd v kcNo (UInt16.ofNat (s.clock + i.elapsed)) false v.lastrecord =
        v.sendLastkey (UInt16.ofNat (s.clock + i.elapsed)) false v.lastrecord := by
      simp [autoshiftEnd, htracks.inProgress]
    rw [if_pos htracks.inProgress, hend]
    obtain ⟨hsettings, hshifts, hidle, hheld, shifted, hcalls, hshifted⟩ :=
      htracks.sendLastkey h.noRepeat (h.arrive_clear i) (UInt16.ofNat (s.clock + i.elapsed))
        false v.lastrecord
    refine ⟨hsettings, hshifts, hidle, hheld, fun q hq hage => ?_⟩
    obtain rfl : p = q := Option.mem_some_iff.mp hq
    rw [hcalls, hshifted, htracks.lastrecord]
    have heq := h.shifts_eq hpending hage
    rw [show v.timeout = s.state.timeout by rfl, heq]
    rfl

omit [DecidableEq K] in
/-- What is left behind a press: the key is taken over, or no key is.  A key kept back before
has been sent first. -/
theorem press_result (h : Inv s) (i : Input K) (key : K) (keycode : ℕ) :
    let now := UInt16.ofNat (s.clock + i.elapsed)
    let v := s.state.arrive i
    let t := (processAutoShift c v keycode now ⟨key, true⟩).1
    t.settings = s.state.settings ∧ t.shifts.Clear ∧
      (t.inProgress = true →
        Tracks t ⟨key, keycode, s.clock + i.elapsed, v.shiftHeld⟩) ∧
      ∀ p ∈ s.pending, s.age p i < 2 ^ 16 →
        ∃ own, (own = [] ∨ own = [.pressUser keycode false (some ⟨key, true⟩)]) ∧
          t.calls = [.pressUser p.keycode (s.shifts p i) (some ⟨p.key, true⟩),
            .releaseUser p.keycode (s.shifts p i) (some ⟨p.key, true⟩)] ++ own := by
  intro now v t
  obtain ⟨hsettings, hshifts, hidle, hheld, hsent⟩ := finishPrevious_result h i
  by_cases henable : v.settings.enable = true
  · have ht : t = (pressKey c (finishPrevious v now) keycode now ⟨key, true⟩).1 := by
      simp [t, processAutoShift, processPress, henable]
    obtain ⟨hsettings', hshifts', hresult⟩ := pressKey_result c (s := finishPrevious v now)
      (by rw [hsettings]; exact h.noRepeat) (by rw [hshifts]; exact h.arrive_clear i) hidle
      keycode now ⟨key, true⟩
    rw [← ht] at hsettings' hshifts' hresult
    have hsame : t.settings = s.state.settings := hsettings'.trans hsettings
    refine ⟨hsame, hshifts'.trans hshifts ▸ h.arrive_clear i, ?_⟩
    cases hresult with
    | passed inProgress calls =>
      refine ⟨fun hprogress => absurd hprogress (by simp [inProgress]), fun p hp hage => ?_⟩
      rcases calls with calls | calls
      · exact ⟨[], .inl rfl, by rw [calls, hsent p hp hage, List.append_nil]⟩
      · exact ⟨_, .inr rfl, by rw [calls, hsent p hp hage]⟩
    | takenOver inProgress calls enabled shifted lastkey lastshifted time lastrecord =>
      refine ⟨fun _ => ⟨hsame ▸ henable, hsame ▸ hsettings ▸ shifted, enabled, inProgress, lastkey,
        lastshifted.trans hheld, time, lastrecord⟩, fun p hp hage => ?_⟩
      exact ⟨[], .inl rfl, by rw [calls, hsent p hp hage, List.append_nil]⟩
  · have ht : t = v := by simp [t, processAutoShift, henable]
    have hnone : ∀ p ∈ s.pending, False := fun p hp => henable (h.tracks p hp).enable
    have hpending : s.pending = none := Option.eq_none_iff_forall_not_mem.mpr hnone
    rw [ht]
    refine ⟨rfl, h.arrive_clear i, fun hprogress => ?_, fun p hp => (hnone p hp).elim⟩
    exact absurd hprogress (by simp [v, State.arrive, h.idle hpending])

/-- A press sends the key kept back by the rule, and takes over its own key or not. -/
theorem step_press (h : Inv s) {key : K} {keycode : ℕ} (hevent : i.event = .press key keycode)
    (hfree : s.held key = none) :
    Inv (step c s i) ∧ ∀ p ∈ s.pending, s.age p i < 2 ^ 16 →
      sentFor p.key (step c s i).state.calls = [(p.keycode, s.shifts p i)] := by
  obtain ⟨hsettings, hclear, htracks, hsent⟩ := press_result (c := c) h i key keycode
  have hstep : step c s i =
      { state := (processAutoShift c (s.state.arrive i) keycode
          (UInt16.ofNat (s.clock + i.elapsed)) ⟨key, true⟩).1
        clock := s.clock + i.elapsed
        held := update s.held key (some keycode)
        pending := if (processAutoShift c (s.state.arrive i) keycode
            (UInt16.ofNat (s.clock + i.elapsed)) ⟨key, true⟩).1.inProgress then
          some ⟨key, keycode, s.clock + i.elapsed, (s.state.arrive i).shiftHeld⟩ else none } := by
    simp [step, hevent, hfree]
  rw [hstep]
  refine ⟨⟨hsettings ▸ h.noRepeat, hclear, fun hnone => ?_, fun p hp => ?_, fun p hp => ?_,
    fun p hp => ?_⟩, fun p hp hage => ?_⟩
  · simpa using hnone
  · obtain ⟨hprogress, hp⟩ := Option.mem_ite_none_right.mp hp
    obtain rfl := Option.mem_some_iff.mp hp
    exact htracks hprogress
  · obtain ⟨-, hp⟩ := Option.mem_ite_none_right.mp hp
    obtain rfl := Option.mem_some_iff.mp hp
    exact update_self ..
  · obtain ⟨-, hp⟩ := Option.mem_ite_none_right.mp hp
    obtain rfl := Option.mem_some_iff.mp hp
    exact Nat.le_refl _
  · obtain ⟨own, hown, hcalls⟩ := hsent p hp hage
    have hne : key ≠ p.key := by
      rintro rfl
      simp [h.held p hp] at hfree
    rw [hcalls]
    rcases hown with rfl | rfl
    · simp [sentFor]
    · simp [sentFor, hne]

/-! ## Releases and scans -/

omit [DecidableEq K] in
/-- No key is kept back. -/
theorem Inv.free {v : State K} (hrepeat : v.settings.repeats = false) (hclear : v.shifts.Clear)
    (hidle : v.inProgress = false) (clock : ℕ) (held : K → Option ℕ) :
    Inv ⟨v, clock, held, none⟩ :=
  ⟨hrepeat, hclear, fun _ => hidle, by simp, by simp, by simp⟩

omit [DecidableEq K] in
/-- Nothing has happened to the key kept back. -/
theorem Inv.wait (h : Inv s) (i : Input K) {held : K → Option ℕ}
    (hheld : ∀ p ∈ s.pending, held p.key = some p.keycode) :
    Inv ⟨s.state.arrive i, s.clock + i.elapsed, held, s.pending⟩ :=
  ⟨h.noRepeat, h.clear, h.idle, fun p hp => (h.tracks p hp).arrive i, hheld,
    fun p hp => Nat.le_trans (h.since p hp) (Nat.le_add_right _ _)⟩

/-- The key kept back is sent, by its own release or by the timeout. -/
theorem Inv.send (h : Inv s) {p : Taken K} (hp : p ∈ s.pending) (hage : s.age p i < 2 ^ 16)
    (matrixTrigger pressed : Bool) (held : K → Option ℕ) :
    let t := (s.state.arrive i).sendLastkey (UInt16.ofNat (s.clock + i.elapsed)) matrixTrigger
      (some ⟨p.key, pressed⟩)
    t.inProgress = false ∧ Inv ⟨t, s.clock + i.elapsed, held, none⟩ ∧
      sentFor p.key t.calls = [(p.keycode, s.shifts p i)] := by
  intro t
  obtain ⟨hsettings, hshifts, hidle, -, shifted, hcalls, hshifted⟩ :=
    ((h.tracks p hp).arrive i).sendLastkey h.noRepeat (h.arrive_clear i)
      (UInt16.ofNat (s.clock + i.elapsed)) matrixTrigger (some ⟨p.key, pressed⟩)
  refine ⟨hidle, .free (hsettings ▸ h.noRepeat) (hshifts ▸ h.arrive_clear i) hidle _ _, ?_⟩
  have heq : shifted = s.shifts p i := hshifted.trans (h.shifts_eq hp hage)
  rw [hcalls, heq]
  simp [sentFor, State.arrive]

omit [DecidableEq K] in
theorem arrive_inProgress (h : Inv s) (i : Input K) :
    (s.state.arrive i).inProgress = s.pending.isSome := by
  cases hpending : s.pending with
  | none => exact h.idle hpending
  | some p => exact (h.tracks p hpending).inProgress

theorem step_scan (h : Inv s) (hevent : i.event = .scan) (htame : Tame s i) :
    Inv (step c s i) ∧ Decided c s i := by
  let v := s.state.arrive i
  let now := UInt16.ofNat (s.clock + i.elapsed)
  have hstep : step c s i =
      { s with
        state := matrixScan v now
        clock := s.clock + i.elapsed
        pending := if (matrixScan v now).inProgress then s.pending else none } := by
    simp [step, hevent, v, now]
  have hprogress : v.inProgress = s.pending.isSome := arrive_inProgress h i
  cases hpending : s.pending with
  | none =>
    have hscan : matrixScan v now = v := by
      simp [matrixScan, hprogress, hpending]
    refine ⟨?_, fun p hp => absurd hp (by simp [hpending])⟩
    rw [hstep, hscan, hpending, ite_self]
    exact .free (v := v) h.noRepeat (h.arrive_clear i)
      (hprogress.trans (by simp [hpending])) _ _
  | some p =>
    have htracks : Tracks v p := (h.tracks p hpending).arrive i
    have hle : p.since ≤ s.clock + i.elapsed :=
      Nat.le_trans (h.since p hpending) (Nat.le_add_right _ _)
    by_cases hsettles : s.Settles p i
    · have hage := (htame p hpending).1 hsettles
      have htimeout : v.timeout ≤ now - v.time := by
        rw [htracks.time]
        have hscan : s.state.timeout.toNat ≤ s.age p i := by
          simpa [Session.Settles, hevent] using hsettles
        exact (timeout_le_iff hle hage).mpr hscan
      have hscan : matrixScan v now = v.sendLastkey now true (some ⟨p.key, true⟩) := by
        simp [matrixScan, htracks.enable, htracks.inProgress, htimeout, autoshiftEnd,
          htracks.lastrecord]
      obtain ⟨hidle, hinv, hsent⟩ := h.send hpending hage true true s.held
      rw [← hscan] at hidle hinv hsent
      refine ⟨?_, fun q hq => ?_⟩
      · rw [hstep, hidle]
        exact hinv
      · obtain rfl : p = q := Option.mem_some_iff.mp (hpending ▸ hq)
        exact ⟨fun _ => by rw [hstep]; exact hsent, fun hnot => absurd hsettles hnot⟩
    · have hlt : s.age p i < s.state.timeout.toNat := by
        simpa [Session.Settles, hevent] using hsettles
      have hage : s.age p i < 2 ^ 16 := Nat.lt_trans hlt s.state.timeout.toNat_lt
      have htimeout : ¬ v.timeout ≤ now - v.time := by
        rw [htracks.time]
        exact fun hscan => absurd ((timeout_le_iff hle hage).mp hscan) (Nat.not_le.mpr hlt)
      have hscan : matrixScan v now = v := by
        simp [matrixScan, htimeout]
      have hheld : ∀ q ∈ s.pending, s.held q.key = some q.keycode := h.held
      refine ⟨?_, fun q hq => ⟨fun hnow => ?_, fun _ => ?_⟩⟩
      · rw [hstep, hscan, htracks.inProgress, if_pos rfl]
        exact h.wait i hheld
      · obtain rfl : p = q := Option.mem_some_iff.mp (hpending ▸ hq)
        exact absurd hnow hsettles
      · rw [hstep, hscan, htracks.inProgress, if_pos rfl]
        exact ⟨rfl, hq⟩

theorem step_release (h : Inv s) {key : K} {keycode : ℕ} (hevent : i.event = .release key)
    (hheld : s.held key = some keycode) (htame : Tame s i) :
    Inv (step c s i) ∧ Decided c s i := by
  let v := s.state.arrive i
  let now := UInt16.ofNat (s.clock + i.elapsed)
  let t := (processAutoShift c v keycode now ⟨key, false⟩).1
  have hstep : step c s i =
      { state := t
        clock := s.clock + i.elapsed
        held := update s.held key none
        pending := if t.inProgress then s.pending else none } := by
    simp [step, hevent, hheld, v, now, t]
  have hprogress : v.inProgress = s.pending.isSome := arrive_inProgress h i
  have hclear : v.shifts.Clear := h.arrive_clear i
  have hrelease : v.settings.enable = true →
      t = (processRelease v keycode now ⟨key, false⟩).1 := by
    intro henable
    simp [t, processAutoShift, henable]
  cases hpending : s.pending with
  | none =>
    have hidle : v.inProgress = false := hprogress.trans (by simp [hpending])
    refine ⟨?_, fun p hp => absurd hp (by simp [hpending])⟩
    rw [hstep, hpending, ite_self]
    by_cases henable : v.settings.enable = true
    · rw [hrelease henable]
      by_cases hpass : v.enabled = true ∧ getAutoShiftedKey v.settings keycode = true
      · have hend : autoshiftEnd v keycode now false (some ⟨key, false⟩) =
            v.releaseKey keycode now (some ⟨key, false⟩) := by
          simp [autoshiftEnd, hidle]
        rw [processRelease_shifted hpass.1 hpass.2, hend, releaseKey_eq]
        refine Inv.free ?_ ?_ ?_ _ _
        · exact h.noRepeat
        · rw [flush_of_clear hclear, ite_self]
          exact hclear
        · exact hidle
      · rw [processRelease_passed hclear (by grind)]
        exact .free (v := v) h.noRepeat hclear hidle _ _
    · have ht : t = v := by simp [t, processAutoShift, henable]
      rw [ht]
      exact .free (v := v) h.noRepeat hclear hidle _ _
  | some p =>
    have htracks : Tracks v p := (h.tracks p hpending).arrive i
    rw [Decided]
    by_cases hown : key = p.key
    · -- the release of the key itself
      subst hown
      obtain rfl : p.keycode = keycode := by
        have := h.held p hpending
        rw [hheld] at this
        exact (Option.some.inj this).symm
      have hsettles : s.Settles p i := by simp [Session.Settles, hevent]
      have hend : t = v.sendLastkey now false (some ⟨p.key, false⟩) := by
        rw [hrelease htracks.enable, processRelease_shifted htracks.enabled htracks.shifted]
        simp [autoshiftEnd, htracks.inProgress, htracks.lastkey]
      obtain ⟨hidle, hinv, hsent⟩ := h.send hpending ((htame p hpending).1 hsettles) false false
        (update s.held p.key none)
      rw [← hend] at hidle hinv hsent
      refine ⟨?_, fun q hq => ?_⟩
      · rw [hstep, hidle]
        exact hinv
      · obtain rfl : p = q := Option.mem_some_iff.mp (hpending ▸ hq)
        exact ⟨fun _ => by rw [hstep]; exact hsent, fun hnot => absurd hsettles hnot⟩
    · -- the release of another key, which is not auto-shifted
      have hother : getAutoShiftedKey v.settings keycode = false := by
        have hquiet := (htame p hpending).2
        rw [Session.Undisturbed, hevent] at hquiet
        exact hquiet hown keycode hheld
      have ht : t = v := by
        rw [hrelease htracks.enable, processRelease_passed hclear (.inr hother)]
      have hsettles : ¬ s.Settles p i := by simp [Session.Settles, hevent, hown]
      have hstill : ∀ q ∈ s.pending, update s.held key none q.key = some q.keycode := by
        intro q hq
        obtain rfl : p = q := Option.mem_some_iff.mp (hpending ▸ hq)
        rw [update_of_ne (Ne.symm hown)]
        exact h.held p hpending
      refine ⟨?_, fun q hq => ⟨fun hnow => ?_, fun _ => ?_⟩⟩
      · rw [hstep, ht, htracks.inProgress, if_pos rfl]
        exact h.wait i hstill
      · obtain rfl : p = q := Option.mem_some_iff.mp (hpending ▸ hq)
        exact absurd hnow hsettles
      · rw [hstep, ht, htracks.inProgress, if_pos rfl]
        exact ⟨rfl, hq⟩

/-! ## Runs -/

/-- An event that cannot happen: the press of a key that is down, the release of one that is
up. -/
theorem step_none (h : Inv s) (hstep : step c s i =
      { s with state := s.state.arrive i, clock := s.clock + i.elapsed })
    (hsettles : ∀ p ∈ s.pending, ¬ s.Settles p i) : Inv (step c s i) ∧ Decided c s i := by
  refine ⟨?_, fun p hp => ⟨fun hnow => absurd hnow (hsettles p hp), fun _ => ?_⟩⟩
  · rw [hstep]
    exact h.wait i h.held
  · rw [hstep]
    exact ⟨rfl, hp⟩

/-- One input keeps the invariant, and the key kept back is treated by the rule. -/
theorem step_decided (h : Inv s) (htame : Tame s i) : Inv (step c s i) ∧ Decided c s i := by
  cases hevent : i.event with
  | press key keycode =>
    by_cases hfree : s.held key = none
    · obtain ⟨hinv, hsent⟩ := step_press (c := c) h hevent hfree
      refine ⟨hinv, fun p hp => ⟨fun hnow => hsent p hp ((htame p hp).1 hnow), fun hnot => ?_⟩⟩
      exact absurd (show s.Settles p i by simp [Session.Settles, hevent, hfree]) hnot
    · refine step_none h ?_ fun p hp => by simp [Session.Settles, hevent, hfree]
      simp [step, hevent, Option.isSome_iff_ne_none, hfree]
  | release key =>
    cases hheld : s.held key with
    | none =>
      refine step_none h (by simp [step, hevent, hheld]) fun p hp hnow => ?_
      have hkey : key = p.key := by simpa [Session.Settles, hevent] using hnow
      have hdown := h.held p hp
      rw [← hkey, hheld] at hdown
      exact absurd hdown (by simp)
    | some keycode => exact step_release h hevent hheld htame
  | scan => exact step_scan h hevent htame

/-- In a run of tame inputs a key that is taken over is sent exactly once, by the first input
that settles it, and it is shifted if and only if the shift was on at its press or the press
is the timeout or longer ago. -/
theorem decided (c : Config) (settings : Settings) (hrepeat : settings.repeats = false)
    (timeout : UInt16) (is : List (Input K))
    (htame : Along (step c) Tame (Session.boot settings timeout) is) :
    Along (step c) (Decided c) (Session.boot settings timeout) is :=
  along_of_invariant Inv (fun _ _ h htame => (step_decided h htame).1)
    (fun _ _ h htame => (step_decided h htame).2) (inv_boot hrepeat timeout) htame

instance decidableSettles (s : Session K) (p : Taken K) : (i : Input K) → Decidable (s.Settles p i)
  | ⟨_, _, _, .press key _⟩ => inferInstanceAs (Decidable (s.held key = none))
  | ⟨_, _, _, .release key⟩ => inferInstanceAs (Decidable (key = p.key))
  | ⟨elapsed, mods, oneshotMods, .scan⟩ =>
    inferInstanceAs (Decidable
      (s.state.timeout.toNat ≤ s.age p ⟨elapsed, mods, oneshotMods, .scan⟩))

instance decidableDecided (c : Config) (s : Session K) (i : Input K) : Decidable (Decided c s i) :=
  inferInstanceAs (Decidable (∀ p ∈ s.pending,
    (s.Settles p i → sentFor p.key (step c s i).state.calls = [(p.keycode, s.shifts p i)]) ∧
    (¬ s.Settles p i → sentFor p.key (step c s i).state.calls = [] ∧
      (step c s i).pending = some p)))

instance decidableUndisturbed (s : Session K) (p : Taken K) :
    (i : Input K) → Decidable (s.Undisturbed p i)
  | ⟨_, _, _, .press _ _⟩ => inferInstanceAs (Decidable True)
  | ⟨_, _, _, .release key⟩ =>
    inferInstanceAs (Decidable (key ≠ p.key →
      ∀ keycode ∈ s.held key, getAutoShiftedKey s.state.settings keycode = false))
  | ⟨_, _, _, .scan⟩ => inferInstanceAs (Decidable True)

instance decidableTame (s : Session K) (i : Input K) : Decidable (Tame s i) :=
  inferInstanceAs (Decidable (∀ p ∈ s.pending,
    (s.Settles p i → s.age p i < 2 ^ 16) ∧ s.Undisturbed p i))

/-- Auto Shift is on, everything else is at its default. -/
def Settings.on : Settings :=
  ⟨true, false, false, false, false, false, false⟩

/-- A is interrupted by B after 150 ms, and B runs into the timeout. -/
def rolledKeys : List (Input ℕ) :=
  [⟨0, 0, 0, .press 0 0x04⟩, ⟨100, 0, 0, .scan⟩, ⟨50, 0, 0, .press 1 0x05⟩, ⟨50, 0, 0, .scan⟩,
    ⟨130, 0, 0, .scan⟩, ⟨10, 0, 0, .release 0⟩, ⟨10, 0, 0, .release 1⟩]

theorem decided_rolledKeys :
    Along (step ⟨true, fun _ => 200⟩) (Decided ⟨true, fun _ => 200⟩)
      (Session.boot .on 175) rolledKeys :=
  decided ⟨true, fun _ => 200⟩ .on rfl 175 rolledKeys (by decide +kernel)

/-- B is pressed after A, and A is released while B is held for 176 ms. -/
def releasedBehind : List (Input ℕ) :=
  [⟨0, 0, 0, .press 0 0x04⟩, ⟨100, 0, 0, .press 1 0x05⟩, ⟨50, 0, 0, .release 0⟩,
    ⟨126, 0, 0, .scan⟩, ⟨4, 0, 0, .release 1⟩]

/-- The scan does not see that B has been held for the timeout: its time stamp is that of the
release of A. -/
theorem not_decided_releasedBehind :
    ¬ Along (step ⟨true, fun _ => 200⟩) (Decided ⟨true, fun _ => 200⟩)
      (Session.boot .on 175) releasedBehind := by
  decide +kernel

end AutoShift
end VialQmk
