import VialQmk.DeferredExec.Table
import VialQmk.Library.Runs
import Mathlib.Logic.Function.Basic

/-!
# Deferred execution - what a client is promised

A client knows an executor by its token: from the call that deferred it until it is
cancelled or its callback returns 0, the token stands for a callback and a time at which
it is due.  This module follows the events of the table with such a record, without a
bound on the times, and compares the two.

Main results:

- Definition {lit}`Monitor`: the promises that are open, and the callback that runs.
- Definition {lit}`Kept`: what a call or a run of the task does with them.
- Theorem {lit}`promisesKept`: along every run whose steps fit, the promises are kept.
-/

namespace VialQmk
namespace DeferredExec

open StateMachine

variable {κ α : Type}

/-! ## Promises -/

/-- What a token stands for. -/
structure Promise (κ α : Type) where
  due : ℕ
  callback : Option κ
  cbArg : Option α

/-- The promises that are open, and the token whose callback runs, as long as it is not
cancelled. -/
structure Monitor (κ α : Type) where
  live : UInt8 → Option (Promise κ α)
  running : Option UInt8

/-- The open promise an event is about. -/
def Event.token? : Event κ α → Option UInt8
  | .extended token _ | .cancelled token | .invoked token _ _ _ => some token
  | .deferred _ _ _ _ | .returned _ => none

/-- Take note of an event. -/
def Monitor.see (m : Monitor κ α) : Event κ α → Monitor κ α
  | .deferred token due callback cbArg =>
    { m with live := Function.update m.live token (some ⟨due, callback, cbArg⟩) }
  | .extended token due =>
    { m with
      live := Function.update m.live token
        ((m.live token).map fun promise => { promise with due := due }) }
  | .cancelled token =>
    { live := Function.update m.live token none
      running := if m.running = some token then none else m.running }
  | .invoked token _ _ _ => { m with running := some token }
  | .returned delayMs =>
    match m.running with
    | none => m
    | some token =>
      { live := Function.update m.live token
          (if delayMs = 0 then none
          else (m.live token).map fun promise =>
            { promise with due := promise.due + delayMs.toNat })
        running := none }

/-- The events that may be seen at the time {lit}`now`: a new token is not in use, and a
callback is the one its token stands for, and due. -/
def Monitor.Allows (now : ℕ) (m : Monitor κ α) : Event κ α → Prop
  | .deferred token _ callback _ => token ≠ 0 ∧ m.live token = none ∧ callback.isSome
  | .extended token _ | .cancelled token => m.live token ≠ none
  | .invoked token triggerTime callback cbArg => ∃ promise, m.live token = some promise ∧
      promise.due ≤ now ∧ triggerTime = UInt32.ofNat promise.due ∧
        callback = promise.callback ∧ callback.isSome ∧ cbArg = promise.cbArg
  | .returned _ => True

/-! ## Tokens of the table and open promises -/

/-- The tokens of the table are distinct, and they are those of the open promises. -/
structure Tracks (table : List (Entry κ α)) (live : UInt8 → Option (Promise κ α)) : Prop where
  distinct : ∀ {i j : ℕ} {entry entry' : Entry κ α}, table[i]? = some entry →
    table[j]? = some entry' → entry.token ≠ 0 → entry.token = entry'.token → i = j
  promised : ∀ {i : ℕ} {entry : Entry κ α}, table[i]? = some entry → entry.token ≠ 0 →
    ∃ promise, live entry.token = some promise ∧
      entry.triggerTime = UInt32.ofNat promise.due ∧ entry.callback = promise.callback ∧
        entry.callback.isSome ∧ entry.cbArg = promise.cbArg
  present : ∀ {token : UInt8} {promise : Promise κ α}, live token = some promise →
    token ≠ 0 ∧ ∃ (i : ℕ) (entry : Entry κ α), table[i]? = some entry ∧ entry.token = token

section Tracks

variable {table : List (Entry κ α)} {live : UInt8 → Option (Promise κ α)} {i : ℕ}
  {entry : Entry κ α}

/-- The entries of a table with one of them changed. -/
theorem getElem?_set_cases {j : ℕ} {new found : Entry κ α}
    (h : (table.set i new)[j]? = some found) :
    (j = i ∧ found = new) ∨ (j ≠ i ∧ table[j]? = some found) := by
  rw [List.getElem?_set] at h
  split_ifs at h with hij hlt
  · exact Or.inl ⟨hij.symm, (Option.some.inj h).symm⟩
  · exact Or.inr ⟨fun h => hij h.symm, h⟩

theorem getElem?_set_same {old new : Entry κ α} (hold : table[i]? = some old) :
    (table.set i new)[i]? = some new :=
  List.getElem?_set_self (List.getElem?_eq_some_iff.mp hold).1

/-- A free slot is taken for a new token. -/
theorem Tracks.defer (h : Tracks table live) (hslot : table[i]? = some entry)
    (hfree : entry.token = 0) {token : UInt8} (hne : token ≠ 0)
    (hnew : ∀ entry ∈ table, entry.token ≠ token) (due : ℕ) {callback : Option κ}
    (hcallback : callback.isSome) (cbArg : Option α) :
    Tracks (table.set i ⟨token, UInt32.ofNat due, callback, cbArg⟩)
      (Function.update live token (some ⟨due, callback, cbArg⟩)) := by
  have hother : ∀ {j : ℕ} {found : Entry κ α}, table[j]? = some found → found.token ≠ token :=
    fun hfound => hnew _ (List.mem_of_getElem? hfound)
  constructor
  · intro j k found found' hj hk hzero hsame
    rcases getElem?_set_cases hj with ⟨rfl, rfl⟩ | ⟨hji, hfound⟩
    · rcases getElem?_set_cases hk with ⟨rfl, -⟩ | ⟨hki, hk⟩
      · rfl
      · exact absurd hsame.symm (hother hk)
    · rcases getElem?_set_cases hk with ⟨rfl, rfl⟩ | ⟨hki, hk⟩
      · exact absurd hsame (hother hfound)
      · exact h.distinct hfound hk hzero hsame
  · intro j found hj hzero
    rcases getElem?_set_cases hj with ⟨rfl, rfl⟩ | ⟨hji, hj⟩
    · exact ⟨_, Function.update_self _ _ _, rfl, rfl, hcallback, rfl⟩
    · rw [Function.update_of_ne (hother hj)]
      exact h.promised hj hzero
  · intro token' promise hlive
    by_cases htoken : token' = token
    · subst htoken
      exact ⟨hne, i, _, getElem?_set_same hslot, rfl⟩
    · rw [Function.update_of_ne htoken] at hlive
      rcases h.present hlive with ⟨hzero, j, found, hj, hfound⟩
      have hji : j ≠ i := by
        rintro rfl
        rw [hslot, Option.some.injEq] at hj
        rw [← hfound, ← hj] at hzero
        exact hzero hfree
      refine ⟨hzero, j, found, ?_, hfound⟩
      rwa [List.getElem?_set_ne hji.symm]

/-- The time of an entry is changed, and so is that of its promise. -/
theorem Tracks.retime (h : Tracks table live) (hslot : table[i]? = some entry)
    (hzero : entry.token ≠ 0) (due : ℕ) :
    Tracks (table.set i { entry with triggerTime := UInt32.ofNat due })
      (Function.update live entry.token
        ((live entry.token).map fun promise => { promise with due := due })) := by
  rcases h.promised hslot hzero with ⟨promise, hlive, -, hcallback, hsome, hcbArg⟩
  constructor
  · intro j k found found' hj hk hfound hsame
    rcases getElem?_set_cases hj with ⟨rfl, rfl⟩ | ⟨hji, hj'⟩
    · rcases getElem?_set_cases hk with ⟨rfl, -⟩ | ⟨hki, hk⟩
      · rfl
      · exact h.distinct hslot hk hfound hsame
    · rcases getElem?_set_cases hk with ⟨rfl, rfl⟩ | ⟨hki, hk⟩
      · exact h.distinct hj' hslot hfound hsame
      · exact h.distinct hj' hk hfound hsame
  · intro j found hj hfound
    rcases getElem?_set_cases hj with ⟨rfl, rfl⟩ | ⟨hji, hj⟩
    · refine ⟨{ promise with due := due }, ?_, rfl, hcallback, hsome, hcbArg⟩
      rw [Function.update_self, hlive]
      rfl
    · have hne : found.token ≠ entry.token := fun heq => hji (h.distinct hj hslot hfound heq)
      rw [Function.update_of_ne hne]
      exact h.promised hj hfound
  · intro token promise' hlive'
    by_cases htoken : token = entry.token
    · subst htoken
      exact ⟨hzero, i, _, getElem?_set_same hslot, rfl⟩
    · rw [Function.update_of_ne htoken] at hlive'
      rcases h.present hlive' with ⟨hzero', j, found, hj, hfound⟩
      have hji : j ≠ i := by
        rintro rfl
        rw [hslot, Option.some.injEq] at hj
        exact htoken (by rw [← hfound, hj])
      refine ⟨hzero', j, found, ?_, hfound⟩
      rwa [List.getElem?_set_ne hji.symm]

/-- A slot is freed, and its promise is closed. -/
theorem Tracks.release (h : Tracks table live) (hslot : table[i]? = some entry) :
    Tracks (table.set i .free) (Function.update live entry.token none) := by
  constructor
  · intro j k found found' hj hk hfound hsame
    rcases getElem?_set_cases hj with ⟨rfl, rfl⟩ | ⟨hji, hj⟩
    · exact absurd rfl hfound
    · rcases getElem?_set_cases hk with ⟨rfl, rfl⟩ | ⟨hki, hk⟩
      · exact absurd hsame hfound
      · exact h.distinct hj hk hfound hsame
  · intro j found hj hfound
    rcases getElem?_set_cases hj with ⟨rfl, rfl⟩ | ⟨hji, hj⟩
    · exact absurd rfl hfound
    · have hne : found.token ≠ entry.token := fun heq => hji (h.distinct hj hslot hfound heq)
      rw [Function.update_of_ne hne]
      exact h.promised hj hfound
  · intro token promise hlive
    have htoken : token ≠ entry.token := by
      rintro rfl
      rw [Function.update_self] at hlive
      cases hlive
    rw [Function.update_of_ne htoken] at hlive
    rcases h.present hlive with ⟨hzero', j, found, hj, hfound⟩
    have hji : j ≠ i := by
      rintro rfl
      rw [hslot, Option.some.injEq] at hj
      exact htoken (by rw [← hfound, hj])
    refine ⟨hzero', j, found, ?_, hfound⟩
    rwa [List.getElem?_set_ne hji.symm]

end Tracks

/-! ## Calls -/

/-- The record after some events. -/
def Monitor.after (m : Monitor κ α) (events : List (Event κ α)) : Monitor κ α :=
  run Monitor.see m events

/-- What calls outside of the task do: they are allowed, the record still fits the table, and
what they do not name is as it was. -/
structure Follows (s : State κ α) (m : Monitor κ α) (s' : State κ α) (events : List (Event κ α)) :
    Prop where
  allowed : ∀ now, Along Monitor.see (Monitor.Allows now) m events
  tracks : Tracks s'.table (m.after events).live
  length : s'.table.length = s.table.length
  lastTime : s'.lastExecutionTime = s.lastExecutionTime
  other : ∀ {i : ℕ} {entry : Entry κ α}, s.table[i]? = some entry → entry.token ≠ 0 →
    (∀ event ∈ events, event.token? ≠ some entry.token) → s'.table[i]? = some entry ∧
      (m.after events).live entry.token = m.live entry.token
  token : ∀ {i : ℕ} {entry : Entry κ α}, s.table[i]? = some entry → entry.token ≠ 0 →
    .cancelled entry.token ∉ events →
      ∃ entry', s'.table[i]? = some entry' ∧ entry'.token = entry.token
  running : ∀ token, m.running = some token →
    (m.after events).running = none ∧ .cancelled token ∈ events ∨
      (m.after events).running = some token ∧ .cancelled token ∉ events
  stopped : m.running = none → (m.after events).running = none

section Calls

variable {s s' s'' : State κ α} {m : Monitor κ α}

theorem Follows.refl (h : Tracks s.table m.live) (hsame : s'.table = s.table)
    (hlast : s'.lastExecutionTime = s.lastExecutionTime) : Follows s m s' [] where
  allowed _ := trivial
  tracks := by rwa [hsame]
  length := by rw [hsame]
  lastTime := hlast
  other hslot _ _ := ⟨by rwa [hsame], rfl⟩
  token hslot _ _ := ⟨_, by rwa [hsame], rfl⟩
  running _ h := Or.inr ⟨h, List.not_mem_nil⟩
  stopped h := h

theorem Follows.trans {events events' : List (Event κ α)} (h : Follows s m s' events)
    (h' : Follows s' (m.after events) s'' events') : Follows s m s'' (events ++ events') := by
  have hafter : m.after (events ++ events') = (m.after events).after events' :=
    run_append _ _ _
  constructor
  · exact fun now => along_append.mpr ⟨h.allowed now, h'.allowed now⟩
  · rw [hafter]
    exact h'.tracks
  · rw [h'.length, h.length]
  · rw [h'.lastTime, h.lastTime]
  · intro i entry hslot hzero hother
    rcases h.other hslot hzero fun event hevent =>
      hother event (List.mem_append_left _ hevent) with ⟨hslot', hlive⟩
    rcases h'.other hslot' hzero fun event hevent =>
      hother event (List.mem_append_right _ hevent) with ⟨hslot'', hlive'⟩
    rw [hafter]
    exact ⟨hslot'', hlive'.trans hlive⟩
  · intro i entry hslot hzero hnot
    rw [List.mem_append, not_or] at hnot
    rcases h.token hslot hzero hnot.1 with ⟨entry', hslot', htoken⟩
    rw [← htoken] at hzero hnot
    rcases h'.token hslot' hzero hnot.2 with ⟨entry'', hslot'', htoken'⟩
    exact ⟨entry'', hslot'', htoken'.trans htoken⟩
  · intro token hrunning
    rw [hafter]
    rcases h.running token hrunning with ⟨hnone, hmem⟩ | ⟨hsome, hnot⟩
    · exact Or.inl ⟨h'.stopped hnone, List.mem_append_left _ hmem⟩
    · rcases h'.running token hsome with ⟨hnone, hmem⟩ | ⟨hsome', hnot'⟩
      · exact Or.inl ⟨hnone, List.mem_append_right _ hmem⟩
      · refine Or.inr ⟨hsome', ?_⟩
        rw [List.mem_append, not_or]
        exact ⟨hnot, hnot'⟩
  · intro hnone
    rw [hafter]
    exact h'.stopped (h.stopped hnone)

/-- A single event. -/
theorem along_single {now : ℕ} {event : Event κ α} (h : m.Allows now event) :
    Along Monitor.see (Monitor.Allows now) m [event] :=
  ⟨h, trivial⟩

theorem follows_defer (h : Tracks s.table m.live) (now : ℕ) (delayMs : UInt32)
    (callback : Option κ) (cbArg : Option α) :
    Follows s m (s.callDefer now delayMs callback cbArg).2.1
      (s.callDefer now delayMs callback cbArg).2.2 := by
  unfold State.callDefer
  dsimp only
  rcases deferExec_cases (UInt32.ofNat now) delayMs callback cbArg with
    ⟨hzero, htable, hlast⟩ | ⟨token, i, entry, heq, hne, hnew, hslot, hfree, hcallback⟩
  · rw [if_pos hzero]
    exact Follows.refl h htable hlast
  · rw [heq]
    dsimp only
    rw [if_neg hne, ofNat_add_ofNat]
    have hnone : m.live token = none := by
      by_contra hlive
      rcases Option.ne_none_iff_exists'.mp hlive with ⟨promise, hpromise⟩
      rcases h.present hpromise with ⟨-, j, found, hj, htoken⟩
      exact hnew found (List.mem_of_getElem? hj) htoken
    constructor
    · exact fun now => along_single ⟨hne, hnone, hcallback⟩
    · exact h.defer hslot hfree hne hnew _ hcallback cbArg
    · exact List.length_set
    · rfl
    · intro j found hj hfound hother
      have htoken : found.token ≠ token := hnew found (List.mem_of_getElem? hj)
      have hji : j ≠ i := by
        rintro rfl
        rw [hslot, Option.some.injEq] at hj
        rw [← hj] at hfound
        exact hfound hfree
      refine ⟨?_, Function.update_of_ne htoken _ _⟩
      rwa [List.getElem?_set_ne hji.symm]
    · intro j found hj hfound _
      have hji : j ≠ i := by
        rintro rfl
        rw [hslot, Option.some.injEq] at hj
        rw [← hj] at hfound
        exact hfound hfree
      refine ⟨found, ?_, rfl⟩
      rwa [List.getElem?_set_ne hji.symm]
    · intro token' hrunning
      exact Or.inr ⟨hrunning, by simp⟩
    · exact fun hnone => hnone

theorem follows_extend (h : Tracks s.table m.live) (now : ℕ) (token : UInt8) (delayMs : UInt32) :
    Follows s m (s.callExtend now token delayMs).2.1 (s.callExtend now token delayMs).2.2 := by
  unfold State.callExtend
  dsimp only
  rcases extendDeferredExec_cases (s := s) (UInt32.ofNat now) token delayMs with
    heq | ⟨i, entry, heq, hne, hslot, rfl⟩
  · rw [heq]
    exact Follows.refl h rfl rfl
  · rw [heq]
    dsimp only
    rw [if_pos rfl, ofNat_add_ofNat]
    rcases h.promised hslot hne with ⟨promise, hlive, -⟩
    constructor
    · refine fun now => along_single ?_
      rw [Monitor.Allows, hlive]
      exact Option.some_ne_none _
    · exact h.retime hslot hne _
    · exact List.length_set
    · rfl
    · intro j found hj hfound hother
      have htoken : found.token ≠ entry.token := by
        intro heq'
        exact hother _ (List.mem_singleton_self _) (congrArg some heq'.symm)
      have hji : j ≠ i := by
        rintro rfl
        rw [hslot, Option.some.injEq] at hj
        exact htoken (by rw [hj])
      refine ⟨?_, Function.update_of_ne htoken _ _⟩
      rwa [List.getElem?_set_ne hji.symm]
    · intro j found hj hfound _
      by_cases hji : j = i
      · subst hji
        rw [hslot, Option.some.injEq] at hj
        refine ⟨_, getElem?_set_same hslot, ?_⟩
        rw [hj]
      · refine ⟨found, ?_, rfl⟩
        rwa [List.getElem?_set_ne (Ne.symm hji)]
    · intro token' hrunning
      exact Or.inr ⟨hrunning, by simp⟩
    · exact fun hnone => hnone

theorem follows_cancel (h : Tracks s.table m.live) (token : UInt8) :
    Follows s m (s.callCancel token).2.1 (s.callCancel token).2.2 := by
  unfold State.callCancel
  dsimp only
  rcases cancelDeferredExec_cases (s := s) token with heq | ⟨i, entry, heq, hne, hslot, rfl⟩
  · rw [heq]
    exact Follows.refl h rfl rfl
  · rw [heq]
    dsimp only
    rw [if_pos rfl]
    rcases h.promised hslot hne with ⟨promise, hlive, -⟩
    constructor
    · refine fun now => along_single ?_
      rw [Monitor.Allows, hlive]
      exact Option.some_ne_none _
    · exact h.release hslot
    · exact List.length_set
    · rfl
    · intro j found hj hfound hother
      have htoken : found.token ≠ entry.token := by
        intro heq'
        exact hother _ (List.mem_singleton_self _) (congrArg some heq'.symm)
      have hji : j ≠ i := by
        rintro rfl
        rw [hslot, Option.some.injEq] at hj
        exact htoken (by rw [hj])
      refine ⟨?_, Function.update_of_ne htoken _ _⟩
      rwa [List.getElem?_set_ne hji.symm]
    · intro j found hj hfound hnot
      have hji : j ≠ i := by
        rintro rfl
        rw [hslot, Option.some.injEq] at hj
        rw [hj] at hnot
        exact hnot (List.mem_singleton_self _)
      refine ⟨found, ?_, rfl⟩
      rwa [List.getElem?_set_ne hji.symm]
    · intro token' hrunning
      change (if m.running = some entry.token then none else m.running) = none ∧ _ ∨
        (if m.running = some entry.token then none else m.running) = _ ∧ _
      by_cases htoken : token' = entry.token
      · subst htoken
        rw [if_pos hrunning]
        exact Or.inl ⟨rfl, List.mem_singleton_self _⟩
      · have hne' : m.running ≠ some entry.token := by
          rw [hrunning]
          exact fun heq' => htoken (Option.some.inj heq')
        rw [if_neg hne']
        refine Or.inr ⟨hrunning, ?_⟩
        rw [List.mem_singleton]
        exact fun heq' => htoken (Event.cancelled.inj heq')
    · intro hnone
      change (if m.running = some entry.token then none else m.running) = none
      rw [hnone, if_neg (Option.some_ne_none _).symm]

/-- Whatever a callback calls, the record follows. -/
theorem follows_run (calls : Calls κ α) (h : Tracks s.table m.live) :
    Follows s m (calls.run s).1 (calls.run s).2.1 := by
  induction calls generalizing s m with
  | ret delayMs => exact Follows.refl h rfl rfl
  | deferExec now delayMs callback cbArg next ih =>
    have hcall := follows_defer h now delayMs callback cbArg
    exact hcall.trans (ih _ hcall.tracks)
  | extend now token delayMs next ih =>
    have hcall := follows_extend h now token delayMs
    exact hcall.trans (ih _ hcall.tracks)
  | cancel token next ih =>
    have hcall := follows_cancel h token
    exact hcall.trans (ih _ hcall.tracks)

end Calls

/-! ## Rounds of the task -/

/-- What the task can rely on when it comes to a slot: the entry is due less than 2^31 ms away
from the time the task has read, and its callback does not get its own token a second time, in
its own slot, after it has cancelled it. -/
structure EntryFits (now : ℕ) (calls : Calls κ α) (i : ℕ) (s : State κ α) (m : Monitor κ α) :
    Prop where
  near : ∀ entry promise, s.table[i]? = some entry → entry.token ≠ 0 →
    m.live entry.token = some promise → promise.due < now + 2 ^ 31 ∧ now ≤ promise.due + 2 ^ 31
  fresh : ∀ entry promise, s.table[i]? = some entry → entry.token ≠ 0 →
    m.live entry.token = some promise → promise.due ≤ now →
      .cancelled entry.token ∈ (calls.run s).2.1 →
        (calls.run s).1.table[i]?.map Entry.token ≠ some entry.token

theorem entryFits_iff {now i : ℕ} {calls : Calls κ α} {s : State κ α} {m : Monitor κ α} :
    EntryFits now calls i s m ↔ ∀ entry ∈ s.table[i]?, entry.token ≠ 0 →
      ∀ promise ∈ m.live entry.token,
        (promise.due < now + 2 ^ 31 ∧ now ≤ promise.due + 2 ^ 31) ∧
          (promise.due ≤ now → .cancelled entry.token ∈ (calls.run s).2.1 →
            (calls.run s).1.table[i]?.map Entry.token ≠ some entry.token) := by
  constructor
  · intro h entry hslot hne promise hlive
    exact ⟨h.near entry promise hslot hne hlive, h.fresh entry promise hslot hne hlive⟩
  · intro h
    exact ⟨fun entry promise hslot hne hlive => (h entry hslot hne promise hlive).1,
      fun entry promise hslot hne hlive => (h entry hslot hne promise hlive).2⟩

instance [DecidableEq κ] [DecidableEq α] (now : ℕ) (calls : Calls κ α) (i : ℕ) (s : State κ α)
    (m : Monitor κ α) : Decidable (EntryFits now calls i s m) :=
  decidable_of_iff _ entryFits_iff.symm

/-- A round of the task at the slot {lit}`i`. -/
structure Round (now i : ℕ) (s : State κ α) (m : Monitor κ α) (s' : State κ α)
    (events : List (Event κ α)) : Prop where
  allowed : Along Monitor.see (Monitor.Allows now) m events
  tracks : Tracks s'.table (m.after events).live
  length : s'.table.length = s.table.length
  lastTime : s'.lastExecutionTime = s.lastExecutionTime
  stopped : m.running = none → (m.after events).running = none
  other : ∀ {j : ℕ} {entry : Entry κ α}, j ≠ i → s.table[j]? = some entry → entry.token ≠ 0 →
    (∀ event ∈ events, event.token? ≠ some entry.token) → s'.table[j]? = some entry ∧
      (m.after events).live entry.token = m.live entry.token
  served : ∀ {entry : Entry κ α} {promise : Promise κ α}, s.table[i]? = some entry →
    entry.token ≠ 0 → m.live entry.token = some promise → promise.due ≤ now →
      ∃ event ∈ events, event.token? = some entry.token

section Rounds

variable {s : State κ α} {m : Monitor κ α} {now i : ℕ}

/-- The entry at a slot is not due, or not there. -/
theorem round_idle (h : Tracks s.table m.live)
    (hidle : ∀ entry promise, s.table[i]? = some entry → entry.token ≠ 0 →
      m.live entry.token = some promise → now < promise.due) : Round now i s m s [] where
  allowed := trivial
  tracks := h
  length := rfl
  lastTime := rfl
  stopped h := h
  other _ hslot _ _ := ⟨hslot, rfl⟩
  served hslot hzero hlive hdue := absurd hdue (Nat.not_le.mpr (hidle _ _ hslot hzero hlive))

/-- What the answer of a callback changes: its own slot and its own promise. -/
theorem requeue_spec {s : State κ α} {m : Monitor κ α} {token : UInt8} (h : Tracks s.table m.live)
    (hzero : token ≠ 0) (delayMs : UInt32)
    (hrunning : m.running = none ∧ s.table[i]?.map Entry.token ≠ some token ∨
      m.running = some token ∧ s.table[i]?.map Entry.token = some token) :
    Tracks (s.requeue i token delayMs).table (m.see (.returned delayMs)).live ∧
      (s.requeue i token delayMs).table.length = s.table.length ∧
      (s.requeue i token delayMs).lastExecutionTime = s.lastExecutionTime ∧
      (m.see (.returned delayMs)).running = none ∧
      (∀ j ≠ i, (s.requeue i token delayMs).table[j]? = s.table[j]?) ∧
      ∀ token' ≠ token, (m.see (.returned delayMs)).live token' = m.live token' := by
  rcases hrunning with ⟨hnone, hother⟩ | ⟨hsome, hsame⟩
  · have hstate : s.requeue i token delayMs = s := if_pos hother
    have hmonitor : m.see (.returned delayMs) = m := by
      unfold Monitor.see
      rw [hnone]
    rw [hstate, hmonitor]
    exact ⟨h, rfl, rfl, hnone, fun _ _ => rfl, fun _ _ => rfl⟩
  · rcases Option.map_eq_some_iff.mp hsame with ⟨entry, hslot, rfl⟩
    rcases h.promised hslot hzero with ⟨promise, hlive, htime, -⟩
    have hmonitor : m.see (.returned delayMs) =
        { live := Function.update m.live entry.token
            (if delayMs = 0 then none
            else (m.live entry.token).map fun promise =>
              { promise with due := promise.due + delayMs.toNat })
          running := none } := by
      unfold Monitor.see
      rw [hsome]
    rw [hmonitor]
    unfold State.requeue
    rw [if_neg (not_not.mpr hsame)]
    by_cases hdelay : delayMs = 0
    · subst hdelay
      rw [if_neg (by decide), if_pos rfl]
      refine ⟨h.release hslot, List.length_set, rfl, rfl, fun j hj => ?_, fun token' htoken =>
        Function.update_of_ne htoken _ _⟩
      exact List.getElem?_set_ne hj.symm
    · have hpos : 0 < delayMs := UInt32.pos_iff_ne_zero.mpr hdelay
      have hretime := h.retime hslot hzero (promise.due + delayMs.toNat)
      have hmodify : (s.table.modify i fun entry =>
          { entry with triggerTime := entry.triggerTime + delayMs }) = s.table.set i
            { entry with triggerTime := UInt32.ofNat (promise.due + delayMs.toNat) } := by
        rw [List.modify_eq_set_getElem?, hslot, ← ofNat_add_ofNat, ← htime]
        rfl
      rw [if_pos hpos, if_neg hdelay, hmodify]
      refine ⟨?_, List.length_set, rfl, rfl, fun j hj => ?_, fun token' htoken =>
        Function.update_of_ne htoken _ _⟩
      · rw [hlive] at hretime ⊢
        exact hretime
      · exact List.getElem?_set_ne hj.symm

/-- A round of the task that fits. -/
theorem round_taskEntry (h : Tracks s.table m.live) (calls : Calls κ α)
    (hfits : EntryFits now calls i s m) :
    Round now i s m (s.taskEntry (UInt32.ofNat now) calls i).1
      (s.taskEntry (UInt32.ofNat now) calls i).2 := by
  unfold State.taskEntry
  cases hslot : s.table[i]? with
  | none =>
    refine round_idle h fun entry promise hentry => ?_
    rw [hslot] at hentry
    cases hentry
  | some entry =>
    dsimp only
    by_cases hdue : entry.token ≠ 0 ∧ timerDiff entry.triggerTime (UInt32.ofNat now) ≤ 0
    · rw [if_pos hdue]
      rcases hdue with ⟨hzero, hdue⟩
      rcases h.promised hslot hzero with ⟨promise, hlive, htime, hcallback, hsome, hcbArg⟩
      rcases hfits.near entry promise hslot hzero hlive with ⟨hnear, hnear'⟩
      have hdiff := timerDiff_eq hnear hnear'
      rw [← htime] at hdiff
      have hle : promise.due ≤ now := by omega
      set invoked : Event κ α :=
        .invoked entry.token entry.triggerTime entry.callback entry.cbArg with hinvoked
      have hfollow := @follows_run κ α s (m.see invoked) calls h
      have hrunning : ((m.see invoked).after (calls.run s).2.1).running = none ∧
            (calls.run s).1.table[i]?.map Entry.token ≠ some entry.token ∨
          ((m.see invoked).after (calls.run s).2.1).running = some entry.token ∧
            (calls.run s).1.table[i]?.map Entry.token = some entry.token := by
        rcases hfollow.running entry.token rfl with ⟨hnone, hmem⟩ | ⟨hrun, hnot⟩
        · exact Or.inl ⟨hnone, hfits.fresh entry promise hslot hzero hlive hle hmem⟩
        · rcases hfollow.token hslot hzero hnot with ⟨entry', hslot', htoken⟩
          refine Or.inr ⟨hrun, ?_⟩
          rw [hslot', Option.map_some, htoken]
      rcases requeue_spec hfollow.tracks hzero (calls.run s).2.2 hrunning with
        ⟨htracks, hlength, hlast, hstopped, hslots, hlives⟩
      have hafter : m.after (invoked :: (calls.run s).2.1 ++ [.returned (calls.run s).2.2]) =
          ((m.see invoked).after (calls.run s).2.1).see (.returned (calls.run s).2.2) := by
        rw [Monitor.after, List.cons_append, run_cons, run_append]
        rfl
      constructor
      · refine ⟨⟨promise, hlive, hle, htime, hcallback, hsome, hcbArg⟩, ?_⟩
        exact along_append.mpr ⟨hfollow.allowed now, trivial, trivial⟩
      · rwa [hafter]
      · exact hlength.trans hfollow.length
      · exact hlast.trans hfollow.lastTime
      · intro _
        rwa [hafter]
      · intro j found hji hfound hne hother
        have htoken : found.token ≠ entry.token := fun heq => hji (h.distinct hfound hslot hne heq)
        have hothers : ∀ event ∈ (calls.run s).2.1, event.token? ≠ some found.token :=
          fun event hevent => hother event (List.mem_append_left _ (List.mem_cons_of_mem _ hevent))
        rcases hfollow.other hfound hne hothers with ⟨hslot', hlive'⟩
        rw [hafter, hlives _ htoken]
        exact ⟨(hslots j hji).trans hslot', hlive'⟩
      · intro entry' promise' hslot' _ _ _
        rw [hslot, Option.some.injEq] at hslot'
        subst hslot'
        exact ⟨invoked, List.mem_append_left _ List.mem_cons_self, rfl⟩
    · rw [if_neg hdue]
      refine round_idle h fun entry' promise hentry hzero hlive => ?_
      rw [hslot, Option.some.injEq] at hentry
      subst hentry
      rcases h.promised hslot hzero with ⟨promise', hlive', htime, -⟩
      rw [hlive, Option.some.injEq] at hlive'
      subst hlive'
      rcases hfits.near entry promise hslot hzero hlive with ⟨hnear, hnear'⟩
      have hdiff := timerDiff_eq hnear hnear'
      rw [← htime] at hdiff
      by_contra hle
      exact hdue ⟨hzero, by omega⟩

end Rounds

/-- The task can rely on the slots it goes over. -/
def TaskFits (now : ℕ) (calls : ℕ → Calls κ α) : List ℕ → State κ α → Monitor κ α → Prop
  | [], _, _ => True
  | i :: is, s, m => EntryFits now (calls i) i s m ∧
      TaskFits now calls is (s.taskEntry (UInt32.ofNat now) (calls i) i).1
        (m.after (s.taskEntry (UInt32.ofNat now) (calls i) i).2)

instance decidableTaskFits [DecidableEq κ] [DecidableEq α] (now : ℕ) (calls : ℕ → Calls κ α) :
    (slots : List ℕ) → (s : State κ α) → (m : Monitor κ α) →
      Decidable (TaskFits now calls slots s m)
  | [], _, _ => inferInstanceAs (Decidable True)
  | i :: is, s, m =>
    have : ∀ s m, Decidable (TaskFits now calls is s m) := decidableTaskFits now calls is
    inferInstanceAs (Decidable (EntryFits now (calls i) i s m ∧ TaskFits now calls is _ _))

/-- The loop of the task: all of its rounds, and whatever was due at one of its slots is
served. -/
theorem taskLoop_spec {now : ℕ} {calls : ℕ → Calls κ α} {slots : List ℕ} {s : State κ α}
    {m : Monitor κ α} (h : Tracks s.table m.live) (hstopped : m.running = none)
    (hfits : TaskFits now calls slots s m) :
    (Along Monitor.see (Monitor.Allows now) m
        (State.taskLoop (UInt32.ofNat now) calls slots s).2 ∧
      Tracks (State.taskLoop (UInt32.ofNat now) calls slots s).1.table
        (m.after (State.taskLoop (UInt32.ofNat now) calls slots s).2).live ∧
      (State.taskLoop (UInt32.ofNat now) calls slots s).1.lastExecutionTime =
        s.lastExecutionTime ∧
      (m.after (State.taskLoop (UInt32.ofNat now) calls slots s).2).running = none) ∧
    ∀ j ∈ slots, ∀ entry promise, s.table[j]? = some entry → entry.token ≠ 0 →
      m.live entry.token = some promise → promise.due ≤ now →
        ∃ event ∈ (State.taskLoop (UInt32.ofNat now) calls slots s).2,
          event.token? = some entry.token := by
  induction slots generalizing s m with
  | nil => exact ⟨⟨trivial, h, rfl, hstopped⟩, fun j hj => absurd hj List.not_mem_nil⟩
  | cons i is ih =>
    have hround := round_taskEntry h (calls i) hfits.1
    rcases ih hround.tracks (hround.stopped hstopped) hfits.2 with
      ⟨⟨hallowed, htracks, hlast, hrunning⟩, hserved⟩
    rw [State.taskLoop]
    dsimp only
    generalize hfirst : s.taskEntry (UInt32.ofNat now) (calls i) i = first at *
    generalize State.taskLoop (UInt32.ofNat now) calls is first.1 = rest at *
    have hafter : m.after (first.2 ++ rest.2) = (m.after first.2).after rest.2 := run_append _ _ _
    rw [hafter]
    refine ⟨⟨along_append.mpr ⟨hround.allowed, hallowed⟩, htracks, hlast.trans hround.lastTime,
      hrunning⟩, ?_⟩
    intro j hj entry promise hslot hzero hlive hdue
    -- either this round is about the token, or the entry is as it was for the others
    by_cases hnamed : ∃ event ∈ first.2, event.token? = some entry.token
    · rcases hnamed with ⟨event, hevent, htoken⟩
      exact ⟨event, List.mem_append_left _ hevent, htoken⟩
    · have hother : ∀ event ∈ first.2, event.token? ≠ some entry.token :=
        fun event hevent htoken => hnamed ⟨event, hevent, htoken⟩
      have hji : j ≠ i := by
        rintro rfl
        exact hnamed (hround.served hslot hzero hlive hdue)
      rcases hround.other hji hslot hzero hother with ⟨hslot', hlive'⟩
      have hj' : j ∈ is := (List.mem_cons.mp hj).resolve_left hji
      rcases hserved j hj' entry promise hslot' hzero (hlive'.trans hlive) hdue with
        ⟨event, hevent, htoken⟩
      exact ⟨event, List.mem_append_right _ hevent, htoken⟩

/-! ## Runs -/

/-- A call of a client, or a run of the task. -/
inductive Op (κ α : Type) where
  | deferExec (now : ℕ) (delayMs : UInt32) (callback : Option κ) (cbArg : Option α)
  | extend (now : ℕ) (token : UInt8) (delayMs : UInt32)
  | cancel (token : UInt8)
  | task (now : ℕ) (calls : ℕ → Calls κ α)

/-- The table, with the record of its clients and the time of the last run of the task that was
not throttled. -/
structure System (κ α : Type) where
  state : State κ α
  monitor : Monitor κ α
  lastRun : ℕ

/-- Perform an operation: the table it leaves, and its events. -/
def System.perform (sys : System κ α) : Op κ α → State κ α × List (Event κ α)
  | .deferExec now delayMs callback cbArg => (sys.state.callDefer now delayMs callback cbArg).2
  | .extend now token delayMs => (sys.state.callExtend now token delayMs).2
  | .cancel token => (sys.state.callCancel token).2
  | .task now calls => sys.state.task (UInt32.ofNat now) calls

/-- The system after an operation. -/
def System.step (sys : System κ α) (op : Op κ α) : System κ α where
  state := (sys.perform op).1
  monitor := sys.monitor.after (sys.perform op).2
  lastRun := match op with
    | .task now _ => max sys.lastRun now
    | _ => sys.lastRun

/-- A table of {lit}`count` free slots at the time 0. -/
def start (κ α : Type) (count : ℕ) : System κ α where
  state := ⟨List.replicate count .free, 0, 0⟩
  monitor := ⟨fun _ => none, none⟩
  lastRun := 0

/-- The time at which an operation may invoke callbacks. -/
def Op.now : Op κ α → ℕ
  | .deferExec now _ _ _ | .extend now _ _ | .task now _ => now
  | .cancel _ => 0

/-- The task runs less than 2^31 ms after its last run, and can rely on the slots. -/
def Fits (sys : System κ α) : Op κ α → Prop
  | .task now calls => sys.lastRun ≤ now ∧ now < sys.lastRun + 2 ^ 31 ∧ (sys.lastRun < now →
      TaskFits now calls (List.range sys.state.table.length)
        { sys.state with lastExecutionTime := UInt32.ofNat now } sys.monitor)
  | _ => True

instance [DecidableEq κ] [DecidableEq α] (sys : System κ α) : (op : Op κ α) → Decidable (Fits sys op)
  | .task _ _ => inferInstanceAs (Decidable (_ ∧ _ ∧ (_ → _)))
  | .deferExec _ _ _ _ | .extend _ _ _ | .cancel _ => inferInstanceAs (Decidable True)

/-- What an operation owes its clients: tokens are not shared, callbacks are invoked for open
promises that are due, and a run of the task that is not throttled comes to all of these,
unless a callback was first to extend or cancel them. -/
structure Kept (sys : System κ α) (op : Op κ α) : Prop where
  distinct : ∀ {i j : ℕ} {entry entry' : Entry κ α}, (sys.step op).state.table[i]? = some entry →
    (sys.step op).state.table[j]? = some entry' → entry.token ≠ 0 → entry.token = entry'.token →
      i = j
  allowed : Along Monitor.see (Monitor.Allows op.now) sys.monitor (sys.perform op).2
  served : ∀ now calls, op = .task now calls → sys.lastRun < now → ∀ token promise,
    sys.monitor.live token = some promise → promise.due ≤ now →
      ∃ event ∈ (sys.perform op).2, event.token? = some token

/-- A call that fails leaves the table as it is. -/
structure FailuresHarmless (s : State κ α) : Prop where
  deferExec : ∀ now delayMs callback cbArg, (s.deferExec now delayMs callback cbArg).1 = 0 →
    (s.deferExec now delayMs callback cbArg).2.table = s.table
  extend : ∀ now token delayMs, (s.extendDeferredExec now token delayMs).1 = false →
    (s.extendDeferredExec now token delayMs).2.table = s.table
  cancel : ∀ token, (s.cancelDeferredExec token).1 = false →
    (s.cancelDeferredExec token).2.table = s.table

theorem failuresHarmless (s : State κ α) : FailuresHarmless s := by
  constructor
  · intro now delayMs callback cbArg hfail
    rcases deferExec_cases (s := s) now delayMs callback cbArg with
      ⟨-, htable, -⟩ | ⟨token, i, entry, heq, hne, -⟩
    · exact htable
    · rw [heq] at hfail
      exact absurd hfail hne
  · intro now token delayMs hfail
    rcases extendDeferredExec_cases (s := s) now token delayMs with heq | ⟨i, entry, heq, -⟩
    · rw [heq]
    · rw [heq] at hfail
      cases hfail
  · intro token hfail
    rcases cancelDeferredExec_cases (s := s) token with heq | ⟨i, entry, heq, -⟩
    · rw [heq]
    · rw [heq] at hfail
      cases hfail

/-- Between the operations no callback runs, and the record fits the table. -/
structure Settled (sys : System κ α) : Prop where
  tracks : Tracks sys.state.table sys.monitor.live
  stopped : sys.monitor.running = none
  lastTime : sys.state.lastExecutionTime = UInt32.ofNat sys.lastRun

section Runs

variable {sys : System κ α}

theorem settled_start (count : ℕ) : Settled (start κ α count) where
  tracks :=
    { distinct := by
        intro i j entry entry' hi hj hzero _
        have hfree := List.eq_of_mem_replicate (List.mem_of_getElem? hi)
        rw [hfree] at hzero
        exact absurd rfl hzero
      promised := by
        intro i entry hi hzero
        have hfree := List.eq_of_mem_replicate (List.mem_of_getElem? hi)
        rw [hfree] at hzero
        exact absurd rfl hzero
      present := fun hlive => absurd hlive (Option.some_ne_none _).symm }
  stopped := rfl
  lastTime := rfl

/-- A call of a client keeps the promises. -/
theorem Settled.call (h : Settled sys) {op : Op κ α}
    (hfollow : Follows sys.state sys.monitor (sys.perform op).1 (sys.perform op).2)
    (hop : ∀ now calls, op ≠ .task now calls) : Settled (sys.step op) ∧ Kept sys op := by
  have hlastRun : (sys.step op).lastRun = sys.lastRun := by
    cases op with
    | task now calls => exact absurd rfl (hop now calls)
    | deferExec now delayMs callback cbArg => rfl
    | extend now token delayMs => rfl
    | cancel token => rfl
  refine ⟨⟨hfollow.tracks, hfollow.stopped h.stopped, ?_⟩, ?_⟩
  · rw [hlastRun, ← h.lastTime]
    exact hfollow.lastTime
  · exact ⟨hfollow.tracks.distinct, hfollow.allowed _, fun now calls heq => absurd heq (hop now calls)⟩

/-- A run of the task that fits keeps the promises. -/
theorem Settled.task (h : Settled sys) {now : ℕ} {calls : ℕ → Calls κ α}
    (hfits : Fits sys (.task now calls)) :
    Settled (sys.step (.task now calls)) ∧ Kept sys (.task now calls) := by
  rcases hfits with ⟨hle, hlt, hslots⟩
  have hdiff := @timerDiff_eq now sys.lastRun (by omega) (by omega)
  rw [← h.lastTime] at hdiff
  by_cases hthrottled : sys.lastRun < now
  · have hrun : sys.perform (.task now calls) = State.taskLoop (UInt32.ofNat now) calls
        (List.range sys.state.table.length)
        { sys.state with lastExecutionTime := UInt32.ofNat now } := if_pos (by omega)
    rcases taskLoop_spec (s := { sys.state with lastExecutionTime := UInt32.ofNat now })
      h.tracks h.stopped (hslots hthrottled) with
      ⟨⟨hallowed, htracks, hlast, hstopped⟩, hserved⟩
    rw [← hrun] at hallowed htracks hlast hstopped hserved
    refine ⟨⟨htracks, hstopped, ?_⟩, htracks.distinct, hallowed, ?_⟩
    · change _ = UInt32.ofNat (max sys.lastRun now)
      rw [Nat.max_eq_right hle]
      exact hlast
    · intro now' calls' heq _ token promise hlive hdue
      cases heq
      rcases h.tracks.present hlive with ⟨hzero, j, entry, hslot, rfl⟩
      have hj : j < sys.state.table.length := (List.getElem?_eq_some_iff.mp hslot).1
      exact hserved j (List.mem_range.mpr hj) entry promise hslot hzero hlive hdue
  · have heq : sys.lastRun = now := by omega
    have hrun : sys.perform (.task now calls) = (sys.state, []) := if_neg (by omega)
    have hstep : sys.step (.task now calls) = sys := by
      unfold System.step
      rw [hrun]
      dsimp only
      rw [heq, Nat.max_self, ← heq]
      rfl
    rw [hstep]
    refine ⟨h, ?_, ?_, ?_⟩
    · rw [hstep]
      exact h.tracks.distinct
    · rw [hrun]
      trivial
    · intro now' calls' heq' hlater
      cases heq'
      exact absurd hlater hthrottled

/-- Every operation that fits keeps the promises. -/
theorem Settled.step (h : Settled sys) {op : Op κ α} (hfits : Fits sys op) :
    Settled (sys.step op) ∧ Kept sys op := by
  cases op with
  | deferExec now delayMs callback cbArg =>
    exact h.call (follows_defer h.tracks _ _ _ _) nofun
  | extend now token delayMs =>
    exact h.call (follows_extend h.tracks _ _ _) nofun
  | cancel token => exact h.call (follows_cancel h.tracks _) nofun
  | task now calls => exact h.task hfits

end Runs

/-- In every run in which the task comes in time, no entry is 2^31 ms away from its due time when
the task looks at it, and no callback gets its own token again for its own slot, the promises of
the table are kept; and no call that fails changes the table. -/
theorem promisesKept (count : ℕ) (ops : List (Op κ α))
    (h : Along System.step Fits (start κ α count) ops) :
    Along System.step Kept (start κ α count) ops ∧ ∀ s : State κ α, FailuresHarmless s := by
  refine ⟨?_, failuresHarmless⟩
  exact along_of_invariant Settled (fun sys op hsettled hfits => (hsettled.step hfits).1)
    (fun sys op hsettled hfits => (hsettled.step hfits).2) (settled_start count) h

/-- The first executor defers a second one, puts it off and goes on; the second one cancels the
first and is done. -/
def twoExecutors : List (Op Bool Unit) :=
  [.deferExec 0 10 (some true) none,
    .task 10 fun _ => .deferExec 10 5 (some false) none fun token =>
      .extend 10 token 20 fun _ => .ret 30,
    .task 30 fun _ => .cancel 1 fun _ => .ret 0, .task 40 fun _ => .ret 0]

theorem promisesKept_twoExecutors :
    Along System.step Kept (start Bool Unit 2) twoExecutors ∧
      ∀ s : State Bool Unit, FailuresHarmless s :=
  promisesKept 2 twoExecutors (by decide +kernel)

/-! ## A token that comes back -/

/-- An executor with the token 1 for the time 300, and 254 others that come and go: the next
token but the invalid one is 1. -/
def wrapTokens : List (Op Unit Unit) :=
  .deferExec 0 300 (some ()) none ::
    (List.range 254).flatMap fun k =>
      [.deferExec 0 300 (some ()) none, .cancel (UInt8.ofNat (k + 2))]

/-- Now the first callback cancels itself, defers again and returns 0. -/
def reusedToken : List (Op Unit Unit) :=
  wrapTokens ++
    [.task 300 fun _ => .cancel 1 fun _ => .deferExec 300 5 (some ()) none fun _ => .ret 0]

/-- Then the task runs at the time for which it deferred. -/
def tokenComesBack : List (Op Unit Unit) :=
  reusedToken ++ [.task 305 fun _ => .ret 0]

/-- What was deferred last is not served: the answer of the callback has freed its slot. -/
theorem not_kept_tokenComesBack : ¬Along System.step Kept (start Unit Unit 2) tokenComesBack := by
  intro h
  rw [tokenComesBack, along_append] at h
  have hidle : ((run System.step (start Unit Unit 2) reusedToken).perform
      (.task 305 fun _ => .ret 0)).2 = [] := by decide +kernel
  have hopen : ((run System.step (start Unit Unit 2) reusedToken).monitor.live 1).map
      Promise.due = some 305 := by decide +kernel
  rcases Option.map_eq_some_iff.mp hopen with ⟨promise, hlive, hdue⟩
  have hlater : (run System.step (start Unit Unit 2) reusedToken).lastRun < 305 := by
    decide +kernel
  rcases h.2.1.served 305 (fun _ => .ret 0) rfl hlater 1 promise hlive hdue.le with
    ⟨event, hevent, -⟩
  rw [hidle] at hevent
  exact absurd hevent List.not_mem_nil

end DeferredExec
end VialQmk
