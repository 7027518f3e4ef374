import Mathlib.Data.List.Dedup
import Mathlib.Tactic.Common

/-!
# Lists in order of latest use

A list of some of the keys that were used, each of them once, in the order in which each was
used last.  {lit}`List.dedup` keeps the last of equal entries, so such a list is a sublist of
the history without its duplicates.

Main results:

- Theorem {lit}`Latest.use`: a key that is used moves to the end.
- Theorem {lit}`Latest.sublist`: keys may be forgotten.
-/

variable {α : Type*} [DecidableEq α] {history keys keys' : List α}

/-- Keys of the history, each once, in order of their latest use. -/
def Latest (history keys : List α) : Prop :=
  keys.Sublist history.dedup

theorem latest_nil (history : List α) : Latest history [] :=
  List.nil_sublist _

theorem Latest.nodup (h : Latest history keys) : keys.Nodup :=
  List.Nodup.sublist h (List.nodup_dedup history)

/-- Keys may be forgotten. -/
theorem Latest.sublist (h : Latest history keys) (hsub : keys'.Sublist keys) :
    Latest history keys' :=
  List.Sublist.trans hsub h

theorem List.dedup_concat (history : List α) (a : α) :
    (history ++ [a]).dedup = history.dedup.erase a ++ [a] := by
  induction history with
  | nil => simp
  | cons first history ih =>
    rw [List.cons_append]
    by_cases hlater : first ∈ history
    · rw [List.dedup_cons_of_mem (List.mem_append_left _ hlater), List.dedup_cons_of_mem hlater, ih]
    · rw [List.dedup_cons_of_notMem hlater]
      by_cases hsame : first = a
      · subst hsame
        have hnot : first ∉ history.dedup := fun h => hlater (List.mem_dedup.mp h)
        rw [List.dedup_cons_of_mem (List.mem_append_right _ List.mem_cons_self), ih,
          List.erase_cons_head, List.erase_of_not_mem hnot]
      · have hnot : first ∉ history ++ [a] := by
          simp [hlater, hsame]
        have hother : ¬ (first == a) = true := by simpa using hsame
        rw [List.dedup_cons_of_notMem hnot, ih, List.erase_cons_tail hother, List.cons_append]

/-- A key that is used moves to the end. -/
theorem Latest.use (h : Latest history keys) (a : α) :
    Latest (history ++ [a]) (keys.erase a ++ [a]) := by
  unfold Latest
  rw [List.dedup_concat]
  exact (List.Sublist.erase a h).append_right [a]

/-- A new key is put at the end. -/
theorem Latest.use_new (h : Latest history keys) {a : α} (hnew : a ∉ keys) :
    Latest (history ++ [a]) (keys ++ [a]) := by
  have huse := h.use a
  rwa [List.erase_of_not_mem hnew] at huse

/-- The key at a place moves to the end. -/
theorem Latest.use_at (h : Latest history keys) {i : ℕ} (hi : i < keys.length) :
    Latest (history ++ [keys[i]]) (keys.eraseIdx i ++ [keys[i]]) := by
  have huse := h.use keys[i]
  rwa [List.erase_eq_eraseIdx_of_idxOf (h.nodup.idxOf_getElem i hi)] at huse
