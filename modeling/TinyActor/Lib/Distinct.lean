/-
Lists without their repetitions.

`eraseDups` keeps the first occurrence of each member.  Dropping repetitions in the parts of a
list changes nothing if they are dropped from the whole in the end, so a traversal that drops
them at every level gives what it would give by dropping them once.
-/
import Mathlib.Data.List.Nodup

namespace TinyActor.Lib

variable {α : Type} [DecidableEq α] {as as' bs bs' : List α}

/-- Induction as `eraseDups` goes: past the first member and all its repetitions. -/
theorem eraseDups_induction {motive : List α → Prop} (nil : motive [])
    (cons : ∀ a as, motive (as.filter fun b => !b == a) → motive (a :: as)) : ∀ as, motive as
  | [] => nil
  | a :: as => cons a as (eraseDups_induction nil cons (as.filter fun b => !b == a))
termination_by as => as.length
decreasing_by exact Nat.lt_succ_of_le (List.length_filter_le _ _)

theorem eraseDups_nodup (as : List α) : as.eraseDups.Nodup := by
  induction as using eraseDups_induction with
  | nil => exact List.nodup_nil
  | cons a as ih =>
      rw [List.eraseDups_cons, List.nodup_cons]
      refine ⟨fun hin => ?_, ih⟩
      simp [List.mem_eraseDups] at hin

theorem filter_eraseDups (p : α → Bool) (as : List α) :
    (as.filter p).eraseDups = as.eraseDups.filter p := by
  induction as using eraseDups_induction with
  | nil => rfl
  | cons a as ih =>
      rw [List.eraseDups_cons]
      by_cases hp : p a = true
      · rw [List.filter_cons_of_pos hp, List.filter_cons_of_pos hp, List.eraseDups_cons, ← ih,
          List.filter_filter, List.filter_filter]
        simp only [Bool.and_comm]
      · rw [List.filter_cons_of_neg hp, List.filter_cons_of_neg hp, ← ih, List.filter_filter]
        refine congrArg List.eraseDups (List.filter_congr fun b _ => ?_)
        by_cases hba : b = a
        · rw [hba]
          simp [hp]
        · simp [hba]

theorem eraseDups_eraseDups (as : List α) : as.eraseDups.eraseDups = as.eraseDups := by
  induction as using eraseDups_induction with
  | nil => rfl
  | cons a as ih =>
      rw [List.eraseDups_cons, List.eraseDups_cons, ← filter_eraseDups, List.filter_filter]
      simp only [Bool.and_self, ih]

/-- **Repetitions may be dropped from the parts first.** -/
theorem eraseDups_append_congr (ha : as.eraseDups = as'.eraseDups)
    (hb : bs.eraseDups = bs'.eraseDups) : (as ++ bs).eraseDups = (as' ++ bs').eraseDups := by
  have hmem : ∀ x, x ∈ as ↔ x ∈ as' := by
    intro x
    rw [← List.mem_eraseDups, ha, List.mem_eraseDups]
  rw [List.eraseDups_append, List.eraseDups_append, List.removeAll, List.removeAll, filter_eraseDups,
    filter_eraseDups, ha, hb]
  refine congrArg _ (List.filter_congr fun x _ => ?_)
  simp [hmem x]

end TinyActor.Lib
