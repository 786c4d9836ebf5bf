import Mathlib

/-!
# Ordered writes to a store, and crashes

A store is a function from addresses to values. A device performs writes one at a
time and in program order, so what a crash leaves behind is the store after a
prefix of the writes. `Interrupted` closes this under restarts of a procedure
that is itself cut short any number of times.
-/

namespace Xv6.Lib

section
variable {α β : Type*} [DecidableEq α] {store : α → β} {ws vs : List (α × β)} {a : α} {b : β}

/-- The store after the writes `ws`, in order. -/
def applyWrites (store : α → β) (ws : List (α × β)) : α → β :=
  ws.foldl (fun d w => Function.update d w.1 w.2) store

@[simp] theorem applyWrites_nil : applyWrites store [] = store := rfl

theorem applyWrites_append : applyWrites store (ws ++ vs) = applyWrites (applyWrites store ws) vs := by
  simp [applyWrites, List.foldl_append]

@[simp] theorem applyWrites_cons {w : α × β} :
    applyWrites store (w :: ws) = applyWrites (Function.update store w.1 w.2) ws := rfl

/-- An address that no write names keeps its value. -/
theorem applyWrites_untouched (off : a ∉ ws.map Prod.fst) : applyWrites store ws a = store a := by
  induction ws generalizing store with
  | nil => rfl
  | cons w ws ih =>
    rw [List.map_cons, List.mem_cons, not_or] at off
    rw [applyWrites_cons, ih off.2, Function.update_of_ne off.1]

/-- Of writes to distinct addresses every one can be read back. -/
theorem applyWrites_of_mem (distinct : (ws.map Prod.fst).Nodup) (member : (a, b) ∈ ws) :
    applyWrites store ws a = b := by
  induction ws generalizing store with
  | nil => cases member
  | cons w ws ih =>
    rw [List.map_cons, List.nodup_cons] at distinct
    rw [applyWrites_cons]
    rcases List.mem_cons.1 member with rfl | later
    · rw [applyWrites_untouched distinct.1, Function.update_self]
    · exact ih distinct.2 later

/-! ## A procedure that is cut short and restarted -/

variable {writes : (α → β) → Option (List (α × β))}

/-- `Interrupted writes d d'`: the procedure that does `writes d` on the store `d` was started from
`d`, cut after some prefix of its writes, started again from what that left, and so on, up to `d'`. -/
def Interrupted (writes : (α → β) → Option (List (α × β))) : (α → β) → (α → β) → Prop :=
  Relation.ReflTransGen fun d d' => ∃ ws, writes d = some ws ∧ ∃ k, d' = applyWrites d (ws.take k)

/-- What every prefix of the procedure keeps survives any number of interruptions. -/
theorem Interrupted.invariant {d d' : α → β} (Inv : (α → β) → Prop) (start : Inv d)
    (keep : ∀ d ws k, Inv d → writes d = some ws → Inv (applyWrites d (ws.take k)))
    (cut : Interrupted writes d d') : Inv d' := by
  induction cut with
  | refl => exact start
  | tail _ again ih =>
    obtain ⟨ws, done, k, rfl⟩ := again
    exact keep _ ws k ih done

end

end Xv6.Lib
